import CompileService.Http.Listing
import CompileService.Wire.TcpClient

/-!
# What a request is answered with

`RequestHandler` of `response.c` with its handlers, down to the bytes that are handed to the socket. A page is sent
with one `TcpClient_SendRaw`, a file with one for the header and one for each piece that `read` delivers.
-/

namespace CompileService.Http

open CompileService.Base CompileService.Wire

/-- How the calls of `read` divide what a file contains: into pieces of 1 to 1024 bytes. -/
structure Division (contents : List UInt8) where
  pieces : List (List UInt8)
  whole : pieces.flatten = contents
  size : ∀ piece ∈ pieces, 1 ≤ piece.length ∧ piece.length ≤ 1024

/-- The world around one `RequestHandler`: its allocations, the results of `send`, how a file is read, and the value
that a function returns which ends without a `return`. -/
structure Run where
  ap : Bool
  fileAp : Bool
  head : Malloc
  buf : Malloc
  page : PageHeap
  err : Malloc
  resp : Malloc
  sends : Nat → SendEvent
  reads : (contents : List UInt8) → Division contents
  noReturn : Int

/-! ## Formats -/

/-- The header block for a body of type `type`; its length is yet to be printed. -/
def httpFormat (type : CStr) : CStr :=
  ["HTTP/1.1 200 OK\r\n",
   "Server:Test Http Server\r\n",
   "Content-Length:%d\r\n",
   "Content-Type:"].flatMap ascii ++ type ++
  ["\r\n",
   "Connection:close\r\n\r\n"].flatMap ascii

/-- `HTTP_FORMAT` of `Response`. -/
def pageHttpFormat : CStr := httpFormat (ascii "text/html") ++ ascii "%s"

/-- `HTTP_FORMAT` of `FileReqHandler`. -/
def fileHttpFormat : CStr := httpFormat (ascii "application/*")

def bufSize : Nat := 1024

/-! ## Handlers -/

/-- `Response`: 1 if something was sent. -/
def response (run : Run) (out : Outlet) (html : Option (List UInt8)) : Exec (Int × Outlet) :=
  match html with
  | none => .ok (0, out)
  | some html => do
      let s ← cstr html
      match run.resp (pageHttpFormat.length + s.length + 16) with
      | none => return (0, out)
      | some resp =>
          let resp ← putStr resp.toList 0 (printf pageHttpFormat [.num s.length, .str s])
          let len := (← cstr resp).length
          let (sent, out) ← TcpClient.sendRaw run.sends out resp (toInt32 len)
          return (if sent > 0 then 1 else 0, out)

/-- One round of the loop of `FileReqHandler`: `read` puts a piece at the beginning of `buf`, which is sent whatever
became of the pieces before. -/
def copyPiece (run : Run) : Int × List UInt8 × Outlet → List UInt8 → Exec (Int × List UInt8 × Outlet)
  | (ret, buf, out), piece => do
      let buf := writeAt buf 0 piece
      let (sent, out) ← TcpClient.sendRaw run.sends out buf piece.length
      return (toInt32 (ret + sent), buf, out)

/-- The loop; it is not entered unless some of the header was sent. -/
def copyFile (run : Run) (len : Int) (buf contents : List UInt8) (out : Outlet) : Exec (Int × Outlet) :=
  if len > 0 then do
    let (ret, _, out) ← (run.reads contents).pieces.foldlM (copyPiece run) (0, buf, out)
    return (ret, out)
  else .ok (0, out)

namespace Disk

variable (d : Disk) (run : Run)

def dirReqHandler (out : Outlet) (req root : CStr) : Exec (Int × Outlet) := do
  let html ← d.makeHTML run.page req root
  let (_, out) ← response run out html
  return (run.noReturn, out)

def fileReqHandler (out : Outlet) (req root : CStr) : Exec (Int × Outlet) := do
  let ap ← getAbsPath run.fileAp req root
  match run.head (fileHttpFormat.length + 32), run.buf bufSize, ap.bind d.openFile with
  | some head, some buf, some contents =>
      let max := toInt32 contents.length
      let head ← putStr head.toList 0 (printf fileHttpFormat [.num max])
      let headLen := (← cstr head).length
      let (len, out) ← TcpClient.sendRaw run.sends out head (toInt32 headLen)
      let (ret, out) ← copyFile run len buf.toList contents out
      return (if ret = max then 1 else 0, out)
  | _, _, _ => return (0, out)

end Disk

def badReqHandler (run : Run) (out : Outlet) (req : CStr) : Exec (Int × Outlet) := do
  let html ← toErrString run.err req
  let (_, out) ← response run out html
  return (run.noReturn, out)

/-- `RequestHandler` for a client, a request and a root that are not null. -/
def Disk.requestHandler (d : Disk) (run : Run) (out : Outlet) (req root : CStr) : Exec (Int × Outlet) := do
  match ← getAbsPath run.ap req root with
  | some ap =>
      if d.access ap then
        if getEntryCount d.toFileSystem ap < 0 then d.fileReqHandler run out req root
        else d.dirReqHandler run out req root
      else badReqHandler run out req
  | none => badReqHandler run out req

end CompileService.Http
