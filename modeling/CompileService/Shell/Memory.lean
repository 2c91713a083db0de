import CompileService.Base.Separation
import CompileService.Shell.Malloc2d
import CompileService.Shell.Session

/-!
# Lines and rows in memory

`FormatByChar`, `DivideByChar`, `Malloc2d` and `Free2d` on a heap, and the command loop with its handlers, of which
`Start_Handler` makes a block. The rows that `DivideByChar` fills in belong to its caller. The threads that a start
creates are not part of the loop: what they allocate is among the blocks next to its own.
-/

namespace CompileService.Shell.Memory

open CompileService.Base CompileService.Server CompileService.Http Prog

deriving instance DecidableEq for TcpServer

/-- A row pointer is a block and the bytes before the row; it is none as long as it is not set. -/
inductive Block where
  | bytes (bytes : List UInt8)
  | pointers (ret : List (Option (Nat × Int)))
  | server (s : TcpServer)
deriving DecidableEq

def Block.toBytes : Block → Option (List UInt8)
  | bytes blk => some blk
  | _ => none

def Block.toPointers : Block → Option (List (Option (Nat × Int)))
  | pointers ret => some ret
  | _ => none

def Block.toServer : Block → Option TcpServer
  | server s => some s
  | _ => none

def loadBytes (a : Nat) : Prog Block (List UInt8) := loadAs Block.toBytes a

def loadPointers (a : Nat) : Prog Block (List (Option (Nat × Int))) := loadAs Block.toPointers a

def loadServer (a : Nat) : Prog Block TcpServer := loadAs Block.toServer a

variable (A : Allocator Block)

def mallocBytes (malloc : Malloc) (size : Nat) : Prog Block Nat :=
  alloc A ((malloc size).map fun blk => .bytes blk.toList)

/-! ## `utility.c` -/

def formatByChar (malloc : Malloc) (src : Option CStr) (c : UInt8) : Prog Block Nat :=
  let s := src.getD []
  let len := toInt32 s.length
  if len = 0 then return 0
  else do
    let ret ← mallocBytes A malloc (formatSize s)
    if ret = 0 then return 0
    else do
      let blk ← loadBytes ret
      let f ← eval (((s.take len.toNat).dropWhile (· = c)).foldlM (formatByte c) ⟨blk, 0, false⟩)
      let blk ← eval (setByte f.ret (if f.flag then f.j - 1 else f.j : Int) 0)
      store ret (.bytes blk)
      return ret

/-- `DivideByChar` with what `FormatByChar` returned. -/
def divideFormatted (c : UInt8) (argv : List (List UInt8)) (row col : Int) (buf : Nat) :
    Prog Block (Int × Option (List (List UInt8))) :=
  if buf = 0 then return (0, some argv)
  else do
    let blk ← loadBytes buf
    let s ← eval (cstr blk)
    let len := toInt32 s.length
    if len = 0 then return (0, some argv)
    else do
      let blk ← eval (setByte blk len c)
      store buf (.bytes blk)
      let d ← eval (divideLoop blk c row col (len + 1).toNat ⟨0, 0, 0, argv⟩)
      free buf
      return (d.ret, some d.argv)

def divideByChar (malloc : Malloc) (line : Option CStr) (c : UInt8) (argv : Option (List (List UInt8)))
    (row col : Int) : Prog Block (Int × Option (List (List UInt8))) :=
  match line, argv with
  | some line, some argv => do
      let buf ← formatByChar A malloc (some line) c
      divideFormatted c argv row col buf
  | _, argv => return (0, argv)

/-- The loop of `Malloc2d` for `n` more values of `i`. -/
def setRows (size : Nat) (col : Int) (p ret : Nat) : Nat → Nat → Prog Block Unit
  | 0, _ => return ()
  | n + 1, i => do
      let rows ← loadPointers ret
      if i < rows.length then do
        store ret (.pointers (rows.set i (some (p, rowOffset size col i))))
        setRows size col p ret n (i + 1)
      else eval (.error .bounds)

/-- `Malloc2d` with its two blocks. -/
def fillRows (size : Nat) (row col : Int) (ret p : Nat) : Prog Block Nat :=
  if ret ≠ 0 ∧ p ≠ 0 then do
    setRows size col p ret row.toNat 0
    return ret
  else do
    free ret
    free p
    return 0

def malloc2d (pointers elements : Malloc) (size : Nat) (row col : Int) : Prog Block Nat :=
  if 0 < row ∧ 0 < col then do
    let ret ← alloc A ((pointers (pointersSize row)).map fun blk =>
      .pointers (List.replicate (blk.toList.length / sizeofPointer) none))
    let p ← mallocBytes A elements (elementsSize size row col)
    fillRows size row col ret p
  else return 0

/-- `free(*pp)`: the first row has to begin where its block begins. -/
def freeRow (row : Option (Option (Nat × Int))) : Prog Block Unit :=
  match row with
  | some (some (p, off)) => if off = 0 then free p else eval (.error .bounds)
  | _ => eval (.error .bounds)

def free2d (p : Nat) : Prog Block Unit :=
  if p = 0 then free 0
  else do
    let ret ← loadPointers p
    freeRow ret.head?
    free p

/-! ## `tcp_server.c` -/

def tcpServerNew (t : Turn) : Prog Block Nat := alloc A (if t.server then some (.server .new) else none)

/-- `TcpServer_Start` of a server that is there. -/
def tcpServerStart (server : Nat) (t : Turn) : Prog Block Bool := do
  let s ← loadServer server
  store server (.server (s.start t.socket t.bind t.listen))
  return (s.start t.socket t.bind t.listen).valid

def tcpServerIsValid (server : Nat) : Prog Block Bool :=
  if server ≠ 0 then do
    let s ← loadServer server
    return s.valid
  else return false

/-! ## `main.c` -/

/-- `g_status`, and the servers in the order of their starts; no command uses a pointer to one again. -/
structure Console where
  status : Status
  servers : List Nat

structure Session where
  loop : Loop
  console : Console

def startHandler (c : Console) (t : Turn) : Prog Block (Option Console) :=
  if c.status = .stop then do
    let server ← tcpServerNew A t
    if server = 0 then return none -- `TcpServer_Start` returns `s->valid`
    else do
      let _ ← tcpServerStart server t
      let valid ← tcpServerIsValid server
      let err := !(valid && t.create)
      return some ⟨if !err then .run else .stop, c.servers ++ [server]⟩
  else return some { c with status := .run }

def pauseHandler (c : Console) : Console := if c.status = .run then { c with status := .pause } else c

def handle (c : Console) (t : Turn) : Option Handler → Prog Block (Option Console)
  | none => return some c
  | some .start => startHandler A c t
  | some .pause => return some (pauseHandler c)
  | some .exit => return none

/-- The command in `line`. If the process ends with it, nothing is freed. -/
def command (c : Console) (t : Turn) (line : List UInt8) : Prog Block (Option Console) := do
  let s ← eval (cstr line)
  let cmd ← formatByChar A t.malloc (some s) 0x20
  if cmd = 0 then return none
  else do
    let blk ← loadBytes cmd
    let s ← eval (cstr blk)
    match ← handle A c t (gHandler.lookup s) with
    | none => return none
    | some c => do
        free cmd
        return some c

/-- A line that may be empty. -/
def handleLine (c : Console) (t : Turn) (line : List UInt8) : Prog Block (Option Console) := do
  let b ← eval (byteAt line 0)
  if b ≠ 0 then command A c t line else return some c

def iteration (s : Session) (t : Turn) : Prog Block Session :=
  if s.loop.ended then return s
  else do
    let read ← eval (fgets (List.replicate bufSize 0) (bufSize - 1) s.loop.stdin)
    let text ← eval (cstr read.1)
    let last := toSize (text.length - 1)
    let line := read.1.set last 0
    let console ← handleLine A s.console t line
    return ⟨⟨read.2, s.loop.used ++ [last, 0], console.isNone⟩, console.getD s.console⟩

def run (stdin : CStr) (turns : List Turn) : Prog Block Session :=
  turns.foldlM (iteration A) ⟨⟨stdin, [], false⟩, ⟨.stop, []⟩⟩

end CompileService.Shell.Memory
