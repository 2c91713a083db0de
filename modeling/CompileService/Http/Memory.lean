import CompileService.Base.Separation
import CompileService.Http.Answer

/-!
# The memory of an answer

The functions of `page.c` and `response.c` that allocate and free, on a heap and with pointers as in the source. A
directory that is open and a file that is open are blocks too, and 0 stands for a descriptor of -1.
-/

namespace CompileService.Http.Memory

open CompileService.Base Prog CompileService.Wire

/-- `path` is a string that is read as a whole, `text` the bytes of any other. -/
inductive Block where
  | path (s : CStr)
  | text (bytes : List UInt8)
  | row (row : RowInfo)
  | entries (fe : FileEntry)
  | dir (entries : List Dirent)
  | file (contents : List UInt8)

def Block.toPath : Block → Option CStr
  | path s => some s
  | _ => none

def Block.toText : Block → Option (List UInt8)
  | text bytes => some bytes
  | _ => none

def Block.toRow : Block → Option RowInfo
  | row info => some info
  | _ => none

def Block.toEntries : Block → Option FileEntry
  | entries fe => some fe
  | _ => none

def Block.toDir : Block → Option (List Dirent)
  | dir dps => some dps
  | _ => none

def Block.toFile : Block → Option (List UInt8)
  | file contents => some contents
  | _ => none

def loadPath (a : Nat) : Prog Block CStr := loadAs Block.toPath a

def loadText (a : Nat) : Prog Block (List UInt8) := loadAs Block.toText a

def loadRow (a : Nat) : Prog Block RowInfo := loadAs Block.toRow a

def loadEntries (a : Nat) : Prog Block FileEntry := loadAs Block.toEntries a

def loadDir (a : Nat) : Prog Block (List Dirent) := loadAs Block.toDir a

def loadFile (a : Nat) : Prog Block (List UInt8) := loadAs Block.toFile a

/-- A function that allocates its result and fills it in. -/
def make {ι : Type} (A : Allocator Block) (block : ι → Block) (x : Exec (Option ι)) : Prog Block Nat := do
  let r ← eval x
  alloc A (r.map block)

variable (A : Allocator Block)

def mallocText (malloc : Malloc) (size : Nat) : Prog Block Nat :=
  alloc A ((malloc size).map fun blk => .text blk.toList)

/-! ## `page.c` -/

def createTable (malloc : Malloc) : Prog Block Nat := make A .text (Http.createTable malloc)

def toErrString (malloc : Malloc) (path : CStr) : Prog Block Nat := make A .text (Http.toErrString malloc path)

def toTableString (malloc : Malloc) (table : Nat) : Prog Block Nat :=
  if table = 0 then return 0
  else do
    let t ← loadText table
    make A .text (Http.toTableString malloc (some t))

def toPageString (malloc : Malloc) (path : CStr) (ts : Nat) : Prog Block Nat :=
  if ts = 0 then return 0
  else do
    let t ← loadText ts
    make A .text (Http.toPageString malloc path (some t))

/-- The end of `InsertRow`, with the text of the row in `buf`. -/
def appendRow (grow : Malloc) (table buf : Nat) (len : Int) : Prog Block Nat := do
  let b ← loadText buf
  let s ← eval (cstr b)
  let t ← loadText table
  let ret ← realloc A table ((grow.realloc t (toSize (len + s.length + 1))).map .text)
  if ret = 0 then return table
  else do
    let blk ← loadText ret
    let blk ← eval (putStr blk len s)
    store ret (.text blk)
    return ret

def insertRow (buf grow : Malloc) (table : Nat) (info : RowInfo) : Prog Block Nat :=
  if table = 0 then return 0
  else do
    let t ← loadText table
    let s ← eval (cstr t)
    let len := toInt32 s.length
    let b ← mallocText A buf (rowFormat.length + sizeofRowInfo)
    if b = 0 then return table
    else do
      let blk ← loadText b
      let link ← eval info.link.text
      let name ← eval info.name.text
      let type ← eval info.type.text
      let size ← eval info.size.text
      let time ← eval info.time.text
      let blk ← eval (putStr blk 0 (printf rowFormat [.str link, .str name, .str type, .str size, .str time]))
      store b (.text blk)
      let ret ← appendRow A grow table b len
      free b
      return ret

/-! ## `response.c` -/

def getAbsPath (alloc : Bool) (relative root : CStr) : Prog Block Nat :=
  make A .path (Http.getAbsPath alloc relative root)

variable (d : Disk)

def opendir (path : CStr) : Prog Block Nat := alloc A ((d.opendir path).map .dir)

/-- `GetEntryCount` once the directory is open. -/
def countEntries (dirp : Nat) : Prog Block Int :=
  if dirp = 0 then return -1
  else do
    let entries ← loadDir dirp
    return (entries.filter fun dp => !isDotPath dp.name).length

def getEntryCount (path : CStr) : Prog Block Int := do
  let dirp ← opendir A d path
  let ret ← countEntries dirp
  free dirp
  return ret

/-- The loops of `SortFileEntry`. -/
def sortRows (temp : Option RowInfo) (fe t : Nat) : Prog Block Unit :=
  if fe = 0 ∨ t = 0 then return ()
  else do
    let rows ← loadEntries fe
    let rows ← eval (Http.sortFileEntry temp rows)
    store fe (.entries rows)

def sortFileEntry (temp : Option RowInfo) (fe : Nat) : Prog Block Unit := do
  let t ← alloc A (temp.map .row)
  sortRows temp fe t
  free t

/-- The branches of `MakeEntryItem` for files and for everything else. -/
def putEntrySize (item : RowInfo) (dp : Dirent) (path : CStr) (st_size : Int) : Prog Block RowInfo :=
  if dp.type = typeFile then eval (d.putEntrySize item dp path st_size)
  else do
    let count ← getEntryCount A d path
    eval (putSize item (ascii "Folder") (printf (ascii "%d") [.num count]) (ascii " Item"))

/-- `MakeEntryItem` once it has the path. -/
def fillItem (item : RowInfo) (dp : Dirent) (path : Nat) (req : CStr) : Prog Block (Bool × RowInfo) :=
  if path = 0 then return (false, item)
  else do
    let s ← loadPath path
    match d.stat s with
    | none => return (false, item)
    | some sb => do
        let link ← eval (makeLink item.link req dp.name)
        let name ← eval (item.name.strcpy dp.name)
        let item ← putEntrySize A d { item with link := link, name := name } dp s sb.toInt
        return (true, item)

def makeEntryItem (alloc : Bool) (item : RowInfo) (dp : Dirent) (ap req : CStr) : Prog Block (Bool × RowInfo) := do
  let path ← getAbsPath A alloc dp.name ap
  let r ← fillItem A d item dp path req
  free path
  return r

/-- `ret = realloc(ret, ..)` if the slots are full. -/
def growEntries (heap : EntryHeap) (ret : Nat) : Prog Block Nat := do
  let fe ← loadEntries ret
  if fe.length = fe.data.length then
    realloc A ret ((heap.grow (fe.data.length / 5)).map fun slots =>
      .entries { fe with data := fe.data ++ slots.toList })
  else return ret

/-- The body of the loop of `GetEntry`. -/
def addEntry (heap : EntryHeap) (ap req : CStr) (type : UInt8) (i : Nat) (dp : Dirent) (ret : Nat) :
    Prog Block Nat := do
  let ret ← growEntries A heap ret
  if ret = 0 then return 0
  else if (type = typeAll ∨ type = dp.type) ∧ !isDotPath dp.name then do
    let fe ← loadEntries ret
    let item ← eval (slotAt fe.data fe.length)
    let (ok, item) ← makeEntryItem A d (heap.path i) item dp ap req
    let data := fe.data.set fe.length item
    store ret (.entries (if ok then ⟨fe.length + 1, data⟩ else ⟨fe.length, data⟩))
    return ret
  else return ret

def readEntries (heap : EntryHeap) (ap req : CStr) (type : UInt8) : Nat → List Dirent → Nat → Prog Block Nat
  | _, [], ret => return ret
  | i, dp :: dps, ret => do
      let ret ← addEntry A d heap ap req type i dp ret
      if ret = 0 then return 0
      else readEntries heap ap req type (i + 1) dps ret

/-- `GetEntry` once the directory is open. -/
def collectEntries (heap : EntryHeap) (ap req : CStr) (type : UInt8) (dirp : Nat) : Prog Block Nat :=
  if dirp = 0 then return 0
  else do
    let entries ← loadDir dirp
    let ret ← alloc A (if heap.ret then some (.entries ⟨0, []⟩) else none)
    if ret = 0 then do
      sortFileEntry A heap.temp 0
      return 0
    else do
      let ret ← readEntries A d heap ap req type 0 entries ret
      sortFileEntry A heap.temp ret
      return ret

def getEntry (heap : EntryHeap) (req root : CStr) (type : UInt8) : Prog Block Nat := do
  let ap ← getAbsPath A heap.ap req root
  if ap = 0 then return 0
  else do
    let s ← loadPath ap
    let dirp ← opendir A d s
    let ret ← collectEntries A d heap s req type dirp
    free ap
    free dirp
    return ret

/-- The loops over the rows of a list. -/
def insertRows (heap : PageHeap) : Nat → List RowInfo → Nat → Prog Block Nat
  | _, [], table => return table
  | n, row :: rows, table => do
      let table ← insertRow A (heap.rowBuf n) (heap.rowGrow n) table row
      insertRows heap (n + 1) rows table

/-- The row that leads back, and how many rows were put in. -/
def insertBack (heap : PageHeap) (req : CStr) (table : Nat) : Prog Block (Nat × Nat) :=
  if req ≠ ascii "/" then do
    let back ← alloc A (if heap.back then some (.row .zeroed) else none)
    if back = 0 then return (0, table)
    else do
      let row ← eval (backRow req)
      store back (.row row)
      let row ← loadRow back
      let table ← insertRows A heap 0 [row] table
      free back
      return (1, table)
  else return (0, table)

/-- The rows of a list are put into the table, the first of them as the `n`-th, and the list is freed. -/
def insertEntries (heap : PageHeap) (n fe table : Nat) : Prog Block (Nat × Nat) :=
  if fe = 0 then return (n, table)
  else do
    let rows ← loadEntries fe
    let table ← insertRows A heap n rows.rows table
    free fe
    return (n + rows.rows.length, table)

def listEntries (heap : PageHeap) (list : EntryHeap) (req root : CStr) (type : UInt8) (n table : Nat) :
    Prog Block (Nat × Nat) := do
  let fe ← getEntry A d list req root type
  insertEntries A heap n fe table

/-- `MakeHTML` once all rows are in the table. -/
def finishPage (heap : PageHeap) (req : CStr) (table : Nat) : Prog Block Nat := do
  let ts ← toTableString A heap.tableString table
  let ret ← toPageString A heap.page req ts
  free ts
  free table
  return ret

/-- `MakeHTML` with a table. -/
def fillTable (heap : PageHeap) (req root : CStr) (table : Nat) : Prog Block Nat := do
  let (n, table) ← insertBack A heap req table
  let (n, table) ← listEntries A d heap heap.dirs req root typeDir n table
  let (_, table) ← listEntries A d heap heap.files req root typeFile n table
  finishPage A heap req table

def makeHTML (heap : PageHeap) (req root : CStr) : Prog Block Nat := do
  let table ← createTable A heap.table
  if table = 0 then return 0
  else fillTable A d heap req root table

variable (run : Run)

def response (out : Outlet) (html : Nat) : Prog Block (Int × Outlet) :=
  if html = 0 then return (0, out)
  else do
    let bytes ← loadText html
    let s ← eval (cstr bytes)
    let resp ← mallocText A run.resp (pageHttpFormat.length + s.length + 16)
    if resp = 0 then return (0, out)
    else do
      let blk ← loadText resp
      let blk ← eval (putStr blk 0 (printf pageHttpFormat [.num s.length, .str s]))
      store resp (.text blk)
      let len ← eval (cstr blk)
      let (sent, out) ← eval (TcpClient.sendRaw run.sends out blk (toInt32 len.length))
      free resp
      return (if sent > 0 then 1 else 0, out)

def dirReqHandler (out : Outlet) (req root : CStr) : Prog Block (Int × Outlet) := do
  let html ← makeHTML A d run.page req root
  let (_, out) ← response A run out html
  free html
  return (run.noReturn, out)

def badReqHandler (out : Outlet) (req : CStr) : Prog Block (Int × Outlet) := do
  let html ← toErrString A run.err req
  let (_, out) ← response A run out html
  free html
  return (run.noReturn, out)

def openFile (ap : Nat) : Prog Block Nat :=
  if ap = 0 then return 0
  else do
    let s ← loadPath ap
    alloc A ((d.openFile s).map .file)

/-- `FileReqHandler` once it has its blocks and the file is open. -/
def sendFile (out : Outlet) (ap head buf fd : Nat) : Prog Block (Int × Outlet) :=
  if ap = 0 ∨ head = 0 ∨ buf = 0 ∨ fd = 0 then return (0, out)
  else do
    let contents ← loadFile fd
    let max := toInt32 contents.length
    let blk ← loadText head
    let blk ← eval (putStr blk 0 (printf fileHttpFormat [.num max]))
    store head (.text blk)
    let headLen ← eval (cstr blk)
    let (len, out) ← eval (TcpClient.sendRaw run.sends out blk (toInt32 headLen.length))
    let b ← loadText buf
    let (ret, out) ← eval (copyFile run len b contents out)
    return (if ret = max then 1 else 0, out)

def fileReqHandler (out : Outlet) (req root : CStr) : Prog Block (Int × Outlet) := do
  let ap ← getAbsPath A run.fileAp req root
  let fd ← openFile A d ap
  let head ← mallocText A run.head (fileHttpFormat.length + 32)
  let buf ← mallocText A run.buf bufSize
  let r ← sendFile run out ap head buf fd
  free buf
  free head
  free ap
  free fd
  return r

/-- The handler for what lies at `ap`. -/
def dispatch (out : Outlet) (req root : CStr) (ap : Nat) : Prog Block (Int × Outlet) :=
  if ap = 0 then badReqHandler A run out req
  else do
    let s ← loadPath ap
    if d.access s then do
      let count ← getEntryCount A d s
      if count < 0 then fileReqHandler A d run out req root else dirReqHandler A d run out req root
    else badReqHandler A run out req

def requestHandler (out : Outlet) (req root : CStr) : Prog Block (Int × Outlet) := do
  let ap ← getAbsPath A run.ap req root
  let r ← dispatch A d run out req root ap
  free ap
  return r

end CompileService.Http.Memory
