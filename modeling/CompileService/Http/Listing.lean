import CompileService.Http.Response
import CompileService.Http.Page

/-!
# Listing a directory

`GetEntry` and `MakeHTML` of `response.c` with the rows that they fill in. The rows of a `FileEntry` lie in an array
that `realloc` enlarges five slots at a time; what a new slot holds is up to the allocator.
-/

namespace CompileService.Http

open CompileService.Base

/-- A file system that is also asked for the `st_size` of what lies at a path. -/
structure Disk extends FileSystem where
  stat : CStr → Option Int64

/-- The allocations of one `GetEntry`: `grow k` is the `k`-th `realloc` with the contents of the new slots, `path i`
the `GetAbsPath` for the `i`-th entry that `readdir` returns, `temp` the row of `SortFileEntry`. -/
structure EntryHeap where
  ap : Bool
  ret : Bool
  grow : Nat → Option (Vector RowInfo 5)
  path : Nat → Bool
  temp : Option RowInfo

/-- The allocations of one `MakeHTML`: `rowBuf n` and `rowGrow n` belong to the `n`-th `InsertRow`. -/
structure PageHeap where
  table : Malloc
  back : Bool
  rowBuf : Nat → Malloc
  rowGrow : Nat → Malloc
  dirs : EntryHeap
  files : EntryHeap
  tableString : Malloc
  page : Malloc

/-- The first `length` slots of `data` are rows; `data` has the `max` slots that were allocated. -/
structure FileEntry where
  length : Nat
  data : List RowInfo

def FileEntry.rows (fe : FileEntry) : List RowInfo := fe.data.take fe.length

/-- An access to a slot. -/
def slotAt (data : List RowInfo) (i : Nat) : Exec RowInfo :=
  match data[i]? with
  | some row => .ok row
  | none => .error .bounds

def typeAll : UInt8 := 0x00

/-! ## Rows -/

/-- `strcmp(a,b) > 0`. -/
def nameAfter (a b : RowInfo) : Exec Bool := do return decide ((← b.name.text) < (← a.name.text))

/-- The inner loop of `SortFileEntry`. -/
def minFrom (data : List RowInfo) (length i : Nat) : Exec Nat :=
  (List.range' i (length - i)).foldlM
    (fun min j => do return if ← nameAfter (← slotAt data min) (← slotAt data j) then j else min) i

/-- The body of its outer loop: the smallest row from `i` on changes places with row `i`. -/
def sortStep (length : Nat) (data : List RowInfo) (i : Nat) : Exec (List RowInfo) := do
  let min ← minFrom data length i
  let temp ← slotAt data i
  let data := data.set i (← slotAt data min)
  return data.set min temp

def sortFileEntry (temp : Option RowInfo) (fe : FileEntry) : Exec FileEntry :=
  match temp with
  | none => .ok fe
  | some _ => do
      let data ← (List.range fe.length).foldlM (sortStep fe.length) fe.data
      return { fe with data := data }

/-- The `link` of `MakeEntryItem`. -/
def makeLink (link : CArray 2048) (req name : CStr) : Exec (CArray 2048) := do
  let link ← link.strcpy req
  let link ← if req ≠ ascii "/" then link.strcat (ascii "/") else .ok link
  link.strcat name

/-- The `type` and `size` of `MakeEntryItem`; the number is printed into `buf` first. -/
def putSize (item : RowInfo) (type number unit : CStr) : Exec RowInfo := do
  let type ← item.type.strcpy type
  let buf ← (CArray.zeroed : CArray 32).strcpy number
  let size ← item.size.strcpy (← buf.text)
  let size ← size.strcat unit
  return { item with type := type, size := size }

namespace Disk

/-- The branches of `MakeEntryItem` for files and for everything else. -/
def putEntrySize (d : Disk) (item : RowInfo) (dp : Dirent) (path : CStr) (st_size : Int) : Exec RowInfo :=
  if dp.type = typeFile then
    if st_size < 1024 then
      putSize item (ascii "File") (printf (ascii "%ld") [.num st_size]) (ascii " Byte")
    else if st_size.tdiv 1024 < 1024 then
      putSize item (ascii "File") (printf (ascii "%ld") [.num (st_size.tdiv 1024)]) (ascii " KB")
    else
      putSize item (ascii "File") (printf (ascii "%ld") [.num ((st_size.tdiv 1024).tdiv 1024)]) (ascii " MB")
  else
    putSize item (ascii "Folder") (printf (ascii "%d") [.num (getEntryCount d.toFileSystem path)]) (ascii " Item")

def makeEntryItem (d : Disk) (alloc : Bool) (item : RowInfo) (dp : Dirent) (ap req : CStr) :
    Exec (Bool × RowInfo) := do
  match ← getAbsPath alloc dp.name ap with
  | none => return (false, item)
  | some path =>
      match d.stat path with
      | none => return (false, item)
      | some sb =>
          let link ← makeLink item.link req dp.name
          let name ← item.name.strcpy dp.name
          -- `item->time` is not written
          let item ← d.putEntrySize { item with link := link, name := name } dp path sb.toInt
          return (true, item)

/-- The body of the loop of `GetEntry` for the `i`-th entry; `none` if `realloc` fails, which ends the loop. -/
def addEntry (d : Disk) (heap : EntryHeap) (ap req : CStr) (type : UInt8) (i : Nat) (dp : Dirent)
    (fe : FileEntry) : Exec (Option FileEntry) :=
  let grown :=
    if fe.length = fe.data.length then
      (heap.grow (fe.data.length / 5)).map fun slots => { fe with data := fe.data ++ slots.toList }
    else some fe
  match grown with
  | none => .ok none
  | some fe =>
      if (type = typeAll ∨ type = dp.type) ∧ !isDotPath dp.name then do
        let (ok, item) ← d.makeEntryItem (heap.path i) (← slotAt fe.data fe.length) dp ap req
        let data := fe.data.set fe.length item
        return some (if ok then ⟨fe.length + 1, data⟩ else ⟨fe.length, data⟩)
      else .ok (some fe)

def readEntries (d : Disk) (heap : EntryHeap) (ap req : CStr) (type : UInt8) :
    Nat → List Dirent → FileEntry → Exec (Option FileEntry)
  | _, [], fe => .ok (some fe)
  | i, dp :: dps, fe => do
      match ← d.addEntry heap ap req type i dp fe with
      | none => return none
      | some fe => d.readEntries heap ap req type (i + 1) dps fe

def getEntry (d : Disk) (heap : EntryHeap) (req root : CStr) (type : UInt8) : Exec (Option FileEntry) := do
  match ← getAbsPath heap.ap req root with
  | none => return none
  | some ap =>
      match d.opendir ap with
      | none => return none
      | some entries =>
          if heap.ret then
            match ← d.readEntries heap ap req type 0 entries ⟨0, []⟩ with
            | none => return none
            | some fe => return some (← sortFileEntry heap.temp fe)
          else return none

end Disk

/-! ## Pages -/

/-- The loop `while(link[i] != '/') i--`, for `i + 1` bytes that are left of the string; the first byte is the
beginning of the row. -/
def lastSlash (link : List UInt8) : Nat → Exec Nat
  | 0 => .error .bounds
  | i + 1 => if link[i]? = some slash then .ok i else lastSlash link i

/-- The NUL in the place of the last slash, or after it if it is the first byte. -/
def cutLink (link : CArray 2048) (i : Nat) : Exec (CArray 2048) :=
  if i ≠ 0 then link.put i [] else link.put (i + 1) []

/-- The row that leads back to the parent. -/
def backRow (req : CStr) : Exec RowInfo := do
  let back := RowInfo.zeroed
  let link ← back.link.strcpy req
  let i ← lastSlash link.toList req.length
  let link ← cutLink link i
  let name ← back.name.strcpy (ascii "./..")
  let type ← back.type.strcpy (ascii "Back..")
  return { back with link := link, name := name, type := type }

/-- The rows before those of the entries: none at the root. -/
def backRows (alloc : Bool) (req : CStr) : Exec (List RowInfo) :=
  if req ≠ ascii "/" ∧ alloc = true then (backRow req).map fun back => [back] else .ok []

/-- The loops over the rows; the first of them is the `n`-th row of the table. -/
def insertRows (heap : PageHeap) : Nat → List RowInfo → Option (List UInt8) → Exec (Option (List UInt8))
  | _, [], table => .ok table
  | n, row :: rows, table => do
      let table ← insertRow (heap.rowBuf n) (heap.rowGrow n) table (some row)
      insertRows heap (n + 1) rows table

def Disk.makeHTML (d : Disk) (heap : PageHeap) (req root : CStr) : Exec (Option (List UInt8)) := do
  match ← createTable heap.table with
  | none => return none
  | some table =>
      let back ← backRows heap.back req
      let table ← insertRows heap 0 back (some table)
      let dirs ← d.getEntry heap.dirs req root typeDir
      let dirs := dirs.elim [] FileEntry.rows
      let table ← insertRows heap back.length dirs table
      let files ← d.getEntry heap.files req root typeFile
      let files := files.elim [] FileEntry.rows
      let table ← insertRows heap (back.length + dirs.length) files table
      match ← toTableString heap.tableString table with
      | none => return none
      | some ts => toPageString heap.page req (some ts)

end CompileService.Http
