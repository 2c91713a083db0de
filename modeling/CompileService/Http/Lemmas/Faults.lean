import CompileService.Base.Run
import CompileService.Http.Answer

/-!
# Faults on values

The functions that answer a request can leave the bounds of a block. On values they have no pointers, so nothing in
them can dangle.
-/

namespace CompileService.Http

open CompileService.Base CompileService.Wire

theorem check_ne_dangling {α : Type} (p : Prop) [Decidable p] (a : α) :
    (if p then .ok a else .error .bounds : Exec α) ≠ .error .dangling := by
  split
  · nofun
  · nofun

theorem cstr_ne_dangling (mem : List UInt8) : cstr mem ≠ .error .dangling := check_ne_dangling _ _

theorem putStr_ne_dangling (blk : List UInt8) (off : Int) (s : CStr) : putStr blk off s ≠ .error .dangling :=
  check_ne_dangling _ _

section
variable {n : Nat} (a : CArray n)

theorem text_ne_dangling : a.text ≠ .error .dangling := cstr_ne_dangling _

theorem put_ne_dangling (off : Nat) (s : CStr) : a.put off s ≠ .error .dangling := by
  unfold CArray.put
  split
  · nofun
  · nofun

theorem strcpy_ne_dangling (s : CStr) : a.strcpy s ≠ .error .dangling := put_ne_dangling a 0 s

theorem strcat_ne_dangling (s : CStr) : a.strcat s ≠ .error .dangling :=
  Exec.bind_ne_error (text_ne_dangling a) fun t => put_ne_dangling a t.length s

end

/-! ## Tables and pages -/

theorem createTable_ne_dangling (malloc : Malloc) : createTable malloc ≠ .error .dangling := by
  unfold createTable
  split
  · nofun
  · exact Exec.bind_ne_error (putStr_ne_dangling _ _ _) fun _ => nofun

theorem toErrString_ne_dangling (malloc : Malloc) (path : CStr) : toErrString malloc path ≠ .error .dangling := by
  unfold toErrString
  split
  · nofun
  · exact Exec.bind_ne_error (putStr_ne_dangling _ _ _) fun _ => nofun

theorem toTableString_ne_dangling (malloc : Malloc) (table : Option (List UInt8)) :
    toTableString malloc table ≠ .error .dangling := by
  unfold toTableString
  split
  · nofun
  refine Exec.bind_ne_error (cstr_ne_dangling _) fun s => ?_
  split
  · nofun
  refine Exec.bind_ne_error (putStr_ne_dangling _ _ _) fun _ => ?_
  refine Exec.bind_ne_error (putStr_ne_dangling _ _ _) fun _ => ?_
  exact Exec.bind_ne_error (putStr_ne_dangling _ _ _) fun _ => nofun

theorem toPageString_ne_dangling (malloc : Malloc) (path : CStr) (ts : Option (List UInt8)) :
    toPageString malloc path ts ≠ .error .dangling := by
  unfold toPageString
  split
  · nofun
  refine Exec.bind_ne_error (cstr_ne_dangling _) fun s => ?_
  split
  · nofun
  · exact Exec.bind_ne_error (putStr_ne_dangling _ _ _) fun _ => nofun

theorem insertRow_ne_dangling (buf grow : Malloc) (table : Option (List UInt8)) (info : Option RowInfo) :
    insertRow buf grow table info ≠ .error .dangling := by
  unfold insertRow
  split
  · refine Exec.bind_ne_error (cstr_ne_dangling _) fun s => ?_
    dsimp only
    split
    · nofun
    refine Exec.bind_ne_error (text_ne_dangling _) fun _ => Exec.bind_ne_error (text_ne_dangling _) fun _ => ?_
    refine Exec.bind_ne_error (text_ne_dangling _) fun _ => Exec.bind_ne_error (text_ne_dangling _) fun _ => ?_
    refine Exec.bind_ne_error (text_ne_dangling _) fun _ => Exec.bind_ne_error (putStr_ne_dangling _ _ _) fun _ => ?_
    refine Exec.bind_ne_error (cstr_ne_dangling _) fun s => ?_
    split
    · nofun
    · exact Exec.bind_ne_error (putStr_ne_dangling _ _ _) fun _ => nofun
  · nofun

theorem insertRows_ne_dangling (heap : PageHeap) (n : Nat) (rows : List RowInfo) (table : Option (List UInt8)) :
    insertRows heap n rows table ≠ .error .dangling := by
  induction rows generalizing n table with
  | nil => nofun
  | cons row rows ih => exact Exec.bind_ne_error (insertRow_ne_dangling _ _ _ _) fun t => ih (n + 1) t

/-! ## Rows -/

theorem getAbsPath_ne_dangling (alloc : Bool) (relative root : CStr) :
    getAbsPath alloc relative root ≠ .error .dangling := by
  unfold getAbsPath
  split
  · split
    · nofun
    · nofun
  · nofun

theorem slotAt_ne_dangling (data : List RowInfo) (i : Nat) : slotAt data i ≠ .error .dangling := by
  unfold slotAt
  split
  · nofun
  · nofun

theorem nameAfter_ne_dangling (a b : RowInfo) : nameAfter a b ≠ .error .dangling :=
  Exec.bind_ne_error (text_ne_dangling _) fun _ => Exec.bind_ne_error (text_ne_dangling _) fun _ => nofun

theorem sortStep_ne_dangling (length : Nat) (data : List RowInfo) (i : Nat) :
    sortStep length data i ≠ .error .dangling := by
  refine Exec.bind_ne_error (foldlM_ne_error (fun min j => ?_) _ _) fun min => ?_
  · refine Exec.bind_ne_error (slotAt_ne_dangling _ _) fun _ => Exec.bind_ne_error (slotAt_ne_dangling _ _) fun _ => ?_
    exact Exec.bind_ne_error (nameAfter_ne_dangling _ _) fun _ => nofun
  · refine Exec.bind_ne_error (slotAt_ne_dangling _ _) fun _ => ?_
    exact Exec.bind_ne_error (slotAt_ne_dangling _ _) fun _ => nofun

theorem sortFileEntry_ne_dangling (temp : Option RowInfo) (fe : FileEntry) :
    sortFileEntry temp fe ≠ .error .dangling := by
  cases temp with
  | none => nofun
  | some row => exact Exec.bind_ne_error (foldlM_ne_error (sortStep_ne_dangling _) _ _) fun _ => nofun

theorem makeLink_ne_dangling (link : CArray 2048) (req name : CStr) : makeLink link req name ≠ .error .dangling := by
  refine Exec.bind_ne_error (strcpy_ne_dangling _ _) fun link => ?_
  split
  · exact Exec.bind_ne_error (strcat_ne_dangling _ _) fun link => strcat_ne_dangling _ _
  · exact strcat_ne_dangling _ _

theorem putSize_ne_dangling (item : RowInfo) (type number unit : CStr) :
    putSize item type number unit ≠ .error .dangling := by
  refine Exec.bind_ne_error (strcpy_ne_dangling _ _) fun _ => Exec.bind_ne_error (strcpy_ne_dangling _ _) fun _ => ?_
  refine Exec.bind_ne_error (text_ne_dangling _) fun _ => Exec.bind_ne_error (strcpy_ne_dangling _ _) fun _ => ?_
  exact Exec.bind_ne_error (strcat_ne_dangling _ _) fun _ => nofun

theorem backRow_ne_dangling (req : CStr) : backRow req ≠ .error .dangling := by
  have hslash : ∀ (link : List UInt8) i, lastSlash link i ≠ .error .dangling := by
    intro link i
    induction i with
    | zero => nofun
    | succ i ih =>
        unfold lastSlash
        split
        · nofun
        · exact ih
  have hcut : ∀ (link : CArray 2048) i, cutLink link i ≠ .error .dangling := by
    intro link i
    unfold cutLink
    split
    · exact put_ne_dangling _ _ _
    · exact put_ne_dangling _ _ _
  refine Exec.bind_ne_error (strcpy_ne_dangling _ _) fun _ => Exec.bind_ne_error (hslash _ _) fun _ => ?_
  refine Exec.bind_ne_error (hcut _ _) fun _ => Exec.bind_ne_error (strcpy_ne_dangling _ _) fun _ => ?_
  exact Exec.bind_ne_error (strcpy_ne_dangling _ _) fun _ => nofun

theorem backRows_ne_dangling (alloc : Bool) (req : CStr) : backRows alloc req ≠ .error .dangling := by
  unfold backRows
  split
  · rw [← Exec.bind_ok_eq_map]
    exact Exec.bind_ne_error (backRow_ne_dangling req) fun _ => nofun
  · nofun

/-! ## Directories -/

section
variable (d : Disk)

theorem putEntrySize_ne_dangling (item : RowInfo) (dp : Dirent) (path : CStr) (st_size : Int) :
    d.putEntrySize item dp path st_size ≠ .error .dangling := by
  unfold Disk.putEntrySize
  split
  · split
    · exact putSize_ne_dangling _ _ _ _
    · split
      · exact putSize_ne_dangling _ _ _ _
      · exact putSize_ne_dangling _ _ _ _
  · exact putSize_ne_dangling _ _ _ _

theorem makeEntryItem_ne_dangling (alloc : Bool) (item : RowInfo) (dp : Dirent) (ap req : CStr) :
    d.makeEntryItem alloc item dp ap req ≠ .error .dangling := by
  refine Exec.bind_ne_error (getAbsPath_ne_dangling _ _ _) fun path => ?_
  split
  · nofun
  split
  · nofun
  refine Exec.bind_ne_error (makeLink_ne_dangling _ _ _) fun _ => ?_
  refine Exec.bind_ne_error (strcpy_ne_dangling _ _) fun _ => ?_
  exact Exec.bind_ne_error (putEntrySize_ne_dangling d _ _ _ _) fun _ => nofun

theorem readEntries_ne_dangling (heap : EntryHeap) (ap req : CStr) (type : UInt8) (i : Nat) (entries : List Dirent)
    (fe : FileEntry) : d.readEntries heap ap req type i entries fe ≠ .error .dangling := by
  induction entries generalizing i fe with
  | nil => nofun
  | cons dp entries ih =>
      refine Exec.bind_ne_error ?_ fun r => ?_
      · unfold Disk.addEntry
        dsimp only
        split
        · nofun
        split
        · refine Exec.bind_ne_error (slotAt_ne_dangling _ _) fun _ => ?_
          exact Exec.bind_ne_error (makeEntryItem_ne_dangling d _ _ _ _ _) fun _ => nofun
        · nofun
      · cases r with
        | none => nofun
        | some fe => exact ih (i + 1) fe

theorem getEntry_ne_dangling (heap : EntryHeap) (req root : CStr) (type : UInt8) :
    d.getEntry heap req root type ≠ .error .dangling := by
  refine Exec.bind_ne_error (getAbsPath_ne_dangling _ _ _) fun ap => ?_
  split
  · nofun
  split
  · nofun
  split
  · refine Exec.bind_ne_error (readEntries_ne_dangling d _ _ _ _ _ _ _) fun r => ?_
    split
    · nofun
    · exact Exec.bind_ne_error (sortFileEntry_ne_dangling _ _) fun _ => nofun
  · nofun

theorem makeHTML_ne_dangling (heap : PageHeap) (req root : CStr) : d.makeHTML heap req root ≠ .error .dangling := by
  refine Exec.bind_ne_error (createTable_ne_dangling _) fun t => ?_
  split
  · nofun
  refine Exec.bind_ne_error (backRows_ne_dangling _ _) fun back => ?_
  refine Exec.bind_ne_error (insertRows_ne_dangling _ _ _ _) fun table => ?_
  refine Exec.bind_ne_error (getEntry_ne_dangling d _ _ _ _) fun dirs => ?_
  refine Exec.bind_ne_error (insertRows_ne_dangling _ _ _ _) fun table => ?_
  refine Exec.bind_ne_error (getEntry_ne_dangling d _ _ _ _) fun files => ?_
  refine Exec.bind_ne_error (insertRows_ne_dangling _ _ _ _) fun table => ?_
  refine Exec.bind_ne_error (toTableString_ne_dangling _ _) fun ts => ?_
  split
  · nofun
  · exact toPageString_ne_dangling _ _ _

end

/-! ## Answers -/

theorem sendRaw_ne_dangling (sched : Nat → SendEvent) (out : Outlet) (buf : List UInt8) (length : Int) :
    TcpClient.sendRaw sched out buf length ≠ .error .dangling := check_ne_dangling _ _

variable (run : Run)

theorem response_ne_dangling (out : Outlet) (html : Option (List UInt8)) :
    response run out html ≠ .error .dangling := by
  cases html with
  | none => nofun
  | some html =>
      refine Exec.bind_ne_error (cstr_ne_dangling _) fun s => ?_
      split
      · nofun
      refine Exec.bind_ne_error (putStr_ne_dangling _ _ _) fun _ => Exec.bind_ne_error (cstr_ne_dangling _) fun _ => ?_
      exact Exec.bind_ne_error (sendRaw_ne_dangling _ _ _ _) fun _ => nofun

theorem copyFile_ne_dangling (len : Int) (buf contents : List UInt8) (out : Outlet) :
    copyFile run len buf contents out ≠ .error .dangling := by
  unfold copyFile
  split
  · refine Exec.bind_ne_error (foldlM_ne_error ?_ _ _) fun _ => nofun
    rintro ⟨ret, buf, out⟩ piece
    exact Exec.bind_ne_error (sendRaw_ne_dangling _ _ _ _) fun _ => nofun
  · nofun

theorem badReqHandler_ne_dangling (out : Outlet) (req : CStr) : badReqHandler run out req ≠ .error .dangling :=
  Exec.bind_ne_error (toErrString_ne_dangling _ _) fun html =>
    Exec.bind_ne_error (response_ne_dangling run _ html) fun _ => nofun

namespace Disk

variable (d : Disk)

theorem fileReqHandler_ne_dangling (out : Outlet) (req root : CStr) :
    d.fileReqHandler run out req root ≠ .error .dangling := by
  refine Exec.bind_ne_error (getAbsPath_ne_dangling _ _ _) fun ap => ?_
  split
  · refine Exec.bind_ne_error (putStr_ne_dangling _ _ _) fun _ => Exec.bind_ne_error (cstr_ne_dangling _) fun _ => ?_
    refine Exec.bind_ne_error (sendRaw_ne_dangling _ _ _ _) fun _ => ?_
    exact Exec.bind_ne_error (copyFile_ne_dangling run _ _ _ _) fun _ => nofun
  · nofun

theorem requestHandler_ne_dangling (out : Outlet) (req root : CStr) :
    d.requestHandler run out req root ≠ .error .dangling := by
  refine Exec.bind_ne_error (getAbsPath_ne_dangling _ _ _) fun ap => ?_
  split
  · split
    · split
      · exact fileReqHandler_ne_dangling run d out req root
      · exact Exec.bind_ne_error (makeHTML_ne_dangling d _ _ _) fun html =>
          Exec.bind_ne_error (response_ne_dangling run _ html) fun _ => nofun
    · exact badReqHandler_ne_dangling run out req
  · exact badReqHandler_ne_dangling run out req

end Disk

end CompileService.Http
