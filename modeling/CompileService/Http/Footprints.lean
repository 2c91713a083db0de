import CompileService.Http.Lemmas.Growth
import CompileService.Http.Memory

/-!
# What the handlers do to memory

Each function on the heap carries out the function of the same name on values. It frees what it allocates and does not
return, with one exception: a list of entries that finds no memory to grow is neither returned nor freed.
-/

namespace CompileService.Http.Memory

open CompileService.Base Assertion Carries CompileService.Wire

/-! ## Footprints -/

def pathAt (a : Nat) (s : CStr) : Assertion Block := pointsTo a (.path s)

def textAt (a : Nat) (bytes : List UInt8) : Assertion Block := pointsTo a (.text bytes)

def entriesAt (a : Nat) (fe : FileEntry) : Assertion Block := pointsTo a (.entries fe)

def dirAt (a : Nat) (dps : List Dirent) : Assertion Block := pointsTo a (.dir dps)

def fileAt (a : Nat) (contents : List UInt8) : Assertion Block := pointsTo a (.file contents)

/-- The list after a `realloc`, or no list and its old block. -/
def grownAt (a : Nat) : Option FileEntry → Assertion Block
  | some fe => entriesAt a fe
  | none => fact (a = 0) * blocks 1

section rules
variable {α ρ ι : Type} {F : Assertion Block} {m : Exec ρ} {Q : ρ → α → Assertion Block}

theorem Carries.loadPath {a : Nat} {s : CStr} {k : CStr → Prog Block α} (hk : Carries (pathAt a s * F) (k s) m Q) :
    Carries (pathAt a s * F) (Memory.loadPath a >>= k) m Q := loadAs rfl hk

theorem Carries.loadText {a : Nat} {bytes : List UInt8} {k : List UInt8 → Prog Block α}
    (hk : Carries (textAt a bytes * F) (k bytes) m Q) :
    Carries (textAt a bytes * F) (Memory.loadText a >>= k) m Q := loadAs rfl hk

theorem Carries.loadRow {a : Nat} {info : RowInfo} {k : RowInfo → Prog Block α}
    (hk : Carries (pointsTo a (.row info) * F) (k info) m Q) :
    Carries (pointsTo a (.row info) * F) (Memory.loadRow a >>= k) m Q := loadAs rfl hk

theorem Carries.loadEntries {a : Nat} {fe : FileEntry} {k : FileEntry → Prog Block α}
    (hk : Carries (entriesAt a fe * F) (k fe) m Q) :
    Carries (entriesAt a fe * F) (Memory.loadEntries a >>= k) m Q := loadAs rfl hk

theorem Carries.loadDir {a : Nat} {dps : List Dirent} {k : List Dirent → Prog Block α}
    (hk : Carries (dirAt a dps * F) (k dps) m Q) : Carries (dirAt a dps * F) (Memory.loadDir a >>= k) m Q :=
  loadAs rfl hk

theorem Carries.loadFile {a : Nat} {contents : List UInt8} {k : List UInt8 → Prog Block α}
    (hk : Carries (fileAt a contents * F) (k contents) m Q) :
    Carries (fileAt a contents * F) (Memory.loadFile a >>= k) m Q := loadAs rfl hk

/-- A block that may not be there is freed. -/
theorem Carries.freeOrNull {block : ι → Block} {a : Nat} {r : Option ι} {k : Unit → Prog Block α}
    (hk : Carries F (k ()) m Q) :
    Carries (orNull (fun a i => pointsTo a (block i)) a r * F) (Prog.free a >>= k) m Q := by
  cases r with
  | none =>
      apply of_fact
      rintro rfl
      exact free_null hk
  | some i => exact free hk

end rules

variable {A : Allocator Block}

/-- An allocation that may fail. -/
theorem alloc_carries {ι : Type} (block : ι → Block) (r : Option ι) :
    Carries 1 (Prog.alloc A (r.map block)) (.ok r) fun r a => orNull (fun a i => pointsTo a (block i)) a r := by
  rw [← bind_pure (Prog.alloc A _)]
  cases r with
  | none =>
      apply alloc_none
      exact ret fun h hP => ⟨rfl, hP⟩
  | some i =>
      apply alloc
      intro a
      apply ret
      intro h hP
      rwa [mul_one] at hP

theorem make_carries {ι : Type} (block : ι → Block) (x : Exec (Option ι)) :
    Carries 1 (make A block x) x fun r a => orNull (fun a i => pointsTo a (block i)) a r := by
  have hmake : Carries 1 (make A block x) (x >>= pure) fun r a => orNull (fun a i => pointsTo a (block i)) a r :=
    eval fun r _ => alloc_carries block r
  rwa [bind_pure] at hmake

theorem mallocText_carries (malloc : Malloc) (size : Nat) :
    Carries 1 (mallocText A malloc size) (.ok ((malloc size).map Vector.toList)) fun r a => orNull textAt a r := by
  unfold mallocText
  have halloc := alloc_carries (A := A) .text ((malloc size).map Vector.toList)
  rwa [Option.map_map] at halloc

/-! ## `page.c` -/

theorem createTable_carries (malloc : Malloc) :
    Carries 1 (createTable A malloc) (Http.createTable malloc) fun r a => orNull textAt a r := make_carries .text _

theorem toErrString_carries (malloc : Malloc) (path : CStr) :
    Carries 1 (toErrString A malloc path) (Http.toErrString malloc path) fun r a => orNull textAt a r :=
  make_carries .text _

/-- A function that reads a text, if there is one, and returns a new text. -/
theorem reads_carries {c : Nat → Prog Block Nat} (f : Option (List UInt8) → Exec (Option (List UInt8)))
    (hnull : f none = .ok none) (hc : ∀ a, c a = if a = 0 then pure 0 else do
      let t ← loadText a
      make A .text (f (some t)))
    (a : Nat) (t : Option (List UInt8)) :
    Carries (orNull textAt a t) (c a) (f t) fun r ret => orNull textAt ret r * orNull textAt a t := by
  rw [hc]
  cases t with
  | none =>
      rw [hnull, ← mul_one (orNull textAt a none)]
      apply of_fact
      rintro rfl
      rw [if_pos rfl]
      apply ret
      rintro h rfl
      rw [orNull_null, one_mul, one_mul]
      rfl
  | some t =>
      rw [← mul_one (orNull textAt a (some t))]
      apply of_pointsTo
      intro hne
      rw [if_neg hne]
      apply Carries.loadText
      exact beside (make_carries .text _) _

theorem toTableString_carries (malloc : Malloc) (table : Nat) (t : Option (List UInt8)) :
    Carries (orNull textAt table t) (toTableString A malloc table) (Http.toTableString malloc t) fun r ret =>
      orNull textAt ret r * orNull textAt table t :=
  reads_carries (Http.toTableString malloc) rfl (fun _ => rfl) table t

theorem toPageString_carries (malloc : Malloc) (path : CStr) (ts : Nat) (t : Option (List UInt8)) :
    Carries (orNull textAt ts t) (toPageString A malloc path ts) (Http.toPageString malloc path t) fun r ret =>
      orNull textAt ret r * orNull textAt ts t := reads_carries (Http.toPageString malloc path) rfl (fun _ => rfl) ts t

theorem appendRow_carries (grow : Malloc) (table buf : Nat) (t b : List UInt8) (len : Int) :
    Carries (textAt buf b * textAt table t) (appendRow A grow table buf len) (do
      let s ← cstr b
      match grow.realloc t (toSize (len + s.length + 1)) with
      | none => return some t
      | some ret => return some (← putStr ret len s)) fun r ret => orNull textAt ret r * textAt buf b := by
  unfold appendRow
  apply Carries.loadText
  apply eval
  intro s _
  rw [mul_comm]
  apply Carries.loadText
  cases grow.realloc t (toSize (len + s.length + 1)) with
  | none =>
      apply realloc_none
      exact ret fun h => id
  | some blk =>
      apply realloc
      intro a
      apply of_pointsTo
      intro hne
      rw [if_neg hne]
      apply Carries.loadText
      apply eval
      intro blk _
      apply store
      exact ret fun h => id

theorem insertRow_carries (buf grow : Malloc) (table : Nat) (t : Option (List UInt8)) (info : RowInfo) :
    Carries (orNull textAt table t) (insertRow A buf grow table info) (Http.insertRow buf grow t (some info))
      fun r a => orNull textAt a r := by
  unfold insertRow mallocText
  apply of_mul_one
  cases t with
  | none =>
      apply of_fact
      rintro rfl
      exact ret fun h hP => ⟨rfl, hP⟩
  | some t =>
      apply of_pointsTo
      intro hne
      rw [if_neg hne]
      apply Carries.loadText
      apply eval
      intro s _
      cases buf (rowFormat.length + sizeofRowInfo) with
      | none =>
          apply alloc_none
          apply ret
          intro h hP
          rwa [mul_one] at hP
      | some blk =>
          apply alloc
          intro b
          apply of_pointsTo
          intro hb
          rw [if_neg hb]
          apply Carries.loadText
          apply eval
          intro link _
          apply eval
          intro name _
          apply eval
          intro type _
          apply eval
          intro size _
          apply eval
          intro time _
          apply eval
          intro blk _
          apply store
          rw [mul_one]
          apply after (appendRow_carries grow table b t blk _)
          intro r a
          rw [mul_comm]
          apply Carries.free
          exact ret fun h => id

/-! ## `response.c` -/

theorem getAbsPath_carries (alloc : Bool) (relative root : CStr) :
    Carries 1 (getAbsPath A alloc relative root) (Http.getAbsPath alloc relative root) fun r a => orNull pathAt a r :=
  make_carries .path _

section
variable {d : Disk}

theorem opendir_carries (path : CStr) :
    Carries 1 (opendir A d path) (.ok (d.opendir path)) fun r a => orNull dirAt a r := alloc_carries .dir _

theorem countEntries_carries (dirp : Nat) (r : Option (List Dirent)) :
    Carries (orNull dirAt dirp r) (countEntries dirp)
      (.ok (r.elim (-1) fun entries => ((entries.filter fun dp => !isDotPath dp.name).length : Int)))
      fun r' a => fact (a = r') * orNull dirAt dirp r := by
  rw [← mul_one (orNull dirAt dirp r), countEntries]
  cases r with
  | none =>
      apply of_fact
      rintro rfl
      rw [if_pos rfl]
      apply ret
      intro h hP
      exact fact_mul_apply.mpr ⟨rfl, by rwa [orNull_null, one_mul]⟩
  | some entries =>
      apply of_pointsTo
      intro hne
      rw [if_neg hne]
      apply Carries.loadDir
      exact ret fun h hP => fact_mul_apply.mpr ⟨rfl, hP⟩

theorem getEntryCount_carries (path : CStr) :
    Carries 1 (getEntryCount A d path) (.ok (Http.getEntryCount d.toFileSystem path)) fun r a => fact (a = r) := by
  rw [getEntryCount, ← mul_one 1]
  apply call (opendir_carries path)
  intro dirp
  apply call (countEntries_carries dirp _)
  intro count
  rw [mul_assoc]
  apply of_fact
  rintro rfl
  apply Carries.freeOrNull
  apply ret
  intro h hP
  refine ⟨?_, hP⟩
  unfold Http.getEntryCount
  cases d.opendir path with
  | none => rfl
  | some entries => rfl

theorem sortFileEntry_null (temp : Option RowInfo) :
    Carries 1 (sortFileEntry A temp 0) (.ok ()) fun _ _ => 1 := by
  rw [sortFileEntry, ← mul_one 1]
  apply call (alloc_carries .row temp)
  intro t
  rw [sortRows, if_pos (Or.inl rfl), pure_bind, ← bind_pure (Prog.free t)]
  apply Carries.freeOrNull
  apply ret
  intro h hP
  rwa [mul_one]

theorem sortFileEntry_carries (temp : Option RowInfo) (a : Nat) (fe : FileEntry) :
    Carries (entriesAt a fe) (sortFileEntry A temp a) (Http.sortFileEntry temp fe) fun r _ => entriesAt a r := by
  rw [sortFileEntry, ← mul_one (entriesAt a fe)]
  apply of_pointsTo
  intro hne
  cases temp with
  | none =>
      apply alloc_none
      rw [sortRows, if_pos (Or.inr rfl), pure_bind, ← bind_pure (Prog.free 0)]
      apply free_null
      apply ret
      intro h hP
      rwa [mul_one] at hP
  | some row =>
      apply alloc
      intro t
      apply of_pointsTo
      intro ht
      rw [sortRows, if_neg (not_or.mpr ⟨hne, ht⟩), bind_assoc, mul_one, mul_comm]
      apply Carries.loadEntries
      rw [bind_assoc]
      apply eval_last
      intro fe'
      apply store
      rw [mul_comm, ← bind_pure (Prog.free t)]
      apply Carries.free
      exact ret fun h => id

theorem putEntrySize_carries (item : RowInfo) (dp : Dirent) (path : CStr) (st_size : Int) :
    Carries 1 (putEntrySize A d item dp path st_size) (d.putEntrySize item dp path st_size) fun r a =>
      fact (a = r) := by
  unfold putEntrySize
  by_cases hfile : dp.type = typeFile
  · rw [if_pos hfile]
    exact evaluates _
  · rw [if_neg hfile, ← mul_one 1]
    apply call (getEntryCount_carries path)
    intro count
    apply of_fact
    rintro rfl
    rw [Disk.putEntrySize, if_neg hfile]
    exact evaluates _

theorem fillItem_carries (item : RowInfo) (dp : Dirent) (path : Nat) (r : Option CStr) (req : CStr) :
    Carries (orNull pathAt path r) (fillItem A d item dp path req) (do
      match r with
      | none => return (false, item)
      | some path =>
          match d.stat path with
          | none => return (false, item)
          | some sb =>
              let link ← makeLink item.link req dp.name
              let name ← item.name.strcpy dp.name
              let item ← d.putEntrySize { item with link := link, name := name } dp path sb.toInt
              return (true, item)) fun r' a => fact (a = r') * orNull pathAt path r := by
  rw [fillItem, ← mul_one (orNull pathAt path r)]
  cases r with
  | none =>
      apply of_fact
      rintro rfl
      rw [if_pos rfl]
      apply ret
      intro h hP
      exact fact_mul_apply.mpr ⟨rfl, by rwa [orNull_null, one_mul]⟩
  | some s =>
      apply of_pointsTo
      intro hne
      rw [if_neg hne]
      apply Carries.loadPath
      dsimp only
      cases d.stat s with
      | none => exact ret fun h hP => fact_mul_apply.mpr ⟨rfl, hP⟩
      | some sb =>
          apply eval
          intro link _
          apply eval
          intro name _
          apply fresh (putEntrySize_carries _ dp s _)
          intro item' a _
          apply of_fact
          rintro rfl
          exact ret fun h hP => fact_mul_apply.mpr ⟨rfl, hP⟩

theorem makeEntryItem_carries (alloc : Bool) (item : RowInfo) (dp : Dirent) (ap req : CStr) :
    Carries 1 (makeEntryItem A d alloc item dp ap req) (d.makeEntryItem alloc item dp ap req) fun r a =>
      fact (a = r) := by
  apply bind (getAbsPath_carries alloc dp.name ap)
  intro r path _
  apply after (fillItem_carries item dp path r req)
  intro r' a
  apply of_fact
  rintro rfl
  rw [← mul_one (orNull pathAt path r)]
  apply Carries.freeOrNull
  exact ret fun h hP => ⟨rfl, hP⟩

theorem growEntries_carries (heap : EntryHeap) (a : Nat) (fe : FileEntry) :
    Carries (entriesAt a fe) (growEntries A heap a) (.ok (Disk.grown heap fe)) fun r ret => grownAt ret r := by
  rw [growEntries, ← mul_one (entriesAt a fe)]
  apply Carries.loadEntries
  unfold Disk.grown
  by_cases hfull : fe.length = fe.data.length
  · rw [if_pos hfull, if_pos hfull, ← bind_pure (Prog.realloc A _ _)]
    cases heap.grow (fe.data.length / 5) with
    | none =>
        apply realloc_none
        apply ret
        intro h hP
        rw [mul_one] at hP
        exact fact_mul_apply.mpr ⟨rfl, HasSize.pointsTo a _ h hP⟩
    | some slots =>
        apply realloc
        intro a'
        apply ret
        intro h hP
        rwa [mul_one] at hP
  · rw [if_neg hfull, if_neg hfull]
    apply ret
    intro h hP
    rwa [mul_one] at hP

theorem addEntry_carries (heap : EntryHeap) (ap req : CStr) (type : UInt8) (i : Nat) (dp : Dirent) (a : Nat)
    (fe : FileEntry) :
    Carries (entriesAt a fe) (addEntry A d heap ap req type i dp a) (d.addEntry heap ap req type i dp fe)
      fun r ret => grownAt ret r := by
  rw [addEntry, ← mul_one (entriesAt a fe)]
  apply call (growEntries_carries heap a fe)
  intro ret
  rw [Disk.addEntry_eq]
  cases Disk.grown heap fe with
  | none =>
      rw [mul_one]
      apply of_fact
      rintro rfl
      rw [if_pos rfl]
      exact Carries.ret fun h hP => fact_mul_apply.mpr ⟨rfl, hP⟩
  | some fe =>
      apply of_pointsTo
      intro hne
      rw [if_neg hne, Option.elim_some, Disk.putEntry]
      by_cases hcond : (type = typeAll ∨ type = dp.type) ∧ (!isDotPath dp.name) = true
      · rw [if_pos hcond, if_pos hcond]
        apply Carries.loadEntries
        apply eval
        intro item _
        apply fresh (makeEntryItem_carries _ item dp ap req)
        rintro ⟨ok, item'⟩ out _
        apply of_fact
        rintro rfl
        cases ok with
        | true =>
            apply store
            apply Carries.ret
            intro h hP
            rwa [mul_one] at hP
        | false =>
            apply store
            apply Carries.ret
            intro h hP
            rwa [mul_one] at hP
      · rw [if_neg hcond, if_neg hcond]
        apply Carries.ret
        intro h hP
        rwa [mul_one] at hP

theorem readEntries_carries (heap : EntryHeap) (ap req : CStr) (type : UInt8) (i : Nat) (entries : List Dirent)
    (a : Nat) (fe : FileEntry) :
    Carries (entriesAt a fe) (readEntries A d heap ap req type i entries a)
      (d.readEntries heap ap req type i entries fe) fun r ret => grownAt ret r := by
  induction entries generalizing i a fe with
  | nil => exact ret fun h => id
  | cons dp entries ih =>
      apply bind (addEntry_carries heap ap req type i dp a fe)
      intro r ret _
      cases r with
      | none =>
          apply of_fact
          rintro rfl
          rw [if_pos rfl]
          exact Carries.ret fun h hP => fact_mul_apply.mpr ⟨rfl, hP⟩
      | some fe' =>
          rw [grownAt, ← mul_one (entriesAt ret fe')]
          apply of_pointsTo
          intro hne
          rw [if_neg hne, mul_one]
          exact ih (i + 1) ret fe'

/-- The loop and the sorting. -/
theorem collectRows_carries (heap : EntryHeap) {ap : CStr} (hap : ap ≠ []) (hret : heap.ret = true) (req : CStr)
    (type : UInt8) (entries : List Dirent) (a : Nat) :
    Carries (entriesAt a ⟨0, []⟩)
      (readEntries A d heap ap req type 0 entries a >>= fun ret => do
        sortFileEntry A heap.temp ret
        return ret)
      (do
        match ← d.readEntries heap ap req type 0 entries ⟨0, []⟩ with
        | none => return none
        | some fe => return some (← Http.sortFileEntry heap.temp fe))
      fun r ret => orNull entriesAt ret r * blocks (d.lostRows heap ap type (some entries)) := by
  apply bind (readEntries_carries heap ap req type 0 entries a ⟨0, []⟩)
  intro r ret hrun
  rw [Disk.lostRows_eq hap hret hrun]
  cases r with
  | none =>
      apply of_fact
      rintro rfl
      rw [← one_mul (blocks 1)]
      apply call (sortFileEntry_null heap.temp)
      intro _
      apply Carries.ret
      intro h hP
      exact fact_mul_apply.mpr ⟨rfl, by rwa [one_mul] at hP⟩
  | some fe =>
      apply bind (sortFileEntry_carries heap.temp ret fe)
      intro fe' _ _
      apply Carries.ret
      intro h hP
      rw [Option.elim_some, blocks_zero, mul_one]
      exact hP

theorem collectEntries_carries (heap : EntryHeap) {ap : CStr} (hap : ap ≠ []) (req : CStr) (type : UInt8)
    (dirp : Nat) (r : Option (List Dirent)) :
    Carries (orNull dirAt dirp r) (collectEntries A d heap ap req type dirp)
      (do
        match r with
        | none => return none
        | some entries =>
            if heap.ret then
              match ← d.readEntries heap ap req type 0 entries ⟨0, []⟩ with
              | none => return none
              | some fe => return some (← Http.sortFileEntry heap.temp fe)
            else return none)
      fun r' ret => orNull entriesAt ret r' * blocks (d.lostRows heap ap type r) * orNull dirAt dirp r := by
  unfold collectEntries
  apply of_mul_one
  cases r with
  | none =>
      apply of_fact
      rintro rfl
      apply Carries.ret
      intro h hP
      rw [orNull_null, Disk.lostRows, blocks_zero, orNull_null, one_mul, one_mul]
      exact hP
  | some entries =>
      apply of_pointsTo
      intro hne
      rw [if_neg hne]
      apply Carries.loadDir
      by_cases hret : heap.ret = true
      · dsimp only
        rw [if_pos hret, if_pos hret, mul_one]
        apply alloc
        intro a
        apply of_pointsTo
        intro ha
        rw [if_neg ha]
        exact (collectRows_carries heap hap hret req type entries a).frame _
      · dsimp only
        rw [if_neg hret, if_neg hret]
        apply alloc_none
        rw [if_pos rfl, mul_one]
        apply of_one_mul
        apply call (sortFileEntry_null heap.temp)
        intro _
        apply Carries.ret
        intro h hP
        rw [orNull_null, Disk.lostRows, if_neg fun hlost => hret hlost.1, blocks_zero, one_mul]
        exact hP

theorem getEntry_carries (heap : EntryHeap) (req root : CStr) (type : UInt8) :
    Carries 1 (getEntry A d heap req root type) (d.getEntry heap req root type) fun r a =>
      orNull entriesAt a r * blocks (d.lostEntries heap req root type) := by
  apply bind (getAbsPath_carries heap.ap req root)
  intro r ap habs
  apply of_mul_one
  cases r with
  | none =>
      apply of_fact
      rintro rfl
      rw [if_pos rfl]
      apply Carries.ret
      intro h hP
      rw [orNull_null, Disk.lostEntries, habs, blocks_zero, mul_one]
      exact hP
  | some s =>
      apply of_pointsTo
      intro hne
      rw [if_neg hne]
      apply Carries.loadPath
      apply of_one_mul
      apply call (opendir_carries s)
      intro dirp
      have hap := absPath_ne_nil (getAbsPath_eq habs)
      apply after ((collectEntries_carries heap hap req type dirp (d.opendir s)).frame _)
      intro r' ret
      rw [mul_one, mul_comm]
      apply Carries.free
      rw [mul_comm]
      apply Carries.freeOrNull
      apply Carries.ret
      intro h hP
      rwa [Disk.lostEntries, habs]

/-! ### Pages -/

theorem insertRows_carries (heap : PageHeap) (n : Nat) (rows : List RowInfo) (table : Nat)
    (t : Option (List UInt8)) :
    Carries (orNull textAt table t) (insertRows A heap n rows table) (Http.insertRows heap n rows t) fun r a =>
      orNull textAt a r := by
  induction rows generalizing n table t with
  | nil => exact ret fun h => id
  | cons row rows ih =>
      apply bind (insertRow_carries _ _ table t row)
      intro t' table' _
      exact ih (n + 1) table' t'

/-- The row that leads back is put into the table. -/
def backTable (heap : PageHeap) (req : CStr) (t : Option (List UInt8)) :
    Exec (List RowInfo × Option (List UInt8)) := do
  let back ← backRows heap.back req
  let table ← Http.insertRows heap 0 back t
  return (back, table)

/-- The rows of a list are put into the table, the first of them as the `n`-th. -/
def listTable (d : Disk) (heap : PageHeap) (list : EntryHeap) (req root : CStr) (type : UInt8) (n : Nat)
    (t : Option (List UInt8)) : Exec (List RowInfo × Option (List UInt8)) := do
  let fe ← d.getEntry list req root type
  let rows := fe.elim [] FileEntry.rows
  let table ← Http.insertRows heap n rows t
  return (rows, table)

/-- `MakeHTML` with a table, in the steps of `fillTable`. -/
def fillPage (d : Disk) (heap : PageHeap) (req root : CStr) (t : Option (List UInt8)) :
    Exec (Option (List UInt8)) := do
  let (back, t) ← backTable heap req t
  let (dirs, t) ← listTable d heap heap.dirs req root typeDir back.length t
  let (_, t) ← listTable d heap heap.files req root typeFile (back.length + dirs.length) t
  let ts ← Http.toTableString heap.tableString t
  Http.toPageString heap.page req ts

theorem makeHTML_eq (heap : PageHeap) (req root : CStr) :
    d.makeHTML heap req root = Http.createTable heap.table >>= fun t =>
      t.elim (.ok none) fun t => fillPage d heap req root (some t) := by
  unfold Disk.makeHTML
  refine bind_congr fun r => ?_
  cases r with
  | none => rfl
  | some t =>
      simp only [Option.elim_some, fillPage, backTable, listTable, bind_assoc, pure_bind]
      refine bind_congr fun back => bind_congr fun t => bind_congr fun dirs => bind_congr fun t => ?_
      refine bind_congr fun files => bind_congr fun t => bind_congr fun ts => ?_
      cases ts with
      | none => rfl
      | some ts => rfl

theorem insertBack_carries (heap : PageHeap) (req : CStr) (table : Nat) (t : Option (List UInt8)) :
    Carries (orNull textAt table t) (insertBack A heap req table) (backTable heap req t) fun r a =>
      fact (a.1 = r.1.length) * orNull textAt a.2 r.2 := by
  unfold insertBack backTable backRows
  by_cases hroot : req ≠ ascii "/"
  · rw [if_pos hroot]
    cases heap.back with
    | false =>
        apply alloc_none
        rw [if_pos rfl, if_neg fun h => Bool.false_ne_true h.2, Exec.ok_bind]
        exact Carries.ret fun h hP => fact_mul_apply.mpr ⟨rfl, hP⟩
    | true =>
        rw [if_pos rfl, if_pos ⟨hroot, rfl⟩, ← Exec.bind_ok_eq_map, bind_assoc]
        apply alloc
        intro back
        apply of_pointsTo
        intro hne
        rw [if_neg hne]
        apply eval
        intro row _
        apply store
        apply Carries.loadRow
        rw [mul_comm]
        apply part (insertRows_carries heap 0 [row] table t)
        intro t' table' _
        rw [mul_comm]
        apply Carries.free
        exact Carries.ret fun h hP => fact_mul_apply.mpr ⟨rfl, hP⟩
  · rw [if_neg hroot, if_neg fun h => hroot h.1]
    exact ret fun h hP => fact_mul_apply.mpr ⟨rfl, hP⟩

theorem insertEntries_carries (heap : PageHeap) (n fe table : Nat) (r : Option FileEntry)
    (t : Option (List UInt8)) :
    Carries (orNull entriesAt fe r * orNull textAt table t) (insertEntries A heap n fe table)
      (do
        let rows := r.elim [] FileEntry.rows
        let table ← Http.insertRows heap n rows t
        return (rows, table))
      fun r a => fact (a.1 = n + r.1.length) * orNull textAt a.2 r.2 := by
  unfold insertEntries
  cases r with
  | none =>
      apply of_fact
      rintro rfl
      exact ret fun h hP => fact_mul_apply.mpr ⟨rfl, hP⟩
  | some rows =>
      apply of_pointsTo
      intro hne
      rw [if_neg hne]
      apply Carries.loadEntries
      rw [mul_comm]
      apply part (insertRows_carries heap n rows.rows table t)
      intro t' table' _
      rw [mul_comm]
      apply Carries.free
      exact Carries.ret fun h hP => fact_mul_apply.mpr ⟨rfl, hP⟩

theorem listEntries_carries (heap : PageHeap) (list : EntryHeap) (req root : CStr) (type : UInt8) (n table : Nat)
    (t : Option (List UInt8)) :
    Carries (orNull textAt table t) (listEntries A d heap list req root type n table)
      (listTable d heap list req root type n t) fun r a =>
        fact (a.1 = n + r.1.length) * (orNull textAt a.2 r.2 * blocks (d.lostEntries list req root type)) := by
  apply fresh (getEntry_carries list req root type)
  intro r fe _
  rw [mul_right_comm]
  apply ((insertEntries_carries heap n fe table r t).frame _).mono
  intro r a h _ hP
  rwa [mul_assoc] at hP

theorem finishPage_carries (heap : PageHeap) (req : CStr) (table : Nat) (t : Option (List UInt8)) :
    Carries (orNull textAt table t) (finishPage A heap req table)
      (Http.toTableString heap.tableString t >>= fun ts => Http.toPageString heap.page req ts)
      fun r a => orNull textAt a r := by
  apply bind (toTableString_carries heap.tableString table t)
  intro r ts _
  apply after ((toPageString_carries heap.page req ts r).frame _)
  intro r' ret
  rw [mul_right_comm, mul_comm]
  apply Carries.freeOrNull
  rw [mul_comm]
  apply Carries.freeOrNull
  exact Carries.ret fun h => id

theorem fillTable_carries (heap : PageHeap) (req root : CStr) (table : Nat) (t : Option (List UInt8)) :
    Carries (orNull textAt table t) (fillTable A d heap req root table) (fillPage d heap req root t) fun r a =>
      orNull textAt a r *
        blocks (d.lostEntries heap.dirs req root typeDir + d.lostEntries heap.files req root typeFile) := by
  apply bind (insertBack_carries heap req table t)
  rintro ⟨back, t⟩ ⟨n, table⟩ _
  apply of_fact
  rintro rfl
  apply bind (listEntries_carries heap heap.dirs req root typeDir _ table t)
  rintro ⟨dirs, t⟩ ⟨n, table⟩ _
  apply of_fact
  rintro rfl
  apply part (listEntries_carries heap heap.files req root typeFile _ table t)
  rintro ⟨files, t⟩ ⟨n, table⟩ _
  rw [mul_assoc, mul_assoc]
  apply of_fact
  rintro rfl
  apply ((finishPage_carries heap req table t).frame _).mono
  intro r a h _ hP
  rw [mul_comm (blocks _)] at hP
  exact mul_mono (fun _ => id) (fun h hlost => (HasSize.blocks _).mul (HasSize.blocks _) h hlost) hP

theorem makeHTML_carries (heap : PageHeap) (req root : CStr) :
    Carries 1 (makeHTML A d heap req root) (d.makeHTML heap req root) fun r a =>
      orNull textAt a r * blocks (d.lostPage heap req root) := by
  rw [makeHTML_eq]
  apply bind (createTable_carries heap.table)
  intro r table hr
  rw [Disk.lostPage_eq hr]
  apply of_mul_one
  cases r with
  | none =>
      apply of_fact
      rintro rfl
      rw [if_pos rfl]
      apply Carries.ret
      intro h hP
      rwa [orNull_null, Option.elim_none, blocks_zero, one_mul]
  | some t =>
      apply of_pointsTo
      intro hne
      rw [if_neg hne, mul_one]
      exact fillTable_carries heap req root table (some t)

end

/-! ### Handlers -/

theorem response_carries (run : Run) (out : Outlet) (html : Nat) (r : Option (List UInt8)) :
    Carries (orNull textAt html r) (response A run out html) (Http.response run out r) fun r' a =>
      fact (a = r') * orNull textAt html r := by
  unfold response mallocText
  apply of_mul_one
  cases r with
  | none =>
      apply of_fact
      rintro rfl
      apply Carries.ret
      intro h hP
      exact fact_mul_apply.mpr ⟨rfl, by rwa [orNull_null]⟩
  | some bytes =>
      apply of_pointsTo
      intro hne
      rw [if_neg hne]
      apply Carries.loadText
      apply eval
      intro s _
      cases run.resp (pageHttpFormat.length + s.length + 16) with
      | none =>
          apply alloc_none
          apply Carries.ret
          intro h hP
          exact fact_mul_apply.mpr ⟨rfl, by rwa [mul_one] at hP⟩
      | some blk =>
          apply alloc
          intro resp
          apply of_pointsTo
          intro hresp
          rw [if_neg hresp]
          apply Carries.loadText
          apply eval
          intro blk _
          apply store
          apply eval
          intro len _
          apply eval
          intro sent _
          apply Carries.free
          apply Carries.ret
          intro h hP
          exact fact_mul_apply.mpr ⟨rfl, by rwa [mul_one] at hP⟩

/-- A page is answered with and freed. -/
theorem answer_carries (run : Run) (out : Outlet) {html : Prog Block Nat} {page : Exec (Option (List UInt8))} {n : Nat}
    (hhtml : Carries 1 html page fun r a => orNull textAt a r * blocks n) :
    Carries 1
      (do
        let html ← html
        let (_, out) ← response A run out html
        Prog.free html
        return (run.noReturn, out))
      (do
        let html ← page
        let (_, out) ← Http.response run out html
        return (run.noReturn, out))
      fun r a => fact (a = r) * blocks n := by
  apply bind hhtml
  intro r html _
  apply part (response_carries run out html r)
  rintro ⟨ret, out⟩ a _
  rw [mul_assoc]
  apply of_fact
  rintro rfl
  apply Carries.freeOrNull
  exact Carries.ret fun h hP => fact_mul_apply.mpr ⟨rfl, hP⟩

section
variable {d : Disk}

theorem dirReqHandler_carries (run : Run) (out : Outlet) (req root : CStr) :
    Carries 1 (dirReqHandler A d run out req root) (d.dirReqHandler run out req root) fun r a =>
      fact (a = r) * blocks (d.lostPage run.page req root) :=
  answer_carries run out (makeHTML_carries run.page req root)

theorem badReqHandler_carries (run : Run) (out : Outlet) (req : CStr) :
    Carries 1 (badReqHandler A run out req) (Http.badReqHandler run out req) fun r a =>
      fact (a = r) * blocks 0 := by
  apply answer_carries run out
  simpa only [blocks_zero, mul_one] using toErrString_carries run.err req

theorem openFile_carries (ap : Nat) (r : Option CStr) :
    Carries (orNull pathAt ap r) (openFile A d ap) (.ok (r.bind d.openFile)) fun r' fd =>
      orNull fileAt fd r' * orNull pathAt ap r := by
  unfold openFile
  apply of_mul_one
  cases r with
  | none =>
      apply of_fact
      rintro rfl
      apply Carries.ret
      intro h hP
      rwa [Option.bind_none, orNull_null, orNull_null, one_mul]
  | some s =>
      apply of_pointsTo
      intro hne
      rw [if_neg hne]
      apply Carries.loadPath
      rw [mul_one]
      exact (alloc_carries .file (d.openFile s)).beside _

/-- The pointer is null exactly if there is nothing. -/
theorem orNull_eq_zero_iff {ι : Type} {block : ι → Block} {a : Nat} {r : Option ι} {F : Assertion Block}
    {h : Heap Block} (hP : (orNull (fun a i => pointsTo a (block i)) a r * F : Assertion Block) h) :
    a = 0 ↔ r = none := by
  cases r with
  | none => exact iff_of_true (fact_mul_apply.mp hP).1 rfl
  | some i => exact iff_of_false (pointsTo_ne_zero hP) (Option.some_ne_none i)

/-- The end of `FileReqHandler` on values. -/
def sendText (run : Run) (out : Outlet) (head buf contents : Option (List UInt8)) : Exec (Int × Outlet) :=
  match head, buf, contents with
  | some head, some buf, some contents => do
      let max := toInt32 contents.length
      let head ← putStr head 0 (printf fileHttpFormat [.num max])
      let headLen := (← cstr head).length
      let (len, out) ← TcpClient.sendRaw run.sends out head (toInt32 headLen)
      let (ret, out) ← copyFile run len buf contents out
      return (if ret = max then 1 else 0, out)
  | _, _, _ => .ok (0, out)

theorem sendText_none (run : Run) (out : Outlet) {head buf contents : Option (List UInt8)}
    (h : head = none ∨ buf = none ∨ contents = none) : sendText run out head buf contents = .ok (0, out) := by
  unfold sendText
  rcases h with rfl | rfl | rfl
  · rfl
  · cases head with
    | none => rfl
    | some head => rfl
  · cases head with
    | none => rfl
    | some head =>
        cases buf with
        | none => rfl
        | some buf => rfl

theorem fileReqHandler_eq (run : Run) (out : Outlet) (req root : CStr) :
    d.fileReqHandler run out req root = Http.getAbsPath run.fileAp req root >>= fun ap =>
      sendText run out ((run.head (fileHttpFormat.length + 32)).map Vector.toList)
        ((run.buf bufSize).map Vector.toList) (ap.bind d.openFile) := by
  refine bind_congr fun ap => ?_
  cases run.head (fileHttpFormat.length + 32) with
  | none => rfl
  | some head =>
      cases run.buf bufSize with
      | none => rfl
      | some buf =>
          cases ap.bind d.openFile with
          | none => rfl
          | some contents => rfl

theorem sendFile_carries (run : Run) (out : Outlet) (ap head buf fd : Nat) (s : Option CStr)
    (hd b : Option (List UInt8)) :
    Carries
      (orNull textAt buf b * (orNull textAt head hd * (orNull fileAt fd (s.bind d.openFile) * orNull pathAt ap s)))
      (sendFile run out ap head buf fd) (sendText run out hd b (s.bind d.openFile)) fun r a =>
        ex fun hd => fact (a = r) * (orNull textAt buf b * (orNull textAt head hd *
          (orNull fileAt fd (s.bind d.openFile) * orNull pathAt ap s))) := by
  have hnull : ∀ h, (orNull textAt buf b * (orNull textAt head hd *
      (orNull fileAt fd (s.bind d.openFile) * orNull pathAt ap s)) : Assertion Block) h →
      (buf = 0 ↔ b = none) ∧ (head = 0 ↔ hd = none) ∧ (fd = 0 ↔ s.bind d.openFile = none) ∧ (ap = 0 ↔ s = none) := by
    intro h hP
    refine ⟨orNull_eq_zero_iff hP, ?_, ?_, ?_⟩
    · rw [mul_left_comm] at hP
      exact orNull_eq_zero_iff hP
    · rw [mul_left_comm (orNull textAt head hd), mul_left_comm] at hP
      exact orNull_eq_zero_iff hP
    · rw [mul_comm (orNull fileAt _ _), mul_left_comm (orNull textAt head hd), mul_left_comm] at hP
      exact orNull_eq_zero_iff hP
  apply of_known hnull
  rintro ⟨hbuf, hhead, hfd, hap⟩
  unfold sendFile
  by_cases hzero : ap = 0 ∨ head = 0 ∨ buf = 0 ∨ fd = 0
  · have hnone : hd = none ∨ b = none ∨ s.bind d.openFile = none := by
      rcases hzero with h | h | h | h
      · rw [hap.mp h]
        exact Or.inr (Or.inr rfl)
      · exact Or.inl (hhead.mp h)
      · exact Or.inr (Or.inl (hbuf.mp h))
      · exact Or.inr (Or.inr (hfd.mp h))
    rw [if_pos hzero, sendText_none run out hnone]
    exact ret fun h hP => ⟨hd, fact_mul_apply.mpr ⟨rfl, hP⟩⟩
  · rw [if_neg hzero]
    simp only [not_or, hap, hhead, hbuf, hfd] at hzero
    obtain ⟨_, hsome, bsome, csome⟩ := hzero
    obtain ⟨headText, rfl⟩ := Option.ne_none_iff_exists'.mp hsome
    obtain ⟨bufText, rfl⟩ := Option.ne_none_iff_exists'.mp bsome
    generalize s.bind d.openFile = c at csome
    obtain ⟨contents, rfl⟩ := Option.ne_none_iff_exists'.mp csome
    generalize orNull pathAt ap s = P
    change Carries (textAt buf bufText * (textAt head headText * (fileAt fd contents * P))) _ _ _
    rw [mul_left_comm (textAt head _), mul_left_comm]
    apply Carries.loadFile
    rw [mul_left_comm (textAt buf _), mul_left_comm]
    apply Carries.loadText
    apply eval
    intro blk _
    apply store
    apply eval
    intro headLen _
    apply eval
    intro sent _
    rw [mul_left_comm (fileAt fd _), mul_left_comm]
    apply Carries.loadText
    apply eval
    intro copied _
    exact Carries.ret fun h hP => ⟨some blk, fact_mul_apply.mpr ⟨rfl, hP⟩⟩

theorem fileReqHandler_carries (run : Run) (out : Outlet) (req root : CStr) :
    Carries 1 (fileReqHandler A d run out req root) (d.fileReqHandler run out req root) fun r a =>
      fact (a = r) * blocks 0 := by
  rw [fileReqHandler_eq]
  apply bind (getAbsPath_carries run.fileAp req root)
  intro s ap _
  apply of_mul_one
  apply call (openFile_carries ap s)
  intro fd
  rw [mul_one]
  apply of_one_mul
  apply call (mallocText_carries run.head _)
  intro head
  apply of_one_mul
  apply call (mallocText_carries run.buf _)
  intro buf
  apply after (sendFile_carries run out ap head buf fd s _ _)
  intro r a
  apply of_ex
  intro text
  apply of_fact
  rintro rfl
  apply Carries.freeOrNull
  apply Carries.freeOrNull
  rw [mul_comm]
  apply Carries.freeOrNull
  apply of_mul_one
  apply Carries.freeOrNull
  apply Carries.ret
  intro h hP
  exact fact_mul_apply.mpr ⟨rfl, by rwa [blocks_zero]⟩

/-- The blocks that a request leaves behind. -/
def lostBlocks (d : Disk) (run : Run) (req root : CStr) : Nat :=
  match Http.getAbsPath run.ap req root with
  | .ok (some ap) => if d.access ap ∧ (d.opendir ap).isSome then d.lostPage run.page req root else 0
  | _ => 0

theorem answer_beside {c : Prog Block (Int × Outlet)} {m : Exec (Int × Outlet)} {n k : Nat} {F : Assertion Block}
    (hc : Carries 1 c m fun r a => fact (a = r) * blocks n) (hn : k = n) :
    Carries F c m fun r a => fact (a = r) * (F * blocks k) := by
  apply (hc.beside F).mono
  intro r a h _ hP
  rwa [hn, mul_comm F, ← mul_assoc]

theorem dispatch_carries (run : Run) (out : Outlet) (req root : CStr) (ap : Nat) (r : Option CStr)
    (hr : Http.getAbsPath run.ap req root = .ok r) :
    Carries (orNull pathAt ap r) (dispatch A d run out req root ap)
      (match r with
        | some ap =>
            if d.access ap then
              if Http.getEntryCount d.toFileSystem ap < 0 then d.fileReqHandler run out req root
              else d.dirReqHandler run out req root
            else Http.badReqHandler run out req
        | none => Http.badReqHandler run out req)
      fun r' a => fact (a = r') * (orNull pathAt ap r * blocks (lostBlocks d run req root)) := by
  unfold dispatch lostBlocks
  rw [hr]
  apply of_mul_one
  cases r with
  | none =>
      apply of_fact
      rintro rfl
      rw [if_pos rfl, orNull_null]
      exact answer_beside (badReqHandler_carries run out req) rfl
  | some s =>
      apply of_pointsTo
      intro hne
      rw [if_neg hne]
      apply Carries.loadPath
      rw [mul_one]
      dsimp only
      by_cases haccess : d.access s = true
      · rw [if_pos haccess, if_pos haccess]
        apply of_one_mul
        apply call (getEntryCount_carries s)
        intro count
        apply of_fact
        rintro rfl
        by_cases hcount : Http.getEntryCount d.toFileSystem s < 0
        · rw [if_pos hcount, if_pos hcount]
          refine answer_beside (fileReqHandler_carries run out req root) (if_neg ?_)
          rw [getEntryCount_neg_iff.mp hcount]
          exact fun h => Bool.false_ne_true h.2
        · rw [if_neg hcount, if_neg hcount]
          refine answer_beside (dirReqHandler_carries run out req root) (if_pos ⟨haccess, ?_⟩)
          exact Option.isSome_iff_ne_none.mpr fun h => hcount (getEntryCount_neg_iff.mpr h)
      · rw [if_neg haccess, if_neg haccess]
        exact answer_beside (badReqHandler_carries run out req) (if_neg fun h => haccess h.1)

theorem requestHandler_carries (run : Run) (out : Outlet) (req root : CStr) :
    Carries 1 (requestHandler A d run out req root) (d.requestHandler run out req root) fun r a =>
      fact (a = r) * blocks (lostBlocks d run req root) := by
  apply bind (getAbsPath_carries run.ap req root)
  intro r ap hr
  apply after (dispatch_carries run out req root ap r hr)
  intro r' a
  apply of_fact
  rintro rfl
  apply Carries.freeOrNull
  exact Carries.ret fun h hP => fact_mul_apply.mpr ⟨rfl, hP⟩

end

end CompileService.Http.Memory
