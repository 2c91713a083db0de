import CompileService.Http.Lemmas.Entries

/-!
# Lists that do not grow

`GetEntry` asks for five more slots when there is an entry to look at and the slots are full. This says from the
directory and the heap alone when the answer is that there is no memory.
-/

namespace CompileService.Http

open CompileService.Base

variable {d : Disk} {heap : EntryHeap} {ap req : CStr} {type : UInt8}

/-- The rows that are made from the first `j` entries, the first of which is the `i`-th of the directory. -/
def Disk.rowsBefore (d : Disk) (heap : EntryHeap) (ap : CStr) (type : UInt8) (i : Nat) (entries : List Dirent)
    (j : Nat) : Nat :=
  ((entries.take j).zipIdx i).countP fun (dp, k) => heap.path k ∧ d.Listed ap type dp

/-- Before one of the entries the slots are full and there is no memory for more. -/
def Disk.Starved (d : Disk) (heap : EntryHeap) (ap : CStr) (type : UInt8) (entries : List Dirent) : Prop :=
  ∃ j < entries.length, 5 ∣ d.rowsBefore heap ap type 0 entries j ∧
    (heap.grow (d.rowsBefore heap ap type 0 entries j / 5)).isNone

instance (d : Disk) (heap : EntryHeap) (ap : CStr) (type : UInt8) (entries : List Dirent) :
    Decidable (d.Starved heap ap type entries) := inferInstanceAs (Decidable (∃ j < _, _))

namespace Disk

theorem rowsBefore_zero (i : Nat) (entries : List Dirent) : d.rowsBefore heap ap type i entries 0 = 0 := rfl

theorem rowsBefore_succ (i : Nat) (dp : Dirent) (entries : List Dirent) (j : Nat) :
    d.rowsBefore heap ap type i (dp :: entries) (j + 1) = d.rowsBefore heap ap type (i + 1) entries j +
      if heap.path i ∧ d.Listed ap type dp then 1 else 0 := by
  simp only [rowsBefore, List.take_succ_cons, List.zipIdx_cons, List.countP_cons, decide_eq_true_eq]

theorem makeEntryItem_ok_iff {alloc ok : Bool} {item item' : RowInfo} {dp : Dirent} (hap : ap ≠ [])
    (hrun : d.makeEntryItem alloc item dp ap req = .ok (ok, item')) :
    ok = true ↔ alloc = true ∧ d.stat (dp.path ap) ≠ none := by
  cases alloc with
  | false =>
      cases hrun
      exact iff_of_false nofun fun h => Bool.false_ne_true h.1
  | true =>
      cases hstat : d.stat (dp.path ap) with
      | none =>
          cases (makeEntryItem_missing item hap hstat true).symm.trans hrun
          exact iff_of_false nofun fun h => h.2 rfl
      | some sb =>
          refine iff_of_true ?_ ⟨rfl, nofun⟩
          simp only [makeEntryItem, getAbsPath_path hap, Exec.ok_bind, hstat] at hrun
          obtain ⟨link, _, hrun⟩ := Exec.bind_eq_ok.mp hrun
          obtain ⟨name, _, hrun⟩ := Exec.bind_eq_ok.mp hrun
          obtain ⟨row, _, hrun⟩ := Exec.bind_eq_ok.mp hrun
          cases hrun
          rfl

variable {fe : FileEntry}

/-- Slots for the next row, or none if there is no memory. -/
def grown (heap : EntryHeap) (fe : FileEntry) : Option FileEntry :=
  if fe.length = fe.data.length then
    (heap.grow (fe.data.length / 5)).map fun slots => { fe with data := fe.data ++ slots.toList }
  else some fe

theorem grown_none_iff :
    grown heap fe = none ↔ fe.length = fe.data.length ∧ heap.grow (fe.data.length / 5) = none := by
  unfold grown
  by_cases hfull : fe.length = fe.data.length
  · rw [if_pos hfull, Option.map_eq_none_iff, and_iff_right hfull]
  · rw [if_neg hfull]
    exact iff_of_false nofun fun h => hfull h.1

theorem grown_some {fe' : FileEntry} (h : grown heap fe = some fe') :
    fe'.length = fe.length ∧
      fe'.data.length = fe.data.length + if fe.length = fe.data.length then 5 else 0 := by
  unfold grown at h
  by_cases hfull : fe.length = fe.data.length
  · rw [if_pos hfull] at h ⊢
    obtain ⟨slots, _, rfl⟩ := Option.map_eq_some_iff.mp h
    exact ⟨rfl, by rw [List.length_append, Vector.length_toList]⟩
  · rw [if_neg hfull] at h ⊢
    cases h
    exact ⟨rfl, rfl⟩

/-- A round of the loop once there is a slot. -/
def putEntry (d : Disk) (heap : EntryHeap) (ap req : CStr) (type : UInt8) (i : Nat) (dp : Dirent)
    (fe : FileEntry) : Exec (Option FileEntry) :=
  if (type = typeAll ∨ type = dp.type) ∧ !isDotPath dp.name then do
    let (ok, item) ← d.makeEntryItem (heap.path i) (← slotAt fe.data fe.length) dp ap req
    let data := fe.data.set fe.length item
    return some (if ok then ⟨fe.length + 1, data⟩ else ⟨fe.length, data⟩)
  else .ok (some fe)

theorem addEntry_eq (i : Nat) (dp : Dirent) :
    d.addEntry heap ap req type i dp fe = (grown heap fe).elim (.ok none) (d.putEntry heap ap req type i dp) := by
  unfold addEntry grown
  by_cases hfull : fe.length = fe.data.length
  · rw [if_pos hfull]
    cases heap.grow (fe.data.length / 5) with
    | none => rfl
    | some slots => rfl
  · rw [if_neg hfull]
    rfl

/-- A round of the loop, in terms of the slots and rows that there are. -/
theorem addEntry_ok {i : Nat} {dp : Dirent} {r : Option FileEntry} (hap : ap ≠ [])
    (hrun : d.addEntry heap ap req type i dp fe = .ok r) :
    (r = none ∧ grown heap fe = none) ∨
    ∃ fe', r = some fe' ∧ grown heap fe ≠ none ∧
      fe'.length = fe.length + (if heap.path i ∧ d.Listed ap type dp then 1 else 0) ∧
      fe'.data.length = fe.data.length + if fe.length = fe.data.length then 5 else 0 := by
  rw [addEntry_eq] at hrun
  cases hgrown : grown heap fe with
  | none =>
      rw [hgrown] at hrun
      cases hrun
      exact Or.inl ⟨rfl, rfl⟩
  | some fe₁ =>
      obtain ⟨hlength, hdata⟩ := grown_some hgrown
      rw [hgrown] at hrun
      right
      rw [Option.elim_some, putEntry] at hrun
      by_cases hcond : (type = typeAll ∨ type = dp.type) ∧ (!isDotPath dp.name) = true
      · rw [if_pos hcond] at hrun
        obtain ⟨item, _, hrun⟩ := Exec.bind_eq_ok.mp hrun
        obtain ⟨⟨ok, item'⟩, hmake, hrun⟩ := Exec.bind_eq_ok.mp hrun
        have hiff := makeEntryItem_ok_iff hap hmake
        have hdot : isDotPath dp.name = false := by simpa using hcond.2
        have hlisted : (heap.path i = true ∧ d.Listed ap type dp) ↔ ok = true := by
          rw [hiff, Disk.Listed, and_iff_right hcond.1, and_iff_right hdot]
        cases hrun
        cases ok with
        | true => exact ⟨_, rfl, nofun, by rw [if_pos (hlisted.mpr rfl), ← hlength]; rfl, by simpa using hdata⟩
        | false =>
            have hnot := mt hlisted.mp Bool.false_ne_true
            exact ⟨_, rfl, nofun, by rw [if_neg hnot, ← hlength]; rfl, by simpa using hdata⟩
      · rw [if_neg hcond] at hrun
        cases hrun
        have hnot : ¬ (heap.path i = true ∧ d.Listed ap type dp) := by
          rintro ⟨_, htype, hdot, _⟩
          exact hcond ⟨htype, by rw [hdot]; rfl⟩
        exact ⟨_, rfl, nofun, by rw [if_neg hnot, hlength, Nat.add_zero], hdata⟩

theorem readEntries_none_iff {i : Nat} {entries : List Dirent} {r : Option FileEntry} (hap : ap ≠ [])
    (hfive : 5 ∣ fe.data.length) (hroom : fe.length ≤ fe.data.length)
    (hrun : d.readEntries heap ap req type i entries fe = .ok r) :
    r = none ↔ ∃ j < entries.length, let n := fe.length + d.rowsBefore heap ap type i entries j
      fe.data.length ≤ n ∧ 5 ∣ n ∧ (heap.grow (n / 5)).isNone := by
  induction entries generalizing i fe with
  | nil =>
      cases hrun
      exact iff_of_false nofun fun ⟨j, hj, _⟩ => Nat.not_lt_zero j hj
  | cons dp entries ih =>
      obtain ⟨r', hadd, hrun⟩ := Exec.bind_eq_ok.mp hrun
      rcases addEntry_ok hap hadd with ⟨rfl, hnone⟩ | ⟨fe', rfl, hsome, hlength, hdata⟩
      · cases hrun
        obtain ⟨hfull, hgrow⟩ := grown_none_iff.mp hnone
        refine iff_of_true rfl ⟨0, Nat.succ_pos _, ?_⟩
        simp only [rowsBefore_zero, Nat.add_zero, hfull]
        exact ⟨Nat.le_refl _, hfive, Option.isNone_iff_eq_none.mpr hgrow⟩
      · have hfive' : 5 ∣ fe'.data.length := by
          rw [hdata]
          split <;> omega
        have hroom' : fe'.length ≤ fe'.data.length := by
          rw [hdata, hlength]
          split <;> split <;> omega
        rw [ih hfive' hroom' hrun]
        have hcount : ∀ j, fe.length + d.rowsBefore heap ap type i (dp :: entries) (j + 1) =
            fe'.length + d.rowsBefore heap ap type (i + 1) entries j := by
          intro j
          rw [rowsBefore_succ, hlength]
          omega
        constructor
        · rintro ⟨j, hj, hdata', hrest⟩
          refine ⟨j + 1, Nat.succ_lt_succ hj, ?_⟩
          simp only [hcount]
          exact ⟨Nat.le_trans (by rw [hdata]; exact Nat.le_add_right _ _) hdata', hrest⟩
        · rintro ⟨j, hj, hdata', hdvd, hgrow⟩
          have hnot : fe.length = fe.data.length →
              fe.length + d.rowsBefore heap ap type i (dp :: entries) j ≠ fe.data.length := by
            intro hfull heq
            rw [heq, Option.isNone_iff_eq_none] at hgrow
            exact hsome (grown_none_iff.mpr ⟨hfull, hgrow⟩)
          cases j with
          | zero =>
              rw [rowsBefore_zero, Nat.add_zero] at hnot hdata'
              have hfull := Nat.le_antisymm hroom hdata'
              exact (hnot hfull hfull).elim
          | succ j =>
              simp only [hcount] at hnot hdata' hdvd hgrow
              refine ⟨j, Nat.lt_of_succ_lt_succ hj, ?_, hdvd, hgrow⟩
              rw [hdata]
              split
              · have hne := hnot ‹_›
                omega
              · exact hdata'

theorem starved_iff {entries : List Dirent} {r : Option FileEntry} (hap : ap ≠ [])
    (hrun : d.readEntries heap ap req type 0 entries ⟨0, []⟩ = .ok r) :
    r = none ↔ d.Starved heap ap type entries := by
  have hfive : 5 ∣ (⟨0, []⟩ : FileEntry).data.length := Nat.dvd_zero 5
  have hiff := readEntries_none_iff hap hfive (Nat.le_refl 0) hrun
  simp only [List.length_nil, Nat.zero_le, true_and, Nat.zero_add] at hiff
  exact hiff

/-! ## Lost blocks -/

/-- The blocks that are left behind of a list of these entries: one if the list does not grow. -/
def lostRows (d : Disk) (heap : EntryHeap) (ap : CStr) (type : UInt8) : Option (List Dirent) → Nat
  | some entries => if heap.ret ∧ d.Starved heap ap type entries then 1 else 0
  | none => 0

/-- The blocks that a `GetEntry` leaves behind. -/
def lostEntries (d : Disk) (heap : EntryHeap) (req root : CStr) (type : UInt8) : Nat :=
  match getAbsPath heap.ap req root with
  | .ok (some ap) => d.lostRows heap ap type (d.opendir ap)
  | _ => 0

theorem lostRows_eq {entries : List Dirent} {r : Option FileEntry} (hap : ap ≠ []) (hret : heap.ret = true)
    (hrun : d.readEntries heap ap req type 0 entries ⟨0, []⟩ = .ok r) :
    d.lostRows heap ap type (some entries) = r.elim 1 fun _ => 0 := by
  have hiff := starved_iff hap hrun
  cases r with
  | none => exact if_pos ⟨hret, hiff.mp rfl⟩
  | some fe => exact if_neg fun h => Option.some_ne_none fe (hiff.mpr h.2)

/-- The blocks that a `MakeHTML` leaves behind. -/
def lostPage (d : Disk) (heap : PageHeap) (req root : CStr) : Nat :=
  if (heap.table (tableTitle.length + 1)).isSome then
    d.lostEntries heap.dirs req root typeDir + d.lostEntries heap.files req root typeFile
  else 0

theorem lostPage_eq {pages : PageHeap} {root : CStr} {r : Option (List UInt8)}
    (hr : createTable pages.table = .ok r) :
    d.lostPage pages req root = r.elim 0 fun _ =>
      d.lostEntries pages.dirs req root typeDir + d.lostEntries pages.files req root typeFile := by
  unfold lostPage
  cases htable : pages.table (tableTitle.length + 1) with
  | none =>
      rw [createTable, htable] at hr
      cases hr
      rfl
  | some blk =>
      have hmalloc : pages.table (tableTitle.length + 1) ≠ none := by
        rw [htable]
        exact Option.some_ne_none blk
      obtain ⟨t, hrun, _⟩ := createTable_ok hmalloc
      cases hrun.symm.trans hr
      rfl

end Disk

end CompileService.Http
