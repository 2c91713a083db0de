import CompileService.Http.Lemmas.Rows
import CompileService.Http.Lemmas.Sorting

/-!
# The rows of a directory

`GetEntry` makes one row for each entry that it lists, in slots that keep the time that the allocator left there, and
sorts them.
-/

namespace CompileService.Http

open CompileService.Base

/-- All allocations of a `GetEntry` succeed. -/
structure EntryHeap.Serves (heap : EntryHeap) : Prop where
  ap : heap.ap = true
  ret : heap.ret = true
  grow : ∀ k, heap.grow k ≠ none
  path : ∀ i, heap.path i = true
  temp : heap.temp ≠ none

/-- Allocations that succeed with cleared memory. -/
def EntryHeap.zeroed : EntryHeap :=
  ⟨true, true, fun _ => some (Vector.replicate 5 RowInfo.zeroed), fun _ => true, some RowInfo.zeroed⟩

theorem EntryHeap.zeroed_serves : EntryHeap.zeroed.Serves :=
  ⟨rfl, rfl, fun _ => Option.some_ne_none _, fun _ => rfl, Option.some_ne_none _⟩

/-- What the `k`-th slot of the array holds before anything is written into it. -/
def EntryHeap.slot (heap : EntryHeap) (k : Nat) : Option RowInfo :=
  (heap.grow (k / 5)).map fun slots => slots.get ⟨k % 5, Nat.mod_lt k (by decide)⟩

/-- The entry `dp` is shown in a list of the entries of type `type`. -/
def Disk.Listed (d : Disk) (ap : CStr) (type : UInt8) (dp : Dirent) : Prop :=
  (type = typeAll ∨ type = dp.type) ∧ isDotPath dp.name = false ∧ d.stat (dp.path ap) ≠ none

instance (d : Disk) (ap : CStr) (type : UInt8) (dp : Dirent) : Decidable (d.Listed ap type dp) :=
  inferInstanceAs (Decidable (_ ∧ _ ∧ _))

def Disk.listed (d : Disk) (ap : CStr) (type : UInt8) (entries : List Dirent) : List Dirent :=
  entries.filter fun dp => d.Listed ap type dp

section
variable {d : Disk} {ap : CStr} {type : UInt8} {dp : Dirent} {entries : List Dirent}

theorem Disk.listed_pos (h : d.Listed ap type dp) :
    d.listed ap type (dp :: entries) = dp :: d.listed ap type entries :=
  List.filter_cons_of_pos (decide_eq_true h)

theorem Disk.listed_neg (h : ¬ d.Listed ap type dp) :
    d.listed ap type (dp :: entries) = d.listed ap type entries :=
  List.filter_cons_of_neg (by simpa using h)

end

/-- The rows of `fe` are those of the entries `dps`, made in the slots of the heap; the slots behind them are as they
were allocated. -/
structure Disk.Holding (d : Disk) (heap : EntryHeap) (ap req : CStr) (dps : List Dirent) (fe : FileEntry) : Prop where
  length : fe.length = dps.length
  capacity : fe.length ≤ fe.data.length
  whole : 5 ∣ fe.data.length
  made : ∀ k dp, dps[k]? = some dp →
    ∃ row slot, fe.data[k]? = some row ∧ d.Made ap req dp row ∧ heap.slot k = some slot ∧ row.time = slot.time
  free : ∀ k, fe.length ≤ k → k < fe.data.length → fe.data[k]? = heap.slot k

namespace Disk

variable {d : Disk} {heap : EntryHeap} {ap req : CStr} {dps : List Dirent} {fe : FileEntry}

/-! ## One entry -/

theorem Holding.start : d.Holding heap ap req [] ⟨0, []⟩ :=
  ⟨rfl, Nat.le_refl 0, Nat.dvd_zero 5, fun _ _ h => (by cases h), fun k _ h => absurd h (Nat.not_lt_zero k)⟩

/-- The slots that there are come from a `realloc` that succeeded. -/
theorem Holding.granted (h : d.Holding heap ap req dps fe) {k : Nat} (hk : 5 * k < fe.data.length) :
    heap.grow k ≠ none := by
  have hslot : heap.slot (5 * k) ≠ none := by
    by_cases hlt : 5 * k < fe.length
    · have hlt' : 5 * k < dps.length := by rwa [h.length] at hlt
      obtain ⟨_, slot, _, _, hslot, _⟩ := h.made (5 * k) _ (List.getElem?_eq_getElem hlt')
      rw [hslot]
      exact Option.some_ne_none slot
    · rw [← h.free (5 * k) (Nat.not_lt.mp hlt) hk, List.getElem?_eq_getElem hk]
      exact Option.some_ne_none _
  intro hnone
  rw [EntryHeap.slot, Nat.mul_div_cancel_left k (by decide), hnone] at hslot
  exact hslot rfl

/-- After the `realloc` there is a free slot. -/
theorem Holding.grown (h : d.Holding heap ap req dps fe) :
    let grown :=
      if fe.length = fe.data.length then
        (heap.grow (fe.data.length / 5)).map fun slots => { fe with data := fe.data ++ slots.toList }
      else some fe
    (grown = none ∧ ∃ k, fe.length = 5 * k ∧ heap.grow k = none) ∨
      ∃ fe', grown = some fe' ∧ d.Holding heap ap req dps fe' ∧ fe'.length < fe'.data.length ∧
        fe.data.length ≤ fe'.data.length := by
  intro grown
  by_cases hfull : fe.length = fe.data.length
  · obtain ⟨q, hq⟩ := h.whole
    cases hgrow : heap.grow (fe.data.length / 5) with
    | none =>
        have hdiv : fe.data.length / 5 = q := by omega
        exact Or.inl ⟨by simp only [grown, if_pos hfull, hgrow]; rfl, q, hfull.trans hq, hdiv ▸ hgrow⟩
    | some slots =>
        refine Or.inr ⟨{ fe with data := fe.data ++ slots.toList }, ?_, ⟨h.length, ?_, ?_, ?_, ?_⟩, ?_, ?_⟩
        · simp only [grown, if_pos hfull, hgrow]
          rfl
        · simp only [List.length_append, Vector.length_toList]
          omega
        · simp only [List.length_append, Vector.length_toList]
          exact Nat.dvd_add h.whole (Nat.dvd_refl 5)
        · intro k dp hk
          obtain ⟨row, slot, hrow, hmade⟩ := h.made k dp hk
          refine ⟨row, slot, ?_, hmade⟩
          rw [List.getElem?_append_left (List.getElem?_eq_some_iff.mp hrow).1]
          exact hrow
        · intro k hlo hhi
          simp only [List.length_append, Vector.length_toList] at hlo hhi
          have hdiv : k / 5 = fe.data.length / 5 := by omega
          have hmod : k % 5 = k - fe.data.length := by omega
          rw [List.getElem?_append_right (by omega), EntryHeap.slot, hdiv, hgrow]
          simp only [Option.map_some, hmod]
          rw [List.getElem?_eq_getElem (by rw [Vector.length_toList]; omega), Vector.getElem_toList]
          rfl
        · simp only [List.length_append, Vector.length_toList]
          omega
        · simp only [List.length_append, Vector.length_toList]
          omega
  · exact Or.inr ⟨fe, if_neg hfull, h, Nat.lt_of_le_of_ne h.capacity hfull, Nat.le_refl _⟩

theorem Holding.snoc {dp : Dirent} {item item' : RowInfo} (h : d.Holding heap ap req dps fe)
    (hroom : fe.length < fe.data.length) (hitem : slotAt fe.data fe.length = .ok item)
    (hmade : d.Made ap req dp item') (htime : item'.time = item.time) :
    d.Holding heap ap req (dps ++ [dp]) ⟨fe.length + 1, fe.data.set fe.length item'⟩ := by
  have hslot : heap.slot fe.length = some item := by
    rw [← h.free fe.length (Nat.le_refl _) hroom]
    unfold slotAt at hitem
    split at hitem
    · rename_i hrow
      rw [hrow, Except.ok.inj hitem]
    · cases hitem
  refine ⟨?_, ?_, ?_, ?_, ?_⟩
  · simp only [List.length_append, List.length_singleton, h.length]
  · simp only [List.length_set]
    exact hroom
  · simp only [List.length_set]
    exact h.whole
  · intro k dp' hk
    by_cases hlast : k = fe.length
    · subst hlast
      rw [h.length, List.getElem?_concat_length] at hk
      obtain rfl := Option.some.inj hk
      exact ⟨item', item, by rw [List.getElem?_set_self hroom], hmade, hslot, htime⟩
    · have hlt : k < dps.length := by
        have := (List.getElem?_eq_some_iff.mp hk).1
        rw [List.length_append, List.length_singleton] at this
        have := h.length
        omega
      rw [List.getElem?_append_left hlt] at hk
      simp only [List.getElem?_set_ne (Ne.symm hlast)]
      exact h.made k dp' hk
  · intro k hlo hhi
    simp only [List.length_set] at hlo hhi ⊢
    rw [List.getElem?_set_ne (by omega)]
    exact h.free k (by omega) hhi

/-- Reading an entry leaves `fe'` of `fe`: there was room for a row, and no slot is given back. -/
def Roomy (fe fe' : FileEntry) : Prop := fe.length < fe'.data.length ∧ fe.data.length ≤ fe'.data.length

/-- What the loop does with one entry: `realloc` fails, the entry is passed over, it becomes the next row, or it does
not fit. -/
theorem addEntry_cases (type : UInt8) {dp : Dirent} (hap : ap ≠ []) (hreq : 0 ∉ req) (hname : 0 ∉ dp.name)
    (h : d.Holding heap ap req dps fe) (i : Nat) :
    (d.addEntry heap ap req type i dp fe = .ok none ∧ ∃ k, fe.length = 5 * k ∧ heap.grow k = none) ∨
    (¬ (heap.path i = true ∧ d.Listed ap type dp) ∧
      ∃ fe', d.addEntry heap ap req type i dp fe = .ok (some fe') ∧ d.Holding heap ap req dps fe' ∧ Roomy fe fe') ∨
    ((heap.path i = true ∧ d.Listed ap type dp) ∧ dp.Fits req ∧
      ∃ fe', d.addEntry heap ap req type i dp fe = .ok (some fe') ∧ d.Holding heap ap req (dps ++ [dp]) fe' ∧
        Roomy fe fe') ∨
    (d.Listed ap type dp ∧ ¬ dp.Fits req ∧ d.addEntry heap ap req type i dp fe = .error .bounds) := by
  rcases h.grown with ⟨hgrown, hk⟩ | ⟨fe', hgrown, hfe', hroom, hkept⟩
  · exact Or.inl ⟨by simp only [addEntry, hgrown], hk⟩
  · right
    have hroomy : Roomy fe fe' := ⟨by rw [h.length, ← hfe'.length]; exact hroom, hkept⟩
    obtain ⟨item, hitem, hself⟩ : ∃ item, slotAt fe'.data fe'.length = .ok item ∧
        fe'.data.set fe'.length item = fe'.data :=
      ⟨fe'.data[fe'.length], by rw [slotAt, List.getElem?_eq_getElem hroom], List.set_getElem_self hroom⟩
    by_cases htype : (type = typeAll ∨ type = dp.type) ∧ isDotPath dp.name = false
    · have hcond : (type = typeAll ∨ type = dp.type) ∧ (!isDotPath dp.name) = true := ⟨htype.1, by rw [htype.2]; rfl⟩
      cases hpath : heap.path i with
      | false =>
          refine Or.inl ⟨fun hp => by simp at hp, fe', ?_, hfe', hroomy⟩
          simp only [addEntry, hgrown, if_pos hcond, hitem, Exec.ok_bind, hpath, makeEntryItem_unallocated, hself]
          rfl
      | true =>
          by_cases hstat : d.stat (dp.path ap) = none
          · refine Or.inl ⟨fun hp => hp.2.2.2 hstat, fe', ?_, hfe', hroomy⟩
            simp only [addEntry, hgrown, if_pos hcond, hitem, Exec.ok_bind, makeEntryItem_missing item hap hstat,
              hself]
            rfl
          · have hlisted : d.Listed ap type dp := ⟨htype.1, htype.2, hstat⟩
            by_cases hfits : dp.Fits req
            · obtain ⟨item', hmake, hmade, htime⟩ := makeEntryItem_made item hap hreq hname hstat hfits
              have hroomy' : Roomy fe ⟨fe'.length + 1, fe'.data.set fe'.length item'⟩ := by rwa [Roomy, List.length_set]
              refine Or.inr (Or.inl ⟨⟨rfl, hlisted⟩, hfits, _, ?_, hfe'.snoc hroom hitem hmade htime, hroomy'⟩)
              simp only [addEntry, hgrown, if_pos hcond, hitem, Exec.ok_bind, hpath, hmake]
              rfl
            · refine Or.inr (Or.inr ⟨hlisted, hfits, ?_⟩)
              simp only [addEntry, hgrown, if_pos hcond, hitem, Exec.ok_bind, hpath,
                makeEntryItem_overflows item hap hreq hname hstat hfits]
              rfl
    · refine Or.inl ⟨fun hp => htype ⟨hp.2.1, hp.2.2.1⟩, fe', ?_, hfe', hroomy⟩
      have hcond : ¬ ((type = typeAll ∨ type = dp.type) ∧ (!isDotPath dp.name) = true) :=
        fun hc => htype ⟨hc.1, by simpa using hc.2⟩
      simp only [addEntry, hgrown, if_neg hcond]

/-! ## All entries -/

section
variable {entries : List Dirent}

/-- What the loop does with all entries: `realloc` fails, an entry does not fit, or the rows are those of some listed
entries in the order of the directory, of all of them if the paths are allocated. -/
theorem readEntries_cases (type : UInt8) (hap : ap ≠ []) (hreq : 0 ∉ req) (hnames : ∀ dp ∈ entries, 0 ∉ dp.name)
    (h : d.Holding heap ap req dps fe) (i : Nat) :
    (d.readEntries heap ap req type i entries fe = .ok none ∧ ∃ k, heap.grow k = none) ∨
    (d.readEntries heap ap req type i entries fe = .error .bounds ∧ ∃ dp ∈ d.listed ap type entries, ¬ dp.Fits req) ∨
    (∃ dps' fe', d.readEntries heap ap req type i entries fe = .ok (some fe') ∧
      d.Holding heap ap req (dps ++ dps') fe' ∧ dps'.Sublist (d.listed ap type entries) ∧ (∀ dp ∈ dps', dp.Fits req) ∧
      ((∀ i, heap.path i = true) → dps' = d.listed ap type entries)) := by
  induction entries generalizing dps fe i with
  | nil => exact Or.inr (Or.inr ⟨[], fe, rfl, by rwa [List.append_nil], List.Sublist.slnil, by simp, fun _ => rfl⟩)
  | cons dp entries ih =>
      obtain ⟨hname, hnames⟩ := List.forall_mem_cons.mp hnames
      have hsub : (d.listed ap type entries).Sublist (d.listed ap type (dp :: entries)) :=
        (List.sublist_cons_self dp entries).filter _
      rcases addEntry_cases type hap hreq hname h i with
        ⟨hadd, k, _, hk⟩ | ⟨hskip, fe₁, hadd, h₁, _⟩ | ⟨⟨_, hlisted⟩, hfit, fe₁, hadd, h₁, _⟩ | ⟨hlisted, hfit, hadd⟩
      · exact Or.inl ⟨by rw [readEntries, hadd]; rfl, k, hk⟩
      · rw [readEntries, hadd, Exec.ok_bind]
        rcases ih hnames h₁ (i + 1) with hnone | ⟨hrun, dp', hdp', hfit'⟩ | ⟨dps', fe', hrun, h', hdps, hfits, hall⟩
        · exact Or.inl hnone
        · exact Or.inr (Or.inl ⟨hrun, dp', hsub.subset hdp', hfit'⟩)
        · refine Or.inr (Or.inr ⟨dps', fe', hrun, h', hdps.trans hsub, hfits, fun hpath => ?_⟩)
          have hnot : ¬ d.Listed ap type dp := fun hl => hskip ⟨hpath i, hl⟩
          rw [hall hpath, listed_neg hnot]
      · have hcons : d.listed ap type (dp :: entries) = dp :: d.listed ap type entries :=
          List.filter_cons_of_pos (by simpa using hlisted)
        rw [readEntries, hadd, Exec.ok_bind]
        rcases ih hnames h₁ (i + 1) with hnone | ⟨hrun, dp', hdp', hfit'⟩ | ⟨dps', fe', hrun, h', hdps, hfits, hall⟩
        · exact Or.inl hnone
        · exact Or.inr (Or.inl ⟨hrun, dp', hsub.subset hdp', hfit'⟩)
        · refine Or.inr (Or.inr ⟨dp :: dps', fe', hrun, by simpa using h', ?_, ?_, fun hpath => ?_⟩)
          · rw [hcons]
            exact hdps.cons_cons dp
          · exact List.forall_mem_cons.mpr ⟨hfit, hfits⟩
          · rw [hcons, hall hpath]
      · refine Or.inr (Or.inl ⟨by rw [readEntries, hadd]; rfl, dp, ?_, hfit⟩)
        exact List.mem_filter.mpr ⟨List.mem_cons_self, by simpa using hlisted⟩

end

end Disk

/-! ## The whole listing -/

/-- The texts of the row of `dp`, made in a slot. -/
def Disk.rowOf (d : Disk) (ap req : CStr) (dp : Dirent) (slot : Option RowInfo) : Row :=
  ⟨linkOf req dp.name, dp.name, dp.typeText, d.sizeOf ap dp, slot.elim [] fun slot => untilNul slot.time.toList⟩

/-- The texts of the rows of some entries, in the order in which the slots are used. -/
def Disk.rowsOf (d : Disk) (heap : EntryHeap) (ap req : CStr) (dps : List Dirent) : List Row :=
  dps.zipIdx.map fun dpk => d.rowOf ap req dpk.1 (heap.slot dpk.2)

/-- The times in the first `n` slots are strings. -/
def EntryHeap.Terminated (heap : EntryHeap) (n : Nat) : Prop :=
  ∀ k < n, ∃ slot, heap.slot k = some slot ∧ 0 ∈ slot.time.toList

namespace Disk

variable {d : Disk} {heap : EntryHeap} {ap req : CStr} {dps : List Dirent} {fe : FileEntry}

theorem Holding.length_rows (h : d.Holding heap ap req dps fe) : fe.rows.length = dps.length := by
  have := h.capacity
  rw [FileEntry.rows, List.length_take, h.length]
  have := h.length
  omega

theorem Holding.row (h : d.Holding heap ap req dps fe) {k : Nat} {dp : Dirent} (hk : dps[k]? = some dp) :
    ∃ row slot, fe.rows[k]? = some row ∧ d.Made ap req dp row ∧ heap.slot k = some slot ∧ row.time = slot.time := by
  obtain ⟨row, slot, hrow, hmade⟩ := h.made k dp hk
  refine ⟨row, slot, ?_, hmade⟩
  rw [FileEntry.rows, List.getElem?_take_of_lt, hrow]
  rw [h.length]
  exact (List.getElem?_eq_some_iff.mp hk).1

theorem Holding.mem_rows (h : d.Holding heap ap req dps fe) {row : RowInfo} (hrow : row ∈ fe.rows) :
    ∃ dp ∈ dps, d.Made ap req dp row := by
  obtain ⟨k, hk⟩ := List.mem_iff_getElem?.mp hrow
  have hlt : k < dps.length := by
    rw [← h.length_rows]
    exact (List.getElem?_eq_some_iff.mp hk).1
  obtain ⟨row', _, hrow', hmade, _⟩ := h.row (List.getElem?_eq_getElem hlt)
  obtain rfl := Option.some.inj (hk.symm.trans hrow')
  exact ⟨_, List.getElem_mem hlt, hmade⟩

theorem Holding.readable (h : d.Holding heap ap req dps fe) : Readable fe.length fe.data := by
  refine ⟨h.capacity, fun row hrow => ?_⟩
  obtain ⟨dp, _, hmade⟩ := h.mem_rows hrow
  exact ⟨_, hmade.name⟩

theorem Holding.reads (h : d.Holding heap ap req dps fe) (ht : heap.Terminated dps.length) :
    List.Forall₂ RowInfo.Reads fe.rows (d.rowsOf heap ap req dps) := by
  refine List.forall₂_iff_get.mpr ⟨by rw [h.length_rows, rowsOf, List.length_map, List.length_zipIdx], ?_⟩
  intro k hk hk'
  have hlt : k < dps.length := by rwa [h.length_rows] at hk
  obtain ⟨row, slot, hrow, hmade, hslot, htime⟩ := h.row (List.getElem?_eq_getElem hlt)
  obtain ⟨slot', hslot', hnul⟩ := ht k hlt
  obtain rfl := Option.some.inj (hslot.symm.trans hslot')
  have hget : fe.rows[k] = row := Option.some.inj ((List.getElem?_eq_getElem hk).symm.trans hrow)
  simp only [List.get_eq_getElem, rowsOf, List.getElem_map, List.getElem_zipIdx, Nat.zero_add, hget, rowOf, hslot,
    Option.elim_some]
  exact ⟨hmade.link, hmade.name, hmade.type, hmade.size, by rw [htime, CArray.text, cstr, if_pos hnul]⟩

theorem Holding.unterminated (h : d.Holding heap ap req dps fe) (ht : ¬ heap.Terminated dps.length) :
    ∃ row ∈ fe.rows, row.time.text = .error .bounds := by
  unfold EntryHeap.Terminated at ht
  push Not at ht
  obtain ⟨k, hlt, hnul⟩ := ht
  obtain ⟨row, slot, hrow, _, hslot, htime⟩ := h.row (List.getElem?_eq_getElem hlt)
  exact ⟨row, List.mem_of_getElem? hrow, by rw [htime, CArray.text, cstr, if_neg (hnul slot hslot)]⟩

variable {root : CStr} {type : UInt8} {entries : List Dirent}

theorem getEntry_eq (type : UInt8) (hap : heap.ap = true) (hret : heap.ret = true) (habs : absPath req root = some ap)
    (hdir : d.opendir ap = some entries) :
    d.getEntry heap req root type = d.readEntries heap ap req type 0 entries ⟨0, []⟩ >>= fun read =>
      read.elim (.ok none) fun fe => (sortFileEntry heap.temp fe).map some := by
  have habs' := getAbsPath_of_absPath habs heap.ap
  rw [hap, if_pos rfl] at habs'
  simp only [getEntry, hap, habs', hdir, hret, if_true, Exec.ok_bind]
  refine bind_congr fun read => ?_
  cases read with
  | none => rfl
  | some fe => exact Exec.bind_ok_eq_map _ some

/-- What `GetEntry` returns for a directory. -/
theorem getEntry_cases (heap : EntryHeap) (type : UInt8) (hreq : 0 ∉ req) (habs : absPath req root = some ap)
    (hdir : d.opendir ap = some entries) (hnames : ∀ dp ∈ entries, 0 ∉ dp.name) :
    (d.getEntry heap req root type = .ok none ∧ ¬ heap.Serves) ∨
    (d.getEntry heap req root type = .error .bounds ∧ ∃ dp ∈ d.listed ap type entries, ¬ dp.Fits req) ∨
    (∃ dps fe fe', d.getEntry heap req root type = .ok (some fe) ∧ d.Holding heap ap req dps fe' ∧
      fe.rows.Perm fe'.rows ∧ dps.Sublist (d.listed ap type entries) ∧ (∀ dp ∈ dps, dp.Fits req) ∧
      (heap.Serves → dps = d.listed ap type entries)) := by
  have habs' := getAbsPath_of_absPath habs heap.ap
  cases hap : heap.ap with
  | false =>
      refine Or.inl ⟨?_, fun hs => by rw [hs.ap] at hap; cases hap⟩
      simp only [getEntry, hap]
      rfl
  | true =>
      rw [hap, if_pos rfl] at habs'
      cases hret : heap.ret with
      | false =>
          refine Or.inl ⟨?_, fun hs => by rw [hs.ret] at hret; cases hret⟩
          simp only [getEntry, hap, habs', hdir, hret, Bool.false_eq_true, if_false, Exec.ok_bind]
          rfl
      | true =>
          have hstart : d.Holding heap ap req [] ⟨0, []⟩ := .start
          rw [getEntry_eq type hap hret habs hdir]
          rcases readEntries_cases type (absPath_ne_nil habs) hreq hnames hstart 0 with
            ⟨hrun, k, hk⟩ | ⟨hrun, hfit⟩ | ⟨dps, fe', hrun, h', hsub, hfits, hall⟩
          · exact Or.inl ⟨by rw [hrun]; rfl, fun hs => hs.grow k hk⟩
          · exact Or.inr (Or.inl ⟨by rw [hrun]; rfl, hfit⟩)
          · obtain ⟨fe, hsort, hperm, _⟩ := sortFileEntry_sorts heap.temp h'.readable
            refine Or.inr (Or.inr ⟨dps, fe, fe', ?_, h', hperm, hsub, hfits, fun hs => hall hs.path⟩)
            rw [hrun, Exec.ok_bind, Option.elim_some, hsort]
            rfl

end Disk

end CompileService.Http
