import CompileService.Base.Run
import CompileService.Base.Selection
import CompileService.Http.Listing
import Mathlib.Data.List.Perm.Basic

/-!
# Sorting the rows

`SortFileEntry` is a selection sort: whatever slots it exchanges, the rows are permuted, and each pass of the outer loop
settles one more slot.
-/

namespace CompileService.Http

open CompileService.Base

/-- `strcmp` of the names is not positive. -/
def NameLe (a b : RowInfo) : Prop := nameAfter a b = .ok false

section
variable {a b c : RowInfo} {s t : CStr} {data : List RowInfo} {n i j : Nat}

theorem nameAfter_eq (hs : a.name.text = .ok s) (ht : b.name.text = .ok t) : nameAfter a b = .ok (decide (t < s)) := by
  rw [nameAfter, hs, ht]
  rfl

theorem nameLe_iff (hs : a.name.text = .ok s) (ht : b.name.text = .ok t) : NameLe a b ↔ s ≤ t := by
  rw [NameLe, nameAfter_eq hs ht, ← List.not_lt, Except.ok.injEq, decide_eq_false_iff_not]

theorem NameLe.texts (h : NameLe a b) : ∃ s t, a.name.text = .ok s ∧ b.name.text = .ok t ∧ s ≤ t := by
  obtain ⟨t, ht, h⟩ := Exec.bind_eq_ok.mp h
  obtain ⟨s, hs, h⟩ := Exec.bind_eq_ok.mp h
  exact ⟨s, t, hs, ht, List.not_lt.mp (of_decide_eq_false (Except.ok.inj h))⟩

theorem NameLe.trans (hab : NameLe a b) (hbc : NameLe b c) : NameLe a c := by
  obtain ⟨s, t, hs, ht, hst⟩ := hab.texts
  obtain ⟨t', u, ht', hu, htu⟩ := hbc.texts
  obtain rfl := Except.ok.inj (ht.symm.trans ht')
  exact (nameLe_iff hs hu).mpr (List.le_trans hst htu)

/-- The first `n` slots exist, and their names are strings. -/
def Readable (n : Nat) (data : List RowInfo) : Prop :=
  n ≤ data.length ∧ ∀ row ∈ data.take n, ∃ s, row.name.text = .ok s

theorem slotAt_eq (h : i < data.length) : slotAt data i = .ok data[i] := by
  rw [slotAt, List.getElem?_eq_getElem h]

theorem Readable.slot (h : Readable n data) (hi : i < n) :
    ∃ a s, slotAt data i = .ok a ∧ data[i]? = some a ∧ a.name.text = .ok s := by
  have hi' : i < data.length := Nat.lt_of_lt_of_le hi h.1
  obtain ⟨s, hs⟩ := h.2 data[i] (List.mem_take_iff_getElem.mpr ⟨i, by omega, rfl⟩)
  exact ⟨data[i], s, slotAt_eq hi', List.getElem?_eq_getElem hi', hs⟩

theorem Readable.of_perm {data' : List RowInfo} (h : Readable n data) (hlen : data'.length = data.length)
    (hperm : (data'.take n).Perm (data.take n)) : Readable n data' :=
  ⟨hlen ▸ h.1, fun row hrow => h.2 row (hperm.mem_iff.mp hrow)⟩

/-- Slot `min` has the least name of the slots from `i` up to `j`. -/
def LeastIn (data : List RowInfo) (i j min : Nat) : Prop :=
  ∀ k a b, i ≤ k → k < j → data[min]? = some a → data[k]? = some b → NameLe a b

/-- The slot that is ahead of the least one so far and of the next one is the least of all. -/
theorem LeastIn.succ {min min' : Nat} (hmin : LeastIn data i j min) (ha : data[min]? = some a) (hb : data[j]? = some b)
    (hc : data[min']? = some c) (hca : NameLe c a) (hcb : NameLe c b) : LeastIn data i (j + 1) min' := by
  intro k x y hik hkj hx hy
  obtain rfl := Option.some.inj (hc.symm.trans hx)
  by_cases hk : k = j
  · subst hk
    obtain rfl := Option.some.inj (hb.symm.trans hy)
    exact hcb
  · exact hca.trans (hmin k a y hik (by omega) ha hy)

/-- One comparison. -/
theorem LeastIn.compare {min : Nat} (hmin : LeastIn data i j min) (h : Readable n data) (hlt : min < n) (hj : j < n) :
    ∃ after, (do nameAfter (← slotAt data min) (← slotAt data j)) = .ok after ∧
      LeastIn data i (j + 1) (if after then j else min) := by
  obtain ⟨a, s, ha, ha', hs⟩ := h.slot hlt
  obtain ⟨b, t, hb, hb', ht⟩ := h.slot hj
  refine ⟨decide (t < s), by simp only [ha, hb, Exec.ok_bind, nameAfter_eq hs ht], ?_⟩
  by_cases hts : t < s
  · rw [if_pos (decide_eq_true hts)]
    exact hmin.succ ha' hb' hb' ((nameLe_iff ht hs).mpr (List.le_of_lt hts)) ((nameLe_iff ht ht).mpr (List.le_refl t))
  · rw [if_neg (by simpa using hts)]
    exact hmin.succ ha' hb' ha' ((nameLe_iff hs hs).mpr (List.le_refl s)) ((nameLe_iff hs ht).mpr (List.not_lt.mp hts))

/-- The inner loop finds the least name from `i` on. -/
theorem Readable.minFrom (h : Readable n data) (hi : i < n) :
    ∃ min, minFrom data n i = .ok min ∧ i ≤ min ∧ min < n ∧ LeastIn data i n min := by
  let inv : Nat → Nat → Prop := fun j min => i ≤ min ∧ min < n ∧ LeastIn data i j min
  have hstep : ∀ j min, i ≤ j → j < i + (n - i) → inv j min →
      ∃ min', (do
        return if ← nameAfter (← slotAt data min) (← slotAt data j) then j else min : Exec Nat) = .ok min' ∧
          inv (j + 1) min' := by
    rintro j min hij hjn ⟨himin, hlt, hleast⟩
    obtain ⟨after, hafter, hleast'⟩ := hleast.compare h hlt (by omega)
    refine ⟨if after then j else min, ?_, ?_, ?_, hleast'⟩
    · obtain ⟨a, ha, hrest⟩ := Exec.bind_eq_ok.mp hafter
      obtain ⟨b, hb, hname⟩ := Exec.bind_eq_ok.mp hrest
      simp only [ha, hb, hname, Exec.ok_bind]
      rfl
    · split
      · exact hij
      · exact himin
    · split
      · omega
      · exact hlt
  have hstart : inv i i := ⟨Nat.le_refl i, hi, fun k _ _ hik hki => absurd hki (Nat.not_lt.mpr hik)⟩
  obtain ⟨min, hmin, himin, hlt, hleast⟩ := run_range' hstep hstart
  rw [Nat.add_sub_cancel' (Nat.le_of_lt hi)] at hleast
  exact ⟨min, hmin, himin, hlt, hleast⟩

/-- The state between two passes of the outer loop, of which `i` are done. -/
structure SortedTo (n : Nat) (data : List RowInfo) (i : Nat) (data' : List RowInfo) : Prop where
  length : data'.length = data.length
  perm : (data'.take n).Perm (data.take n)
  settled : SettledTo NameLe n i data'

theorem SortedTo.sortStep {data' : List RowInfo} (hs : SortedTo n data i data') (h : Readable n data) (hi : i < n) :
    ∃ data'', sortStep n data' i = .ok data'' ∧ SortedTo n data (i + 1) data'' := by
  have h' : Readable n data' := h.of_perm hs.length hs.perm
  have hn := h'.1
  obtain ⟨min, hmin, himin, hlt, hleast⟩ := h'.minFrom hi
  have hi' : i < data'.length := Nat.lt_of_lt_of_le hi hn
  have hlt' : min < data'.length := Nat.lt_of_lt_of_le hlt hn
  refine ⟨(data'.set i data'[min]).set min data'[i], ?_, ⟨?_, ?_, ?_⟩⟩
  · simp only [CompileService.Http.sortStep, hmin, slotAt_eq hi', slotAt_eq hlt', Exec.ok_bind]
    rfl
  · rw [List.length_set, List.length_set, hs.length]
  · have htake : n = (data'.take n).length := by
      rw [List.length_take]
      omega
    have hi₁ : i < (data'.take n).length := by omega
    have hlt₁ : min < (data'.take n).length := by omega
    have hperm : (((data'.take n).set i (data'.take n)[min]).set min (data'.take n)[i]).Perm (data'.take n) :=
      List.set_set_perm hi₁ hlt₁
    refine List.Perm.trans ?_ hs.perm
    simpa only [List.take_set, List.getElem_take] using hperm
  · have hgeti := List.getElem?_eq_getElem hi'
    have hgetmin := List.getElem?_eq_getElem hlt'
    exact hs.settled.exchange hgeti hgetmin himin hlt fun b z hib hbn hz => hleast b _ z hib hbn hgetmin hz

/-- Sorting permutes the rows; with the row for the exchange it leaves them in the order of their names. -/
theorem sortFileEntry_sorts {fe : FileEntry} (temp : Option RowInfo) (h : Readable fe.length fe.data) :
    ∃ fe', sortFileEntry temp fe = .ok fe' ∧ fe'.rows.Perm fe.rows ∧ (temp ≠ none → fe'.rows.Pairwise NameLe) := by
  cases temp with
  | none => exact ⟨fe, rfl, List.Perm.refl _, fun htemp => absurd rfl htemp⟩
  | some _ =>
      have hstart : SortedTo fe.length fe.data 0 fe.data := ⟨rfl, List.Perm.refl _, SettledTo.zero⟩
      obtain ⟨data', hrun, hs⟩ := run_range' (fun i data' _ hi (hs : SortedTo fe.length fe.data i data') =>
        hs.sortStep h (by rwa [Nat.zero_add] at hi)) hstart
      rw [Nat.zero_add] at hs
      rw [← List.range_eq_range'] at hrun
      refine ⟨⟨fe.length, data'⟩, ?_, hs.perm, fun _ => hs.settled.pairwise⟩
      simp only [sortFileEntry, hrun, Exec.ok_bind]
      rfl

end

end CompileService.Http
