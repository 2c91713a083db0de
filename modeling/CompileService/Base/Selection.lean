import Mathlib.Data.List.Basic

/-!
# Selection sort in place

A pass of selection sort puts a least element of the rest into the next slot. Only exchanges are described here; how
the least element is found is up to the program.
-/

namespace CompileService.Base

section
variable {α : Type} {r : α → α → Prop} {n i m : Nat} {l : List α} {x y : α}

/-- The first `i` of `n` slots are settled: what is in them comes before all that is in later slots. -/
def SettledTo (r : α → α → Prop) (n i : Nat) (l : List α) : Prop :=
  ∀ a b x y, a < i → a < b → b < n → l[a]? = some x → l[b]? = some y → r x y

theorem SettledTo.zero : SettledTo r n 0 l := fun a _ _ _ ha => absurd ha (Nat.not_lt_zero a)

theorem SettledTo.pairwise (h : SettledTo r n n l) : (l.take n).Pairwise r := by
  refine List.pairwise_iff_getElem.mpr fun a b ha hb hab => ?_
  have hbn : b < n := Nat.lt_of_lt_of_le hb (List.length_take_le n l)
  refine h a b _ _ (Nat.lt_trans hab hbn) hab hbn ?_ ?_
  · rw [List.getElem_take, ← List.getElem?_eq_getElem]
  · rw [List.getElem_take, ← List.getElem?_eq_getElem]

/-- After an exchange of the slots `i` and `m` a slot holds what it held, or what one of the two held. -/
theorem getElem?_exchange {b : Nat} {z : α} (hx : l[i]? = some x) (hy : l[m]? = some y)
    (hz : ((l.set i y).set m x)[b]? = some z) :
    b ≠ i ∧ b ≠ m ∧ l[b]? = some z ∨ b = i ∧ l[m]? = some z ∨ b = m ∧ l[i]? = some z := by
  have hi : i < l.length := (List.getElem?_eq_some_iff.mp hx).1
  have hm : m < l.length := (List.getElem?_eq_some_iff.mp hy).1
  by_cases hbm : b = m
  · subst hbm
    rw [List.getElem?_set_self (by rwa [List.length_set])] at hz
    exact .inr (.inr ⟨rfl, hx.trans hz⟩)
  · rw [List.getElem?_set_ne (Ne.symm hbm)] at hz
    by_cases hbi : b = i
    · subst hbi
      rw [List.getElem?_set_self hi] at hz
      exact .inr (.inl ⟨rfl, hy.trans hz⟩)
    · rw [List.getElem?_set_ne (Ne.symm hbi)] at hz
      exact .inl ⟨hbi, hbm, hz⟩

/-- The step lemma: slot `i` gets what comes before all that is in the slots from `i` on. -/
theorem SettledTo.exchange (h : SettledTo r n i l) (hx : l[i]? = some x) (hy : l[m]? = some y) (him : i ≤ m)
    (hmn : m < n) (hleast : ∀ b z, i ≤ b → b < n → l[b]? = some z → r y z) :
    SettledTo r n (i + 1) ((l.set i y).set m x) := by
  intro a b u v ha hab hbn hu hv
  -- what is in slot `b` was in a slot of the same kind: a settled one, or one from `i` on
  obtain ⟨b', hb', hkind⟩ : ∃ b', l[b']? = some v ∧ (b' = b ∨ i ≤ b ∧ i ≤ b' ∧ b' < n) := by
    rcases getElem?_exchange hx hy hv with ⟨_, _, hb⟩ | ⟨rfl, hm⟩ | ⟨rfl, hi⟩
    · exact ⟨b, hb, .inl rfl⟩
    · exact ⟨m, hm, .inr ⟨Nat.le_refl _, him, hmn⟩⟩
    · exact ⟨i, hi, .inr ⟨him, Nat.le_refl _, by omega⟩⟩
  by_cases hai : a < i
  · rcases getElem?_exchange hx hy hu with ⟨_, _, ha'⟩ | ⟨rfl, _⟩ | ⟨rfl, _⟩
    · rcases hkind with rfl | ⟨_, hb'i, hb'n⟩
      · exact h a b' u v hai hab hbn ha' hb'
      · exact h a b' u v hai (by omega) hb'n ha' hb'
    · omega
    · omega
  · obtain rfl : a = i := by omega
    have huy : u = y := by
      rcases getElem?_exchange hx hy hu with ⟨hne, _⟩ | ⟨_, hm⟩ | ⟨hm, ha'⟩
      · exact absurd rfl hne
      · exact Option.some.inj (hm.symm.trans hy)
      · exact Option.some.inj ((hm ▸ ha').symm.trans hy)
    rw [huy]
    rcases hkind with rfl | ⟨_, hb'i, hb'n⟩
    · exact hleast b' v (Nat.le_of_lt hab) hbn hb'
    · exact hleast b' v hb'i hb'n hb'

end

end CompileService.Base
