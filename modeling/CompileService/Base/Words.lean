import Mathlib.Data.List.Basic

/-!
# Words

The words of a list are its longest runs of elements other than a separator. A list without empty words between its
separators is read off its words by joining them.
-/

namespace CompileService.Base

variable {α : Type} [DecidableEq α] {c b : α} {s t w : List α}

def words (c : α) (s : List α) : List (List α) := (s.splitOn c).filter (· ≠ [])

/-- The words with one separator between them. -/
def joined (c : α) (s : List α) : List α := [c].intercalate (words c s)

theorem words_nil (c : α) : words c [] = [] := rfl

theorem words_append (s t : List α) : words c (s ++ c :: t) = words c s ++ words c t := by
  rw [words, List.splitOn_append_cons_self, List.filter_append]
  rfl

theorem words_cons_self (t : List α) : words c (c :: t) = words c t := words_append [] t

theorem words_concat_self (s : List α) : words c (s ++ [c]) = words c s := by
  rw [words_append, words_nil, List.append_nil]

theorem words_singleton (hc : c ∉ w) (hw : w ≠ []) : words c w = [w] := by
  rw [words, List.splitOn_eq_singleton hc, List.filter_singleton, decide_eq_true hw, cond_true]

omit [DecidableEq α] in
/-- A list with a separator ends in a run behind the last one. -/
theorem exists_last (h : c ∈ s) : ∃ t w, s = t ++ c :: w ∧ c ∉ w := by
  obtain ⟨w, t, hs, hw⟩ := List.eq_append_cons_of_mem (List.mem_reverse.mpr h)
  refine ⟨t.reverse, w.reverse, ?_, fun hmem => hw (List.mem_reverse.mp hmem)⟩
  rw [← List.reverse_reverse s, hs]
  simp

theorem flatten_splitOn (c : α) (s : List α) : (s.splitOn c).flatten = s.filter (· ≠ c) := by
  induction s with
  | nil => rfl
  | cons b s ih =>
      obtain ⟨w, ws, hsplit⟩ := List.exists_cons_of_ne_nil (List.splitOn_ne_nil c s)
      rw [List.splitOn_cons_eq_if_modifyHead]
      by_cases hb : b = c
      · rw [if_pos (beq_iff_eq.mpr hb), List.filter_cons_of_neg (by simpa using hb), ← ih]
        rfl
      · rw [if_neg (fun h => hb (beq_iff_eq.mp h)), List.filter_cons_of_pos (by simpa using hb), ← ih, hsplit]
        rfl

theorem flatten_words (c : α) (s : List α) : (words c s).flatten = s.filter (· ≠ c) := by
  have hdrop : ∀ ws : List (List α), (ws.filter (· ≠ [])).flatten = ws.flatten := by
    intro ws
    induction ws with
    | nil => rfl
    | cons w ws ih =>
        by_cases hw : w = []
        · simpa [hw] using ih
        · simpa [hw] using ih
  rw [words, hdrop, flatten_splitOn]

theorem mem_words (h : w ∈ words c s) : w ≠ [] ∧ c ∉ w := by
  obtain ⟨hmem, hw⟩ := List.mem_filter.mp h
  refine ⟨of_decide_eq_true hw, fun hc => ?_⟩
  have hflat : c ∈ (words c s).flatten := List.mem_flatten.mpr ⟨w, h, hc⟩
  rw [flatten_words] at hflat
  simpa using List.of_mem_filter hflat

theorem mem_of_mem_words (h : w ∈ words c s) (hb : b ∈ w) : b ∈ s := by
  have hflat : b ∈ (words c s).flatten := List.mem_flatten.mpr ⟨w, h, hb⟩
  rw [flatten_words] at hflat
  exact List.mem_of_mem_filter hflat

theorem words_eq_nil_iff : words c s = [] ↔ ∀ b ∈ s, b = c := by
  constructor
  · intro h b hb
    have hflat := flatten_words c s
    rw [h] at hflat
    simpa using List.filter_eq_nil_iff.mp hflat.symm b hb
  · intro h
    refine List.eq_nil_iff_forall_not_mem.mpr fun w hw => ?_
    obtain ⟨b, w', rfl⟩ := List.exists_cons_of_ne_nil (mem_words hw).1
    have hflat : b ∈ (words c s).flatten := List.mem_flatten.mpr ⟨_, hw, List.mem_cons_self⟩
    rw [flatten_words] at hflat
    obtain ⟨hb, hne⟩ := List.mem_filter.mp hflat
    exact of_decide_eq_true hne (h b hb)

/-! ## One more element -/

theorem words_concat_new (hs : s = [] ∨ s.getLast? = some c) (hb : b ≠ c) :
    words c (s ++ [b]) = words c s ++ [[b]] := by
  have hnot : c ∉ [b] := fun h => hb (List.mem_singleton.mp h).symm
  have hword : words c [b] = [[b]] := words_singleton hnot (List.cons_ne_nil b [])
  rcases hs with rfl | hs
  · exact hword
  · obtain ⟨t, rfl⟩ := List.getLast?_eq_some_iff.mp hs
    rw [List.append_assoc, List.singleton_append, words_append, words_concat_self, hword]

theorem words_concat_more (hs : s ≠ []) (hlast : s.getLast? ≠ some c) (hb : b ≠ c) :
    ∃ ws w, words c s = ws ++ [w] ∧ words c (s ++ [b]) = ws ++ [w ++ [b]] := by
  have hword : ∀ w : List α, c ∉ w → words c (w ++ [b]) = [w ++ [b]] := by
    intro w hw
    refine words_singleton ?_ (List.append_ne_nil_of_right_ne_nil w (List.cons_ne_nil b []))
    simp [hw, Ne.symm hb]
  by_cases hc : c ∈ s
  · obtain ⟨t, w, rfl, hw⟩ := exists_last hc
    have hnil : w ≠ [] := by
      rintro rfl
      simp at hlast
    refine ⟨words c t, w, by rw [words_append, words_singleton hw hnil], ?_⟩
    rw [List.append_assoc, List.cons_append, words_append, hword w hw]
  · exact ⟨[], s, words_singleton hc hs, hword s hc⟩

omit [DecidableEq α] in
theorem intercalate_concat {ws : List (List α)} (h : ws ≠ []) (w : List α) :
    [c].intercalate (ws ++ [w]) = [c].intercalate ws ++ c :: w := by
  induction ws with
  | nil => exact absurd rfl h
  | cons v ws ih =>
      cases ws with
      | nil => simp
      | cons u ws =>
          rw [List.cons_append, List.cons_append, List.intercalate_cons_cons, List.intercalate_cons_cons,
            ← List.cons_append, ih (List.cons_ne_nil u ws)]
          simp

omit [DecidableEq α] in
theorem intercalate_extend (ws : List (List α)) (w v : List α) :
    [c].intercalate (ws ++ [w ++ v]) = [c].intercalate (ws ++ [w]) ++ v := by
  by_cases hws : ws = []
  · simp [hws]
  · rw [intercalate_concat hws, intercalate_concat hws, List.append_assoc, List.cons_append]

/-! ## Joining the words -/

theorem joined_concat_self (s : List α) : joined c (s ++ [c]) = joined c s := by
  rw [joined, joined, words_concat_self]

theorem joined_concat_first (hb : b ≠ c) : joined c [b] = [b] := by
  have hwords : words c [b] = [[b]] := words_concat_new (Or.inl rfl) hb
  rw [joined, hwords, List.intercalate_singleton]

theorem joined_concat_new (hs : s.getLast? = some c) (hne : words c s ≠ []) (hb : b ≠ c) :
    joined c (s ++ [b]) = joined c s ++ [c, b] := by
  rw [joined, words_concat_new (Or.inr hs) hb, intercalate_concat hne]
  rfl

theorem joined_concat_more (hs : s ≠ []) (hlast : s.getLast? ≠ some c) (hb : b ≠ c) :
    joined c (s ++ [b]) = joined c s ++ [b] := by
  obtain ⟨ws, w, hws, hmore⟩ := words_concat_more hs hlast hb
  rw [joined, joined, hmore, hws, intercalate_extend]

theorem words_dropWhile (c : α) (s : List α) : words c (s.dropWhile (· = c)) = words c s := by
  induction s with
  | nil => rfl
  | cons b s ih =>
      by_cases hb : b = c
      · rw [List.dropWhile_cons_of_pos (by simpa using hb), ih, hb, words_cons_self]
      · rw [List.dropWhile_cons_of_neg (by simpa using hb)]

omit [DecidableEq α] in
theorem mem_intercalate {ws : List (List α)} (h : b ∈ [c].intercalate ws) : b = c ∨ ∃ w ∈ ws, b ∈ w := by
  induction ws with
  | nil => exact absurd h List.not_mem_nil
  | cons w ws ih =>
      cases ws with
      | nil =>
          rw [List.intercalate_singleton] at h
          exact Or.inr ⟨w, List.mem_cons_self, h⟩
      | cons v ws =>
          rw [List.intercalate_cons_cons, List.append_assoc] at h
          rcases List.mem_append.mp h with h | h
          · exact Or.inr ⟨w, List.mem_cons_self, h⟩
          · rcases List.mem_cons.mp h with rfl | h
            · exact Or.inl rfl
            · rcases ih h with hb | ⟨u, hu, hb⟩
              · exact Or.inl hb
              · exact Or.inr ⟨u, List.mem_cons_of_mem w hu, hb⟩

theorem joined_of_notMem (hc : c ∉ s) : joined c s = s := by
  by_cases hs : s = []
  · rw [hs]
    rfl
  · rw [joined, words_singleton hc hs, List.intercalate_singleton]

/-- What is joined is part of the list: a separator is used only if the list has one. -/
theorem mem_joined (h : b ∈ joined c s) : b ∈ s := by
  by_cases hc : c ∈ s
  · rcases mem_intercalate h with rfl | ⟨w, hw, hb⟩
    · exact hc
    · exact mem_of_mem_words hw hb
  · rwa [joined_of_notMem hc] at h

/-- The pieces of the joined words are the words. -/
theorem splitOn_joined (h : words c s ≠ []) : (joined c s).splitOn c = words c s :=
  List.splitOn_intercalate c (fun _ hw => (mem_words hw).2) h

theorem words_joined (c : α) (s : List α) : words c (joined c s) = words c s := by
  by_cases h : words c s = []
  · rw [joined, h]
    rfl
  · rw [words, splitOn_joined h]
    exact List.filter_eq_self.mpr fun w hw => decide_eq_true (mem_words hw).1

/-- Adding to a list changes its joined words unless only separators are added. -/
theorem joined_append_eq_iff : joined c (s ++ t) = joined c s ↔ ∀ b ∈ t, b = c := by
  constructor
  · intro h
    have hwords : words c (s ++ t) = words c s := by rw [← words_joined, h, words_joined]
    have hflat := flatten_words c (s ++ t)
    rw [hwords, flatten_words, List.filter_append] at hflat
    intro b hb
    simpa using List.filter_eq_nil_iff.mp (List.self_eq_append_right.mp hflat) b hb
  · intro h
    cases t with
    | nil => rw [List.append_nil]
    | cons b t =>
        obtain ⟨rfl, ht⟩ := List.forall_mem_cons.mp h
        rw [joined, joined, words_append, words_eq_nil_iff.mpr ht, List.append_nil]

/-! ## Counting -/

omit [DecidableEq α] in
/-- With a separator behind the last word as well, the text is made of words and their separators. -/
theorem flatMap_separated {ws : List (List α)} (h : ws ≠ []) :
    ws.flatMap (· ++ [c]) = [c].intercalate ws ++ [c] := by
  induction ws with
  | nil => exact absurd rfl h
  | cons w ws ih =>
      cases ws with
      | nil => simp
      | cons v ws =>
          rw [List.flatMap_cons, ih (List.cons_ne_nil v ws), List.intercalate_cons_cons]
          simp

theorem count_flatMap_separated {ws : List (List α)} (h : ∀ w ∈ ws, c ∉ w) :
    (ws.flatMap (· ++ [c])).count c = ws.length := by
  induction ws with
  | nil => rfl
  | cons w ws ih =>
      obtain ⟨hw, hws⟩ := List.forall_mem_cons.mp h
      rw [List.flatMap_cons, List.count_append, List.count_append, List.count_eq_zero.mpr hw, ih hws, List.length_cons,
        List.count_singleton_self, Nat.zero_add, Nat.add_comm]

/-- There is one word more than separators in the joined text. -/
theorem count_joined (h : words c s ≠ []) : (joined c s).count c + 1 = (words c s).length := by
  have hcount := count_flatMap_separated (c := c) fun w hw => (mem_words (s := s) hw).2
  rwa [flatMap_separated h, List.count_append, List.count_singleton_self] at hcount

theorem length_words_le (s t : List α) : (words c s).length ≤ (words c (s ++ t)).length := by
  induction t generalizing s with
  | nil => exact Nat.le_of_eq (congrArg (fun s => (words c s).length) (List.append_nil s).symm)
  | cons b t ih =>
      have hsplit : s ++ b :: t = (s ++ [b]) ++ t := by simp
      refine Nat.le_trans ?_ (hsplit ▸ ih (s ++ [b]))
      by_cases hb : b = c
      · exact Nat.le_of_eq (by rw [hb, words_concat_self])
      · by_cases hs : s = [] ∨ s.getLast? = some c
        · rw [words_concat_new hs hb, List.length_append]
          exact Nat.le_add_right _ _
        · rw [not_or] at hs
          obtain ⟨ws, w, hws, hmore⟩ := words_concat_more hs.1 hs.2 hb
          rw [hws, hmore, List.length_append, List.length_append]
          exact Nat.le_refl _

end CompileService.Base
