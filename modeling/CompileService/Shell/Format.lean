import CompileService.Base.Words
import CompileService.Shell.Utility

/-!
# The words of a formatted line

What `FormatByChar` has written when it has read a part of its source are the words of that part, with one separator
between them, and the separator at its end if there is one.
-/

namespace CompileService.Shell

open CompileService.Base

/-! ## The loop -/

/-- The loop has read `p`. -/
structure Formatted (c : UInt8) (p : CStr) (f : Format) : Prop where
  flag : f.flag = true ↔ p.getLast? = some c
  text : f.ret.take f.j = joined c p ++ if f.flag then [c] else []
  length : (joined c p ++ if f.flag then [c] else []).length = f.j
  bound : f.j ≤ p.length

section
variable {c b : UInt8} {p bytes : CStr} {f : Format}

theorem Formatted.start (c : UInt8) (ret : List UInt8) : Formatted c [] ⟨ret, 0, false⟩ :=
  ⟨by simp, rfl, rfl, Nat.le_refl _⟩

/-- A separator is kept unless it is behind a separator. -/
theorem formatByte_separator (h : Formatted c p f) (hroom : f.j < f.ret.length) :
    ∃ f', formatByte c f c = .ok f' ∧ Formatted c (p ++ [c]) f' ∧ f'.ret.length = f.ret.length := by
  have htext := h.text
  have hlength := h.length
  have hbound := h.bound
  cases hflag : f.flag with
  | true =>
      refine ⟨f, by simp [formatByte, hflag], ⟨by simp [hflag], ?_, ?_, ?_⟩, rfl⟩
      · rw [htext, joined_concat_self]
      · rw [joined_concat_self, hlength]
      · rw [List.length_append]
        omega
  | false =>
      rw [hflag] at htext hlength
      refine ⟨⟨f.ret.set f.j c, f.j + 1, true⟩, ?_, ⟨by simp, ?_, ?_, ?_⟩, List.length_set⟩
      · rw [formatByte, if_neg (not_not.mpr rfl), hflag, if_neg Bool.false_ne_true, setByte_eq c hroom]
        rfl
      · rw [take_set_succ c hroom, htext, joined_concat_self]
        simp
      · rw [joined_concat_self]
        simpa using hlength
      · simp
        omega

theorem Formatted.joined_concat (h : Formatted c p f) (hhead : (p ++ [b]).head? ≠ some c) (hb : b ≠ c) :
    joined c (p ++ [b]) = (joined c p ++ if f.flag then [c] else []) ++ [b] := by
  by_cases hp : p = []
  · have hflag : f.flag = false := by
      rw [Bool.eq_false_iff]
      intro hflag
      rw [hp] at h
      cases h.flag.mp hflag
    rw [hp, List.nil_append, joined_concat_first hb, hflag]
    rfl
  · cases hflag : f.flag with
    | true =>
        have hne : words c p ≠ [] := by
          intro hnil
          obtain ⟨a, p, rfl⟩ := List.exists_cons_of_ne_nil hp
          refine hhead ?_
          rw [words_eq_nil_iff.mp hnil a List.mem_cons_self]
          rfl
        rw [joined_concat_new (h.flag.mp hflag) hne hb]
        simp
    | false =>
        have hlast : p.getLast? ≠ some c := fun hc => by
          rw [h.flag.mpr hc] at hflag
          cases hflag
        rw [joined_concat_more hp hlast hb]
        simp

/-- Any other byte is kept. -/
theorem formatByte_letter (h : Formatted c p f) (hhead : (p ++ [b]).head? ≠ some c) (hb : b ≠ c)
    (hroom : f.j < f.ret.length) :
    ∃ f', formatByte c f b = .ok f' ∧ Formatted c (p ++ [b]) f' ∧ f'.ret.length = f.ret.length := by
  have hjoined := h.joined_concat hhead hb
  have hbound := h.bound
  refine ⟨⟨f.ret.set f.j b, f.j + 1, false⟩, ?_, ⟨by simp [hb], ?_, ?_, ?_⟩, List.length_set⟩
  · rw [formatByte, if_pos hb, setByte_eq b hroom]
    rfl
  · rw [take_set_succ b hroom, h.text, hjoined]
    simp
  · have hmore : (joined c (p ++ [b])).length = f.j + 1 := by
      rw [hjoined, List.length_append, h.length, List.length_singleton]
    simpa using hmore
  · simp
    omega

theorem formatByte_formatted (h : Formatted c p f) (hhead : (p ++ [b]).head? ≠ some c) (hroom : f.j < f.ret.length) :
    ∃ f', formatByte c f b = .ok f' ∧ Formatted c (p ++ [b]) f' ∧ f'.ret.length = f.ret.length := by
  by_cases hb : b = c
  · subst hb
    exact formatByte_separator h hroom
  · exact formatByte_letter h hhead hb hroom

/-- The whole loop. -/
theorem formatByte_foldlM (h : Formatted c p f) (hhead : (p ++ bytes).head? ≠ some c)
    (hroom : (p ++ bytes).length < f.ret.length) :
    ∃ f', bytes.foldlM (formatByte c) f = .ok f' ∧ Formatted c (p ++ bytes) f' ∧ f'.ret.length = f.ret.length := by
  induction bytes generalizing p f with
  | nil => exact ⟨f, rfl, by rwa [List.append_nil], rfl⟩
  | cons b bytes ih =>
      have hsplit : p ++ b :: bytes = (p ++ [b]) ++ bytes := by simp
      have hhead₁ : (p ++ [b]).head? ≠ some c := by
        cases p with
        | nil => exact hhead
        | cons a p => exact hhead
      have hbound := h.bound
      obtain ⟨f₁, hstep, h₁, hlen₁⟩ := formatByte_formatted h hhead₁
        (by rw [List.length_append] at hroom; omega)
      rw [hsplit] at hhead hroom ⊢
      obtain ⟨f', hrun, h', hlen'⟩ := ih h₁ hhead (by rwa [hlen₁])
      exact ⟨f', by rw [List.foldlM_cons, hstep, Exec.ok_bind, hrun], h', hlen'.trans hlen₁⟩

/-- Both loops, and the terminator in the place of a last separator or behind the last word. -/
theorem format_part (c : UInt8) {blk : List UInt8} {part : CStr} (h0 : 0 ∉ part)
    (hblk : blk.length = part.length + 1) :
    ∃ f ret, (part.dropWhile (· = c)).foldlM (formatByte c) ⟨blk, 0, false⟩ = .ok f ∧
      setByte f.ret (if f.flag then f.j - 1 else f.j : Int) 0 = .ok ret ∧ cstr ret = .ok (joined c part) ∧
      ret.length = part.length + 1 := by
  have hhead : ([] ++ part.dropWhile (· = c)).head? ≠ some c := by
    intro hc
    have hnot := List.head?_dropWhile_not (fun b : UInt8 => decide (b = c)) part
    rw [List.nil_append] at hc
    rw [hc] at hnot
    simp at hnot
  have hshort : ([] ++ part.dropWhile (· = c)).length ≤ part.length := (List.dropWhile_sublist _).length_le
  obtain ⟨f, hrun, hf, hflen⟩ := formatByte_foldlM (Formatted.start c blk) hhead (by rw [hblk]; omega)
  rw [List.nil_append] at hf hshort
  have hroom : f.ret.length = part.length + 1 := hflen.trans hblk
  have hjoined : joined c (part.dropWhile (· = c)) = joined c part := by
    rw [joined, joined, words_dropWhile]
  have hj0 : 0 ∉ joined c part := fun h => h0 (mem_joined h)
  have htext := hf.text
  have hlength := hf.length
  have hbound := hf.bound
  rw [hjoined] at htext hlength
  refine ⟨f, f.ret.set (joined c part).length 0, hrun, ?_, ?_, ?_⟩
  · cases hflag : f.flag with
    | true =>
        have hj : (f.j : Int) - 1 = (joined c part).length := by
          rw [hflag] at hlength
          simp at hlength
          omega
        rw [if_pos rfl, hj, setByte_eq 0 (by omega)]
    | false =>
        have hj : f.j = (joined c part).length := by
          rw [hflag] at hlength
          simpa using hlength.symm
        rw [if_neg Bool.false_ne_true, hj, setByte_eq 0 (by omega)]
  · refine cstr_set ?_ hj0 ?_
    · have hpart := congrArg (List.take (joined c part).length) htext
      rwa [List.take_take, Nat.min_eq_left (by rw [← hlength, List.length_append]; omega), List.take_left] at hpart
    · rw [List.length_append] at hlength
      omega
  · rw [List.length_set, hroom]

end

/-! ## The function -/

/-- The part of a string that is read, up to its length as an `int`. -/
def counted (s : CStr) : CStr := s.take (toInt32 s.length).toNat

section
variable {malloc : Malloc} {s : CStr} {src : Option CStr} {c : UInt8}

theorem counted_of_lt (h : s.length < 2 ^ 31) : counted s = s := by
  rw [counted, toInt32_of_range (by omega) (by omega), Int.toNat_natCast, List.take_length]

theorem length_counted (h : 0 ≤ toInt32 s.length) : ((counted s).length : Int) = toInt32 s.length := by
  have hle : (toInt32 s.length).toNat ≤ s.length := by
    unfold toInt32 at *
    omega
  rw [counted, List.length_take_of_le hle]
  omega

/-- A block of the size asked for: the length is below the largest `int`, or -1. -/
theorem formatSize_cases (hblk : formatSize s ≤ ptrdiffMax) :
    (0 ≤ toInt32 s.length ∧ formatSize s = (toInt32 s.length).toNat + 1) ∨
      (toInt32 s.length = -1 ∧ formatSize s = 0) := by
  have hrange := toInt32_range s.length
  have hrange' := toInt32_range (toInt32 s.length + 1)
  unfold formatSize ptrdiffMax at *
  obtain ⟨hnonneg, hsize⟩ := toSize_of_lt hrange'.1 hrange'.2 (by omega)
  rw [hsize]
  unfold toInt32 at *
  omega

/-- With a block, the words of what is read are in it, joined. -/
theorem formatByChar_ok (c : UInt8) (h0 : 0 ∉ s) (hpos : 0 < toInt32 s.length)
    (hsize : formatSize s = (toInt32 s.length).toNat + 1) (hblk : malloc (formatSize s) ≠ none) :
    ∃ ret, formatByChar malloc (some s) c = .ok (some ret) ∧ cstr ret = .ok (joined c (counted s)) ∧
      ret.length = (counted s).length + 1 := by
  obtain ⟨blk, hblk⟩ := Option.ne_none_iff_exists'.mp hblk
  have hlen := length_counted (s := s) (by omega)
  have hblklen : blk.toList.length = (counted s).length + 1 := by
    rw [Vector.length_toList, hsize]
    omega
  have hpart0 : 0 ∉ counted s := fun h => h0 (List.mem_of_mem_take h)
  obtain ⟨f, ret, hrun, hset, htext, hretlen⟩ := format_part c hpart0 hblklen
  refine ⟨ret, ?_, htext, hretlen⟩
  have hne : toInt32 s.length ≠ 0 := Int.ne_of_gt hpos
  unfold counted at hrun
  simp only [formatByChar, Option.getD_some, hne, if_false, hblk, hrun, hset, Exec.ok_bind]
  rfl

theorem counted_append_drop (s : CStr) : counted s ++ s.drop (toInt32 s.length).toNat = s := List.take_append_drop _ _

theorem formatByChar_uncounted (c : UInt8) (h : toInt32 s.length = 0) : formatByChar malloc (some s) c = .ok none := by
  rw [formatByChar, Option.getD_some]
  exact if_pos h

/-- A block of no bytes has no room for the terminator. -/
theorem formatByChar_negative (c : UInt8) (hneg : toInt32 s.length = -1) (hsize : formatSize s = 0)
    (hblk : malloc (formatSize s) ≠ none) : formatByChar malloc (some s) c = .error .bounds := by
  obtain ⟨blk, hblk⟩ := Option.ne_none_iff_exists'.mp hblk
  have hempty : blk.toList = [] := List.eq_nil_of_length_eq_zero (Vector.length_toList.trans hsize)
  have hne : ¬ toInt32 s.length = 0 := by omega
  have htake : s.take (toInt32 s.length).toNat = [] := by
    rw [hneg]
    rfl
  simp only [formatByChar, Option.getD_some, hne, if_false, hblk, htake, hempty]
  rfl

/-- `FormatByChar` on a string, with the allocation succeeding; `malloc` refuses sizes that no block can have. -/
theorem formatByChar_cases (c : UInt8) (h0 : 0 ∉ s) (hmalloc : ∀ n, ptrdiffMax < n → malloc n = none)
    (halloc : toInt32 s.length ≠ 0 → malloc (formatSize s) ≠ none) :
    (toInt32 s.length = 0 ∧ formatByChar malloc (some s) c = .ok none) ∨
    (toInt32 s.length = -1 ∧ formatByChar malloc (some s) c = .error .bounds) ∨
    (0 < toInt32 s.length ∧ ∃ ret, formatByChar malloc (some s) c = .ok (some ret) ∧
      cstr ret = .ok (joined c (counted s)) ∧ ret.length = (counted s).length + 1) := by
  by_cases hzero : toInt32 s.length = 0
  · exact Or.inl ⟨hzero, formatByChar_uncounted c hzero⟩
  · have hblk := halloc hzero
    rcases formatSize_cases (Nat.le_of_not_lt fun hlt => hblk (hmalloc _ hlt)) with ⟨hpos, hsize⟩ | ⟨hneg, hsize⟩
    · have hpos' : 0 < toInt32 s.length := lt_of_le_of_ne hpos (Ne.symm hzero)
      exact Or.inr (Or.inr ⟨hpos', formatByChar_ok c h0 hpos' hsize hblk⟩)
    · exact Or.inr (Or.inl ⟨hneg, formatByChar_negative c hneg hsize hblk⟩)

/-- What `FormatByChar` is for: the words of `src` with one `c` between them, or null if there is nothing to read. -/
def Formats (malloc : Malloc) (src : Option CStr) (c : UInt8) : Prop :=
  (src.getD [] = [] → formatByChar malloc src c = .ok none) ∧
    ∀ s, src = some s → s ≠ [] →
      ∃ ret, formatByChar malloc src c = .ok (some ret) ∧ cstr ret = .ok (joined c s)

/-- Formatting. With the allocation succeeding, `FormatByChar` returns the words of its source joined by `c` if and only
if the source is null or empty, or the part of it that `int` counts is not empty and only separators follow. A source
whose length is `2 ^ 31 - 1` as an `int` is not covered: its `len + 1` asks for `2 ^ 64 - 2 ^ 31` bytes, which `malloc`
refuses. -/
theorem formatByChar_joins_iff (h0 : ∀ s, src = some s → 0 ∉ s) (hmalloc : ∀ n, ptrdiffMax < n → malloc n = none)
    (halloc : ∀ s, src = some s → toInt32 s.length ≠ 0 → malloc (formatSize s) ≠ none) :
    Formats malloc src c ↔ ∀ s, src = some s → s ≠ [] →
      0 < toInt32 s.length ∧ ∀ b ∈ s.drop (toInt32 s.length).toNat, b = c := by
  cases src with
  | none => exact iff_of_true ⟨fun _ => rfl, fun s hs => by cases hs⟩ fun s hs => by cases hs
  | some s =>
      have hempty : s = [] → formatByChar malloc (some s) c = .ok none := by
        rintro rfl
        rfl
      have hdrop : joined c (counted s) = joined c s ↔ ∀ b ∈ s.drop (toInt32 s.length).toNat, b = c := by
        have hiff := joined_append_eq_iff (c := c) (s := counted s) (t := s.drop (toInt32 s.length).toNat)
        rwa [counted_append_drop, eq_comm] at hiff
      constructor
      · rintro ⟨_, hformats⟩ s' hs hne
        obtain rfl := Option.some.inj hs
        obtain ⟨ret, hrun, htext⟩ := hformats s rfl hne
        rcases formatByChar_cases c (h0 s rfl) hmalloc (halloc s rfl) with
          ⟨_, hrun'⟩ | ⟨_, hrun'⟩ | ⟨hpos, ret', hrun', htext', _⟩
        · rw [hrun'] at hrun
          cases hrun
        · rw [hrun'] at hrun
          cases hrun
        · obtain rfl := Option.some.inj (Except.ok.inj (hrun'.symm.trans hrun))
          exact ⟨hpos, hdrop.mp (Except.ok.inj (htext'.symm.trans htext))⟩
      · intro hcond
        refine ⟨hempty, fun s' hs hne => ?_⟩
        obtain rfl := Option.some.inj hs
        obtain ⟨hpos, hrest⟩ := hcond s rfl hne
        rcases formatByChar_cases c (h0 s rfl) hmalloc (halloc s rfl) with
          ⟨hzero, _⟩ | ⟨hneg, _⟩ | ⟨_, ret, hrun, htext, _⟩
        · omega
        · omega
        · exact ⟨ret, hrun, htext.trans (congrArg Except.ok (hdrop.mpr hrest))⟩

end

theorem formatByChar_spaces : Formats .cleared (some (ascii "  go  away ")) 0x20 := by
  have hserves := Malloc.cleared_succeeds.serves
  refine (formatByChar_joins_iff ?_ Malloc.cleared_succeeds.bounded ?_).mpr ?_
  · rintro _ ⟨⟩
    decide
  · rintro _ ⟨⟩ _
    exact hserves _ (by decide)
  · rintro _ ⟨⟩ _
    decide +kernel

/-- A line of four gigabytes counts as empty. -/
theorem formatByChar_four_gib : formatByChar .cleared (some fourGiB) 0x20 = .ok none ∧
    ¬ Formats .cleared (some fourGiB) 0x20 := by
  have hrun : formatByChar .cleared (some fourGiB) 0x20 = .ok none := formatByChar_uncounted 0x20 toInt32_fourGiB
  refine ⟨hrun, ?_⟩
  rintro ⟨_, hformats⟩
  obtain ⟨ret, hsome, _⟩ := hformats fourGiB rfl fourGiB_ne_nil
  rw [hrun] at hsome
  cases hsome

end CompileService.Shell
