import CompileService.Base.Words
import CompileService.Http.Confinement
import CompileService.Http.Lemmas.Html

/-!
# Paths and their components

`GetAbsPath` puts two paths together in a block that is sized by two `int`s, and `MakeHTML` cuts a path at its last
slash. Both are meant as operations on the components of the paths.
-/

namespace CompileService.Http

open CompileService.Base

/-- The size that `GetAbsPath` asks for: `reLen`, `rootLen` and the sum are `int`s. -/
def absPathSize (relative root : CStr) : Nat :=
  toSize (toInt32 (toInt32 relative.length + toInt32 root.length + 2))

/-- `GetAbsPath` with the block that it fills. -/
def getAbsPathIn (malloc : Malloc) (relative root : CStr) : Exec (Option (List UInt8)) := do
  let rootLen := toInt32 root.length
  match malloc (absPathSize relative root) with
  | none => return none
  | some ret =>
      let ret ← putStr ret.toList 0 root
      let last ← byteAt ret (rootLen - 1)
      let ret ← (if relative.head? = some slash ∧ last = slash then setByte ret (rootLen - 1) 0 else .ok ret)
      -- the byte that was read is still there: the two tests on `relative` exclude each other
      let ret ← (if relative.head? ≠ some slash ∧ last ≠ slash then catStr ret [slash] else .ok ret)
      return some (← catStr ret relative)

/-- `text` is `relative` below `root`. Its components are those of both, one slash is at the joint unless one of them
has more there, and it has at most `strlen(relative) + strlen(root) + 2` bytes with its terminator. -/
structure IsJoin (relative root text : CStr) : Prop where
  words : words slash text = words slash root ++ words slash relative
  rooted : text.head? = some slash ↔ root.head? = some slash
  joint : ∃ s t, text = s ++ slash :: t ∧ (root = s ∨ root = s ++ [slash]) ∧
    (relative = t ∨ relative = slash :: t) ∧ (¬ [slash, slash] <:+ root → s.getLast? ≠ some slash) ∧
    (¬ [slash, slash] <+: relative → t.head? ≠ some slash)
  fits : text.length + 1 ≤ relative.length + root.length + 2

section
variable {malloc : Malloc} {relative root text : CStr}

/-! ## The joint -/

theorem isJoin_absPath (h : absPath relative root = some text) : IsJoin relative root text := by
  obtain ⟨s, t, rfl, hroot, hrelative⟩ := absPath_joint h
  constructor
  · have hs : words slash root = words slash s := by
      rcases hroot with ⟨rfl, _⟩ | rfl
      · rfl
      · exact words_concat_self s
    have ht : words slash relative = words slash t := by
      rcases hrelative with ⟨rfl, _⟩ | rfl
      · rfl
      · exact words_cons_self t
    rw [words_append, hs, ht]
  · rcases hroot with ⟨rfl, hne, _⟩ | rfl
    · obtain ⟨b, s, rfl⟩ := List.exists_cons_of_ne_nil hne
      rfl
    · cases s with
      | nil => rfl
      | cons b s => rfl
  · refine ⟨s, t, rfl, hroot.imp_left And.left, hrelative.imp_left And.left, fun htwo hlast => ?_, fun htwo hhead => ?_⟩
    · rcases hroot with ⟨_, _, hnot⟩ | rfl
      · exact hnot hlast
      · obtain ⟨s', rfl⟩ := List.getLast?_eq_some_iff.mp hlast
        exact htwo ⟨s', by simp⟩
    · rcases hrelative with ⟨_, hnot⟩ | rfl
      · exact hnot hhead
      · obtain ⟨t', rfl⟩ := List.head?_eq_some_iff.mp hhead
        exact htwo ⟨t', rfl⟩
  · have hs : s.length ≤ root.length := by
      rcases hroot with ⟨rfl, _⟩ | rfl
      · exact Nat.le_refl _
      · simp
    have ht : t.length ≤ relative.length := by
      rcases hrelative with ⟨rfl, _⟩ | rfl
      · exact Nat.le_refl _
      · simp
    rw [List.length_append, List.length_cons]
    omega

/-! ## The block -/

theorem absPathSize_of_range (h : relative.length + root.length + 2 < 2 ^ 31) :
    absPathSize relative root = relative.length + root.length + 2 := by
  have hre : toInt32 relative.length = relative.length := toInt32_of_range (by omega) (by omega)
  have hroot : toInt32 root.length = root.length := toInt32_of_range (by omega) (by omega)
  rw [absPathSize, hre, hroot, toInt32_of_range (by omega) (by omega), toSize_of_range (by omega) (by omega)]
  omega

/-- Beyond `int` the size is another one, if there is a block of that size. -/
theorem absPathSize_ne (hblock : absPathSize relative root ≤ ptrdiffMax)
    (h : 2 ^ 31 ≤ relative.length + root.length + 2) :
    absPathSize relative root ≠ relative.length + root.length + 2 := by
  have hrange := toInt32_range (toInt32 relative.length + toInt32 root.length + 2)
  unfold absPathSize ptrdiffMax at *
  obtain ⟨hnonneg, hsize⟩ := toSize_of_lt hrange.1 hrange.2 (by omega)
  omega

/-- What is returned is null if there is no memory, or else a block of the size computed, with room for `relative`. -/
theorem getAbsPathIn_ok {r : Option (List UInt8)} (h : getAbsPathIn malloc relative root = .ok r) :
    (r = none ∧ malloc (absPathSize relative root) = none) ∨
      ∃ blk, r = some blk ∧ blk.length = absPathSize relative root ∧ relative.length < blk.length := by
  unfold getAbsPathIn at h
  simp only at h
  split at h
  · rename_i hnone
    exact Or.inl ⟨(Except.ok.inj h).symm, hnone⟩
  · rename_i ret _
    obtain ⟨b₁, h₁, h⟩ := Exec.bind_eq_ok.mp h
    obtain ⟨last, _, h⟩ := Exec.bind_eq_ok.mp h
    obtain ⟨b₂, h₂, h⟩ := Exec.bind_eq_ok.mp h
    obtain ⟨b₃, h₃, h⟩ := Exec.bind_eq_ok.mp h
    obtain ⟨b₄, h₄, h⟩ := Exec.bind_eq_ok.mp h
    have hlen₂ : b₂.length = b₁.length := by
      split at h₂
      · exact setByte_length h₂
      · rw [Except.ok.inj h₂]
    have hlen₃ : b₃.length = b₂.length := by
      split at h₃
      · exact (catStr_ok h₃).2
      · rw [Except.ok.inj h₃]
    obtain ⟨hfit, hlen₄⟩ := catStr_ok h₄
    refine Or.inr ⟨b₄, (Except.ok.inj h).symm, ?_, hlen₄ ▸ hfit⟩
    rw [hlen₄, hlen₃, hlen₂, (putStr_ok h₁).2, Vector.length_toList]

theorem getAbsPathIn_length {blk : List UInt8} (h : getAbsPathIn malloc relative root = .ok (some blk)) :
    blk.length = absPathSize relative root := by
  rcases getAbsPathIn_ok h with ⟨hnone, _⟩ | ⟨_, hsome, hlen, _⟩
  · cases hnone
  · rw [Option.some.inj hsome, hlen]

/-- As long as the lengths are `int`s, the block is filled with the path of `getAbsPath`. -/
theorem getAbsPathIn_fills (hrelative : 0 ∉ relative) (hroot : 0 ∉ root) (hne : root ≠ [])
    (hlen : relative.length + root.length + 2 < 2 ^ 31) (hblk : malloc (absPathSize relative root) ≠ none) :
    ∃ blk text, getAbsPathIn malloc relative root = .ok (some blk) ∧ cstr blk = .ok text ∧
      absPath relative root = some text := by
  obtain ⟨s, x, rfl⟩ : ∃ s x, root = s ++ [x] := ⟨_, _, (List.dropLast_append_getLast hne).symm⟩
  obtain ⟨ret, hret⟩ := Option.ne_none_iff_exists'.mp hblk
  have hsize : ret.toList.length = relative.length + (s ++ [x]).length + 2 :=
    Vector.length_toList.trans (absPathSize_of_range hlen)
  obtain ⟨b₁, hcpy, htext, hlen₁, _⟩ :=
    putStr_start hroot (by rw [hsize]; omega : (s ++ [x]).length < ret.toList.length)
  rw [hsize, List.length_append, List.length_singleton] at hlen₁
  rw [List.length_append, List.length_singleton] at hlen
  obtain ⟨_, rest, hb₁⟩ := cstr_ok htext
  have hindex : toInt32 (s ++ [x]).length - 1 = s.length := by
    rw [List.length_append, List.length_singleton, toInt32_of_range (by omega) (by omega)]
    omega
  have hlast : byteAt b₁ s.length = .ok x := byteAt_eq (by rw [hb₁]; simp)
  have hs0 : 0 ∉ s := fun h => hroot (List.mem_append_left _ h)
  have hrun : getAbsPathIn malloc relative (s ++ [x]) = do
      let ret ← (if relative.head? = some slash ∧ x = slash then setByte b₁ s.length 0 else .ok b₁)
      let ret ← (if relative.head? ≠ some slash ∧ x ≠ slash then catStr ret [slash] else .ok ret)
      return some (← catStr ret relative) := by
    simp only [getAbsPathIn, hret, hcpy, hindex, hlast, Exec.ok_bind]
  have habs : absPath relative (s ++ [x]) =
      some (if relative.head? = some slash then (if x = slash then s else s ++ [x]) ++ relative
        else (if x = slash then s ++ [x] else s ++ [x] ++ [slash]) ++ relative) := by
    by_cases hhead : relative.head? = some slash
    · by_cases hx : x = slash
      · simp [absPath, getAbsPath, hhead, hx, Except.toOption]
      · simp [absPath, getAbsPath, hhead, hx, Except.toOption]
    · by_cases hx : x = slash
      · simp [absPath, getAbsPath, hhead, hx, Except.toOption]
      · simp [absPath, getAbsPath, hhead, hx, Except.toOption]
  rw [hrun, habs]
  by_cases hhead : relative.head? = some slash
  · by_cases hx : x = slash
    · have hcut : cstr (b₁.set s.length 0) = .ok s :=
        cstr_set (by rw [hb₁, List.append_assoc, List.take_left]) hs0 (by omega)
      obtain ⟨b₂, hcat, htext₂, _⟩ := catStr_after hcut hrelative (by rw [List.length_set]; omega)
      refine ⟨b₂, s ++ relative, ?_, htext₂, by simp [hhead, hx]⟩
      simp [hhead, hx, setByte_eq 0 (by omega : s.length < b₁.length), hcat]
    · obtain ⟨b₂, hcat, htext₂, _⟩ := catStr_after htext hrelative (by simp; omega)
      refine ⟨b₂, s ++ [x] ++ relative, ?_, htext₂, by simp [hhead, hx]⟩
      simp [hhead, hx, hcat]
  · by_cases hx : x = slash
    · obtain ⟨b₂, hcat, htext₂, _⟩ := catStr_after htext hrelative (by simp; omega)
      refine ⟨b₂, s ++ [x] ++ relative, ?_, htext₂, by simp [hhead, hx]⟩
      simp [hhead, hx, hcat]
    · obtain ⟨b₂, hcat, htext₂, hlen₂⟩ := catStr_after htext (s := [slash]) (by decide) (by simp; omega)
      obtain ⟨b₃, hcat₃, htext₃, _⟩ := catStr_after htext₂ hrelative (by simp; omega)
      refine ⟨b₃, s ++ [x] ++ [slash] ++ relative, ?_, htext₃, by simp [hhead, hx]⟩
      simp [hhead, hx, hcat, hcat₃]

/-- Joining paths. With the allocation succeeding, `GetAbsPath` puts the components of `relative` behind those of
`root`, in a block of `strlen(relative) + strlen(root) + 2` bytes, if and only if that number is an `int`. -/
theorem getAbsPath_joins_iff (hrelative : 0 ∉ relative) (hroot : 0 ∉ root) (hne : root ≠ [])
    (hmalloc : ∀ n, ptrdiffMax < n → malloc n = none) (hblk : malloc (absPathSize relative root) ≠ none) :
    (∃ blk text, getAbsPathIn malloc relative root = .ok (some blk) ∧
        blk.length = relative.length + root.length + 2 ∧ cstr blk = .ok text ∧ IsJoin relative root text) ↔
      relative.length + root.length + 2 < 2 ^ 31 := by
  constructor
  · rintro ⟨blk, text, hrun, hlen, _, _⟩
    by_contra hrange
    have hblock : absPathSize relative root ≤ ptrdiffMax := Nat.le_of_not_lt fun hlt => hblk (hmalloc _ hlt)
    exact absPathSize_ne hblock (Nat.le_of_not_lt hrange) ((getAbsPathIn_length hrun).symm.trans hlen)
  · intro hlen
    obtain ⟨blk, text, hrun, htext, habs⟩ := getAbsPathIn_fills hrelative hroot hne hlen hblk
    have hsize := (getAbsPathIn_length hrun).trans (absPathSize_of_range hlen)
    exact ⟨blk, text, hrun, hsize, htext, isJoin_absPath habs⟩

end

theorem getAbsPath_joins_root :
    ∃ blk text, getAbsPathIn .cleared (ascii "a//b") (ascii "/") = .ok (some blk) ∧ blk.length = 7 ∧
      cstr blk = .ok text ∧ IsJoin (ascii "a//b") (ascii "/") text := by
  have hblk : Malloc.cleared (absPathSize (ascii "a//b") (ascii "/")) ≠ none :=
    Malloc.cleared_succeeds.serves _ (by decide)
  exact (getAbsPath_joins_iff (by decide) (by decide) (by decide) Malloc.cleared_succeeds.bounded hblk).mpr (by decide)

/-- A name of four gigabytes has the length 0 as an `int`: the block has three bytes, and the name is written over its
end. -/
theorem getAbsPath_overflow : absPathSize fourGiB (ascii "/") = 3 ∧ Malloc.cleared 3 ≠ none ∧
    (∀ r, getAbsPathIn .cleared fourGiB (ascii "/") ≠ .ok r) ∧
    ¬ ∃ blk text, getAbsPathIn .cleared fourGiB (ascii "/") = .ok (some blk) ∧
      blk.length = fourGiB.length + (ascii "/").length + 2 ∧ cstr blk = .ok text ∧
      IsJoin fourGiB (ascii "/") text := by
  have hsize : absPathSize fourGiB (ascii "/") = 3 := by
    have hroot : (ascii "/").length = 1 := rfl
    rw [absPathSize, length_fourGiB, hroot]
    decide
  have hblk : Malloc.cleared 3 ≠ none := Malloc.cleared_succeeds.serves 3 (by decide)
  have hfault : ∀ r, getAbsPathIn .cleared fourGiB (ascii "/") ≠ .ok r := by
    intro r hrun
    rcases getAbsPathIn_ok hrun with ⟨_, hnone⟩ | ⟨blk, _, hlen, hfit⟩
    · rw [hsize] at hnone
      exact hblk hnone
    · rw [hlen, hsize, length_fourGiB] at hfit
      omega
  refine ⟨hsize, hblk, hfault, ?_⟩
  rintro ⟨blk, _, hrun, _⟩
  exact hfault _ hrun

/-! ## The link that leads back -/

section
variable {req : CStr}

/-- The link of the row that `MakeHTML` makes for the parent leads to the parent: it begins with a slash and has the
components of the request without the last one. -/
def LeadsToParent (req : CStr) : Prop :=
  ∃ back link, backRow req = .ok back ∧ back.link.text = .ok link ∧ link.head? = some slash ∧
    words slash link = (words slash req).dropLast

/-- The components of a request that is cut at its last slash. -/
theorem words_parentLink {a b : CStr} (hb : slash ∉ b) :
    words slash (parentLink (a ++ slash :: b)) = words slash a := by
  rw [parentLink_eq hb]
  split
  · rename_i ha
    rw [ha]
    exact words_cons_self []
  · rfl

theorem head_parentLink {a b : CStr} (hb : slash ∉ b) (hhead : (a ++ slash :: b).head? = some slash) :
    (parentLink (a ++ slash :: b)).head? = some slash := by
  rw [parentLink_eq hb]
  cases a with
  | nil => rfl
  | cons c a => simpa using hhead

/-- The row for the parent. For a request that begins with a slash, its link leads to the parent if and only if the
request does not end in a slash or has no components at all. -/
theorem back_leads_to_parent_iff (hhead : req.head? = some slash) (h0 : 0 ∉ req) (hlen : req.length < 2048) :
    LeadsToParent req ↔ req.getLast? ≠ some slash ∨ words slash req = [] := by
  have hslash : slash ∈ req := List.mem_of_head? hhead
  obtain ⟨back, hrun, hreads⟩ := backRow_reads h0 hlen hslash
  have hlink : back.link.text = .ok (parentLink req) := hreads.link
  obtain ⟨a, b, rfl, hb⟩ := exists_last hslash
  have hiff : LeadsToParent (a ++ slash :: b) ↔ words slash a = (words slash a ++ words slash b).dropLast := by
    rw [← words_append, ← words_parentLink (a := a) hb]
    constructor
    · rintro ⟨back', link, hrun', hlink', _, hwords⟩
      obtain rfl := Except.ok.inj (hrun.symm.trans hrun')
      obtain rfl := Except.ok.inj (hlink.symm.trans hlink')
      exact hwords
    · exact fun hwords => ⟨back, _, hrun, hlink, head_parentLink hb hhead, hwords⟩
  rw [hiff, words_append]
  by_cases hnil : b = []
  · rw [hnil, words_nil, List.append_nil]
    have hlast : (a ++ [slash]).getLast? = some slash := by simp
    constructor
    · intro hself
      refine Or.inr (List.eq_nil_of_length_eq_zero ?_)
      have hcount := congrArg List.length hself
      rw [List.length_dropLast] at hcount
      omega
    · rintro (hne | hempty)
      · exact absurd hlast hne
      · rw [hempty]
        rfl
  · have hlast : (a ++ slash :: b).getLast? ≠ some slash := by
      intro hslash
      obtain ⟨x, hx⟩ := Option.ne_none_iff_exists'.mp (mt List.getLast?_eq_none_iff.mp hnil)
      rw [← List.singleton_append, ← List.append_assoc, List.getLast?_append, hx] at hslash
      exact hb (Option.some.inj hslash ▸ List.mem_of_getLast? hx)
    rw [words_singleton hb hnil, List.dropLast_concat]
    exact iff_of_true rfl (Or.inl hlast)

end

theorem back_leads_to_parent_nested : LeadsToParent (ascii "/a//b") :=
  (back_leads_to_parent_iff (by decide) (by decide) (by decide)).mpr (by decide)

/-- From `/a/` the row for the parent leads to `/a`, the same directory. -/
theorem back_leads_nowhere :
    (backRow (ascii "/a/")).map (fun back => back.link.text) = .ok (.ok (ascii "/a")) ∧
      ¬ LeadsToParent (ascii "/a/") := by
  have hlink : (backRow (ascii "/a/")).map (fun back => back.link.text) = .ok (.ok (ascii "/a")) := by
    decide +kernel
  refine ⟨hlink, ?_⟩
  rintro ⟨back, link, hrun, htext, _, hwords⟩
  rw [hrun] at hlink
  obtain rfl := Except.ok.inj (htext.symm.trans (Except.ok.inj hlink))
  exact absurd hwords (by decide)

end CompileService.Http
