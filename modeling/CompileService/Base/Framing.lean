import Mathlib.Data.List.Basic

/-!
# Length-prefixed frames in a stream

A frame is a header of fixed size followed by a body whose length the header announces. The frames of a
stream follow each other without separators, and a receiver sees the stream cut at arbitrary points. This
file says what a receiver can know at each cut: whether the symbols at hand begin with a whole frame
(`Whole`), and how the cuts relate to the frames sent.
-/

namespace CompileService.Base

/-- A framing: the size of a header, and the length of the body that a header announces. -/
structure Framing (α : Type) where
  hdr : Nat
  hdr_pos : 0 < hdr
  body : List α → Nat

namespace Framing

variable {α : Type} (F : Framing α)

def size (s : List α) : Nat := F.hdr + F.body (s.take F.hdr)

def Whole (s : List α) : Prop := F.hdr ≤ s.length ∧ F.size s ≤ s.length

def Frame (s : List α) : Prop := F.hdr ≤ s.length ∧ F.size s = s.length

instance (s : List α) : Decidable (F.Whole s) := inferInstanceAs (Decidable (_ ∧ _))

instance (s : List α) : Decidable (F.Frame s) := inferInstanceAs (Decidable (_ ∧ _))

variable {F}

/-! ## One frame -/

theorem size_append {s : List α} (t : List α) (h : F.hdr ≤ s.length) :
    F.size (s ++ t) = F.size s := by
  simp [size, List.take_append_of_le_length h]

theorem Frame.whole {f : List α} (hf : F.Frame f) : F.Whole f := ⟨hf.1, Nat.le_of_eq hf.2⟩

theorem Frame.length_pos {f : List α} (hf : F.Frame f) : 0 < f.length :=
  Nat.lt_of_lt_of_le F.hdr_pos hf.1

theorem Whole.append {s : List α} (t : List α) (hs : F.Whole s) : F.Whole (s ++ t) := by
  refine ⟨by simp only [List.length_append]; have := hs.1; omega, ?_⟩
  rw [size_append t hs.1, List.length_append]
  have := hs.2
  omega

theorem Frame.size_append {f : List α} (hf : F.Frame f) (t : List α) :
    F.size (f ++ t) = f.length := by
  rw [Framing.size_append t hf.1, hf.2]

/-! ## Frames of a stream -/

theorem Frame.append_inj {f g s t : List α} (hf : F.Frame f) (hg : F.Frame g)
    (h : f ++ s = g ++ t) : f = g ∧ s = t := by
  have hlen : f.length = g.length := by
    rw [← hf.size_append s, h, hg.size_append t]
  exact List.append_inj h hlen

theorem Frame.length_lt_of_not_whole {f p r t : List α} (hf : F.Frame f) (h : p ++ r = f ++ t)
    (hp : ¬ F.Whole p) : p.length < f.length := by
  by_contra hlt
  have hle : f.length ≤ p.length := Nat.le_of_not_lt hlt
  have hpre : p = f ++ p.drop f.length := by
    have htake : p.take f.length = f := by
      have := congrArg (List.take f.length) h
      rwa [List.take_append_of_le_length hle, List.take_left] at this
    conv_lhs => rw [← List.take_append_drop f.length p, htake]
  rw [hpre] at hp
  exact hp (hf.whole.append _)

theorem Frame.head_eq {f r : List α} {fs : List (List α)} (hf : F.Frame f)
    (hfs : ∀ g ∈ fs, F.Frame g) (h : f ++ r = fs.flatten) :
    ∃ fs', fs = f :: fs' ∧ r = fs'.flatten := by
  cases fs with
  | nil =>
      have hnil : f = [] := by simp at h; exact h.1
      have := hf.length_pos
      simp [hnil] at this
  | cons g gs =>
      rw [List.flatten_cons] at h
      obtain ⟨rfl, rfl⟩ := hf.append_inj (hfs g (by simp)) h
      exact ⟨gs, rfl, rfl⟩

/-- A stream is cut into frames in one way only. -/
theorem Frame.flatten_split {fs gs : List (List α)} {r : List α} (hfs : ∀ f ∈ fs, F.Frame f)
    (hgs : ∀ g ∈ gs, F.Frame g) (h : fs.flatten ++ r = gs.flatten) : ∃ gs', gs = fs ++ gs' ∧ r = gs'.flatten := by
  induction fs generalizing gs with
  | nil => exact ⟨gs, rfl, h⟩
  | cons f fs ih =>
      rw [List.flatten_cons, List.append_assoc] at h
      obtain ⟨gs₁, rfl, hrest⟩ := (hfs f List.mem_cons_self).head_eq hgs h
      obtain ⟨hfs', hgs'⟩ := (List.forall_mem_cons.mp hfs).2, (List.forall_mem_cons.mp hgs).2
      obtain ⟨gs', rfl, hr⟩ := ih hfs' hgs' hrest
      exact ⟨gs', rfl, hr⟩

end Framing

end CompileService.Base
