import CompileService.Base.Records
import Mathlib.Data.List.Basic

/-!
# Header blocks

A header block is a sequence of lines, each closed by the two symbols of a line end, and ends with an empty line. What
follows it is a body of any symbols. Where the block ends can be told from the symbols alone.
-/

namespace CompileService.Base

section
variable {α : Type} {cr lf : α}

/-- A line of a header block: not empty, and without the first symbol of a line end. -/
def IsLine (cr : α) (line : List α) : Prop := line ≠ [] ∧ cr ∉ line

/-- The header block of `lines`, followed by `body`. -/
def headed (cr lf : α) (lines : List (List α)) (body : List α) : List α :=
  lines.flatMap (· ++ [cr, lf]) ++ cr :: lf :: body

theorem headed_nil (cr lf : α) (body : List α) : headed cr lf [] body = cr :: lf :: body := rfl

theorem headed_cons (cr lf : α) (line : List α) (lines : List (List α)) (body : List α) :
    headed cr lf (line :: lines) body = line ++ cr :: lf :: headed cr lf lines body := by
  simp only [headed, List.flatMap_cons, List.append_assoc, List.cons_append, List.nil_append]

/-- A list is cut at the first `a` in one way only. -/
theorem cut_inj {a : α} {s s' t t' : List α} (hs : a ∉ s) (hs' : a ∉ s') (h : s ++ a :: t = s' ++ a :: t') :
    s = s' ∧ t = t' := by
  induction s generalizing s' with
  | nil =>
      cases s' with
      | nil => exact ⟨rfl, List.tail_eq_of_cons_eq h⟩
      | cons b s' => exact absurd (List.head_eq_of_cons_eq h ▸ List.mem_cons_self) hs'
  | cons b s ih =>
      cases s' with
      | nil => exact absurd (List.head_eq_of_cons_eq h ▸ List.mem_cons_self) hs
      | cons b' s' =>
          obtain ⟨rfl, hrest⟩ := List.cons.inj h
          obtain ⟨rfl, rfl⟩ := ih (fun ha => hs (List.mem_cons_of_mem b ha))
            (fun ha => hs' (List.mem_cons_of_mem b ha)) hrest
          exact ⟨rfl, rfl⟩

theorem headed_inj {lines lines' : List (List α)} {body body' : List α} (hlines : ∀ l ∈ lines, IsLine cr l)
    (hlines' : ∀ l ∈ lines', IsLine cr l) (h : headed cr lf lines body = headed cr lf lines' body') :
    lines = lines' ∧ body = body' := by
  induction lines generalizing lines' with
  | nil =>
      cases lines' with
      | nil => exact ⟨rfl, List.tail_eq_of_cons_eq (List.tail_eq_of_cons_eq h)⟩
      | cons l' lines' =>
          rw [headed_cons] at h
          have hl' := hlines' l' List.mem_cons_self
          exact absurd (cut_inj List.not_mem_nil hl'.2 h).1.symm hl'.1
  | cons l lines ih =>
      have hl := hlines l List.mem_cons_self
      cases lines' with
      | nil =>
          rw [headed_cons] at h
          exact absurd (cut_inj hl.2 List.not_mem_nil h).1 hl.1
      | cons l' lines' =>
          rw [headed_cons, headed_cons] at h
          obtain ⟨rfl, hrest⟩ := cut_inj hl.2 (hlines' l' List.mem_cons_self).2 h
          obtain ⟨rfl, rfl⟩ := ih (fun m hm => hlines m (List.mem_cons_of_mem l hm))
            (fun m hm => hlines' m (List.mem_cons_of_mem l hm)) (List.tail_eq_of_cons_eq hrest)
          exact ⟨rfl, rfl⟩

theorem length_lines_lt (cr lf : α) (lines : List (List α)) (body : List α) :
    lines.length < (headed cr lf lines body).length := by
  induction lines with
  | nil => exact Nat.zero_lt_succ _
  | cons l lines ih =>
      rw [headed_cons, List.length_append, List.length_cons, List.length_cons, List.length_cons]
      omega

/-! ## Reading a block -/

variable [DecidableEq α]

/-- The lines of the block, of which there are less than `n`, and the body. -/
def readHead (cr lf : α) : Nat → List α → Option (List (List α) × List α)
  | 0, _ => none
  | n + 1, s => do
      let rest ← after [cr, lf] (s.dropWhile (· ≠ cr))
      if s.takeWhile (· ≠ cr) = [] then return ([], rest)
      else
        let (lines, body) ← readHead cr lf n rest
        return (s.takeWhile (· ≠ cr) :: lines, body)

theorem readHead_headed {lines : List (List α)} (body : List α) (hlines : ∀ l ∈ lines, IsLine cr l) {n : Nat}
    (hn : lines.length < n) : readHead cr lf n (headed cr lf lines body) = some (lines, body) := by
  induction lines generalizing n with
  | nil =>
      obtain ⟨n, rfl⟩ := Nat.exists_eq_succ_of_ne_zero (Nat.ne_of_gt hn)
      obtain ⟨htake, hdrop⟩ := cut_at_stop (List.not_mem_nil : cr ∉ []) (lf :: body)
      rw [List.nil_append] at htake hdrop
      have hafter : after [cr, lf] (cr :: lf :: body) = some body := after_eq_some_iff.mpr rfl
      rw [headed_nil, readHead]
      simp only [htake, hdrop, hafter, Option.bind_eq_bind, Option.bind_some, if_true]
      rfl
  | cons l lines ih =>
      obtain ⟨hl, hlines⟩ := List.forall_mem_cons.mp hlines
      obtain ⟨n, rfl⟩ := Nat.exists_eq_succ_of_ne_zero (Nat.ne_of_gt (Nat.zero_lt_of_lt hn))
      obtain ⟨htake, hdrop⟩ := cut_at_stop hl.2 (lf :: headed cr lf lines body)
      have hafter : after [cr, lf] (cr :: lf :: headed cr lf lines body) = some (headed cr lf lines body) :=
        after_eq_some_iff.mpr rfl
      rw [headed_cons, readHead]
      simp only [htake, hdrop, hafter, ih hlines (Nat.lt_of_succ_lt_succ hn), Option.bind_eq_bind, Option.bind_some,
        if_neg hl.1]
      rfl

end

end CompileService.Base
