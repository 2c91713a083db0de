import CompileService.Base.CString
import Mathlib.Data.List.DropRight
import Mathlib.Data.List.TakeWhile

/-!
# `sscanf`

Formatted input as the C standard has it, for formats of literal characters, white space and `%s`. The result is
the number of conversions, or -1 if the input ends before the first one, and the strings that were stored.
-/

namespace CompileService.Base

/-- `isspace` in the C locale. -/
def isSpace (b : UInt8) : Bool := b = 0x20 || (0x09 ≤ b && b ≤ 0x0d)

inductive Directive where
  | white
  | lit (b : UInt8)
  | str
deriving DecidableEq, Repr

/-- The directives of a format without conversions other than `%s`. -/
def directives : CStr → List Directive
  | [] => []
  | 0x25 :: 0x73 :: f => .str :: directives f
  | b :: f => (if isSpace b then .white else .lit b) :: directives f

def word (s : CStr) : CStr := (s.dropWhile isSpace).takeWhile fun b => !isSpace b

/-- `sscanf` after `n` conversions. -/
def scanf : List Directive → CStr → Nat → Int × List CStr
  | [], _, n => (n, [])
  | .white :: ds, s, n => scanf ds (s.dropWhile isSpace) n
  | .lit b :: ds, s, n =>
      match s with
      | [] => (if n = 0 then -1 else n, [])
      | c :: s => if c = b then scanf ds s n else (n, [])
  | .str :: ds, s, n =>
      if word s = [] then (if n = 0 then -1 else n, [])
      else
        let r := scanf ds ((s.dropWhile isSpace).dropWhile fun b => !isSpace b) (n + 1)
        (r.1, word s :: r.2)

/-! ## Words -/

theorem word_eq_nil {s : CStr} : word s = [] ↔ ∀ b ∈ s, isSpace b = true := by
  unfold word
  constructor
  · intro h
    rw [← List.dropWhile_eq_nil_iff]
    cases hd : s.dropWhile isSpace with
    | nil => rfl
    | cons b t =>
        have hb : isSpace b = false := by
          have hhead := List.head?_dropWhile_not isSpace s
          rw [hd] at hhead
          exact hhead
        rw [hd, List.takeWhile_cons_of_pos (by simp [hb])] at h
        exact absurd h (List.cons_ne_nil _ _)
  · intro h
    rw [List.dropWhile_eq_nil_iff.mpr h]
    rfl

theorem word_dropWhile (s : CStr) : word (s.dropWhile isSpace) = word s := by
  unfold word
  rw [List.dropWhile_idempotent]

theorem word_cons {b : UInt8} (hb : isSpace b = true) (s : CStr) : word (b :: s) = word s := by
  unfold word
  rw [List.dropWhile_cons_of_pos hb]

theorem word_eq_takeWhile {s : CStr} (hs : ∀ b ∈ s.head?, isSpace b = false) :
    word s = s.takeWhile fun b => !isSpace b := by
  unfold word
  cases s with
  | nil => rfl
  | cons b s => rw [List.dropWhile_cons_of_neg (by simp [hs b rfl])]

theorem word_sublist (s : CStr) : (word s).Sublist s :=
  (List.takeWhile_sublist _).trans (List.dropWhile_sublist isSpace)

/-! ## Scanning -/

theorem scanf_nothing {ds : List Directive} (h : .str ∉ ds) (s : CStr) (n : Nat) : (scanf ds s n).2 = [] := by
  induction ds generalizing s with
  | nil => rfl
  | cons d ds ih =>
      have hds : .str ∉ ds := fun hmem => h (List.mem_cons_of_mem d hmem)
      cases d with
      | white => exact ih hds _
      | lit b =>
          cases s with
          | nil => rfl
          | cons c s =>
              simp only [scanf]
              split
              · exact ih hds s
              · rfl
      | str => exact absurd List.mem_cons_self h

theorem scanf_lits (w : CStr) (ds : List Directive) (s : CStr) (n : Nat) :
    (scanf (w.map .lit ++ ds) s n).2 = if w <+: s then (scanf ds (s.drop w.length) n).2 else [] := by
  induction w generalizing s with
  | nil => simp
  | cons b w ih =>
      cases s with
      | nil => simp [scanf]
      | cons c s =>
          simp only [List.map_cons, List.cons_append, scanf, List.cons_prefix_cons, List.length_cons,
            List.drop_succ_cons]
          by_cases hcb : c = b
          · subst hcb
            simp [ih]
          · simp [hcb, Ne.symm hcb]

theorem scanf_word {ds : List Directive} (h : .str ∉ ds) (s : CStr) (n : Nat) :
    (scanf (.white :: .str :: ds) s n).2 = if word s = [] then [] else [word s] := by
  simp only [scanf, word_dropWhile]
  split
  · rfl
  · simp only [scanf_nothing h]

end CompileService.Base
