import Mathlib.Data.List.Basic

/-!
# Lexical resolution of paths

A path is a sequence of components. Resolving it lexically drops `.`, lets `..` cancel the name before it, and
leaves a number of `..` that nothing cancels, followed by names. At the root of an absolute path `..` has no
effect. What follows says how the resolution of a joined path depends on those of its parts, and when the join
stays below its first part.
-/

namespace CompileService.Base

inductive Comp (α : Type) where
  | cur
  | up
  | name (a : α)
deriving DecidableEq, Repr

/-- A resolved path: some `..`, then names. -/
structure LexPath (α : Type) where
  ups : Nat
  names : List α
deriving DecidableEq, Repr

namespace LexPath

variable {α : Type}

/-- One more component; `rooted` paths do not go above the root. -/
def step (rooted : Bool) (p : LexPath α) : Comp α → LexPath α
  | .cur => p
  | .up =>
      if p.names = [] then ⟨if rooted then p.ups else p.ups + 1, []⟩
      else ⟨p.ups, p.names.dropLast⟩
  | .name a => ⟨p.ups, p.names ++ [a]⟩

def resolve (rooted : Bool) (cs : List (Comp α)) : LexPath α := cs.foldl (step rooted) ⟨0, []⟩

/-- `p` followed by the relative path `q`. -/
def join (rooted : Bool) (p q : LexPath α) : LexPath α :=
  if q.ups ≤ p.names.length then ⟨p.ups, p.names.take (p.names.length - q.ups) ++ q.names⟩
  else ⟨if rooted then p.ups else p.ups + (q.ups - p.names.length), q.names⟩

/-- `p` lies at or below `r`. -/
def Below (p r : LexPath α) : Prop := p.ups = r.ups ∧ r.names <+: p.names

instance [DecidableEq α] (p r : LexPath α) : Decidable (p.Below r) := inferInstanceAs (Decidable (_ ∧ _))

/-- Following `q` from `p` ends at or below `p`: the names of `p` that `q` leaves are entered again at once. -/
def Reenters (rooted : Bool) (p q : LexPath α) : Prop :=
  (rooted = true ∨ q.ups ≤ p.names.length) ∧ p.names.drop (p.names.length - q.ups) <+: q.names

instance [DecidableEq α] (rooted : Bool) (p q : LexPath α) : Decidable (p.Reenters rooted q) :=
  inferInstanceAs (Decidable (_ ∧ _))

variable {rooted : Bool} {p q : LexPath α}

theorem join_nil : p.join rooted ⟨0, []⟩ = p := by
  simp [join]

theorem join_step (c : Comp α) : (p.join rooted q).step rooted c = p.join rooted (q.step false c) := by
  cases c with
  | cur => rfl
  | name a =>
      by_cases hle : q.ups ≤ p.names.length
      · simp [join, step, hle]
      · simp [join, step, hle]
  | up =>
      by_cases hnil : q.names = []
      · -- the new `..` is one more of `q`
        rcases Nat.lt_trichotomy q.ups p.names.length with hlt | heq | hgt
        · have hne : p.names.take (p.names.length - q.ups) ≠ [] := by
            intro hnil'
            rw [List.take_eq_nil_iff] at hnil'
            rcases hnil' with hzero | hnil'
            · omega
            · rw [hnil'] at hlt
              exact absurd hlt (Nat.not_lt_zero _)
          have htake : (p.names.take (p.names.length - q.ups)).dropLast =
              p.names.take (p.names.length - (q.ups + 1)) := by
            rw [List.dropLast_eq_take, List.length_take, List.take_take]
            congr 1
            omega
          simp [join, step, hnil, Nat.le_of_lt hlt, Nat.succ_le_of_lt hlt, hne, htake]
        · simp +arith [join, step, hnil, heq]
        · have hgt' : ¬ q.ups ≤ p.names.length := Nat.not_le.mpr hgt
          have hgt'' : ¬ q.ups + 1 ≤ p.names.length := by omega
          have hsub : q.ups + 1 - p.names.length = q.ups - p.names.length + 1 := by omega
          cases rooted with
          | true => simp [join, step, hnil, hgt', hgt'']
          | false => simp [join, step, hnil, hgt', hgt'', hsub, Nat.add_assoc]
      · -- it cancels the last name of `q`
        by_cases hle : q.ups ≤ p.names.length
        · simp [join, step, hnil, hle, List.dropLast_append_of_ne_nil hnil]
        · simp [join, step, hnil, hle]

theorem resolve_append (cs ds : List (Comp α)) :
    resolve rooted (cs ++ ds) = (resolve rooted cs).join rooted (resolve false ds) := by
  have hfold : ∀ (p q : LexPath α) (ds : List (Comp α)),
      ds.foldl (step rooted) (p.join rooted q) = p.join rooted (ds.foldl (step false) q) := by
    intro p q ds
    induction ds generalizing q with
    | nil => rfl
    | cons d ds ih => rw [List.foldl_cons, List.foldl_cons, join_step, ih]
  unfold resolve
  rw [List.foldl_append, ← hfold, join_nil]

/-- A join stays below its first part exactly if its second part enters again what it leaves. -/
theorem join_below_iff : (p.join rooted q).Below p ↔ p.Reenters rooted q := by
  by_cases hle : q.ups ≤ p.names.length
  · have hsplit := List.take_append_drop (p.names.length - q.ups) p.names
    have hcut : p.names <+: p.names.take (p.names.length - q.ups) ++ q.names ↔
        p.names.take (p.names.length - q.ups) ++ p.names.drop (p.names.length - q.ups) <+:
          p.names.take (p.names.length - q.ups) ++ q.names := by rw [hsplit]
    simp only [join, Below, Reenters, hle, if_true, or_true, true_and]
    rw [hcut, List.prefix_append_right_inj]
  · have hzero : p.names.length - q.ups = 0 := by omega
    cases rooted with
    | true => simp [join, Below, Reenters, hle, hzero]
    | false =>
        have hne : q.ups - p.names.length ≠ 0 := by omega
        simp [join, Below, Reenters, hle, hne]

end LexPath

end CompileService.Base
