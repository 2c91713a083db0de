import Mathlib.Data.List.Basic

/-!
# Traces of sessions

Objects come and go at one place, one after another: each is opened, used any number of times and closed before
the next one is opened. A trace of such a place is a prefix of a sequence of sessions; `SessionTrace` builds the
traces event by event and keeps track of the object that is open.
-/

namespace CompileService.Base

section
variable {ε κ : Type} (conn data close : ε)

/-- The events of one session of `c`, which is used `n` times. -/
def session (c : κ) (n : Nat) : List (ε × κ) :=
  (conn, c) :: (List.replicate n (data, c) ++ [(close, c)])

/-- A sequence of sessions, each given by its object and the number of its uses. -/
def sessions (ss : List (κ × Nat)) : List (ε × κ) :=
  (ss.map fun s => session conn data close s.1 s.2).flatten

/-- `SessionTrace l o`: the trace `l` is possible and ends with `o` open. -/
inductive SessionTrace : List (ε × κ) → Option κ → Prop where
  | nil : SessionTrace [] none
  | conn {l} (c : κ) : SessionTrace l none → SessionTrace (l ++ [(conn, c)]) (some c)
  | data {l} (c : κ) : SessionTrace l (some c) → SessionTrace (l ++ [(data, c)]) (some c)
  | close {l} (c : κ) : SessionTrace l (some c) → SessionTrace (l ++ [(close, c)]) none

variable {conn data close}

theorem sessions_append (ss ss' : List (κ × Nat)) :
    sessions conn data close (ss ++ ss') = sessions conn data close ss ++ sessions conn data close ss' := by
  simp [sessions]

theorem sessions_singleton (c : κ) (n : Nat) :
    sessions conn data close [(c, n)] = session conn data close c n := by
  simp [sessions]

theorem SessionTrace.shape {l : List (ε × κ)} {o : Option κ} (h : SessionTrace conn data close l o) :
    match o with
    | none => ∃ ss, l = sessions conn data close ss
    | some c => ∃ ss n, l = sessions conn data close ss ++ (conn, c) :: List.replicate n (data, c) := by
  induction h with
  | nil => exact ⟨[], rfl⟩
  | conn c _ ih =>
      obtain ⟨ss, rfl⟩ := ih
      exact ⟨ss, 0, rfl⟩
  | data c _ ih =>
      obtain ⟨ss, n, rfl⟩ := ih
      exact ⟨ss, n + 1, by rw [List.append_assoc, List.cons_append, List.replicate_succ']⟩
  | close c _ ih =>
      obtain ⟨ss, n, rfl⟩ := ih
      refine ⟨ss ++ [(c, n)], ?_⟩
      rw [sessions_append, sessions_singleton, List.append_assoc]
      rfl

theorem SessionTrace.initial {l : List (ε × κ)} {o : Option κ} (h : SessionTrace conn data close l o) :
    ∃ ss, l <+: sessions conn data close ss := by
  have hshape := h.shape
  cases o with
  | none =>
      obtain ⟨ss, rfl⟩ := hshape
      exact ⟨ss, List.prefix_rfl⟩
  | some c =>
      obtain ⟨ss, n, rfl⟩ := hshape
      refine ⟨ss ++ [(c, n)], [(close, c)], ?_⟩
      rw [sessions_append, sessions_singleton, List.append_assoc]
      rfl

end

end CompileService.Base
