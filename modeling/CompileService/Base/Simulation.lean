import CompileService.Base.Run
import Mathlib.Logic.Relation

/-!
# Simulations

A step that may fault is compared with the moves of a specification on states of its own. In a simulation every
permitted step goes through and is answered by moves that lead to related states again, and what the moves keep
holds of every state that the steps reach.
-/

namespace CompileService.Base

section
variable {σ τ ι : Type}

/-- Between related states, a permitted step goes through and comes to moves of the specification. -/
def Simulates (step : σ → ι → Exec σ) (move : τ → τ → Prop) (R : σ → τ → Prop) (P : ι → Prop) : Prop :=
  ∀ s t i, R s t → P i → ∃ s', step s i = .ok s' ∧ ∃ t', Relation.ReflTransGen move t t' ∧ R s' t'

variable {step : σ → ι → Exec σ} {move : τ → τ → Prop} {R : σ → τ → Prop} {P : ι → Prop} {Inv : τ → Prop}

theorem moves_keep (hmove : ∀ t t', Inv t → move t t' → Inv t') {t t' : τ} (ht : Inv t)
    (h : Relation.ReflTransGen move t t') : Inv t' := by
  induction h with
  | refl => exact ht
  | tail _ hlast ih => exact hmove _ _ ih hlast

theorem Simulates.run (h : Simulates step move R P) {s : σ} {t : τ} {is : List ι} (hst : R s t)
    (hP : ∀ i ∈ is, P i) :
    ∃ s', is.foldlM step s = .ok s' ∧ ∃ t', Relation.ReflTransGen move t t' ∧ R s' t' := by
  have hkeep : ∀ s, ∀ i ∈ is, (∃ t', Relation.ReflTransGen move t t' ∧ R s t') → P i →
      ∃ s', step s i = .ok s' ∧ ∃ t', Relation.ReflTransGen move t t' ∧ R s' t' := by
    rintro s i _ ⟨t₁, hmoves, hR⟩ hi
    obtain ⟨s', hstep, t', hmoves', hR'⟩ := h s t₁ i hR hi
    exact ⟨s', hstep, t', hmoves.trans hmoves', hR'⟩
  exact run_of_forall hkeep ⟨t, .refl, hst⟩ hP

/-- What the moves keep holds of a state that is related to the one reached. -/
theorem Simulates.keeps (h : Simulates step move R P) (hmove : ∀ t t', Inv t → move t t' → Inv t') {s : σ} {t : τ}
    {is : List ι} (hst : R s t) (ht : Inv t) (hP : ∀ i ∈ is, P i) :
    ∃ s', is.foldlM step s = .ok s' ∧ ∃ t', R s' t' ∧ Inv t' := by
  obtain ⟨s', hrun, t', hmoves, hR⟩ := h.run hst hP
  exact ⟨s', hrun, t', hR, moves_keep hmove ht hmoves⟩

end

end CompileService.Base
