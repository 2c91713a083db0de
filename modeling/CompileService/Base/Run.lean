import CompileService.Base.Bytes

/-!
# Runs of a step that may fault

A run folds a step function over a list of inputs and ends at the first fault. `Along P` says that the condition
`P` holds of every input of a run, in the state in which the run meets it.
-/

namespace CompileService.Base

section
variable {σ ι : Type} {step : σ → ι → Exec σ} {Inv Good : σ → Prop} {P K : σ → ι → Prop}

/-- Every input that a run from `s` meets satisfies `P` in the state before it. -/
def Along (step : σ → ι → Exec σ) (P : σ → ι → Prop) : σ → List ι → Prop
  | _, [] => True
  | s, i :: is => P s i ∧ ∀ s', step s i = .ok s' → Along step P s' is

/-- Every state of a run from `s` is reached without a fault and satisfies `Good`. -/
def Always (step : σ → ι → Exec σ) (Good : σ → Prop) (s : σ) (is : List ι) : Prop :=
  ∀ pre, pre <+: is → ∃ s', pre.foldlM step s = .ok s' ∧ Good s'

theorem foldlM_cons_ok {s s' : σ} {i : ι} (is : List ι) (h : step s i = .ok s') :
    (i :: is).foldlM step s = is.foldlM step s' := by
  rw [List.foldlM_cons, h, Exec.ok_bind]

/-- A run of a step that projects onto another one projects onto a run of that. -/
theorem map_foldlM {τ : Type} {g : σ → τ} {f : τ → ι → Exec τ} (h : ∀ s i, (step s i).map g = f (g s) i) (s : σ)
    (is : List ι) : (is.foldlM step s).map g = is.foldlM f (g s) := by
  induction is generalizing s with
  | nil => rfl
  | cons i is ih =>
      rw [List.foldlM_cons, List.foldlM_cons, ← h s i]
      cases step s i with
      | error e => rfl
      | ok s' => exact ih s'

theorem Along.initial {s : σ} {is pre : List ι} (h : Along step P s is) (hpre : pre <+: is) :
    Along step P s pre := by
  induction pre generalizing s is with
  | nil => trivial
  | cons i pre ih =>
      cases is with
      | nil => exact absurd (List.prefix_nil.mp hpre) (List.cons_ne_nil i pre)
      | cons j is =>
          obtain ⟨rfl, hpre'⟩ := List.cons_prefix_cons.mp hpre
          exact ⟨h.1, fun s' hs' => ih (h.2 s' hs') hpre'⟩

theorem Along.cons {s s' : σ} {i : ι} {is : List ι} (hi : P s i) (hstep : step s i = .ok s')
    (h : Along step P s' is) : Along step P s (i :: is) := by
  refine ⟨hi, fun s₁ hs₁ => ?_⟩
  obtain rfl := Except.ok.inj (hstep.symm.trans hs₁)
  exact h

theorem Along.and {s : σ} {is : List ι} (hK : Along step K s is) (hP : Along step P s is) :
    Along step (fun s i => K s i ∧ P s i) s is := by
  induction is generalizing s with
  | nil => trivial
  | cons i is ih => exact ⟨⟨hK.1, hP.1⟩, fun s' hs' => ih (hK.2 s' hs') (hP.2 s' hs')⟩

theorem Along.of_forall {is : List ι} (h : ∀ s, ∀ i ∈ is, P s i) (s : σ) : Along step P s is := by
  induction is generalizing s with
  | nil => trivial
  | cons i is ih =>
      exact ⟨h s i List.mem_cons_self, fun s' _ => ih (fun s j hj => h s j (List.mem_cons_of_mem i hj)) s'⟩

theorem Along.append {s : σ} {is js : List ι} (h : Along step P s is) (hjs : ∀ s, ∀ j ∈ js, P s j) :
    Along step P s (is ++ js) := by
  induction is generalizing s with
  | nil => exact Along.of_forall hjs s
  | cons i is ih => exact ⟨h.1, fun s' hs' => ih (h.2 s' hs')⟩

theorem Along.last {s s' : σ} {is : List ι} {i : ι} (h : Along step P s (is ++ [i]))
    (hrun : is.foldlM step s = .ok s') : P s' i := by
  induction is generalizing s with
  | nil =>
      obtain rfl := Except.ok.inj hrun
      exact h.1
  | cons j is ih =>
      rw [List.foldlM_cons] at hrun
      obtain ⟨s₁, hone, hrest⟩ := Exec.bind_eq_ok.mp hrun
      exact ih (h.2 s₁ hone) hrest

/-- The run lemma: an invariant that every permitted step keeps holds at the end of a permitted run. -/
theorem Along.run (hstep : ∀ s i, Inv s → P s i → ∃ s', step s i = .ok s' ∧ Inv s') {s : σ}
    {is : List ι} (hs : Inv s) (h : Along step P s is) : ∃ s', is.foldlM step s = .ok s' ∧ Inv s' := by
  induction is generalizing s with
  | nil => exact ⟨s, rfl, hs⟩
  | cons i is ih =>
      obtain ⟨s', hone, hs'⟩ := hstep s i hs h.1
      rw [foldlM_cons_ok is hone]
      exact ih hs' (h.2 s' hone)

/-- An invariant that every step keeps if it does not fault. -/
theorem run_keeps (hstep : ∀ s i s', Inv s → step s i = .ok s' → Inv s') {s s' : σ} {is : List ι} (hs : Inv s)
    (hrun : is.foldlM step s = .ok s') : Inv s' := by
  induction is generalizing s with
  | nil =>
      obtain rfl := Except.ok.inj hrun
      exact hs
  | cons i is ih =>
      rw [List.foldlM_cons] at hrun
      obtain ⟨s₁, hone, hrest⟩ := Exec.bind_eq_ok.mp hrun
      exact ih (hstep s i s₁ hs hone) hrest

theorem Along.always (hgood : ∀ s, Inv s → Good s)
    (hstep : ∀ s i, Inv s → P s i → ∃ s', step s i = .ok s' ∧ Inv s') {s : σ} {is : List ι} (hs : Inv s)
    (h : Along step P s is) : Always step Good s is := by
  intro pre hpre
  obtain ⟨s', hrun, hinv⟩ := (h.initial hpre).run hstep hs
  exact ⟨s', hrun, hgood s' hinv⟩

theorem Always.uncons {s : σ} {i : ι} {is : List ι} (h : Always step Good s (i :: is)) :
    ∃ s', step s i = .ok s' ∧ Good s' ∧ Always step Good s' is := by
  obtain ⟨s₁, hone, hg⟩ := h [i] ⟨is, rfl⟩
  rw [List.foldlM_cons] at hone
  obtain ⟨s', hs', hret⟩ := Exec.bind_eq_ok.mp hone
  obtain rfl := Except.ok.inj hret
  refine ⟨s', hs', hg, fun pre hpre => ?_⟩
  obtain ⟨s₂, hrun, hg'⟩ := h (i :: pre) (List.cons_prefix_cons.mpr ⟨rfl, hpre⟩)
  rw [foldlM_cons_ok pre hs'] at hrun
  exact ⟨s₂, hrun, hg'⟩

theorem Always.cons {s s' : σ} {i : ι} {is : List ι} (hs : Good s) (hstep : step s i = .ok s')
    (h : Always step Good s' is) : Always step Good s (i :: is) := by
  intro pre hpre
  cases pre with
  | nil => exact ⟨s, rfl, hs⟩
  | cons j pre =>
      obtain ⟨rfl, hpre'⟩ := List.cons_prefix_cons.mp hpre
      rw [foldlM_cons_ok pre hstep]
      exact h pre hpre'

/-- A step that projects onto another one has the good states of that. -/
theorem always_map_iff {τ : Type} {g : σ → τ} {f : τ → ι → Exec τ} {Fine : τ → Prop}
    (h : ∀ s i, (step s i).map g = f (g s) i) (s : σ) (is : List ι) :
    Always f Fine (g s) is ↔ Always step (fun s => Fine (g s)) s is := by
  refine forall_congr' fun pre => forall_congr' fun _ => ?_
  rw [← map_foldlM h s pre]
  cases pre.foldlM step s with
  | error e => exact iff_of_false (fun h => nomatch h.choose_spec.1) (fun h => nomatch h.choose_spec.1)
  | ok s' =>
      constructor
      · rintro ⟨t, ht, hfine⟩
        obtain rfl := Except.ok.inj ht
        exact ⟨s', rfl, hfine⟩
      · rintro ⟨t, ht, hfine⟩
        obtain rfl := Except.ok.inj ht
        exact ⟨g s', rfl, hfine⟩

/-- A condition that a bad state never gets back to holds along every run that ends with it. -/
theorem Along.always_of_last (hkeep : ∀ s i s', K s i → step s i = .ok s' → Good s' → Good s) {s s' : σ}
    {is : List ι} (hK : Along step K s is) (hrun : is.foldlM step s = .ok s') (hs' : Good s') :
    Good s ∧ Always step Good s is := by
  induction is generalizing s with
  | nil =>
      obtain rfl := Except.ok.inj hrun
      refine ⟨hs', fun pre hpre => ⟨s, ?_, hs'⟩⟩
      rw [List.prefix_nil.mp hpre]
      rfl
  | cons i is ih =>
      rw [List.foldlM_cons] at hrun
      obtain ⟨s₁, hone, hrest⟩ := Exec.bind_eq_ok.mp hrun
      obtain ⟨hs₁, halways⟩ := ih (hK.2 s₁ hone) hrest
      have hs := hkeep s i s₁ hK.1 hone hs₁
      exact ⟨hs, halways.cons hs hone⟩

/-- In surroundings `K`: if a good state can follow only a permitted input, then the runs with good states are the
permitted ones. -/
theorem always_iff_within (hgood : ∀ s, Inv s → Good s)
    (hstep : ∀ s i, Inv s → K s i → P s i → ∃ s', step s i = .ok s' ∧ Inv s')
    (hback : ∀ s i s', Inv s → K s i → step s i = .ok s' → Good s' → P s i) {s : σ} (hs : Inv s) {is : List ι}
    (hK : Along step K s is) : Always step Good s is ↔ Along step P s is := by
  constructor
  · intro h
    induction is generalizing s with
    | nil => trivial
    | cons i is ih =>
        obtain ⟨s₁, hs₁, hg, hrest⟩ := h.uncons
        have hi := hback s i s₁ hs hK.1 hs₁ hg
        refine ⟨hi, fun s₂ hs₂ => ?_⟩
        obtain rfl := Except.ok.inj (hs₁.symm.trans hs₂)
        obtain ⟨s₃, hs₃, hinv⟩ := hstep s i hs hK.1 hi
        obtain rfl := Except.ok.inj (hs₃.symm.trans hs₁)
        exact ih hinv (hK.2 s₃ hs₃) hrest
  · intro h
    exact (hK.and h).always hgood (fun s i hs hKP => hstep s i hs hKP.1 hKP.2) hs

/-- If a good state can follow only a permitted input, then the runs with good states are the permitted ones. -/
theorem always_iff (hgood : ∀ s, Inv s → Good s)
    (hstep : ∀ s i, Inv s → P s i → ∃ s', step s i = .ok s' ∧ Inv s')
    (hback : ∀ s i s', Inv s → step s i = .ok s' → Good s' → P s i) {s : σ} (hs : Inv s) (is : List ι) :
    Always step Good s is ↔ Along step P s is :=
  always_iff_within hgood (fun s i hs _ => hstep s i hs) (fun s i s' hs _ => hback s i s' hs) hs
    (Along.of_forall (fun _ _ _ => trivial) s)

theorem exists_run_iff (hstep : ∀ s i, Inv s → P s i → ∃ s', step s i = .ok s' ∧ Inv s')
    (hback : ∀ s i s', Inv s → step s i = .ok s' → P s i) {s : σ} (hs : Inv s) (is : List ι) :
    (∃ s', is.foldlM step s = .ok s') ↔ Along step P s is := by
  have halways : Always step (fun _ => True) s is ↔ Along step P s is :=
    always_iff (fun _ _ => trivial) hstep (fun s i s' hs h _ => hback s i s' hs h) hs is
  rw [← halways]
  constructor
  · rintro ⟨s', hrun⟩ pre ⟨rest, rfl⟩
    rw [List.foldlM_append] at hrun
    obtain ⟨s₁, hpre, _⟩ := Exec.bind_eq_ok.mp hrun
    exact ⟨s₁, hpre, trivial⟩
  · intro h
    obtain ⟨s', hrun, _⟩ := h is List.prefix_rfl
    exact ⟨s', hrun⟩

/-- A run meets a fault of one kind if and only if one of its steps does. -/
theorem foldlM_ne_error_iff {e : Fault} (h : ∀ s i, step s i ≠ .error e ↔ P s i) (s : σ) (is : List ι) :
    is.foldlM step s ≠ .error e ↔ Along step P s is := by
  induction is generalizing s with
  | nil => exact iff_of_true nofun trivial
  | cons i is ih =>
      rw [List.foldlM_cons, Along, ← h s i]
      cases step s i with
      | error e' => exact ⟨fun hne => ⟨hne, nofun⟩, fun hne => hne.1⟩
      | ok s' =>
          rw [Exec.ok_bind, ih s']
          refine ⟨fun hrest => ⟨nofun, fun s₁ hs₁ => ?_⟩, fun hrest => hrest.2 s' rfl⟩
          obtain rfl := Except.ok.inj hs₁
          exact hrest

theorem foldlM_ne_error {e : Fault} (h : ∀ s i, step s i ≠ .error e) (s : σ) (is : List ι) :
    is.foldlM step s ≠ .error e := by
  induction is generalizing s with
  | nil => nofun
  | cons i is ih =>
      rw [List.foldlM_cons]
      exact Exec.bind_ne_error (h s i) ih

/-! ## Loops that count -/

/-- The invariant of a loop `for(i=a;i<a+n;i++)` speaks of the counter. -/
theorem run_range' {step : σ → Nat → Exec σ} {Inv : Nat → σ → Prop} {a n : Nat}
    (hstep : ∀ i s, a ≤ i → i < a + n → Inv i s → ∃ s', step s i = .ok s' ∧ Inv (i + 1) s') {s : σ} (hs : Inv a s) :
    ∃ s', (List.range' a n).foldlM step s = .ok s' ∧ Inv (a + n) s' := by
  induction n generalizing a s with
  | zero => exact ⟨s, rfl, hs⟩
  | succ n ih =>
      obtain ⟨s₁, hone, hs₁⟩ := hstep a s (Nat.le_refl a) (by omega) hs
      obtain ⟨s', hrest, hs'⟩ := ih (fun i s hlo hhi => hstep i s (by omega) (by omega)) hs₁
      exact ⟨s', by rw [List.range'_succ, foldlM_cons_ok _ hone, hrest], by rwa [Nat.add_right_comm] at hs'⟩

/-! ## Conditions that do not depend on the state -/

variable {Q : ι → Prop}

theorem run_of_forall {is : List ι} (hstep : ∀ s, ∀ i ∈ is, Inv s → Q i → ∃ s', step s i = .ok s' ∧ Inv s')
    {s : σ} (hs : Inv s) (h : ∀ i ∈ is, Q i) : ∃ s', is.foldlM step s = .ok s' ∧ Inv s' := by
  induction is generalizing s with
  | nil => exact ⟨s, rfl, hs⟩
  | cons i is ih =>
      obtain ⟨s₁, hone, hinv⟩ := hstep s i List.mem_cons_self hs (h i List.mem_cons_self)
      rw [foldlM_cons_ok is hone]
      exact ih (fun s j hj => hstep s j (List.mem_cons_of_mem i hj)) hinv
        (fun j hj => h j (List.mem_cons_of_mem i hj))

/-- The condition need only hold of the inputs of the run. -/
theorem run_keeps_of_forall {is : List ι} (hstep : ∀ s i s', Inv s → Q i → step s i = .ok s' → Inv s') {s s' : σ}
    (hs : Inv s) (h : ∀ i ∈ is, Q i) (hrun : is.foldlM step s = .ok s') : Inv s' := by
  induction is generalizing s with
  | nil =>
      obtain rfl := Except.ok.inj hrun
      exact hs
  | cons i is ih =>
      rw [List.foldlM_cons] at hrun
      obtain ⟨s₁, hone, hrest⟩ := Exec.bind_eq_ok.mp hrun
      obtain ⟨hi, h⟩ := List.forall_mem_cons.mp h
      exact ih (hstep s i s₁ hs hi hone) h hrest

theorem forall_of_run {is : List ι} (hstep : ∀ s, ∀ i ∈ is, Inv s → Q i → ∃ s', step s i = .ok s' ∧ Inv s')
    (hback : ∀ s s', ∀ i ∈ is, Inv s → step s i = .ok s' → Q i) {s s' : σ} (hs : Inv s)
    (hrun : is.foldlM step s = .ok s') : ∀ i ∈ is, Q i := by
  induction is generalizing s with
  | nil => exact fun i hi => absurd hi List.not_mem_nil
  | cons i is ih =>
      rw [List.foldlM_cons] at hrun
      obtain ⟨s₁, hone, hrest⟩ := Exec.bind_eq_ok.mp hrun
      have hi := hback s s₁ i List.mem_cons_self hs hone
      obtain ⟨s₂, hs₂, hinv⟩ := hstep s i List.mem_cons_self hs hi
      obtain rfl := Except.ok.inj (hs₂.symm.trans hone)
      exact List.forall_mem_cons.mpr ⟨hi, ih (fun s j hj => hstep s j (List.mem_cons_of_mem i hj))
        (fun s s' j hj => hback s s' j (List.mem_cons_of_mem i hj)) hinv hrest⟩

end

end CompileService.Base
