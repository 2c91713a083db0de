import CompileService.Http.Footprints
import CompileService.Http.Lemmas.Faults

/-!
# The memory of a server

Requests are answered one after the other on one heap, whatever else it holds. What was there before stays as it is,
and the new blocks that remain are the lists that found no memory to grow.
-/

namespace CompileService.Http.Memory

open CompileService.Base Assertion Carries CompileService.Wire

/-- A request of a client, with the world in which it is answered. -/
structure Request where
  disk : Disk
  run : Run
  out : Outlet
  req : CStr
  root : CStr

namespace Request

def answer (r : Request) : Exec (Int × Outlet) := r.disk.requestHandler r.run r.out r.req r.root

def serve (A : Allocator Block) (r : Request) : Prog Block (Int × Outlet) :=
  requestHandler A r.disk r.run r.out r.req r.root

def lost (r : Request) : Nat := lostBlocks r.disk r.run r.req r.root

end Request

variable (A : Allocator Block) (requests : List Request)

theorem serve_carries :
    Carries 1 (requests.mapM (Request.serve A)) (requests.mapM Request.answer) fun results a =>
      fact (a = results) * blocks (requests.map Request.lost).sum := by
  induction requests with
  | nil =>
      apply ret
      intro h hP
      exact fact_mul_apply.mpr ⟨rfl, card_keys_eq_zero.mpr hP⟩
  | cons r requests ih =>
      rw [List.mapM_cons, List.mapM_cons]
      apply bind (requestHandler_carries r.run r.out r.req r.root)
      intro result a _
      apply of_fact
      rintro rfl
      apply fresh ih
      intro results a _
      rw [mul_assoc]
      apply of_fact
      rintro rfl
      apply ret
      intro h hP
      rw [mul_comm] at hP
      rw [List.map_cons, List.sum_cons]
      exact fact_mul_apply.mpr ⟨rfl, (HasSize.blocks _).mul (HasSize.blocks _) h hP⟩

/-- The heap and the values. Whatever the addresses are, the requests have the faults and the results that they have
on values. The blocks that were there before are the same afterwards, and exactly one new block remains for every list
that found no memory to grow. -/
theorem serve_leaves (h : Heap Block) :
    (∀ e, requests.mapM Request.answer = .error e → requests.mapM (Request.serve A) h = .error e) ∧
    ∀ results, requests.mapM Request.answer = .ok results →
      ∃ lost, requests.mapM (Request.serve A) h = .ok (results, lost ∪ h) ∧ lost.Disjoint h ∧
        lost.keys.card = (requests.map Request.lost).sum := by
  have hrun := (serve_carries A requests).answers ∅ h (Finmap.disjoint_empty h) rfl
  rw [Finmap.empty_union] at hrun
  constructor
  · intro e he
    rwa [he] at hrun
  · intro results hresults
    rw [hresults] at hrun
    obtain ⟨_, lost, hserve, hd, hP⟩ := hrun
    obtain ⟨rfl, hcard⟩ := fact_mul_apply.mp hP
    exact ⟨lost, hserve, hd, hcard⟩

/-- No handler uses a block that was freed or frees a block twice, whichever allocations fail. -/
theorem serve_never_dangles (h : Heap Block) : requests.mapM (Request.serve A) h ≠ .error .dangling := by
  have hvalues : requests.mapM Request.answer ≠ .error .dangling := by
    induction requests with
    | nil => nofun
    | cons r requests ih =>
        rw [List.mapM_cons]
        refine Exec.bind_ne_error (Disk.requestHandler_ne_dangling r.run r.disk r.out r.req r.root) fun _ => ?_
        exact Exec.bind_ne_error ih fun _ => nofun
  have hrun := (serve_carries A requests).answers ∅ h (Finmap.disjoint_empty h) rfl
  rw [Finmap.empty_union] at hrun
  cases hm : requests.mapM Request.answer with
  | error e =>
      rw [hm] at hrun hvalues
      rw [hrun]
      exact fun he => hvalues (congrArg Except.error (Except.error.inj he))
  | ok results =>
      rw [hm] at hrun
      obtain ⟨_, lost, hserve, _⟩ := hrun
      rw [hserve]
      nofun

end CompileService.Http.Memory
