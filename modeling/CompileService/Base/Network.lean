import Mathlib.Logic.Function.Basic
import Mathlib.Data.List.Basic

/-!
# What a network may do

Two specifications of the transport of messages between ends, both with a record of what each end sent and got. In
the first the ends are connected in pairs by queues, and what comes first goes out first. In the second anything sent
may get lost, doubled and overtaken, but nothing is made up.
-/

namespace CompileService.Base

section
variable {κ μ : Type} [DecidableEq κ]

/-- `x` joins the list of `k`. -/
def put (f : κ → List μ) (k : κ) (x : μ) : κ → List μ := Function.update f k (f k ++ [x])

@[simp] theorem put_same (f : κ → List μ) (k : κ) (x : μ) : put f k x k = f k ++ [x] := Function.update_self ..

theorem put_of_ne (f : κ → List μ) {k k' : κ} (x : μ) (h : k' ≠ k) : put f k x k' = f k' :=
  Function.update_of_ne h ..

/-! ## First in, first out -/

/-- The ends of a network of queues: what is on its way to each, and what each has sent and got. -/
structure Queues (κ μ : Type) where
  queue : κ → List μ
  sent : κ → List μ
  got : κ → List μ

namespace Queues

def empty : Queues κ μ := ⟨fun _ => [], fun _ => [], fun _ => []⟩

/-- An end sends to its peer, or takes what came first from its queue. -/
inductive Move (peer : κ → κ) : Queues κ μ → Queues κ μ → Prop where
  | send (t : Queues κ μ) (k : κ) (x : μ) :
      Move peer t ⟨put t.queue (peer k) x, put t.sent k x, t.got⟩
  | recv (t : Queues κ μ) (k : κ) (x : μ) (xs : List μ) (hq : t.queue k = x :: xs) :
      Move peer t ⟨Function.update t.queue k xs, t.sent, put t.got k x⟩

/-- Nothing is lost, doubled or overtaken: what an end got, followed by what is on its way to it, is what its peer
has sent. -/
def InOrder (peer : κ → κ) (t : Queues κ μ) : Prop := ∀ k, t.got k ++ t.queue k = t.sent (peer k)

variable {peer : κ → κ}

theorem Move.inOrder (hpeer : Function.Involutive peer) (t t' : Queues κ μ) (ht : InOrder peer t)
    (h : Move peer t t') : InOrder peer t' := by
  intro k'
  have hk' := ht k'
  cases h with
  | send k x =>
      by_cases hk : k' = peer k
      · subst hk
        rw [hpeer k] at hk' ⊢
        simp only [put_same, ← List.append_assoc, hk']
      · have hne : peer k' ≠ k := fun heq => hk (by rw [← heq, hpeer k'])
        simp only [put_of_ne _ _ hk, put_of_ne _ _ hne, hk']
  | recv k x xs hq =>
      by_cases hk : k' = k
      · subst hk
        rw [hq] at hk'
        simp only [put_same, Function.update_self, List.append_assoc, List.singleton_append, hk']
      · simp only [put_of_ne _ _ hk, Function.update_of_ne hk, hk']

end Queues

/-! ## Lost, doubled, overtaken -/

/-- The ends of a network of datagrams: what was ever sent to each, and what each has got, both with the sender. -/
structure Air (κ μ : Type) where
  air : κ → List (κ × μ)
  got : κ → List (κ × μ)

namespace Air

def empty : Air κ μ := ⟨fun _ => [], fun _ => []⟩

/-- The end `j` sends to `k`, or `k` takes anything that was ever sent to it. -/
inductive Move : Air κ μ → Air κ μ → Prop where
  | send (t : Air κ μ) (j k : κ) (x : μ) : Move t ⟨put t.air k (j, x), t.got⟩
  | recv (t : Air κ μ) (k : κ) (p : κ × μ) (hp : p ∈ t.air k) : Move t ⟨t.air, put t.got k p⟩

/-- Nothing is made up. -/
def Authentic (t : Air κ μ) : Prop := ∀ k, ∀ p ∈ t.got k, p ∈ t.air k

theorem mem_put {f : κ → List μ} {k k' : κ} {x y : μ} : y ∈ put f k x k' ↔ y ∈ f k' ∨ (k' = k ∧ y = x) := by
  by_cases hk : k' = k
  · subst hk
    simp
  · simp [put_of_ne f x hk, hk]

theorem Move.authentic (t t' : Air κ μ) (ht : Authentic t) (h : Move t t') : Authentic t' := by
  intro k' p' hp'
  cases h with
  | send j k x => exact mem_put.mpr (.inl (ht k' p' hp'))
  | recv k p hp =>
      rcases mem_put.mp hp' with hp' | ⟨rfl, rfl⟩
      · exact ht k' p' hp'
      · exact hp

end Air

end

end CompileService.Base
