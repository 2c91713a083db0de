import CompileService.Base.Bytes
import Mathlib.Algebra.BigOperators.Group.List.Basic
import Mathlib.Data.Finmap
import Mathlib.Order.Lattice.Nat

/-!
# Programs on a heap

A program reads, writes, allocates and frees blocks; a use of a block that is not there is a fault. Assertions
describe parts of the heap, and with the separating conjunction as product they are a commutative monoid. `Carries`
compares a program with a computation on values: next to any other blocks, which it leaves alone, the program faults
as the computation does or comes to a related result. The rules take a program apart statement by statement.
-/

namespace CompileService.Base

/-- A heap: finitely many addresses, each with a block. -/
abbrev Heap (β : Type) := Finmap fun _ : Nat => β

/-- The choice of an address for the next block: one that is not in use, and not the null pointer. -/
structure Allocator (β : Type) where
  place : Heap β → Nat
  place_ne_zero : ∀ h, place h ≠ 0
  place_notMem : ∀ h, place h ∉ h

/-- The first address after all blocks. -/
def Allocator.next (β : Type) : Allocator β where
  place h := h.keys.sup id + 1
  place_ne_zero h := Nat.succ_ne_zero _
  place_notMem h hmem := by
    have hle : h.keys.sup id + 1 ≤ h.keys.sup id := Finset.le_sup (f := id) (Finmap.mem_keys.mpr hmem)
    exact Nat.not_succ_le_self _ hle

abbrev Prog (β α : Type) := StateT (Heap β) Exec α

namespace Prog

variable {β : Type}

def load (a : Nat) : Prog β β := fun h =>
  match h.lookup a with
  | some b => .ok (b, h)
  | none => .error .dangling

def store (a : Nat) (b : β) : Prog β Unit := fun h =>
  if a ∈ h then .ok ((), h.insert a b) else .error .dangling

/-- An allocation with the contents of the new block; `none` is a failure. -/
def alloc (A : Allocator β) : Option β → Prog β Nat
  | none => pure 0
  | some b => fun h => .ok (A.place h, h.insert (A.place h) b)

/-- A null pointer is not freed. -/
def free (a : Nat) : Prog β Unit := fun h =>
  if a = 0 then .ok ((), h)
  else if a ∈ h then .ok ((), h.erase a)
  else .error .dangling

/-- A block with new contents takes the place of `a`, which stays if there is no memory. -/
def realloc (A : Allocator β) (a : Nat) : Option β → Prog β Nat
  | none => pure 0
  | some b => do
      free a
      alloc A (some b)

/-- The entry `i` of a list; there is nothing to use if there is no such entry. -/
def pick {α : Type} (xs : List α) (i : Nat) : Exec α :=
  match xs[i]? with
  | some x => .ok x
  | none => .error .dangling

/-- The pointer that a call returned, if it is not null. -/
def returned (a : Nat) : List Nat := if a = 0 then [] else [a]

/-- A computation that does not use the heap. -/
def eval {α : Type} (x : Exec α) : Prog β α := fun h => x.map fun a => (a, h)

/-- What is in a block, for the kind of blocks that `proj` tells from the others. -/
def loadAs {ι : Type} (proj : β → Option ι) (a : Nat) : Prog β ι := do
  let b ← load a
  match proj b with
  | some x => pure x
  | none => eval (.error .bounds)

end Prog

/-! ## Assertions -/

structure Assertion (β : Type) where
  Holds : Heap β → Prop

namespace Assertion

instance (β : Type) : CoeFun (Assertion β) fun _ => Heap β → Prop := ⟨Holds⟩

section
variable {β ι : Type} {P P' Q R : Assertion β} {h : Heap β}

@[ext]
theorem ext (hiff : ∀ h, P h ↔ Q h) : P = Q := by
  cases P
  cases Q
  exact congrArg mk (funext fun h => propext (hiff h))

def emp : Assertion β := ⟨fun h => h = ∅⟩

/-- The heap has two parts, one for each assertion. -/
def sep (P Q : Assertion β) : Assertion β := ⟨fun h => ∃ h₁ h₂, h₁.Disjoint h₂ ∧ h = h₁ ∪ h₂ ∧ P h₁ ∧ Q h₂⟩

/-- The one block `b`, which `a` points to. -/
def pointsTo (a : Nat) (b : β) : Assertion β := ⟨fun h => a ≠ 0 ∧ h = Finmap.singleton a b⟩

def fact (p : Prop) : Assertion β := ⟨fun h => p ∧ h = ∅⟩

def ex (P : ι → Assertion β) : Assertion β := ⟨fun h => ∃ i, P i h⟩

/-- An object that `a` points to, or none and the null pointer. -/
def orNull (At : Nat → ι → Assertion β) (a : Nat) : Option ι → Assertion β
  | some x => At a x
  | none => fact (a = 0)

/-- There are `n` blocks, whatever they hold. -/
def blocks (n : Nat) : Assertion β := ⟨fun h => h.keys.card = n⟩

/-- One object for each of the pointers. -/
def each (At : Nat → ι → Assertion β) : List Nat → List ι → Assertion β
  | [], [] => emp
  | a :: as, x :: xs => sep (At a x) (each At as xs)
  | _, _ => fact False

theorem sep_comm (P Q : Assertion β) : sep P Q = sep Q P := by
  have hswap : ∀ {P Q : Assertion β} {h}, sep P Q h → sep Q P h := by
    rintro P Q _ ⟨h₁, h₂, hd, rfl, hP, hQ⟩
    exact ⟨h₂, h₁, hd.symm, Finmap.union_comm_of_disjoint hd, hQ, hP⟩
  ext h
  exact ⟨hswap, hswap⟩

theorem emp_sep (P : Assertion β) : sep emp P = P := by
  ext h
  constructor
  · rintro ⟨h₁, h₂, _, rfl, rfl, hP⟩
    rwa [Finmap.empty_union]
  · intro hP
    exact ⟨∅, h, Finmap.disjoint_empty h, Finmap.empty_union.symm, rfl, hP⟩

theorem sep_assoc (P Q R : Assertion β) : sep (sep P Q) R = sep P (sep Q R) := by
  ext h
  constructor
  · rintro ⟨_, h₃, hd, rfl, ⟨h₁, h₂, hd', rfl, hP, hQ⟩, hR⟩
    obtain ⟨hd₁, hd₂⟩ := (Finmap.disjoint_union_left _ _ _).mp hd
    exact ⟨h₁, h₂ ∪ h₃, (Finmap.disjoint_union_right _ _ _).mpr ⟨hd', hd₁⟩, Finmap.union_assoc, hP,
      h₂, h₃, hd₂, rfl, hQ, hR⟩
  · rintro ⟨h₁, _, hd, rfl, hP, h₂, h₃, hd', rfl, hQ, hR⟩
    obtain ⟨hd₁, hd₂⟩ := (Finmap.disjoint_union_right _ _ _).mp hd
    exact ⟨h₁ ∪ h₂, h₃, (Finmap.disjoint_union_left _ _ _).mpr ⟨hd₂, hd'⟩, Finmap.union_assoc.symm,
      ⟨h₁, h₂, hd₁, rfl, hP, hQ⟩, hR⟩

instance : CommMonoid (Assertion β) where
  mul := sep
  one := emp
  mul_assoc := sep_assoc
  mul_comm := sep_comm
  one_mul := emp_sep
  mul_one P := (sep_comm P emp).trans (emp_sep P)

theorem ex_apply {P : ι → Assertion β} : ex P h ↔ ∃ i, P i h := Iff.rfl

theorem fact_mul_apply {p : Prop} : (fact p * P : Assertion β) h ↔ p ∧ P h := by
  constructor
  · rintro ⟨h₁, h₂, _, rfl, ⟨hp, rfl⟩, hP⟩
    rw [Finmap.empty_union]
    exact ⟨hp, hP⟩
  · rintro ⟨hp, hP⟩
    exact ⟨∅, h, Finmap.disjoint_empty h, Finmap.empty_union.symm, ⟨hp, rfl⟩, hP⟩

theorem fact_of_true {p : Prop} (hp : p) : (fact p : Assertion β) = 1 := by
  ext h
  exact ⟨fun h => h.2, fun h => ⟨hp, h⟩⟩

@[simp] theorem orNull_null (At : Nat → ι → Assertion β) : orNull At 0 none = 1 := fact_of_true rfl

theorem ex_mul (P : ι → Assertion β) (Q : Assertion β) : ex P * Q = ex fun i => P i * Q := by
  ext h
  constructor
  · rintro ⟨h₁, h₂, hd, rfl, ⟨i, hP⟩, hQ⟩
    exact ⟨i, h₁, h₂, hd, rfl, hP, hQ⟩
  · rintro ⟨i, h₁, h₂, hd, rfl, hP, hQ⟩
    exact ⟨h₁, h₂, hd, rfl, ⟨i, hP⟩, hQ⟩

theorem mul_mono {Q' : Assertion β} (hP : ∀ h, P h → P' h) (hQ : ∀ h, Q h → Q' h) (hPQ : (P * Q : Assertion β) h) :
    (P' * Q' : Assertion β) h := by
  obtain ⟨h₁, h₂, hd, rfl, h₁P, h₂Q⟩ := hPQ
  exact ⟨h₁, h₂, hd, rfl, hP h₁ h₁P, hQ h₂ h₂Q⟩

section each
variable {At : Nat → ι → Assertion β} {as bs : List Nat} {xs ys : List ι}

theorem each_nil : each At [] [] = 1 := rfl

theorem each_cons {a : Nat} {x : ι} : each At (a :: as) (x :: xs) = At a x * each At as xs := rfl

theorem each_length (hP : (each At as xs * P : Assertion β) h) : as.length = xs.length := by
  induction as generalizing xs P with
  | nil =>
      cases xs with
      | nil => rfl
      | cons x xs => exact (fact_mul_apply.mp hP).1.elim
  | cons a as ih =>
      cases xs with
      | nil => exact (fact_mul_apply.mp hP).1.elim
      | cons x xs =>
          rw [each_cons, mul_comm (At a x), mul_assoc] at hP
          exact congrArg Nat.succ (ih hP)

theorem each_append (hlen : as.length = xs.length) :
    each At (as ++ bs) (xs ++ ys) = each At as xs * each At bs ys := by
  induction as generalizing xs with
  | nil =>
      obtain rfl := List.eq_nil_of_length_eq_zero hlen.symm
      rw [List.nil_append, List.nil_append, each_nil, one_mul]
  | cons a as ih =>
      cases xs with
      | nil => cases hlen
      | cons x xs => rw [List.cons_append, List.cons_append, each_cons, each_cons, ih (Nat.succ.inj hlen), mul_assoc]

/-- One of the objects, and the others. -/
theorem each_set {i a : Nat} (hlen : as.length = xs.length) (ha : as[i]? = some a) (y : ι) :
    each At as (xs.set i y) = At a y * each At (as.eraseIdx i) (xs.eraseIdx i) := by
  induction as generalizing xs i with
  | nil => cases ha
  | cons b as ih =>
      cases xs with
      | nil => cases hlen
      | cons x xs =>
          cases i with
          | zero =>
              obtain rfl := Option.some.inj ha
              rfl
          | succ i =>
              have hrest := ih (Nat.succ.inj hlen) ha
              rw [List.set_cons_succ, List.eraseIdx_cons_succ, List.eraseIdx_cons_succ, each_cons, each_cons, hrest,
                mul_left_comm]

theorem each_erase {i a : Nat} {x : ι} (hlen : as.length = xs.length) (ha : as[i]? = some a) (hx : xs[i]? = some x) :
    each At as xs = At a x * each At (as.eraseIdx i) (xs.eraseIdx i) := by
  obtain ⟨hi, rfl⟩ := List.getElem?_eq_some_iff.mp hx
  rw [← each_set hlen ha, List.set_getElem_self]

/-- What a call returned is put at the end. -/
theorem each_returned {a : Nat} {r : Option ι} (hAt : ∀ a x h, At a x h → a ≠ 0)
    (hP : (orNull At a r * each At as xs : Assertion β) h) :
    each At (as ++ Prog.returned a) (xs ++ r.toList) h := by
  have hlen : as.length = xs.length := by
    rw [mul_comm] at hP
    exact each_length hP
  rw [each_append hlen, mul_comm]
  refine mul_mono (fun h hr => ?_) (fun _ => id) hP
  cases r with
  | none =>
      obtain ⟨rfl, rfl⟩ := hr
      rfl
  | some x =>
      rw [Prog.returned, if_neg (hAt a x h hr)]
      show (At a x * 1 : Assertion β) h
      rwa [mul_one]

end each

/-! ### Sizes -/

/-- Every such part of a heap has `n` blocks. -/
def HasSize (P : Assertion β) (n : Nat) : Prop := ∀ h, P h → h.keys.card = n

theorem card_keys_eq_zero {h : Heap β} : h.keys.card = 0 ↔ h = ∅ := by
  rw [Finset.card_eq_zero]
  constructor
  · intro hkeys
    refine Finmap.ext_lookup fun a => ?_
    rw [Finmap.lookup_empty, Finmap.lookup_eq_none, ← Finmap.mem_keys, hkeys]
    exact Finset.notMem_empty a
  · rintro rfl
    exact Finmap.keys_empty

@[simp] theorem blocks_zero : (blocks 0 : Assertion β) = 1 := by
  ext h
  exact card_keys_eq_zero

section size
variable {m n : Nat} {f : ι → Nat} {At : Nat → ι → Assertion β}

theorem HasSize.one : HasSize (1 : Assertion β) 0 := by
  rintro _ rfl
  rw [Finmap.keys_empty, Finset.card_empty]

theorem HasSize.mul (hP : HasSize P m) (hQ : HasSize Q n) : HasSize (P * Q) (m + n) := by
  rintro _ ⟨h₁, h₂, hd, rfl, h₁P, h₂Q⟩
  have hdisjoint : Disjoint h₁.keys h₂.keys := Finset.disjoint_left.mpr fun a ha hb =>
    hd a (Finmap.mem_keys.mp ha) (Finmap.mem_keys.mp hb)
  rw [Finmap.keys_union, Finset.card_union_of_disjoint hdisjoint, hP h₁ h₁P, hQ h₂ h₂Q]

theorem HasSize.pointsTo (a : Nat) (b : β) : HasSize (pointsTo a b) 1 := by
  rintro _ ⟨_, rfl⟩
  rw [Finmap.keys_singleton, Finset.card_singleton]

theorem HasSize.blocks (n : Nat) : HasSize (blocks n : Assertion β) n := fun _ => id

theorem HasSize.ex {P : ι → Assertion β} (hP : ∀ i, HasSize (P i) n) : HasSize (ex P) n := fun h ⟨i, hi⟩ => hP i h hi

theorem HasSize.orNull {a : Nat} (hAt : ∀ a x, HasSize (At a x) (f x)) (r : Option ι) :
    HasSize (orNull At a r) (r.elim 0 f) := by
  cases r with
  | none =>
      rintro _ ⟨_, rfl⟩
      rw [Finmap.keys_empty, Finset.card_empty, Option.elim_none]
  | some x => exact hAt a x

theorem HasSize.each (hAt : ∀ a x, HasSize (At a x) (f x)) (as : List Nat) (xs : List ι) :
    HasSize (each At as xs) (xs.map f).sum := by
  induction as generalizing xs with
  | nil =>
      cases xs with
      | nil => exact HasSize.one
      | cons x xs => exact fun h hP => hP.1.elim
  | cons a as ih =>
      cases xs with
      | nil => exact fun h hP => hP.1.elim
      | cons x xs => exact (hAt a x).mul (ih xs)

end size

theorem pointsTo_ne_zero {a : Nat} {b : β} (hP : (pointsTo a b * Q : Assertion β) h) : a ≠ 0 := by
  obtain ⟨_, _, _, _, ⟨hne, _⟩, _⟩ := hP
  exact hne

end

end Assertion

/-! ## Programs and computations -/

section
variable {α α' β ι ρ ρ' : Type}

/-- `out` is the fault that was computed, or a heap that still has `f` and is related to what was computed. -/
def Answers (out : Exec (α × Heap β)) (f : Heap β) (Q : ρ → α → Assertion β) : Exec ρ → Prop
  | .error e => out = .error e
  | .ok r => ∃ a h', out = .ok (a, h' ∪ f) ∧ h'.Disjoint f ∧ Q r a h'

/-- The program `c` does with a part `P` of the heap what `m` computes. -/
structure Carries (P : Assertion β) (c : Prog β α) (m : Exec ρ) (Q : ρ → α → Assertion β) : Prop where
  answers : ∀ h f, h.Disjoint f → P h → Answers (c (h ∪ f)) f Q m

namespace Carries

open Assertion

variable {P P' F : Assertion β} {c : Prog β α} {m : Exec ρ} {Q Q' : ρ → α → Assertion β}
  {k : α → Prog β α'} {g : ρ → Exec ρ'} {R : ρ' → α' → Assertion β}

theorem ret {a : α} {r : ρ} (hQ : ∀ h, P h → Q r a h) : Carries P (pure a) (.ok r) Q :=
  ⟨fun h _ hd hP => ⟨a, h, rfl, hd, hQ h hP⟩⟩

theorem fails (e : Fault) (hc : ∀ h, c h = .error e) : Carries P c (.error e : Exec ρ) Q :=
  ⟨fun h f _ _ => hc (h ∪ f)⟩

theorem bind (hc : Carries P c m Q) (hk : ∀ r a, m = .ok r → Carries (Q r a) (k a) (g r) R) :
    Carries P (c >>= k) (m >>= g) R := by
  refine ⟨fun h f hd hP => ?_⟩
  have hrun := hc.answers h f hd hP
  cases m with
  | error e =>
      show (c >>= k) (h ∪ f) = .error e
      exact congrArg (· >>= fun r : α × Heap β => k r.1 r.2) hrun
  | ok r =>
      obtain ⟨a, h', hstep, hd', hQ⟩ := hrun
      have hnext : (c >>= k) (h ∪ f) = k a (h' ∪ f) :=
        congrArg (· >>= fun r : α × Heap β => k r.1 r.2) hstep
      have hrest := (hk r a rfl).answers h' f hd' hQ
      rwa [← hnext] at hrest

/-- What the program does not use stays as it is. -/
theorem frame (hc : Carries P c m Q) (F : Assertion β) : Carries (P * F) c m fun r a => Q r a * F := by
  refine ⟨?_⟩
  rintro _ f hd ⟨h₁, h₂, hd', rfl, hP, hF⟩
  obtain ⟨hd₁, hd₂⟩ := (Finmap.disjoint_union_left _ _ _).mp hd
  have hrun := hc.answers h₁ (h₂ ∪ f) ((Finmap.disjoint_union_right _ _ _).mpr ⟨hd', hd₁⟩) hP
  rw [← Finmap.union_assoc] at hrun
  cases m with
  | error e => exact hrun
  | ok r =>
      obtain ⟨a, h', hstep, hd'', hQ⟩ := hrun
      obtain ⟨hd₃, hd₄⟩ := (Finmap.disjoint_union_right _ _ _).mp hd''
      exact ⟨a, h' ∪ h₂, by rw [hstep, Finmap.union_assoc], (Finmap.disjoint_union_left _ _ _).mpr ⟨hd₄, hd₂⟩,
        h', h₂, hd₃, rfl, hQ, hF⟩

/-- A call that uses some of the blocks. -/
theorem part (hc : Carries P c m Q) (hk : ∀ r a, m = .ok r → Carries (Q r a * F) (k a) (g r) R) :
    Carries (P * F) (c >>= k) (m >>= g) R := bind (hc.frame F) hk

/-- What follows a call computes nothing more. -/
theorem after {R : ρ → α' → Assertion β} (hc : Carries P c m Q) (hk : ∀ r a, Carries (Q r a) (k a) (.ok r) R) :
    Carries P (c >>= k) m R := by
  have hbind : Carries P (c >>= k) (m >>= pure) R := bind hc fun r a _ => hk r a
  rwa [bind_pure] at hbind

/-- A program that uses none of the blocks that there are. -/
theorem beside (hc : Carries 1 c m Q) (F : Assertion β) : Carries F c m fun r a => Q r a * F := by
  have hframe := hc.frame F
  rwa [one_mul] at hframe

theorem fresh (hc : Carries 1 c m Q) (hk : ∀ r a, m = .ok r → Carries (Q r a * F) (k a) (g r) R) :
    Carries F (c >>= k) (m >>= g) R := bind (hc.beside F) hk

/-- A call that always goes through. -/
theorem call {r : ρ} {k : α → Prog β α'} {m : Exec ρ'} (hc : Carries P c (.ok r) Q)
    (hk : ∀ a, Carries (Q r a * F) (k a) m R) : Carries (P * F) (c >>= k) m R := by
  refine @bind _ _ _ _ _ _ _ (.ok r) _ _ (fun _ => m) R (hc.frame F) fun r' a hr => ?_
  obtain rfl := Except.ok.inj hr
  exact hk a

theorem mono (hc : Carries P c m Q) (hQ : ∀ r a h, m = .ok r → Q r a h → Q' r a h) : Carries P c m Q' := by
  refine ⟨fun h f hd hP => ?_⟩
  have hrun := hc.answers h f hd hP
  cases m with
  | error e => exact hrun
  | ok r =>
      obtain ⟨a, h', hstep, hd', hres⟩ := hrun
      exact ⟨a, h', hstep, hd', hQ r a h' rfl hres⟩

/-- The same program with another result. -/
theorem of_ok {r : ρ} {r' : ρ'} {Q' : ρ' → α → Assertion β} (hc : Carries P c (.ok r) Q)
    (hQ : ∀ a h, Q r a h → Q' r' a h) : Carries P c (.ok r') Q' := by
  refine ⟨fun h f hd hP => ?_⟩
  obtain ⟨a, h', hstep, hd', hres⟩ := hc.answers h f hd hP
  exact ⟨a, h', hstep, hd', hQ a h' hres⟩

theorem strengthen (hc : Carries P c m Q) (hP : ∀ h, P' h → P h) : Carries P' c m Q :=
  ⟨fun h f hd h' => hc.answers h f hd (hP h h')⟩

theorem of_mul_one (hc : Carries (P * 1) c m Q) : Carries P c m Q := by rwa [mul_one] at hc

theorem of_one_mul (hc : Carries (1 * P) c m Q) : Carries P c m Q := by rwa [one_mul] at hc

theorem of_ex {P : ι → Assertion β} (hc : ∀ i, Carries (P i) c m Q) : Carries (ex P) c m Q :=
  ⟨fun h f hd ⟨i, hP⟩ => (hc i).answers h f hd hP⟩

theorem of_fact {p : Prop} (hc : p → Carries P c m Q) : Carries (fact p * P) c m Q := by
  refine ⟨fun h f hd hP => ?_⟩
  obtain ⟨hp, hP⟩ := fact_mul_apply.mp hP
  exact (hc hp).answers h f hd hP

/-- What a part of the heap says. -/
theorem of_known {p : Prop} (hp : ∀ h, P h → p) (hc : p → Carries P c m Q) : Carries P c m Q :=
  ⟨fun h f hd hP => (hc (hp h hP)).answers h f hd hP⟩

theorem of_pointsTo {a : Nat} {b : β} (hc : a ≠ 0 → Carries (pointsTo a b * F) c m Q) :
    Carries (pointsTo a b * F) c m Q := of_known (fun _ hP => pointsTo_ne_zero hP) hc

/-! ### Statements -/

/-- A statement that goes through from `P`, and leaves `P'`. -/
theorem of_step {c : Prog β α'} {k : α' → Prog β α} {a : α'}
    (hstep : ∀ h f, h.Disjoint f → P h → ∃ h', c (h ∪ f) = .ok (a, h' ∪ f) ∧ h'.Disjoint f ∧ P' h')
    (hk : Carries P' (k a) m Q) : Carries P (c >>= k) m Q := by
  refine ⟨fun h f hd hP => ?_⟩
  obtain ⟨h', hc, hd', hP'⟩ := hstep h f hd hP
  have hnext : (c >>= k) (h ∪ f) = k a (h' ∪ f) := congrArg (· >>= fun r : α' × Heap β => k r.1 r.2) hc
  have hrest := hk.answers h' f hd' hP'
  rwa [← hnext] at hrest

theorem union_lookup {h f : Heap β} {a : Nat} {b : β} (hP : (pointsTo a b * F : Assertion β) h) :
    (h ∪ f).lookup a = some b := by
  obtain ⟨_, h₂, _, rfl, ⟨_, rfl⟩, _⟩ := hP
  have hmem : a ∈ (Finmap.singleton a b : Heap β) := (Finmap.mem_singleton a a b).mpr rfl
  rw [Finmap.union_assoc, Finmap.lookup_union_left hmem, Finmap.lookup_singleton_eq]

theorem load {a : Nat} {b : β} {k : β → Prog β α} (hk : Carries (pointsTo a b * F) (k b) m Q) :
    Carries (pointsTo a b * F) (Prog.load a >>= k) m Q := by
  refine of_step (fun h f hd hP => ⟨h, ?_, hd, hP⟩) hk
  simp only [Prog.load, union_lookup hP]

theorem loadAs {proj : β → Option ι} {a : Nat} {b : β} {x : ι} {k : ι → Prog β α} (hb : proj b = some x)
    (hk : Carries (pointsTo a b * F) (k x) m Q) : Carries (pointsTo a b * F) (Prog.loadAs proj a >>= k) m Q := by
  rw [Prog.loadAs, bind_assoc]
  apply load
  rw [hb]
  simpa only [pure_bind] using hk

theorem store {a : Nat} {b b' : β} {k : Unit → Prog β α} (hk : Carries (pointsTo a b' * F) (k ()) m Q) :
    Carries (pointsTo a b * F) (Prog.store a b' >>= k) m Q := by
  refine of_step (fun h f hd hP => ?_) hk
  have hmem : a ∈ h ∪ f := Finmap.mem_of_lookup_eq_some (union_lookup hP)
  obtain ⟨_, h₂, hd', rfl, ⟨hne, rfl⟩, hF⟩ := hP
  have hkeys : ∀ x, x ∈ (Finmap.singleton a b' : Heap β) ↔ x ∈ (Finmap.singleton a b : Heap β) := fun x => by
    rw [Finmap.mem_singleton, Finmap.mem_singleton]
  refine ⟨Finmap.singleton a b' ∪ h₂, ?_, ?_, Finmap.singleton a b', h₂, ?_, rfl, ⟨hne, rfl⟩, hF⟩
  · simp only [Prog.store, if_pos hmem, Finmap.insert_union, Finmap.insert_singleton_eq]
  · obtain ⟨hd₁, hd₂⟩ := (Finmap.disjoint_union_left _ _ _).mp hd
    exact (Finmap.disjoint_union_left _ _ _).mpr ⟨fun x hx => hd₁ x ((hkeys x).mp hx), hd₂⟩
  · exact fun x hx => hd' x ((hkeys x).mp hx)

theorem alloc {A : Allocator β} {b : β} {k : Nat → Prog β α}
    (hk : ∀ a, Carries (pointsTo a b * P) (k a) m Q) : Carries P (Prog.alloc A (some b) >>= k) m Q := by
  refine ⟨fun h f hd hP => ?_⟩
  have hnot := A.place_notMem (h ∪ f)
  rw [Finmap.mem_union, not_or] at hnot
  have hfree : ∀ {g : Heap β}, A.place (h ∪ f) ∉ g → (Finmap.singleton (A.place (h ∪ f)) b).Disjoint g := by
    intro g hg x hx hxg
    rw [(Finmap.mem_singleton _ _ _).mp hx] at hxg
    exact hg hxg
  have hrun := (hk (A.place (h ∪ f))).answers (Finmap.singleton (A.place (h ∪ f)) b ∪ h) f
    ((Finmap.disjoint_union_left _ _ _).mpr ⟨hfree hnot.2, hd⟩)
    ⟨_, h, hfree hnot.1, rfl, ⟨A.place_ne_zero _, rfl⟩, hP⟩
  have hins : Finmap.singleton (A.place (h ∪ f)) b ∪ h ∪ f = (h ∪ f).insert (A.place (h ∪ f)) b := by
    refine Finmap.ext_lookup fun x => ?_
    rw [Finmap.union_assoc]
    by_cases hx : x = A.place (h ∪ f)
    · subst hx
      rw [Finmap.lookup_union_left ((Finmap.mem_singleton _ _ _).mpr rfl), Finmap.lookup_singleton_eq,
        Finmap.lookup_insert]
    · rw [Finmap.lookup_union_right (mt (Finmap.mem_singleton _ _ _).mp hx), Finmap.lookup_insert_of_ne _ hx]
  rw [hins] at hrun
  exact hrun

theorem alloc_none {A : Allocator β} {k : Nat → Prog β α} (hk : Carries P (k 0) m Q) :
    Carries P (Prog.alloc A none >>= k) m Q :=
  of_step (fun h _ hd hP => ⟨h, rfl, hd, hP⟩) hk

theorem free {a : Nat} {b : β} {k : Unit → Prog β α} (hk : Carries F (k ()) m Q) :
    Carries (pointsTo a b * F) (Prog.free a >>= k) m Q := by
  refine of_step (fun h f hd hP => ?_) hk
  have hmem : a ∈ h ∪ f := Finmap.mem_of_lookup_eq_some (union_lookup hP)
  obtain ⟨_, h₂, hd', rfl, ⟨hne, rfl⟩, hF⟩ := hP
  obtain ⟨hd₁, hd₂⟩ := (Finmap.disjoint_union_left _ _ _).mp hd
  have ha : a ∈ (Finmap.singleton a b : Heap β) := (Finmap.mem_singleton a a b).mpr rfl
  have hnot : a ∉ h₂ ∪ f := by
    rw [Finmap.mem_union, not_or]
    exact ⟨hd' a ha, hd₁ a ha⟩
  refine ⟨h₂, ?_, hd₂, hF⟩
  have herase : (Finmap.singleton a b ∪ h₂ ∪ f).erase a = h₂ ∪ f := by
    refine Finmap.ext_lookup fun x => ?_
    by_cases hx : x = a
    · rw [hx, Finmap.lookup_erase, Finmap.lookup_eq_none.mpr hnot]
    · rw [Finmap.lookup_erase_ne hx, Finmap.union_assoc,
        Finmap.lookup_union_right (mt (Finmap.mem_singleton _ _ _).mp hx)]
  simp only [Prog.free, if_neg hne, if_pos hmem, herase]

theorem free_null {k : Unit → Prog β α} (hk : Carries P (k ()) m Q) : Carries P (Prog.free 0 >>= k) m Q :=
  of_step (fun h _ hd hP => ⟨h, rfl, hd, hP⟩) hk

theorem realloc {A : Allocator β} {a : Nat} {b b' : β} {k : Nat → Prog β α}
    (hk : ∀ a', Carries (pointsTo a' b' * F) (k a') m Q) :
    Carries (pointsTo a b * F) (Prog.realloc A a (some b') >>= k) m Q := by
  rw [Prog.realloc, bind_assoc]
  apply free
  exact alloc hk

theorem realloc_none {A : Allocator β} {a : Nat} {k : Nat → Prog β α} (hk : Carries P (k 0) m Q) :
    Carries P (Prog.realloc A a none >>= k) m Q :=
  of_step (fun h _ hd hP => ⟨h, rfl, hd, hP⟩) hk

/-- Both sides run the same computation on values. -/
theorem eval {x : Exec ι} {k : ι → Prog β α} {g : ι → Exec ρ} (hk : ∀ i, x = .ok i → Carries P (k i) (g i) Q) :
    Carries P (Prog.eval x >>= k) (x >>= g) Q := by
  refine ⟨fun h f hd hP => ?_⟩
  cases x with
  | error e => rfl
  | ok i => exact (hk i rfl).answers h f hd hP

theorem evaluates (x : Exec ι) : Carries (1 : Assertion β) (Prog.eval x) x fun r a => fact (a = r) := by
  have hret : Carries (1 : Assertion β) (Prog.eval x >>= pure) (x >>= pure) fun r a => fact (a = r) :=
    eval fun i _ => ret fun h hP => ⟨rfl, hP⟩
  rwa [bind_pure, bind_pure] at hret

/-- What follows computes nothing more. -/
theorem eval_last {x : Exec ρ} {k : ρ → Prog β α} (hk : ∀ r, Carries P (k r) (.ok r) Q) :
    Carries P (Prog.eval x >>= k) x Q := by
  apply after ((evaluates x).beside P)
  intro r a
  apply of_fact
  rintro rfl
  exact hk a

/-- The heap has nothing else. -/
theorem alone (hc : Carries P c m Q) {h : Heap β} (hP : P h) :
    (∀ e, m = .error e → c h = .error e) ∧ ∀ r, m = .ok r → ∃ a h', c h = .ok (a, h') ∧ Q r a h' := by
  have hrun := hc.answers h ∅ (Finmap.disjoint_empty h).symm hP
  rw [Finmap.union_empty] at hrun
  cases m with
  | error e =>
      refine ⟨fun e' he => ?_, nofun⟩
      cases he
      exact hrun
  | ok r =>
      refine ⟨nofun, fun r' hr => ?_⟩
      cases hr
      obtain ⟨a, h', hstep, _, hQ⟩ := hrun
      rw [Finmap.union_empty] at hstep
      exact ⟨a, h', hstep, hQ⟩

/-- One of the objects is used. -/
theorem pick {At : Nat → ι → Assertion β} {as : List Nat} {xs : List ι} {i : Nat} {k : Nat → Prog β α}
    {g : ι → Exec ρ} (hk : ∀ a x, as.length = xs.length → as[i]? = some a → xs[i]? = some x →
      Carries (At a x * (each At (as.eraseIdx i) (xs.eraseIdx i) * F)) (k a) (g x) Q) :
    Carries (each At as xs * F) (Prog.eval (Prog.pick as i) >>= k) (Prog.pick xs i >>= g) Q := by
  refine of_known (p := as.length = xs.length) (fun h hP => each_length hP) fun hlen => ?_
  unfold Prog.pick
  cases ha : as[i]? with
  | none =>
      have hx : xs[i]? = none := List.getElem?_eq_none (hlen ▸ List.getElem?_eq_none_iff.mp ha)
      rw [hx]
      exact fails .dangling fun h => rfl
  | some a =>
      obtain ⟨hi, _⟩ := List.getElem?_eq_some_iff.mp ha
      have hx : xs[i]? = some xs[i] := List.getElem?_eq_getElem (hlen ▸ hi)
      rw [hx]
      rw [each_erase hlen ha hx, mul_assoc]
      exact hk a xs[i] hlen ha hx

/-- The run lemma. -/
theorem foldlM {κ : Type} {step : α → κ → Prog β α} {move : ρ → κ → Exec ρ} {Q : ρ → α → Assertion β}
    (hstep : ∀ r a i, Carries (Q r a) (step a i) (move r i) Q) (r : ρ) (a : α) (is : List κ) :
    Carries (Q r a) (is.foldlM step a) (is.foldlM move r) Q := by
  induction is generalizing r a with
  | nil => exact ret fun h hP => hP
  | cons i is ih =>
      rw [List.foldlM_cons, List.foldlM_cons]
      exact bind (hstep r a i) fun r' a' _ => ih r' a'

end Carries

end

end CompileService.Base
