import Mathlib.Data.Finset.Card
import Mathlib.Data.List.Nodup

/-!
# Ranges of equal width

A block of `s` cells is cut into ranges of `w` cells, each given by its offset. Ranges that lie in the block and do not
overlap are no more than the block has room for; ranges that come one after another lie so.
-/

namespace CompileService.Base

/-- The `w` cells from `off` on. -/
def cells (off : Int) (w : Nat) : Finset Int := (Finset.range w).image fun k : Nat => off + k

/-- The ranges of `w` cells from the offsets lie in a block of `s` cells, and no two of them share a cell. -/
structure Laid (offs : List Int) (w s : Nat) : Prop where
  inside : ∀ off ∈ offs, 0 ≤ off ∧ off + w ≤ s
  apart : offs.Pairwise fun a b => Disjoint (cells a w) (cells b w)

/-- Offsets of `n` ranges that come one after another. -/
def evenly (w n : Nat) : List Int := (List.range n).map fun i => ((i * w : Nat) : Int)

@[simp] theorem mem_cells {off x : Int} {w : Nat} : x ∈ cells off w ↔ off ≤ x ∧ x < off + w := by
  rw [cells, Finset.mem_image]
  constructor
  · rintro ⟨k, hk, rfl⟩
    rw [Finset.mem_range] at hk
    omega
  · rintro ⟨hle, hlt⟩
    exact ⟨(x - off).toNat, Finset.mem_range.mpr (by omega), by omega⟩

@[simp] theorem card_cells (off : Int) (w : Nat) : (cells off w).card = w := by
  have hinj : Function.Injective fun k : Nat => off + (k : Int) := fun i j h => by
    have hsum : off + (i : Int) = off + j := h
    omega
  rw [cells, Finset.card_image_of_injective _ hinj, Finset.card_range]

/-- Disjoint parts with at least `w` elements each: the whole has `w` elements for each of them. -/
theorem length_mul_le_card {α : Type} [DecidableEq α] {parts : List (Finset α)} {whole : Finset α} {w : Nat}
    (hparts : ∀ part ∈ parts, part ⊆ whole ∧ w ≤ part.card) (hapart : parts.Pairwise Disjoint) :
    parts.length * w ≤ whole.card := by
  induction parts generalizing whole with
  | nil =>
      rw [List.length_nil, Nat.zero_mul]
      exact Nat.zero_le whole.card
  | cons part parts ih =>
      obtain ⟨⟨hsub, hcard⟩, hparts⟩ := List.forall_mem_cons.mp hparts
      obtain ⟨hhead, hapart⟩ := List.pairwise_cons.mp hapart
      -- the other parts lie in what the first one leaves of the whole
      have hrest : ∀ part' ∈ parts, part' ⊆ whole \ part ∧ w ≤ part'.card := fun part' hmem =>
        ⟨Finset.subset_sdiff.mpr ⟨(hparts part' hmem).1, (hhead part' hmem).symm⟩, (hparts part' hmem).2⟩
      have hle := ih hrest hapart
      have hsplit := Finset.card_sdiff_add_card_eq_card hsub
      rw [List.length_cons, Nat.add_mul, Nat.one_mul]
      omega

section
variable {offs : List Int} {w n s : Nat}

theorem Laid.mul_le (h : Laid offs w s) : offs.length * w ≤ s := by
  have hparts : ∀ part ∈ offs.map fun off => cells off w, part ⊆ cells 0 s ∧ w ≤ part.card := by
    intro part hpart
    obtain ⟨off, hoff, rfl⟩ := List.mem_map.mp hpart
    have hinside := h.inside off hoff
    refine ⟨fun x hx => ?_, Nat.le_of_eq (card_cells off w).symm⟩
    rw [mem_cells] at hx ⊢
    omega
  have hle := length_mul_le_card hparts (List.pairwise_map.mpr h.apart)
  rwa [List.length_map, card_cells] at hle

theorem cells_disjoint {a b : Int} (h : a + w ≤ b) : Disjoint (cells a w) (cells b w) := by
  refine Finset.disjoint_left.mpr fun x hx hx' => ?_
  rw [mem_cells] at hx hx'
  omega

/-- The range `i` ends where the next one begins, at the latest where the range `j` begins. -/
theorem mul_add_le_mul {i j : Nat} (w : Nat) (hij : i < j) : i * w + w ≤ j * w := by
  have hle : (i + 1) * w ≤ j * w := Nat.mul_le_mul_right w hij
  rwa [Nat.add_mul, Nat.one_mul] at hle

theorem laid_evenly (h : n * w ≤ s) : Laid (evenly w n) w s where
  inside := by
    intro off hoff
    obtain ⟨i, hi, rfl⟩ := List.mem_map.mp hoff
    have hend := mul_add_le_mul w (List.mem_range.mp hi)
    omega
  apart := by
    refine List.pairwise_map.mpr (List.pairwise_lt_range.imp fun {i j} hij => cells_disjoint ?_)
    have hend := mul_add_le_mul w hij
    omega

end

end CompileService.Base
