import Mathlib.Data.List.Basic
import Mathlib.Data.List.Nodup

/-!
# Ledgers of handles

Handles are opened and closed again, and the number of a handle that was closed may be given out once more. The
ledger of a run has both kinds of events in their order. A handle that is still to be closed is live; a ledger in
which every number is opened and closed in turn closes each handle at most once.
-/

namespace CompileService.Base

/-- What happens to a handle. -/
inductive Entry (δ : Type) where
  | opened (x : δ)
  | closed (x : δ)
deriving DecidableEq, Repr

section
variable {δ : Type} [DecidableEq δ]

/-- After the events `l` the handle `x` is open. -/
def Live (l : List (Entry δ)) (x : δ) : Prop := l.count (Entry.closed x) < l.count (Entry.opened x)

instance (l : List (Entry δ)) (x : δ) : Decidable (Live l x) := inferInstanceAs (Decidable (_ < _))

/-- Each number is opened and closed in turn, beginning with an opening. -/
def InTurn (l : List (Entry δ)) : Prop :=
  ∀ pre, pre <+: l → ∀ x, pre.count (Entry.closed x) ≤ pre.count (Entry.opened x) ∧
    pre.count (Entry.opened x) ≤ pre.count (Entry.closed x) + 1

/-- In turn, and at the end everything that was opened is closed. -/
structure Balanced (l : List (Entry δ)) : Prop where
  turns : InTurn l
  settled : ∀ x, l.count (Entry.closed x) = l.count (Entry.opened x)

variable {l l' : List (Entry δ)} {x y : δ}

theorem InTurn.nil : InTurn ([] : List (Entry δ)) := by
  intro pre hpre y
  rw [List.prefix_nil.mp hpre]
  exact ⟨Nat.le_refl 0, Nat.zero_le 1⟩

theorem InTurn.initial (h : InTurn l') (hl : l <+: l') : InTurn l := fun pre hpre => h pre (hpre.trans hl)

theorem InTurn.snoc {e : Entry δ} (h : InTurn l)
    (he : ∀ y, (l ++ [e]).count (Entry.closed y) ≤ (l ++ [e]).count (Entry.opened y) ∧
      (l ++ [e]).count (Entry.opened y) ≤ (l ++ [e]).count (Entry.closed y) + 1) : InTurn (l ++ [e]) := by
  intro pre hpre y
  rcases List.prefix_concat_iff.mp hpre with rfl | hpre
  · exact he y
  · exact h pre hpre y

theorem count_opened_concat (l : List (Entry δ)) (x y : δ) :
    (l ++ [Entry.opened x]).count (Entry.opened y) = l.count (Entry.opened y) + (if x = y then 1 else 0) ∧
      (l ++ [Entry.opened x]).count (Entry.closed y) = l.count (Entry.closed y) := by
  simp [List.count_append, List.count_singleton]

theorem count_closed_concat (l : List (Entry δ)) (x y : δ) :
    (l ++ [Entry.closed x]).count (Entry.closed y) = l.count (Entry.closed y) + (if x = y then 1 else 0) ∧
      (l ++ [Entry.closed x]).count (Entry.opened y) = l.count (Entry.opened y) := by
  simp [List.count_append, List.count_singleton]

/-! ## One event -/

theorem InTurn.opened (h : InTurn l) (hx : ¬ Live l x) : InTurn (l ++ [Entry.opened x]) := by
  refine h.snoc fun y => ?_
  obtain ⟨hlo, hhi⟩ := h l List.prefix_rfl y
  obtain ⟨hopened, hclosed⟩ := count_opened_concat l x y
  rw [hopened, hclosed]
  unfold Live at hx
  split
  · rename_i hxy
    subst hxy
    omega
  · omega

theorem InTurn.closed (h : InTurn l) (hx : Live l x) : InTurn (l ++ [Entry.closed x]) := by
  refine h.snoc fun y => ?_
  obtain ⟨hlo, hhi⟩ := h l List.prefix_rfl y
  obtain ⟨hclosed, hopened⟩ := count_closed_concat l x y
  rw [hopened, hclosed]
  unfold Live at hx
  split
  · rename_i hxy
    subst hxy
    omega
  · omega

/-- Only what is live can be closed. -/
theorem InTurn.live_of_closed (h : InTurn (l ++ Entry.closed x :: l')) : Live l x := by
  have hpre : l ++ [Entry.closed x] <+: l ++ Entry.closed x :: l' := ⟨l', by simp⟩
  have hcount := (h _ hpre x).1
  obtain ⟨hclosed, hopened⟩ := count_closed_concat l x x
  rw [hclosed, hopened, if_pos rfl] at hcount
  exact hcount

theorem InTurn.live_opened (h : InTurn l) : Live (l ++ [Entry.opened x]) y ↔ y = x ∨ Live l y := by
  obtain ⟨hlo, _⟩ := h l List.prefix_rfl y
  obtain ⟨hopened, hclosed⟩ := count_opened_concat l x y
  unfold Live
  rw [hopened, hclosed]
  split
  · rename_i hxy
    exact iff_of_true (Nat.lt_succ_of_le hlo) (.inl hxy.symm)
  · rename_i hxy
    exact ⟨.inr, fun hy => hy.resolve_left (Ne.symm hxy)⟩

theorem InTurn.live_closed (h : InTurn l) : Live (l ++ [Entry.closed x]) y ↔ y ≠ x ∧ Live l y := by
  obtain ⟨_, hhi⟩ := h l List.prefix_rfl y
  obtain ⟨hclosed, hopened⟩ := count_closed_concat l x y
  unfold Live
  rw [hopened, hclosed]
  split
  · rename_i hxy
    exact iff_of_false (by omega) fun hy => hy.1 hxy.symm
  · rename_i hxy
    exact ⟨fun hy => ⟨Ne.symm hxy, hy⟩, fun hy => hy.2⟩

/-! ## Several events -/

theorem InTurn.closedAll {xs : List δ} (h : InTurn l) (hnodup : xs.Nodup) (hlive : ∀ x ∈ xs, Live l x) :
    InTurn (l ++ xs.map Entry.closed) ∧ ∀ y, Live (l ++ xs.map Entry.closed) y ↔ y ∉ xs ∧ Live l y := by
  induction xs generalizing l with
  | nil => simpa using h
  | cons x xs ih =>
      obtain ⟨hx, hnodup⟩ := List.nodup_cons.mp hnodup
      obtain ⟨hlivex, hlive⟩ := List.forall_mem_cons.mp hlive
      have hrest : ∀ y ∈ xs, Live (l ++ [Entry.closed x]) y := by
        intro y hy
        refine h.live_closed.mpr ⟨?_, hlive y hy⟩
        rintro rfl
        exact hx hy
      obtain ⟨hturns, hiff⟩ := ih (h.closed hlivex) hnodup hrest
      have happ : l ++ (x :: xs).map Entry.closed = l ++ [Entry.closed x] ++ xs.map Entry.closed := by simp
      rw [happ]
      refine ⟨hturns, fun y => ?_⟩
      rw [hiff y, h.live_closed, List.mem_cons, not_or]
      exact ⟨fun ⟨hy, hne, hl⟩ => ⟨⟨hne, hy⟩, hl⟩, fun ⟨⟨hne, hy⟩, hl⟩ => ⟨hy, hne, hl⟩⟩

/-- Later events about other handles leave a handle live. -/
theorem Live.append (h : Live l x) (hx : Entry.closed x ∉ l') : Live (l ++ l') x := by
  unfold Live at *
  rw [List.count_append, List.count_append, List.count_eq_zero.mpr hx]
  omega

theorem balanced_iff : Balanced l ↔ InTurn l ∧ ∀ x, ¬ Live l x := by
  constructor
  · rintro ⟨hturns, hsettled⟩
    exact ⟨hturns, fun x hx => Nat.ne_of_lt hx (hsettled x)⟩
  · rintro ⟨hturns, hlive⟩
    exact ⟨hturns, fun x => Nat.le_antisymm (hturns l List.prefix_rfl x).1 (Nat.le_of_not_lt (hlive x))⟩

end

/-! ## Descriptors -/

/-- The result of a call that opens a descriptor; it fails with -1. -/
def openedFd (fd : Int) : List (Entry Int) := if fd = -1 then [] else [.opened fd]

/-- A call of `close`, which has no effect on -1. -/
def closedFd (fd : Int) : List (Entry Int) := if fd = -1 then [] else [.closed fd]

section
variable {l l' : List (Entry Int)} {fd x : Int}

theorem InTurn.openedFd (h : InTurn l) (hfd : ¬ Live l fd) : InTurn (l ++ CompileService.Base.openedFd fd) := by
  unfold CompileService.Base.openedFd
  split
  · rwa [List.append_nil]
  · exact h.opened hfd

theorem InTurn.live_openedFd (h : InTurn l) :
    Live (l ++ CompileService.Base.openedFd fd) x ↔ x = fd ∧ fd ≠ -1 ∨ Live l x := by
  unfold CompileService.Base.openedFd
  split
  · rename_i hfd
    rw [List.append_nil]
    exact ⟨.inr, fun hx => hx.resolve_left fun hx => hx.2 hfd⟩
  · rename_i hfd
    rw [h.live_opened]
    exact or_congr_left ⟨fun hx => ⟨hx, hfd⟩, fun hx => hx.1⟩

theorem Live.openedFd (h : Live l x) (fd : Int) : Live (l ++ CompileService.Base.openedFd fd) x := by
  refine h.append fun hx => ?_
  unfold CompileService.Base.openedFd at hx
  split at hx
  · cases hx
  · cases List.mem_singleton.mp hx

theorem InTurn.closedFd (h : InTurn l) (hfd : fd = -1 ∨ Live l fd) :
    InTurn (l ++ CompileService.Base.closedFd fd) := by
  unfold CompileService.Base.closedFd
  split
  · rwa [List.append_nil]
  · rename_i hne
    exact h.closed (hfd.resolve_left hne)

theorem InTurn.live_closedFd (h : InTurn l) (hneg : ¬ Live l (-1)) :
    Live (l ++ CompileService.Base.closedFd fd) x ↔ x ≠ fd ∧ Live l x := by
  unfold CompileService.Base.closedFd
  split
  · rename_i hfd
    subst hfd
    rw [List.append_nil]
    exact ⟨fun hx => ⟨fun heq => hneg (heq ▸ hx), hx⟩, fun hx => hx.2⟩
  · exact h.live_closed

end

end CompileService.Base
