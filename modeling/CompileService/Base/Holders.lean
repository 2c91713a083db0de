import CompileService.Base.Ledger

/-!
# Handles and their holders

Some objects hold handles, each at most one, and every handle that is open is held by one of them. Opening a handle
for an object that has none and closing the one that an object has keep that.
-/

namespace CompileService.Base

section
variable {log : List (Entry Int)} {x : Int}

theorem count_openedFd (log : List (Entry Int)) (x y : Int) :
    (log ++ openedFd x).count (.opened y) = log.count (.opened y) + (if x = y ∧ y ≠ -1 then 1 else 0) ∧
      (log ++ openedFd x).count (.closed y) = log.count (.closed y) := by
  unfold openedFd
  by_cases hneg : x = -1
  · rw [if_pos hneg, List.append_nil, if_neg fun h => h.2 (h.1 ▸ hneg)]
    exact ⟨rfl, rfl⟩
  · obtain ⟨hopened, hclosed⟩ := count_opened_concat log x y
    have hiff : (x = y ∧ y ≠ -1) ↔ x = y := ⟨fun h => h.1, fun h => ⟨h, h ▸ hneg⟩⟩
    rw [if_neg hneg, hopened, hclosed, if_congr hiff rfl rfl]
    exact ⟨rfl, rfl⟩

theorem count_closedFd (log : List (Entry Int)) (x y : Int) :
    (log ++ closedFd x).count (.closed y) = log.count (.closed y) + (if x = y ∧ y ≠ -1 then 1 else 0) ∧
      (log ++ closedFd x).count (.opened y) = log.count (.opened y) := by
  unfold closedFd
  by_cases hneg : x = -1
  · rw [if_pos hneg, List.append_nil, if_neg fun h => h.2 (h.1 ▸ hneg)]
    exact ⟨rfl, rfl⟩
  · obtain ⟨hclosed, hopened⟩ := count_closed_concat log x y
    have hiff : (x = y ∧ y ≠ -1) ↔ x = y := ⟨fun h => h.1, fun h => ⟨h, h ▸ hneg⟩⟩
    rw [if_neg hneg, hopened, hclosed, if_congr hiff rfl rfl]
    exact ⟨rfl, rfl⟩

end

/-- How many holders of `x` there are; -1 is no handle. -/
def holders (held : List Int) (x : Int) : Nat := if x = -1 then 0 else held.count x

/-- Every handle that was opened has been closed or has one holder. -/
structure Owned (held : List Int) (log : List (Entry Int)) : Prop where
  turns : InTurn log
  settled : ∀ x, log.count (.opened x) = log.count (.closed x) + holders held x

section
variable {held held' : List Int} {log : List (Entry Int)} {x fd : Int}

theorem holders_cons (held : List Int) (x y : Int) :
    holders (x :: held) y = holders held y + if x = y ∧ y ≠ -1 then 1 else 0 := by
  unfold holders
  by_cases hneg : y = -1
  · rw [if_pos hneg, if_pos hneg, if_neg fun h => h.2 hneg]
  · have hiff : (x = y ∧ y ≠ -1) ↔ x = y := and_iff_left hneg
    rw [if_neg hneg, if_neg hneg, if_congr hiff rfl rfl, List.count_cons]
    simp only [beq_iff_eq]

namespace Owned

theorem nil : Owned [] [] := ⟨.nil, fun x => by simp only [holders, List.count_nil, ite_self]⟩

theorem perm (h : Owned held log) (hp : held.Perm held') : Owned held' log :=
  ⟨h.turns, fun x => by rw [h.settled, holders, holders, hp.count_eq]⟩

theorem settled_nil (h : Owned [] log) : Balanced log :=
  ⟨h.turns, fun x => by rw [h.settled, holders, List.count_nil, ite_self, Nat.add_zero]⟩

theorem live_iff (h : Owned held log) : Live log x ↔ 0 < holders held x := by
  rw [Live, h.settled]
  omega

/-- An object comes that holds nothing. -/
theorem idle (h : Owned held log) : Owned (-1 :: held) log :=
  ⟨h.turns, fun x => by rw [holders_cons, if_neg fun hx => hx.2 hx.1.symm, h.settled, Nat.add_zero]⟩

/-- An object goes that holds nothing. -/
theorem active (h : Owned (-1 :: held) log) : Owned held log := by
  refine ⟨h.turns, fun x => ?_⟩
  rw [h.settled, holders_cons, if_neg fun hx => hx.2 hx.1.symm, Nat.add_zero]

/-- An object comes with a new handle. -/
theorem opened (h : Owned held log) (hx : ¬ Live log x) : Owned (x :: held) (log ++ openedFd x) := by
  refine ⟨h.turns.openedFd hx, fun y => ?_⟩
  obtain ⟨hopened, hclosed⟩ := count_openedFd log x y
  rw [hopened, hclosed, holders_cons, h.settled, Nat.add_assoc]

theorem live_of_held (h : Owned (x :: held) log) : x = -1 ∨ Live log x := by
  by_cases hneg : x = -1
  · exact Or.inl hneg
  · rw [h.live_iff, holders_cons, if_pos ⟨rfl, hneg⟩]
    exact Or.inr (Nat.succ_pos _)

/-- An object closes its handle and goes. -/
theorem closed (h : Owned (x :: held) log) : Owned held (log ++ closedFd x) := by
  refine ⟨h.turns.closedFd h.live_of_held, fun y => ?_⟩
  obtain ⟨hclosed, hopened⟩ := count_closedFd log x y
  have hy := h.settled y
  rw [holders_cons] at hy
  rw [hopened, hclosed, hy, Nat.add_assoc, Nat.add_comm (holders held y)]

/-- A handle that nobody has is not closed. -/
theorem eq_of_stray (h : Owned held log) (h' : Owned held (log ++ closedFd x)) : x = -1 := by
  by_contra hneg
  obtain ⟨hclosed, hopened⟩ := count_closedFd log x x
  have hx := h'.settled x
  rw [hopened, hclosed, h.settled, if_pos ⟨rfl, hneg⟩] at hx
  omega

/-- An object that takes a new handle had none. -/
theorem eq_of_overwritten (h : Owned (fd :: held) log) (hx : ¬ Live log x)
    (h' : Owned (x :: held) (log ++ openedFd x)) : fd = -1 := by
  by_contra hneg
  have hfd := h'.settled fd
  obtain ⟨hopened, hclosed⟩ := count_openedFd log x fd
  have hne : x ≠ fd := by
    rintro rfl
    exact hx (h.live_of_held.resolve_left hneg)
  have hnot : ¬ (x = fd ∧ fd ≠ -1) := fun h => hne h.1
  rw [hopened, hclosed, h.settled, holders_cons, holders_cons, if_neg hnot, if_pos ⟨rfl, hneg⟩] at hfd
  omega

end Owned

end

end CompileService.Base
