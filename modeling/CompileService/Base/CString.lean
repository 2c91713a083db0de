import CompileService.Base.Bytes
import Mathlib.Data.List.TakeWhile

/-!
# C strings

A string is the list of its bytes without the final NUL.
-/

namespace CompileService.Base

abbrev CStr := List UInt8

def ascii (s : String) : CStr := s.toList.map fun c => UInt8.ofNat c.toNat

abbrev slash : UInt8 := 0x2f

def untilNul (mem : List UInt8) : CStr := mem.takeWhile (· ≠ 0)

/-- The string that a block holds; a block without a NUL is read past its end. -/
def cstr (mem : List UInt8) : Exec CStr := if 0 ∈ mem then .ok (untilNul mem) else .error .bounds

/-- A string whose length is 0 as an `int`. -/
def fourGiB : CStr := List.replicate (2 ^ 32) 0x61

theorem length_fourGiB : fourGiB.length = 2 ^ 32 := List.length_replicate

theorem fourGiB_ne_nil : fourGiB ≠ [] := by
  intro hnil
  have hlen := length_fourGiB
  rw [hnil, List.length_nil] at hlen
  omega

theorem toInt32_fourGiB : toInt32 fourGiB.length = 0 := by
  rw [length_fourGiB]
  decide

theorem mem_fourGiB {b : UInt8} (h : b ∈ fourGiB) : b = 0x61 := (List.mem_replicate.mp h).2

theorem nul_notMem_untilNul (mem : List UInt8) : 0 ∉ untilNul mem := by
  intro h
  simpa using List.mem_takeWhile_imp h

theorem untilNul_append {s : CStr} (h : 0 ∉ s) (mem : List UInt8) : untilNul (s ++ mem) = s ++ untilNul mem := by
  refine List.takeWhile_append_of_pos (fun b hb => ?_)
  rw [decide_eq_true_iff]
  rintro rfl
  exact h hb

theorem untilNul_append_nul (s mem : List UInt8) : untilNul (s ++ 0 :: mem) = untilNul s := by
  induction s with
  | nil => rfl
  | cons b s ih =>
      rw [List.cons_append, untilNul, untilNul, List.takeWhile_cons, List.takeWhile_cons]
      exact congrArg (fun t => if decide (b ≠ 0) = true then b :: t else []) ih

theorem cstr_append_nul (s mem : List UInt8) : cstr (s ++ 0 :: mem) = .ok (untilNul s) := by
  rw [cstr, if_pos (List.mem_append_right s List.mem_cons_self), untilNul_append_nul]

theorem cstr_append_self {s : CStr} (h : 0 ∉ s) (mem : List UInt8) : cstr (s ++ 0 :: mem) = .ok s := by
  have hself := untilNul_append h []
  rw [List.append_nil] at hself
  rw [cstr_append_nul, hself]
  exact congrArg Except.ok (List.append_nil s)

end CompileService.Base
