import CompileService.Base.CInt
import CompileService.Base.CString

/-!
# `sprintf`

Formatted output for formats of text, `%s`, `%d` and `%ld`. An argument that is read as an `int` is truncated to one.
-/

namespace CompileService.Base

/-! ## Decimal numbers -/

def digits (n : Nat) : CStr := (Nat.toDigits 10 n).map fun c => UInt8.ofNat c.toNat

def decimal (n : Int) : CStr := if n < 0 then 0x2d :: digits n.natAbs else digits n.natAbs

def isDigit (b : UInt8) : Bool := 0x30 ≤ b && b ≤ 0x39

theorem byte_of_isDigit {c : Char} (hc : c.isDigit = true) :
    isDigit (UInt8.ofNat c.toNat) = true ∧ (UInt8.ofNat c.toNat).toNat = c.toNat := by
  simp only [Char.isDigit, Bool.and_eq_true, decide_eq_true_eq, ge_iff_le, UInt32.le_iff_toNat_le] at hc
  obtain ⟨hlo, hhi⟩ : 48 ≤ c.toNat ∧ c.toNat ≤ 57 := hc
  have hbyte : (UInt8.ofNat c.toNat).toNat = c.toNat := by
    rw [UInt8.toNat_ofNat']
    omega
  refine ⟨?_, hbyte⟩
  simp only [isDigit, Bool.and_eq_true, decide_eq_true_eq, UInt8.le_iff_toNat_le, hbyte]
  exact ⟨hlo, hhi⟩

theorem isDigit_of_mem_digits {n : Nat} {b : UInt8} (hb : b ∈ digits n) : isDigit b = true := by
  obtain ⟨c, hc, rfl⟩ := List.mem_map.mp hb
  exact (byte_of_isDigit (Nat.isDigit_of_mem_toDigits (by decide) (by decide) hc)).1

theorem digits_inj {m n : Nat} (h : digits m = digits n) : m = n := by
  have hback : ∀ k, (digits k).map (fun b => Char.ofNat b.toNat) = Nat.toDigits 10 k := by
    intro k
    have hchar : ∀ c ∈ Nat.toDigits 10 k, Char.ofNat (UInt8.ofNat c.toNat).toNat = c := by
      intro c hc
      rw [(byte_of_isDigit (Nat.isDigit_of_mem_toDigits (by decide) (by decide) hc)).2, Char.ofNat_toNat]
    rw [digits, List.map_map]
    exact (List.map_congr_left hchar).trans (List.map_id _)
  rw [← Nat.ofDigitChars_ten_toDigits (n := m), ← hback, h, hback, Nat.ofDigitChars_ten_toDigits]

theorem decimal_inj {m n : Int} (h : decimal m = decimal n) : m = n := by
  have hminus : ∀ k l : Nat, 0x2d :: digits k ≠ digits l := by
    intro k l hkl
    have hdig := isDigit_of_mem_digits (hkl ▸ List.mem_cons_self : 0x2d ∈ digits l)
    exact absurd hdig (by decide)
  unfold decimal at h
  split at h
  · split at h
    · have := digits_inj (List.cons.inj h).2
      omega
    · exact absurd h (hminus _ _)
  · split at h
    · exact absurd h.symm (hminus _ _)
    · have := digits_inj h
      omega

theorem length_digits_le {n k : Nat} (hk : 0 < k) (h : n < 10 ^ k) : (digits n).length ≤ k := by
  rw [digits, List.length_map]
  exact (Nat.length_toDigits_le_iff (by decide) hk).mpr h

theorem length_decimal_le {n : Int} {k : Nat} (hk : 0 < k) (h : n.natAbs < 10 ^ k) : (decimal n).length ≤ k + 1 := by
  have hdigits := length_digits_le hk h
  unfold decimal
  split
  · exact Nat.succ_le_succ hdigits
  · exact Nat.le_succ_of_le hdigits

theorem length_decimal_toInt32 (n : Int) : (decimal (toInt32 n)).length ≤ 11 := by
  have hrange := toInt32_range n
  exact length_decimal_le (by decide) (by omega)

theorem isDigit_or_minus_of_mem_decimal {n : Int} {b : UInt8} (hb : b ∈ decimal n) :
    b = 0x2d ∨ isDigit b = true := by
  unfold decimal at hb
  split at hb
  · rcases List.mem_cons.mp hb with rfl | hb
    · exact Or.inl rfl
    · exact Or.inr (isDigit_of_mem_digits hb)
  · exact Or.inr (isDigit_of_mem_digits hb)

theorem nul_notMem_decimal (n : Int) : 0 ∉ decimal n := by
  intro h
  rcases isDigit_or_minus_of_mem_decimal h with h | h
  · exact absurd h (by decide)
  · exact absurd h (by decide)

/-! ## Formats -/

inductive Arg where
  | str (s : CStr)
  | num (n : Int)
deriving DecidableEq, Repr

/-- What `sprintf` writes, without the final NUL. -/
def printf : CStr → List Arg → CStr
  | [], _ => []
  | 0x25 :: 0x73 :: f, .str s :: args => s ++ printf f args
  | 0x25 :: 0x64 :: f, .num n :: args => decimal (toInt32 n) ++ printf f args
  | 0x25 :: 0x6c :: 0x64 :: f, .num n :: args => decimal n ++ printf f args
  | b :: f, args => b :: printf f args

theorem printf_text {w : CStr} (h : 0x25 ∉ w) (f : CStr) (args : List Arg) :
    printf (w ++ f) args = w ++ printf f args := by
  induction w with
  | nil => rfl
  | cons b w ih =>
      have hb : b ≠ 0x25 := fun hb => h (hb ▸ List.mem_cons_self)
      have hw : 0x25 ∉ w := fun hw => h (List.mem_cons_of_mem b hw)
      rw [List.cons_append, List.cons_append, ← ih hw, printf]
      · exact fun _ _ _ _ hb' => absurd hb' hb
      · exact fun _ _ _ _ hb' => absurd hb' hb
      · exact fun _ _ _ _ hb' => absurd hb' hb

theorem printf_s (s f : CStr) (args : List Arg) :
    printf (ascii "%s" ++ f) (.str s :: args) = s ++ printf f args := rfl

theorem printf_num (n : Int) : printf (ascii "%d") [.num n] = decimal (toInt32 n) ∧
    printf (ascii "%ld") [.num n] = decimal n :=
  ⟨List.append_nil _, List.append_nil _⟩

theorem printf_d (n : Int) (f : CStr) (args : List Arg) :
    printf (ascii "%d" ++ f) (.num n :: args) = decimal (toInt32 n) ++ printf f args := rfl

theorem printf_end (w : CStr) (h : 0x25 ∉ w) (args : List Arg) : printf w args = w := by
  have hw := printf_text h [] args
  simpa [printf] using hw

end CompileService.Base
