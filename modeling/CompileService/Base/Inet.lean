import Mathlib.Algebra.Order.Ring.Int
import Mathlib.Data.List.TakeWhile

/-!
# Internet addresses as text

`inet_addr` reads the numbers-and-dots notation: one to four numbers, each decimal, octal or hexadecimal, the last of
which fills the bytes that are left. Text after a white space is not looked at. What it cannot read is
`INADDR_NONE`.
-/

namespace CompileService.Base

/-- The four bytes of an address, in the order of the network. -/
abbrev Octets := UInt8 × UInt8 × UInt8 × UInt8

def octets (n : Nat) : Octets :=
  (UInt8.ofNat (n / 2 ^ 24), UInt8.ofNat (n / 2 ^ 16), UInt8.ofNat (n / 2 ^ 8), UInt8.ofNat n)

def inaddrNone : Octets := (255, 255, 255, 255)

def digitValue (c : Char) : Nat :=
  if c.isDigit then c.toNat - '0'.toNat else c.toLower.toNat - 'a'.toNat + 10

/-- The value of digits, all of them below `base`; there is no number without digits. -/
def numeral (base : Nat) (cs : List Char) : Option Nat :=
  if cs ≠ [] ∧ cs.all (fun c => c.isAlphanum && digitValue c < base) then
    some (cs.foldl (fun n c => base * n + digitValue c) 0)
  else none

/-- A number, whose base is seen from its beginning. -/
def inetNumber : List Char → Option Nat
  | '0' :: 'x' :: cs => numeral 16 cs
  | '0' :: 'X' :: cs => numeral 16 cs
  | '0' :: cs => numeral 8 ('0' :: cs)
  | cs => numeral 10 cs

/-- The address of the numbers; all but the last one are bytes. -/
def inetParts : List Nat → Option Nat
  | [a] => if a < 2 ^ 32 then some a else none
  | [a, b] => if a < 2 ^ 8 ∧ b < 2 ^ 24 then some (a * 2 ^ 24 + b) else none
  | [a, b, c] => if a < 2 ^ 8 ∧ b < 2 ^ 8 ∧ c < 2 ^ 16 then some (a * 2 ^ 24 + b * 2 ^ 16 + c) else none
  | [a, b, c, d] =>
      if a < 2 ^ 8 ∧ b < 2 ^ 8 ∧ c < 2 ^ 8 ∧ d < 2 ^ 8 then
        some (a * 2 ^ 24 + b * 2 ^ 16 + c * 2 ^ 8 + d)
      else none
  | _ => none

/-- `isspace`: the blank, and the tab to the carriage return. -/
def isBlank (c : Char) : Bool := c = ' ' || 9 ≤ c.toNat && c.toNat ≤ 13

def inetAddr (s : String) : Octets :=
  let parts := ((s.toList.takeWhile (fun c => !isBlank c)).splitOn '.').mapM inetNumber
  ((parts.bind inetParts).map octets).getD inaddrNone

/-! ## Four decimal numbers -/

/-- The text of an address in decimal numbers. -/
def dotted (a : Octets) : List Char :=
  ['.'].intercalate ([a.1, a.2.1, a.2.2.1, a.2.2.2].map fun b => Nat.toDigits 10 b.toNat)

theorem isDigit_of_mem {n : Nat} {c : Char} (h : c ∈ Nat.toDigits 10 n) : c.isDigit = true :=
  Nat.isDigit_of_mem_toDigits (by decide) (by decide) h

theorem inetNumber_toDigits : ∀ n : Fin 256, inetNumber (Nat.toDigits 10 n) = some n.val := by
  decide +kernel

theorem inetNumber_byte (b : UInt8) : inetNumber (Nat.toDigits 10 b.toNat) = some b.toNat :=
  inetNumber_toDigits ⟨b.toNat, b.toNat_lt⟩

theorem octets_bytes (a b c d : UInt8) :
    octets (a.toNat * 2 ^ 24 + b.toNat * 2 ^ 16 + c.toNat * 2 ^ 8 + d.toNat) = (a, b, c, d) := by
  have ha := a.toNat_lt
  have hb := b.toNat_lt
  have hc := c.toNat_lt
  have hd := d.toNat_lt
  simp only [octets, Prod.mk.injEq]
  refine ⟨?_, ?_, ?_, ?_⟩
  · apply UInt8.toNat_inj.mp
    rw [UInt8.toNat_ofNat']
    omega
  · apply UInt8.toNat_inj.mp
    rw [UInt8.toNat_ofNat']
    omega
  · apply UInt8.toNat_inj.mp
    rw [UInt8.toNat_ofNat']
    omega
  · apply UInt8.toNat_inj.mp
    rw [UInt8.toNat_ofNat']
    omega

theorem splitOn_dotted (a : Octets) : (dotted a).splitOn '.' =
    [a.1, a.2.1, a.2.2.1, a.2.2.2].map fun b => Nat.toDigits 10 b.toNat := by
  refine List.splitOn_intercalate '.' ?_ (List.cons_ne_nil _ _)
  intro l hl hdot
  obtain ⟨b, _, rfl⟩ := List.mem_map.mp hl
  exact absurd (isDigit_of_mem hdot) (by decide)

theorem not_isBlank_of_mem {a : Octets} {c : Char} (h : c ∈ dotted a) : isBlank c = false := by
  have hcase : c = '.' ∨ c.isDigit = true := by
    simp only [dotted, List.intercalate, List.map_cons, List.map_nil, List.intersperse, List.flatten_cons,
      List.flatten_nil, List.mem_append, List.mem_singleton, List.append_nil] at h
    rcases h with h | h | h | h | h | h | h
    · exact .inr (isDigit_of_mem h)
    · exact .inl h
    · exact .inr (isDigit_of_mem h)
    · exact .inl h
    · exact .inr (isDigit_of_mem h)
    · exact .inl h
    · exact .inr (isDigit_of_mem h)
  rcases hcase with rfl | hdigit
  · rfl
  · simp only [Char.isDigit, Bool.and_eq_true, decide_eq_true_eq, ge_iff_le, UInt32.le_iff_toNat_le] at hdigit
    obtain ⟨hlo, hhi⟩ : 48 ≤ c.toNat ∧ c.toNat ≤ 57 := hdigit
    have hne : c ≠ ' ' := by
      rintro rfl
      exact absurd hlo (by decide)
    simp only [isBlank, hne, decide_false, Bool.false_or, Bool.and_eq_false_iff, decide_eq_false_iff_not]
    omega

/-- What is printed as four decimal numbers is read back. -/
theorem inetAddr_dotted {s : String} {a : Octets} (hs : s.toList = dotted a) : inetAddr s = a := by
  have hall : (dotted a).takeWhile (fun c => !isBlank c) = dotted a := by
    rw [List.takeWhile_eq_self_iff]
    intro c hc
    rw [not_isBlank_of_mem hc]
    rfl
  obtain ⟨b₁, b₂, b₃, b₄⟩ := a
  have hparts : inetParts [b₁.toNat, b₂.toNat, b₃.toNat, b₄.toNat] =
      some (b₁.toNat * 2 ^ 24 + b₂.toNat * 2 ^ 16 + b₃.toNat * 2 ^ 8 + b₄.toNat) :=
    if_pos ⟨b₁.toNat_lt, b₂.toNat_lt, b₃.toNat_lt, b₄.toNat_lt⟩
  rw [inetAddr, hs, hall, splitOn_dotted]
  simp only [List.map_cons, List.map_nil, List.mapM_cons, List.mapM_nil, inetNumber_byte, Option.pure_def,
    Option.bind_eq_bind, Option.bind_some, hparts, Option.map_some, Option.getD_some, octets_bytes]

example : inetAddr "10.0.0.2" = (10, 0, 0, 2) ∧ inetAddr "0x7f.1" = (127, 0, 0, 1) ∧
    inetAddr "1.2.3.256" = inaddrNone := by
  decide

end CompileService.Base
