import CompileService.Base.CInt
import Mathlib.Data.List.Basic

/-!
# Bytes in memory

A block of memory is the list of its bytes. An access outside its block has no meaning in C; it ends
the run with a `Fault`. The second half is the codec of unsigned integers in `w` bytes: `leBytes` is the
order of the host (little endian), and reversing the bytes gives the order of the network.
-/

namespace CompileService.Base

/-! ## Faults -/

/-- What ends a run because C gives it no meaning. -/
inductive Fault where
  /-- an access outside the object -/
  | bounds
  /-- a use of an object after it was freed -/
  | dangling
deriving DecidableEq, Repr

/-- A computation that may end in a fault. -/
abbrev Exec (α : Type) := Except Fault α

theorem Exec.bind_eq_ok {α β : Type} {x : Exec α} {f : α → Exec β} {b : β} :
    (x >>= f) = .ok b ↔ ∃ a, x = .ok a ∧ f a = .ok b := by
  cases x <;> simp [bind, Except.bind]

@[simp] theorem Exec.ok_bind {α β : Type} (a : α) (f : α → Exec β) :
    ((.ok a : Exec α) >>= f) = f a := rfl

@[simp] theorem Exec.error_bind {α β : Type} (e : Fault) (f : α → Exec β) :
    ((.error e : Exec α) >>= f) = .error e := rfl

theorem Exec.bind_ne_error {α β : Type} {x : Exec α} {f : α → Exec β} {e : Fault} (hx : x ≠ .error e)
    (hf : ∀ a, f a ≠ .error e) : (x >>= f) ≠ .error e := by
  cases x with
  | error e' =>
      rw [Exec.error_bind]
      rintro ⟨⟩
      exact hx rfl
  | ok a => exact hf a

theorem Exec.bind_ok_eq_map {α β : Type} (x : Exec α) (f : α → β) : (x >>= fun a => .ok (f a)) = x.map f := by
  cases x <;> rfl

/-! ## Writing into a block -/

/-- `malloc`: `none` is a null pointer, a block of the size asked for has arbitrary contents. -/
abbrev Malloc := (n : Nat) → Option (Vector UInt8 n)

def ptrdiffMax : Nat := 2 ^ 63 - 1

/-- Allocations succeed: `malloc` has a block of every size that a block can have. -/
def Malloc.Serves (malloc : Malloc) : Prop := ∀ n ≤ ptrdiffMax, malloc n ≠ none

/-- Allocations succeed exactly for the sizes that a block can have; glibc gives no larger ones. -/
structure Malloc.Succeeds (malloc : Malloc) : Prop where
  serves : malloc.Serves
  bounded : ∀ n, ptrdiffMax < n → malloc n = none

def Malloc.zeroed : Malloc := fun n => some (Vector.replicate n 0)

theorem Malloc.zeroed_serves : Malloc.zeroed.Serves := by
  intro n _
  exact Option.some_ne_none _

def Malloc.cleared : Malloc := fun n => if n ≤ ptrdiffMax then Malloc.zeroed n else none

theorem Malloc.cleared_succeeds : Malloc.cleared.Succeeds where
  serves := fun n hn => by simp [Malloc.cleared, Malloc.zeroed, hn]
  bounded := fun _ hn => if_neg (Nat.not_le.mpr hn)

def writeAt (blk : List UInt8) (off : Nat) (data : List UInt8) : List UInt8 :=
  blk.take off ++ data ++ blk.drop (off + data.length)

section writeAt
variable {blk data : List UInt8} {off : Nat}

theorem length_writeAt (h : off + data.length ≤ blk.length) :
    (writeAt blk off data).length = blk.length := by
  simp [writeAt]
  omega

theorem take_writeAt (h : off + data.length ≤ blk.length) :
    (writeAt blk off data).take (off + data.length) = blk.take off ++ data := by
  have hlen : (blk.take off ++ data).length = off + data.length := by simp; omega
  rw [writeAt, List.take_append_of_le_length (by omega), List.take_of_length_le (by omega)]

theorem drop_writeAt (h : off + data.length ≤ blk.length) :
    (writeAt blk off data).drop (off + data.length) = blk.drop (off + data.length) := by
  have hlen : (blk.take off ++ data).length = off + data.length := by simp; omega
  rw [writeAt, ← hlen, List.drop_left]

theorem writeAt_nil (blk : List UInt8) (off : Nat) : writeAt blk off [] = blk := by
  simp [writeAt]

theorem writeAt_writeAt (data' : List UInt8) (h : off + data.length ≤ blk.length) :
    writeAt (writeAt blk off data) (off + data.length) data' = writeAt blk off (data ++ data') := by
  have hdrop : (writeAt blk off data).drop (off + data.length + data'.length) =
      blk.drop (off + (data ++ data').length) := by
    rw [← List.drop_drop, drop_writeAt h, List.drop_drop, List.length_append, Nat.add_assoc]
  rw [writeAt, take_writeAt h, hdrop, writeAt, List.append_assoc (blk.take off)]

end writeAt

/-- `memcpy(dst + off, src, len)`: both ranges must lie inside their blocks. -/
def memcpy (dst : List UInt8) (off : Int) (src : List UInt8) (len : Int) : Exec (List UInt8) :=
  if 0 ≤ off ∧ off.toNat + toSize len ≤ dst.length ∧ toSize len ≤ src.length then
    .ok (writeAt dst off.toNat (src.take (toSize len)))
  else .error .bounds

theorem memcpy_eq {dst src : List UInt8} {off n : Nat} (hdst : off + n ≤ dst.length)
    (hsrc : n ≤ src.length) (hn : n < 2 ^ 64) :
    memcpy dst off src n = .ok (writeAt dst off (src.take n)) := by
  have hs : toSize (n : Int) = n := toSize_natCast hn
  simp [memcpy, hs, hdst, hsrc]

theorem memcpy_ok {dst src out : List UInt8} {off len : Int} (h : memcpy dst off src len = .ok out) :
    0 ≤ off ∧ off.toNat + toSize len ≤ dst.length ∧ toSize len ≤ src.length ∧
      out = writeAt dst off.toNat (src.take (toSize len)) := by
  unfold memcpy at h
  split at h
  · rename_i hc
    cases h
    exact ⟨hc.1, hc.2.1, hc.2.2, rfl⟩
  · cases h

theorem memcpy_ne_dangling (dst : List UInt8) (off : Int) (src : List UInt8) (len : Int) :
    memcpy dst off src len ≠ .error .dangling := by
  unfold memcpy
  split <;> nofun

/-- `realloc(old, n)`: the new block begins with what fits of the old one; what comes after it is arbitrary. -/
def Malloc.realloc (malloc : Malloc) (old : List UInt8) (n : Nat) : Option (List UInt8) :=
  (malloc n).map fun blk => old.take n ++ blk.toList.drop old.length

theorem Malloc.realloc_some {malloc : Malloc} {n : Nat} (h : malloc n ≠ none) (old : List UInt8) :
    ∃ blk, malloc.realloc old n = some blk ∧ blk.length = n ∧
      ∀ k, k ≤ n → k ≤ old.length → blk.take k = old.take k := by
  obtain ⟨fresh, hfresh⟩ := Option.ne_none_iff_exists'.mp h
  refine ⟨old.take n ++ fresh.toList.drop old.length, by rw [Malloc.realloc, hfresh]; rfl, ?_, ?_⟩
  · rw [List.length_append, List.length_take, List.length_drop, Vector.length_toList]
    omega
  · intro k hkn hk
    rw [List.take_append_of_le_length (by rw [List.length_take]; omega), List.take_take, Nat.min_eq_left hkn]

/-! ## Integers in bytes -/

/-- The `w` low bytes of `n`, the least significant first. -/
def leBytes : Nat → Nat → List UInt8
  | 0, _ => []
  | w + 1, n => UInt8.ofNat n :: leBytes w (n / 256)

def leNat : List UInt8 → Nat
  | [] => 0
  | b :: bs => b.toNat + 256 * leNat bs

/-- The `w`-byte number with the bytes of `n` in the opposite order. -/
def swapBytes (w n : Nat) : Nat := leNat (leBytes w n).reverse

@[simp] theorem length_leBytes (w n : Nat) : (leBytes w n).length = w := by
  induction w generalizing n with
  | zero => rfl
  | succ w ih => simp [leBytes, ih]

theorem leNat_lt (bs : List UInt8) : leNat bs < 256 ^ bs.length := by
  induction bs with
  | nil => simp [leNat]
  | cons b bs ih =>
      have hb := b.toNat_lt
      simp only [leNat, List.length_cons, Nat.pow_succ]
      omega

@[simp] theorem leNat_leBytes (w n : Nat) : leNat (leBytes w n) = n % 256 ^ w := by
  induction w generalizing n with
  | zero => simp [leBytes, leNat, Nat.mod_one]
  | succ w ih =>
      have hpow : 256 ^ (w + 1) = 256 * 256 ^ w := by rw [Nat.pow_succ, Nat.mul_comm]
      simp only [leBytes, leNat, ih, UInt8.toNat_ofNat', hpow, Nat.mod_mul]

@[simp] theorem leBytes_leNat (bs : List UInt8) : leBytes bs.length (leNat bs) = bs := by
  induction bs with
  | nil => rfl
  | cons b bs ih =>
      have hb := b.toNat_lt
      have hdiv : (b.toNat + 256 * leNat bs) / 256 = leNat bs := by omega
      have hmod : UInt8.ofNat (b.toNat + 256 * leNat bs) = b := by
        apply UInt8.toNat.inj
        simp only [UInt8.toNat_ofNat']
        omega
      simp only [List.length_cons, leNat, leBytes, hdiv, hmod, ih]

theorem leBytes_of_length {w : Nat} {bs : List UInt8} (h : bs.length = w) :
    leBytes w (leNat bs) = bs := by
  rw [← h, leBytes_leNat]

theorem swapBytes_lt (w n : Nat) : swapBytes w n < 256 ^ w := by
  simpa [swapBytes] using leNat_lt (leBytes w n).reverse

theorem leBytes_swapBytes (w n : Nat) : leBytes w (swapBytes w n) = (leBytes w n).reverse :=
  leBytes_of_length (by simp)

theorem swapBytes_swapBytes {w n : Nat} (h : n < 256 ^ w) : swapBytes w (swapBytes w n) = n := by
  rw [swapBytes, leBytes_swapBytes, List.reverse_reverse, leNat_leBytes, Nat.mod_eq_of_lt h]

end CompileService.Base
