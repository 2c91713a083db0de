import CompileService.Base.Bytes
import Mathlib.Data.Stream.Defs

/-!
# Descriptors that can be read

`read` is a system call: what it returns is up to the kernel and the peer. `Readable` is a descriptor with
any behaviour at all within the contract of `read`; `ByteStream` is one whose bytes come off a fixed stream
in order. `Sock` is the stream socket that runs and witnesses use: its schedule is arbitrary.
-/

namespace CompileService.Base

/-- A descriptor. `read s n` asks for `n` bytes: `none` is a return of -1, `some bs` of `bs.length`. -/
class Readable (σ : Type) where
  read : σ → Nat → Option (List UInt8) × σ
  length_le : ∀ s n bs, (read s n).1 = some bs → bs.length ≤ n

/-- A descriptor that delivers the bytes of a queue in order. -/
class ByteStream (σ : Type) extends Readable σ where
  inbox : σ → List UInt8
  inbox_read : ∀ s n, inbox s = (read s n).1.getD [] ++ inbox (read s n).2

/-! ## Sequences of reads -/

/-- Some reads, one after another, lead from `s` to `s'` and deliver `bs`. -/
inductive Reads {σ : Type} [Readable σ] : σ → List UInt8 → σ → Prop where
  | nil {s} : Reads s [] s
  | cons {s bs s'} (n : Nat) : Reads (Readable.read s n).2 bs s' →
      Reads s ((Readable.read s n).1.getD [] ++ bs) s'

theorem Reads.of_read {σ : Type} [Readable σ] {s s₁ s' : σ} {n : Nat} {r : Option (List UInt8)}
    {bs : List UInt8} (h : Readable.read s n = (r, s₁)) (h' : Reads s₁ bs s') :
    Reads s (r.getD [] ++ bs) s' := by
  have hc := Reads.cons (s := s) n (by rw [h]; exact h')
  rwa [h] at hc

theorem Reads.trans {σ : Type} [Readable σ] {s s' s'' : σ} {bs bs' : List UInt8}
    (h : Reads s bs s') (h' : Reads s' bs' s'') : Reads s (bs ++ bs') s'' := by
  induction h with
  | nil => exact h'
  | cons n _ ih =>
      rw [List.append_assoc]
      exact .cons n (ih h')

theorem Reads.inbox_eq {σ : Type} [ByteStream σ] {s s' : σ} {bs : List UInt8} (h : Reads s bs s') :
    ByteStream.inbox s = bs ++ ByteStream.inbox s' := by
  induction h with
  | nil => rfl
  | cons n _ ih => rw [List.append_assoc, ← ih, ← ByteStream.inbox_read]

/-! ## Traces -/

/-- A descriptor together with what the reads on it have returned. -/
structure Traced (σ : Type) where
  io : σ
  log : List (Option (List UInt8))

/-- The bytes of some reads. -/
def delivered (log : List (Option (List UInt8))) : List UInt8 := log.flatMap (Option.getD · [])

instance {σ : Type} [Readable σ] : Readable (Traced σ) where
  read t n := ((Readable.read t.io n).1, ⟨(Readable.read t.io n).2, t.log ++ [(Readable.read t.io n).1]⟩)
  length_le t n bs h := Readable.length_le t.io n bs h

theorem Traced.read_eq {σ : Type} [Readable σ] {t t' : Traced σ} {n : Nat} {r : Option (List UInt8)}
    (h : Readable.read t n = (r, t')) : Readable.read t.io n = (r, t'.io) ∧ t'.log = t.log ++ [r] := by
  obtain ⟨rfl, rfl⟩ := Prod.mk.inj h
  exact ⟨rfl, rfl⟩

theorem delivered_cons (r : Option (List UInt8)) (log : List (Option (List UInt8))) :
    delivered (r :: log) = r.getD [] ++ delivered log := List.flatMap_cons

/-- The next read delivers something, however little it is asked for. -/
def Ready {σ : Type} [Readable σ] (s : σ) : Prop :=
  ∀ n, 0 < n → ∃ bs, (Readable.read s n).1 = some bs ∧ bs ≠ []

/-! ## A socket with a schedule -/

/-- What the next `read` of a socket does: fail, return 0, or deliver up to `k + 1` bytes. -/
inductive ReadEvent where
  | fail
  | zero
  | count (k : Nat)
deriving DecidableEq, Repr

/-- A stream socket: the bytes still to be delivered, and what each future `read` does. -/
structure Sock where
  inbox : List UInt8
  sched : Stream' ReadEvent

def Sock.read (s : Sock) (n : Nat) : Option (List UInt8) × Sock :=
  match s.sched.head with
  | .fail => (none, ⟨s.inbox, s.sched.tail⟩)
  | .zero => (some [], ⟨s.inbox, s.sched.tail⟩)
  | .count k =>
      let m := min (k + 1) n
      (some (s.inbox.take m), ⟨s.inbox.drop m, s.sched.tail⟩)

instance : ByteStream Sock where
  read := Sock.read
  inbox := Sock.inbox
  length_le := by
    intro s n bs h
    unfold Sock.read at h
    split at h
    · cases h
    · cases h
      exact Nat.zero_le n
    · cases h
      simp only [List.length_take]
      omega
  inbox_read := by
    intro s n
    unfold Sock.read
    split <;> simp

end CompileService.Base
