import CompileService.Base.Bytes
import CompileService.Base.Framing

/-!
# Messages

`message.c` and `message.h`. A `Message` is a header of twelve bytes followed by its payload; the host keeps
the header fields in little-endian order, the wire carries them in network order. `Message.wire` is the
encoding that the rest of the development relates sender and receiver by.
-/

namespace CompileService.Wire

open CompileService.Base

/-- `sizeof(Message)`: the flexible array `payload` adds nothing. -/
def sizeofMessage : Nat := 12

structure Header where
  type : UInt16
  cmd : UInt16
  index : UInt16
  total : UInt16
  length : UInt32
deriving DecidableEq, Repr

/-- A `Message` in its block; `payload` is all of the block after the header. -/
structure Message extends Header where
  payload : List UInt8
deriving DecidableEq, Repr

/-! ## The memory of a header -/

def Header.bytes (h : Header) : List UInt8 :=
  leBytes 2 h.type.toNat ++ leBytes 2 h.cmd.toNat ++ leBytes 2 h.index.toNat ++
    leBytes 2 h.total.toNat ++ leBytes 4 h.length.toNat

def Header.ofBytes (bs : List UInt8) : Header where
  type := UInt16.ofNat (leNat (bs.take 2))
  cmd := UInt16.ofNat (leNat ((bs.drop 2).take 2))
  index := UInt16.ofNat (leNat ((bs.drop 4).take 2))
  total := UInt16.ofNat (leNat ((bs.drop 6).take 2))
  length := UInt32.ofNat (leNat ((bs.drop 8).take 4))

@[simp] theorem Header.length_bytes (h : Header) : h.bytes.length = 12 := by simp [Header.bytes]

private theorem take_pieces {α : Type} {a b c d e : List α} (ha : a.length = 2) (hb : b.length = 2)
    (hc : c.length = 2) (hd : d.length = 2) (he : e.length = 4) :
    (a ++ b ++ c ++ d ++ e).take 2 = a ∧ ((a ++ b ++ c ++ d ++ e).drop 2).take 2 = b ∧
      ((a ++ b ++ c ++ d ++ e).drop 4).take 2 = c ∧ ((a ++ b ++ c ++ d ++ e).drop 6).take 2 = d ∧
      ((a ++ b ++ c ++ d ++ e).drop 8).take 4 = e := by
  simp [List.drop_append, List.take_of_length_le, List.drop_eq_nil_of_le, *]

@[simp] theorem Header.ofBytes_bytes (h : Header) : Header.ofBytes h.bytes = h := by
  obtain ⟨h1, h2, h3, h4, h5⟩ := take_pieces (length_leBytes 2 h.type.toNat)
    (length_leBytes 2 h.cmd.toNat) (length_leBytes 2 h.index.toNat)
    (length_leBytes 2 h.total.toNat) (length_leBytes 4 h.length.toNat)
  have ht := h.type.toNat_lt
  have hc := h.cmd.toNat_lt
  have hi := h.index.toNat_lt
  have hto := h.total.toNat_lt
  have hl := h.length.toNat_lt
  unfold Header.ofBytes Header.bytes
  simp only [h1, h2, h3, h4, h5, leNat_leBytes]
  simp [Nat.mod_eq_of_lt, *]

theorem Header.bytes_ofBytes {bs : List UInt8} (h : bs.length = 12) :
    (Header.ofBytes bs).bytes = bs := by
  have hlen : ∀ i k, i + k ≤ 12 → ((bs.drop i).take k).length = k := by
    intro i k hik
    simp
    omega
  have h16 : ∀ i, i + 2 ≤ 12 →
      leBytes 2 (UInt16.ofNat (leNat ((bs.drop i).take 2))).toNat = (bs.drop i).take 2 := by
    intro i hi
    have hlt := leNat_lt ((bs.drop i).take 2)
    rw [hlen i 2 hi] at hlt
    rw [UInt16.toNat_ofNat_of_lt' (by simpa using hlt), leBytes_of_length (hlen i 2 hi)]
  have h32 : leBytes 4 (UInt32.ofNat (leNat ((bs.drop 8).take 4))).toNat = (bs.drop 8).take 4 := by
    have hlt := leNat_lt ((bs.drop 8).take 4)
    rw [hlen 8 4 (by omega)] at hlt
    rw [UInt32.toNat_ofNat_of_lt' (by simpa using hlt), leBytes_of_length (hlen 8 4 (by omega))]
  have h0 := h16 0 (by omega)
  simp only [List.drop_zero] at h0
  simp only [Header.bytes, Header.ofBytes, h0, h16 2 (by omega), h16 4 (by omega),
    h16 6 (by omega), h32]
  -- the five pieces are `bs` again
  have hcut : ∀ i k, (bs.drop i).take k ++ bs.drop (i + k) = bs.drop i := by
    intro i k
    rw [← List.drop_drop, List.take_append_drop]
  have htail : (bs.drop 8).take 4 = bs.drop 8 := List.take_of_length_le (by simp; omega)
  rw [htail, List.append_assoc, List.append_assoc, List.append_assoc, hcut 6 2, hcut 4 2, hcut 2 2]
  exact List.take_append_drop 2 bs

/-! ## Byte order -/

/-- `ntohs` and `htons` on a little-endian host. -/
def ntohs (x : UInt16) : UInt16 := UInt16.ofNat (swapBytes 2 x.toNat)

/-- `ntohl` and `htonl` on a little-endian host. -/
def ntohl (x : UInt32) : UInt32 := UInt32.ofNat (swapBytes 4 x.toNat)

@[simp] theorem ntohs_ntohs (x : UInt16) : ntohs (ntohs x) = x := by
  have hx := x.toNat_lt
  have hs := swapBytes_lt 2 x.toNat
  unfold ntohs
  rw [UInt16.toNat_ofNat_of_lt' (by simpa using hs), swapBytes_swapBytes (by simpa using hx),
    UInt16.ofNat_toNat]

@[simp] theorem ntohl_ntohl (x : UInt32) : ntohl (ntohl x) = x := by
  have hx := x.toNat_lt
  have hs := swapBytes_lt 4 x.toNat
  unfold ntohl
  rw [UInt32.toNat_ofNat_of_lt' (by simpa using hs), swapBytes_swapBytes (by simpa using hx),
    UInt32.ofNat_toNat]

/-- `Message_N2H`, on the header of a message. -/
def Header.n2h (h : Header) : Header where
  type := ntohs h.type
  cmd := ntohs h.cmd
  index := ntohs h.index
  total := ntohs h.total
  length := ntohl h.length

/-- `Message_H2N`, on the header of a message. -/
def Header.h2n (h : Header) : Header where
  type := ntohs h.type
  cmd := ntohs h.cmd
  index := ntohs h.index
  total := ntohs h.total
  length := ntohl h.length

@[simp] theorem Header.n2h_h2n (h : Header) : h.h2n.n2h = h := by simp [Header.n2h, Header.h2n]

@[simp] theorem Header.h2n_n2h (h : Header) : h.n2h.h2n = h := by simp [Header.n2h, Header.h2n]

def Message.n2h (m : Message) : Message := { m with toHeader := m.toHeader.n2h }

def Message.h2n (m : Message) : Message := { m with toHeader := m.toHeader.h2n }

@[simp] theorem Message.n2h_h2n (m : Message) : m.h2n.n2h = m := by simp [Message.n2h, Message.h2n]

/-! ## Making and measuring messages -/

def Message.new (malloc : Malloc) (type cmd index total : UInt16) (payload : Option (List UInt8))
    (length : UInt32) : Exec (Option Message) :=
  match malloc (sizeofMessage + length.toNat) with
  | none => .ok none
  | some blk =>
      let rest := blk.toList.drop sizeofMessage
      match payload with
      | none => .ok (some ⟨⟨type, cmd, index, total, length⟩, rest⟩)
      | some src => do
          let rest ← memcpy rest 0 src length.toNat
          return some ⟨⟨type, cmd, index, total, length⟩, rest⟩

/-- `Message_Size`: the sum is a `size_t`, the result an `int`. -/
def Message.size (m : Message) : Int := toInt32 (sizeofMessage + m.length.toNat)

/-- As a `size_t` again, `Message_Size` is the size of the message exactly if that fits an `int`. -/
theorem Message.toSize_size_eq_iff (m : Message) :
    toSize m.size = sizeofMessage + m.length.toNat ↔ sizeofMessage + m.length.toNat < 2 ^ 31 := by
  have hlt := m.length.toNat_lt
  have hsize : m.size = toInt32 (sizeofMessage + m.length.toNat : Nat) := by rw [Message.size, Int.natCast_add]
  rw [hsize]
  refine toSize_toInt32_eq_iff ?_
  unfold sizeofMessage
  omega

/-- The block of `m` is exactly as long as its `length` field says. -/
def Message.Full (m : Message) : Prop := m.payload.length = m.length.toNat

instance (m : Message) : Decidable m.Full := inferInstanceAs (Decidable (_ = _))

theorem Message.new_full {malloc : Malloc} {type cmd index total : UInt16}
    {payload : Option (List UInt8)} {length : UInt32} {m : Message}
    (h : Message.new malloc type cmd index total payload length = .ok (some m)) : m.Full := by
  unfold Message.new at h
  split at h
  · cases h
  · rename_i blk hblk
    have hrest : (blk.toList.drop sizeofMessage).length = length.toNat := by simp
    cases payload with
    | none =>
        cases h
        exact hrest
    | some src =>
        obtain ⟨rest, hcopy, hm⟩ := Exec.bind_eq_ok.mp h
        cases hm
        obtain ⟨_, hdst, hsrc, rfl⟩ := memcpy_ok hcopy
        show (writeAt _ _ _).length = length.toNat
        rw [length_writeAt (by rw [List.length_take, Nat.min_eq_left hsrc]; exact hdst), hrest]

/-! ## The wire format -/

def Message.bytes (m : Message) : List UInt8 := m.toHeader.bytes ++ m.payload

theorem Message.Full.length_bytes {m : Message} (h : m.Full) :
    m.bytes.length = sizeofMessage + m.length.toNat := by
  rw [Message.bytes, List.length_append, Header.length_bytes, h]
  rfl

def Header.wire (h : Header) : List UInt8 := h.h2n.bytes

/-- The encoding of a message: its header in network order, then its payload. -/
def Message.wire (m : Message) : List UInt8 := m.h2n.bytes

def decodeHeader (hdr : List UInt8) : Header := (Header.ofBytes hdr).n2h

/-- The framing of the wire format: the header carries the payload length in network order. -/
def msgFraming : Framing UInt8 where
  hdr := sizeofMessage
  hdr_pos := by decide
  body := fun bs => (decodeHeader bs).length.toNat

@[simp] theorem Header.length_wire (h : Header) : h.wire.length = 12 := by simp [Header.wire]

@[simp] theorem decodeHeader_wire (h : Header) : decodeHeader h.wire = h := by
  simp [decodeHeader, Header.wire]

theorem wire_decodeHeader {hdr : List UInt8} (h : hdr.length = 12) : (decodeHeader hdr).wire = hdr := by
  simp [decodeHeader, Header.wire, Header.bytes_ofBytes h]

theorem Message.wire_eq (m : Message) : m.wire = m.toHeader.wire ++ m.payload := rfl

@[simp] theorem Message.length_wire (m : Message) : m.wire.length = 12 + m.payload.length := by
  simp [Message.wire_eq]

@[simp] theorem msgFraming_hdr : msgFraming.hdr = 12 := rfl

theorem msgFraming_size_eq (s : List UInt8) :
    msgFraming.size s = 12 + (decodeHeader (s.take 12)).length.toNat := rfl

theorem take_wire_append (h : Header) (t : List UInt8) : (h.wire ++ t).take 12 = h.wire := by
  rw [List.take_append_of_le_length (by simp), List.take_of_length_le (by simp)]

theorem msgFraming_size (h : Header) (t : List UInt8) :
    msgFraming.size (h.wire ++ t) = 12 + h.length.toNat := by
  rw [msgFraming_size_eq, take_wire_append, decodeHeader_wire]

theorem Message.Full.frame {m : Message} (hm : m.Full) : msgFraming.Frame m.wire :=
  ⟨by simp, by rw [Message.wire_eq, msgFraming_size, ← Message.wire_eq, m.length_wire, hm]⟩

theorem Message.wire_inj {m m' : Message} (h : m.wire = m'.wire) : m = m' := by
  rw [Message.wire_eq, Message.wire_eq] at h
  obtain ⟨hhdr, hpay⟩ := List.append_inj h (by simp)
  have hh := congrArg decodeHeader hhdr
  simp only [decodeHeader_wire] at hh
  cases m
  cases m'
  simp_all

end CompileService.Wire
