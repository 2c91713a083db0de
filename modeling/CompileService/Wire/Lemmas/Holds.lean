import CompileService.Wire.Lemmas.Recv

/-!
# The parser as a receiver of frames

`Holds p s` says that the parser `p` is in the middle of a message of which it has received the bytes `s`.
`Fed` lists what a read can do with the bytes at hand: keep them all, return a message, or drop a header whose
allocation failed. Both read functions are shown to do one of these, as long as no header announces a length
that overflows an `int` (`LengthOk`).
-/

namespace CompileService.Wire

open CompileService.Base

/-- What `ToMidState` asks `malloc` for when a header announces `length` bytes. -/
def blockSize (length : UInt32) : Nat := toSize (sizeofMessage + toInt32 length.toNat)

/-- The header announces a length that fits an `int`, or there is no block for it. -/
def LengthOk (malloc : Malloc) (h : Header) : Prop :=
  h.length.toNat < 2 ^ 31 ∨ malloc (blockSize h.length) = none

/-- Any other length is negative as an `int`, and there is a block for it. -/
theorem need_of_not_lengthOk {malloc : Malloc} {h : Header} (hbad : ¬ LengthOk malloc h) :
    2 ^ 31 ≤ h.length.toNat ∧ toInt32 h.length.toNat = h.length.toNat - 2 ^ 32 ∧
      malloc (blockSize h.length) ≠ none := by
  obtain ⟨hge, hsome⟩ := not_or.mp hbad
  have hlt := h.length.toNat_lt
  exact ⟨Nat.not_lt.mp hge, toInt32_of_large (by omega) (by omega), hsome⟩

/-- `p` has received the bytes `s` of an unfinished message. -/
inductive Holds : MsgParser → List UInt8 → Prop where
  | header {cache s} : s.length < 12 → cache.bytes.take s.length = s →
      Holds ⟨cache, false, 12 - s.length, none⟩ s
  | payload {cache m r} : m.Full → m.length.toNat < 2 ^ 31 → m.payload.take r.length = r →
      r.length < m.length.toNat →
      Holds ⟨cache, true, m.length.toNat - r.length, some m⟩ (m.toHeader.wire ++ r)

/-- `Fed malloc s ret p rest`: of the bytes `s`, a read returned `ret`, left the parser `p` and made nothing
of `rest`. -/
inductive Fed (malloc : Malloc) :
    List UInt8 → Option Message → MsgParser → List UInt8 → Prop where
  | more {s p} : Holds p s → Fed malloc s none p []
  | done {m p rest} : m.Full → m.length.toNat < 2 ^ 31 → Holds p [] →
      Fed malloc (m.wire ++ rest) (some m) p rest
  | drop {hdr p rest} : hdr.length = 12 → malloc (blockSize (decodeHeader hdr).length) = none →
      Holds p [] → Fed malloc (hdr ++ rest) none p rest

/-- Where no allocation fails, no header is dropped. -/
theorem Fed.of_zeroed {malloc : Malloc} {s rest : List UInt8} {ret : Option Message} {p : MsgParser}
    (h : Fed .zeroed s ret p rest) : Fed malloc s ret p rest := by
  cases h with
  | more hp => exact .more hp
  | done hfull hlt hp => exact .done hfull hlt hp
  | drop _ hnone _ => cases hnone

theorem blockSize_of_lt {length : UInt32} (h : length.toNat < 2 ^ 31) :
    blockSize length = 12 + length.toNat := by
  unfold blockSize sizeofMessage
  rw [toInt32_of_range (by omega) (by omega), toSize_of_range (by omega) (by omega)]
  omega

/-! ## States -/

theorem Holds.init (p : MsgParser) : Holds p.initState [] :=
  .header (s := []) (by decide) rfl

theorem Holds.fresh : Holds MsgParser.fresh [] :=
  .header (s := []) (by decide) rfl

/-- Between two messages. -/
theorem Holds.of_nil {p : MsgParser} (h : Holds p []) : p.header = false ∧ p.need = sizeofMessage := by
  generalize hnil : ([] : List UInt8) = s at h
  cases h with
  | header _ _ =>
      subst hnil
      exact ⟨rfl, rfl⟩
  | payload =>
      have hlen := congrArg List.length hnil
      rw [List.length_append, Header.length_wire, List.length_nil] at hlen
      omega

theorem Holds.nil_of_between {p : MsgParser} {s : List UInt8} (h : Holds p s) (hheader : p.header = false)
    (hneed : p.need = sizeofMessage) : s = [] := by
  cases h with
  | header _ _ =>
      simp only [sizeofMessage] at hneed
      exact List.eq_nil_of_length_eq_zero (by omega)
  | payload => cases hheader

theorem Holds.initial_unique {p : MsgParser} {s : List UInt8} (h : Holds p []) (h' : Holds p s) : s = [] :=
  h'.nil_of_between h.of_nil.1 h.of_nil.2

theorem Holds.not_whole {p : MsgParser} {s : List UInt8} (h : Holds p s) : ¬ msgFraming.Whole s := by
  rintro ⟨hhdr, hsize⟩
  cases h with
  | header hlen _ => exact absurd hhdr (by rw [msgFraming_hdr]; omega)
  | payload _ _ _ hlt =>
      rw [msgFraming_size, List.length_append, Header.length_wire] at hsize
      omega

namespace MsgParser

variable {malloc : Malloc} {cache : Header} {m : Message} {r : List UInt8}

theorem toMidState_none {p : MsgParser} (h : malloc (blockSize p.cache.length) = none) :
    ∃ p', p.toMidState malloc = .ok (false, p') := by
  unfold blockSize at h
  unfold toMidState
  simp only [h]
  exact ⟨_, rfl⟩

theorem toMidState_some {p : MsgParser} (h : malloc (blockSize p.cache.length) ≠ none)
    (hlt : p.cache.length.toNat < 2 ^ 31) :
    ∃ payload, (Message.mk p.cache payload).Full ∧
      p.toMidState malloc = .ok (true, ⟨p.cache, true, p.cache.length.toNat, some ⟨p.cache, payload⟩⟩) := by
  obtain ⟨blk, hm⟩ := Option.ne_none_iff_exists'.mp h
  have hsize := blockSize_of_lt hlt
  refine ⟨blk.toList.drop sizeofMessage, ?_, ?_⟩
  · show (blk.toList.drop sizeofMessage).length = p.cache.length.toNat
    simp only [List.length_drop, Vector.length_toList, hsize, sizeofMessage]
    omega
  · have hbig : sizeofMessage ≤ blockSize p.cache.length := by
      rw [hsize]; unfold sizeofMessage; omega
    unfold blockSize at hm hbig
    have hneed : toInt32 (p.cache.length.toNat : Int) = p.cache.length.toNat :=
      toInt32_of_range (by omega) (by omega)
    unfold toMidState
    simp only [hm]
    rw [if_pos hbig]
    exact congrArg (fun n => Except.ok (true, (⟨p.cache, true, n,
      some ⟨p.cache, blk.toList.drop sizeofMessage⟩⟩ : MsgParser))) hneed

theorem toMidState_spec {p : MsgParser} (h : LengthOk malloc p.cache) :
    (∃ payload, (Message.mk p.cache payload).Full ∧ p.cache.length.toNat < 2 ^ 31 ∧
      p.toMidState malloc = .ok (true, ⟨p.cache, true, p.cache.length.toNat,
        some ⟨p.cache, payload⟩⟩)) ∨
    (malloc (blockSize p.cache.length) = none ∧ ∃ p', p.toMidState malloc = .ok (false, p')) := by
  by_cases hnone : malloc (blockSize p.cache.length) = none
  · exact Or.inr ⟨hnone, toMidState_none hnone⟩
  · have hlt := h.resolve_right hnone
    obtain ⟨payload, hfull, hmid⟩ := toMidState_some hnone hlt
    exact Or.inl ⟨payload, hfull, hlt, hmid⟩

theorem copyLen_eq {need length : Nat} (hneed : need < 2 ^ 31) :
    copyLen need length = (min need length : Nat) := by
  unfold copyLen
  rw [toUInt32_of_range (by omega) (by omega)]
  split
  · omega
  · rw [toInt32_of_range (by omega) (by omega)]
    omega

theorem copyLen_range {need : Int} (hlo : -2 ^ 31 ≤ need) (hhi : need < 2 ^ 31) (length : Nat) :
    -2 ^ 31 ≤ copyLen need length ∧ copyLen need length < 2 ^ 31 := by
  unfold copyLen
  split
  · exact ⟨hlo, hhi⟩
  · exact toInt32_range _

/-- A copy that stays in its blocks takes a number of bytes that is not negative. -/
theorem copyLen_of_memcpy {need : Int} {mem : Mem} {dst out : List UInt8} {off : Int} (hlo : -2 ^ 31 ≤ need)
    (hhi : need < 2 ^ 31) (h : memcpy dst off mem.bytes (copyLen need mem.length) = .ok out) :
    0 ≤ copyLen need mem.length ∧ copyLen need mem.length ≤ mem.bytes.length := by
  obtain ⟨_, _, hsrc, _⟩ := memcpy_ok h
  obtain ⟨hlen, hlen'⟩ := copyLen_range hlo hhi mem.length
  have hsize := mem.size_lt
  obtain ⟨hnonneg, hcount⟩ := toSize_of_lt hlen hlen' (by omega)
  exact ⟨hnonneg, by omega⟩

theorem payloadOffset_eq {L n : Nat} (hn : n ≤ L) (hL : L < 2 ^ 31) :
    toInt32 ((L : Int) - ((L : Int) - (n : Int))) = (n : Nat) := by
  rw [toInt32_of_range (by omega) (by omega)]
  omega

theorem finish_fed {bs rest : List UInt8} {q : MsgParser} (hfull : m.Full)
    (hlt : m.length.toNat < 2 ^ 31) (hr : m.payload.take r.length = r)
    (hle : r.length + bs.length ≤ m.length.toNat)
    (hq : q = ⟨cache, true, m.length.toNat - (r ++ bs).length,
      some ⟨m.toHeader, writeAt m.payload r.length bs⟩⟩)
    (hrest : rest = [] ∨ r.length + bs.length = m.length.toNat) :
    Fed malloc (m.toHeader.wire ++ (r ++ bs) ++ rest) q.finish.1 q.finish.2 rest := by
  subst hq
  have hfit : r.length + bs.length ≤ m.payload.length := by rw [hfull]; exact hle
  have htake := take_writeAt hfit
  rw [hr] at htake
  by_cases hall : r.length + bs.length = m.length.toNat
  · -- complete: the payload is what was received
    have hpay : writeAt m.payload r.length bs = r ++ bs := by
      rw [← htake, List.take_of_length_le (by rw [length_writeAt hfit, hfull]; omega)]
    rw [hpay]
    have hneed : (m.length.toNat : Int) - ((r ++ bs).length : Nat) = 0 := by
      rw [List.length_append, hall]
      omega
    simp only [finish, toLastState, hneed, and_self, if_true]
    exact Fed.done (m := { m with payload := r ++ bs }) (by simpa [Message.Full] using hall) hlt
      (Holds.init _)
  · have hnil : rest = [] := hrest.resolve_right hall
    subst hnil
    have hneed : (m.length.toNat : Int) - ((r ++ bs).length : Nat) ≠ 0 := by
      rw [List.length_append]
      omega
    simp only [finish, toLastState, hneed, and_false, if_false, List.append_nil]
    exact .more (.payload (m := { m with payload := writeAt m.payload r.length bs })
      (by simpa [Message.Full, length_writeAt hfit] using hfull) hlt
      (by rw [List.length_append]; exact htake) (by simp only [List.length_append]; omega))

/-! ## `MParser_ReadMem` -/

theorem readMemPayload_fed (malloc : Malloc) (cache : Header) (hfull : m.Full) (hlt : m.length.toNat < 2 ^ 31)
    (hr : m.payload.take r.length = r) (hle : r.length ≤ m.length.toNat) (mem : Mem) :
    ∃ ret p rest, readMemPayload ⟨cache, true, m.length.toNat - r.length, some m⟩ mem =
      .ok (ret, p) ∧ Fed malloc (m.toHeader.wire ++ r ++ mem.bytes) ret p rest := by
  have hneed : (m.length.toNat : Int) - (r.length : Nat) = (m.length.toNat - r.length : Nat) := by
    omega
  have hlen := mem.size_lt
  let n := min (m.length.toNat - r.length) mem.length
  have hn : n ≤ m.length.toNat - r.length := Nat.min_le_left _ _
  have hn' : n ≤ mem.bytes.length := Nat.min_le_right _ _
  have hcopy : copyLen ((m.length.toNat : Int) - (r.length : Nat)) mem.length = (n : Nat) := by
    rw [hneed, copyLen_eq (by omega)]
  have hmem : memcpy m.payload (r.length : Nat) mem.bytes (n : Nat) =
      .ok (writeAt m.payload r.length (mem.bytes.take n)) :=
    memcpy_eq (by rw [hfull]; omega) hn' (by omega)
  have hbs : (mem.bytes.take n).length = n := by rw [List.length_take, Nat.min_eq_left hn']
  have hneed' : toInt32 ((m.length.toNat : Int) - (r.length : Nat) - (n : Nat)) =
      (m.length.toNat : Int) - (r ++ mem.bytes.take n).length := by
    rw [toInt32_of_range (by omega) (by omega), List.length_append, hbs]
    omega
  -- either the chunk is used up, or the payload is complete
  have hcut : mem.bytes.drop n = [] ∨
      r.length + (mem.bytes.take n).length = m.length.toNat := by
    rw [hbs]
    by_cases hshort : mem.length ≤ m.length.toNat - r.length
    · exact Or.inl (List.drop_eq_nil_of_le (by
        show mem.length ≤ n
        omega))
    · exact Or.inr (by omega)
  let q : MsgParser := ⟨cache, true, m.length.toNat - (r ++ mem.bytes.take n).length,
    some ⟨m.toHeader, writeAt m.payload r.length (mem.bytes.take n)⟩⟩
  have hrun : readMemPayload ⟨cache, true, m.length.toNat - r.length, some m⟩ mem =
      .ok q.finish := by
    simp only [readMemPayload, hcopy, payloadOffset_eq hle hlt, hmem, Exec.ok_bind, hneed']
    rfl
  have hfed : Fed malloc _ q.finish.1 q.finish.2 (mem.bytes.drop n) :=
    finish_fed hfull hlt hr (by rw [hbs]; omega) rfl hcut
  have hsplit : r ++ mem.bytes.take n ++ mem.bytes.drop n = r ++ mem.bytes := by
    rw [List.append_assoc, List.take_append_drop]
  rw [List.append_assoc, hsplit, ← List.append_assoc] at hfed
  exact ⟨q.finish.1, q.finish.2, _, hrun, hfed⟩

/-! ## The header in the cache -/

section cache
variable {s bs : List UInt8}

theorem fill_spec (htake : cache.bytes.take s.length = s) (hle : s.length + bs.length ≤ 12) :
    (writeAt cache.bytes s.length bs).length = 12 ∧
      (writeAt cache.bytes s.length bs).take (s ++ bs).length = s ++ bs := by
  have hfit : s.length + bs.length ≤ cache.bytes.length := by rw [Header.length_bytes]; exact hle
  have hgot := take_writeAt hfit
  rw [htake] at hgot
  exact ⟨by rw [length_writeAt hfit, Header.length_bytes], by rw [List.length_append]; exact hgot⟩

theorem fill_full (htake : cache.bytes.take s.length = s) (heq : s.length + bs.length = 12) :
    writeAt cache.bytes s.length bs = s ++ bs := by
  obtain ⟨hlen, hgot⟩ := fill_spec htake (Nat.le_of_eq heq)
  rw [← hgot, List.take_of_length_le (by rw [hlen, List.length_append]; omega)]

theorem fill_holds (htake : cache.bytes.take s.length = s) (hlt : s.length + bs.length < 12) :
    Holds ⟨Header.ofBytes (writeAt cache.bytes s.length bs), false,
      12 - (s ++ bs).length, none⟩ (s ++ bs) := by
  obtain ⟨hlen, hgot⟩ := fill_spec htake (Nat.le_of_lt hlt)
  exact .header (by rw [List.length_append]; exact hlt) (by rw [Header.bytes_ofBytes hlen]; exact hgot)

end cache

def headerOfMem (p : MsgParser) (mem : Mem) : Option Header :=
  if p.header = false ∧ p.need ≤ mem.length then
    some (decodeHeader (p.cache.bytes.take (12 - p.need).toNat ++ mem.bytes.take p.need.toNat))
  else none

theorem headerOfMem_header {s : List UInt8} {mem : Mem} (hlen : s.length < 12)
    (htake : cache.bytes.take s.length = s) :
    headerOfMem ⟨cache, false, 12 - s.length, none⟩ mem =
      if 12 ≤ (s ++ mem.bytes).length then some (decodeHeader ((s ++ mem.bytes).take 12)) else none := by
  have hs : (12 - ((12 : Int) - s.length)).toNat = s.length := by omega
  have hn : ((12 : Int) - s.length).toNat = 12 - s.length := by omega
  have hcut : (s ++ mem.bytes).take 12 = s ++ mem.bytes.take (12 - s.length) := by
    rw [List.take_append, List.take_of_length_le (Nat.le_of_lt hlen)]
  have hiff : ((12 : Int) - s.length ≤ mem.length) ↔ 12 ≤ (s ++ mem.bytes).length := by
    rw [List.length_append]
    show ((12 : Int) - s.length ≤ mem.bytes.length) ↔ _
    omega
  simp only [headerOfMem, true_and, hs, hn, htake, hcut, hiff]

theorem headerOfMem_eq {p : MsgParser} {s : List UInt8} {mem : Mem} {h : Header} (hp : Holds p s)
    (hh : p.headerOfMem mem = some h) :
    12 ≤ (s ++ mem.bytes).length ∧ h = decodeHeader ((s ++ mem.bytes).take 12) := by
  cases hp with
  | payload => simp [headerOfMem] at hh
  | header hlen htake =>
      rw [headerOfMem_header hlen htake] at hh
      split at hh
      · rename_i hc
        cases hh
        exact ⟨hc, rfl⟩
      · cases hh

theorem readMem_header {s : List UInt8} {mem : Mem} {n : Nat} (hlen : s.length < 12)
    (hn : n = min (12 - s.length) mem.length) :
    readMem malloc ⟨cache, false, 12 - s.length, none⟩ (some mem) =
      if s.length + n = 12 then
        toMidState malloc ⟨decodeHeader (writeAt cache.bytes s.length (mem.bytes.take n)), false,
            12 - s.length, none⟩ >>= fun r =>
          if r.1 then r.2.readMemPayload (mem.advance n) else .ok (none, r.2.initState)
      else .ok (none, ⟨Header.ofBytes (writeAt cache.bytes s.length (mem.bytes.take n)), false,
        12 - (s.length + n : Nat), none⟩) := by
  have hneed : (12 : Int) - (s.length : Nat) = (12 - s.length : Nat) := by omega
  have hcopy : copyLen ((12 : Int) - (s.length : Nat)) mem.length = (n : Nat) := by
    rw [hneed, copyLen_eq (by omega), hn]
  have hoff : toInt32 ((sizeofMessage : Int) - ((12 : Int) - (s.length : Nat))) = (s.length : Nat) :=
    payloadOffset_eq (L := 12) (Nat.le_of_lt hlen) (by omega)
  have hmem : memcpy cache.bytes (s.length : Nat) mem.bytes (n : Nat) =
      .ok (writeAt cache.bytes s.length (mem.bytes.take n)) :=
    memcpy_eq (by rw [Header.length_bytes]; omega) (by rw [hn]; exact Nat.min_le_right _ _) (by omega)
  simp only [readMem, Bool.false_eq_true, if_false, hcopy, hoff, hmem, Exec.ok_bind]
  by_cases hall : s.length + n = 12
  · have heq : (12 : Int) - (s.length : Nat) = (n : Nat) := by omega
    have hnat : ((12 : Int) - (s.length : Nat)).toNat = n := by omega
    rw [if_pos heq, if_pos hall, hnat]
    rfl
  · have hne : (12 : Int) - (s.length : Nat) ≠ (n : Nat) := by omega
    have hneed' : toInt32 ((12 : Int) - (s.length : Nat) - (n : Nat)) = 12 - (s.length + n : Nat) := by
      rw [toInt32_of_range (by omega) (by omega)]
      omega
    rw [if_neg hne, if_neg hall, hneed']
    rfl

theorem readMem_complete {s : List UInt8} {mem : Mem} (hlen : s.length < 12)
    (htake : cache.bytes.take s.length = s) (hall : 12 ≤ (s ++ mem.bytes).length) :
    readMem malloc ⟨cache, false, 12 - s.length, none⟩ (some mem) =
      toMidState malloc ⟨decodeHeader ((s ++ mem.bytes).take 12), false, 12 - s.length, none⟩ >>= fun r =>
        if r.1 then r.2.readMemPayload (mem.advance (12 - s.length)) else .ok (none, r.2.initState) := by
  rw [List.length_append] at hall
  have hn : 12 - s.length = min (12 - s.length) mem.length := by
    have hmem : mem.length = mem.bytes.length := rfl
    omega
  have hsum : s.length + (12 - s.length) = 12 := by omega
  have hbs : (mem.bytes.take (12 - s.length)).length = 12 - s.length := by
    rw [List.length_take, Nat.min_eq_left (by omega)]
  have hcut : (s ++ mem.bytes).take 12 = s ++ mem.bytes.take (12 - s.length) := by
    rw [List.take_append, List.take_of_length_le (Nat.le_of_lt hlen)]
  rw [readMem_header hlen hn, if_pos hsum, fill_full htake (by rw [hbs]; exact hsum), hcut]

/-- `MParser_ReadMem` on a parser that holds `s` treats a chunk as `s` followed by the chunk. -/
theorem readMem_fed (malloc : Malloc) {p : MsgParser} {s : List UInt8} (hp : Holds p s) (mem : Mem)
    (hok : ∀ h, p.headerOfMem mem = some h → LengthOk malloc h) :
    ∃ ret p' rest, p.readMem malloc (some mem) = .ok (ret, p') ∧
      Fed malloc (s ++ mem.bytes) ret p' rest := by
  cases hp with
  | payload hfull hlt hr hlen =>
      exact readMemPayload_fed malloc _ hfull hlt hr (Nat.le_of_lt hlen) mem
  | header hlen htake =>
      rename_i cache
      by_cases hall : 12 ≤ (s ++ mem.bytes).length
      · -- the header is complete
        have hhdr : ((s ++ mem.bytes).take 12).length = 12 := by rw [List.length_take, Nat.min_eq_left hall]
        have hh := hok (decodeHeader ((s ++ mem.bytes).take 12)) (by
          rw [headerOfMem_header hlen htake, if_pos hall])
        have hadv : (s ++ mem.bytes).drop 12 = (mem.advance (12 - s.length)).bytes := by
          rw [List.drop_append, List.drop_eq_nil_of_le (Nat.le_of_lt hlen)]
          rfl
        rw [readMem_complete hlen htake hall]
        rcases toMidState_spec (p := ⟨decodeHeader ((s ++ mem.bytes).take 12), false, _, none⟩) hh with
          ⟨payload, hfull, hlt, hmid⟩ | ⟨hnone, p', hmid⟩
        · obtain ⟨ret, p', rest, hbody, hfed⟩ := readMemPayload_fed malloc
            (decodeHeader ((s ++ mem.bytes).take 12)) (r := []) hfull hlt rfl (Nat.zero_le _)
            (mem.advance (12 - s.length))
          refine ⟨ret, p', rest, ?_, ?_⟩
          · rw [hmid]
            simpa using hbody
          · simpa only [wire_decodeHeader hhdr, List.append_nil, ← hadv, List.take_append_drop] using hfed
        · rw [hmid]
          refine ⟨none, _, (s ++ mem.bytes).drop 12, rfl, ?_⟩
          have hfed : Fed malloc _ none p'.initState ((s ++ mem.bytes).drop 12) :=
            .drop hhdr hnone (Holds.init p')
          rwa [List.take_append_drop] at hfed
      · -- the whole chunk went into the header
        have hlt : s.length + mem.bytes.length < 12 := by
          rw [← List.length_append]
          exact Nat.not_le.mp hall
        have hholds := fill_holds htake hlt
        have hn : mem.bytes.length = min (12 - s.length) mem.length := by
          have hmem : mem.length = mem.bytes.length := rfl
          omega
        rw [readMem_header hlen hn, if_neg (Nat.ne_of_lt hlt), List.take_length, ← List.length_append]
        exact ⟨none, _, [], rfl, .more hholds⟩

/-! ## `MParser_ReadFd` -/

section descriptor
variable {σ : Type} [Readable σ]

theorem readFdPayload_fed (malloc : Malloc) (cache : Header) (hfull : m.Full) (hlt : m.length.toNat < 2 ^ 31)
    (hr : m.payload.take r.length = r) (hle : r.length ≤ m.length.toNat) (io : σ) :
    ∃ bs ret p io', readFdPayload ⟨cache, true, m.length.toNat - r.length, some m⟩ io =
      .ok (ret, p, io') ∧ Reads io bs io' ∧
      Fed malloc (m.toHeader.wire ++ r ++ bs) ret p [] := by
  have hneed : (m.length.toNat : Int) - (r.length : Nat) = (m.length.toNat - r.length : Nat) := by
    omega
  obtain ⟨bs, io', hrec, hreads, hbs⟩ := recvAt_spec io m.payload r.length
    (m.length.toNat - r.length) (by rw [hfull]; omega)
  have hneed' : toInt32 ((m.length.toNat : Int) - (r.length : Nat) - (bs.length : Nat)) =
      (m.length.toNat : Int) - (r ++ bs).length := by
    rw [toInt32_of_range (by omega) (by omega), List.length_append]
    omega
  let q : MsgParser := ⟨cache, true, m.length.toNat - (r ++ bs).length,
    some ⟨m.toHeader, writeAt m.payload r.length bs⟩⟩
  have hrun : readFdPayload ⟨cache, true, m.length.toNat - r.length, some m⟩ io =
      .ok (q.finish.1, q.finish.2, io') := by
    rw [← hneed] at hrec
    simp only [readFdPayload, payloadOffset_eq hle hlt, hrec, Exec.ok_bind, hneed']
    rfl
  have hfed : Fed malloc _ q.finish.1 q.finish.2 [] :=
    finish_fed hfull hlt hr (by omega) rfl (Or.inl rfl)
  rw [List.append_nil, ← List.append_assoc] at hfed
  exact ⟨bs, q.finish.1, q.finish.2, io', hrun, hreads, hfed⟩

def headerOfFd (p : MsgParser) (fd : Int) (io : σ) : Option Header :=
  if fd ≠ -1 ∧ p.header = false then
    match recvAt io p.cache.bytes (12 - p.need) p.need with
    | .ok (len, bytes, _) => if (len : Int) = p.need then some (decodeHeader bytes) else none
    | .error _ => none
  else none

theorem recvHeader_uniform {s : List UInt8} (hlen : s.length < 12) (io : σ) :
    ∃ bs io', Reads io bs io' ∧ s.length + bs.length ≤ 12 ∧ ∀ cache : Header,
      recvAt io cache.bytes (s.length : Nat) (12 - (s.length : Nat)) =
        .ok (bs.length, writeAt cache.bytes s.length bs, io') := by
  have hneed : (12 : Int) - (s.length : Nat) = (12 - s.length : Nat) := by omega
  obtain ⟨bs, io', hreads, hbs, hrec⟩ := recvAt_uniform io s.length (12 - s.length)
  refine ⟨bs, io', hreads, by omega, fun cache => ?_⟩
  rw [hneed]
  exact hrec cache.bytes (by rw [Header.length_bytes]; omega)

theorem recvHeader_spec (cache : Header) {s : List UInt8} (hlen : s.length < 12) (io : σ) :
    ∃ bs io', recvAt io cache.bytes (s.length : Nat) (12 - (s.length : Nat)) =
      .ok (bs.length, writeAt cache.bytes s.length bs, io') ∧ Reads io bs io' ∧
      s.length + bs.length ≤ 12 := by
  obtain ⟨bs, io', hreads, hle, hrec⟩ := recvHeader_uniform hlen io
  exact ⟨bs, io', hrec cache, hreads, hle⟩

/-- A call that completes a header receives the rest of it. -/
theorem headerOfFd_received {p : MsgParser} {s : List UInt8} {fd : Int} {io : σ} {h : Header}
    (hp : Holds p s) (hh : p.headerOfFd fd io = some h) :
    fd ≠ -1 ∧ ∃ cache bs io', p = ⟨cache, false, 12 - s.length, none⟩ ∧ s.length < 12 ∧
      cache.bytes.take s.length = s ∧
      recvAt io cache.bytes (s.length : Nat) (12 - (s.length : Nat)) =
        .ok (bs.length, writeAt cache.bytes s.length bs, io') ∧
      Reads io bs io' ∧ s.length + bs.length = 12 ∧ h = decodeHeader (writeAt cache.bytes s.length bs) := by
  unfold headerOfFd at hh
  split at hh
  · rename_i hcond
    cases hp with
    | payload => exact absurd hcond.2 (by simp)
    | @header cache _ hlen htake =>
        obtain ⟨bs, io', hrec, hreads, hle⟩ := recvHeader_spec cache hlen io
        have hoff : (12 : Int) - (12 - (s.length : Nat)) = (s.length : Nat) := by omega
        simp only [hoff, hrec] at hh
        split at hh
        · rename_i hall
          exact ⟨hcond.1, cache, bs, io', rfl, hlen, htake, hrec, hreads, by omega, (Option.some.inj hh).symm⟩
        · cases hh
  · cases hh

theorem headerOfFd_eq {p : MsgParser} {s : List UInt8} {fd : Int} {io : σ} {h : Header}
    (hp : Holds p s) (hh : p.headerOfFd fd io = some h) :
    ∃ bs io', Reads io bs io' ∧ (s ++ bs).length = 12 ∧ h = decodeHeader (s ++ bs) := by
  obtain ⟨_, cache, bs, io', rfl, _, htake, _, hreads, hall, rfl⟩ := headerOfFd_received hp hh
  exact ⟨bs, io', hreads, by rw [List.length_append, hall], by rw [fill_full htake hall]⟩

theorem headerOfFd_complete {s bs : List UInt8} {fd : Int} {io io' : σ} (hfd : fd ≠ -1)
    (htake : cache.bytes.take s.length = s) (hall : s.length + bs.length = 12)
    (hrec : recvAt io cache.bytes (s.length : Nat) (12 - (s.length : Nat)) =
      .ok (bs.length, writeAt cache.bytes s.length bs, io')) :
    headerOfFd ⟨cache, false, 12 - s.length, none⟩ fd io = some (decodeHeader (s ++ bs)) := by
  have hoff : (12 : Int) - (12 - (s.length : Nat)) = (s.length : Nat) := by omega
  have heq : ((bs.length : Nat) : Int) = 12 - (s.length : Nat) := by omega
  simp only [headerOfFd, hfd, hoff, hrec, fill_full htake hall, ne_eq, not_false_eq_true, true_and, if_true]
  rw [if_pos heq]

/-- `MParser_ReadFd` with `mid` in the place of `ToMidState`. -/
def readFdWith (mid : MsgParser → Exec (Bool × MsgParser)) (p : MsgParser) (fd : Int) (io : σ) :
    Exec (Option Message × MsgParser × σ) :=
  if fd = -1 then .ok (none, p, io)
  else if p.header then p.readFdPayload io
  else do
    let offset := toInt32 (sizeofMessage - p.need)
    let (len, bytes, io) ← recvAt io p.cache.bytes offset p.need
    let p := { p with cache := Header.ofBytes bytes }
    if (len : Int) = p.need then
      let p := { p with cache := p.cache.n2h }
      let (ok, p) ← mid p
      if ok then p.readFdPayload io else return (none, p.initState, io)
    else return (none, { p with need := toInt32 (p.need - len) }, io)

theorem readFdWith_header {mid : MsgParser → Exec (Bool × MsgParser)} {s bs : List UInt8} {fd : Int} {io io' : σ}
    (hfd : fd ≠ -1) (hlen : s.length < 12) (hle : s.length + bs.length ≤ 12)
    (hrec : recvAt io cache.bytes (s.length : Nat) (12 - (s.length : Nat)) =
      .ok (bs.length, writeAt cache.bytes s.length bs, io')) :
    readFdWith mid ⟨cache, false, 12 - s.length, none⟩ fd io =
      if s.length + bs.length = 12 then
        mid ⟨decodeHeader (writeAt cache.bytes s.length bs), false, 12 - s.length, none⟩ >>= fun r =>
          if r.1 then r.2.readFdPayload io' else .ok (none, r.2.initState, io')
      else .ok (none, ⟨Header.ofBytes (writeAt cache.bytes s.length bs), false,
        12 - (s.length + bs.length : Nat), none⟩, io') := by
  have hoff : toInt32 ((sizeofMessage : Int) - ((12 : Int) - (s.length : Nat))) = (s.length : Nat) :=
    payloadOffset_eq (L := 12) (Nat.le_of_lt hlen) (by omega)
  simp only [readFdWith, hfd, Bool.false_eq_true, if_false, hoff, hrec, Exec.ok_bind]
  by_cases hall : s.length + bs.length = 12
  · have heq : ((bs.length : Nat) : Int) = 12 - (s.length : Nat) := by omega
    rw [if_pos heq, if_pos hall]
    rfl
  · have hne : ((bs.length : Nat) : Int) ≠ 12 - (s.length : Nat) := by omega
    have hneed' : toInt32 ((12 : Int) - (s.length : Nat) - (bs.length : Nat)) =
        12 - (s.length + bs.length : Nat) := by
      rw [toInt32_of_range (by omega) (by omega)]
      omega
    rw [if_neg hne, if_neg hall, hneed']
    rfl

theorem readFd_header {s bs : List UInt8} {fd : Int} {io io' : σ} (hfd : fd ≠ -1)
    (hlen : s.length < 12) (hle : s.length + bs.length ≤ 12)
    (hrec : recvAt io cache.bytes (s.length : Nat) (12 - (s.length : Nat)) =
      .ok (bs.length, writeAt cache.bytes s.length bs, io')) :
    readFd malloc ⟨cache, false, 12 - s.length, none⟩ fd io =
      if s.length + bs.length = 12 then
        toMidState malloc ⟨decodeHeader (writeAt cache.bytes s.length bs), false,
            12 - s.length, none⟩ >>= fun r =>
          if r.1 then r.2.readFdPayload io' else .ok (none, r.2.initState, io')
      else .ok (none, ⟨Header.ofBytes (writeAt cache.bytes s.length bs), false,
        12 - (s.length + bs.length : Nat), none⟩, io') :=
  readFdWith_header hfd hlen hle hrec

theorem headerOfFd_incomplete {s bs : List UInt8} {fd : Int} {io io' : σ} (hall : s.length + bs.length ≠ 12)
    (hrec : recvAt io cache.bytes (s.length : Nat) (12 - (s.length : Nat)) =
      .ok (bs.length, writeAt cache.bytes s.length bs, io')) :
    headerOfFd ⟨cache, false, 12 - s.length, none⟩ fd io = none := by
  have hoff : (12 : Int) - (12 - (s.length : Nat)) = (s.length : Nat) := by omega
  have hne : ((bs.length : Nat) : Int) ≠ 12 - (s.length : Nat) := by omega
  simp only [headerOfFd, hoff, hrec, hne, if_false, ite_self]

/-- `MParser_ReadFd` completes a header that gets no block, or it takes the bytes as if `malloc` could not fail.
It never reads past the end of the message at hand. -/
theorem readFd_spec (malloc : Malloc) {p : MsgParser} {s : List UInt8} {fd : Int} (hfd : fd ≠ -1) (hp : Holds p s)
    (io : σ) (hok : ∀ h, p.headerOfFd fd io = some h → LengthOk malloc h) :
    ∃ bs ret p' io', p.readFd malloc fd io = .ok (ret, p', io') ∧ Reads io bs io' ∧
      ((∃ h, p.headerOfFd fd io = some h ∧ malloc (blockSize h.length) = none ∧ s ++ bs = h.wire ∧ ret = none ∧
        Holds p' []) ∨
      ((∀ h, p.headerOfFd fd io = some h → malloc (blockSize h.length) ≠ none) ∧
        Fed .zeroed (s ++ bs) ret p' [])) := by
  cases hp with
  | payload hfull hlt hr hlen =>
      rename_i cache m r
      obtain ⟨bs, ret, p', io', hrun, hreads, hfed⟩ :=
        readFdPayload_fed .zeroed cache hfull hlt hr (Nat.le_of_lt hlen) io
      refine ⟨bs, ret, p', io', ?_, hreads, Or.inr ⟨fun h hh => ?_, hfed⟩⟩
      · simp only [readFd, hfd, if_false, if_true]
        exact hrun
      · simp [headerOfFd] at hh
  | header hlen htake =>
      rename_i cache
      obtain ⟨bs, io', hrec, hreads, hle⟩ := recvHeader_spec cache hlen io
      rw [readFd_header hfd hlen hle hrec]
      by_cases hall : s.length + bs.length = 12
      · have hhdr : (s ++ bs).length = 12 := by rw [List.length_append, hall]
        have hheader := headerOfFd_complete hfd htake hall hrec
        rw [if_pos hall, fill_full htake hall, hheader]
        by_cases hnone : malloc (blockSize (decodeHeader (s ++ bs)).length) = none
        · obtain ⟨q, hmid⟩ :=
            toMidState_none (p := ⟨decodeHeader (s ++ bs), false, 12 - (s.length : Nat), none⟩) hnone
          exact ⟨bs, none, _, io', by rw [hmid]; rfl, hreads,
            Or.inl ⟨_, rfl, hnone, (wire_decodeHeader hhdr).symm, rfl, Holds.init q⟩⟩
        · have hlt := (hok _ hheader).resolve_right hnone
          obtain ⟨payload, hfull, hmid⟩ :=
            toMidState_some (p := ⟨decodeHeader (s ++ bs), false, 12 - (s.length : Nat), none⟩) hnone hlt
          obtain ⟨bs', ret, p', io'', hbody, hreads', hfed⟩ := readFdPayload_fed .zeroed
            (decodeHeader (s ++ bs)) (r := []) hfull hlt rfl (Nat.zero_le _) io'
          refine ⟨bs ++ bs', ret, p', io'', ?_, hreads.trans hreads', Or.inr ⟨?_, ?_⟩⟩
          · rw [hmid]
            simpa using hbody
          · intro h hh
            cases hh
            exact hnone
          · simpa [wire_decodeHeader hhdr] using hfed
      · rw [if_neg hall, headerOfFd_incomplete hall hrec]
        have hholds := fill_holds htake (Nat.lt_of_le_of_ne hle hall)
        rw [List.length_append] at hholds
        exact ⟨bs, none, _, io', rfl, hreads, Or.inr ⟨fun h hh => (by cases hh), .more hholds⟩⟩

theorem readFd_fed (malloc : Malloc) {p : MsgParser} {s : List UInt8} {fd : Int} (hfd : fd ≠ -1) (hp : Holds p s)
    (io : σ) (hok : ∀ h, p.headerOfFd fd io = some h → LengthOk malloc h) :
    ∃ bs ret p' io', p.readFd malloc fd io = .ok (ret, p', io') ∧ Reads io bs io' ∧
      Fed malloc (s ++ bs) ret p' [] := by
  obtain ⟨bs, ret, p', io', hrun, hreads, hcase⟩ := readFd_spec malloc hfd hp io hok
  refine ⟨bs, ret, p', io', hrun, hreads, ?_⟩
  rcases hcase with ⟨h, _, hnone, hwire, rfl, hp'⟩ | ⟨_, hfed⟩
  · have hfed : Fed malloc (h.wire ++ []) none p' [] :=
      .drop (Header.length_wire h) (by rw [decodeHeader_wire]; exact hnone) hp'
    rwa [List.append_nil, ← hwire] at hfed
  · exact hfed.of_zeroed

end descriptor

end MsgParser

end CompileService.Wire
