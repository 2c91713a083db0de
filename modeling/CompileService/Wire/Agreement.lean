import CompileService.Wire.Bounds
import CompileService.Wire.Stream

/-!
# The two read functions agree

`MParser_ReadFd` and `MParser_ReadMem` are two copies of one state machine with different arithmetic. From the same
state, on the same bytes and with the same outcome of `malloc` they return the same message and leave parsers that
cannot be told apart by what they have received.
-/

namespace CompileService.Wire

open CompileService.Base

/-- What a parser has received: the header bytes in its cache, and the message with the beginning of its payload. -/
structure Observed where
  header : Bool
  need : Int
  cached : List UInt8
  msg : Option (Header × List UInt8)
deriving DecidableEq, Repr

/-- Two calls of `malloc` that both succeed or both fail; the contents of their blocks may differ. -/
def SameOutcome (malloc malloc' : Malloc) : Prop := ∀ n, malloc n = none ↔ malloc' n = none

theorem Fed.unique {malloc : Malloc} (hmalloc : ∀ n, malloc n ≠ none) {t rest rest' : List UInt8}
    {ret ret' : Option Message} {p q : MsgParser} (h : Fed malloc t ret p rest) (h' : Fed malloc t ret' q rest') :
    ret = ret' ∧ ∃ s, Holds p s ∧ Holds q s := by
  generalize ht : t = t' at h'
  cases h with
  | more hp =>
      cases h' with
      | more hq => exact ⟨rfl, t, hp, ht ▸ hq⟩
      | done hfull _ _ => exact absurd (hfull.frame.whole.append _) (ht ▸ hp.not_whole)
      | drop _ hnone _ => exact absurd hnone (hmalloc _)
  | done hfull _ hp =>
      cases h' with
      | more hq => exact absurd (hfull.frame.whole.append _) (ht ▸ hq.not_whole)
      | done hfull' _ hq =>
          obtain ⟨hwire, _⟩ := hfull.frame.append_inj hfull'.frame ht
          exact ⟨congrArg some (Message.wire_inj hwire), [], hp, hq⟩
      | drop _ hnone _ => exact absurd hnone (hmalloc _)
  | drop _ hnone _ => exact absurd hnone (hmalloc _)

theorem Fed.length_lt {malloc : Malloc} {t : List UInt8} {ret : Option Message} {p : MsgParser}
    (h : Fed malloc t ret p []) : t.length < 2 ^ 32 := by
  generalize hrest : [] = rest at h
  cases h with
  | more hp =>
      cases hp with
      | header hlen _ => omega
      | payload _ hlt _ hle =>
          rw [List.length_append, Header.length_wire]
          omega
  | done hfull hlt _ =>
      rw [← hrest, List.append_nil, Message.length_wire, hfull]
      omega
  | drop hlen _ _ =>
      rw [← hrest, List.append_nil, hlen]
      decide

namespace MsgParser

def observe (p : MsgParser) : Observed where
  header := p.header
  need := p.need
  cached := if p.header then p.cache.bytes else p.cache.bytes.take (sizeofMessage - p.need).toNat
  msg := p.msg.map fun m => (m.toHeader, m.payload.take (m.length.toNat - p.need).toNat)

/-- The message under construction has the header that is in the cache. -/
def HeaderCached (p : MsgParser) : Prop := ∀ m, p.msg = some m → p.header = true ∧ m.toHeader = p.cache

/-! ## The cache -/

section
variable {malloc : Malloc} {p p' : MsgParser} {ret : Option Message}

theorem headerCached_of_none (h : p.msg = none) : p.HeaderCached := by
  intro m hm
  rw [h] at hm
  cases hm

theorem finish_headerCached (hp : p.HeaderCached) : p.finish.2.HeaderCached := by
  unfold finish toLastState
  split
  · exact headerCached_of_none rfl
  · rename_i q hq
    split at hq
    · obtain ⟨_, rfl⟩ := Prod.mk.inj hq
      exact headerCached_of_none rfl
    · cases hq
      exact hp

theorem toMidState_headerCached {ok : Bool} (h : p.toMidState malloc = .ok (ok, p')) : p'.HeaderCached := by
  unfold toMidState at h
  simp only at h
  split at h
  · cases h
    exact headerCached_of_none rfl
  · split at h
    · cases h
      intro m hm
      cases hm
      exact ⟨rfl, rfl⟩
    · cases h

/-- Storing payload bytes leaves the header of the message alone. -/
theorem HeaderCached.setPayload {m : Message} (hp : p.HeaderCached) (hm : p.msg = some m) (need : Int)
    (payload : List UInt8) : HeaderCached { p with need := need, msg := some { m with payload := payload } } := by
  intro m' hm'
  cases hm'
  exact hp m hm

theorem readMemPayload_headerCached {mem : Mem} (hp : p.HeaderCached)
    (h : p.readMemPayload mem = .ok (ret, p')) : p'.HeaderCached := by
  unfold readMemPayload at h
  split at h
  · have hfin : p.finish = (ret, p') := Except.ok.inj h
    have hq := finish_headerCached hp
    rwa [hfin] at hq
  · rename_i m hm
    obtain ⟨payload, _, hret⟩ := Exec.bind_eq_ok.mp h
    have hfin : finish _ = (ret, p') := Except.ok.inj hret
    have hq := finish_headerCached (hp.setPayload hm (toInt32 (p.need - copyLen p.need mem.length)) payload)
    rwa [hfin] at hq

theorem readMem_headerCached {mem : Option Mem} (hp : p.HeaderCached)
    (h : p.readMem malloc mem = .ok (ret, p')) : p'.HeaderCached := by
  cases mem with
  | none =>
      cases h
      exact hp
  | some mem =>
      unfold readMem at h
      simp only at h
      split at h
      · exact readMemPayload_headerCached hp h
      · rename_i hheader
        obtain ⟨bytes, _, h⟩ := Exec.bind_eq_ok.mp h
        split at h
        · obtain ⟨⟨ok, q⟩, hmid, h⟩ := Exec.bind_eq_ok.mp h
          have hq := toMidState_headerCached hmid
          cases ok with
          | true => exact readMemPayload_headerCached hq h
          | false =>
              cases h
              exact headerCached_of_none rfl
        · cases h
          exact fun m hm => absurd (hp m hm).1 hheader

section
variable {σ : Type} [Readable σ] {io io' : σ}

theorem readFdPayload_headerCached (hp : p.HeaderCached)
    (h : p.readFdPayload io = .ok (ret, p', io')) : p'.HeaderCached := by
  unfold readFdPayload at h
  split at h
  · cases h
    exact finish_headerCached hp
  · rename_i m hm
    obtain ⟨⟨len, payload, io₁⟩, _, hret⟩ := Exec.bind_eq_ok.mp h
    cases hret
    exact finish_headerCached (hp.setPayload hm _ payload)

theorem readFd_headerCached {fd : Int} (hp : p.HeaderCached)
    (h : p.readFd malloc fd io = .ok (ret, p', io')) : p'.HeaderCached := by
  unfold readFd at h
  split at h
  · cases h
    exact hp
  split at h
  · exact readFdPayload_headerCached hp h
  · rename_i hheader
    obtain ⟨⟨len, bytes, io₁⟩, _, h⟩ := Exec.bind_eq_ok.mp h
    simp only at h
    split at h
    · obtain ⟨⟨ok, q⟩, hmid, h⟩ := Exec.bind_eq_ok.mp h
      have hq := toMidState_headerCached hmid
      cases ok with
      | true => exact readFdPayload_headerCached hq h
      | false =>
          cases h
          exact headerCached_of_none rfl
    · cases h
      exact fun m hm => absurd (hp m hm).1 hheader

end

end

/-! ## What is observed -/

/-- Parsers that have received the same bytes look the same. -/
theorem observe_eq {p q : MsgParser} {s : List UInt8} (hp : Holds p s) (hq : Holds q s)
    (hpc : p.HeaderCached) (hqc : q.HeaderCached) : p.observe = q.observe := by
  generalize hs : s = s' at hq
  cases hp with
  | header hlen htake =>
      cases hq with
      | header hlen' htake' =>
          subst hs
          have hback : ((sizeofMessage : Int) - (12 - (s.length : Nat))).toNat = s.length := by
            unfold sizeofMessage
            omega
          simp only [observe, Bool.false_eq_true, if_false, hback, htake, htake', Option.map_none]
      | payload =>
          rw [hs, List.length_append, Header.length_wire] at hlen
          omega
  | payload hfull hlt hr hle =>
      rename_i cache m r
      cases hq with
      | header hlen' htake' =>
          rw [← hs, List.length_append, Header.length_wire] at hlen'
          omega
      | payload hfull' hlt' hr' hle' =>
          rename_i cache' m' r'
          obtain ⟨hhdr, rfl⟩ := List.append_inj hs (by rw [Header.length_wire, Header.length_wire])
          have hheader : m.toHeader = m'.toHeader := by
            rw [← decodeHeader_wire m.toHeader, hhdr, decodeHeader_wire]
          have hcache : m.toHeader = cache := (hpc m rfl).2
          have hcache' : m'.toHeader = cache' := (hqc m' rfl).2
          have hback : ((m'.length.toNat : Int) - (m'.length.toNat - (r.length : Nat))).toNat = r.length := by
            omega
          simp only [observe, if_true, ← hcache, ← hcache', hheader, Option.map_some, hback, hr, hr']

/-! ## One call -/

variable {malloc malloc' : Malloc} {p : MsgParser} {s : List UInt8}

theorem readMem_nothing (malloc : Malloc) (hp : Holds p s) (hpc : p.HeaderCached) :
    ∃ q, p.readMem malloc (some ⟨[], by decide⟩) = .ok (none, q) ∧ q.observe = p.observe := by
  cases hp with
  | header hlen htake =>
      have hn : 0 = min (12 - s.length) (Mem.length ⟨[], by decide⟩) := (Nat.min_zero _).symm
      refine ⟨_, ?_, rfl⟩
      rw [readMem_header hlen hn, if_neg (by omega), List.take_nil, writeAt_nil, Header.ofBytes_bytes,
        Nat.add_zero]
  | payload hfull hlt hr hle =>
      obtain ⟨ret, q, rest, hrun, hfed⟩ :=
        readMemPayload_fed Malloc.zeroed _ hfull hlt hr (Nat.le_of_lt hle) ⟨[], by decide⟩
      rw [List.append_nil] at hfed
      obtain ⟨rfl, t, hp, hq⟩ := (Fed.more (.payload hfull hlt hr hle)).unique (by simp [Malloc.zeroed]) hfed
      exact ⟨q, hrun, observe_eq hq hp (readMemPayload_headerCached hpc hrun) hpc⟩

section
variable {σ : Type} [Readable σ] {m m' : Message} {r : List UInt8}

/-- The payload parts on the same bytes, of messages that differ at most in what they have not received. -/
theorem readFdPayload_agree (cache : Header) (hhdr : m.toHeader = m'.toHeader) (hfull : m.Full) (hfull' : m'.Full)
    (hlt : m.length.toNat < 2 ^ 31) (hr : m.payload.take r.length = r) (hr' : m'.payload.take r.length = r)
    (hle : r.length ≤ m.length.toNat) (io : σ) :
    ∃ bs ret p' io', readFdPayload ⟨cache, true, m.length.toNat - r.length, some m⟩ io = .ok (ret, p', io') ∧
      Reads io bs io' ∧ (m.toHeader.wire ++ r ++ bs).length < 2 ^ 32 ∧ ∀ mem : Mem, mem.bytes = bs →
        ∃ q, readMemPayload ⟨cache, true, m.length.toNat - r.length, some m'⟩ mem = .ok (ret, q) ∧
          ∃ t, Holds p' t ∧ Holds q t := by
  obtain ⟨bs, ret, p', io', hrun, hreads, hfed⟩ :=
    readFdPayload_fed Malloc.zeroed cache hfull hlt hr hle io
  refine ⟨bs, ret, p', io', hrun, hreads, hfed.length_lt, ?_⟩
  rintro mem rfl
  have hL : m'.length = m.length := congrArg Header.length hhdr.symm
  obtain ⟨ret', q, rest, hrun', hfed'⟩ := readMemPayload_fed Malloc.zeroed cache hfull'
    (by rw [hL]; exact hlt) hr' (by rw [hL]; exact hle) mem
  rw [hL] at hrun'
  rw [← hhdr] at hfed'
  obtain ⟨rfl, hheld⟩ := hfed.unique (by simp [Malloc.zeroed]) hfed'
  exact ⟨q, hrun', hheld⟩

/-- After a complete header the two allocations both fail, or the payload parts agree. -/
theorem toMidState_agree (hmalloc : SameOutcome malloc malloc') {hdr : Header} (hok : LengthOk malloc hdr)
    (need : Int) :
    (∃ payload payload', Message.Full ⟨hdr, payload⟩ ∧ Message.Full ⟨hdr, payload'⟩ ∧ hdr.length.toNat < 2 ^ 31 ∧
      toMidState malloc ⟨hdr, false, need, none⟩ =
        .ok (true, ⟨hdr, true, hdr.length.toNat, some ⟨hdr, payload⟩⟩) ∧
      toMidState malloc' ⟨hdr, false, need, none⟩ =
        .ok (true, ⟨hdr, true, hdr.length.toNat, some ⟨hdr, payload'⟩⟩)) ∨
    ∃ p p', toMidState malloc ⟨hdr, false, need, none⟩ = .ok (false, p) ∧
      toMidState malloc' ⟨hdr, false, need, none⟩ = .ok (false, p') := by
  by_cases hnone : malloc (blockSize hdr.length) = none
  · obtain ⟨q, hmid⟩ := toMidState_none (p := ⟨hdr, false, need, none⟩) hnone
    obtain ⟨q', hmid'⟩ := toMidState_none (p := ⟨hdr, false, need, none⟩) ((hmalloc _).mp hnone)
    exact Or.inr ⟨q, q', hmid, hmid'⟩
  · have hlt := hok.resolve_right hnone
    obtain ⟨payload, hfull, hmid⟩ := toMidState_some (p := ⟨hdr, false, need, none⟩) hnone hlt
    obtain ⟨payload', hfull', hmid'⟩ :=
      toMidState_some (p := ⟨hdr, false, need, none⟩) (fun h => hnone ((hmalloc _).mpr h)) hlt
    exact Or.inl ⟨payload, payload', hfull, hfull', hlt, hmid, hmid'⟩

theorem readMem_split (malloc : Malloc) {cache : Header} {bs bs' : List UInt8} (hlen : s.length < 12)
    (htake : cache.bytes.take s.length = s) (hall : s.length + bs.length = 12) (mem : Mem)
    (hmem : mem.bytes = bs ++ bs') :
    ∃ rest : Mem, rest.bytes = bs' ∧ readMem malloc ⟨cache, false, 12 - s.length, none⟩ (some mem) =
      toMidState malloc ⟨decodeHeader (s ++ bs), false, 12 - s.length, none⟩ >>= fun r =>
        if r.1 then r.2.readMemPayload rest else .ok (none, r.2.initState) := by
  have hhdr : (s ++ bs).length = 12 := by rw [List.length_append, hall]
  have hlong : 12 ≤ (s ++ mem.bytes).length := by
    rw [hmem, ← List.append_assoc, List.length_append, hhdr]
    omega
  have hcut : (s ++ mem.bytes).take 12 = s ++ bs := by
    rw [hmem, ← List.append_assoc, List.take_append_of_le_length (Nat.le_of_eq hhdr.symm),
      List.take_of_length_le (Nat.le_of_eq hhdr)]
  have hadv : 12 - s.length = bs.length := by omega
  refine ⟨mem.advance (12 - s.length), ?_, by rw [readMem_complete hlen htake hlong, hcut]⟩
  show mem.bytes.drop (12 - s.length) = bs'
  rw [hadv, hmem, List.drop_left]

/-- From a state that holds `s`, some bytes read from the descriptor have the effect that they have from memory. -/
theorem readFd_readMem (hmalloc : SameOutcome malloc malloc') {fd : Int} (hfd : fd ≠ -1) (hp : Holds p s)
    (io : σ) (hok : ∀ h, p.headerOfFd fd io = some h → LengthOk malloc h) :
    ∃ ret p' io' mem q, p.readFd malloc fd io = .ok (ret, p', io') ∧ Reads io mem.bytes io' ∧
      p.readMem malloc' (some mem) = .ok (ret, q) ∧ ∃ t, Holds p' t ∧ Holds q t := by
  cases hp with
  | payload hfull hlt hr hle =>
      rename_i cache m r
      obtain ⟨bs, ret, p', io', hrun, hreads, hlen, hmem⟩ :=
        readFdPayload_agree cache rfl hfull hfull hlt hr hr (Nat.le_of_lt hle) io
      have hbs : bs.length < 2 ^ 32 := by
        rw [List.length_append] at hlen
        omega
      obtain ⟨q, hrun', hheld⟩ := hmem ⟨bs, hbs⟩ rfl
      refine ⟨ret, p', io', ⟨bs, hbs⟩, q, ?_, hreads, hrun', hheld⟩
      simp only [readFd, hfd, if_false, if_true]
      exact hrun
  | header hlen htake =>
      rename_i cache
      obtain ⟨bs, io₁, hrec, hreads, hle⟩ := recvHeader_spec cache hlen io
      rw [readFd_header hfd hlen hle hrec]
      by_cases hall : s.length + bs.length = 12
      · have hhdr : (s ++ bs).length = 12 := by rw [List.length_append, hall]
        rw [if_pos hall, fill_full htake hall]
        rcases toMidState_agree hmalloc (hok _ (headerOfFd_complete hfd htake hall hrec)) (12 - (s.length : Nat)) with
          ⟨payload, payload', hfull, hfull', hlt, hmid, hmid'⟩ | ⟨q, q', hmid, hmid'⟩
        · have hsame : (Message.mk (decodeHeader (s ++ bs)) payload).toHeader =
              (Message.mk (decodeHeader (s ++ bs)) payload').toHeader := rfl
          obtain ⟨bs', ret, p', io', hrun, hreads', hlen', hmem⟩ := readFdPayload_agree (decodeHeader (s ++ bs))
            (r := []) hsame hfull hfull' hlt rfl rfl (Nat.zero_le _) io₁
          have hbs : (bs ++ bs').length < 2 ^ 32 := by
            rw [List.append_nil, List.length_append, Header.length_wire] at hlen'
            rw [List.length_append]
            omega
          obtain ⟨rest, hrest, hsplit⟩ :=
            readMem_split malloc' hlen htake hall ⟨bs ++ bs', hbs⟩ rfl
          obtain ⟨q, hrun', hheld⟩ := hmem rest hrest
          refine ⟨ret, p', io', ⟨bs ++ bs', hbs⟩, q, ?_, hreads.trans hreads', ?_, hheld⟩
          · rw [hmid]
            simpa using hrun
          · rw [hsplit, hmid']
            simpa using hrun'
        · obtain ⟨rest, _, hsplit⟩ :=
            readMem_split malloc' hlen htake hall ⟨bs, by omega⟩ (List.append_nil bs).symm
          refine ⟨none, _, io₁, ⟨bs, by omega⟩, _, by rw [hmid]; rfl, hreads, by rw [hsplit, hmid']; rfl, [],
            Holds.init q, Holds.init q'⟩
      · -- the header is still incomplete
        have hlt : s.length + bs.length < 12 := Nat.lt_of_le_of_ne hle hall
        have hn : bs.length = min (12 - s.length) (Mem.length ⟨bs, by omega⟩) := by
          show bs.length = min (12 - s.length) bs.length
          omega
        have hheld := fill_holds htake hlt
        rw [List.length_append] at hheld
        refine ⟨none, _, io₁, ⟨bs, by omega⟩, _, if_neg hall, hreads, ?_, s ++ bs, hheld, hheld⟩
        rw [readMem_header hlen hn, if_neg hall, List.take_length]

end

end MsgParser

/-! ## Agreement -/

theorem Op.step_headerCached {σ : Type} [Readable σ] {p q : MsgParser} {op : Op σ} (hp : p.HeaderCached)
    (h : op.step p = .ok q) : q.HeaderCached := by
  cases op with
  | readMem malloc mem =>
      obtain ⟨⟨ret, q'⟩, hrun, hret⟩ := Exec.bind_eq_ok.mp h
      cases hret
      exact MsgParser.readMem_headerCached hp hrun
  | readFd malloc fd io =>
      obtain ⟨⟨ret, q', io'⟩, hrun, hret⟩ := Exec.bind_eq_ok.mp h
      cases hret
      exact MsgParser.readFd_headerCached hp hrun
  | reset =>
      cases h
      exact MsgParser.headerCached_of_none rfl

/-- The states that a run with good lengths reaches. -/
theorem MsgParser.LengthsOk.holds {τ : Type} [Readable τ] {ops : List (Op τ)} {p : MsgParser}
    (h : LengthsOk MsgParser.fresh ops) (hrun : ops.foldlM Op.step MsgParser.fresh = .ok p) :
    (∃ s, Holds p s) ∧ p.HeaderCached := by
  have hstep : ∀ (p : MsgParser) (op : Op τ), (∃ s, Holds p s) ∧ p.HeaderCached → op.LengthOk p →
      ∃ q, op.step p = .ok q ∧ (∃ s, Holds q s) ∧ q.HeaderCached := by
    rintro p op ⟨⟨s, hp⟩, hpc⟩ hok
    obtain ⟨q, s', hq, hholds⟩ := Op.step_holds hp hok
    exact ⟨q, hq, ⟨s', hholds⟩, Op.step_headerCached hpc hq⟩
  obtain ⟨p', hrun', hinv⟩ := Along.run hstep ⟨⟨[], Holds.fresh⟩, headerCached_of_none rfl⟩ h
  obtain rfl := Except.ok.inj (hrun.symm.trans hrun')
  exact hinv

/-- Agreement of the read functions. From every state that a run with good lengths reaches, a `MParser_ReadFd` call
that consumes some bytes and a `MParser_ReadMem` call on these bytes return the same message and leave parsers that
look the same, if `malloc` has the same outcome in both. -/
theorem readFd_readMem_agree {σ τ : Type} [ByteStream σ] [Readable τ] {ops : List (Op τ)} {p : MsgParser}
    (hops : MsgParser.LengthsOk MsgParser.fresh ops) (hrun : ops.foldlM Op.step MsgParser.fresh = .ok p)
    {malloc malloc' : Malloc} (hmalloc : SameOutcome malloc malloc') (fd : Int) (io : σ)
    (hok : (Op.readFd malloc fd io).LengthOk p) :
    ∃ ret p' io' mem q, p.readFd malloc fd io = .ok (ret, p', io') ∧
      ByteStream.inbox io = mem.bytes ++ ByteStream.inbox io' ∧
      p.readMem malloc' (some mem) = .ok (ret, q) ∧ q.observe = p'.observe := by
  obtain ⟨⟨s, hp⟩, hpc⟩ := hops.holds hrun
  by_cases hfd : fd = -1
  · -- no descriptor: nothing is read
    obtain ⟨q, hmem, hobs⟩ := MsgParser.readMem_nothing malloc' hp hpc
    refine ⟨none, p, io, ⟨[], by decide⟩, q, ?_, rfl, hmem, hobs⟩
    simp only [MsgParser.readFd, hfd, if_true]
  · obtain ⟨ret, p', io', mem, q, hfdrun, hreads, hmemrun, t, hp', hq⟩ :=
      MsgParser.readFd_readMem hmalloc hfd hp io hok
    exact ⟨ret, p', io', mem, q, hfdrun, hreads.inbox_eq, hmemrun,
      MsgParser.observe_eq hq hp' (MsgParser.readMem_headerCached hpc hmemrun)
        (MsgParser.readFd_headerCached hpc hfdrun)⟩

theorem readFd_readMem_agree_fresh :
    let io : Sock := ⟨wires [⟨⟨1, 2, 3, 4, 2⟩, [7, 8]⟩], Stream'.const (.count 4)⟩
    ∃ ret p' io' mem q, MsgParser.fresh.readFd .zeroed 3 io = .ok (ret, p', io') ∧
      ByteStream.inbox io = mem.bytes ++ ByteStream.inbox io' ∧
      MsgParser.fresh.readMem .zeroed (some mem) = .ok (ret, q) ∧ q.observe = p'.observe := by
  intro io
  have hops : MsgParser.LengthsOk MsgParser.fresh ([] : List (Op Sock)) := trivial
  have hms : ∀ m ∈ [(⟨⟨1, 2, 3, 4, 2⟩, [7, 8]⟩ : Message)], m.Sendable := by decide
  have hio : [] ++ ByteStream.inbox io = wires [⟨⟨1, 2, 3, 4, 2⟩, [7, 8]⟩] := rfl
  exact readFd_readMem_agree hops rfl (fun _ => Iff.rfl) 3 io (lengthOk_of_stream hms Holds.fresh hio)

end CompileService.Wire
