import CompileService.Wire.UdpPoint
import CompileService.Wire.Lemmas.Holds

/-!
# Messages in datagrams

The datagrams of all senders go through the one parser of a point, and nothing resets it between them: what an
earlier datagram leaves unfinished is put in front of the next one. A datagram with a message yields that
message exactly when what is left over, followed by the message, still begins with the message.
-/

namespace CompileService.Wire

open CompileService.Base

/-- One `UdpPoint_RecvMsg`: the two allocations, the datagram that it takes, and what the caller's buffers held. -/
structure Receive where
  buffer : Malloc
  malloc : Malloc
  datagram : Datagram
  remote : String
  port : Int

structure Receive.Allocates (r : Receive) : Prop where
  buffer : r.buffer.Succeeds
  malloc : r.malloc.Succeeds

namespace UdpPoint

def receive (c : UdpPoint) (r : Receive) :
    Exec (Option Message × Option String × Option Int × UdpPoint) :=
  recvMsg r.buffer r.malloc c r.datagram (some r.remote) (some r.port)

def receives : List Receive → UdpPoint → Exec UdpPoint
  | [], c => .ok c
  | r :: rs, c => do
      let (_, _, _, c) ← c.receive r
      receives rs c

/-- After the receives `earlier` on a new point, the receive `r` returns `m` and the sender of its datagram. -/
def Isolated (fd : Int) (earlier : List Receive) (r : Receive) (m : Message) : Prop :=
  ∃ c c', receives earlier ⟨fd, MsgParser.fresh⟩ = .ok c ∧
    c.receive r = .ok (some m, some r.datagram.sender.ip, some r.datagram.sender.port.toNat, c')

/-- What the bytes `t` at hand leave for later: nothing once a message is complete or has no block, and `none`
if the header of a message overflows the block for it. -/
def settle (t : List UInt8) : Option (List UInt8) :=
  if t.length < 12 then some t
  else
    let length := (decodeHeader (t.take 12)).length.toNat
    if 2 ^ 32 - 12 ≤ length then none
    else if 2 ^ 31 ≤ length ∨ 12 + length ≤ t.length then some []
    else some t

/-- What a sequence of datagrams leaves over, each cut to the size of `g_temp`. -/
def leftover : List Datagram → List UInt8 → Option (List UInt8)
  | [], s => some s
  | d :: ds, s => (settle (s ++ d.data.take 4096)).bind (leftover ds)

end UdpPoint

/-! ## One datagram -/

section
variable {malloc : Malloc} {p : MsgParser} {s s' : List UInt8}

theorem blockSize_of_ge {length : UInt32} (h : 2 ^ 31 ≤ length.toNat) :
    blockSize length = toSize ((12 : Int) + (length.toNat - 2 ^ 32)) := by
  have hlt := length.toNat_lt
  have hneed : toInt32 (length.toNat : Int) = length.toNat - 2 ^ 32 := toInt32_of_large (by omega) (by omega)
  rw [blockSize, hneed]
  rfl

theorem malloc_eq_none (hmalloc : malloc.Succeeds) {length : UInt32} (hge : 2 ^ 31 ≤ length.toNat)
    (hlt : length.toNat < 2 ^ 32 - 12) : malloc (blockSize length) = none := by
  apply hmalloc.bounded
  rw [blockSize_of_ge hge]
  unfold toSize ptrdiffMax
  omega

theorem lt_of_malloc_eq_none (hmalloc : malloc.Succeeds) {length : UInt32}
    (hnone : malloc (blockSize length) = none) : 2 ^ 31 ≤ length.toNat := by
  by_contra hlt
  have hsize := blockSize_of_lt (Nat.not_le.mp hlt)
  exact hmalloc.serves _ (by rw [hsize]; unfold ptrdiffMax; omega) hnone

theorem Fed.settle {t rest : List UInt8} {ret : Option Message} (hmalloc : malloc.Succeeds)
    (hfed : Fed malloc t ret p rest) (h : UdpPoint.settle t = some s') : Holds p s' := by
  cases hfed with
  | more hp =>
      have ht : UdpPoint.settle t = some t := by
        cases hp with
        | header hlen _ => exact if_pos hlen
        | payload _ hlt _ hr =>
            rename_i m r _ _
            have hlen : (m.toHeader.wire ++ r).length = 12 + r.length := by simp
            simp only [UdpPoint.settle, take_wire_append, decodeHeader_wire, hlen]
            rw [if_neg (by omega), if_neg (by omega), if_neg (by omega)]
      rw [ht] at h
      cases h
      exact hp
  | done hfull hlt hp =>
      rename_i m
      have hlen : (m.wire ++ rest).length = 12 + m.length.toNat + rest.length := by
        rw [List.length_append, Message.length_wire, hfull]
      have hhdr : (m.wire ++ rest).take 12 = m.toHeader.wire := by
        rw [Message.wire_eq, List.append_assoc, take_wire_append]
      simp only [UdpPoint.settle, hhdr, decodeHeader_wire, hlen] at h
      rw [if_neg (by omega), if_neg (by omega), if_pos (by omega)] at h
      cases h
      exact hp
  | drop hlen hnone hp =>
      rename_i hdr
      have hge := lt_of_malloc_eq_none hmalloc hnone
      have hhdr : (hdr ++ rest).take 12 = hdr := by
        rw [List.take_append_of_le_length (by omega), List.take_of_length_le (by omega)]
      simp only [UdpPoint.settle, hhdr, List.length_append] at h
      rw [if_neg (by omega)] at h
      split at h
      · cases h
      · rw [if_pos (Or.inl hge)] at h
        cases h
        exact hp

theorem Fed.ret_iff {t rest : List UInt8} {ret : Option Message} {m : Message} (hmalloc : malloc.Succeeds)
    (hfed : Fed malloc t ret p rest) (hm : m.Full) (hlt : m.length.toNat < 2 ^ 31) :
    ret = some m ↔ m.wire <+: t := by
  constructor
  · intro hret
    subst hret
    cases hfed with
    | done => exact ⟨rest, rfl⟩
  · rintro ⟨u, rfl⟩
    generalize ht : m.wire ++ u = t at hfed
    cases hfed with
    | more hp => exact absurd (ht ▸ hm.frame.whole.append u) hp.not_whole
    | done hm' _ _ =>
        obtain ⟨hwire, _⟩ := hm.frame.append_inj hm'.frame ht
        rw [Message.wire_inj hwire]
    | drop hlen hnone _ =>
        rw [Message.wire_eq, List.append_assoc] at ht
        obtain ⟨rfl, _⟩ := List.append_inj ht (by rw [hlen, Header.length_wire])
        rw [decodeHeader_wire] at hnone
        exact absurd hlt (Nat.not_lt.mpr (lt_of_malloc_eq_none hmalloc hnone))

namespace MsgParser

theorem readMem_settle (hmalloc : malloc.Succeeds) (hp : Holds p s) {mem : Mem}
    (h : UdpPoint.settle (s ++ mem.bytes) = some s') :
    ∃ ret p' rest, p.readMem malloc (some mem) = .ok (ret, p') ∧ Holds p' s' ∧
      Fed malloc (s ++ mem.bytes) ret p' rest := by
  have hok : ∀ hdr, p.headerOfMem mem = some hdr → LengthOk malloc hdr := by
    intro hdr hhdr
    obtain ⟨hlen, rfl⟩ := headerOfMem_eq hp hhdr
    simp only [UdpPoint.settle] at h
    rw [if_neg (Nat.not_lt.mpr hlen)] at h
    split at h
    · cases h
    · rename_i hlt
      rcases Nat.lt_or_ge (decodeHeader ((s ++ mem.bytes).take 12)).length.toNat (2 ^ 31) with hsmall | hge
      · exact Or.inl hsmall
      · exact Or.inr (malloc_eq_none hmalloc hge (Nat.not_le.mp hlt))
  obtain ⟨ret, p', rest, hrun, hfed⟩ := readMem_fed malloc hp mem hok
  exact ⟨ret, p', rest, hrun, hfed.settle hmalloc h, hfed⟩

theorem toMidState_overflow (p : MsgParser) (hmalloc : malloc.Succeeds) (hge : 2 ^ 32 - 12 ≤ p.cache.length.toNat) :
    p.toMidState malloc = .error .bounds := by
  have hL := p.cache.length.toNat_lt
  have hsize : blockSize p.cache.length < sizeofMessage := by
    rw [blockSize_of_ge (by omega)]
    unfold toSize sizeofMessage
    omega
  have hsome := hmalloc.serves (blockSize p.cache.length)
    (Nat.le_trans (Nat.le_of_lt hsize) (by decide))
  unfold blockSize at hsize hsome
  unfold toMidState
  simp only
  split
  · rename_i hnone
    exact absurd hnone hsome
  · exact if_neg (Nat.not_le.mpr hsize)

theorem readMem_settle_none (hmalloc : malloc.Succeeds) (hp : Holds p s) {mem : Mem}
    (h : UdpPoint.settle (s ++ mem.bytes) = none) : p.readMem malloc (some mem) = .error .bounds := by
  unfold UdpPoint.settle at h
  split at h
  · cases h
  rename_i hlen12
  simp only at h
  split at h
  · rename_i hge
    cases hp with
    | payload _ hlt _ _ =>
        rw [List.append_assoc, take_wire_append, decodeHeader_wire] at hge
        omega
    | header hlen htake =>
        rw [readMem_complete hlen htake (Nat.not_lt.mp hlen12), toMidState_overflow _ hmalloc,
          Exec.error_bind]
        exact hge
  · split at h
    · cases h
    · cases h

end MsgParser

theorem UdpPoint.receive_settle {c : UdpPoint} {r : Receive} (hr : r.Allocates)
    (hdata : r.datagram.data ≠ []) (hp : Holds c.parser s)
    (h : settle (s ++ r.datagram.data.take 4096) = some s') :
    ∃ ret c' rest, c.receive r = .ok (ret, if ret.isSome then some r.datagram.sender.ip else some r.remote,
        if ret.isSome then some (r.datagram.sender.port.toNat : Int) else some r.port, c') ∧
      Holds c'.parser s' ∧ Fed r.malloc (s ++ r.datagram.data.take 4096) ret c'.parser rest := by
  rw [← chunk_bytes] at h ⊢
  obtain ⟨ret, p', rest, hrun, hp', hfed⟩ := MsgParser.readMem_settle hr.malloc hp h
  refine ⟨ret, { c with parser := p' }, rest, ?_, hp', hfed⟩
  rw [receive, recvMsg_eq hr.buffer.serves hdata, hrun]
  rfl

theorem UdpPoint.receive_settle_none {c : UdpPoint} {r : Receive} (hr : r.Allocates)
    (hdata : r.datagram.data ≠ []) (hp : Holds c.parser s)
    (h : settle (s ++ r.datagram.data.take 4096) = none) : c.receive r = .error .bounds := by
  rw [← chunk_bytes] at h
  rw [receive, recvMsg_eq hr.buffer.serves hdata, MsgParser.readMem_settle_none hr.malloc hp h]
  rfl

end

/-! ## All datagrams -/

namespace UdpPoint

/-- After some receives the parser holds what the datagrams leave over; the run ends where that says so. -/
theorem receives_spec {rs : List Receive} (hallocs : ∀ r ∈ rs, r.Allocates)
    (hdata : ∀ r ∈ rs, r.datagram.data ≠ []) {c : UdpPoint} {s : List UInt8} (hp : Holds c.parser s) :
    match leftover (rs.map Receive.datagram) s with
    | some s' => ∃ c', receives rs c = .ok c' ∧ Holds c'.parser s'
    | none => receives rs c = .error .bounds := by
  induction rs generalizing c s with
  | nil => exact ⟨c, rfl, hp⟩
  | cons r rs ih =>
      have hr := hallocs r (by simp)
      have hd := hdata r (by simp)
      rw [List.map_cons, leftover]
      cases hs : settle (s ++ r.datagram.data.take 4096) with
      | none =>
          simp only [Option.bind_none, receives, receive_settle_none hr hd hp hs, Exec.error_bind]
      | some s' =>
          obtain ⟨ret, c', rest, hrun, hp', _⟩ := receive_settle hr hd hp hs
          simp only [Option.bind_some, receives, hrun, Exec.ok_bind]
          exact ih (fun r' h' => hallocs r' (by simp [h'])) (fun r' h' => hdata r' (by simp [h'])) hp'

theorem settle_of_prefix {m : Message} {t : List UInt8} (hlt : m.length.toNat < 2 ^ 31) (h : m.wire <+: t) :
    ∃ s', settle t = some s' := by
  obtain ⟨u, rfl⟩ := h
  have hhdr : (m.wire ++ u).take 12 = m.toHeader.wire := by
    rw [Message.wire_eq, List.append_assoc, take_wire_append]
  have hge : ¬ (m.wire ++ u).length < 12 := by
    rw [List.length_append, Message.length_wire]
    omega
  simp only [settle, hhdr, decodeHeader_wire, if_neg hge]
  rw [if_neg (by omega)]
  split
  · exact ⟨_, rfl⟩
  · exact ⟨_, rfl⟩

/-- Datagram isolation. The receive that takes a datagram with the message `m` returns `m` and its sender if and
only if no earlier header overflows its block and what the earlier datagrams leave over, followed by `m`, still
begins with `m`. -/
theorem recvMsg_isolated_iff {fd : Int} {earlier : List Receive} {r : Receive} {m : Message}
    (hallocs : ∀ r' ∈ earlier ++ [r], r'.Allocates) (hdata : ∀ r' ∈ earlier, r'.datagram.data ≠ [])
    (hm : m.Full) (hlen : 12 + m.length.toNat ≤ 4096) (hsend : m.sendBuf = .ok r.datagram.data) :
    Isolated fd earlier r m ↔
      ∃ s, leftover (earlier.map Receive.datagram) [] = some s ∧ m.wire <+: s ++ m.wire := by
  have hr := hallocs r (by simp)
  have hsendable : m.Sendable := ⟨hm, by rw [hm]; omega⟩
  rw [hsendable.sendBuf_eq] at hsend
  have hwire := Except.ok.inj hsend
  have hcut : r.datagram.data.take 4096 = m.wire := by
    rw [← hwire, List.take_of_length_le (by rw [Message.length_wire, hm]; exact hlen)]
  have hne : r.datagram.data ≠ [] := by
    rw [← hwire]
    exact List.ne_nil_of_length_pos hm.frame.length_pos
  have hspec := receives_spec (fun r' h' => hallocs r' (by simp [h'])) hdata
    (show Holds (UdpPoint.mk fd MsgParser.fresh).parser [] from Holds.fresh)
  cases hs : leftover (earlier.map Receive.datagram) [] with
  | none =>
      rw [hs] at hspec
      refine ⟨?_, fun ⟨s, hsome, _⟩ => (by cases hsome)⟩
      rintro ⟨c, c', hrun, _⟩
      rw [hspec] at hrun
      cases hrun
  | some s =>
      rw [hs] at hspec
      obtain ⟨c, hrun, hp⟩ := hspec
      constructor
      · rintro ⟨c₁, c', hrun', hret⟩
        rw [hrun] at hrun'
        cases hrun'
        refine ⟨s, rfl, ?_⟩
        cases hset : settle (s ++ r.datagram.data.take 4096) with
        | none =>
            rw [receive_settle_none hr hne hp hset] at hret
            cases hret
        | some s' =>
            obtain ⟨ret, c'', rest, hrecv, _, hfed⟩ := receive_settle hr hne hp hset
            rw [hrecv] at hret
            cases hret
            rw [hcut] at hfed
            exact (hfed.ret_iff hr.malloc hm hsendable.length_lt).mp rfl
      · rintro ⟨s₁, hs₁, hpre⟩
        cases hs₁
        obtain ⟨s', hset⟩ := settle_of_prefix (by omega) hpre
        rw [← hcut] at hset
        obtain ⟨ret, c', rest, hrecv, _, hfed⟩ := receive_settle hr hne hp hset
        rw [hcut] at hfed
        have hret := (hfed.ret_iff hr.malloc hm hsendable.length_lt).mpr hpre
        subst hret
        exact ⟨c, c', hrun, hrecv⟩

theorem recvMsg_isolated_two :
    let r₁ : Receive := ⟨.cleared, .cleared, ⟨[0, 1, 0, 2, 0, 3, 0, 4, 0, 0, 0, 1, 0x41], ⟨10, 0, 0, 1, 5000⟩⟩, "", 0⟩
    let r₂ : Receive := ⟨.cleared, .cleared, ⟨[0, 9, 0, 0, 0, 0, 0, 0, 0, 0, 0, 0], ⟨10, 0, 0, 2, 6000⟩⟩, "", 0⟩
    Isolated 3 [r₁] r₂ ⟨⟨9, 0, 0, 0, 0⟩, []⟩ := by
  intro r₁ r₂
  have hallocs : ∀ r ∈ [r₁] ++ [r₂], r.Allocates := by
    intro r hr
    simp only [List.cons_append, List.nil_append, List.mem_cons, List.not_mem_nil, or_false] at hr
    rcases hr with rfl | rfl
    · exact ⟨Malloc.cleared_succeeds, Malloc.cleared_succeeds⟩
    · exact ⟨Malloc.cleared_succeeds, Malloc.cleared_succeeds⟩
  exact (recvMsg_isolated_iff hallocs (by decide) (by decide) (by decide) (by decide +kernel)).mpr
    ⟨[], by decide +kernel, List.prefix_rfl⟩

/-- A datagram of eleven zeros makes the next one, from another sender, a different message. -/
theorem recvMsg_not_isolated :
    let m : Message := ⟨⟨9, 0, 0, 0, 0⟩, []⟩
    let r₁ : Receive := ⟨.cleared, .cleared, ⟨[0, 0, 0, 0, 0, 0, 0, 0, 0, 0, 0], ⟨10, 0, 0, 1, 5000⟩⟩, "", 0⟩
    let r₂ : Receive := ⟨.cleared, .cleared, ⟨m.wire, ⟨10, 0, 0, 2, 6000⟩⟩, "", 0⟩
    m.Full ∧ ¬ Isolated 3 [r₁] r₂ m := by
  intro m r₁ r₂
  refine ⟨by decide, ?_⟩
  rintro ⟨c, c', hrun, hret⟩
  have hrun' : receives [r₁] ⟨3, MsgParser.fresh⟩ = .ok ⟨3, ⟨⟨0, 0, 0, 0, 0⟩, false, 1, none⟩⟩ := by
    decide +kernel
  obtain rfl := Except.ok.inj (hrun'.symm.trans hrun)
  have hret' : receive ⟨3, ⟨⟨0, 0, 0, 0, 0⟩, false, 1, none⟩⟩ r₂ =
      .ok (some ⟨⟨0, 0, 0, 0, 0⟩, []⟩, some "10.0.0.2", some 6000,
        ⟨3, ⟨⟨0, 0, 0, 0, 0⟩, false, 12, none⟩⟩) := by
    decide +kernel
  have heq := Except.ok.inj (hret'.symm.trans hret)
  exact absurd (Option.some.inj (congrArg Prod.fst heq)) (by decide)

end UdpPoint

end CompileService.Wire
