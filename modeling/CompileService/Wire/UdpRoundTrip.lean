import CompileService.Wire.Datagrams

/-!
# Messages over UDP

Messages are sent with `UdpPoint_SendMsg`, one datagram each, and received by one point. `UdpPoint_RecvMsg` sees
at most the first 4096 bytes of a datagram, so a message comes out as it was sent exactly if it fits into them.
-/

namespace CompileService.Wire

open CompileService.Base

namespace UdpPoint

/-- The datagram that `UdpPoint_SendMsg` puts on the network: what it hands to `sendto`, if that succeeds. -/
def transmit (sendto : Int → List UInt8 → Int) (c : UdpPoint) (msg : Message) : Exec (Option (List UInt8)) := do
  let buf ← msg.sendBuf
  let (ret, _) ← sendMsg sendto c msg
  return if ret then some buf else none

/-- The bytes `data` are the datagram of one successful `UdpPoint_SendMsg` of `m`. -/
def Sent (m : Message) (data : List UInt8) : Prop := ∃ sendto c, transmit sendto c m = .ok (some data)

/-- The results of successive `UdpPoint_RecvMsg` calls. -/
def results : List Receive → UdpPoint → Exec (List (Option Message))
  | [], _ => .ok []
  | r :: rs, c => do
      let (ret, _, _, c) ← c.receive r
      let rets ← results rs c
      return ret :: rets

theorem Sent.data_eq {m : Message} {data : List UInt8} (hm : m.Sendable) (h : Sent m data) : data = m.wire := by
  obtain ⟨sendto, c, h⟩ := h
  simp only [transmit, hm.sendBuf_eq, sendMsg_eq hm, Exec.ok_bind] at h
  have h := Except.ok.inj h
  split at h
  · exact (Option.some.inj h).symm
  · cases h

theorem sent_wire {m : Message} (hm : m.Sendable) : Sent m m.wire := by
  refine ⟨fun _ buf => buf.length, ⟨3, MsgParser.fresh⟩, ?_⟩
  have hlen : ((m.wire.length : Nat) : Int) ≠ -1 := by omega
  simp only [transmit, hm.sendBuf_eq, sendMsg_eq hm, Exec.ok_bind, hlen, decide_true, ne_eq, not_false_eq_true]
  rfl

/-! ## One datagram -/

section
variable {c : UdpPoint} {r : Receive} {m : Message}

theorem receive_whole (hr : r.Allocates) (hp : Holds c.parser []) (hm : m.Sendable)
    (hdata : r.datagram.data = m.wire) (hlen : 12 + m.length.toNat ≤ tempSize) :
    ∃ remote port c', c.receive r = .ok (some m, remote, port, c') ∧ Holds c'.parser [] := by
  have hlt := hm.length_lt
  have hwire : m.wire.length = 12 + m.length.toNat := by rw [Message.length_wire, hm.1]
  have hcut : r.datagram.data.take 4096 = m.wire := by
    rw [hdata, List.take_of_length_le (by rw [hwire]; exact hlen)]
  have hne : r.datagram.data ≠ [] := by
    rw [hdata]
    exact List.ne_nil_of_length_pos hm.1.frame.length_pos
  have hhdr : m.wire.take 12 = m.toHeader.wire := by rw [Message.wire_eq, take_wire_append]
  have hset : settle ([] ++ r.datagram.data.take 4096) = some [] := by
    rw [List.nil_append, hcut]
    simp only [settle, hhdr, decodeHeader_wire, hwire]
    rw [if_neg (by omega), if_neg (by omega), if_pos (Or.inr (Nat.le_refl _))]
  obtain ⟨ret, c', rest, hrun, hp', hfed⟩ := receive_settle hr hne hp hset
  rw [List.nil_append, hcut] at hfed
  have hret : ret = some m := (hfed.ret_iff hr.malloc hm.1 hlt).mpr List.prefix_rfl
  subst hret
  exact ⟨_, _, c', hrun, hp'⟩

/-- A message that does not fit into `g_temp` is cut, and its beginning stays in the parser. -/
theorem receive_cut (hr : r.Allocates) (hp : Holds c.parser []) (hm : m.Sendable)
    (hdata : r.datagram.data = m.wire) (hlen : tempSize < 12 + m.length.toNat) :
    ∃ remote port c', c.receive r = .ok (none, remote, port, c') ∧ Holds c'.parser (m.wire.take tempSize) := by
  have hlt := hm.length_lt
  have hwire : m.wire.length = 12 + m.length.toNat := by rw [Message.length_wire, hm.1]
  have htake : (m.wire.take 4096).length = 4096 := by
    rw [List.length_take, hwire]
    unfold tempSize at hlen
    omega
  have hne : r.datagram.data ≠ [] := by
    rw [hdata]
    exact List.ne_nil_of_length_pos hm.1.frame.length_pos
  have hhdr : (m.wire.take 4096).take 12 = m.toHeader.wire := by
    rw [List.take_take, Message.wire_eq]
    exact take_wire_append m.toHeader m.payload
  have hset : settle ([] ++ r.datagram.data.take 4096) = some (m.wire.take 4096) := by
    rw [List.nil_append, hdata]
    unfold tempSize at hlen
    simp only [settle, hhdr, decodeHeader_wire, htake]
    rw [if_neg (by omega), if_neg (by omega), if_neg (by omega)]
  obtain ⟨ret, c', rest, hrun, hp', hfed⟩ := receive_settle hr hne hp hset
  rw [List.nil_append, hdata] at hfed
  have hret : ret = none := by
    generalize ht : m.wire.take 4096 = t at hfed hp'
    cases hfed with
    | more => rfl
    | done hfull _ _ =>
        -- what is left over does not begin with a whole message
        exact absurd (hfull.frame.whole.append _) hp'.not_whole
    | drop => rfl
  subst hret
  exact ⟨_, _, c', hrun, hp'⟩

end

/-! ## All datagrams -/

theorem results_cons {c c' : UdpPoint} {r : Receive} {ret : Option Message} {remote : Option String}
    {port : Option Int} (h : c.receive r = .ok (ret, remote, port, c')) (rs : List Receive)
    (rets : List (Option Message)) (ret' : Option Message) :
    results (r :: rs) c = .ok (ret' :: rets) ↔ ret = ret' ∧ results rs c' = .ok rets := by
  simp only [results, h, Exec.ok_bind]
  cases results rs c' with
  | error e => exact ⟨fun h => (by cases h), fun h => (by cases h.2)⟩
  | ok rets' =>
      constructor
      · intro h
        cases h
        exact ⟨rfl, rfl⟩
      · rintro ⟨rfl, h⟩
        cases h
        rfl

theorem results_iff {ms : List Message} {rs : List Receive} (hms : ∀ m ∈ ms, m.Sendable)
    (hallocs : ∀ r ∈ rs, r.Allocates) (hsent : List.Forall₂ (fun m r => Sent m r.datagram.data) ms rs)
    {c : UdpPoint} (hp : Holds c.parser []) :
    results rs c = .ok (ms.map some) ↔ ∀ m ∈ ms, 12 + m.length.toNat ≤ tempSize := by
  induction hsent generalizing c with
  | nil => exact ⟨fun _ m hm => absurd hm List.not_mem_nil, fun _ => rfl⟩
  | cons hs _ ih =>
      rename_i m r ms rs _
      obtain ⟨hm, hms⟩ := List.forall_mem_cons.mp hms
      obtain ⟨hr, hallocs⟩ := List.forall_mem_cons.mp hallocs
      have hdata := hs.data_eq hm
      rw [List.map_cons, List.forall_mem_cons]
      by_cases hlen : 12 + m.length.toNat ≤ tempSize
      · obtain ⟨remote, port, c', hrun, hp'⟩ := receive_whole hr hp hm hdata hlen
        rw [results_cons hrun, ih hms hallocs hp']
        exact ⟨fun h => ⟨hlen, h.2⟩, fun h => ⟨rfl, h.2⟩⟩
      · obtain ⟨remote, port, c', hrun, _⟩ := receive_cut hr hp hm hdata (Nat.not_le.mp hlen)
        rw [results_cons hrun]
        exact ⟨fun h => (by cases h.1), fun h => absurd h.1 hlen⟩

theorem sendable_of_datagram {m : Message} (h : m.Full ∧ 12 + m.length.toNat ≤ 65507) : m.Sendable :=
  ⟨h.1, by rw [h.1]; omega⟩

/-- Round trip over UDP. When messages of sendable size are sent one by one and all datagrams are delivered in
order to a fresh point, each receive returns its message if and only if all of them fit into `g_temp`. -/
theorem recvMsg_roundtrip_iff {fd : Int} {ms : List Message} {rs : List Receive}
    (hms : ∀ m ∈ ms, m.Full ∧ 12 + m.length.toNat ≤ 65507) (hallocs : ∀ r ∈ rs, r.Allocates)
    (hsent : List.Forall₂ (fun m r => Sent m r.datagram.data) ms rs) :
    results rs ⟨fd, MsgParser.fresh⟩ = .ok (ms.map some) ↔ ∀ m ∈ ms, 12 + m.length.toNat ≤ tempSize :=
  results_iff (fun m hm => sendable_of_datagram (hms m hm)) hallocs hsent
    (c := ⟨fd, MsgParser.fresh⟩) Holds.fresh

theorem recvMsg_roundtrip_two :
    let m₁ : Message := ⟨⟨1, 2, 3, 4, 1⟩, [0x41]⟩
    let m₂ : Message := ⟨⟨9, 0, 0, 0, 0⟩, []⟩
    let r : Message → Receive := fun m => ⟨.cleared, .cleared, ⟨m.wire, ⟨10, 0, 0, 1, 5000⟩⟩, "", 0⟩
    results [r m₁, r m₂] ⟨3, MsgParser.fresh⟩ = .ok [some m₁, some m₂] := by
  intro m₁ m₂ r
  have hms : ∀ m ∈ [m₁, m₂], m.Full ∧ 12 + m.length.toNat ≤ 65507 := by decide
  have hallocs : ∀ r' ∈ [r m₁, r m₂], r'.Allocates := by
    intro r' hr'
    simp only [List.mem_cons, List.not_mem_nil, or_false] at hr'
    rcases hr' with rfl | rfl
    · exact ⟨Malloc.cleared_succeeds, Malloc.cleared_succeeds⟩
    · exact ⟨Malloc.cleared_succeeds, Malloc.cleared_succeeds⟩
  have hsent : List.Forall₂ (fun m r => Sent m r.datagram.data) [m₁, m₂] [r m₁, r m₂] :=
    .cons (sent_wire (by decide)) (.cons (sent_wire (by decide)) .nil)
  exact (recvMsg_roundtrip_iff hms hallocs hsent).mpr (by decide)

/-- A message of 4097 bytes is never returned. -/
theorem recvMsg_long_message :
    let m : Message := ⟨⟨1, 2, 3, 4, 4085⟩, List.replicate 4085 0⟩
    let r : Receive := ⟨.cleared, .cleared, ⟨m.wire, ⟨10, 0, 0, 1, 5000⟩⟩, "", 0⟩
    m.Full ∧ 12 + m.length.toNat ≤ 65507 ∧ r.Allocates ∧ Sent m r.datagram.data ∧
      results [r] ⟨3, MsgParser.fresh⟩ = .ok [none] := by
  intro m r
  have hfull : m.Full := List.length_replicate
  have hlen : m.length.toNat = 4085 := rfl
  have hm : m.Sendable := sendable_of_datagram ⟨hfull, by omega⟩
  have hr : r.Allocates := ⟨Malloc.cleared_succeeds, Malloc.cleared_succeeds⟩
  obtain ⟨remote, port, c', hrun, _⟩ :=
    receive_cut (c := ⟨3, MsgParser.fresh⟩) hr Holds.fresh hm rfl (by rw [hlen]; decide)
  exact ⟨hfull, by omega, hr, sent_wire hm, (results_cons hrun [] [] none).mpr ⟨rfl, rfl⟩⟩

end UdpPoint

end CompileService.Wire
