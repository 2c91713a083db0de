import CompileService.Wire.UdpRoundTrip
import CompileService.Wire.SentSize
import CompileService.Base.Inet
import CompileService.Base.Network
import CompileService.Base.Simulation

/-!
# Points on a network

Any number of points send each other messages that fit into `g_temp`. The network may lose datagrams, deliver them
more than once and in any order, and any allocation may fail. What a point hears was said to it, and the address that
`UdpPoint_RecvMsg` reports is one to which `UdpPoint_SendMsg` sends an answer.
-/

namespace CompileService.Wire

open CompileService.Base

/-- What `UdpPoint_RecvMsg` returns: a message, the text of the address it came from, and the port. -/
structure Heard where
  msg : Message
  ip : String
  port : Int
deriving DecidableEq, Repr

/-- Some points with every datagram that was ever on its way to each. `sent` has the messages that were sent to a
point with their senders, `got` what the point heard. -/
structure Net (κ : Type) where
  point : κ → UdpPoint
  air : κ → List Datagram
  sent : κ → List (κ × Message)
  got : κ → List Heard

/-- A call: a send to some address, which is that of `dest` or nobody's, or a receive, for which the network picks the
datagram number `i`. -/
inductive Cast (κ : Type) where
  | send (j : κ) (m : Message) (remote : String) (port : Int) (dest : κ) (ret : Int)
  | recv (k : κ) (i : Nat) (buffer malloc : Malloc) (remote : String) (port : Int)

namespace UdpPoint

/-- The `sendto` of `UdpPoint_SendMsg` has the address `e`. -/
def Addresses (c : UdpPoint) (m : Message) (remote : String) (port : Int) (e : Endpoint) : Prop :=
  match sendMsgArgs inetAddr (some c) (some m) (some remote) port with
  | some args => args.addr.sinAddr = e.sockAddr.sinAddr ∧ args.addr.sinPort = e.sockAddr.sinPort
  | none => False

instance (c : UdpPoint) (m : Message) (remote : String) (port : Int) (e : Endpoint) :
    Decidable (c.Addresses m remote port e) :=
  inferInstanceAs (Decidable (_ ∧ _))

end UdpPoint

def heard : Option Message → Option String → Option Int → List Heard
  | some m, some ip, some port => [⟨m, ip, port⟩]
  | _, _, _ => []

section
variable {κ : Type} [DecidableEq κ]

def Net.step (addr : κ → Endpoint) (s : Net κ) : Cast κ → Exec (Net κ)
  | .send j m remote port dest ret => do
      let buf ← m.sendBuf
      let (ok, _) ← UdpPoint.sendMsg (fun _ _ => ret) (s.point j) m
      if ok ∧ (s.point j).Addresses m remote port (addr dest) then
        return { s with air := put s.air dest ⟨buf, addr j⟩, sent := put s.sent dest (j, m) }
      else return s
  | .recv k i buffer malloc remote port =>
      match (s.air k)[i]? with
      -- there is no datagram, and the call waits
      | none => .ok s
      | some d => do
          let (ret, remote, port, c) ← UdpPoint.recvMsg buffer malloc (s.point k) d (some remote) (some port)
          return { s with
            point := Function.update s.point k c
            got := Function.update s.got k (s.got k ++ heard ret remote port) }

end

def Net.fresh {κ : Type} (fds : κ → Int) : Net κ :=
  ⟨fun k => ⟨fds k, MsgParser.fresh⟩, fun _ => [], fun _ => [], fun _ => []⟩

/-- The message of a send fits into `g_temp`. -/
def Cast.Small {κ : Type} : Cast κ → Prop
  | .send _ m _ _ _ _ => m.Full ∧ 12 + m.length.toNat ≤ UdpPoint.tempSize
  | .recv _ _ _ _ _ _ => True

/-! ## One receive -/

theorem Message.Full.sendable_of_small {m : Message} (h : m.Full ∧ 12 + m.length.toNat ≤ UdpPoint.tempSize) :
    m.Sendable := by
  refine ⟨h.1, ?_⟩
  have hle := h.2
  unfold UdpPoint.tempSize at hle
  rw [h.1]
  omega

/-- Of the bytes of one message a read makes the message, or it drops the message for want of a block. -/
theorem Fed.of_wire {malloc : Malloc} {m : Message} {ret : Option Message} {p : MsgParser} {rest : List UInt8}
    (hm : m.Full) (h : Fed malloc m.wire ret p rest) : Holds p [] ∧ (ret = none ∨ ret = some m) := by
  generalize hs : m.wire = s at h
  cases h with
  | more hp => exact absurd (hs ▸ hm.frame.whole) hp.not_whole
  | done hm' _ hp =>
      rename_i m'
      rw [← List.append_nil m.wire] at hs
      obtain ⟨hwire, _⟩ := hm.frame.append_inj hm'.frame hs
      exact ⟨hp, .inr (by rw [Message.wire_inj hwire])⟩
  | drop _ _ hp => exact ⟨hp, .inl rfl⟩

namespace UdpPoint

variable {c : UdpPoint} {d : Datagram} {m : Message} {buffer malloc : Malloc}

theorem heard_of_read {ret : Option Message} {p : MsgParser} (remote : String) (port : Int)
    (hbuf : 0 < peek d ∧ (if 0 < peek d then buffer (peek d) else none).isSome)
    (hread : c.parser.readMem malloc (some (chunk d)) = .ok (ret, p)) :
    ∃ remote' port', recvMsg buffer malloc c d (some remote) (some port) =
        .ok (ret, remote', port', { c with parser := p }) ∧
      heard ret remote' port' = (ret.map fun m => Heard.mk m d.sender.ip d.sender.port.toNat).toList := by
  have hsender : (recvfrom d (peek d)).2 = d.sender.sockAddr := rfl
  cases ret with
  | none => exact ⟨_, _, by simp only [recvMsg, if_pos hbuf, hread, Exec.ok_bind]; rfl, rfl⟩
  | some m =>
      refine ⟨some d.sender.ip, some (d.sender.port.toNat : Int), ?_, rfl⟩
      simp only [recvMsg, if_pos hbuf, hread, Exec.ok_bind, hsender, parseAddr_eq]
      rfl

/-- A datagram with one message yields the message with its address, or nothing if an allocation fails. The parser is
between two messages again. -/
theorem recvMsg_one (hp : Holds c.parser []) (hm : m.Full ∧ 12 + m.length.toNat ≤ tempSize) (hdata : d.data = m.wire)
    (buffer malloc : Malloc) (remote : String) (port : Int) :
    ∃ ret remote' port' c', recvMsg buffer malloc c d (some remote) (some port) = .ok (ret, remote', port', c') ∧
      Holds c'.parser [] ∧
      (heard ret remote' port' = [] ∨ heard ret remote' port' = [⟨m, d.sender.ip, d.sender.port.toNat⟩]) := by
  by_cases hbuf : 0 < peek d ∧ (if 0 < peek d then buffer (peek d) else none).isSome
  · have hlt := (Message.Full.sendable_of_small hm).length_lt
    have hchunk : (chunk d).bytes = m.wire := by
      rw [chunk_bytes, hdata, List.take_of_length_le (by rw [Message.length_wire, hm.1]; exact hm.2)]
    have hok : ∀ h, c.parser.headerOfMem (chunk d) = some h → LengthOk malloc h := by
      intro h hh
      obtain ⟨_, rfl⟩ := MsgParser.headerOfMem_eq hp hh
      rw [List.nil_append, hchunk, Message.wire_eq, take_wire_append, decodeHeader_wire]
      exact .inl hlt
    obtain ⟨ret, p', rest, hread, hfed⟩ := MsgParser.readMem_fed malloc hp (chunk d) hok
    rw [List.nil_append, hchunk] at hfed
    obtain ⟨hp', hret⟩ := hfed.of_wire hm.1
    obtain ⟨remote', port', hrun, hheard⟩ := heard_of_read remote port hbuf hread
    refine ⟨ret, remote', port', _, hrun, hp', ?_⟩
    rw [hheard]
    rcases hret with rfl | rfl
    · exact .inl rfl
    · exact .inr rfl
  · -- without a buffer the second `recvfrom` fails, and the datagram is gone
    refine ⟨none, some remote, some port, c, ?_, hp, .inl rfl⟩
    simp only [recvMsg, if_neg hbuf]

/-! ## Answers -/

theorem toList_ip (e : Endpoint) : e.ip.toList = dotted (e.a, e.b, e.c, e.d) := by
  have hdec : ∀ b : UInt8, (toString b.toNat).toList = Nat.toDigits 10 b.toNat := by
    intro b
    rw [Nat.toString_eq_repr, Nat.repr_eq_ofList_toDigits, String.toList_ofList]
  simp only [Endpoint.ip, inetNtoa, String.toList_intercalate, List.map_cons, List.map_nil, hdec, dotted]
  rfl

theorem addresses_iff {remote : String} {port : Int} {e : Endpoint} : c.Addresses m remote port e ↔
    inetAddr remote = (e.a, e.b, e.c, e.d) ∧ ntohs (UInt16.ofInt port) = ntohs e.port := Iff.rfl

/-- The address that a receive reports is that of the sender. -/
theorem addresses_reported (c : UdpPoint) (m : Message) (e : Endpoint) : c.Addresses m e.ip e.port.toNat e := by
  have hport : UInt16.ofInt (e.port.toNat : Int) = e.port := by
    have hlt := e.port.toNat_lt
    have hmod : ((e.port.toNat : Int) % 2 ^ 16).toNat = e.port.toNat := by omega
    rw [UInt16.ofInt, hmod, UInt16.ofNat_toNat]
  rw [addresses_iff, hport]
  exact ⟨inetAddr_dotted (toList_ip e), rfl⟩

end UdpPoint

/-! ## The network -/

section
variable {κ : Type} {addr : κ → Endpoint} {s : Net κ} {t : Air κ Message}

def datagramOf (addr : κ → Endpoint) (p : κ × Message) : Datagram := ⟨p.2.wire, addr p.1⟩

def heardOf (addr : κ → Endpoint) (p : κ × Message) : Heard := ⟨p.2, (addr p.1).ip, (addr p.1).port.toNat⟩

/-- The points are between two messages, and what is on its way and what they heard is as `t` says. -/
structure Carried (addr : κ → Endpoint) (s : Net κ) (t : Air κ Message) : Prop where
  between : ∀ k, Holds (s.point k).parser []
  air : ∀ k, s.air k = (t.air k).map (datagramOf addr)
  small : ∀ k, ∀ p ∈ t.air k, p.2.Full ∧ 12 + p.2.length.toNat ≤ UdpPoint.tempSize
  sent : s.sent = t.air
  got : ∀ k, s.got k = (t.got k).map (heardOf addr)

theorem carried_fresh (fds : κ → Int) : Carried addr (Net.fresh fds) Air.empty :=
  ⟨fun _ => Holds.fresh, fun _ => rfl, fun _ _ h => absurd h List.not_mem_nil, rfl, fun _ => rfl⟩

variable [DecidableEq κ]

theorem map_put {α β : Type} (g : α → β) {f : κ → List α} {f' : κ → List β} (h : ∀ k, f' k = (f k).map g) (k : κ)
    (x : α) (k' : κ) : put f' k (g x) k' = (put f k x k').map g := by
  by_cases hk : k' = k
  · subst hk
    rw [put_same, put_same, h, List.map_append, List.map_singleton]
  · rw [put_of_ne _ _ hk, put_of_ne _ _ hk, h]

theorem Carried.send (h : Carried addr s t) (j k : κ) {m : Message}
    (hm : m.Full ∧ 12 + m.length.toNat ≤ UdpPoint.tempSize) :
    Carried addr { s with air := put s.air k ⟨m.wire, addr j⟩, sent := put s.sent k (j, m) }
      ⟨put t.air k (j, m), t.got⟩ where
  between := h.between
  air := map_put (datagramOf addr) h.air k (j, m)
  small := by
    intro k' p hp
    rcases Air.mem_put.mp hp with hp | ⟨_, rfl⟩
    · exact h.small k' p hp
    · exact hm
  sent := by rw [h.sent]
  got := h.got

/-- A receive that returns nothing. -/
theorem Carried.keeps (h : Carried addr s t) (k : κ) {c : UdpPoint} (hc : Holds c.parser []) :
    Carried addr { s with point := Function.update s.point k c } t where
  between := by
    intro k'
    show Holds (Function.update s.point k c k').parser []
    by_cases hk : k' = k
    · subst hk
      rwa [Function.update_self]
    · rw [Function.update_of_ne hk]
      exact h.between k'
  air := h.air
  small := h.small
  sent := h.sent
  got := h.got

theorem Carried.recv (h : Carried addr s t) (k : κ) {p : κ × Message} {c : UdpPoint} (hc : Holds c.parser []) :
    Carried addr { s with point := Function.update s.point k c, got := put s.got k (heardOf addr p) }
      ⟨t.air, put t.got k p⟩ where
  between := (h.keeps k hc).between
  air := h.air
  small := h.small
  sent := h.sent
  got := map_put (heardOf addr) h.got k p

/-- Every call comes to one move of the network, or to none. -/
theorem step_simulates (addr : κ → Endpoint) : Simulates (Net.step addr) Air.Move (Carried addr) Cast.Small := by
  intro s t i hst hi
  cases i with
  | send j m remote port dest ret =>
      have hm := Message.Full.sendable_of_small hi
      by_cases hok : ret ≠ -1 ∧ (s.point j).Addresses m remote port (addr dest)
      · refine ⟨_, ?_, _, .single (.send t j dest m), hst.send j dest hi⟩
        simp only [Net.step, hm.sendBuf_eq, UdpPoint.sendMsg_eq hm, Exec.ok_bind, decide_eq_true_eq, if_pos hok]
        rfl
      · refine ⟨s, ?_, t, .refl, hst⟩
        simp only [Net.step, hm.sendBuf_eq, UdpPoint.sendMsg_eq hm, Exec.ok_bind, decide_eq_true_eq, if_neg hok]
        rfl
  | recv k i buffer malloc remote port =>
      cases hd : (s.air k)[i]? with
      | none => exact ⟨s, by simp only [Net.step, hd], t, .refl, hst⟩
      | some d =>
          have hmem : d ∈ (t.air k).map (datagramOf addr) := by
            rw [← hst.air k]
            exact List.mem_of_getElem? hd
          obtain ⟨p, hp, rfl⟩ := List.mem_map.mp hmem
          obtain ⟨ret, remote', port', c', hrun, hc', hheard⟩ :=
            UdpPoint.recvMsg_one (d := datagramOf addr p) (hst.between k) (hst.small k p hp) rfl buffer malloc remote
              port
          have hstep : Net.step addr s (.recv k i buffer malloc remote port) = .ok { s with
              point := Function.update s.point k c'
              got := Function.update s.got k (s.got k ++ heard ret remote' port') } := by
            simp only [Net.step, hd, hrun, Exec.ok_bind]
            rfl
          refine ⟨_, hstep, ?_⟩
          rcases hheard with hheard | hheard
          · rw [hheard, List.append_nil, Function.update_eq_self]
            exact ⟨t, .refl, hst.keeps k hc'⟩
          · rw [hheard]
            exact ⟨_, .single (.recv t k p hp), hst.recv k hc'⟩

/-- What a point hears was said to it. In every run of sends and receives, whatever the network and the allocations do,
each message that a point returns was sent to it by a point whose address it reports, and an answer to the reported
address goes there. -/
theorem heard_was_sent (addr : κ → Endpoint) (fds : κ → Int) {casts : List (Cast κ)}
    (hcasts : ∀ i ∈ casts, i.Small) :
    ∃ s, casts.foldlM (Net.step addr) (Net.fresh fds) = .ok s ∧ ∀ k, ∀ h ∈ s.got k, ∃ j, (j, h.msg) ∈ s.sent k ∧
      h.ip = (addr j).ip ∧ h.port = (addr j).port.toNat ∧
      ∀ answer, (s.point k).Addresses answer h.ip h.port (addr j) := by
  have hempty : Air.Authentic (Air.empty : Air κ Message) := fun _ _ h => absurd h List.not_mem_nil
  obtain ⟨s, hrun, t, hst, ht⟩ := (step_simulates addr).keeps Air.Move.authentic (carried_fresh fds) hempty hcasts
  refine ⟨s, hrun, fun k h hh => ?_⟩
  rw [hst.got k] at hh
  obtain ⟨p, hp, rfl⟩ := List.mem_map.mp hh
  refine ⟨p.1, ?_, rfl, rfl, fun answer => UdpPoint.addresses_reported _ answer (addr p.1)⟩
  rw [hst.sent]
  exact ht k p hp

end

/-- The message of the first point is delivered twice, and the network loses the answer. -/
theorem heard_was_sent_twice :
    let m : Message := ⟨⟨1, 2, 3, 4, 1⟩, [9]⟩
    let addr : Bool → Endpoint := fun k => ⟨10, 0, 0, if k then 1 else 2, 5000⟩
    let casts : List (Cast Bool) := [.send true m "10.0.0.2" 5000 false 13, .recv false 0 .cleared .cleared "" 0,
      .send false m "10.0.0.1" 5000 true 13, .recv false 0 .cleared .cleared "" 0]
    ∃ s, casts.foldlM (Net.step addr) (Net.fresh fun _ => 3) = .ok s ∧
      ∀ h ∈ s.got false, ∃ j, (j, h.msg) ∈ s.sent false ∧ h.ip = (addr j).ip := by
  intro m addr casts
  have hcasts : ∀ i ∈ casts, i.Small := by
    simp only [casts, List.forall_mem_cons]
    exact ⟨⟨by decide, by decide⟩, trivial, ⟨by decide, by decide⟩, trivial, fun _ h => absurd h List.not_mem_nil⟩
  obtain ⟨s, hrun, hheard⟩ := heard_was_sent addr (fun _ => 3) hcasts
  refine ⟨s, hrun, fun h hh => ?_⟩
  obtain ⟨j, hsent, hip, _⟩ := hheard false h hh
  exact ⟨j, hsent, hip⟩

end CompileService.Wire
