import CompileService.Wire.AllocFailure
import CompileService.Wire.Lemmas.Weight

/-!
# Sends that are cut short

`TcpClient_SendMsg` looks at the result of `send` only for -1. A `send` that takes fewer bytes than it was given is
reported as a success, and the bytes that are missing in the stream are made up for by those of the next message.
-/

namespace CompileService.Wire

open CompileService.Base

/-- The `send` of the message fails or takes all of it. -/
def SendEvent.TakesAll (e : SendEvent) (m : Message) : Prop :=
  match e with
  | .fail => True
  | .count k => 12 + m.length.toNat ≤ k + 1

instance (e : SendEvent) (m : Message) : Decidable (e.TakesAll m) :=
  match e with
  | .fail => isTrue trivial
  | .count _ => inferInstanceAs (Decidable (_ ≤ _))

/-- A sequence of `TcpClient_SendMsg` calls: the messages for which 1 is returned, and the bytes queued. -/
def TcpClient.sendMsgs (c : Client) : List (Message × SendEvent) → Exec (List Message × List UInt8)
  | [] => .ok ([], [])
  | (m, e) :: calls => do
      let buf ← m.sendBuf
      let (ret, _) ← sendMsg (fun _ buf => (e.send buf).1) c m
      let (reported, queue) ← sendMsgs c calls
      return (if ret then m :: reported else reported, (e.send buf).2 ++ queue)

/-! ## The peer -/

/-- The client at the other end, and the messages it got so far. -/
structure Peer (σ : Type) where
  client : Client
  io : σ
  got : List Message

namespace Peer

section
variable {σ : Type} [Readable σ]

/-- One `TcpClient_RecvMsg`. -/
def step (p : Peer σ) (malloc : Malloc) : Exec (Peer σ) := do
  let (ret, client, io) ← TcpClient.recvMsg malloc p.client p.io
  return ⟨client, io, p.got ++ ret.toList⟩

def ofReader (fd : Int) (r : Reader σ) : Peer σ := ⟨⟨fd, r.parser⟩, r.io, r.got⟩

theorem step_ofReader (fd : Int) (r : Reader σ) (malloc : Malloc) :
    (ofReader fd r).step malloc = (r.step fd malloc).map (ofReader fd) := by
  simp only [step, Reader.step, ofReader, TcpClient.recvMsg]
  cases r.parser.readFd malloc fd r.io with
  | error e => rfl
  | ok res => rfl

theorem foldlM_ofReader (fd : Int) (r : Reader σ) (mallocs : List Malloc) :
    mallocs.foldlM step (ofReader fd r) = (mallocs.foldlM (Reader.step fd) r).map (ofReader fd) := by
  induction mallocs generalizing r with
  | nil => rfl
  | cons malloc mallocs ih =>
      rw [List.foldlM_cons, List.foldlM_cons, step_ofReader]
      cases r.step fd malloc with
      | error e => rfl
      | ok r' => exact ih r'

theorem run_ofReader {fd : Int} {r : Reader σ} {p : MsgParser} {io : σ} {mallocs : List Malloc}
    (h : mallocs.foldlM (Reader.step fd) ⟨p, io, []⟩ = .ok r) :
    mallocs.foldlM step ⟨⟨fd, p⟩, io, []⟩ = .ok (ofReader fd r) := by
  have hrun := foldlM_ofReader fd ⟨p, io, []⟩ mallocs
  rw [h] at hrun
  exact hrun

end

end Peer

/-- The messages that a client obtains by repeated `TcpClient_RecvMsg` from the bytes in `queue` are `ms`. However
the bytes are delivered, they come in this order and are complete once all bytes were read; and all can be read. -/
structure Obtains (fd : Int) (queue : List UInt8) (ms : List Message) : Prop where
  only : ∀ (sched : Stream' ReadEvent) (mallocs : List Malloc), (∀ malloc ∈ mallocs, malloc.Serves) →
    ∃ p, mallocs.foldlM Peer.step ⟨⟨fd, MsgParser.fresh⟩, Sock.mk queue sched, []⟩ = .ok p ∧
      p.got <+: ms ∧ (ByteStream.inbox p.io = [] → p.got = ms)
  all : ∃ (sched : Stream' ReadEvent) (mallocs : List Malloc), (∀ malloc ∈ mallocs, malloc.Serves) ∧
    ∃ p, mallocs.foldlM Peer.step ⟨⟨fd, MsgParser.fresh⟩, Sock.mk queue sched, []⟩ = .ok p ∧
      ByteStream.inbox p.io = []

/-! ## What is sent -/

namespace TcpClient

variable {c : Client} {m : Message} {calls : List (Message × SendEvent)}

theorem sendMsgs_cons (hm : m.Sendable) (e : SendEvent) :
    sendMsgs c ((m, e) :: calls) = (sendMsgs c calls).map fun r =>
      (if e = .fail then r.1 else m :: r.1, (e.send m.wire).2 ++ r.2) := by
  have hret : ((e.send m.wire).1 ≠ -1) ↔ e ≠ .fail := by
    cases e with
    | fail => simp [SendEvent.send]
    | count k =>
        have hcount : ((m.wire.take (k + 1)).length : Int) ≠ -1 := by omega
        exact iff_of_true hcount (fun h => by cases h)
  simp only [sendMsgs, hm.sendBuf_eq, sendMsg_eq hm, Exec.ok_bind]
  cases sendMsgs c calls with
  | error err => rfl
  | ok r =>
      simp only [Exec.ok_bind, decide_eq_true_eq, hret, ne_eq, ite_not]
      rfl

/-- What is queued for the messages reported as sent: all of their bytes exactly if no `send` was cut short. -/
theorem sendMsgs_spec (c : Client) (hcalls : ∀ call ∈ calls, call.1.Sendable) :
    ∃ reported queue, sendMsgs c calls = .ok (reported, queue) ∧ (∀ m ∈ reported, m.Sendable) ∧
      queue.length ≤ (wires reported).length ∧
      ((∀ call ∈ calls, call.2.TakesAll call.1) → queue = wires reported) ∧
      (queue.length = (wires reported).length → ∀ call ∈ calls, call.2.TakesAll call.1) := by
  induction calls with
  | nil => exact ⟨[], [], rfl, by simp, Nat.le_refl _, fun _ => rfl, by simp⟩
  | cons call calls ih =>
      obtain ⟨m, e⟩ := call
      obtain ⟨hm, hcalls⟩ := List.forall_mem_cons.mp hcalls
      obtain ⟨reported, queue, hrun, hsendable, hle, hall, hback⟩ := ih hcalls
      have hrun' : sendMsgs c ((m, e) :: calls) = _ := sendMsgs_cons hm e
      rw [hrun] at hrun'
      have hwire : m.wire.length = 12 + m.length.toNat := by rw [Message.length_wire, hm.1]
      cases e with
      | fail =>
          refine ⟨reported, queue, hrun', hsendable, hle, fun h => ?_, fun h => ?_⟩
          · exact hall (List.forall_mem_cons.mp h).2
          · exact List.forall_mem_cons.mpr ⟨trivial, hback h⟩
      | count k =>
          refine ⟨m :: reported, m.wire.take (k + 1) ++ queue, hrun', ?_, ?_, fun h => ?_, fun h => ?_⟩
          · exact List.forall_mem_cons.mpr ⟨hm, hsendable⟩
          · rw [wires_cons, List.length_append, List.length_append, List.length_take]
            omega
          · obtain ⟨hk, hrest⟩ := List.forall_mem_cons.mp h
            have hk : 12 + m.length.toNat ≤ k + 1 := hk
            rw [wires_cons, List.take_of_length_le (by omega), hall hrest]
          · rw [wires_cons, List.length_append, List.length_append, List.length_take] at h
            refine List.forall_mem_cons.mpr ⟨?_, hback (by omega)⟩
            show 12 + m.length.toNat ≤ k + 1
            omega

end TcpClient

/-! ## What is read -/

section
variable {k : Nat} {bs t : List UInt8}

theorem toRecv_eager (buf : List UInt8) (hk : bs.length ≤ k + 1) (hbuf : bs.length ≤ buf.length) :
    MsgParser.toRecv (Sock.mk (bs ++ t) (Stream'.const (.count k))) buf bs.length 0 0 =
      .ok (bs.length, writeAt buf 0 bs, ⟨t, Stream'.const (.count k)⟩) := by
  by_cases hnil : bs = []
  · subst hnil
    rw [MsgParser.toRecv, if_neg (by simp), writeAt_nil]
    rfl
  · have hpos : 0 < bs.length := List.length_pos_of_ne_nil hnil
    have hread : Readable.read (Sock.mk (bs ++ t) (Stream'.const (.count k))) bs.length =
        (some bs, ⟨t, Stream'.const (.count k)⟩) := by
      have hmin : min (k + 1) bs.length = bs.length := Nat.min_eq_right hk
      show (some ((bs ++ t).take (min (k + 1) bs.length)), Sock.mk ((bs ++ t).drop (min (k + 1) bs.length)) _) = _
      rw [hmin, List.take_left, List.drop_left]
      rfl
    have hask : ((bs.length : Int) - (0 : Nat)).toNat = bs.length := by omega
    rw [MsgParser.toRecv, if_pos (by omega), if_neg (by omega), hask, hread]
    simp only [hpos, if_true]
    rw [MsgParser.toRecv, if_neg (by omega), Nat.zero_add]

theorem recvAt_eager (blk : List UInt8) (off : Nat) (hk : bs.length ≤ k + 1) (hfit : off + bs.length ≤ blk.length) :
    MsgParser.recvAt (Sock.mk (bs ++ t) (Stream'.const (.count k))) blk off bs.length =
      .ok (bs.length, writeAt blk off bs, ⟨t, Stream'.const (.count k)⟩) := by
  have hrec := toRecv_eager (t := t) (blk.drop off) hk (by rw [List.length_drop]; omega)
  have hwrite : blk.take off ++ writeAt (blk.drop off) 0 bs = writeAt blk off bs := by
    simp [writeAt, List.drop_drop]
  have hin : off ≤ blk.length := by omega
  simp [MsgParser.recvAt, hin, hrec, hwrite]

variable {malloc : Malloc} {fd : Int} {p : MsgParser} {m : Message}

theorem readFdPayload_eager (cache hdr : Header) (payload : List UInt8) (hpay : bs.length = payload.length)
    (hbs : bs.length = hdr.length.toNat) (hk : bs.length ≤ k + 1) :
    MsgParser.readFdPayload ⟨cache, true, hdr.length.toNat, some ⟨hdr, payload⟩⟩
        (Sock.mk (bs ++ t) (Stream'.const (.count k))) =
      .ok (some ⟨hdr, bs⟩, MsgParser.initState ⟨cache, true, 0, none⟩, ⟨t, Stream'.const (.count k)⟩) := by
  have hrec := recvAt_eager (t := t) payload 0 hk (by omega)
  have hoff : toInt32 ((hdr.length.toNat : Int) - hdr.length.toNat) = (0 : Nat) := by
    rw [toInt32_of_range (by omega) (by omega)]
    omega
  have hfill : writeAt payload 0 bs = bs := by simp [writeAt, hpay]
  rw [hbs] at hrec
  simp only [MsgParser.readFdPayload, hoff, hrec, Exec.ok_bind, hfill]
  rfl

/-- A socket that delivers what it is asked for yields a message in one call. -/
theorem readFd_eager (hfd : fd ≠ -1) (hserves : malloc.Serves) (hp : Holds p []) (hm : m.Sendable)
    (hk : m.wire.length ≤ k + 1) :
    ∃ p', p.readFd malloc fd (Sock.mk (m.wire ++ t) (Stream'.const (.count k))) =
      .ok (some m, p', ⟨t, Stream'.const (.count k)⟩) ∧ Holds p' [] := by
  have hlt := hm.length_lt
  have hfull := hm.1
  rw [Message.length_wire] at hk
  generalize hnil : ([] : List UInt8) = s at hp
  cases hp with
  | payload =>
      have hlen := congrArg List.length hnil
      rw [List.length_append, Header.length_wire, List.length_nil] at hlen
      omega
  | header hlen htake =>
      rename_i cache
      subst hnil
      have hwire : m.wire ++ t = m.toHeader.wire ++ (m.payload ++ t) := by
        rw [Message.wire_eq, List.append_assoc]
      have hhdr : m.toHeader.wire.length = 12 := Header.length_wire _
      have hzero : (12 : Int) - (([] : List UInt8).length : Nat) = (m.toHeader.wire.length : Nat) := by
        rw [hhdr]
        rfl
      have hfits : m.toHeader.wire.length ≤ k + 1 := by omega
      have hcap : 0 + m.toHeader.wire.length ≤ cache.bytes.length := by rw [hhdr, Header.length_bytes]
      have hrec := recvAt_eager (t := m.payload ++ t) cache.bytes 0 hfits hcap
      have hall : ([] : List UInt8).length + m.toHeader.wire.length = 12 := by
        rw [hhdr]
        rfl
      rw [hwire, MsgParser.readFd_header (s := []) hfd hlen (Nat.le_of_eq hall)
        (by rw [hzero]; exact hrec), if_pos hall, MsgParser.fill_full htake hall, List.nil_append, decodeHeader_wire]
      have hblock : malloc (blockSize m.length) ≠ none :=
        hserves _ (by rw [blockSize_of_lt hlt]; unfold ptrdiffMax; omega)
      obtain ⟨payload, hpay, hmid⟩ :=
        MsgParser.toMidState_some (p := ⟨m.toHeader, false, 12 - (([] : List UInt8).length : Nat), none⟩) hblock hlt
      have hbody := readFdPayload_eager (t := t) m.toHeader m.toHeader payload (hfull.trans hpay.symm) hfull
        (by omega : m.payload.length ≤ k + 1)
      refine ⟨MsgParser.initState ⟨m.toHeader, true, 0, none⟩, ?_, Holds.init _⟩
      rw [hmid]
      exact hbody

end

/-! ## All messages -/

namespace Reader

variable {σ : Type} [ByteStream σ] {fd : Int} {ms : List Message}

/-- The reader got all the messages up to some point of the stream, and is at this point. -/
def InStep (ms : List Message) (r : Reader σ) : Prop :=
  ∃ j s, r.got = ms.take j ∧ Holds r.parser s ∧ s ++ ByteStream.inbox r.io = wires (ms.drop j)

theorem step_inStep (hfd : fd ≠ -1) (hms : ∀ m ∈ ms, m.Sendable) {r : Reader σ} (hr : r.InStep ms) {malloc : Malloc}
    (hserves : malloc.Serves) : ∃ r', r.step fd malloc = .ok r' ∧ r'.InStep ms := by
  obtain ⟨j, s, hgot, hp, hio⟩ := hr
  obtain ⟨ret, p', io', hrun, hcase⟩ :=
    readFd_step hfd hserves (fun m hm => hms m (List.mem_of_mem_drop hm)) hp hio
  refine ⟨⟨p', io', r.got ++ ret.toList⟩, by simp only [step, hrun, Exec.ok_bind]; rfl, ?_⟩
  rcases hcase with ⟨rfl, s', hp', hio', _⟩ | ⟨m, ms', hj, rfl, hp', hio'⟩
  · exact ⟨j, s', by simpa using hgot, hp', hio'⟩
  · have htake : ms.take (j + 1) = ms.take j ++ [m] := by
      rw [List.take_add, hj]
      rfl
    refine ⟨j + 1, [], by rw [htake, hgot]; rfl, hp', ?_⟩
    rw [drop_succ_of_drop hj]
    exact hio'

theorem InStep.got_eq (hms : ∀ m ∈ ms, m.Sendable) {r : Reader σ} (hr : r.InStep ms) :
    r.got <+: ms ∧ (ByteStream.inbox r.io = [] → r.got = ms) := by
  obtain ⟨j, s, hgot, hp, hio⟩ := hr
  refine ⟨by rw [hgot]; exact List.take_prefix j ms, fun hempty => ?_⟩
  rw [hempty, List.append_nil] at hio
  have hnil := hp.eq_nil (fun m hm => hms m (List.mem_of_mem_drop hm)) hio
  have hsplit := List.take_append_drop j ms
  rw [hnil, List.append_nil] at hsplit
  rw [hgot, hsplit]

theorem drain (hfd : fd ≠ -1) (hms : ∀ m ∈ ms, m.Sendable) {k : Nat} (hk : ∀ m ∈ ms, m.wire.length ≤ k + 1)
    {p : MsgParser} (hp : Holds p []) (got : List Message) :
    ∃ r, (List.replicate ms.length Malloc.zeroed).foldlM (step fd)
        ⟨p, Sock.mk (wires ms) (Stream'.const (.count k)), got⟩ = .ok r ∧ ByteStream.inbox r.io = [] := by
  induction ms generalizing p got with
  | nil => exact ⟨_, rfl, rfl⟩
  | cons m ms ih =>
      obtain ⟨hm, hms⟩ := List.forall_mem_cons.mp hms
      obtain ⟨hmk, hk⟩ := List.forall_mem_cons.mp hk
      obtain ⟨p', hrun, hp'⟩ := readFd_eager (t := wires ms) hfd Malloc.zeroed_serves hp hm hmk
      have hstep : step fd ⟨p, Sock.mk (wires (m :: ms)) (Stream'.const (.count k)), got⟩ Malloc.zeroed =
          .ok ⟨p', Sock.mk (wires ms) (Stream'.const (.count k)), got ++ [m]⟩ := by
        simp only [step, wires_cons, hrun, Exec.ok_bind]
        rfl
      rw [List.length_cons, List.replicate_succ, foldlM_cons_ok _ hstep]
      exact ih hms hk hp' _

/-- The bytes of the messages got and of the unfinished one, and the bytes to come. -/
def total (r : Reader σ) : Nat :=
  (r.got.map fun m => retLen (some m)).sum + r.parser.weight + (ByteStream.inbox r.io).length

theorem step_total {r r' : Reader σ} {malloc : Malloc} (hr : Sane r.parser) (h : r.step fd malloc = .ok r') :
    Sane r'.parser ∧ r'.total ≤ r.total := by
  obtain ⟨⟨ret, p', io'⟩, hrun, hret⟩ := Exec.bind_eq_ok.mp h
  cases hret
  obtain ⟨hsane, bs, hreads, hweight⟩ := MsgParser.readFd_weight hr hrun
  refine ⟨hsane, ?_⟩
  have hlen := congrArg List.length hreads.inbox_eq
  rw [List.length_append] at hlen
  have hsum : (ret.toList.map fun m => retLen (some m)).sum = retLen ret := by
    cases ret <;> simp [retLen]
  simp only [total, List.map_append, List.sum_append, hsum]
  omega

/-- The messages that are got were in the stream with all their bytes. -/
theorem wires_got_le {mallocs : List Malloc} {io : σ} {r : Reader σ}
    (h : mallocs.foldlM (step fd) ⟨MsgParser.fresh, io, []⟩ = .ok r) (hgot : ∀ m ∈ r.got, m.Full) :
    (wires r.got).length ≤ (ByteStream.inbox io).length := by
  have hstart : Sane (Reader.mk MsgParser.fresh io []).parser ∧
      (Reader.mk MsgParser.fresh io []).total ≤ (ByteStream.inbox io).length := by
    refine ⟨Holds.fresh.sane, ?_⟩
    simp [total, Holds.fresh.weight_nil]
  have hkeeps : ∀ (r : Reader σ) malloc r', Sane r.parser ∧ r.total ≤ (ByteStream.inbox io).length →
      r.step fd malloc = .ok r' → Sane r'.parser ∧ r'.total ≤ (ByteStream.inbox io).length := by
    intro r malloc r' hr hstep
    obtain ⟨hsane, hle⟩ := step_total hr.1 hstep
    exact ⟨hsane, Nat.le_trans hle hr.2⟩
  obtain ⟨_, hle⟩ := run_keeps hkeeps hstart h
  rw [total, sum_retLen hgot] at hle
  omega

end Reader

/-! ## Reported and received -/

theorem Obtains.of_wires {fd : Int} (hfd : fd ≠ -1) {ms : List Message} (hms : ∀ m ∈ ms, m.Sendable) :
    Obtains fd (wires ms) ms := by
  constructor
  · intro sched mallocs hserves
    have hstart : Reader.InStep ms ⟨MsgParser.fresh, Sock.mk (wires ms) sched, []⟩ :=
      ⟨0, [], rfl, Holds.fresh, rfl⟩
    have hstep : ∀ r : Reader Sock, ∀ malloc ∈ mallocs, r.InStep ms → malloc.Serves →
        ∃ r', r.step fd malloc = .ok r' ∧ r'.InStep ms :=
      fun _ _ _ hr hserve => Reader.step_inStep hfd hms hr hserve
    obtain ⟨r, hrun, hr⟩ := run_of_forall hstep hstart hserves
    obtain ⟨hpre, hgot⟩ := hr.got_eq hms
    exact ⟨Peer.ofReader fd r, Peer.run_ofReader hrun, hpre, hgot⟩
  · have hlen : ∀ m ∈ ms, m.wire.length ≤ (wires ms).length + 1 := by
      intro m hm
      have hsub : m.wire.Sublist (wires ms) := List.sublist_flatten_of_mem (List.mem_map_of_mem hm)
      exact Nat.le_succ_of_le hsub.length_le
    obtain ⟨r, hrun, hempty⟩ := Reader.drain hfd hms hlen Holds.fresh []
    refine ⟨Stream'.const (.count (wires ms).length), List.replicate ms.length .zeroed, ?_, Peer.ofReader fd r,
      Peer.run_ofReader hrun, hempty⟩
    intro malloc hmem
    rw [List.eq_of_mem_replicate hmem]
    exact Malloc.zeroed_serves

theorem Obtains.length_le {fd : Int} {queue : List UInt8} {ms : List Message} (hms : ∀ m ∈ ms, m.Full)
    (h : Obtains fd queue ms) : (wires ms).length ≤ queue.length := by
  obtain ⟨sched, mallocs, hserves, p, hrun, hempty⟩ := h.all
  obtain ⟨p', hrun', _, hgot⟩ := h.only sched mallocs hserves
  obtain rfl := Except.ok.inj (hrun.symm.trans hrun')
  have hms' := hgot hempty
  have hreader := Peer.foldlM_ofReader fd (Reader.mk MsgParser.fresh (Sock.mk queue sched) []) mallocs
  have hstart : Peer.ofReader fd (Reader.mk MsgParser.fresh (Sock.mk queue sched) []) =
      ⟨⟨fd, MsgParser.fresh⟩, Sock.mk queue sched, []⟩ := rfl
  rw [hstart, hrun] at hreader
  cases hr : mallocs.foldlM (Reader.step fd) (Reader.mk MsgParser.fresh (Sock.mk queue sched) []) with
  | error e =>
      rw [hr] at hreader
      cases hreader
  | ok r =>
      rw [hr] at hreader
      obtain rfl := Except.ok.inj hreader
      have hgot' : r.got = ms := hms'
      have hle := Reader.wires_got_le hr (by rw [hgot']; exact hms)
      rw [hgot'] at hle
      exact hle

/-- What is reported is what is received. The messages that the peer obtains are those for which
`TcpClient_SendMsg` returned 1 if and only if every `send` failed or took the whole message. -/
theorem sendMsg_recvMsg_iff {fd : Int} (hfd : fd ≠ -1) (c : Client) {calls : List (Message × SendEvent)}
    (hcalls : ∀ call ∈ calls, call.1.Sendable) :
    ∃ reported queue, TcpClient.sendMsgs c calls = .ok (reported, queue) ∧
      (Obtains fd queue reported ↔ ∀ call ∈ calls, call.2.TakesAll call.1) := by
  obtain ⟨reported, queue, hrun, hsendable, hle, hall, hback⟩ := TcpClient.sendMsgs_spec c hcalls
  refine ⟨reported, queue, hrun, fun h => hback ?_, fun h => ?_⟩
  · exact Nat.le_antisymm hle (h.length_le (fun m hm => (hsendable m hm).1))
  · rw [hall h]
    exact Obtains.of_wires hfd hsendable

theorem sendMsg_recvMsg_failing :
    let m₁ : Message := ⟨⟨1, 2, 3, 4, 2⟩, [7, 8]⟩
    let m₂ : Message := ⟨⟨5, 6, 7, 8, 0⟩, []⟩
    ∃ reported queue, TcpClient.sendMsgs ⟨5, MsgParser.fresh⟩ [(m₁, .count 13), (m₂, .fail), (m₂, .count 50)] =
      .ok (reported, queue) ∧ Obtains 3 queue reported := by
  intro m₁ m₂
  have hcalls : ∀ call ∈ [(m₁, SendEvent.count 13), (m₂, .fail), (m₂, .count 50)], call.1.Sendable := by decide
  have hfd : (3 : Int) ≠ -1 := by decide
  obtain ⟨reported, queue, hrun, hiff⟩ := sendMsg_recvMsg_iff hfd ⟨5, MsgParser.fresh⟩ hcalls
  exact ⟨reported, queue, hrun, hiff.mpr (by decide)⟩

/-- One byte of twelve is not taken: two messages are reported, and there are not enough bytes for two. -/
theorem sendMsg_short_send :
    let m : Message := ⟨⟨1, 2, 3, 4, 0⟩, []⟩
    m.Sendable ∧ TcpClient.sendMsgs ⟨5, MsgParser.fresh⟩ [(m, .count 10), (m, .count 11)] =
        .ok ([m, m], m.wire.take 11 ++ m.wire) ∧
      ¬ Obtains 3 (m.wire.take 11 ++ m.wire) [m, m] := by
  intro m
  refine ⟨by decide, by decide +kernel, fun h => ?_⟩
  have hfull : ∀ m' ∈ [m, m], m'.Full := by decide
  exact absurd (h.length_le hfull) (by decide)

end CompileService.Wire
