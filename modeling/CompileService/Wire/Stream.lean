import CompileService.Wire.TcpClient
import CompileService.Wire.Lemmas.Holds

/-!
# Messages over a stream

A sequence of messages is sent down one stream and read back with `MParser_ReadFd`. However the kernel cuts the
stream, the parser stops at the end of each message, so the calls return the messages one by one.
-/

namespace CompileService.Wire

open CompileService.Base

/-- One call of `MParser_ReadFd`: its result, and the bytes consumed from the stream before and after it. -/
structure FdCall where
  ret : Option Message
  before : Nat
  after : Nat

/-- Successive `MParser_ReadFd` calls, one for each element of `mallocs`, from position `pos` on. -/
def readFdCalls {σ : Type} [ByteStream σ] (fd : Int) :
    List Malloc → MsgParser → σ → Nat → Exec (List FdCall)
  | [], _, _, _ => .ok []
  | malloc :: mallocs, p, io, pos => do
      let (ret, p, io') ← p.readFd malloc fd io
      let pos' := pos + ((ByteStream.inbox io).length - (ByteStream.inbox io').length)
      let calls ← readFdCalls fd mallocs p io' pos'
      return ⟨ret, pos, pos'⟩ :: calls

def startOf (ms : List Message) (k : Nat) : Nat := (wires (ms.take k)).length

def endOf (ms : List Message) (k : Nat) : Nat := startOf ms (k + 1)

/-- A call stops at the end of the message it is in, and returns a message exactly when it reads its last
byte. -/
structure FdCall.InFrame (ms : List Message) (call : FdCall) : Prop where
  stop : ∀ k < ms.length, call.before < endOf ms k → call.after ≤ endOf ms k
  ret_iff : ∀ m, call.ret = some m ↔
    ∃ k, ms[k]? = some m ∧ call.before < endOf ms k ∧ endOf ms k ≤ call.after

/-! ## Where a part of the stream ends -/

theorem wires_header {hdr t : List UInt8} {ms : List Message} (h : hdr ++ t = wires ms)
    (hlen : hdr.length = 12) : ∃ m ms', ms = m :: ms' ∧ hdr = m.toHeader.wire := by
  cases ms with
  | nil =>
      have hnil := congrArg List.length h
      simp [hlen] at hnil
  | cons m ms =>
      rw [wires_cons, Message.wire_eq, List.append_assoc] at h
      exact ⟨m, ms, rfl, (List.append_inj h (by rw [hlen, Header.length_wire])).1⟩

theorem wires_head {m : Message} {t : List UInt8} {ms : List Message} (hm : m.Full)
    (hms : ∀ m ∈ ms, m.Sendable) (h : m.wire ++ t = wires ms) : ∃ ms', ms = m :: ms' ∧ t = wires ms' := by
  obtain ⟨fs', heq, ht⟩ := hm.frame.head_eq (wires_frames fun m hm => (hms m hm).1) h
  cases ms with
  | nil => cases heq
  | cons m' ms' =>
      rw [List.map_cons, List.cons.injEq] at heq
      obtain ⟨hwire, rfl⟩ := heq
      exact ⟨ms', by rw [Message.wire_inj hwire], ht⟩

theorem Holds.length_lt {p : MsgParser} {s t : List UInt8} {m : Message} {ms : List Message}
    (hp : Holds p s) (hm : m.Sendable) (h : s ++ t = wires (m :: ms)) : s.length < m.wire.length :=
  hm.1.frame.length_lt_of_not_whole h hp.not_whole

theorem Holds.eq_nil {p : MsgParser} {s : List UInt8} {ms : List Message} (hp : Holds p s)
    (hms : ∀ m ∈ ms, m.Sendable) (h : s = wires ms) : ms = [] := by
  cases ms with
  | nil => rfl
  | cons m ms =>
      have hlt := hp.length_lt (t := []) (hms m (by simp)) (by simpa using h)
      rw [h, wires_cons, List.length_append] at hlt
      omega

/-! ## Positions -/

theorem startOf_mono (ms : List Message) {j k : Nat} (h : j ≤ k) : startOf ms j ≤ startOf ms k := by
  have htake : ms.take k = ms.take j ++ (ms.drop j).take (k - j) := by
    rw [← List.take_add, Nat.add_sub_cancel' h]
  unfold startOf
  rw [htake, wires_append, List.length_append]
  exact Nat.le_add_right _ _

theorem startOf_succ {ms ms' : List Message} {m : Message} {j : Nat} (h : ms.drop j = m :: ms') :
    startOf ms (j + 1) = startOf ms j + m.wire.length := by
  have htake : ms.take (j + 1) = ms.take j ++ [m] := by
    rw [List.take_add, h]
    rfl
  unfold startOf
  rw [htake, wires_append, List.length_append, wires_cons, wires_nil, List.append_nil]

theorem getElem?_of_drop {ms ms' : List Message} {m : Message} {j : Nat} (h : ms.drop j = m :: ms') :
    ms[j]? = some m := by
  have hj := congrArg (fun l => l[0]?) h
  simpa using hj

theorem drop_succ_of_drop {ms ms' : List Message} {m : Message} {j : Nat} (h : ms.drop j = m :: ms') :
    ms.drop (j + 1) = ms' := by
  rw [← List.drop_drop, h]
  rfl

theorem lt_endOf_of_inside {ms : List Message} {j b a : Nat} (hbefore : startOf ms j ≤ b)
    (hafter : j < ms.length → a < endOf ms j) : ∀ k < ms.length, b < endOf ms k → a < endOf ms k := by
  intro k hk hlt
  rcases Nat.lt_or_ge k j with hkj | hjk
  · exact absurd (Nat.lt_of_le_of_lt hbefore hlt) (Nat.not_lt.mpr (startOf_mono ms hkj))
  · exact Nat.lt_of_lt_of_le (hafter (Nat.lt_of_le_of_lt hjk hk))
      (startOf_mono ms (Nat.succ_le_succ hjk))

theorem FdCall.inFrame_none {ms : List Message} {j b a : Nat} (hbefore : startOf ms j ≤ b)
    (hafter : j < ms.length → a < endOf ms j) : FdCall.InFrame ms ⟨none, b, a⟩ := by
  have hge := lt_endOf_of_inside hbefore hafter
  refine ⟨fun k hk hlt => Nat.le_of_lt (hge k hk hlt), fun m => ⟨fun h => (by cases h), ?_⟩⟩
  rintro ⟨k, hk, hlt, hle⟩
  exact absurd (hge k (List.getElem?_eq_some_iff.mp hk).1 hlt) (Nat.not_lt.mpr hle)

theorem FdCall.inFrame_some {ms ms' : List Message} {m : Message} {j b : Nat}
    (hj : ms.drop j = m :: ms') (hbefore : startOf ms j ≤ b) (hlt : b < endOf ms j)
    (hms : ∀ m ∈ ms, m.Sendable) : FdCall.InFrame ms ⟨some m, b, endOf ms j⟩ := by
  have hge : ∀ k, b < endOf ms k → j ≤ k := by
    intro k hk
    by_contra hkj
    exact absurd (Nat.lt_of_le_of_lt hbefore hk) (Nat.not_lt.mpr (startOf_mono ms (Nat.not_le.mp hkj)))
  refine ⟨fun k _ hk => startOf_mono ms (Nat.succ_le_succ (hge k hk)), fun m' => ⟨?_, ?_⟩⟩
  · intro heq
    cases heq
    exact ⟨j, getElem?_of_drop hj, hlt, Nat.le_refl _⟩
  · rintro ⟨k, hk, hlt', hle⟩
    obtain ⟨hklen, _⟩ := List.getElem?_eq_some_iff.mp hk
    have hkj : k = j := by
      by_contra hne
      -- a later message ends strictly later, since no encoding is empty
      have hjk : j + 1 ≤ k := Nat.lt_of_le_of_ne (hge k hlt') (Ne.symm hne)
      have hdrop : ms.drop k = ms[k] :: ms.drop (k + 1) := List.drop_eq_getElem_cons hklen
      have hpos := (hms ms[k] (List.getElem_mem hklen)).1.frame.length_pos
      have hnext := startOf_succ hdrop
      have hmono := startOf_mono ms hjk
      unfold endOf at hle
      simp only at hle
      omega
    subst hkj
    rw [getElem?_of_drop hj] at hk
    exact hk

/-! ## One call -/

section call
variable {σ : Type} [ByteStream σ] {malloc : Malloc} {fd : Int} {ms : List Message} {p : MsgParser}
  {s : List UInt8} {io : σ}

theorem lengthOk_of_stream (hms : ∀ m ∈ ms, m.Sendable) (hp : Holds p s)
    (hio : s ++ ByteStream.inbox io = wires ms) :
    ∀ h, p.headerOfFd fd io = some h → LengthOk malloc h := by
  intro h hh
  obtain ⟨bs, io', hreads, hlen, rfl⟩ := MsgParser.headerOfFd_eq hp hh
  rw [hreads.inbox_eq, ← List.append_assoc] at hio
  obtain ⟨m, ms', rfl, hhdr⟩ := wires_header hio hlen
  rw [hhdr, decodeHeader_wire]
  exact Or.inl (hms m (by simp)).length_lt

theorem readFd_step (hfd : fd ≠ -1) (hserves : malloc.Serves) (hms : ∀ m ∈ ms, m.Sendable)
    (hp : Holds p s) (hio : s ++ ByteStream.inbox io = wires ms) :
    ∃ ret p' io', p.readFd malloc fd io = .ok (ret, p', io') ∧
      ((ret = none ∧ ∃ s', Holds p' s' ∧ s' ++ ByteStream.inbox io' = wires ms ∧ s.length ≤ s'.length) ∨
        ∃ m ms', ms = m :: ms' ∧ ret = some m ∧ Holds p' [] ∧ ByteStream.inbox io' = wires ms') := by
  obtain ⟨bs, ret, p', io', hrun, hreads, hfed⟩ :=
    MsgParser.readFd_fed malloc hfd hp io (lengthOk_of_stream hms hp hio)
  refine ⟨ret, p', io', hrun, ?_⟩
  rw [hreads.inbox_eq, ← List.append_assoc] at hio
  generalize hs : s ++ bs = s' at hio hfed
  cases hfed with
  | more hp' => exact Or.inl ⟨rfl, s', hp', hio, by rw [← hs, List.length_append]; omega⟩
  | done hfull hlt hp' =>
      rename_i m
      rw [List.append_nil] at hio
      obtain ⟨ms', rfl, ht⟩ := wires_head hfull hms hio
      exact Or.inr ⟨m, ms', rfl, rfl, hp', ht⟩
  | drop hlen hnone hp' =>
      -- the header is that of a sendable message, and there is a block for it
      rename_i hdr
      rw [List.append_nil] at hio
      obtain ⟨m, ms', rfl, rfl⟩ := wires_header hio hlen
      have hlt := (hms m (by simp)).length_lt
      rw [decodeHeader_wire] at hnone
      exact absurd hnone (hserves _ (by rw [blockSize_of_lt hlt]; unfold ptrdiffMax; omega))

end call

/-! ## A run of calls -/

/-- From inside message `j` of a stream, the calls return the messages from `j` on, each in its place. -/
theorem readFdCalls_spec {σ : Type} [ByteStream σ] {fd : Int} {ms : List Message} (hfd : fd ≠ -1)
    (hms : ∀ m ∈ ms, m.Sendable) {mallocs : List Malloc} (hserves : ∀ malloc ∈ mallocs, malloc.Serves)
    {p : MsgParser} {s : List UInt8} {io : σ} {j : Nat} (hp : Holds p s)
    (hio : s ++ ByteStream.inbox io = wires (ms.drop j)) :
    ∃ calls, readFdCalls fd mallocs p io (startOf ms j + s.length) = .ok calls ∧
      calls.filterMap FdCall.ret <+: ms.drop j ∧ ∀ call ∈ calls, call.InFrame ms := by
  induction mallocs generalizing p s io j with
  | nil => exact ⟨[], rfl, List.nil_prefix, by simp⟩
  | cons malloc mallocs ih =>
      have hdrop : ∀ m ∈ ms.drop j, m.Sendable := fun m hm => hms m (List.mem_of_mem_drop hm)
      have hserves' : ∀ malloc ∈ mallocs, malloc.Serves := fun malloc hmem =>
        hserves malloc (by simp [hmem])
      obtain ⟨ret, p', io', hrun, hcase⟩ :=
        readFd_step hfd (hserves malloc (by simp)) hdrop hp hio
      have hlen := congrArg List.length hio
      rw [List.length_append] at hlen
      rcases hcase with ⟨rfl, s', hp', hio', hle⟩ | ⟨m, ms', hj, rfl, hp', hio'⟩
      · have hlen' := congrArg List.length hio'
        rw [List.length_append] at hlen'
        have hpos : startOf ms j + s.length +
            ((ByteStream.inbox io).length - (ByteStream.inbox io').length) =
              startOf ms j + s'.length := by omega
        obtain ⟨calls, hcalls, hpre, hin⟩ := ih hserves' hp' hio'
        refine ⟨⟨none, startOf ms j + s.length, startOf ms j + s'.length⟩ :: calls, ?_, hpre, ?_⟩
        · simp only [readFdCalls, hrun, Exec.ok_bind, hpos, hcalls]
          rfl
        intro call hcall
        rcases List.mem_cons.mp hcall with rfl | hcall
        · refine FdCall.inFrame_none (j := j) (Nat.le_add_right _ _) (fun hjlt => ?_)
          have hcons := List.drop_eq_getElem_cons hjlt
          rw [hcons] at hio'
          have hlt := hp'.length_lt (hms _ (List.getElem_mem hjlt)) hio'
          rw [endOf, startOf_succ hcons]
          omega
        · exact hin call hcall
      · have hsucc := startOf_succ hj
        have hnext := drop_succ_of_drop hj
        have hm : m ∈ ms := List.mem_of_mem_drop (by rw [hj]; simp)
        have hlt : s.length < m.wire.length := by
          rw [hj] at hio
          exact hp.length_lt (hms m hm) hio
        have hpos : startOf ms j + s.length +
            ((ByteStream.inbox io).length - (ByteStream.inbox io').length) =
              startOf ms (j + 1) + ([] : List UInt8).length := by
          rw [hj, wires_cons, List.length_append, ← hio'] at hlen
          simp only [List.length_nil]
          omega
        obtain ⟨calls, hcalls, hpre, hin⟩ := ih hserves' (j := j + 1) hp' (by rw [hnext]; simpa using hio')
        refine ⟨⟨some m, startOf ms j + s.length, endOf ms j⟩ :: calls, ?_, ?_, ?_⟩
        · simp only [readFdCalls, hrun, Exec.ok_bind, hpos, hcalls]
          rfl
        · rw [hnext] at hpre
          rw [hj]
          exact (List.prefix_cons_inj m).mpr hpre
        · intro call hcall
          rcases List.mem_cons.mp hcall with rfl | hcall
          · exact FdCall.inFrame_some hj (Nat.le_add_right _ _) (by rw [endOf, hsucc]; omega) hms
          · exact hin call hcall

/-- Round trip over a stream. Messages sent with `TcpClient_SendMsg` and read back with `MParser_ReadFd` under
any schedule come out in order and unchanged, each from the call that reads its last byte, and no call reads
past the end of the message it is in. -/
theorem readFd_stream_roundtrip {fd : Int} (hfd : fd ≠ -1) {ms : List Message}
    (hms : ∀ m ∈ ms, m.Sendable) :
    ∃ S, TcpClient.sendAll ms = .ok S ∧ ∀ (sched : Stream' ReadEvent) (mallocs : List Malloc),
      (∀ malloc ∈ mallocs, malloc.Serves) →
        ∃ calls, readFdCalls fd mallocs MsgParser.fresh (Sock.mk S sched) 0 = .ok calls ∧
          calls.filterMap FdCall.ret <+: ms ∧ ∀ call ∈ calls, call.InFrame ms := by
  refine ⟨wires ms, TcpClient.sendAll_eq hms, ?_⟩
  intro sched mallocs hserves
  have hio : [] ++ ByteStream.inbox (Sock.mk (wires ms) sched) = wires (ms.drop 0) := rfl
  exact readFdCalls_spec hfd hms hserves Holds.fresh hio

theorem readFd_stream_roundtrip_two :
    ∃ S, TcpClient.sendAll [⟨⟨1, 2, 3, 4, 2⟩, [7, 8]⟩, ⟨⟨0, 0, 0, 0, 0⟩, []⟩] = .ok S ∧
      ∀ sched : Stream' ReadEvent,
        ∃ calls, readFdCalls 3 [.zeroed, .zeroed, .zeroed] MsgParser.fresh (Sock.mk S sched) 0 = .ok calls ∧
          calls.filterMap FdCall.ret <+: [⟨⟨1, 2, 3, 4, 2⟩, [7, 8]⟩, ⟨⟨0, 0, 0, 0, 0⟩, []⟩] := by
  have hfd : (3 : Int) ≠ -1 := by decide
  have hms : ∀ m ∈ [(⟨⟨1, 2, 3, 4, 2⟩, [7, 8]⟩ : Message), ⟨⟨0, 0, 0, 0, 0⟩, []⟩], m.Sendable := by decide
  obtain ⟨S, hS, hcalls⟩ := readFd_stream_roundtrip hfd hms
  refine ⟨S, hS, fun sched => ?_⟩
  obtain ⟨calls, hrun, hpre, _⟩ := hcalls sched [.zeroed, .zeroed, .zeroed] (by
    intro malloc hmem
    simp only [List.mem_cons, List.not_mem_nil, or_false, or_self] at hmem
    exact hmem ▸ Malloc.zeroed_serves)
  exact ⟨calls, hrun, hpre⟩

end CompileService.Wire
