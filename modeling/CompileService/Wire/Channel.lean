import CompileService.Wire.ShortSends
import CompileService.Base.Network
import CompileService.Base.Simulation

/-!
# Connected clients

Any number of clients are connected in pairs. At any time one of them may call `TcpClient_SendMsg` or
`TcpClient_RecvMsg`, in any order, while bytes of other messages are on their way in both directions. Each direction
then carries messages like a queue.

A receive is one step. What the peer sends while it is running counts as sent before it: the schedule decides when
the bytes are delivered.
-/

namespace CompileService.Wire

open CompileService.Base

/-- A client with the bytes on their way to it. `sent` has the messages for which `TcpClient_SendMsg` returned 1,
`got` those that `TcpClient_RecvMsg` returned. -/
structure Station where
  client : Client
  inbox : List UInt8
  sent : List Message
  got : List Message

/-- A client that was just connected. -/
def Station.connected (fd : Int) : Station := ⟨⟨fd, MsgParser.fresh⟩, [], [], []⟩

/-- A call made by the client `k`. -/
inductive Turn (κ : Type) where
  | send (k : κ) (m : Message) (e : SendEvent)
  | recv (k : κ) (malloc : Malloc) (sched : Stream' ReadEvent)

namespace Station

def queued (s : Station) (bs : List UInt8) : Station := { s with inbox := s.inbox ++ bs }

def reported (s : Station) (ret : Bool) (m : Message) : Station :=
  { s with sent := if ret then s.sent ++ [m] else s.sent }

/-- One `TcpClient_RecvMsg`. -/
def recvMsg (s : Station) (malloc : Malloc) (sched : Stream' ReadEvent) : Exec Station := do
  let (ret, client, io) ← TcpClient.recvMsg malloc s.client (Sock.mk s.inbox sched)
  return { s with client := client, inbox := io.inbox, got := s.got ++ ret.toList }

end Station

section
variable {κ : Type} [DecidableEq κ]

def takeTurn (peer : κ → κ) (s : κ → Station) : Turn κ → Exec (κ → Station)
  | .send k m e => do
      let buf ← m.sendBuf
      let (ret, _) ← TcpClient.sendMsg (fun _ buf => (e.send buf).1) (s k).client m
      let s := Function.update s k ((s k).reported ret m)
      return Function.update s (peer k) ((s (peer k)).queued (e.send buf).2)
  | .recv k malloc sched => do
      let st ← (s k).recvMsg malloc sched
      return Function.update s k st

/-- The messages fit an `int`, no send is cut short, and no allocation fails. -/
def Turn.Sound : Turn κ → Prop
  | .send _ m e => m.Sendable ∧ e.TakesAll m
  | .recv _ malloc _ => malloc.Serves

end

/-! ## One direction -/

/-- The messages `q` are on their way to the client: their encodings are what its parser holds of the first one,
followed by the bytes to come. -/
structure Station.Carries (s : Station) (q : List Message) : Prop where
  fd : s.client.fd ≠ -1
  sendable : ∀ m ∈ q, m.Sendable
  stream : ∃ held, Holds s.client.parser held ∧ held ++ s.inbox = wires q

namespace Station

variable {s : Station} {q : List Message}

theorem carries_connected {fd : Int} (hfd : fd ≠ -1) : (connected fd).Carries [] :=
  ⟨hfd, fun _ h => absurd h List.not_mem_nil, [], Holds.fresh, rfl⟩

theorem Carries.reported (h : s.Carries q) (ret : Bool) (m : Message) : (s.reported ret m).Carries q :=
  ⟨h.fd, h.sendable, h.stream⟩

theorem Carries.queued (h : s.Carries q) {m : Message} (hm : m.Sendable) :
    (s.queued m.wire).Carries (q ++ [m]) := by
  obtain ⟨held, hp, hio⟩ := h.stream
  refine ⟨h.fd, ?_, held, hp, ?_⟩
  · intro m' hm'
    rcases List.mem_append.mp hm' with hm' | hm'
    · exact h.sendable m' hm'
    · rwa [List.mem_singleton.mp hm']
  · simp only [Station.queued, ← List.append_assoc, hio, wires_append, wires_cons, wires_nil, List.append_nil]

theorem Carries.eq_nil (h : s.Carries q) (hempty : s.inbox = []) : q = [] := by
  obtain ⟨held, hp, hio⟩ := h.stream
  rw [hempty, List.append_nil] at hio
  exact hp.eq_nil h.sendable hio

/-- A receive returns nothing, or the first message on its way. -/
theorem Carries.recvMsg (h : s.Carries q) {malloc : Malloc} (hserves : malloc.Serves) (sched : Stream' ReadEvent) :
    ∃ s', s.recvMsg malloc sched = .ok s' ∧ s'.sent = s.sent ∧
      ((s'.got = s.got ∧ s'.Carries q) ∨ ∃ m q', q = m :: q' ∧ s'.got = s.got ++ [m] ∧ s'.Carries q') := by
  obtain ⟨held, hp, hio⟩ := h.stream
  have hsock : held ++ ByteStream.inbox (Sock.mk s.inbox sched) = wires q := hio
  obtain ⟨ret, p', io', hrun, hcase⟩ := readFd_step h.fd hserves h.sendable hp hsock
  refine ⟨⟨⟨s.client.fd, p'⟩, io'.inbox, s.sent, s.got ++ ret.toList⟩, ?_, rfl, ?_⟩
  · simp only [Station.recvMsg, TcpClient.recvMsg, hrun, Exec.ok_bind]
    rfl
  rcases hcase with ⟨rfl, held', hp', hio', _⟩ | ⟨m, q', rfl, rfl, hp', hio'⟩
  · exact .inl ⟨List.append_nil _, h.fd, h.sendable, held', hp', hio'⟩
  · exact .inr ⟨m, q', rfl, rfl, h.fd, fun m' hm' => h.sendable m' (List.mem_cons_of_mem m hm'), [], hp', hio'⟩

/-- The messages `q` are on their way to the client, which has sent `sent` and got `got`. -/
structure Shows (s : Station) (q sent got : List Message) : Prop where
  carries : s.Carries q
  sent_eq : s.sent = sent
  got_eq : s.got = got

end Station

/-! ## All directions -/

section
variable {κ : Type} {peer : κ → κ} {s : κ → Station} {t : Queues κ Message}

/-- The clients are in the states that the queues say. -/
def Shown (s : κ → Station) (t : Queues κ Message) : Prop := ∀ k, (s k).Shows (t.queue k) (t.sent k) (t.got k)

theorem shown_connected {fds : κ → Int} (hfds : ∀ k, fds k ≠ -1) :
    Shown (fun k => Station.connected (fds k)) Queues.empty :=
  fun k => ⟨Station.carries_connected (hfds k), rfl, rfl⟩

variable [DecidableEq κ]

theorem Shown.update (h : Shown s t) (k : κ) {st : Station} {q sent got : List Message}
    (hst : st.Shows q sent got) :
    Shown (Function.update s k st)
      ⟨Function.update t.queue k q, Function.update t.sent k sent, Function.update t.got k got⟩ := by
  intro k'
  by_cases hk : k' = k
  · subst hk
    simpa only [Function.update_self] using hst
  · simpa only [Function.update_of_ne hk] using h k'

theorem Shown.reported (h : Shown s t) (k : κ) (m : Message) :
    Shown (Function.update s k ((s k).reported true m)) ⟨t.queue, put t.sent k m, t.got⟩ := by
  have hk := h k
  have hsent : ((s k).reported true m).sent = t.sent k ++ [m] := by rw [← hk.sent_eq]; rfl
  have hshown := h.update k ⟨hk.carries.reported true m, hsent, hk.got_eq⟩
  rw [Function.update_eq_self, Function.update_eq_self] at hshown
  exact hshown

theorem Shown.queued (h : Shown s t) (k : κ) {m : Message} (hm : m.Sendable) :
    Shown (Function.update s k ((s k).queued m.wire)) ⟨put t.queue k m, t.sent, t.got⟩ := by
  have hk := h k
  have hshown := h.update k ⟨hk.carries.queued hm, hk.sent_eq, hk.got_eq⟩
  rw [Function.update_eq_self, Function.update_eq_self] at hshown
  exact hshown

/-! ## Turns -/

variable {k : κ} {m : Message} {malloc : Malloc} {sched : Stream' ReadEvent} {st : Station}

/-- A send that fails changes nothing. -/
theorem takeTurn_fail (hm : m.Sendable) : takeTurn peer s (.send k m .fail) = .ok s := by
  have hqueued : ∀ st : Station, st.queued [] = st := fun st => by simp only [Station.queued, List.append_nil]
  simp only [takeTurn, hm.sendBuf_eq, TcpClient.sendMsg_eq hm, Exec.ok_bind, SendEvent.send, hqueued]
  have hsame : (s k).reported (decide ((-1 : Int) ≠ -1)) m = s k := rfl
  rw [hsame, Function.update_eq_self, Function.update_eq_self]
  rfl

theorem takeTurn_send {n : Nat} (hm : m.Sendable) (hn : (SendEvent.count n).TakesAll m) :
    takeTurn peer s (.send k m (.count n)) =
      .ok (Function.update (Function.update s k ((s k).reported true m)) (peer k)
        ((Function.update s k ((s k).reported true m) (peer k)).queued m.wire)) := by
  have hall : m.wire.take (n + 1) = m.wire := by
    have hle : 12 + m.length.toNat ≤ n + 1 := hn
    exact List.take_of_length_le (by rw [Message.length_wire, hm.1]; exact hle)
  have hret : ((m.wire.length : Nat) : Int) ≠ -1 := by omega
  simp only [takeTurn, hm.sendBuf_eq, TcpClient.sendMsg_eq hm, Exec.ok_bind, SendEvent.send, hall, hret, ne_eq,
    not_false_eq_true, decide_true]
  rfl

theorem takeTurn_recv (h : (s k).recvMsg malloc sched = .ok st) :
    takeTurn peer s (.recv k malloc sched) = .ok (Function.update s k st) := by
  simp only [takeTurn, h, Exec.ok_bind]
  rfl

/-- A turn that is sound comes to one move of the queues, or to none. -/
theorem takeTurn_simulates (peer : κ → κ) :
    Simulates (takeTurn peer) (Queues.Move peer) Shown Turn.Sound := by
  intro s t i hst hi
  cases i with
  | send k m e =>
      obtain ⟨hm, htakes⟩ := hi
      cases e with
      | fail => exact ⟨s, takeTurn_fail hm, t, .refl, hst⟩
      | count n =>
          have hshown := (hst.reported k m).queued (peer k) hm
          exact ⟨_, takeTurn_send hm htakes, _, .single (.send t k m), hshown⟩
  | recv k malloc sched =>
      have hk := hst k
      obtain ⟨st, hrun, hsent, hcase⟩ := hk.carries.recvMsg hi sched
      refine ⟨_, takeTurn_recv hrun, ?_⟩
      rcases hcase with ⟨hgot, hcarries⟩ | ⟨m, q', hq, hgot, hcarries⟩
      · have hshown := hst.update k ⟨hcarries, hsent.trans hk.sent_eq, hgot.trans hk.got_eq⟩
        simp only [Function.update_eq_self] at hshown
        exact ⟨t, .refl, hshown⟩
      · have hshown := hst.update k ⟨hcarries, hsent.trans hk.sent_eq, hgot.trans (by rw [hk.got_eq])⟩
        rw [Function.update_eq_self] at hshown
        exact ⟨_, .single (.recv t k m q' hq), hshown⟩

/-- Clients that are connected in pairs are queues of messages. Whatever the order of their calls and however the
bytes are delivered, a run comes to moves of the queues: each client got the first of the messages that its peer has
sent, in their order and unchanged, and all of them once no byte is on its way to it. -/
theorem clients_are_queues {fds : κ → Int} (hpeer : Function.Involutive peer) (hfds : ∀ k, fds k ≠ -1)
    {turns : List (Turn κ)} (hturns : ∀ i ∈ turns, i.Sound) :
    ∃ s, turns.foldlM (takeTurn peer) (fun k => Station.connected (fds k)) = .ok s ∧
      (∃ t, Relation.ReflTransGen (Queues.Move peer) Queues.empty t ∧ Shown s t) ∧
      ∀ k, (s k).got <+: (s (peer k)).sent ∧ ((s k).inbox = [] → (s k).got = (s (peer k)).sent) := by
  obtain ⟨s, hrun, t, hmoves, hst⟩ := (takeTurn_simulates peer).run (shown_connected hfds) hturns
  have horder : Queues.InOrder peer t := moves_keep (Queues.Move.inOrder hpeer) (fun _ => rfl) hmoves
  refine ⟨s, hrun, ⟨t, hmoves, hst⟩, fun k => ?_⟩
  have hk := horder k
  rw [← (hst k).got_eq, ← (hst (peer k)).sent_eq] at hk
  refine ⟨⟨t.queue k, hk⟩, fun hempty => ?_⟩
  rwa [(hst k).carries.eq_nil hempty, List.append_nil] at hk

/-! ## One direction among the others -/

/-- The turn is a send to `k`, or a receive of `k`. -/
def Turn.Concerns (peer : κ → κ) (k : κ) : Turn κ → Prop
  | .send j _ _ => peer j = k
  | .recv j _ _ => j = k

instance (peer : κ → κ) (k : κ) (i : Turn κ) : Decidable (i.Concerns peer k) :=
  match i with
  | .send _ _ _ => inferInstanceAs (Decidable (_ = _))
  | .recv _ _ _ => inferInstanceAs (Decidable (_ = _))

/-- What the peer has sent is what `k` got and what is on its way to `k`. -/
def Intact (peer : κ → κ) (k : κ) (s : κ → Station) : Prop :=
  ∃ q, (s k).Carries q ∧ (s k).got ++ q = (s (peer k)).sent

theorem takeTurn_send_ok {e : SendEvent} {s' : κ → Station} (h : takeTurn peer s (.send k m e) = .ok s') :
    ∃ ret bs, s' = Function.update (Function.update s k ((s k).reported ret m)) (peer k)
      ((Function.update s k ((s k).reported ret m) (peer k)).queued bs) := by
  obtain ⟨buf, _, h⟩ := Exec.bind_eq_ok.mp h
  obtain ⟨⟨ret, m'⟩, _, h⟩ := Exec.bind_eq_ok.mp h
  exact ⟨ret, _, (Except.ok.inj h).symm⟩

theorem takeTurn_recv_ok {s' : κ → Station} (h : takeTurn peer s (.recv k malloc sched) = .ok s') :
    ∃ st, (s k).recvMsg malloc sched = .ok st ∧ st.sent = (s k).sent ∧ s' = Function.update s k st := by
  obtain ⟨st, hst, h⟩ := Exec.bind_eq_ok.mp h
  refine ⟨st, hst, ?_, (Except.ok.inj h).symm⟩
  obtain ⟨⟨ret, client, io⟩, _, hret⟩ := Exec.bind_eq_ok.mp hst
  rw [← Except.ok.inj hret]

theorem after_send (peer : κ → κ) (s : κ → Station) (j : κ) (ret : Bool) (m : Message) (bs : List UInt8) (k : κ) :
    let s₁ := Function.update s j ((s j).reported ret m)
    let s' := Function.update s₁ (peer j) ((s₁ (peer j)).queued bs)
    (s' k).client = (s k).client ∧ (s' k).got = (s k).got ∧
      (s' k).inbox = (s k).inbox ++ (if k = peer j then bs else []) ∧
      (s' k).sent = (s k).sent ++ (if k = j ∧ ret then [m] else []) := by
  intro s₁ s'
  have hs₁ : (s₁ k).client = (s k).client ∧ (s₁ k).got = (s k).got ∧ (s₁ k).inbox = (s k).inbox ∧
      (s₁ k).sent = (s k).sent ++ (if k = j ∧ ret then [m] else []) := by
    by_cases hk : k = j
    · subst hk
      have hself : s₁ k = (s k).reported ret m := Function.update_self ..
      rw [hself]
      cases ret <;> simp [Station.reported]
    · have hne : s₁ k = s k := Function.update_of_ne hk ..
      simp [hne, hk]
  by_cases hk : k = peer j
  · subst hk
    have hself : s' (peer j) = (s₁ (peer j)).queued bs := Function.update_self ..
    rw [hself, if_pos rfl, ← hs₁.2.2.1]
    exact ⟨hs₁.1, hs₁.2.1, rfl, hs₁.2.2.2⟩
  · have hne : s' k = s₁ k := Function.update_of_ne hk ..
    rw [hne, if_neg hk, List.append_nil]
    exact hs₁

theorem Station.Carries.congr {st st' : Station} {q : List Message} (h : st.Carries q)
    (hclient : st'.client = st.client) (hinbox : st'.inbox = st.inbox) : st'.Carries q := by
  refine ⟨by rw [hclient]; exact h.fd, h.sendable, ?_⟩
  rw [hclient, hinbox]
  exact h.stream

/-- A send to another client leaves the direction to `k` alone. -/
theorem Intact.of_foreign (hpeer : Function.Involutive peer) (h : Intact peer k s) {j : κ} (hj : peer j ≠ k)
    (ret : Bool) (m : Message) (bs : List UInt8) :
    Intact peer k (Function.update (Function.update s j ((s j).reported ret m)) (peer j)
      ((Function.update s j ((s j).reported ret m) (peer j)).queued bs)) := by
  obtain ⟨q, hq, hgot⟩ := h
  obtain ⟨hclient, hgot', hinbox, _⟩ := after_send peer s j ret m bs k
  obtain ⟨_, _, _, hsent⟩ := after_send peer s j ret m bs (peer k)
  rw [if_neg (Ne.symm hj), List.append_nil] at hinbox
  have hne : ¬ (peer k = j ∧ ret) := fun heq => hj (by rw [← heq.1, hpeer k])
  rw [if_neg hne, List.append_nil] at hsent
  exact ⟨q, hq.congr hclient hinbox, by rw [hgot', hsent, hgot]⟩

theorem Intact.send (hpeer : Function.Involutive peer) (h : Intact peer k s) {m : Message} (hm : m.Sendable)
    {j : κ} (hj : peer j = k) :
    Intact peer k (Function.update (Function.update s j ((s j).reported true m)) (peer j)
      ((Function.update s j ((s j).reported true m) (peer j)).queued m.wire)) := by
  obtain ⟨q, hq, hgot⟩ := h
  obtain ⟨hclient, hgot', hinbox, _⟩ := after_send peer s j true m m.wire k
  obtain ⟨_, _, _, hsent⟩ := after_send peer s j true m m.wire (peer k)
  have hback : peer k = j := by rw [← hj, hpeer j]
  rw [if_pos hj.symm] at hinbox
  rw [if_pos ⟨hback, rfl⟩] at hsent
  exact ⟨q ++ [m], (hq.queued hm).congr hclient hinbox, by rw [hgot', hsent, ← hgot, List.append_assoc]⟩

theorem Intact.turn (hpeer : Function.Involutive peer) (i : Turn κ) (s' : κ → Station) (hs : Intact peer k s)
    (hi : i.Concerns peer k → i.Sound) (h : takeTurn peer s i = .ok s') : Intact peer k s' := by
  cases i with
  | send j m e =>
      by_cases hj : peer j = k
      · obtain ⟨hm, htakes⟩ := hi hj
        cases e with
        | fail =>
            rw [takeTurn_fail hm] at h
            exact Except.ok.inj h ▸ hs
        | count n =>
            rw [takeTurn_send hm htakes] at h
            exact Except.ok.inj h ▸ hs.send hpeer hm hj
      · obtain ⟨ret, bs, rfl⟩ := takeTurn_send_ok h
        exact hs.of_foreign hpeer hj ret m bs
  | recv j malloc sched =>
      obtain ⟨st, hst, hsent, rfl⟩ := takeTurn_recv_ok h
      obtain ⟨q, hq, hgot⟩ := hs
      have hsame : (Function.update s j st (peer k)).sent = (s (peer k)).sent := by
        by_cases hjk : peer k = j
        · rw [hjk, Function.update_self, hsent]
        · rw [Function.update_of_ne hjk]
      unfold Intact
      rw [hsame]
      by_cases hj : j = k
      · obtain ⟨st', hrun, _, hcase⟩ := hq.recvMsg (hi hj) sched
        subst hj
        obtain rfl := Except.ok.inj (hst.symm.trans hrun)
        rw [Function.update_self]
        rcases hcase with ⟨hgot', hq'⟩ | ⟨m, q', rfl, hgot', hq'⟩
        · exact ⟨q, hq', by rw [hgot', hgot]⟩
        · exact ⟨q', hq', by rw [hgot', ← hgot, List.append_assoc, List.singleton_append]⟩
      · rw [Function.update_of_ne (Ne.symm hj)]
        exact ⟨q, hq, hgot⟩

end

/-- Two clients send to each other; one of the two receives is served byte by byte. -/
theorem clients_are_queues_crossing :
    let m₁ : Message := ⟨⟨1, 2, 3, 4, 2⟩, [7, 8]⟩
    let m₂ : Message := ⟨⟨5, 6, 7, 8, 0⟩, []⟩
    let turns : List (Turn Bool) := [.send true m₁ (.count 13), .send false m₂ .fail, .send false m₂ (.count 40),
      .recv false .zeroed (Stream'.const (.count 0)), .recv true .zeroed (Stream'.const (.count 99))]
    ∃ s, turns.foldlM (takeTurn not) (fun k => Station.connected (if k then 4 else 5)) = .ok s ∧
      (s false).got <+: (s true).sent ∧ (s true).got <+: (s false).sent := by
  intro m₁ m₂ turns
  have hturns : ∀ i ∈ turns, i.Sound := by
    simp only [turns, List.forall_mem_cons]
    exact ⟨⟨by decide, by decide⟩, ⟨by decide, by decide⟩, ⟨by decide, by decide⟩, Malloc.zeroed_serves,
      Malloc.zeroed_serves, fun _ h => absurd h List.not_mem_nil⟩
  have hfds : ∀ k : Bool, (if k then (4 : Int) else 5) ≠ -1 := by decide
  obtain ⟨s, hrun, _, hgot⟩ := clients_are_queues Bool.not_not hfds hturns
  exact ⟨s, hrun, (hgot false).1, (hgot true).1⟩

end CompileService.Wire
