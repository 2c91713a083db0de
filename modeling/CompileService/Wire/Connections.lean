import CompileService.Wire.TcpClient
import CompileService.Wire.Bounds

/-!
# One client, several connections

A client keeps its parser when it gets a new socket. `TcpClient_Close` resets the parser, `TcpClient_Connect` does
not: after a connection was dropped in the middle of a message, connecting again lets the message go on with the
bytes of the new connection.
-/

namespace CompileService.Wire

open CompileService.Base

namespace TcpClient

/-- `TcpClient_New`. -/
def new (malloc calloc : Bool) : Option Client := fromFd malloc calloc (-1)

/-- `TcpClient_IsValid`: `getsockopt` fails without a descriptor, and then the state that it leaves is not
`TCP_ESTABLISHED`. -/
def isValid (established : Bool) (c : Client) : Bool := c.fd ≠ -1 && established

/-- `TcpClient_Connect`: `socket` and `connect` are the results of the calls, `ip` is false for a null pointer. -/
def connect (valid ip : Bool) (socket connect : Int) (c : Client) : Bool × Client :=
  if !valid && ip then
    let c := { c with fd := socket }
    if socket ≠ -1 then (connect ≠ -1, c) else (valid, c)
  else (valid, c)

def close (c : Client) : Client := ⟨-1, c.parser.reset⟩

end TcpClient

/-- A descriptor from which nothing can be read. -/
def deadSock : Sock := ⟨[], Stream'.const .fail⟩

/-- A client with the kernel's side of its descriptor, the bytes that it read from its current connection, and the
message that the last call returned. -/
structure Link where
  client : Client
  io : Sock
  established : Bool
  seen : List UInt8
  last : Option Message

/-- What happens to a client. `peer` is what a new connection will deliver, `none` if `connect` fails; a drop lets
`n` more bytes through. -/
inductive LinkEvent where
  | connect (ip : Bool) (socket : Int) (peer : Option Sock)
  | recvMsg (malloc : Malloc)
  | close
  | drop (n : Nat)

namespace Link

def init : Link := ⟨⟨-1, MsgParser.fresh⟩, deadSock, false, [], none⟩

def valid (l : Link) : Bool := TcpClient.isValid l.established l.client

def step (l : Link) : LinkEvent → Exec Link
  | .connect ip socket peer =>
      let (_, client) := TcpClient.connect l.valid ip socket (if peer.isSome then 0 else -1) l.client
      if l.valid || !ip then .ok { l with client := client, last := none }
      else
        match (if socket = -1 then none else peer) with
        | some io => .ok ⟨client, io, true, [], none⟩
        | none => .ok ⟨client, deadSock, false, l.seen, none⟩
  | .recvMsg malloc => do
      let (ret, client, io) ← TcpClient.recvMsg malloc l.client l.io
      let read := l.io.inbox.take (l.io.inbox.length - io.inbox.length)
      return { l with client := client, io := io, seen := l.seen ++ read, last := ret }
  | .close => .ok ⟨TcpClient.close l.client, deadSock, false, [], none⟩
  | .drop n => .ok { l with io := ⟨l.io.inbox.take n, l.io.sched⟩, established := false, last := none }

/-- From its first byte on, the current connection was cut into whole messages. What the parser holds comes after
them, and a message that was just returned is the last of them. -/
structure OneConnection (l : Link) : Prop where
  held : ∃ (ms : List Message) (s : List UInt8),
    (∀ m ∈ ms, m.Full) ∧ l.seen = wires ms ++ s ∧ Holds l.client.parser s
  returned : ∀ m, l.last = some m → ∃ ms : List Message, (∀ m' ∈ ms ++ [m], m'.Full) ∧ l.seen = wires (ms ++ [m])

/-- The event gives the client a new connection. -/
def Connects (l : Link) (ip : Bool) (socket : Int) (peer : Option Sock) : Prop :=
  l.valid = false ∧ ip = true ∧ socket ≠ -1 ∧ peer ≠ none

/-- The length that a header announces fits an `int`, and there is a block for a message with a payload. -/
def Accepts (malloc : Malloc) (h : Header) : Prop :=
  h.length.toNat < 2 ^ 31 ∧ (h.length ≠ 0 → malloc (blockSize h.length) ≠ none)

/-- A new connection finds the parser between two messages, and a header that is completed is accepted. -/
def Permits (l : Link) : LinkEvent → Prop
  | .connect ip socket peer =>
      l.Connects ip socket peer → l.client.parser.header = false ∧ l.client.parser.need = sizeofMessage
  | .recvMsg malloc => ∀ h, l.client.parser.headerOfFd l.client.fd l.io = some h → Accepts malloc h
  | .close => True
  | .drop _ => True

/-! ## One event -/

theorem connect_skip (c : Client) {valid ip : Bool} (socket conn : Int) (h : (valid || !ip) = true) :
    TcpClient.connect valid ip socket conn c = (valid, c) := by
  have hskip : (!valid && ip) = false := by
    cases valid <;> cases ip <;> first | rfl | cases h
  simp only [TcpClient.connect, hskip, Bool.false_eq_true, if_false]

theorem connect_try (c : Client) {valid ip : Bool} (socket conn : Int) (h : (valid || !ip) = false) :
    ∃ ok, TcpClient.connect valid ip socket conn c = (ok, ⟨socket, c.parser⟩) := by
  have htry : (!valid && ip) = true := by
    cases valid <;> cases ip <;> first | rfl | cases h
  simp only [TcpClient.connect, htry, if_true]
  split
  · exact ⟨_, rfl⟩
  · exact ⟨_, rfl⟩

/-- A new connection begins with the parser that the last one left behind. -/
theorem step_connect (l : Link) (ip : Bool) (socket : Int) (peer : Option Sock) :
    (l.Connects ip socket peer ∧ ∃ io, l.step (.connect ip socket peer) =
      .ok ⟨⟨socket, l.client.parser⟩, io, true, [], none⟩) ∨
    (¬ l.Connects ip socket peer ∧ ∃ fd io established, l.step (.connect ip socket peer) =
      .ok ⟨⟨fd, l.client.parser⟩, io, established, l.seen, none⟩) := by
  by_cases hopen : (l.valid || !ip) = true
  · refine Or.inr ⟨?_, l.client.fd, l.io, l.established, ?_⟩
    · rintro ⟨hvalid, rfl, _⟩
      rw [hvalid] at hopen
      cases hopen
    · simp only [step, connect_skip _ _ _ hopen, hopen, if_true]
  · obtain ⟨hvalid, hip⟩ := Bool.or_eq_false_iff.mp (Bool.not_eq_true _ ▸ hopen)
    have hip' : ip = true := by simpa using hip
    obtain ⟨ok, hconn⟩ := connect_try l.client socket (if peer.isSome then 0 else -1) (Bool.not_eq_true _ ▸ hopen)
    cases hpeer : (if socket = -1 then none else peer) with
    | none =>
        refine Or.inr ⟨?_, socket, deadSock, false, ?_⟩
        · rintro ⟨_, _, hsocket, hne⟩
          rw [if_neg hsocket] at hpeer
          exact hne hpeer
        · simp only [step, hconn, hopen, hpeer, Bool.false_eq_true, if_false]
    | some io =>
        refine Or.inl ⟨⟨hvalid, hip', ?_, ?_⟩, io, ?_⟩
        · rintro rfl
          cases hpeer
        · rintro rfl
          rw [ite_self] at hpeer
          cases hpeer
        · simp only [step, hconn, hopen, hpeer, Bool.false_eq_true, if_false]

/-- A message without a payload is no more than its header. -/
theorem wires_empty {h : Header} (hlen : h.length = 0) : (⟨h, []⟩ : Message).Full ∧ wires [⟨h, []⟩] = h.wire := by
  refine ⟨?_, ?_⟩
  · rw [Message.Full, hlen]
    rfl
  · rw [wires_cons, wires_nil, List.append_nil, Message.wire_eq, List.append_nil]

/-- What a call of `TcpClient_RecvMsg` reads continues what the parser holds. Then a header was given up, or the bytes
were taken as if `malloc` could not fail. -/
theorem recvMsg_cases {l : Link} {malloc : Malloc} {s : List UInt8} (hfd : l.client.fd ≠ -1)
    (hp : Holds l.client.parser s)
    (hok : ∀ h, l.client.parser.headerOfFd l.client.fd l.io = some h → LengthOk malloc h) :
    ∃ bs l', l.step (.recvMsg malloc) = .ok l' ∧ l'.seen = l.seen ++ bs ∧
      ((∃ h, l.client.parser.headerOfFd l.client.fd l.io = some h ∧ malloc (blockSize h.length) = none ∧
          s ++ bs = h.wire ∧ l'.last = none ∧ Holds l'.client.parser []) ∨
        ((∀ h, l.client.parser.headerOfFd l.client.fd l.io = some h → malloc (blockSize h.length) ≠ none) ∧
          Fed .zeroed (s ++ bs) l'.last l'.client.parser [])) := by
  obtain ⟨bs, ret, p', io', hrun, hreads, hcase⟩ := MsgParser.readFd_spec malloc hfd hp l.io hok
  have hread : l.io.inbox.take (l.io.inbox.length - io'.inbox.length) = bs := by
    have hio : l.io.inbox = bs ++ io'.inbox := hreads.inbox_eq
    rw [hio, List.length_append, Nat.add_sub_cancel, List.take_left']
    rfl
  refine ⟨bs, ⟨⟨l.client.fd, p'⟩, io', l.established, l.seen ++ bs, ret⟩, ?_, rfl, hcase⟩
  simp only [step, TcpClient.recvMsg, hrun, Exec.ok_bind]
  show Except.ok _ = _
  rw [hread]

theorem step_recvMsg {l : Link} {malloc : Malloc} (hl : OneConnection l)
    (hok : ∀ h, l.client.parser.headerOfFd l.client.fd l.io = some h → Accepts malloc h) :
    ∃ l', l.step (.recvMsg malloc) = .ok l' ∧ OneConnection l' := by
  obtain ⟨ms, s, hms, hseen, hp⟩ := hl.held
  by_cases hfd : l.client.fd = -1
  · refine ⟨_, by simp only [step, TcpClient.recvMsg, MsgParser.readFd, hfd, if_true, Exec.ok_bind]; rfl, ?_, ?_⟩
    · exact ⟨ms, s, hms, by simpa using hseen, hp⟩
    · rintro m ⟨⟩
  · obtain ⟨bs, l', hstep, hseen', hcase⟩ := recvMsg_cases hfd hp fun h hh => Or.inl (hok h hh).1
    refine ⟨l', hstep, ?_⟩
    rw [hseen, List.append_assoc] at hseen'
    rcases hcase with ⟨h, hh, hnone, hwire, hlast, hp'⟩ | ⟨_, hfed⟩
    · -- the message that is given up has no payload
      have hlen : h.length = 0 := by
        by_contra hne
        exact (hok h hh).2 hne hnone
      obtain ⟨hfull, hempty⟩ := wires_empty hlen
      rw [hwire, ← hempty, ← wires_append] at hseen'
      refine ⟨⟨ms ++ [⟨h, []⟩], [], ?_, by rw [hseen', List.append_nil], hp'⟩, fun m hm => ?_⟩
      · exact List.forall_mem_append.mpr ⟨hms, List.forall_mem_singleton.mpr hfull⟩
      · rw [hlast] at hm
        cases hm
    · generalize ht : s ++ bs = t at hfed hseen'
      generalize hlast : l'.last = ret at hfed
      cases hfed with
      | more hp' =>
          refine ⟨⟨ms, t, hms, hseen', hp'⟩, fun m hm => ?_⟩
          rw [hlast] at hm
          cases hm
      | @done m _ _ hfull _ hp' =>
          have hall : ∀ m' ∈ ms ++ [m], m'.Full :=
            List.forall_mem_append.mpr ⟨hms, List.forall_mem_singleton.mpr hfull⟩
          have hwires : l'.seen = wires (ms ++ [m]) := by
            rw [hseen', wires_append, wires_cons, wires_nil]
          refine ⟨⟨ms ++ [m], [], hall, by rw [hwires, List.append_nil], hp'⟩, fun m' hm' => ?_⟩
          obtain rfl := Option.some.inj (hlast.symm.trans hm')
          exact ⟨ms, hall, hwires⟩
      | drop _ hnone _ => cases hnone

theorem step_oneConnection {l : Link} {e : LinkEvent} (hl : OneConnection l) (hok : l.Permits e) :
    ∃ l', l.step e = .ok l' ∧ OneConnection l' := by
  cases e with
  | connect ip socket peer =>
      obtain ⟨ms, s, hms, hseen, hp⟩ := hl.held
      rcases l.step_connect ip socket peer with ⟨hc, io, hstep⟩ | ⟨_, fd, io, established, hstep⟩
      · obtain ⟨hheader, hneed⟩ := hok hc
        obtain rfl := hp.nil_of_between hheader hneed
        exact ⟨_, hstep, ⟨[], [], nofun, rfl, hp⟩, nofun⟩
      · exact ⟨_, hstep, ⟨ms, s, hms, hseen, hp⟩, nofun⟩
  | recvMsg malloc => exact step_recvMsg hl hok
  | close => exact ⟨_, rfl, ⟨[], [], nofun, rfl, Holds.init _⟩, nofun⟩
  | drop n => exact ⟨_, rfl, hl.held, nofun⟩

/-- Whole messages are not followed by more whole messages and the header of a message with a payload. -/
theorem wires_ne_header {ms ms' : List Message} {h : Header} (hms : ∀ m ∈ ms, m.Full) (hms' : ∀ m ∈ ms', m.Full)
    (heq : wires ms ++ h.wire = wires ms') : h.length = 0 := by
  obtain ⟨gs, hgs, hwire⟩ := Framing.Frame.flatten_split (wires_frames hms) (wires_frames hms') heq
  cases gs with
  | nil =>
      have hlen := congrArg List.length hwire
      rw [Header.length_wire] at hlen
      cases hlen
  | cons g gs =>
      have hg : msgFraming.Frame g := wires_frames hms' g (by rw [hgs]; simp)
      have hsize := hg.size_append gs.flatten
      rw [← List.flatten_cons, ← hwire, ← List.append_nil h.wire, msgFraming_size] at hsize
      have hlen := congrArg List.length hwire
      rw [Header.length_wire, List.flatten_cons, List.length_append] at hlen
      exact UInt32.toNat.inj (show h.length.toNat = 0 by omega)

/-- A header with a payload that finds no block is given up, and the connection is not cut into messages any more. -/
theorem accepts_of_step {l l' : Link} {malloc : Malloc} {h : Header} (hl : OneConnection l)
    (hh : l.client.parser.headerOfFd l.client.fd l.io = some h) (hlength : LengthOk malloc h)
    (hstep : l.step (.recvMsg malloc) = .ok l') (hl' : OneConnection l') : Accepts malloc h := by
  obtain ⟨ms, s, hms, hseen, hp⟩ := hl.held
  have hok : ∀ h', l.client.parser.headerOfFd l.client.fd l.io = some h' → LengthOk malloc h' := by
    intro h' hh'
    obtain rfl := Option.some.inj (hh.symm.trans hh')
    exact hlength
  obtain ⟨bs, l₁, hstep₁, hseen₁, hcase⟩ := recvMsg_cases (MsgParser.headerOfFd_received hp hh).1 hp hok
  obtain rfl := Except.ok.inj (hstep.symm.trans hstep₁)
  rcases hcase with ⟨h', hh', _, hwire, _, hp'⟩ | ⟨hall, _⟩
  · obtain rfl := Option.some.inj (hh.symm.trans hh')
    obtain ⟨ms', s', hms', hseen', hholds⟩ := hl'.held
    obtain rfl := hp'.initial_unique hholds
    rw [hseen₁, hseen, List.append_assoc, hwire, List.append_nil] at hseen'
    have hlen := wires_ne_header hms hms' hseen'
    refine ⟨?_, fun hne => absurd hlen hne⟩
    rw [hlen]
    exact Nat.two_pow_pos 31
  · exact ⟨hlength.resolve_right (hall h hh), fun _ => hall h hh⟩

theorem permits_of_step {l l' : Link} {e : LinkEvent} (hl : OneConnection l) (hstep : l.step e = .ok l')
    (hl' : OneConnection l') : l.Permits e := by
  cases e with
  | connect ip socket peer =>
      intro hc
      rcases l.step_connect ip socket peer with ⟨_, io, hstep'⟩ | ⟨hnot, _⟩
      · obtain rfl := Except.ok.inj (hstep.symm.trans hstep')
        obtain ⟨ms, s, _, hseen, hp⟩ := hl'.held
        obtain rfl := (List.append_eq_nil_iff.mp hseen.symm).2
        exact hp.of_nil
      · exact absurd hc hnot
  | recvMsg malloc =>
      intro h hh
      by_cases hlength : LengthOk malloc h
      · exact accepts_of_step hl hh hlength hstep hl'
      · obtain ⟨ms, s, _, _, hp⟩ := hl.held
        obtain ⟨⟨ret, client, io⟩, hrun, hret⟩ := Exec.bind_eq_ok.mp hstep
        obtain ⟨⟨ret', p', io'⟩, hread, hclient⟩ := Exec.bind_eq_ok.mp hrun
        cases hclient
        cases hret
        obtain ⟨ms', s', _, _, hp'⟩ := hl'.held
        exact absurd hp'.bounds (MsgParser.readFd_broken hp hh hlength hread)
  | close => trivial
  | drop n => trivial

/-! ## All runs -/

/-- In a run of one client the current connection is cut into whole messages from its first byte on, and each message
that is returned is one of them, if and only if every new connection finds the parser between two messages and every
header that is completed is accepted. -/
theorem oneConnection_iff (events : List LinkEvent) :
    Always step OneConnection init events ↔ Along step Permits init events := by
  have hinit : OneConnection init := ⟨⟨[], [], nofun, rfl, Holds.fresh⟩, nofun⟩
  exact always_iff (fun _ h => h) (fun _ _ hl hok => step_oneConnection hl hok)
    (fun _ _ _ hl hstep hl' => permits_of_step hl hstep hl') hinit events

/-- A connection is dropped in the middle of a header, and the message that the next connection begins with is cut
after its first byte. -/
theorem message_spans_connections :
    let first : Sock := ⟨List.replicate 11 0, Stream'.const (.count 100)⟩
    let second : Sock := ⟨(⟨⟨0, 1, 2, 3, 0⟩, []⟩ : Message).wire, Stream'.const (.count 100)⟩
    let events : List LinkEvent := [.connect true 3 (some first), .recvMsg .zeroed, .drop 0,
      .connect true 4 (some second), .recvMsg .zeroed]
    ∃ l, events.foldlM step init = .ok l ∧ l.last = some ⟨⟨0, 0, 0, 0, 0⟩, []⟩ ∧ l.seen = [0] ∧
      ¬ Always step OneConnection init events := by
  intro first second events
  have hlast : (events.foldlM step init).map (fun l => (l.last, l.seen)) =
      .ok (some ⟨⟨0, 0, 0, 0, 0⟩, []⟩, [0]) := by
    decide +kernel
  cases hrun : events.foldlM step init with
  | error e =>
      rw [hrun] at hlast
      cases hlast
  | ok l =>
      rw [hrun] at hlast
      obtain ⟨hl, hseen⟩ := Prod.mk.inj (Except.ok.inj hlast)
      refine ⟨l, rfl, hl, hseen, fun hall => ?_⟩
      obtain ⟨l', hrun', hl'⟩ := hall events List.prefix_rfl
      obtain rfl := Except.ok.inj (hrun.symm.trans hrun')
      obtain ⟨us, _, hus⟩ := hl'.returned _ hl
      have hlen := congrArg List.length hus
      rw [hseen, wires_append, wires_cons, List.length_append, List.length_append, Message.length_wire] at hlen
      simp only [List.length_cons, List.length_nil] at hlen
      omega

end Link

end CompileService.Wire
