import CompileService.Base.Ledger
import CompileService.Wire.Connections

/-!
# The descriptor of a client

`TcpClient_Connect` asks for a new socket whenever the connection is not established, whatever `fd` holds, while
`TcpClient_Close` and `TcpClient_Del` close only what `fd` holds. Each socket is closed if and only if `fd` holds no
open one when the next is asked for.
-/

namespace CompileService.Wire

open CompileService.Base

/-- A client, what the kernel says about the connection on its descriptor, and the sockets that it opened and
closed. -/
structure Handle where
  client : Client
  established : Bool
  fds : List (Entry Int)

/-- What happens to a client: the calls with the results of `socket` and `connect`, and a peer that disconnects. -/
inductive HandleEvent where
  | connect (ip : Bool) (socket connect : Int)
  | drop
  | close

namespace Handle

/-- After `TcpClient_New`. -/
def init : Handle := ⟨⟨-1, MsgParser.fresh⟩, false, []⟩

def valid (h : Handle) : Bool := TcpClient.isValid h.established h.client

def step (h : Handle) : HandleEvent → Exec Handle
  | .connect ip socket connect =>
      let (_, client) := TcpClient.connect h.valid ip socket connect h.client
      if h.valid || !ip then .ok { h with client := client }
      else .ok ⟨client, socket ≠ -1 && connect ≠ -1, h.fds ++ openedFd socket⟩
  | .drop => .ok { h with established := false }
  | .close => .ok ⟨TcpClient.close h.client, false, h.fds ++ closedFd h.client.fd⟩

/-- At most one descriptor is open, the one that is stored in `fd`. -/
def OneOpen (h : Handle) : Prop := ∀ x, Live h.fds x → x = h.client.fd

/-- `socket` returns no descriptor that is open. -/
def Kernel (h : Handle) : HandleEvent → Prop
  | .connect ip socket _ => h.valid = false → ip = true → ¬ Live h.fds socket
  | .drop => True
  | .close => True

/-- A `TcpClient_Connect` that calls `socket` finds no open descriptor in `fd`. -/
def Permits (h : Handle) : HandleEvent → Prop
  | .connect ip _ _ => h.valid = false → ip = true → ¬ Live h.fds h.client.fd
  | .drop => True
  | .close => True

structure Owning (h : Handle) : Prop where
  turns : InTurn h.fds
  live_iff : ∀ x, Live h.fds x ↔ x = h.client.fd ∧ x ≠ -1

theorem Owning.init : Owning init := ⟨.nil, fun _ => iff_of_false (Nat.lt_irrefl 0) fun h => h.2 h.1⟩

variable {h h' : Handle} {e : HandleEvent} {ip : Bool} {socket connect : Int}

theorem Owning.oneOpen (hh : Owning h) : OneOpen h := fun x hx => ((hh.live_iff x).mp hx).1

/-! ## One event -/

/-- A `TcpClient_Connect` leaves all as it is, or puts the result of `socket` into `fd`. -/
theorem connect_cases (h : Handle) (ip : Bool) (socket connect : Int) :
    (¬ (h.valid = false ∧ ip = true) ∧ h.step (.connect ip socket connect) = .ok h) ∨
    ((h.valid = false ∧ ip = true) ∧ ∃ established, h.step (.connect ip socket connect) =
      .ok ⟨⟨socket, h.client.parser⟩, established, h.fds ++ openedFd socket⟩) := by
  cases hopen : h.valid || !ip with
  | true =>
      refine Or.inl ⟨?_, ?_⟩
      · rintro ⟨hvalid, rfl⟩
        rw [hvalid] at hopen
        cases hopen
      · simp only [step, Link.connect_skip _ _ _ hopen, hopen, if_true]
  | false =>
      obtain ⟨hvalid, hip⟩ := Bool.or_eq_false_iff.mp hopen
      obtain ⟨ok, hconn⟩ := Link.connect_try h.client socket connect hopen
      refine Or.inr ⟨⟨hvalid, by simpa using hip⟩, socket ≠ -1 && connect ≠ -1, ?_⟩
      simp only [step, hconn, hopen, Bool.false_eq_true, if_false]

theorem Owning.close (hh : Owning h) : ∃ h', h.step .close = .ok h' ∧ Owning h' ∧ h'.client.fd = -1 := by
  refine ⟨_, rfl, ⟨?_, fun x => ?_⟩, rfl⟩
  · refine hh.turns.closedFd ?_
    by_cases hfd : h.client.fd = -1
    · exact .inl hfd
    · exact .inr ((hh.live_iff _).mpr ⟨rfl, hfd⟩)
  · rw [hh.turns.live_closedFd (fun hneg => ((hh.live_iff _).mp hneg).2 rfl), hh.live_iff]
    exact iff_of_false (fun hx => hx.1 hx.2.1) fun hx => hx.2 hx.1

theorem Owning.step (hh : Owning h) (hk : Kernel h e) (hp : Permits h e) : ∃ h', h.step e = .ok h' ∧ Owning h' := by
  cases e with
  | connect ip socket connect =>
      rcases h.connect_cases ip socket connect with ⟨_, hstep⟩ | ⟨⟨hvalid, hip⟩, established, hstep⟩
      · exact ⟨h, hstep, hh⟩
      · refine ⟨_, hstep, hh.turns.openedFd (hk hvalid hip), fun x => ?_⟩
        have hnone : ¬ Live h.fds x := fun hx => hp hvalid hip (((hh.live_iff x).mp hx).1 ▸ hx)
        rw [hh.turns.live_openedFd, or_iff_left hnone]
        exact and_congr_right fun hx => by rw [hx]
  | drop => exact ⟨_, rfl, hh.turns, hh.live_iff⟩
  | close =>
      obtain ⟨h', hstep, hh', _⟩ := hh.close
      exact ⟨h', hstep, hh'⟩

/-- An open descriptor that `TcpClient_Connect` overwrites is not stored anywhere. -/
theorem permits_of_oneOpen (hk : Kernel h e) (hstep : h.step e = .ok h') (hgood : OneOpen h') : Permits h e := by
  cases e with
  | connect ip socket connect =>
      intro hvalid hip hlive
      rcases h.connect_cases ip socket connect with ⟨hnot, _⟩ | ⟨_, established, hstep'⟩
      · exact hnot ⟨hvalid, hip⟩
      · obtain rfl := Except.ok.inj (hstep.symm.trans hstep')
        have hfd : h.client.fd = socket := hgood h.client.fd (hlive.openedFd socket)
        exact hk hvalid hip (hfd ▸ hlive)
  | drop => trivial
  | close => trivial

/-! ## All runs -/

/-- After every operation the client has at most one open descriptor, in `fd`, and none after `TcpClient_Del`, if and
only if no `TcpClient_Connect` overwrites an open one. -/
theorem oneOpen_iff {events : List HandleEvent} (hk : Along step Kernel init events) :
    (Always step OneOpen init events ∧
      ∃ h, (events ++ [HandleEvent.close]).foldlM step init = .ok h ∧ ∀ x, ¬ Live h.fds x) ↔
        Along step Permits init events := by
  have hiff : Always step OneOpen init events ↔ Along step Permits init events :=
    always_iff_within (fun _ => Owning.oneOpen) (fun _ _ => Owning.step) (fun _ _ _ _ => permits_of_oneOpen)
      Owning.init hk
  rw [hiff]
  refine ⟨fun h => h.1, fun h => ⟨h, ?_⟩⟩
  obtain ⟨h₁, hrun, hh₁⟩ := (hk.and h).run (fun _ _ hh hkp => hh.step hkp.1 hkp.2) Owning.init
  obtain ⟨h₂, hclose, hh₂, hfd⟩ := hh₁.close
  refine ⟨h₂, ?_, fun x hx => ?_⟩
  · rw [List.foldlM_append, hrun, Exec.ok_bind, List.foldlM_cons, hclose]
    rfl
  · obtain ⟨hx, hne⟩ := (hh₂.live_iff x).mp hx
    exact hne (hx.trans hfd)

/-- A first attempt fails, and the client is closed before the second. -/
def retry : List HandleEvent := [.connect true 3 (-1), .close, .connect true 3 0]

theorem oneOpen_retry :
    Always step OneOpen init retry ∧
      ∃ h, (retry ++ [HandleEvent.close]).foldlM step init = .ok h ∧ ∀ x, ¬ Live h.fds x := by
  have hfirst : init.step (.connect true 3 (-1)) = .ok ⟨⟨3, MsgParser.fresh⟩, false, [.opened 3]⟩ := rfl
  have hclose : (⟨⟨3, MsgParser.fresh⟩, false, [.opened 3]⟩ : Handle).step .close =
      .ok ⟨⟨-1, MsgParser.fresh⟩, false, [.opened 3, .closed 3]⟩ := rfl
  have halong : ∀ {P : Handle → HandleEvent → Prop}, P init (.connect true 3 (-1)) →
      P ⟨⟨3, MsgParser.fresh⟩, false, [.opened 3]⟩ .close →
      P ⟨⟨-1, MsgParser.fresh⟩, false, [.opened 3, .closed 3]⟩ (.connect true 3 0) → Along step P init retry := by
    intro P h₁ h₂ h₃
    exact .cons h₁ hfirst (.cons h₂ hclose ⟨h₃, fun _ _ => trivial⟩)
  have hk := halong (P := Kernel) (fun _ _ => by decide) trivial (fun _ _ => by decide)
  exact (oneOpen_iff hk).mpr (halong (fun _ _ => by decide) trivial (fun _ _ => by decide))

/-- A first attempt fails, and the second leaves its socket open for good. -/
theorem oneOpen_leak :
    let events : List HandleEvent := [.connect true 3 (-1), .connect true 4 0]
    Along step Kernel init events ∧ ¬ Always step OneOpen init events ∧
      ∃ h, (events ++ [HandleEvent.close]).foldlM step init = .ok h ∧ Live h.fds 3 := by
  intro events
  have hfirst : init.step (.connect true 3 (-1)) = .ok ⟨⟨3, MsgParser.fresh⟩, false, [.opened 3]⟩ := rfl
  have hsecond : events.foldlM step init = .ok ⟨⟨4, MsgParser.fresh⟩, true, [.opened 3, .opened 4]⟩ := rfl
  refine ⟨.cons (fun _ _ => by decide) hfirst ⟨fun _ _ => by decide, fun _ _ => trivial⟩, fun h => ?_, _, rfl,
    by decide⟩
  · obtain ⟨h', hrun, hone⟩ := h events List.prefix_rfl
    obtain rfl := Except.ok.inj (hsecond.symm.trans hrun)
    exact absurd (hone 3 (by decide)) (by decide)

end Handle

end CompileService.Wire
