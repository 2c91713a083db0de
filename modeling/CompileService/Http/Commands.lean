import CompileService.Base.Run
import CompileService.Server.TcpServer

/-!
# The commands of the server

`Start_Handler` and `Pause_Handler` of `main.c`, with the loop test of `Server_Thread`. A start makes a server, opens
its socket and creates its thread; what it made before it failed is not undone.
-/

namespace CompileService.Http

open CompileService.Base CompileService.Server

/-- `g_status`. -/
inductive Status where
  | stop
  | run
  | pause
deriving DecidableEq, Repr

/-- A server that `Start_Handler` made: its socket holds the port if `bound`, and a `Server_Thread` accepts connections
on it if `thread`. -/
structure Launch where
  server : TcpServer
  bound : Bool
  thread : Bool

/-- The socket is open and listens. -/
def Launch.listening (l : Launch) : Bool := l.server.valid

structure Console where
  status : Status
  launches : List Launch

/-- The commands, a start with the results of `socket`, `bind`, `listen` and `pthread_create`, and a test of the loop
of the `k`-th `Server_Thread`. -/
inductive Command where
  | start (socket : Int) (bind listen create : Bool)
  | pause
  | test (k : Nat)

namespace Console

def init : Console := ⟨.stop, []⟩

def startHandler (c : Console) (socket : Int) (bind listen create : Bool) : Console :=
  if c.status = .stop then
    let server := TcpServer.new.start socket bind listen
    let err := !(server.valid && create)
    ⟨if !err then .run else .stop, c.launches ++ [⟨server, socket ≠ -1 && bind, server.valid && create⟩]⟩
  else { c with status := .run }

def pauseHandler (c : Console) : Console := if c.status = .run then { c with status := .pause } else c

/-- `Server_Thread` returns when its server is not valid. -/
def serverThread (c : Console) (k : Nat) : Console :=
  match c.launches[k]? with
  | none => c
  | some l =>
      if l.thread && !l.server.valid then ⟨.stop, c.launches.set k { l with thread := false }⟩ else c

def step (c : Console) : Command → Exec Console
  | .start socket bind listen create => .ok (c.startHandler socket bind listen create)
  | .pause => .ok c.pauseHandler
  | .test k => .ok (c.serverThread k)

/-- The server of every `Server_Thread` is valid: nothing stops it after the start. -/
def Lasting (c : Console) : Prop := ∀ l ∈ c.launches, l.thread = true → l.listening = true

/-- The status is `STOP` exactly when no socket listens; at most one does, with a thread that accepts; and no socket
holds the port of a stopped server. -/
structure Agrees (c : Console) : Prop where
  stop_iff : c.status = .stop ↔ ∀ l ∈ c.launches, l.listening = false
  one : c.launches.countP Launch.listening ≤ 1
  accepting : ∀ l ∈ c.launches, l.thread = l.listening
  port : c.status = .stop → ∀ l ∈ c.launches, l.bound = false

/-- A start that gets the port gets all the rest. -/
def Permits (c : Console) : Command → Prop
  | .start socket bind listen create =>
      c.status = .stop → socket ≠ -1 → bind = true → listen = true ∧ create = true
  | .pause => True
  | .test _ => True

theorem Agrees.init : Agrees init where
  stop_iff := iff_of_true rfl nofun
  one := Nat.zero_le 1
  accepting := nofun
  port := nofun

variable {c c' : Console} {cmd : Command}

/-! ## One command -/

/-- A start of a stopped server, by what it gets: the port with all the rest, or not the port. -/
theorem startHandler_stop {socket : Int} {bind listen create : Bool} (hstop : c.status = .stop)
    (hp : c.Permits (.start socket bind listen create)) :
    (∃ l : Launch, l.listening = true ∧ l.thread = true ∧
      c.startHandler socket bind listen create = ⟨.run, c.launches ++ [l]⟩) ∨
    ∃ l : Launch, l.listening = false ∧ l.thread = false ∧ l.bound = false ∧
      c.startHandler socket bind listen create = ⟨.stop, c.launches ++ [l]⟩ := by
  have hvalid : (TcpServer.new.start socket bind listen).valid = (socket ≠ -1 && bind && listen) := rfl
  rw [startHandler, if_pos hstop]
  cases hport : (socket ≠ -1 && bind : Bool) with
  | true =>
      have hboth := Bool.and_eq_true_iff.mp hport
      obtain ⟨rfl, rfl⟩ := hp hstop (of_decide_eq_true hboth.1) hboth.2
      rw [hport] at hvalid
      refine .inl ⟨⟨TcpServer.new.start socket bind true, true, true⟩, hvalid, rfl, ?_⟩
      simp only [hvalid]
      rfl
  | false =>
      rw [hport] at hvalid
      refine .inr ⟨⟨TcpServer.new.start socket bind listen, false, false⟩, hvalid, rfl, rfl, ?_⟩
      simp only [hvalid]
      rfl

theorem Agrees.startHandler (h : Agrees c) {socket : Int} {bind listen create : Bool}
    (hp : c.Permits (.start socket bind listen create)) : Agrees (c.startHandler socket bind listen create) := by
  by_cases hstop : c.status = .stop
  · have hidle := h.stop_iff.mp hstop
    have hport := h.port hstop
    have hcount : c.launches.countP Launch.listening = 0 :=
      List.countP_eq_zero.mpr fun l hl => by rw [hidle l hl]; exact Bool.false_ne_true
    rcases startHandler_stop hstop hp with ⟨l, hlisten, hthread, heq⟩ | ⟨l, hlisten, hthread, hbound, heq⟩
    · rw [heq]
      refine ⟨iff_of_false nofun fun hall => ?_, ?_, ?_, nofun⟩
      · have := hall l (List.mem_append_right _ (List.mem_singleton.mpr rfl))
        rw [hlisten] at this
        cases this
      · show (c.launches ++ [l]).countP Launch.listening ≤ 1
        rw [List.countP_append, hcount, List.countP_singleton, if_pos hlisten]
      · exact List.forall_mem_append.mpr
          ⟨h.accepting, List.forall_mem_singleton.mpr (hthread.trans hlisten.symm)⟩
    · rw [heq]
      refine ⟨iff_of_true rfl ?_, ?_, ?_, fun _ => ?_⟩
      · exact List.forall_mem_append.mpr ⟨hidle, List.forall_mem_singleton.mpr hlisten⟩
      · show (c.launches ++ [l]).countP Launch.listening ≤ 1
        rw [List.countP_append, hcount, List.countP_singleton, if_neg (by rw [hlisten]; exact Bool.false_ne_true)]
        exact Nat.zero_le 1
      · exact List.forall_mem_append.mpr
          ⟨h.accepting, List.forall_mem_singleton.mpr (hthread.trans hlisten.symm)⟩
      · exact List.forall_mem_append.mpr ⟨hport, List.forall_mem_singleton.mpr hbound⟩
  · -- a start of a paused server resumes it
    rw [Console.startHandler, if_neg hstop]
    exact ⟨iff_of_false nofun fun hall => hstop (h.stop_iff.mpr hall), h.one, h.accepting, nofun⟩

theorem Agrees.pauseHandler (h : Agrees c) : Agrees c.pauseHandler := by
  unfold Console.pauseHandler
  split
  · rename_i hrun
    have hstop : c.status ≠ .stop := by rw [hrun]; exact nofun
    exact ⟨iff_of_false nofun fun hall => hstop (h.stop_iff.mpr hall), h.one, h.accepting, nofun⟩
  · exact h

theorem Lasting.serverThread (h : Lasting c) (k : Nat) : c.serverThread k = c := by
  unfold Console.serverThread
  split
  · rfl
  · rename_i l hl
    refine if_neg fun hend => ?_
    obtain ⟨hthread, hvalid⟩ := Bool.and_eq_true_iff.mp hend
    rw [show l.server.valid = true from h l (List.mem_of_getElem? hl) hthread] at hvalid
    cases hvalid

/-- A thread that accepts has a valid server, and goes on. -/
theorem Agrees.serverThread (h : Agrees c) (k : Nat) : c.serverThread k = c :=
  Lasting.serverThread (fun l hl hthread => (h.accepting l hl).symm.trans hthread) k

theorem Agrees.step (h : Agrees c) (hp : c.Permits cmd) : ∃ c', c.step cmd = .ok c' ∧ Agrees c' := by
  cases cmd with
  | start socket bind listen create => exact ⟨_, rfl, h.startHandler hp⟩
  | pause => exact ⟨_, rfl, h.pauseHandler⟩
  | test k => exact ⟨c, congrArg Except.ok (h.serverThread k), h⟩

/-- Whatever a start gets, no `Server_Thread` returns. -/
theorem Lasting.step (h : Lasting c) (hstep : c.step cmd = .ok c') : Lasting c' := by
  cases cmd with
  | start socket bind listen create =>
      obtain rfl := Except.ok.inj hstep
      by_cases hstop : c.status = .stop
      · rw [Lasting, startHandler, if_pos hstop]
        refine List.forall_mem_append.mpr ⟨h, List.forall_mem_singleton.mpr fun hthread => ?_⟩
        exact (Bool.and_eq_true_iff.mp hthread).1
      · rw [Lasting, startHandler, if_neg hstop]
        exact h
  | pause =>
      obtain rfl := Except.ok.inj hstep
      rw [Lasting, Console.pauseHandler]
      split
      · exact h
      · exact h
  | test k =>
      obtain rfl := Except.ok.inj hstep
      rwa [h.serverThread k]

/-- A start that gets the port and fails keeps it. -/
theorem permits_of_agrees (hstep : c.step cmd = .ok c') (h : Agrees c') : c.Permits cmd := by
  cases cmd with
  | start socket bind listen create =>
      intro hstop hsocket hbind
      obtain rfl := Except.ok.inj hstep
      rw [startHandler, if_pos hstop] at h
      have hport : (socket ≠ -1 && bind : Bool) = true := by rw [decide_eq_true hsocket, hbind]; rfl
      have hvalid : (TcpServer.new.start socket bind listen).valid = listen := by
        show (socket ≠ -1 && bind && listen : Bool) = listen
        rw [hport, Bool.true_and]
      have hmem : ∀ l, l ∈ c.launches ++ [l] := fun l => List.mem_append_right _ (List.mem_singleton.mpr rfl)
      simp only [hvalid, hport] at h
      cases listen with
      | false => exact nomatch h.port rfl _ (hmem _)
      | true =>
          cases create with
          | false => exact nomatch hvalid.symm.trans (h.stop_iff.mp rfl _ (hmem _))
          | true => exact ⟨rfl, rfl⟩
  | pause => trivial
  | test k => trivial

/-! ## All runs -/

/-- After every command the status agrees with the listening sockets if and only if every start that gets the port of a
stopped server also gets `listen` and its thread. -/
theorem agrees_iff (cmds : List Command) : Always step Agrees init cmds ↔ Along step Permits init cmds :=
  always_iff (fun _ h => h) (fun _ _ h hp => h.step hp) (fun _ _ _ _ hstep h => permits_of_agrees hstep h)
    Agrees.init cmds

/-- Between two commands no `Server_Thread` changes the status. -/
theorem serverThread_idle {cmds : List Command} (h : cmds.foldlM step init = .ok c) (k : Nat) :
    c.serverThread k = c := by
  have hinit : Lasting init := nofun
  exact (run_keeps (fun _ _ _ => Lasting.step) hinit h).serverThread k

/-- `pthread_create` fails: the status is `STOP`, and the socket of the start listens for good. -/
theorem stopped_listening :
    ∃ c, [Command.start 3 true true false].foldlM step init = .ok c ∧ c.status = .stop ∧
      (c.launches.map Launch.listening = [true]) ∧ ¬ Always step Agrees init [.start 3 true true false] := by
  refine ⟨_, rfl, by decide, by decide, fun h => ?_⟩
  obtain ⟨c, hrun, hagrees⟩ := h _ List.prefix_rfl
  cases hrun
  exact Bool.noConfusion (hagrees.stop_iff.mp (by decide) _ List.mem_cons_self)

end Console

end CompileService.Http
