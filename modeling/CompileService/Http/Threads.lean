import CompileService.Http.DoResp
import Mathlib.Logic.Function.Basic

/-!
# The threads of the server

`Server_Thread` and `Process_Thread` in `main.c`, interleaved call by call. A client is an object in the heap; its
address may be used again once `TcpClient_Del` has freed it. A call that gets the address of a freed client has no
meaning unless another client lives there by then: then it is that client which is used.
-/

namespace CompileService.Http

open CompileService.Base

/-- A `TcpClient*`: an address, and the connection that the client was made for when the pointer was returned. -/
structure Ptr where
  addr : Nat
  conn : Nat
deriving DecidableEq, Repr

/-- A `Process_Thread`: its argument and the calls that it makes before the next test of its loop, `none` after it
has returned. -/
structure Thread where
  arg : Ptr
  todo : Option (List Call)
deriving DecidableEq, Repr

/-- Where `Server_Thread` is; `hand` has the result of `TcpServer_Accept`. -/
inductive ServerPc where
  | test
  | accept
  | hand (client : Option Ptr)
  | returned
deriving DecidableEq, Repr

inductive ThreadId where
  | server
  | process (n : Nat)
deriving DecidableEq, Repr

/-- A call with a client: the connection that the pointer was returned for, and the one whose client it found. -/
structure Use where
  thread : ThreadId
  call : Call
  given : Nat
  found : Nat
deriving DecidableEq, Repr

/-- The two kinds of threads, the clients that live in the heap with their connections, the number of connections
so far, and all calls so far. -/
structure World where
  server : ServerPc
  thread : Nat → Option Thread
  heap : Nat → Option Nat
  accepted : Nat
  uses : List Use

/-- What `Server_Thread` meets: `TcpServer_IsValid`, the address that `malloc` has for the next client, whether
`g_status` is `PAUSE`, and whether `pthread_create` succeeds. -/
structure ServerAnswer where
  valid : Bool
  alloc : Option Nat
  paused : Bool
  created : Bool

/-- What a `Process_Thread` meets: whether the connection is established, the result of `TcpClient_Available`,
whether both blocks of `DoResp` are allocated, and how often `RequestHandler` sends. -/
structure ClientAnswer where
  established : Bool
  len : Int
  bufs : Bool
  sends : Nat

inductive Move where
  | server (a : ServerAnswer)
  | process (n : Nat) (a : ClientAnswer)

/-- The next call of a `Process_Thread`; a test of its loop is a call of `TcpClient_IsValid`. -/
def Thread.call (t : Thread) : Option Call := t.todo.map fun todo => todo.headD .isValid

def Thread.next (t : Thread) (a : ClientAnswer) : Thread :=
  { t with todo :=
      match t.todo with
      | none => none
      | some [] => if a.established then some [.available] else none
      | some (.available :: _) => some (respCalls a.len a.bufs a.sends)
      | some (_ :: todo) => some todo }

namespace World

def init : World := ⟨.test, fun _ => none, fun _ => none, 0, []⟩

/-- A thread passes `c` to a function of the client; `TcpClient_Del` frees it. -/
def pass (w : World) (thread : ThreadId) (call : Call) (c : Ptr) : Exec World :=
  match w.heap c.addr with
  | none => .error .dangling
  | some found => .ok { w with
      heap := if call = .del then Function.update w.heap c.addr none else w.heap
      uses := w.uses ++ [⟨thread, call, c.conn, found⟩] }

/-- `TcpClient_From`: `malloc` never has the address of a client that lives. -/
def newClient (w : World) (alloc : Option Nat) : World :=
  match alloc with
  | some addr =>
      if w.heap addr = none then { w with
        server := .hand (some ⟨addr, w.accepted⟩)
        heap := Function.update w.heap addr (some w.accepted)
        accepted := w.accepted + 1 }
      else { w with server := .hand none }
  | none => { w with server := .hand none }

def create (w : World) (c : Ptr) : World :=
  { w with thread := Function.update w.thread c.conn (some ⟨c, some []⟩) }

def serverStep (w : World) (a : ServerAnswer) : Exec World :=
  match w.server with
  | .test => .ok { w with server := if a.valid then .accept else .returned }
  | .accept => .ok (w.newClient a.alloc)
  | .hand (some c) =>
      if !a.paused then .ok { (if a.created then w.create c else w) with server := .test }
      else do
        let w ← w.pass .server .del c
        return { w with server := .test }
  -- `TcpClient_Del(NULL)`
  | .hand none => .ok { w with server := .test }
  | .returned => .ok w

def processStep (w : World) (n : Nat) (a : ClientAnswer) : Exec World :=
  match w.thread n with
  | none => .ok w
  | some t =>
      match t.call with
      | none => .ok w
      | some call => do
          let w ← w.pass (.process n) call t.arg
          return { w with thread := Function.update w.thread n (some (t.next a)) }

def step (w : World) : Move → Exec World
  | .server a => w.serverStep a
  | .process n a => w.processStep n a

/-- A new client has an address that is free and the next connection. -/
theorem newClient_cases (w : World) (alloc : Option Nat) :
    w.newClient alloc = { w with server := .hand none } ∨ ∃ addr, w.heap addr = none ∧ w.newClient alloc = { w with
      server := .hand (some ⟨addr, w.accepted⟩)
      heap := Function.update w.heap addr (some w.accepted)
      accepted := w.accepted + 1 } := by
  cases alloc with
  | none => exact Or.inl rfl
  | some addr =>
      by_cases hfree : w.heap addr = none
      · exact Or.inr ⟨addr, hfree, if_pos hfree⟩
      · exact Or.inl (if_neg hfree)

end World

/-- What a `Process_Thread` does between two tests of its loop is a `DoResp`. -/
theorem Thread.next_doResp {sends : CStr → Nat} {b : Blocks} {peeked : Option (List UInt8)} {resp : Resp}
    (h : doResp sends b peeked = .ok resp) {t : Thread} (ht : t.todo = some [.available]) :
    ∃ a todo, a.len = peeked.elim (-1) (fun bs => (bs.length : Int)) ∧ resp.calls = .available :: todo ∧
      (t.next a).todo = some todo := by
  obtain ⟨bufs, n, hcalls⟩ := doResp_calls h
  refine ⟨⟨true, _, bufs, n⟩, _, rfl, hcalls, ?_⟩
  simp only [Thread.next, ht]
  rfl

end CompileService.Http
