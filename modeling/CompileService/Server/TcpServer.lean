import CompileService.Base.Bytes
import Mathlib.Data.Finset.Insert
import Mathlib.Data.Fintype.Basic
import Mathlib.Logic.Function.Basic

/-!
# The server loop

`tcp_server.c`. `TcpServer_DoWork` waits for ready descriptors and hands them to `SelectHandler`, which accepts
connections, keeps the client table and the set of watched descriptors, and calls the listener. What the kernel,
`malloc` and the listener do in a pass is the input `Pass`.
-/

namespace CompileService.Server

open CompileService.Base

/-- `FD_SIZE`, and the number of descriptors in an `fd_set`. -/
abbrev fdSize : Nat := 1024

abbrev FdSet := Finset (Fin fdSize)

/-- The second argument of the listener; `noEvent` is the -1 that it starts from. -/
inductive Event where
  | noEvent
  | conn
  | data
  | close
deriving DecidableEq, Repr

structure Client where
  addr : Nat
  fd : Int
deriving DecidableEq, Repr

/-- A `TcpServer`; `cb` says whether a listener is installed. -/
structure TcpServer where
  fd : Int
  valid : Bool
  cb : Bool
  client : Fin fdSize → Option Client

/-- A call of the listener about the table entry `index`. -/
structure Callback where
  index : Fin fdSize
  client : Option Client
  event : Event

/-- The state of `TcpServer_DoWork`. `ret` is its `max`, and inside a pass the value that `SelectHandler` is going
to return. -/
structure Work where
  server : TcpServer
  reads : FdSet
  ret : Int
  log : List Callback

/-- One iteration of the loop: the result of `select` and the ready set, the result of `accept`, the address that
`TcpClient_From` gets, and what happens while descriptor `i` is handled: the answers for the client it belongs
to, and whether the listener calls `TcpServer_Stop`. -/
structure Pass where
  num : Int
  ready : FdSet
  accept : Int
  alloc : Option Nat
  isValid : Nat → Bool
  available : Nat → Int
  stop : Nat → Bool

/-- A use of `x` as an index of the client table or as a member of an `fd_set`. -/
def slot (x : Int) : Exec (Fin fdSize) :=
  if h : 0 ≤ x ∧ x < fdSize then .ok ⟨x.toNat, by omega⟩ else .error .bounds

namespace TcpServer

def new : TcpServer := ⟨-1, false, false, fun _ => none⟩

def start (s : TcpServer) (socket : Int) (bind listen : Bool) : TcpServer :=
  if s.valid then s else { s with fd := socket, valid := socket ≠ -1 && bind && listen }

def setListener (s : TcpServer) (listener : Bool) : TcpServer := { s with cb := listener }

def stop (s : TcpServer) : TcpServer := { s with valid := false, client := fun _ => none }

def setClient (s : TcpServer) (k : Fin fdSize) (c : Option Client) : TcpServer :=
  { s with client := Function.update s.client k c }

end TcpServer

def fromFd (alloc : Option Nat) (fd : Int) : Option Client := alloc.map fun addr => ⟨addr, fd⟩

/-- `TcpClient_IsValid`, where `established` is what the kernel says about a client. -/
def isValid (established : Bool) (c : Option Client) : Bool := c.isSome && established

/-- `TcpClient_Available`, where `peeked` is what the kernel says about a client. -/
def available (peeked : Int) (c : Option Client) : Int := if c.isSome then peeked else -1

namespace Work

def callback (w : Work) (stop : Bool) (k : Fin fdSize) (client : Option Client) (event : Event) : Work :=
  { w with
    log := w.log ++ [⟨k, client, event⟩]
    server := if stop then w.server.stop else w.server }

/-- The branch of `SelectHandler` for the listening descriptor. -/
def acceptClient (p : Pass) (max : Int) (w : Work) : Exec (Int × Event × Work) :=
  let index := p.accept
  if -1 < index then do
    let k ← slot index
    return (index, .conn, { w with
      reads := insert k w.reads
      ret := if max < index then index else max
      server := w.server.setClient k (fromFd p.alloc index) })
  else .ok (index, .noEvent, w)

def dispatch (p : Pass) (i : Nat) (index : Int) (event : Event) (w : Work) : Exec Work := do
  let k ← slot index
  let client := w.server.client k
  if isValid (p.isValid i) client ∨ event = .conn ∨ 0 < available (p.available i) client then
    return w.callback (p.stop i) k client event
  else
    let w := if client.isSome then w.callback (p.stop i) k client .close else w
    return { w with server := w.server.setClient k none, reads := w.reads.erase k }

def visit (p : Pass) (max : Int) (w : Work) (i : Nat) : Exec Work := do
  let k ← slot i
  if k ∈ p.ready then
    let (index, event, w) ← if (i : Int) = w.server.fd then w.acceptClient p max else .ok ((i : Int), .data, w)
    if w.server.cb then w.dispatch p i index event else return w
  else return w

def selectHandler (p : Pass) (w : Work) : Exec Work :=
  (List.range (w.ret + 1).toNat).foldlM (visit p w.ret) w

/-- One iteration of the loop of `TcpServer_DoWork`, if there is one. -/
def pass (w : Work) (p : Pass) : Exec Work :=
  if w.server.valid ∧ 0 < p.num then w.selectHandler p else .ok w

end Work

/-- `TcpServer_DoWork` up to its loop. -/
def TcpServer.enter (s : TcpServer) : Exec Work := do
  let k ← slot s.fd
  return ⟨s, {k}, s.fd, []⟩

def TcpServer.doWork (s : TcpServer) (passes : List Pass) : Exec TcpServer :=
  if s.valid then do
    let w ← s.enter
    let w ← passes.foldlM Work.pass w
    return w.server
  else .ok s

/-- The servers that `TcpServer_DoWork` starts with: it returns only after `TcpServer_Stop`. -/
inductive TcpServer.Prepared : TcpServer → Prop where
  | new : Prepared .new
  | start {s} (socket : Int) (bind listen : Bool) : Prepared s → Prepared (s.start socket bind listen)
  | setListener {s} (listener : Bool) : Prepared s → Prepared (s.setListener listener)
  | stop (s : TcpServer) : Prepared s.stop

theorem TcpServer.Prepared.client {s : TcpServer} (h : s.Prepared) (k : Fin fdSize) : s.client k = none := by
  induction h with
  | new => rfl
  | start socket bind listen _ ih =>
      unfold TcpServer.start
      split
      · exact ih
      · exact ih
  | setListener listener _ ih => exact ih
  | stop s => rfl

/-! ## The parts of a visit -/

theorem slot_of_fin (k : Fin fdSize) : slot (k : Nat) = .ok k := by
  have hk := k.isLt
  unfold slot
  rw [dif_pos (by omega)]
  simp

theorem slot_eq_ok {x : Int} {k : Fin fdSize} (h : slot x = .ok k) : x = (k : Nat) := by
  unfold slot at h
  split at h
  · rename_i hx
    cases h
    simp only
    omega
  · cases h

theorem slot_range {x : Int} {k : Fin fdSize} (h : slot x = .ok k) : 0 ≤ x ∧ x < fdSize := by
  have hk := k.isLt
  rw [slot_eq_ok h]
  omega

namespace Work

variable {p : Pass} {max : Int} {w : Work} {k : Fin fdSize}

theorem visit_idle (h : k ∉ p.ready) : visit p max w k = .ok w := by
  simp only [visit, slot_of_fin, Exec.ok_bind, h, if_false]
  rfl

theorem visit_data (h : k ∈ p.ready) (hfd : ((k : Nat) : Int) ≠ w.server.fd) (hcb : w.server.cb = true) :
    visit p max w k = dispatch p k (k : Nat) .data w := by
  simp only [visit, slot_of_fin, Exec.ok_bind, h, if_true, hfd, if_false, hcb]

theorem visit_accept (h : k ∈ p.ready) (hfd : w.server.fd = (k : Nat)) :
    visit p max w k = w.acceptClient p max >>= fun r =>
      if r.2.2.server.cb then dispatch p k r.1 r.2.1 r.2.2 else .ok r.2.2 := by
  simp only [visit, slot_of_fin, Exec.ok_bind, h, if_true, hfd]
  rfl

end Work

end CompileService.Server
