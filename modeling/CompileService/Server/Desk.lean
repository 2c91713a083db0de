import CompileService.Base.Ledger
import CompileService.Server.Indices

/-!
# A server with its ledger

The server of `tcp_server.c` once more, with a ledger of the descriptors that it obtains from `socket` and `accept`
and closes. Without the ledger it is the server of the loop.
-/

namespace CompileService.Server

open CompileService.Base

/-- What `TcpClient_Del` closes. -/
def delFds (c : Option Client) : List (Entry Int) := c.elim [] fun c => closedFd c.fd

/-- What `TcpServer_Stop` closes. -/
def TcpServer.stopFds (s : TcpServer) : List (Entry Int) :=
  closedFd s.fd ++ (List.finRange fdSize).flatMap fun k => delFds (s.client k)

/-- The loop of a server with the ledger of its descriptors. -/
structure Desk where
  work : Work
  fds : List (Entry Int)

/-- What happens to a server; `enter` is `TcpServer_DoWork` up to its loop, and a `pass` is one round of it. -/
inductive ServerOp where
  | start (socket : Int) (bind listen : Bool)
  | setListener (listener : Bool)
  | enter
  | pass (p : Pass)
  | stop

namespace Desk

/-- After `TcpServer_New`. -/
def init : Desk := ⟨⟨.new, ∅, 0, []⟩, []⟩

def callback (d : Desk) (stop : Bool) (k : Fin fdSize) (client : Option Client) (event : Event) : Desk :=
  ⟨d.work.callback stop k client event, d.fds ++ if stop then d.work.server.stopFds else []⟩

def acceptClient (p : Pass) (max : Int) (d : Desk) : Exec (Int × Event × Desk) := do
  let (index, event, w) ← d.work.acceptClient p max
  return (index, event, ⟨w, d.fds ++ openedFd index⟩)

def dispatch (p : Pass) (i : Nat) (index : Int) (event : Event) (d : Desk) : Exec Desk := do
  let k ← slot index
  let client := d.work.server.client k
  if isValid (p.isValid i) client ∨ event = .conn ∨ 0 < available (p.available i) client then
    return d.callback (p.stop i) k client event
  else
    let d := if client.isSome then d.callback (p.stop i) k client .close else d
    let w := { d.work with server := d.work.server.setClient k none, reads := d.work.reads.erase k }
    return ⟨w, d.fds ++ delFds (d.work.server.client k)⟩

def visit (p : Pass) (max : Int) (d : Desk) (i : Nat) : Exec Desk := do
  let k ← slot i
  if k ∈ p.ready then
    let (index, event, d) ← if (i : Int) = d.work.server.fd then d.acceptClient p max else .ok ((i : Int), .data, d)
    if d.work.server.cb then d.dispatch p i index event else return d
  else return d

def selectHandler (p : Pass) (d : Desk) : Exec Desk :=
  (List.range (d.work.ret + 1).toNat).foldlM (visit p d.work.ret) d

def pass (d : Desk) (p : Pass) : Exec Desk :=
  if d.work.server.valid ∧ 0 < p.num then d.selectHandler p else .ok d

def enter (d : Desk) : Exec Desk :=
  if d.work.server.valid then do
    let w ← d.work.server.enter
    return { d with work := w }
  else .ok d

def step (d : Desk) : ServerOp → Exec Desk
  | .start socket bind listen =>
      let server := d.work.server.start socket bind listen
      .ok ⟨{ d.work with server := server }, d.fds ++ if d.work.server.valid then [] else openedFd socket⟩
  | .setListener listener => .ok { d with work := { d.work with server := d.work.server.setListener listener } }
  | .enter => d.enter
  | .pass p => d.pass p
  | .stop => .ok ⟨{ d.work with server := d.work.server.stop }, d.fds ++ d.work.server.stopFds⟩

/-! ## Without the ledger -/

theorem acceptClient_work (p : Pass) (max : Int) (d : Desk) :
    (d.acceptClient p max).map (fun r => (r.1, r.2.1, r.2.2.work)) = d.work.acceptClient p max := by
  unfold acceptClient
  cases d.work.acceptClient p max <;> rfl

theorem dispatch_work (p : Pass) (i : Nat) (index : Int) (event : Event) (d : Desk) :
    (d.dispatch p i index event).map work = d.work.dispatch p i index event := by
  unfold dispatch Work.dispatch
  cases slot index with
  | error e => rfl
  | ok k =>
      simp only [Exec.ok_bind]
      split
      · rfl
      · cases (d.work.server.client k).isSome <;> rfl

theorem visit_work (p : Pass) (max : Int) (d : Desk) (i : Nat) :
    (d.visit p max i).map work = d.work.visit p max i := by
  unfold visit Work.visit
  cases slot i with
  | error e => rfl
  | ok k =>
      simp only [Exec.ok_bind]
      by_cases hready : k ∈ p.ready
      · simp only [if_pos hready]
        by_cases hfd : (i : Int) = d.work.server.fd
        · simp only [if_pos hfd, ← acceptClient_work]
          cases d.acceptClient p max with
          | error e => rfl
          | ok r =>
              show Except.map work (if r.2.2.work.server.cb then r.2.2.dispatch p i r.1 r.2.1 else .ok r.2.2) =
                if r.2.2.work.server.cb then r.2.2.work.dispatch p i r.1 r.2.1 else .ok r.2.2.work
              by_cases hcb : r.2.2.work.server.cb = true
              · simpa only [if_pos hcb] using dispatch_work p i r.1 r.2.1 r.2.2
              · simp only [if_neg hcb]
                rfl
        · simp only [if_neg hfd]
          by_cases hcb : d.work.server.cb = true
          · simpa only [Exec.ok_bind, if_pos hcb] using dispatch_work p i i .data d
          · simp only [if_neg hcb]
            rfl
      · simp only [if_neg hready]
        rfl

/-- Without the ledger a pass is the pass of the server loop. -/
theorem pass_work (d : Desk) (p : Pass) : (d.pass p).map work = d.work.pass p := by
  unfold pass Work.pass
  split
  · exact map_foldlM (fun d i => visit_work p _ d i) d _
  · rfl

end Desk

end CompileService.Server
