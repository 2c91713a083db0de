import CompileService.Http.Commands
import CompileService.Shell.Run

/-!
# The command loop with its handlers

`Run` of `main.c` together with what its commands do. A start of a stopped server makes a server; without memory for it
`TcpServer_Start` reads at a null pointer, and the process ends.
-/

namespace CompileService.Shell

open CompileService.Base CompileService.Http

/-- What one iteration meets: the `malloc` of `FormatByChar`, whether `TcpServer_New` gets its block, and the results of
`socket`, `bind`, `listen` and `pthread_create`. -/
structure Turn where
  malloc : Malloc
  server : Bool
  socket : Int
  bind : Bool
  listen : Bool
  create : Bool

structure Session where
  loop : Loop
  console : Console

namespace Session

def init (stdin : CStr) : Session := ⟨⟨stdin, [], false⟩, .init⟩

/-- The handler that `Run` finds for a command; there is no console after it if the process has ended. -/
def handle (c : Console) (t : Turn) : Option Handler → Option Console
  | none => some c
  | some .start =>
      if c.status = .stop ∧ t.server = false then none
      else some (c.startHandler t.socket t.bind t.listen t.create)
  | some .pause => some c.pauseHandler
  | some .exit => none

/-- The command in `line`. -/
def command (c : Console) (t : Turn) (line : List UInt8) : Exec (Option Console) := do
  match ← formatByChar t.malloc (some (← cstr line)) 0x20 with
  | none => return none -- `strcmp` reads at a null pointer
  | some cmd => return handle c t (gHandler.lookup (← cstr cmd))

def iteration (s : Session) (t : Turn) : Exec Session :=
  if s.loop.ended then .ok s
  else do
    let read ← fgets (List.replicate bufSize 0) (bufSize - 1) s.loop.stdin
    let last := toSize ((← cstr read.1).length - 1)
    let line := read.1.set last 0
    let console ← (if (← byteAt line 0) ≠ 0 then command s.console t line else .ok (some s.console))
    return ⟨⟨read.2, s.loop.used ++ [last, 0], console.isNone⟩, console.getD s.console⟩

/-- The line that is read says `start`, and the server is stopped. -/
def Starts (s : Session) : Prop := gHandler.lookup (said s.loop.stdin) = some .start ∧ s.console.status = .stop

instance (s : Session) : Decidable s.Starts := inferInstanceAs (Decidable (_ ∧ _))

/-- How many of the iterations start a stopped server. -/
def starts (s : Session) : List Turn → Nat
  | [] => 0
  | t :: turns =>
      match s.iteration t with
      | .error _ => 0
      | .ok s' => (if s.Starts then 1 else 0) + s'.starts turns

/-- `Run` up to some iteration. -/
def run (stdin : CStr) (turns : List Turn) : Exec Session := turns.foldlM iteration (init stdin)

section
variable {s s' : Session} {c c' : Console} {t : Turn} {line : List UInt8} {word : CStr}

/-! ## One iteration -/

theorem handle_launches {handler : Option Handler} (h : handle c t handler = some c') :
    c'.launches.length = c.launches.length + if handler = some .start ∧ c.status = .stop then 1 else 0 := by
  cases handler with
  | none =>
      cases h
      rfl
  | some handler =>
      cases handler with
      | start =>
          rw [handle] at h
          split at h
          · cases h
          · obtain rfl := Option.some.inj h
            rw [Console.startHandler]
            by_cases hstop : c.status = .stop
            · rw [if_pos hstop, if_pos ⟨rfl, hstop⟩, List.length_append, List.length_singleton]
            · rw [if_neg hstop, if_neg fun h => hstop h.2]
              rfl
      | pause =>
          obtain rfl := Option.some.inj h
          rw [Console.pauseHandler]
          split
          · rfl
          · rfl
      | exit => cases h

theorem handle_steps {handler : Option Handler} (h : handle c t handler = some c') :
    ∃ cmds : List Command, cmds.foldlM Console.step c = .ok c' := by
  cases handler with
  | none =>
      cases h
      exact ⟨[], rfl⟩
  | some handler =>
      cases handler with
      | start =>
          rw [handle] at h
          split at h
          · cases h
          · obtain rfl := Option.some.inj h
            exact ⟨[.start t.socket t.bind t.listen t.create], rfl⟩
      | pause =>
          obtain rfl := Option.some.inj h
          exact ⟨[.pause], rfl⟩
      | exit => cases h

/-- A command after which the process goes on: its words name the handler. -/
theorem command_goes_on (hword : cstr line = .ok word) (hne : word ≠ []) (hshort : word.length < bufSize)
    (h : command c t line = .ok (some c')) :
    Shell.command t.malloc line = .ok false ∧ handle c t (gHandler.lookup (joined 0x20 word)) = some c' := by
  rw [command, hword, Exec.ok_bind] at h
  rw [Shell.command, hword, Exec.ok_bind]
  rcases formatByChar_words t.malloc (cstr_ok hword).1 hne hshort with ⟨_, hnone⟩ | ⟨ret, hrun, htext⟩
  · rw [hnone] at h
    cases h
  · rw [hrun, Exec.ok_bind] at h ⊢
    dsimp only at h ⊢
    rw [htext, Exec.ok_bind] at h ⊢
    have hhandle := Except.ok.inj h
    refine ⟨congrArg Except.ok (decide_eq_false fun hexit => ?_), hhandle⟩
    rw [hexit] at hhandle
    cases hhandle

/-- An iteration after which the process goes on. -/
theorem iteration_goes_on (h : s.iteration t = .ok s') (hon : s'.loop.ended = false) :
    s.loop.ended = false ∧ Shell.iteration s.loop t.malloc = .ok s'.loop ∧
      handle s.console t (gHandler.lookup (said s.loop.stdin)) = some s'.console := by
  obtain ⟨⟨stdin, used, ended⟩, c⟩ := s
  cases ended with
  | true =>
      cases h
      cases hon
  | false =>
      obtain ⟨line, last, b, hread, htext, hlast, hcut, hbyte, hb⟩ := read_command stdin
      rw [iteration, if_neg Bool.false_ne_true, hread, Exec.ok_bind] at h
      dsimp only at h
      rw [htext, Exec.ok_bind, hlast, hbyte, Exec.ok_bind] at h
      obtain ⟨after, hafter, h⟩ := Exec.bind_eq_ok.mp h
      obtain rfl := Except.ok.inj h
      cases after with
      | none => cases hon
      | some c' =>
          have hcommand : (if b ≠ 0 then Shell.command t.malloc (line.set last 0) else .ok false) = .ok false ∧
              handle c t (gHandler.lookup (said stdin)) = some c' := by
            by_cases hzero : b = 0
            · rw [if_neg (not_not.mpr hzero)] at hafter ⊢
              refine ⟨rfl, ?_⟩
              rw [said, hb.mp hzero]
              exact Except.ok.inj hafter
            · rw [if_pos hzero] at hafter ⊢
              have hshort : (untilNul (got stdin)).dropLast.length < bufSize :=
                Nat.lt_of_le_of_lt (List.dropLast_sublist _).length_le (got_short stdin)
              exact command_goes_on hcut (mt hb.mpr hzero) hshort hafter
          exact ⟨rfl, iteration_eq hread htext hlast hbyte hcommand.1, hcommand.2⟩

/-! ## All iterations -/

/-- A session that goes on has read its input as the loop does, and its console is one that commands lead to. It has a
server for each start of a stopped server. -/
theorem run_goes_on {turns : List Turn} (h : turns.foldlM iteration s = .ok s') (hon : s'.loop.ended = false) :
    s.loop.ended = false ∧ (turns.map Turn.malloc).foldlM Shell.iteration s.loop = .ok s'.loop ∧
      (∃ cmds : List Command, cmds.foldlM Console.step s.console = .ok s'.console) ∧
      s'.console.launches.length = s.console.launches.length + s.starts turns := by
  induction turns generalizing s with
  | nil =>
      cases h
      exact ⟨hon, rfl, ⟨[], rfl⟩, rfl⟩
  | cons t turns ih =>
      rw [List.foldlM_cons] at h
      obtain ⟨s₁, hstep, hrest⟩ := Exec.bind_eq_ok.mp h
      obtain ⟨hon₁, hloop, ⟨cmds₁, hcmds₁⟩, hcount⟩ := ih hrest
      obtain ⟨hon₀, hloop₀, hhandle⟩ := iteration_goes_on hstep hon₁
      obtain ⟨cmds₀, hcmds₀⟩ := handle_steps hhandle
      refine ⟨hon₀, ?_, ⟨cmds₀ ++ cmds₁, ?_⟩, ?_⟩
      · rw [List.map_cons, List.foldlM_cons, hloop₀, Exec.ok_bind, hloop]
      · rw [List.foldlM_append, hcmds₀]
        exact hcmds₁
      · rw [hcount, handle_launches hhandle, starts, hstep, Nat.add_assoc]
        rfl

/-- What goes on is a run of the loop and a console of the server; no `Server_Thread` returns meanwhile. -/
theorem run_refines {stdin : CStr} {turns : List Turn} (h : run stdin turns = .ok s) (hon : s.loop.ended = false) :
    Shell.run stdin (turns.map Turn.malloc) = .ok s.loop ∧
      (∃ cmds : List Command, cmds.foldlM Console.step .init = .ok s.console) ∧
      ∀ k, s.console.serverThread k = s.console := by
  obtain ⟨_, hloop, ⟨cmds, hcmds⟩, _⟩ := run_goes_on h hon
  exact ⟨hloop, ⟨cmds, hcmds⟩, Console.serverThread_idle hcmds⟩

theorem launches_of_run {stdin : CStr} {turns : List Turn} (h : run stdin turns = .ok s) (hon : s.loop.ended = false) :
    s.console.launches.length = (init stdin).starts turns := by
  obtain ⟨_, _, _, hcount⟩ := run_goes_on h hon
  rw [hcount]
  exact Nat.zero_add _

end

end Session

end CompileService.Shell
