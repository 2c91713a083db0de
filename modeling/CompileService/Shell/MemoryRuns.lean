import CompileService.Shell.Footprints

/-!
# Programs that use the utilities

A program keeps the lines and arrays that it gets until it frees them. The heap has the blocks of what it keeps, and
one for every line without words that it has divided; the command loop has one between two commands for every start of
a stopped server.
-/

namespace CompileService.Shell

open CompileService.Base Prog

/-- A call; lines and arrays are numbered in the order in which the program keeps them. -/
inductive Use where
  | formatByChar (malloc : Malloc) (src : Option CStr) (c : UInt8)
  | free (i : Nat)
  | divideByChar (x : Division)
  | malloc2d (pointers elements : Malloc) (size : Nat) (row col : Int)
  | free2d (i : Nat)

/-- The blocks that nobody can free after the call. -/
def Use.lost : Use → Nat
  | divideByChar x => x.lost
  | _ => 0

/-- What a program keeps, and how many blocks were lost. -/
structure Kept where
  lines : List (List UInt8)
  arrays : List Malloc2d
  lost : Nat

namespace Kept

def init : Kept := ⟨[], [], 0⟩

def step (k : Kept) : Use → Exec Kept
  | .formatByChar malloc src c => do
      let ret ← Shell.formatByChar malloc src c
      return { k with lines := k.lines ++ ret.toList }
  | .free i => do
      let _ ← pick k.lines i
      return { k with lines := k.lines.eraseIdx i }
  | .divideByChar x => do
      let _ ← x.run
      return { k with lost := k.lost + x.lost }
  | .malloc2d pointers elements size row col => do
      let ret ← Shell.malloc2d pointers elements size row col
      return { k with arrays := k.arrays ++ ret.toList }
  | .free2d i => do
      let m ← pick k.arrays i
      m.free2d
      return { k with arrays := k.arrays.eraseIdx i }

theorem step_lost {k k' : Kept} {use : Use} (h : k.step use = .ok k') : k'.lost = k.lost + use.lost := by
  cases use with
  | formatByChar malloc src c =>
      obtain ⟨ret, _, h⟩ := Exec.bind_eq_ok.mp h
      cases h
      rfl
  | free i =>
      obtain ⟨line, _, h⟩ := Exec.bind_eq_ok.mp h
      cases h
      rfl
  | divideByChar x =>
      obtain ⟨ret, _, h⟩ := Exec.bind_eq_ok.mp h
      cases h
      rfl
  | malloc2d pointers elements size row col =>
      obtain ⟨ret, _, h⟩ := Exec.bind_eq_ok.mp h
      cases h
      rfl
  | free2d i =>
      obtain ⟨m, _, h⟩ := Exec.bind_eq_ok.mp h
      obtain ⟨_, _, h⟩ := Exec.bind_eq_ok.mp h
      cases h
      rfl

theorem run_lost {k k' : Kept} {uses : List Use} (h : uses.foldlM step k = .ok k') :
    k'.lost = k.lost + (uses.map Use.lost).sum := by
  induction uses generalizing k with
  | nil =>
      cases h
      rfl
  | cons use uses ih =>
      rw [List.foldlM_cons] at h
      obtain ⟨k₁, hstep, hrest⟩ := Exec.bind_eq_ok.mp h
      rw [ih hrest, step_lost hstep, List.map_cons, List.sum_cons, Nat.add_assoc]

end Kept

namespace Memory

open Assertion Carries

/-- The pointers of a program. -/
structure Pointers where
  lines : List Nat
  arrays : List Nat
deriving DecidableEq

namespace Pointers

def init : Pointers := ⟨[], []⟩

variable (A : Allocator Block)

def step (p : Pointers) : Use → Prog Block Pointers
  | .formatByChar malloc src c => do
      let ret ← Memory.formatByChar A malloc src c
      return { p with lines := p.lines ++ returned ret }
  | .free i => do
      let line ← eval (pick p.lines i)
      Prog.free line
      return { p with lines := p.lines.eraseIdx i }
  | .divideByChar x => do
      let _ ← Memory.divideByChar A x.malloc (some x.line) x.c (some x.argv) x.row x.col
      return p
  | .malloc2d pointers elements size row col => do
      let ret ← Memory.malloc2d A pointers elements size row col
      return { p with arrays := p.arrays ++ returned ret }
  | .free2d i => do
      let array ← eval (pick p.arrays i)
      Memory.free2d array
      return { p with arrays := p.arrays.eraseIdx i }

def run (uses : List Use) : Prog Block Pointers := uses.foldlM (step A) init

end Pointers

/-- The blocks of what a program keeps, and those that it has lost. -/
def owns (k : Kept) (p : Pointers) : Assertion Block :=
  each textAt p.lines k.lines * (each arrayAt p.arrays k.arrays * blocks k.lost)

variable {A : Allocator Block}

theorem textAt_ne_zero {a : Nat} {bytes : List UInt8} {h : Heap Block} (hP : textAt a bytes h) : a ≠ 0 := hP.1

theorem arrayAt_ne_zero {a : Nat} {m : Malloc2d} {h : Heap Block} (hP : arrayAt a m h) : a ≠ 0 := by
  obtain ⟨p, hP⟩ := hP
  exact pointsTo_ne_zero hP

theorem step_carries (k : Kept) (p : Pointers) (use : Use) : Carries (owns k p) (p.step A use) (k.step use) owns := by
  unfold owns
  cases use with
  | formatByChar malloc src c =>
      apply fresh (formatByChar_carries malloc src c)
      intro r a _
      rw [← mul_assoc]
      apply ret
      intro h hP
      exact mul_mono (fun h hP => each_returned (fun _ _ _ => textAt_ne_zero) hP) (fun _ => id) hP
  | free i =>
      apply Carries.pick
      intro a line hlen ha hx
      apply Carries.free
      exact ret fun h => id
  | divideByChar x =>
      apply fresh (divideByChar_carries x)
      intro r a _
      rw [mul_assoc]
      apply of_fact
      rintro rfl
      rw [mul_comm, mul_assoc, mul_assoc]
      apply ret
      intro h hP
      refine mul_mono (fun _ => id) (fun h hP => mul_mono (fun _ => id) (fun h hP => ?_) hP) hP
      exact (HasSize.blocks _).mul (HasSize.blocks _) h hP
  | malloc2d pointers elements size row col =>
      apply fresh (malloc2d_carries pointers elements size row col)
      intro r a _
      rw [mul_left_comm, ← mul_assoc (orNull _ _ _)]
      apply ret
      intro h hP
      refine mul_mono (fun _ => id) (fun h hP => ?_) hP
      exact mul_mono (fun h hP => each_returned (fun _ _ _ => arrayAt_ne_zero) hP) (fun _ => id) hP
  | free2d i =>
      rw [mul_left_comm]
      apply Carries.pick
      intro a m hlen ha hx
      apply part (free2d_carries a m)
      intro _ _ _
      rw [one_mul, mul_left_comm]
      exact ret fun h => id

theorem arrayAt_size (a : Nat) (m : Malloc2d) : HasSize (arrayAt a m) 2 :=
  HasSize.ex fun p => (HasSize.pointsTo a _).mul (HasSize.pointsTo p _)

theorem owns_size (k : Kept) (p : Pointers) : HasSize (owns k p) (k.lines.length + (2 * k.arrays.length + k.lost)) := by
  have hlines := HasSize.each (fun a bytes => HasSize.pointsTo a (Block.bytes bytes)) p.lines k.lines
  have harrays := HasSize.each arrayAt_size p.arrays k.arrays
  rw [List.map_const', List.sum_replicate_nat, mul_one] at hlines
  rw [List.map_const', List.sum_replicate_nat, Nat.mul_comm] at harrays
  exact hlines.mul (harrays.mul (HasSize.blocks k.lost))

/-- A program that uses the utilities. The heap has one block for each line and two for each array that the program
keeps, and one for each call of `DivideByChar` on a line that has only separators; it has no others. -/
theorem utilities_lose (uses : List Use) {p : Pointers} {h : Heap Block}
    (hrun : Pointers.run A uses ∅ = .ok (p, h)) :
    h.keys.card = p.lines.length + 2 * p.arrays.length + (uses.map Use.lost).sum := by
  have hinit : (owns .init .init : Assertion Block) = 1 := by
    show (1 * (1 * blocks 0) : Assertion Block) = 1
    rw [blocks_zero, mul_one, mul_one]
  have hall := Carries.foldlM (step_carries (A := A)) Kept.init Pointers.init uses
  rw [hinit] at hall
  obtain ⟨herror, hok⟩ := hall.alone rfl
  cases hvalues : uses.foldlM Kept.step Kept.init with
  | error e => cases hrun.symm.trans (herror e hvalues)
  | ok k =>
      obtain ⟨p', h', hrun', hP⟩ := hok k hvalues
      cases hrun.symm.trans hrun'
      have hcard := owns_size k p h hP
      have hlines : p.lines.length = k.lines.length := each_length hP
      have harrays : p.arrays.length = k.arrays.length := by
        rw [owns, mul_left_comm] at hP
        exact each_length hP
      have hlost : k.lost = 0 + (uses.map Use.lost).sum := Kept.run_lost hvalues
      omega

theorem utilities_lose_spaces :
    let x : Division := ⟨.cleared, Malloc.cleared_succeeds.bounded, ascii "  ", by decide, 0x20, [], 0, 0⟩
    let uses : List Use := [.malloc2d .cleared .cleared 1 2 3, .divideByChar x,
      .formatByChar .cleared (some (ascii "a")) 0x20, .free2d 0]
    let h : Heap Block := (Finmap.singleton 3 (.bytes [0, 0, 0])).insert 4 (.bytes [0x61, 0])
    h.keys.card = 1 + 2 * 0 + (uses.map Use.lost).sum := by
  intro x uses h
  exact utilities_lose (A := Allocator.next Block) uses (p := ⟨[4], []⟩) (by decide)

theorem serverAt_size (a : Nat) (l : Http.Launch) : HasSize (serverAt a l) 1 := HasSize.pointsTo a _

theorem consoleAt_size (c : Http.Console) (a : Console) : HasSize (consoleAt c a) c.launches.length := by
  intro h hP
  have hsize := HasSize.each serverAt_size a.servers c.launches h (fact_mul_apply.mp hP).2
  rwa [List.map_const', List.sum_replicate_nat, mul_one] at hsize

/-- The command loop with its handlers, next to any other blocks. It has the faults that it has on values, and as long
as the process runs it has left one block for each start of a stopped server, with the server as the start left it, and
no others; no `Server_Thread` has changed the status meanwhile. -/
theorem console_leaves (stdin : CStr) (turns : List Turn) (h : Heap Block) :
    (∀ e, Shell.Session.run stdin turns = .error e → run A stdin turns h = .error e) ∧
    ∀ s, Shell.Session.run stdin turns = .ok s → s.loop.ended = false →
      (∃ servers left, run A stdin turns h = .ok (⟨s.loop, s.console.status, servers⟩, left ∪ h) ∧ left.Disjoint h ∧
        each serverAt servers s.console.launches left ∧ left.keys.card = (Shell.Session.init stdin).starts turns) ∧
      ∀ k, s.console.serverThread k = s.console := by
  have hinit : (sessionAt (.init stdin) ⟨⟨stdin, [], false⟩, ⟨.stop, []⟩⟩ : Assertion Block) ∅ :=
    fact_mul_apply.mpr ⟨rfl, fact_mul_apply.mpr ⟨rfl, rfl⟩⟩
  have hall := Carries.foldlM (iteration_carries (A := A)) (.init stdin) ⟨⟨stdin, [], false⟩, ⟨.stop, []⟩⟩ turns
  have hrun := hall.answers ∅ h (Finmap.disjoint_empty h) hinit
  rw [Finmap.empty_union] at hrun
  constructor
  · intro e he
    rw [Shell.Session.run] at he
    rwa [he] at hrun
  · intro s hs hon
    refine ⟨?_, (Shell.Session.run_refines hs hon).2.2⟩
    have hcount := Shell.Session.launches_of_run hs hon
    rw [Shell.Session.run] at hs
    rw [hs] at hrun
    obtain ⟨⟨loop, status, servers⟩, left, hserve, hdisjoint, hP⟩ := hrun
    obtain ⟨hloop, hP⟩ := fact_mul_apply.mp hP
    obtain rfl : loop = s.loop := hloop
    rw [hon] at hP
    have hcard := consoleAt_size _ _ left hP
    obtain ⟨hstatus, hservers⟩ := fact_mul_apply.mp hP
    obtain rfl : status = s.console.status := hstatus
    exact ⟨servers, left, hserve, hdisjoint, hservers, hcard.trans hcount⟩

/-- A start without the port, a start with it, and a start of the running server. -/
theorem console_leaves_twice :
    let refused : Turn := ⟨.cleared, true, 3, false, false, false⟩
    let granted : Turn := ⟨.cleared, true, 4, true, true, true⟩
    let stdin := ascii "start\nstart\n start\n"
    ∃ s servers left, run (Allocator.next Block) stdin [refused, granted, granted] ∅ = .ok (⟨s, .run, servers⟩, left) ∧
      left.keys.card = 2 := by
  intro refused granted stdin
  have hvalues : (Shell.Session.run stdin [refused, granted, granted]).map
      (fun s => (s.loop.ended, s.console.status)) = .ok (false, .run) ∧
      (Shell.Session.init stdin).starts [refused, granted, granted] = 2 := by decide +kernel
  obtain ⟨hend, hstarts⟩ := hvalues
  cases hs : Shell.Session.run stdin [refused, granted, granted] with
  | error e =>
      rw [hs] at hend
      cases hend
  | ok s =>
      rw [hs] at hend
      obtain ⟨hon, hstatus⟩ := Prod.mk.inj (Except.ok.inj hend)
      obtain ⟨⟨servers, left, hrun, _, _, hcard⟩, _⟩ :=
        (console_leaves (A := Allocator.next Block) stdin [refused, granted, granted] ∅).2 s hs hon
      rw [Finmap.union_empty, hstatus] at hrun
      exact ⟨s.loop, servers, left, hrun, hcard.trans hstarts⟩
end Memory

end CompileService.Shell
