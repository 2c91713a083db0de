import CompileService.Base.Holders
import CompileService.Base.Separation
import CompileService.Wire.Connections
import CompileService.Wire.UdpPoint

/-!
# The descriptors of a process

Clients and points of one process get their descriptors from one kernel, which gives a number out again after it was
closed. Each open descriptor belongs to one object, and no call closes that of another, if and only if a client is
closed before it connects again and no `UdpPoint_New` closes what lay in its block before.
-/

namespace CompileService.Wire

open CompileService.Base Prog

/-- `TcpServer_Accept`, with the result of `accept` and the allocations of `TcpClient_From`. -/
def TcpServer.accept (fd : Int) (malloc calloc : Bool) : Option Client × List (Entry Int) :=
  if fd > -1 then
    match TcpClient.fromFd malloc calloc fd with
    | some c => (some c, openedFd fd)
    | none => (none, openedFd fd ++ closedFd fd)
  else (none, [])

/-- The descriptors of `UdpPoint_New`; `malloc` has what the block holds in place of `fd`, which is not set unless
there is a parser. -/
def UdpPoint.newFds (malloc : Option Int) (calloc : Bool) (socket : Int) (bind : Bool) : List (Entry Int) :=
  match malloc with
  | none => []
  | some fd =>
      if calloc then openedFd socket ++ if socket ≠ -1 ∧ bind then [] else closedFd socket
      else closedFd fd

/-- A call that opens or closes descriptors, with the results of the system in it. -/
inductive SocketCall where
  | clientNew (malloc calloc : Bool)
  | accept (fd : Int) (malloc calloc : Bool)
  | connect (i : Nat) (established ip : Bool) (socket connect : Int)
  | clientClose (i : Nat)
  | clientDel (i : Nat)
  | pointNew (malloc : Option Int) (calloc : Bool) (socket : Int) (bind : Bool)
  | pointDel (i : Nat)

/-- The objects of a process, and the descriptors that it opened and closed. -/
structure Process where
  clients : List Client
  points : List UdpPoint
  log : List (Entry Int)

namespace Process

def init : Process := ⟨[], [], []⟩

def step (p : Process) : SocketCall → Exec Process
  | .clientNew malloc calloc => .ok { p with clients := p.clients ++ (TcpClient.new malloc calloc).toList }
  | .accept fd malloc calloc =>
      let (ret, fds) := TcpServer.accept fd malloc calloc
      .ok { p with clients := p.clients ++ ret.toList, log := p.log ++ fds }
  | .connect i established ip socket connect => do
      let c ← pick p.clients i
      let valid := TcpClient.isValid established c
      let (_, c) := TcpClient.connect valid ip socket connect c
      return { p with
        clients := p.clients.set i c
        log := p.log ++ if valid || !ip then [] else openedFd socket }
  | .clientClose i => do
      let c ← pick p.clients i
      return { p with clients := p.clients.set i (TcpClient.close c), log := p.log ++ closedFd c.fd }
  | .clientDel i => do
      let c ← pick p.clients i
      return { p with clients := p.clients.eraseIdx i, log := p.log ++ closedFd c.fd }
  | .pointNew malloc calloc socket bind =>
      .ok { p with
        points := p.points ++ (UdpPoint.new malloc.isSome calloc socket bind).toList
        log := p.log ++ UdpPoint.newFds malloc calloc socket bind }
  | .pointDel i => do
      let c ← pick p.points i
      return { p with points := p.points.eraseIdx i, log := p.log ++ closedFd c.fd }

/-- What the objects hold. -/
def held (p : Process) : List Int := p.clients.map Client.fd ++ p.points.map UdpPoint.fd

/-- Each open descriptor belongs to one object, and each was closed at most once. -/
def Tidy (p : Process) : Prop := Owned p.held p.log

/-- The kernel gives out no descriptor that is open. -/
def Kernel (p : Process) : SocketCall → Prop
  | .accept fd _ _ => ¬ Live p.log fd
  | .connect i established ip socket _ => ∀ c, p.clients[i]? = some c → TcpClient.isValid established c = false →
      ip = true → ¬ Live p.log socket
  | .pointNew malloc calloc socket _ => malloc ≠ none → calloc = true → ¬ Live p.log socket
  | _ => True

/-- The call uses an object that is there. A client that connects has no descriptor unless it is connected, and a block
in which `UdpPoint_New` puts no descriptor has -1 in its place. -/
def Permits (p : Process) : SocketCall → Prop
  | .connect i established ip _ _ => ∃ c, p.clients[i]? = some c ∧
      (TcpClient.isValid established c = false → ip = true → c.fd = -1)
  | .clientClose i => i < p.clients.length
  | .clientDel i => i < p.clients.length
  | .pointNew malloc calloc _ _ => malloc = none ∨ calloc = true ∨ malloc = some (-1)
  | .pointDel i => i < p.points.length
  | _ => True

/-! ## What is held -/

section
variable {p p' : Process} {i : Nat} {c c' : Client} {q : UdpPoint}

theorem pick_iff {α : Type} {xs : List α} {i : Nat} {x : α} : pick xs i = .ok x ↔ xs[i]? = some x := by
  unfold pick
  cases xs[i]? with
  | none => exact iff_of_false nofun nofun
  | some y => exact ⟨fun h => congrArg some (Except.ok.inj h), fun h => congrArg Except.ok (Option.some.inj h)⟩

theorem exists_pick {α : Type} {xs : List α} {i : Nat} : i < xs.length ↔ ∃ x, xs[i]? = some x :=
  ⟨fun hi => ⟨xs[i], List.getElem?_eq_getElem hi⟩, fun ⟨_, hx⟩ => (List.getElem?_eq_some_iff.mp hx).1⟩

theorem map_perm {α : Type} (f : α → Int) {xs : List α} {i : Nat} {x : α} (hx : xs[i]? = some x) (y : α) :
    (xs.map f).Perm (f x :: (xs.eraseIdx i).map f) ∧ ((xs.set i y).map f).Perm (f y :: (xs.eraseIdx i).map f) := by
  obtain ⟨hi, rfl⟩ := List.getElem?_eq_some_iff.mp hx
  exact ⟨((List.getElem_cons_eraseIdx_perm hi).map f).symm, (List.set_perm_cons_eraseIdx hi y).map f⟩

/-- A client and the other objects. -/
theorem held_client (hc : p.clients[i]? = some c) (c' : Client) (log : List (Entry Int)) :
    p.held.Perm (c.fd :: (⟨p.clients.eraseIdx i, p.points, log⟩ : Process).held) ∧
      (⟨p.clients.set i c', p.points, log⟩ : Process).held.Perm
        (c'.fd :: (⟨p.clients.eraseIdx i, p.points, log⟩ : Process).held) :=
  ⟨(map_perm Client.fd hc c').1.append_right _, (map_perm Client.fd hc c').2.append_right _⟩

theorem held_point (hq : p.points[i]? = some q) (log : List (Entry Int)) :
    p.held.Perm (q.fd :: (⟨p.clients, p.points.eraseIdx i, log⟩ : Process).held) :=
  ((map_perm UdpPoint.fd hq q).1.append_left _).trans List.perm_middle

theorem held_new_client (p : Process) (c : Client) (log : List (Entry Int)) :
    (⟨p.clients ++ [c], p.points, log⟩ : Process).held.Perm (c.fd :: p.held) := by
  rw [held, List.map_append, List.append_assoc]
  exact List.perm_middle

theorem held_new_point (p : Process) (q : UdpPoint) (log : List (Entry Int)) :
    (⟨p.clients, p.points ++ [q], log⟩ : Process).held.Perm (q.fd :: p.held) := by
  rw [held, List.map_append, ← List.append_assoc]
  exact List.perm_append_singleton q.fd _

/-! ## One call -/

theorem fromFd_cases (malloc calloc : Bool) (fd : Int) :
    TcpClient.fromFd malloc calloc fd = none ∨ ∃ parser, TcpClient.fromFd malloc calloc fd = some ⟨fd, parser⟩ := by
  unfold TcpClient.fromFd
  cases malloc with
  | false => exact Or.inl rfl
  | true =>
      cases MsgParser.new calloc with
      | none => exact Or.inl rfl
      | some parser => exact Or.inr ⟨parser, rfl⟩

theorem Tidy.clientNew (h : p.Tidy) (malloc calloc : Bool) :
    ∃ p', p.step (.clientNew malloc calloc) = .ok p' ∧ p'.Tidy := by
  refine ⟨⟨p.clients ++ (TcpClient.new malloc calloc).toList, p.points, p.log⟩, rfl, ?_⟩
  unfold TcpClient.new
  rcases fromFd_cases malloc calloc (-1) with hnone | ⟨parser, hsome⟩
  · rw [hnone, Option.toList_none, List.append_nil]
    exact h
  · rw [hsome, Option.toList_some]
    exact Owned.perm h.idle (held_new_client p ⟨-1, parser⟩ p.log).symm

theorem Tidy.accept (h : p.Tidy) (fd : Int) (malloc calloc : Bool) (hk : ¬ Live p.log fd) :
    ∃ p', p.step (.accept fd malloc calloc) = .ok p' ∧ p'.Tidy := by
  refine ⟨⟨p.clients ++ (TcpServer.accept fd malloc calloc).1.toList, p.points,
    p.log ++ (TcpServer.accept fd malloc calloc).2⟩, rfl, ?_⟩
  unfold TcpServer.accept
  by_cases hfd : fd > -1
  · have hopened := Owned.opened h hk
    rcases fromFd_cases malloc calloc fd with hnone | ⟨parser, hsome⟩
    · rw [if_pos hfd, hnone]
      have hclosed := hopened.closed
      rw [List.append_assoc] at hclosed
      simpa only [Tidy, held, Option.toList_none, List.append_nil] using hclosed
    · rw [if_pos hfd, hsome]
      exact hopened.perm (held_new_client p ⟨fd, parser⟩ _).symm
  · rw [if_neg hfd]
    simpa only [Option.toList_none, List.append_nil] using h

/-- A `TcpClient_Connect` leaves all as it is, or puts the result of `socket` into `fd`. -/
theorem connect_cases (p : Process) (hc : p.clients[i]? = some c) (established ip : Bool) (socket connect : Int) :
    (¬ (TcpClient.isValid established c = false ∧ ip = true) ∧
      p.step (.connect i established ip socket connect) = .ok p) ∨
    ((TcpClient.isValid established c = false ∧ ip = true) ∧
      p.step (.connect i established ip socket connect) =
        .ok ⟨p.clients.set i ⟨socket, c.parser⟩, p.points, p.log ++ openedFd socket⟩) := by
  cases hopen : TcpClient.isValid established c || !ip with
  | true =>
      refine Or.inl ⟨?_, ?_⟩
      · rintro ⟨hvalid, rfl⟩
        rw [hvalid] at hopen
        cases hopen
      · obtain ⟨hi, rfl⟩ := List.getElem?_eq_some_iff.mp hc
        rw [step, pick_iff.mpr hc, Exec.ok_bind]
        simp only [hopen, Link.connect_skip _ _ _ hopen, if_true, List.append_nil, List.set_getElem_self]
        rfl
  | false =>
      obtain ⟨hvalid, hip⟩ := Bool.or_eq_false_iff.mp hopen
      obtain ⟨ok, hconnect⟩ := Link.connect_try c socket connect hopen
      refine Or.inr ⟨⟨hvalid, by simpa using hip⟩, ?_⟩
      rw [step, pick_iff.mpr hc, Exec.ok_bind]
      simp only [hopen, hconnect, Bool.false_eq_true, if_false]
      rfl

theorem Tidy.connect (h : p.Tidy) (established ip : Bool) (socket connect : Int) (hc : p.clients[i]? = some c)
    (hk : TcpClient.isValid established c = false → ip = true → ¬ Live p.log socket)
    (hidle : TcpClient.isValid established c = false → ip = true → c.fd = -1) :
    ∃ p', p.step (.connect i established ip socket connect) = .ok p' ∧ p'.Tidy := by
  rcases p.connect_cases hc established ip socket connect with ⟨_, hstep⟩ | ⟨⟨hvalid, hip⟩, hstep⟩
  · exact ⟨p, hstep, h⟩
  · obtain ⟨hheld, hset⟩ := held_client hc ⟨socket, c.parser⟩ (p.log ++ openedFd socket)
    have hrest := h.perm hheld
    rw [hidle hvalid hip] at hrest
    exact ⟨_, hstep, (hrest.active.opened (hk hvalid hip)).perm hset.symm⟩

/-- `UdpPoint_New` without a parser closes what lay in its block; with one it keeps its socket or closes that. -/
theorem newPoint_cases (malloc : Option Int) (calloc : Bool) (socket : Int) (bind : Bool) :
    (∃ fd, malloc = some fd ∧ calloc = false ∧ UdpPoint.new malloc.isSome calloc socket bind = none ∧
      UdpPoint.newFds malloc calloc socket bind = closedFd fd) ∨
    ((malloc = none ∨ calloc = true) ∧
      ((UdpPoint.new malloc.isSome calloc socket bind = none ∧ UdpPoint.newFds malloc calloc socket bind = []) ∨
        malloc ≠ none ∧ calloc = true ∧
          ((UdpPoint.new malloc.isSome calloc socket bind = some ⟨socket, MsgParser.fresh⟩ ∧
              UdpPoint.newFds malloc calloc socket bind = openedFd socket) ∨
            UdpPoint.new malloc.isSome calloc socket bind = none ∧
              UdpPoint.newFds malloc calloc socket bind = openedFd socket ++ closedFd socket))) := by
  cases malloc with
  | none => exact Or.inr ⟨Or.inl rfl, Or.inl ⟨rfl, rfl⟩⟩
  | some fd =>
      cases calloc with
      | false => exact Or.inl ⟨fd, rfl, rfl, rfl, rfl⟩
      | true =>
          refine Or.inr ⟨Or.inr rfl, Or.inr ⟨Option.some_ne_none fd, rfl, ?_⟩⟩
          by_cases hbound : socket ≠ -1 ∧ bind = true
          · refine Or.inl ⟨if_pos hbound, ?_⟩
            simp only [UdpPoint.newFds, if_true, if_pos hbound, List.append_nil]
          · refine Or.inr ⟨if_neg hbound, ?_⟩
            simp only [UdpPoint.newFds, if_true, if_neg hbound]

theorem Tidy.pointNew (h : p.Tidy) (malloc : Option Int) (calloc : Bool) (socket : Int) (bind : Bool)
    (hk : malloc ≠ none → calloc = true → ¬ Live p.log socket)
    (hp : malloc = none ∨ calloc = true ∨ malloc = some (-1)) :
    ∃ p', p.step (.pointNew malloc calloc socket bind) = .ok p' ∧ p'.Tidy := by
  refine ⟨⟨p.clients, p.points ++ (UdpPoint.new malloc.isSome calloc socket bind).toList,
    p.log ++ UdpPoint.newFds malloc calloc socket bind⟩, rfl, ?_⟩
  rcases newPoint_cases malloc calloc socket bind with
    ⟨fd, rfl, rfl, hnew, hfds⟩ | ⟨_, ⟨hnew, hfds⟩ | ⟨hmalloc, hcalloc, ⟨hnew, hfds⟩ | ⟨hnew, hfds⟩⟩⟩
  · obtain rfl : fd = -1 := by simpa using hp
    rw [hnew, hfds]
    simpa only [Option.toList_none, List.append_nil, closedFd, if_true] using h
  · rw [hnew, hfds]
    simpa only [Option.toList_none, List.append_nil] using h
  · rw [hnew, hfds]
    exact (Owned.opened h (hk hmalloc hcalloc)).perm (held_new_point p ⟨socket, MsgParser.fresh⟩ _).symm
  · rw [hnew, hfds, ← List.append_assoc]
    have hclosed := (Owned.opened h (hk hmalloc hcalloc)).closed
    simpa only [Tidy, held, Option.toList_none, List.append_nil] using hclosed

theorem Tidy.step {call : SocketCall} (h : p.Tidy) (hk : p.Kernel call) (hp : p.Permits call) :
    ∃ p', p.step call = .ok p' ∧ p'.Tidy := by
  cases call with
  | clientNew malloc calloc => exact h.clientNew malloc calloc
  | accept fd malloc calloc => exact h.accept fd malloc calloc hk
  | connect i established ip socket connect =>
      obtain ⟨c, hc, hidle⟩ := hp
      exact h.connect established ip socket connect hc (hk c hc) hidle
  | clientClose i =>
      obtain ⟨c, hc⟩ := exists_pick.mp hp
      refine ⟨⟨p.clients.set i (TcpClient.close c), p.points, p.log ++ closedFd c.fd⟩, ?_, ?_⟩
      · rw [Process.step, pick_iff.mpr hc]
        rfl
      · obtain ⟨hheld, hset⟩ := held_client hc (TcpClient.close c) (p.log ++ closedFd c.fd)
        exact Owned.perm (h.perm hheld).closed.idle hset.symm
  | clientDel i =>
      obtain ⟨c, hc⟩ := exists_pick.mp hp
      refine ⟨⟨p.clients.eraseIdx i, p.points, p.log ++ closedFd c.fd⟩, ?_, ?_⟩
      · rw [Process.step, pick_iff.mpr hc]
        rfl
      · exact (h.perm (held_client hc c _).1).closed
  | pointNew malloc calloc socket bind => exact h.pointNew malloc calloc socket bind hk hp
  | pointDel i =>
      obtain ⟨q, hq⟩ := exists_pick.mp hp
      refine ⟨⟨p.clients, p.points.eraseIdx i, p.log ++ closedFd q.fd⟩, ?_, ?_⟩
      · rw [Process.step, pick_iff.mpr hq]
        rfl
      · exact (h.perm (held_point hq _)).closed

/-- A call after which the process is tidy uses an object that is there, overwrites no descriptor and closes none
that lay in a block. -/
theorem permits_of_tidy {call : SocketCall} (h : p.Tidy) (hk : p.Kernel call) (hstep : p.step call = .ok p')
    (h' : p'.Tidy) : p.Permits call := by
  cases call with
  | clientNew malloc calloc => trivial
  | accept fd malloc calloc => trivial
  | connect i established ip socket connect =>
      obtain ⟨c, hc, _⟩ := Exec.bind_eq_ok.mp hstep
      rw [pick_iff] at hc
      refine ⟨c, hc, fun hvalid hip => ?_⟩
      rcases p.connect_cases hc established ip socket connect with ⟨hnot, _⟩ | ⟨_, hstep'⟩
      · exact absurd ⟨hvalid, hip⟩ hnot
      · obtain rfl := Except.ok.inj (hstep.symm.trans hstep')
        obtain ⟨hheld, hset⟩ := held_client hc ⟨socket, c.parser⟩ (p.log ++ openedFd socket)
        exact Owned.eq_of_overwritten (h.perm hheld) (hk c hc hvalid hip) (h'.perm hset)
  | clientClose i =>
      obtain ⟨c, hc, _⟩ := Exec.bind_eq_ok.mp hstep
      exact exists_pick.mpr ⟨c, pick_iff.mp hc⟩
  | clientDel i =>
      obtain ⟨c, hc, _⟩ := Exec.bind_eq_ok.mp hstep
      exact exists_pick.mpr ⟨c, pick_iff.mp hc⟩
  | pointNew malloc calloc socket bind =>
      rcases newPoint_cases malloc calloc socket bind with ⟨fd, rfl, rfl, hnew, hfds⟩ | ⟨hserved, _⟩
      · obtain rfl := Except.ok.inj hstep
        have hstray : Owned p.held (p.log ++ closedFd fd) := by
          simpa only [Tidy, held, hnew, hfds, Option.toList_none, List.append_nil] using h'
        exact Or.inr (Or.inr (congrArg some (Owned.eq_of_stray h hstray)))
      · exact hserved.imp id Or.inl
  | pointDel i =>
      obtain ⟨q, hq, _⟩ := Exec.bind_eq_ok.mp hstep
      exact exists_pick.mpr ⟨q, pick_iff.mp hq⟩

end

/-! ## All runs -/

theorem Tidy.init : init.Tidy := Owned.nil

/-- In a run of calls each open descriptor belongs to one object, if and only if every client that connects again was
closed before and no `UdpPoint_New` closes what lay in its block. Such a run that ends without objects has closed
once all that it opened. -/
theorem tidy_iff {calls : List SocketCall} (hk : Along step Kernel init calls) :
    (Always step Tidy init calls ↔ Along step Permits init calls) ∧
      (Along step Permits init calls → ∀ p, calls.foldlM step init = .ok p → p.held = [] → Balanced p.log) := by
  have hiff : Always step Tidy init calls ↔ Along step Permits init calls :=
    always_iff_within (fun _ h => h) (fun _ _ => Tidy.step) (fun _ _ _ => permits_of_tidy) Tidy.init hk
  refine ⟨hiff, fun hp p hrun hheld => ?_⟩
  obtain ⟨p', hrun', htidy⟩ := hiff.mpr hp calls List.prefix_rfl
  obtain rfl := Except.ok.inj (hrun'.symm.trans hrun)
  rw [Tidy, hheld] at htidy
  exact htidy.settled_nil

/-- A server's client and a client of its own; 4 is given out again after the first was deleted. -/
def handover : List SocketCall :=
  [.accept 4 true true, .clientNew true true, .clientDel 0, .connect 0 false true 4 0, .clientDel 0]

theorem tidy_handover :
    Always step Tidy init handover ∧
      ∃ p, handover.foldlM step init = .ok p ∧ Balanced p.log := by
  let accepted : Client := ⟨4, MsgParser.fresh⟩
  let idle : Client := ⟨-1, MsgParser.fresh⟩
  have halong : ∀ {P : Process → SocketCall → Prop}, P init (.accept 4 true true) →
      P ⟨[accepted], [], [.opened 4]⟩ (.clientNew true true) →
      P ⟨[accepted, idle], [], [.opened 4]⟩ (.clientDel 0) →
      P ⟨[idle], [], [.opened 4, .closed 4]⟩ (.connect 0 false true 4 0) →
      P ⟨[accepted], [], [.opened 4, .closed 4, .opened 4]⟩ (.clientDel 0) → Along step P init handover := by
    intro P h₁ h₂ h₃ h₄ h₅
    exact .cons h₁ rfl (.cons h₂ rfl (.cons h₃ rfl (.cons h₄ rfl ⟨h₅, fun _ _ => trivial⟩)))
  have hk : Along step Kernel init handover := by
    refine halong ?_ trivial trivial ?_ trivial
    · show ¬ Live [] 4
      decide
    · intro c _ _ _
      show ¬ Live [Entry.opened 4, .closed 4] 4
      decide
  have hp : Along step Permits init handover :=
    halong trivial trivial (Nat.succ_pos 1) ⟨idle, rfl, fun _ _ => rfl⟩ (Nat.succ_pos 0)
  obtain ⟨hiff, hsettled⟩ := tidy_iff hk
  exact ⟨hiff.mpr hp, _, rfl, hsettled hp _ rfl rfl⟩

end Process

end CompileService.Wire
