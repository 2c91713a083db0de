import CompileService.Wire.Lemmas.Faults
import CompileService.Wire.Objects

/-!
# Runs in memory

A program on the heap does what it does on values, and the heap has the blocks of its objects and no others. So no
block is used after it was freed or freed twice as long as the program uses only what it has, and none is left over
when it has deleted everything.
-/

namespace CompileService.Wire.Memory

open CompileService.Base Assertion Carries

section
variable {σ : Type} [Readable σ] {o : Objects} {p : Pointers} {h : Heap Block}

theorem owns_init : owns .init .init = 1 := by
  show (1 * (1 * 1) : Assertion Block) = 1
  rw [mul_one, mul_one]

theorem run_carries (A : Allocator Block) (actions : List (Action σ)) :
    Carries 1 (Pointers.run A actions) (actions.foldlM Objects.step .init) fun o p => fact o.Cached * owns o p := by
  have hstep : ∀ o p (act : Action σ), Carries (fact o.Cached * owns o p) (p.step A act) (o.step act) fun o p =>
      fact o.Cached * owns o p := by
    intro o p act
    apply of_fact
    intro ho
    exact (step_carries A ho act).mono fun o' p' h hrun hP => fact_mul_apply.mpr ⟨ho.step hrun, hP⟩
  refine strengthen (Carries.foldlM hstep Objects.init Pointers.init actions) fun h hP => ?_
  have hinit : Objects.init.Cached := ⟨nofun, nofun⟩
  rwa [fact_of_true hinit, one_mul, owns_init]

/-! ## Sizes -/

theorem messageAt_size (a : Nat) (m : Message) : HasSize (messageAt a m) 1 := HasSize.pointsTo a _

theorem clientAt_size (a : Nat) (c : Client) : HasSize (clientAt a c) (2 + c.parser.msg.toList.length) := by
  refine HasSize.ex fun parser => ?_
  have hparser : HasSize (parserAt parser c.parser) (1 + c.parser.msg.toList.length) := by
    refine HasSize.ex fun msg => (HasSize.pointsTo parser _).mul ?_
    have hmsg := HasSize.orNull (a := msg) messageAt_size c.parser.msg
    cases hc : c.parser.msg with
    | none => rwa [hc] at hmsg
    | some m => rwa [hc] at hmsg
  have hclient := (HasSize.pointsTo a (.client ⟨c.fd, parser⟩)).mul hparser
  rwa [← Nat.add_assoc] at hclient

theorem owns_size (o : Objects) (p : Pointers) : HasSize (owns o p) o.blocks := by
  have hmessages := HasSize.each messageAt_size p.messages o.messages
  rw [List.map_const', List.sum_replicate_nat, mul_one] at hmessages
  have hpoints : ∀ a (c : UdpPoint), HasSize (pointAt a c) (2 + c.parser.msg.toList.length) :=
    fun a c => clientAt_size a ⟨c.fd, c.parser⟩
  exact (HasSize.each clientAt_size _ _).mul ((HasSize.each hpoints _ _).mul hmessages)

theorem sum_map_eq_zero_iff {α : Type} {f : α → Nat} {xs : List α} (hf : ∀ x, 0 < f x) :
    (xs.map f).sum = 0 ↔ xs.length = 0 := by
  cases xs with
  | nil => exact iff_of_true rfl rfl
  | cons x xs =>
      have hx := hf x
      rw [List.map_cons, List.sum_cons, List.length_cons]
      omega

/-- There are no blocks exactly if there are no pointers. -/
theorem owns_empty_iff (hP : owns o p h) : o.blocks = 0 ↔ p = .init := by
  have hclients : p.clients.length = o.clients.length := each_length hP
  have hpoints : p.points.length = o.points.length := by
    rw [owns_points] at hP
    exact each_length hP
  have hmessages : p.messages.length = o.messages.length := by
    rw [owns_messages] at hP
    exact each_length hP
  have hinit : p = .init ↔ p.clients.length = 0 ∧ p.points.length = 0 ∧ p.messages.length = 0 := by
    obtain ⟨clients, points, messages⟩ := p
    simp only [Pointers.init, Pointers.mk.injEq, List.length_eq_zero_iff]
  rw [hinit, hclients, hpoints, hmessages, Objects.blocks, Nat.add_eq_zero_iff, Nat.add_eq_zero_iff,
    sum_map_eq_zero_iff fun c => by omega, sum_map_eq_zero_iff fun c => by omega]

/-! ## Faults -/

theorem pick_bind_ne_iff {α β : Type} {xs : List α} {i : Nat} {f : α → Exec β} {q : Prop}
    (hf : ∀ x, f x ≠ .error .dangling ↔ q) :
    (Prog.pick xs i >>= f) ≠ .error .dangling ↔ i < xs.length ∧ q := by
  unfold Prog.pick
  by_cases hi : i < xs.length
  · rw [List.getElem?_eq_getElem hi, Exec.ok_bind, hf, and_iff_right hi]
  · rw [List.getElem?_eq_none (Nat.le_of_not_lt hi)]
    exact iff_of_false (fun hne => hne rfl) fun h => hi h.1

theorem pick_ne_iff {α β : Type} {xs : List α} {i : Nat} {f : α → Exec β} (hf : ∀ x, f x ≠ .error .dangling) :
    (Prog.pick xs i >>= f) ≠ .error .dangling ↔ i < xs.length := by
  rw [pick_bind_ne_iff fun x => iff_true_intro (hf x), and_true]

theorem step_ne_dangling_iff (o : Objects) (act : Action σ) : o.step act ≠ .error .dangling ↔ o.Uses act := by
  cases act with
  | clientFrom malloc calloc fd => exact iff_of_true nofun trivial
  | clientSend i j send =>
      refine pick_bind_ne_iff fun c => pick_ne_iff fun m => Exec.bind_ne_error ?_ fun _ => nofun
      exact Exec.bind_ne_error m.sendBuf_ne_dangling fun _ => nofun
  | clientRecv i malloc io =>
      refine pick_ne_iff fun c => Exec.bind_ne_error ?_ fun _ => nofun
      exact Exec.bind_ne_error (MsgParser.readFd_ne_dangling _ _ _ _) fun _ => nofun
  | clientClose i => exact pick_ne_iff fun c => nofun
  | clientDel i => exact pick_ne_iff fun c => nofun
  | pointNew malloc calloc socket bind => exact iff_of_true nofun trivial
  | pointFrom malloc calloc fd => exact iff_of_true nofun trivial
  | pointSend i j sendto =>
      refine pick_bind_ne_iff fun c => pick_ne_iff fun m => Exec.bind_ne_error ?_ fun _ => nofun
      exact Exec.bind_ne_error m.sendBuf_ne_dangling fun _ => nofun
  | pointRecv i buffer malloc d =>
      exact pick_ne_iff fun c => Exec.bind_ne_error (c.recvMsg_ne_dangling buffer malloc d) fun _ => nofun
  | pointDel i => exact pick_ne_iff fun c => nofun
  | messageNew malloc type cmd index total payload length =>
      exact iff_of_true (Exec.bind_ne_error (Message.new_ne_dangling _ _ _ _ _ _ _) fun _ => nofun) trivial
  | messageFree j => exact pick_ne_iff fun m => nofun

/-! ## All runs -/

/-- The heap and the values. Whatever the addresses are, a program on the heap has the faults that it has on values
and no others, and otherwise it ends with the same objects, each in blocks of its own. -/
theorem run_owns (A : Allocator Block) (actions : List (Action σ)) :
    (∀ e, actions.foldlM Objects.step .init = .error e → Pointers.run A actions ∅ = .error e) ∧
    ∀ o, actions.foldlM Objects.step .init = .ok o →
      ∃ p h, Pointers.run A actions ∅ = .ok (p, h) ∧ owns o p h := by
  obtain ⟨herror, hok⟩ := (run_carries A actions).alone rfl
  refine ⟨herror, fun o ho => ?_⟩
  obtain ⟨p, h, hrun, hP⟩ := hok o ho
  exact ⟨p, h, hrun, (fact_mul_apply.mp hP).2⟩

/-- Nothing is used after it was freed and nothing is freed twice, if and only if the program uses only objects that
it has. -/
theorem no_dangling_iff (A : Allocator Block) (actions : List (Action σ)) :
    Pointers.run A actions ∅ ≠ .error .dangling ↔ Along Objects.step Objects.Uses .init actions := by
  obtain ⟨herror, hok⟩ := (run_carries A actions).alone rfl
  rw [← foldlM_ne_error_iff step_ne_dangling_iff]
  cases hrun : actions.foldlM Objects.step .init with
  | error e =>
      rw [herror e hrun]
      simp only [ne_eq, Except.error.injEq]
  | ok o =>
      obtain ⟨p, h, hmem, _⟩ := hok o hrun
      rw [hmem]
      exact iff_of_true nofun nofun

/-- No block is lost: after every run the heap has as many blocks as its objects need, and it is empty if and only if
the program has deleted all its clients, points and messages. -/
theorem nothing_lost (A : Allocator Block) (actions : List (Action σ)) {p : Pointers} {h : Heap Block}
    (hrun : Pointers.run A actions ∅ = .ok (p, h)) :
    (∃ o, actions.foldlM Objects.step .init = .ok o ∧ h.keys.card = o.blocks) ∧ (h = ∅ ↔ p = .init) := by
  obtain ⟨herror, hok⟩ := (run_carries A actions).alone rfl
  cases hvalues : actions.foldlM Objects.step .init with
  | error e => cases hrun.symm.trans (herror e hvalues)
  | ok o =>
      obtain ⟨p', h', hrun', hP⟩ := hok o hvalues
      cases hrun.symm.trans hrun'
      have howns := (fact_mul_apply.mp hP).2
      have hcard := owns_size o p h howns
      refine ⟨⟨o, rfl, hcard⟩, ?_⟩
      rw [← card_keys_eq_zero, hcard]
      exact owns_empty_iff howns

end

/-- A client receives a message and is deleted before the message is freed. -/
theorem nothing_lost_received :
    let io : Sock := ⟨(⟨⟨1, 2, 3, 4, 2⟩, [5, 6]⟩ : Message).wire, Stream'.const (.count 100)⟩
    let actions : List (Action Sock) := [.clientFrom (some ⟨0, 0⟩) true 3, .clientRecv 0 .zeroed io, .clientDel 0]
    let h : Heap Block := Finmap.singleton 3 (.message ⟨⟨1, 2, 3, 4, 2⟩, [5, 6]⟩)
    (∃ o, actions.foldlM Objects.step .init = .ok o ∧ h.keys.card = o.blocks) ∧
      (h = ∅ ↔ (⟨[], [], [3]⟩ : Pointers) = .init) := by
  intro io actions h
  exact nothing_lost (Allocator.next Block) actions (by decide +kernel)

end CompileService.Wire.Memory
