import CompileService.Wire.Agreement
import CompileService.Wire.Footprints

/-!
# Programs that use clients, points and messages

A program makes objects, uses those that it has in any order, and deletes them. On the heap it has pointers, on values
the objects themselves. What it gets, and the blocks that there are after each run, are determined by the objects.
-/

namespace CompileService.Wire

open CompileService.Base Prog

/-- A parser without a header has no message. -/
theorem MsgParser.HeaderCached.msg_eq_none {p : MsgParser} (hp : p.HeaderCached) (h : p.header = false) :
    p.msg = none := by
  cases hmsg : p.msg with
  | none => rfl
  | some m => exact absurd (hp m hmsg).1 (Bool.eq_false_iff.mp h)

/-- A call, with the results of the calls of the system and of `malloc` and `calloc` in it. Clients, points and
messages are numbered in the order in which the program keeps them. -/
inductive Action (σ : Type) where
  | clientFrom (malloc : Option Memory.ClientBlock) (calloc : Bool) (fd : Int)
  | clientSend (i j : Nat) (send : Int → List UInt8 → Int)
  | clientRecv (i : Nat) (malloc : Malloc) (io : σ)
  | clientClose (i : Nat)
  | clientDel (i : Nat)
  | pointNew (malloc : Option Memory.ClientBlock) (calloc : Bool) (socket : Int) (bind : Bool)
  | pointFrom (malloc : Option Memory.ClientBlock) (calloc : Bool) (fd : Int)
  | pointSend (i j : Nat) (sendto : Int → List UInt8 → Int)
  | pointRecv (i : Nat) (buffer malloc : Malloc) (d : Datagram)
  | pointDel (i : Nat)
  | messageNew (malloc : Malloc) (type cmd index total : UInt16) (payload : Option (List UInt8)) (length : UInt32)
  | messageFree (i : Nat)

/-- The objects of a program. -/
structure Objects where
  clients : List Client
  points : List UdpPoint
  messages : List Message

namespace Objects

def init : Objects := ⟨[], [], []⟩

variable {σ : Type} [Readable σ]

def step (o : Objects) : Action σ → Exec Objects
  | .clientFrom malloc calloc fd =>
      .ok { o with clients := o.clients ++ (TcpClient.fromFd malloc.isSome calloc fd).toList }
  | .clientSend i j send => do
      let c ← pick o.clients i
      let m ← pick o.messages j
      let (_, m) ← TcpClient.sendMsg send c m
      return { o with messages := o.messages.set j m }
  | .clientRecv i malloc io => do
      let c ← pick o.clients i
      let (ret, c, _) ← TcpClient.recvMsg malloc c io
      return { o with clients := o.clients.set i c, messages := o.messages ++ ret.toList }
  | .clientClose i => do
      let c ← pick o.clients i
      return { o with clients := o.clients.set i (TcpClient.close c) }
  | .clientDel i => do
      let _ ← pick o.clients i
      return { o with clients := o.clients.eraseIdx i }
  | .pointNew malloc calloc socket bind =>
      .ok { o with points := o.points ++ (UdpPoint.new malloc.isSome calloc socket bind).toList }
  | .pointFrom malloc calloc fd =>
      .ok { o with points := o.points ++ (UdpPoint.fromFd malloc.isSome calloc fd).toList }
  | .pointSend i j sendto => do
      let c ← pick o.points i
      let m ← pick o.messages j
      let (_, m) ← UdpPoint.sendMsg sendto c m
      return { o with messages := o.messages.set j m }
  | .pointRecv i buffer malloc d => do
      let c ← pick o.points i
      let (ret, _, _, c) ← UdpPoint.recvMsg buffer malloc c d none none
      return { o with points := o.points.set i c, messages := o.messages ++ ret.toList }
  | .pointDel i => do
      let _ ← pick o.points i
      return { o with points := o.points.eraseIdx i }
  | .messageNew malloc type cmd index total payload length => do
      let ret ← Message.new malloc type cmd index total payload length
      return { o with messages := o.messages ++ ret.toList }
  | .messageFree j => do
      let _ ← pick o.messages j
      return { o with messages := o.messages.eraseIdx j }

/-- The action uses only objects that are there. -/
def Uses (o : Objects) : Action σ → Prop
  | .clientSend i j _ => i < o.clients.length ∧ j < o.messages.length
  | .clientRecv i _ _ => i < o.clients.length
  | .clientClose i => i < o.clients.length
  | .clientDel i => i < o.clients.length
  | .pointSend i j _ => i < o.points.length ∧ j < o.messages.length
  | .pointRecv i _ _ _ => i < o.points.length
  | .pointDel i => i < o.points.length
  | .messageFree j => j < o.messages.length
  | _ => True

/-- How many blocks the objects have: an object and its parser two, a message one, also a message that a parser is
working on. -/
def blocks (o : Objects) : Nat :=
  (o.clients.map fun c => 2 + c.parser.msg.toList.length).sum +
    ((o.points.map fun c => 2 + c.parser.msg.toList.length).sum + o.messages.length)

/-- A message that a parser is working on has the header of the parser. -/
structure Cached (o : Objects) : Prop where
  clients : ∀ c ∈ o.clients, c.parser.HeaderCached
  points : ∀ c ∈ o.points, c.parser.HeaderCached

/-! ### Headers of messages -/

section
variable {o o' : Objects}

theorem pick_mem {α : Type} {xs : List α} {i : Nat} {x : α} (h : pick xs i = .ok x) : x ∈ xs := by
  unfold pick at h
  split at h
  · rename_i y hy
    cases h
    exact List.mem_of_getElem? hy
  · cases h

theorem forall_set {α : Type} {P : α → Prop} {xs : List α} {i : Nat} {y : α} (h : ∀ x ∈ xs, P x) (hy : P y) :
    ∀ x ∈ xs.set i y, P x := by
  intro x hx
  rcases List.mem_or_eq_of_mem_set hx with hx | rfl
  · exact h x hx
  · exact hy

theorem forall_erase {α : Type} {P : α → Prop} {xs : List α} {i : Nat} (h : ∀ x ∈ xs, P x) : ∀ x ∈ xs.eraseIdx i, P x :=
  fun x hx => h x (List.mem_of_mem_eraseIdx hx)

theorem new_headerCached {calloc : Bool} {p : MsgParser} (h : MsgParser.new calloc = some p) : p.HeaderCached := by
  cases calloc with
  | false => cases h
  | true =>
      cases h
      exact MsgParser.headerCached_of_none rfl

theorem recvMsg_headerCached {io io' : σ} {malloc : Malloc} {c c' : Client} {ret : Option Message}
    (hc : c.parser.HeaderCached) (h : TcpClient.recvMsg malloc c io = .ok (ret, c', io')) :
    c'.parser.HeaderCached := by
  obtain ⟨⟨ret', parser, io₁⟩, hrun, hret⟩ := Exec.bind_eq_ok.mp h
  cases hret
  exact MsgParser.readFd_headerCached hc hrun

theorem point_recvMsg_headerCached {buffer malloc : Malloc} {c c' : UdpPoint} {d : Datagram} {ret : Option Message}
    {remote : Option String} {port : Option Int} (hc : c.parser.HeaderCached)
    (h : UdpPoint.recvMsg buffer malloc c d none none = .ok (ret, remote, port, c')) : c'.parser.HeaderCached := by
  rw [UdpPoint.recvMsg] at h
  by_cases hbuf : 0 < UdpPoint.peek d ∧ (if 0 < UdpPoint.peek d then buffer (UdpPoint.peek d) else none).isSome
  · rw [if_pos hbuf] at h
    obtain ⟨⟨ret', parser⟩, hrun, hret⟩ := Exec.bind_eq_ok.mp h
    have hparser := MsgParser.readMem_headerCached hc hrun
    cases ret' with
    | none =>
        cases hret
        exact hparser
    | some m =>
        cases hret
        exact hparser
  · rw [if_neg hbuf] at h
    cases h
    exact hc

theorem Cached.step {act : Action σ} (ho : o.Cached) (h : o.step act = .ok o') : o'.Cached := by
  cases act with
  | clientFrom malloc calloc fd =>
      cases h
      refine ⟨List.forall_mem_append.mpr ⟨ho.clients, fun c hc => ?_⟩, ho.points⟩
      rw [Option.mem_toList] at hc
      cases malloc with
      | none => cases hc
      | some garbage =>
          obtain ⟨parser, hnew, rfl⟩ := Option.map_eq_some_iff.mp hc
          exact new_headerCached hnew
  | clientSend i j send =>
      obtain ⟨c, _, h⟩ := Exec.bind_eq_ok.mp h
      obtain ⟨m, _, h⟩ := Exec.bind_eq_ok.mp h
      obtain ⟨⟨_, m'⟩, _, h⟩ := Exec.bind_eq_ok.mp h
      cases h
      exact ⟨ho.clients, ho.points⟩
  | clientRecv i malloc io =>
      obtain ⟨c, hpick, h⟩ := Exec.bind_eq_ok.mp h
      obtain ⟨⟨ret, c', io'⟩, hrun, h⟩ := Exec.bind_eq_ok.mp h
      cases h
      exact ⟨forall_set ho.clients (recvMsg_headerCached (ho.clients c (pick_mem hpick)) hrun), ho.points⟩
  | clientClose i =>
      obtain ⟨c, _, h⟩ := Exec.bind_eq_ok.mp h
      cases h
      exact ⟨forall_set ho.clients (MsgParser.headerCached_of_none rfl), ho.points⟩
  | clientDel i =>
      obtain ⟨c, _, h⟩ := Exec.bind_eq_ok.mp h
      cases h
      exact ⟨forall_erase ho.clients, ho.points⟩
  | pointNew malloc calloc socket bind =>
      cases h
      refine ⟨ho.clients, List.forall_mem_append.mpr ⟨ho.points, fun c hc => ?_⟩⟩
      rw [Option.mem_toList] at hc
      cases malloc with
      | none => cases hc
      | some garbage =>
          obtain ⟨parser, hnew, hc⟩ := Option.bind_eq_some_iff.mp hc
          split at hc
          · cases hc
            exact new_headerCached hnew
          · cases hc
  | pointFrom malloc calloc fd =>
      cases h
      refine ⟨ho.clients, List.forall_mem_append.mpr ⟨ho.points, fun c hc => ?_⟩⟩
      rw [Option.mem_toList] at hc
      cases malloc with
      | none => cases hc
      | some garbage =>
          obtain ⟨parser, hnew, rfl⟩ := Option.map_eq_some_iff.mp hc
          exact new_headerCached hnew
  | pointSend i j sendto =>
      obtain ⟨c, _, h⟩ := Exec.bind_eq_ok.mp h
      obtain ⟨m, _, h⟩ := Exec.bind_eq_ok.mp h
      obtain ⟨⟨_, m'⟩, _, h⟩ := Exec.bind_eq_ok.mp h
      cases h
      exact ⟨ho.clients, ho.points⟩
  | pointRecv i buffer malloc d =>
      obtain ⟨c, hpick, h⟩ := Exec.bind_eq_ok.mp h
      obtain ⟨⟨ret, remote, port, c'⟩, hrun, h⟩ := Exec.bind_eq_ok.mp h
      cases h
      exact ⟨ho.clients, forall_set ho.points (point_recvMsg_headerCached (ho.points c (pick_mem hpick)) hrun)⟩
  | pointDel i =>
      obtain ⟨c, _, h⟩ := Exec.bind_eq_ok.mp h
      cases h
      exact ⟨ho.clients, forall_erase ho.points⟩
  | messageNew malloc type cmd index total payload length =>
      obtain ⟨ret, _, h⟩ := Exec.bind_eq_ok.mp h
      cases h
      exact ⟨ho.clients, ho.points⟩
  | messageFree j =>
      obtain ⟨m, _, h⟩ := Exec.bind_eq_ok.mp h
      cases h
      exact ⟨ho.clients, ho.points⟩

end

end Objects

namespace Memory

/-- The pointers of a program. -/
structure Pointers where
  clients : List Nat
  points : List Nat
  messages : List Nat
deriving DecidableEq, Repr

namespace Pointers

def init : Pointers := ⟨[], [], []⟩

variable {σ : Type} [Readable σ]

def step (A : Allocator Block) (p : Pointers) : Action σ → Prog Block Pointers
  | .clientFrom malloc calloc fd => do
      let ret ← TcpClient.fromFd A malloc calloc fd
      return { p with clients := p.clients ++ returned ret }
  | .clientSend i j send => do
      let c ← eval (pick p.clients i)
      let m ← eval (pick p.messages j)
      let _ ← TcpClient.sendMsg send c m
      return p
  | .clientRecv i malloc io => do
      let c ← eval (pick p.clients i)
      let (ret, _) ← TcpClient.recvMsg A malloc c io
      return { p with messages := p.messages ++ returned ret }
  | .clientClose i => do
      let c ← eval (pick p.clients i)
      TcpClient.close c
      return p
  | .clientDel i => do
      let c ← eval (pick p.clients i)
      TcpClient.del c
      return { p with clients := p.clients.eraseIdx i }
  | .pointNew malloc calloc socket bind => do
      let ret ← UdpPoint.new A malloc calloc socket bind
      return { p with points := p.points ++ returned ret }
  | .pointFrom malloc calloc fd => do
      let ret ← UdpPoint.fromFd A malloc calloc fd
      return { p with points := p.points ++ returned ret }
  | .pointSend i j sendto => do
      let c ← eval (pick p.points i)
      let m ← eval (pick p.messages j)
      let _ ← UdpPoint.sendMsg sendto c m
      return p
  | .pointRecv i buffer malloc d => do
      let c ← eval (pick p.points i)
      let ret ← UdpPoint.recvMsg A buffer malloc c d
      return { p with messages := p.messages ++ returned ret }
  | .pointDel i => do
      let c ← eval (pick p.points i)
      UdpPoint.del c
      return { p with points := p.points.eraseIdx i }
  | .messageNew malloc type cmd index total payload length => do
      let ret ← messageNew A malloc type cmd index total payload length
      return { p with messages := p.messages ++ returned ret }
  | .messageFree j => do
      let m ← eval (pick p.messages j)
      free m
      return { p with messages := p.messages.eraseIdx j }

def run (A : Allocator Block) (actions : List (Action σ)) : Prog Block Pointers := actions.foldlM (step A) init

end Pointers

/-! ## The blocks of a program -/

open Assertion Carries

/-- The objects are at the pointers, and no other block is in the heap. -/
def owns (o : Objects) (p : Pointers) : Assertion Block :=
  each clientAt p.clients o.clients * (each pointAt p.points o.points * each messageAt p.messages o.messages)

theorem owns_points (o : Objects) (p : Pointers) : owns o p =
    each pointAt p.points o.points * (each clientAt p.clients o.clients * each messageAt p.messages o.messages) :=
  mul_left_comm _ _ _

theorem owns_messages (o : Objects) (p : Pointers) : owns o p =
    each messageAt p.messages o.messages * (each clientAt p.clients o.clients * each pointAt p.points o.points) := by
  rw [owns, ← mul_assoc, mul_comm]

section
variable {o : Objects} {p : Pointers} {h : Heap Block}

theorem owns_newClient {ret : Nat} {r : Option Client} (hP : (orNull clientAt ret r * owns o p : Assertion Block) h) :
    owns { o with clients := o.clients ++ r.toList } { p with clients := p.clients ++ returned ret } h := by
  rw [owns, ← mul_assoc] at hP
  exact mul_mono (fun _ => each_returned fun _ _ _ => clientAt_ne_zero) (fun _ => id) hP

theorem owns_newPoint {ret : Nat} {r : Option UdpPoint} (hP : (orNull pointAt ret r * owns o p : Assertion Block) h) :
    owns { o with points := o.points ++ r.toList } { p with points := p.points ++ returned ret } h := by
  rw [owns_points, ← mul_assoc] at hP
  rw [owns_points]
  exact mul_mono (fun _ => each_returned fun _ _ _ => clientAt_ne_zero) (fun _ => id) hP

theorem owns_newMessage {ret : Nat} {r : Option Message}
    (hP : (orNull messageAt ret r * owns o p : Assertion Block) h) :
    owns { o with messages := o.messages ++ r.toList } { p with messages := p.messages ++ returned ret } h := by
  rw [owns_messages, ← mul_assoc] at hP
  rw [owns_messages]
  exact mul_mono (fun _ => each_returned fun _ _ _ hm => hm.1) (fun _ => id) hP

/-- One object sends one of the messages. -/
theorem send_carries {ι : Type} {At : Nat → ι → Assertion Block} {sendMem : Nat → Nat → Prog Block Bool}
    {sendVal : ι → Message → Exec (Bool × Message)} {as bs : List Nat} {xs : List ι} {ms : List Message} {i j : Nat}
    {F : Assertion Block} {g : Message → Objects} {Q : Objects → Pointers → Assertion Block}
    (hsend : ∀ a b x m, Carries (At a x * messageAt b m) (sendMem a b) (sendVal x m) fun r ok =>
      fact (ok = r.1) * (At a x * messageAt b r.2))
    (hQ : ∀ m h, (each At as xs * (each messageAt bs (ms.set j m) * F) : Assertion Block) h → Q (g m) p h) :
    Carries (each At as xs * (each messageAt bs ms * F))
      (do
        let c ← eval (pick as i)
        let m ← eval (pick bs j)
        let _ ← sendMem c m
        return p)
      (do
        let c ← pick xs i
        let m ← pick ms j
        let (_, m) ← sendVal c m
        return g m) Q := by
  apply Carries.pick
  intro a x hlen ha hx
  have hmessages : At a x * (each At (as.eraseIdx i) (xs.eraseIdx i) * (each messageAt bs ms * F)) =
      each messageAt bs ms * (each At as xs * F) := by
    rw [each_erase hlen ha hx]
    ac_rfl
  rw [hmessages]
  apply Carries.pick
  intro b m hlen' hb hm
  have hboth : messageAt b m * (each messageAt (bs.eraseIdx j) (ms.eraseIdx j) * (each At as xs * F)) =
      At a x * messageAt b m *
        (each messageAt (bs.eraseIdx j) (ms.eraseIdx j) * (each At (as.eraseIdx i) (xs.eraseIdx i) * F)) := by
    rw [each_erase hlen ha hx]
    ac_rfl
  rw [hboth]
  apply bind ((hsend a b x m).frame _)
  rintro ⟨ok, m'⟩ sent -
  apply Carries.ret
  intro h hP
  rw [mul_assoc] at hP
  obtain ⟨_, hP⟩ := fact_mul_apply.mp hP
  apply hQ
  have hback : each At as xs * (each messageAt bs (ms.set j m') * F) = At a x * messageAt b m' *
      (each messageAt (bs.eraseIdx j) (ms.eraseIdx j) * (each At (as.eraseIdx i) (xs.eraseIdx i) * F)) := by
    rw [each_set hlen' hb, each_erase hlen ha hx]
    ac_rfl
  rwa [hback]

theorem step_carries {σ : Type} [Readable σ] (A : Allocator Block) (ho : o.Cached) (act : Action σ) :
    Carries (owns o p) (p.step A act) (o.step act) owns := by
  cases act with
  | clientFrom malloc calloc fd =>
      rw [← one_mul (owns o p)]
      apply call (fromFd_carries A malloc calloc fd)
      intro ret
      exact Carries.ret fun h => owns_newClient
  | clientSend i j send =>
      rw [owns, mul_comm (each pointAt _ _)]
      refine send_carries (g := fun m => { o with messages := o.messages.set j m }) (TcpClient.sendMsg_carries send)
        fun m h hP => ?_
      rwa [owns, mul_comm (each pointAt _ _)]
  | clientRecv i malloc io =>
      rw [owns]
      apply Carries.pick
      intro a c hlen ha hc
      have hparser := ho.clients c (List.mem_of_getElem? hc)
      apply bind ((TcpClient.recvMsg_carries A malloc a hparser.msg_eq_none io).frame _)
      rintro ⟨ret, c', io'⟩ ⟨msg, io₁⟩ -
      apply Carries.ret
      intro h hP
      rw [mul_assoc] at hP
      obtain ⟨_, hP⟩ := fact_mul_apply.mp hP
      apply owns_newMessage (o := { o with clients := o.clients.set i c' }) (p := p)
      rwa [owns, each_set hlen ha, mul_assoc, ← mul_assoc]
  | clientClose i =>
      rw [owns]
      apply Carries.pick
      intro a c hlen ha hc
      apply call (TcpClient.close_carries a c)
      intro _
      apply Carries.ret
      intro h hP
      rwa [owns, each_set hlen ha, mul_assoc]
  | clientDel i =>
      rw [owns]
      apply Carries.pick
      intro a c hlen ha hc
      apply call (TcpClient.del_carries a c)
      intro _
      apply Carries.ret
      intro h hP
      rwa [one_mul] at hP
  | pointNew malloc calloc socket bind =>
      rw [← one_mul (owns o p)]
      apply call (UdpPoint.new_carries A malloc calloc socket bind)
      intro ret
      exact Carries.ret fun h => owns_newPoint
  | pointFrom malloc calloc fd =>
      rw [← one_mul (owns o p)]
      apply call (UdpPoint.fromFd_carries A malloc calloc fd)
      intro ret
      exact Carries.ret fun h => owns_newPoint
  | pointSend i j sendto =>
      rw [owns_points, mul_comm (each clientAt _ _)]
      refine send_carries (g := fun m => { o with messages := o.messages.set j m }) (UdpPoint.sendMsg_carries sendto)
        fun m h hP => ?_
      rwa [owns_points, mul_comm (each clientAt _ _)]
  | pointRecv i buffer malloc d =>
      rw [owns_points]
      apply Carries.pick
      intro a c hlen ha hc
      have hparser := ho.points c (List.mem_of_getElem? hc)
      apply bind ((UdpPoint.recvMsg_carries A buffer malloc a hparser.msg_eq_none d).frame _)
      rintro ⟨ret, remote, port, c'⟩ msg -
      apply Carries.ret
      intro h hP
      apply owns_newMessage (o := { o with points := o.points.set i c' }) (p := p)
      rwa [owns_points, each_set hlen ha, mul_assoc, ← mul_assoc]
  | pointDel i =>
      rw [owns_points]
      apply Carries.pick
      intro a c hlen ha hc
      apply call (UdpPoint.del_carries a c)
      intro _
      apply Carries.ret
      intro h hP
      rwa [one_mul, ← owns_points { o with points := o.points.eraseIdx i } { p with points := p.points.eraseIdx i }]
        at hP
  | messageNew malloc type cmd index total payload length =>
      rw [← one_mul (owns o p)]
      apply bind ((messageNew_carries A malloc type cmd index total payload length).frame _)
      intro r ret _
      exact Carries.ret fun h => owns_newMessage
  | messageFree j =>
      rw [owns_messages]
      apply Carries.pick
      intro b m hlen hb hm
      apply Carries.free
      apply Carries.ret
      intro h hP
      rwa [← owns_messages { o with messages := o.messages.eraseIdx j }
        { p with messages := p.messages.eraseIdx j }] at hP

end

end Memory

end CompileService.Wire
