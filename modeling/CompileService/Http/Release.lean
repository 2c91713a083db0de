import CompileService.Http.Ownership

/-!
# Clients that are released

`Server_Thread` deletes a client that it does not hand on, and a `Process_Thread` deletes its client in a `DoResp`
that finds data; its loop ends when the connection is not established. Here a call with the pointer of a client that
was deleted gets any answer at all, so that the deletions can be counted to the end of the thread, and compared with
how often the thread found data.
-/

namespace CompileService.Http

open CompileService.Base

namespace World

variable {w w' : World} {n : Nat} {m : Move}

/-! ## Calls with any pointer -/

/-- A thread passes `c` to a function of the client, whether it lives or not. -/
def touch (w : World) (thread : ThreadId) (call : Call) (c : Ptr) : World :=
  { w with
    heap := if call = .del then Function.update w.heap c.addr none else w.heap
    uses := w.uses ++ [⟨thread, call, c.conn, (w.heap c.addr).getD c.conn⟩] }

def serverGo (w : World) (a : ServerAnswer) : World :=
  match w.server with
  | .test => { w with server := if a.valid then .accept else .returned }
  | .accept => w.newClient a.alloc
  | .hand (some c) =>
      if !a.paused then { (if a.created then w.create c else w) with server := .test }
      else { w.touch .server .del c with server := .test }
  | .hand none => { w with server := .test }
  | .returned => w

def processGo (w : World) (n : Nat) (a : ClientAnswer) : World :=
  match w.thread n with
  | none => w
  | some t =>
      match t.call with
      | none => w
      | some call =>
          { w.touch (.process n) call t.arg with thread := Function.update w.thread n (some (t.next a)) }

def go (w : World) : Move → Exec World
  | .server a => .ok (w.serverGo a)
  | .process n a => .ok (w.processGo n a)

theorem touch_of_pass {thread : ThreadId} {call : Call} {c : Ptr} (h : w.pass thread call c = .ok w') :
    w.touch thread call c = w' := by
  unfold pass at h
  split at h
  · cases h
  · rename_i found hfound
    obtain rfl := Except.ok.inj h
    rw [touch, hfound, Option.getD_some]

theorem serverGo_of_step {a : ServerAnswer} (h : w.serverStep a = .ok w') : w.serverGo a = w' := by
  unfold serverGo
  cases hpc : w.server with
  | test => simpa only [serverStep, hpc, Except.ok.injEq] using h
  | accept => simpa only [serverStep, hpc, Except.ok.injEq] using h
  | hand client =>
      cases client with
      | none => simpa only [serverStep, hpc, Except.ok.injEq] using h
      | some c =>
          simp only [serverStep, hpc] at h
          cases hpaused : a.paused with
          | false =>
              rw [hpaused] at h
              exact Except.ok.inj h
          | true =>
              rw [hpaused] at h
              obtain ⟨w₁, hpass, hret⟩ := Exec.bind_eq_ok.mp h
              simp only [touch_of_pass hpass]
              exact Except.ok.inj hret
  | returned => simpa only [serverStep, hpc, Except.ok.injEq] using h

theorem processGo_of_step {a : ClientAnswer} (h : w.processStep n a = .ok w') : w.processGo n a = w' := by
  unfold processGo
  cases ht : w.thread n with
  | none => simpa only [processStep, ht, Except.ok.injEq] using h
  | some t =>
      simp only [processStep, ht] at h
      cases hcall : t.call with
      | none => simpa only [hcall, Except.ok.injEq] using h
      | some call =>
          simp only [hcall] at h
          obtain ⟨w₁, hpass, hret⟩ := Exec.bind_eq_ok.mp h
          obtain rfl := touch_of_pass hpass
          simp only [hcall]
          exact Except.ok.inj hret

/-- As long as all pointers lead to clients, this is the run of the threads. -/
theorem go_of_step (h : w.step m = .ok w') : w.go m = .ok w' := by
  cases m with
  | server a => exact congrArg Except.ok (serverGo_of_step h)
  | process n a => exact congrArg Except.ok (processGo_of_step h)

/-! ## Counting the deletions -/

/-- How often `TcpClient_Del` was called with the pointer of the `n`-th client. -/
def dels (w : World) (n : Nat) : Nat := w.uses.countP fun u => u.call = .del ∧ u.given = n

/-- `Server_Thread` is done with the `n`-th client, and the thread that it was handed to, if any, has returned. -/
def Finished (w : World) (n : Nat) : Prop :=
  n < w.accepted ∧ (∀ c, w.server = .hand (some c) → c.conn ≠ n) ∧ ∀ t ∈ w.thread n, t.todo = none

def ReleasedOnce (w : World) : Prop := ∀ n, w.Finished n → w.dels n = 1

/-- `TcpClient_Available` tells the `n`-th `Process_Thread` that there are data. -/
def FindsData (w : World) (n : Nat) (a : ClientAnswer) : Prop :=
  (w.thread n).bind Thread.call = some .available ∧ 0 < a.len

instance (w : World) (n : Nat) (a : ClientAnswer) : Decidable (w.FindsData n a) := inferInstanceAs (Decidable (_ ∧ _))

end World

/-- A `DoResp` begins with `TcpClient_Available` and does not call it again. -/
def Thread.Looks (t : Thread) : Prop := ∀ todo ∈ t.todo, todo = [.available] ∨ .available ∉ todo

/-- The threads, and how often each `Process_Thread` was told that there are data. -/
structure Tally where
  world : World
  found : Nat → Nat

namespace Tally

def init : Tally := ⟨.init, fun _ => 0⟩

def count (s : Tally) : Move → Nat → Nat
  | .server _ => s.found
  | .process n a => if s.world.FindsData n a then Function.update s.found n (s.found n + 1) else s.found

def go (s : Tally) (m : Move) : Exec Tally := do
  let w ← s.world.go m
  return ⟨w, s.count m⟩

theorem count_self (s : Tally) (n : Nat) (a : ClientAnswer) :
    s.count (.process n a) n = s.found n + if s.world.FindsData n a then 1 else 0 := by
  by_cases h : s.world.FindsData n a
  · simp only [count, if_pos h, Function.update_self]
  · simp only [count, if_neg h, Nat.add_zero]

theorem count_other (s : Tally) {n k : Nat} (a : ClientAnswer) (hk : k ≠ n) : s.count (.process n a) k = s.found k := by
  by_cases h : s.world.FindsData n a
  · simp only [count, if_pos h, Function.update_of_ne hk]
  · simp only [count, if_neg h]

theorem go_world (s : Tally) (m : Move) : (s.go m).map world = s.world.go m := by
  unfold go
  cases s.world.go m <;> rfl

/-- `pthread_create` succeeds for a client that is not refused, and a loop that ends has found data once. -/
def Permits (s : Tally) : Move → Prop
  | .server a => ∀ c, s.world.server = .hand (some c) → a.paused = true ∨ a.created = true
  | .process n a => ∀ t ∈ s.world.thread n, t.todo = some [] → a.established = false → s.found n = 1

end Tally

namespace World

variable {w w' : World} {n : Nat} {m : Move} {found : Nat → Nat}

/-- A thread has deleted its client, or is going to, as often as it found data. -/
structure Tracked (w : World) (found : Nat → Nat) : Prop where
  fresh : ∀ n, w.accepted ≤ n → w.dels n = 0 ∧ w.thread n = none
  hand : ∀ c, w.server = .hand (some c) → c.conn < w.accepted ∧ w.dels c.conn = 0 ∧ w.thread c.conn = none
  arg : ∀ n, ∀ t ∈ w.thread n, t.arg.conn = n
  looks : ∀ n, ∀ t ∈ w.thread n, t.Looks
  unheard : ∀ n, w.thread n = none → found n = 0
  busy : ∀ n, ∀ t ∈ w.thread n, w.dels n + (t.todo.getD []).count .del = found n
  released : ReleasedOnce w

theorem Tracked.init : Tracked init fun _ => 0 where
  fresh := fun _ _ => ⟨rfl, rfl⟩
  hand := nofun
  arg := nofun
  looks := nofun
  unheard := fun _ _ => rfl
  busy := nofun
  released := fun n hn => absurd hn.1 (Nat.not_lt_zero n)

theorem dels_touch (w : World) (thread : ThreadId) (call : Call) (c : Ptr) (n : Nat) :
    (w.touch thread call c).dels n = w.dels n + if call = .del ∧ c.conn = n then 1 else 0 := by
  simp [dels, touch, List.countP_append, List.countP_singleton]

theorem count_respCalls (len : Int) (bufs : Bool) (sends : Nat) :
    (respCalls len bufs sends).count .del = if 0 < len then 1 else 0 := by
  unfold respCalls
  split
  · cases bufs with
    | false => rfl
    | true => simp [List.count_replicate]
  · rfl

/-! ## The steps of `Server_Thread` -/

theorem Tracked.goto (h : Tracked w found) {pc : ServerPc} (hpc : ∀ c, pc ≠ .hand (some c))
    (hserver : ∀ c, w.server ≠ .hand (some c)) : Tracked { w with server := pc } found where
  fresh := h.fresh
  hand := fun c hc => absurd hc (hpc c)
  arg := h.arg
  looks := h.looks
  unheard := h.unheard
  busy := h.busy
  released := fun n hn => h.released n ⟨hn.1, fun c hc => absurd hc (hserver c), hn.2.2⟩

theorem Tracked.newClient (h : Tracked w found) (hserver : w.server = .accept) (alloc : Option Nat) :
    Tracked (w.newClient alloc) found := by
  have hserver' : ∀ c, w.server ≠ .hand (some c) := fun c hc => nomatch hserver.symm.trans hc
  rcases w.newClient_cases alloc with hnew | ⟨addr, _, hnew⟩
  · rw [hnew]
    exact h.goto nofun hserver'
  · rw [hnew]
    obtain ⟨hdels, hthread⟩ := h.fresh w.accepted (Nat.le_refl _)
    exact {
      fresh := fun n hn => h.fresh n (Nat.le_of_succ_le hn)
      hand := fun c hc => by
        cases hc
        exact ⟨Nat.lt_succ_self _, hdels, hthread⟩
      arg := h.arg
      looks := h.looks
      unheard := h.unheard
      busy := h.busy
      released := fun n hn => by
        obtain ⟨hlt, hne, htodo⟩ := hn
        have hn' : n ≠ w.accepted := fun heq => hne _ rfl heq.symm
        have hlt' : n < w.accepted := Nat.lt_of_le_of_ne (Nat.lt_succ_iff.mp hlt) hn'
        exact h.released n ⟨hlt', fun c hc => absurd hc (hserver' c), htodo⟩ }

theorem Tracked.create (h : Tracked w found) {c : Ptr} (hc : w.server = .hand (some c)) :
    Tracked { w.create c with server := .test } found := by
  obtain ⟨hlt, hdels, hthread⟩ := h.hand c hc
  exact {
    fresh := fun n hn => by
      obtain ⟨hdels, hnone⟩ := h.fresh n hn
      have hne : n ≠ c.conn := fun heq => Nat.not_le_of_lt hlt (heq ▸ hn)
      exact ⟨hdels, (Function.update_of_ne hne _ _).trans hnone⟩
    hand := nofun
    arg := fun n t ht => by
      rcases mem_update ht with ⟨rfl, rfl⟩ | ⟨_, ht⟩
      · rfl
      · exact h.arg n t ht
    looks := fun n t ht => by
      rcases mem_update ht with ⟨rfl, rfl⟩ | ⟨_, ht⟩
      · intro todo htodo
        obtain rfl := Option.some.inj htodo
        exact .inr List.not_mem_nil
      · exact h.looks n t ht
    unheard := fun n hn => by
      by_cases hnc : n = c.conn
      · subst hnc
        cases (Function.update_self ..).symm.trans hn
      · exact h.unheard n ((Function.update_of_ne hnc _ _).symm.trans hn)
    busy := fun n t ht => by
      rcases mem_update ht with ⟨rfl, rfl⟩ | ⟨_, ht⟩
      · rw [h.unheard c.conn hthread]
        exact hdels
      · exact h.busy n t ht
    released := fun n hn => by
      obtain ⟨hn, _, htodo⟩ := hn
      by_cases hnc : n = c.conn
      · subst hnc
        cases htodo _ (Function.update_self ..)
      · refine h.released n ⟨hn, fun c' hc' => ?_, fun t ht => htodo t ((Function.update_of_ne hnc _ _).trans ht)⟩
        rw [hc] at hc'
        cases hc'
        exact Ne.symm hnc }

theorem Tracked.refuse (h : Tracked w found) {c : Ptr} (hc : w.server = .hand (some c)) :
    Tracked { w.touch .server .del c with server := .test } found := by
  obtain ⟨hlt, hdels, hthread⟩ := h.hand c hc
  have hcount : ∀ n, World.dels { w.touch .server .del c with server := .test } n =
      w.dels n + if c.conn = n then 1 else 0 := by
    intro n
    have htouch := dels_touch w .server .del c n
    simp only [true_and] at htouch
    exact htouch
  exact {
    fresh := fun n hn => by
      obtain ⟨hdels, hnone⟩ := h.fresh n hn
      have hne : c.conn ≠ n := fun heq => Nat.not_le_of_lt hlt (heq ▸ hn)
      exact ⟨by rw [hcount, if_neg hne, hdels], hnone⟩
    hand := nofun
    arg := h.arg
    looks := h.looks
    unheard := h.unheard
    busy := fun n t ht => by
      have hne : c.conn ≠ n := by
        rintro rfl
        rw [show w.thread c.conn = some t from ht] at hthread
        cases hthread
      rw [hcount, if_neg hne]
      exact h.busy n t ht
    released := fun n hn => by
      rw [hcount]
      split
      · rename_i heq
        rw [← heq, hdels]
      · rename_i hne
        refine h.released n ⟨hn.1, fun c' hc' => ?_, hn.2.2⟩
        rw [hc] at hc'
        cases hc'
        exact hne }

theorem Tracked.serverGo (h : Tracked w found) {a : ServerAnswer}
    (hp : ∀ c, w.server = .hand (some c) → a.paused = true ∨ a.created = true) : Tracked (w.serverGo a) found := by
  unfold World.serverGo
  cases hpc : w.server with
  | test =>
      refine h.goto (fun c hc => ?_) (fun c hc => by rw [hpc] at hc; cases hc)
      split at hc <;> cases hc
  | accept => exact h.newClient hpc a.alloc
  | hand client =>
      cases client with
      | none => exact h.goto nofun (fun c hc => by rw [hpc] at hc; cases hc)
      | some c =>
          cases hpaused : a.paused with
          | true => exact h.refuse hpc
          | false =>
              have hcreated : a.created = true := (hp c hpc).resolve_left (by rw [hpaused]; exact nofun)
              simp only [hcreated, if_true]
              exact h.create hpc
  | returned => exact h

/-- A client for which no thread is created is given up. -/
theorem Tracked.created_of_released (h : Tracked w found) {a : ServerAnswer} {c : Ptr}
    (hc : w.server = .hand (some c)) (hreleased : ReleasedOnce (w.serverGo a)) :
    a.paused = true ∨ a.created = true := by
  by_contra hnot
  obtain ⟨hpaused, hcreated⟩ := not_or.mp hnot
  obtain ⟨hlt, hdels, hthread⟩ := h.hand c hc
  have hgo : w.serverGo a = { w with server := .test } := by
    simp only [World.serverGo, hc, hpaused, hcreated, Bool.not_false, if_true, Bool.false_eq_true, if_false]
  rw [hgo] at hreleased
  have hone : w.dels c.conn = 1 := hreleased c.conn ⟨hlt, nofun, fun t ht => nomatch hthread.symm.trans ht⟩
  rw [hdels] at hone
  cases hone

/-! ## The steps of a `Process_Thread` -/

/-- After a call there is one deletion less to do, or the loop begins or ends, or `DoResp` knows what to do. -/
theorem next_cases {t : Thread} {call : Call} {a : ClientAnswer} (hcall : t.call = some call) :
    (t.todo = some [] ∧ call = .isValid ∧
      (t.next a).todo = if a.established then some [.available] else none) ∨
    (∃ todo, t.todo = some (.available :: todo) ∧ call = .available ∧
      (t.next a).todo = some (respCalls a.len a.bufs a.sends)) ∨
    ∃ todo, t.todo = some (call :: todo) ∧ call ≠ .available ∧ (t.next a).todo = some todo := by
  obtain ⟨arg, _ | todo⟩ := t
  · cases hcall
  · cases todo with
    | nil =>
        cases hcall
        exact .inl ⟨rfl, rfl, rfl⟩
    | cons call' todo =>
        obtain rfl : call' = call := Option.some.inj hcall
        cases call' with
        | available => exact .inr (.inl ⟨todo, rfl, rfl, rfl⟩)
        | _ => exact .inr (.inr ⟨todo, rfl, nofun, rfl⟩)

theorem available_notMem_respCalls (len : Int) (bufs : Bool) (sends : Nat) :
    .available ∉ respCalls len bufs sends := by
  unfold respCalls
  split
  · cases bufs <;> simp
  · exact List.not_mem_nil

section
variable {t : Thread} {call : Call} {a : ClientAnswer}

theorem looks_next (hl : t.Looks) (hcall : t.call = some call) : (t.next a).Looks := by
  intro todo htodo
  rcases next_cases (a := a) hcall with ⟨_, _, hnext⟩ | ⟨_, _, _, hnext⟩ | ⟨rest, hcons, hne, hnext⟩
  · rw [hnext] at htodo
    cases hest : a.established with
    | true =>
        rw [hest] at htodo
        exact .inl (Option.some.inj htodo).symm
    | false =>
        rw [hest] at htodo
        cases htodo
  · obtain rfl := Option.some.inj (hnext.symm.trans htodo)
    exact .inr (available_notMem_respCalls _ _ _)
  · obtain rfl := Option.some.inj (hnext.symm.trans htodo)
    rcases hl _ hcons with hlist | hnot
    · exact absurd (List.cons.inj hlist).1 hne
    · exact .inr (List.not_mem_of_not_mem_cons hnot)

/-- A call that finds data is one more deletion to do, and a deletion is one less. -/
theorem count_next (hl : t.Looks) (hcall : t.call = some call) :
    (if call = .del then 1 else 0) + ((t.next a).todo.getD []).count .del =
      (t.todo.getD []).count .del + if call = .available ∧ 0 < a.len then 1 else 0 := by
  rcases next_cases (a := a) hcall with ⟨hnil, rfl, hnext⟩ | ⟨rest, hcons, rfl, hnext⟩ | ⟨rest, hcons, hne, hnext⟩
  · rw [hnil, hnext]
    cases a.established <;> rfl
  · obtain rfl : rest = [] := by
      rcases hl _ hcons with hlist | hnot
      · exact (List.cons.inj hlist).2
      · exact absurd List.mem_cons_self hnot
    rw [hcons, hnext, Option.getD_some, Option.getD_some, count_respCalls]
    simp
  · have hnot : ¬ (call = .available ∧ 0 < a.len) := fun h => hne h.1
    rw [hcons, hnext, if_neg hnot, Option.getD_some, Option.getD_some, List.count_cons]
    simp only [beq_iff_eq]
    omega

end

/-- The deletions after a call of the `n`-th thread. -/
theorem dels_processGo (h : Tracked w found) {t : Thread} {call : Call} {a : ClientAnswer} (ht : w.thread n = some t)
    (hcall : t.call = some call) :
    w.processGo n a = { w.touch (.process n) call t.arg with thread := Function.update w.thread n (some (t.next a)) } ∧
      (w.processGo n a).dels n = w.dels n + (if call = .del then 1 else 0) ∧
      ∀ k, k ≠ n → (w.processGo n a).dels k = w.dels k := by
  have hgo : w.processGo n a =
      { w.touch (.process n) call t.arg with thread := Function.update w.thread n (some (t.next a)) } := by
    simp only [World.processGo, ht, hcall]
  have hcount : ∀ k, (w.processGo n a).dels k = w.dels k + if call = .del ∧ n = k then 1 else 0 := by
    intro k
    have htouch := dels_touch w (.process n) call t.arg k
    rw [h.arg n t ht] at htouch
    rw [hgo]
    exact htouch
  refine ⟨hgo, ?_, fun k hk => ?_⟩
  · rw [hcount]
    simp only [and_true]
  · rw [hcount, if_neg fun heq => hk heq.2.symm, Nat.add_zero]

/-- A loop that ends is that of a thread that has nothing left to delete. -/
theorem Tracked.ended (h : Tracked w found) {t : Thread} {call : Call} {a : ClientAnswer} (ht : w.thread n = some t)
    (hcall : t.call = some call) (htodo : (t.next a).todo = none) :
    t.todo = some [] ∧ a.established = false ∧ (w.processGo n a).dels n = found n := by
  obtain ⟨_, hself, _⟩ := dels_processGo (a := a) h ht hcall
  have hbusy := h.busy n t ht
  rcases next_cases (a := a) hcall with ⟨hnil, rfl, hnext⟩ | ⟨_, _, _, hnext⟩ | ⟨_, _, _, hnext⟩
  · rw [hnil] at hbusy
    rw [hnext] at htodo
    cases hest : a.established with
    | true =>
        rw [hest] at htodo
        cases htodo
    | false => exact ⟨hnil, rfl, hself.trans hbusy⟩
  · cases hnext.symm.trans htodo
  · cases hnext.symm.trans htodo

theorem Tracked.processGo (h : Tracked w found) {a : ClientAnswer}
    (hp : ∀ t ∈ w.thread n, t.todo = some [] → a.established = false → found n = 1) :
    Tracked (w.processGo n a) (Tally.count ⟨w, found⟩ (.process n a)) := by
  cases ht : w.thread n with
  | none =>
      have hquiet : ¬ w.FindsData n a := by
        rintro ⟨hcall, _⟩
        rw [ht] at hcall
        cases hcall
      simp only [World.processGo, ht, Tally.count, if_neg hquiet]
      exact h
  | some t =>
      cases hcall : t.call with
      | none =>
          have hquiet : ¬ w.FindsData n a := by
            rintro ⟨hcall', _⟩
            rw [ht, Option.bind_some, hcall] at hcall'
            cases hcall'
          simp only [World.processGo, ht, hcall, Tally.count, if_neg hquiet]
          exact h
      | some call =>
          obtain ⟨hgo, hself, hother⟩ := dels_processGo (a := a) h ht hcall
          have hfinds : w.FindsData n a ↔ call = .available ∧ 0 < a.len := by
            rw [FindsData, ht, Option.bind_some, hcall, Option.some.injEq]
          have hthread : (w.processGo n a).thread = Function.update w.thread n (some (t.next a)) := by rw [hgo]
          have hserver : (w.processGo n a).server = w.server := by rw [hgo]; rfl
          have haccepted : (w.processGo n a).accepted = w.accepted := by rw [hgo]; rfl
          have hlt : n < w.accepted := by
            by_contra hnot
            rw [(h.fresh n (Nat.not_lt.mp hnot)).2] at ht
            cases ht
          exact {
            fresh := fun k hk => by
              rw [haccepted] at hk
              have hne : k ≠ n := fun heq => Nat.not_le_of_lt hlt (heq ▸ hk)
              obtain ⟨hdels, hnone⟩ := h.fresh k hk
              rw [hother k hne, hthread, Function.update_of_ne hne]
              exact ⟨hdels, hnone⟩
            hand := fun c hc => by
              rw [hserver] at hc
              obtain ⟨hclt, hdels, hnone⟩ := h.hand c hc
              have hne : c.conn ≠ n := by
                rintro rfl
                rw [ht] at hnone
                cases hnone
              rw [hother _ hne, hthread, Function.update_of_ne hne, haccepted]
              exact ⟨hclt, hdels, hnone⟩
            arg := fun k t' ht' => by
              rw [hthread] at ht'
              rcases mem_update ht' with ⟨rfl, rfl⟩ | ⟨_, ht'⟩
              · exact h.arg k t ht
              · exact h.arg k t' ht'
            looks := fun k t' ht' => by
              rw [hthread] at ht'
              rcases mem_update ht' with ⟨rfl, rfl⟩ | ⟨_, ht'⟩
              · exact looks_next (h.looks k t ht) hcall
              · exact h.looks k t' ht'
            unheard := fun k hk => by
              rw [hthread] at hk
              have hne : k ≠ n := by
                rintro rfl
                rw [Function.update_self] at hk
                cases hk
              rw [Function.update_of_ne hne] at hk
              rw [Tally.count_other _ a hne]
              exact h.unheard k hk
            busy := fun k t' ht' => by
              rw [hthread] at ht'
              rcases mem_update ht' with ⟨rfl, rfl⟩ | ⟨hne, ht'⟩
              · have hbusy := h.busy k t ht
                have hcount := count_next (a := a) (h.looks k t ht) hcall
                rw [hself, Tally.count_self, if_congr hfinds rfl rfl, Nat.add_assoc, hcount, ← Nat.add_assoc, hbusy]
              · rw [hother k hne, Tally.count_other _ a hne]
                exact h.busy k t' ht'
            released := fun k hk => by
              obtain ⟨hk, hserver', htodo⟩ := hk
              rw [haccepted] at hk
              rw [hserver] at hserver'
              rw [hthread] at htodo
              by_cases hkn : k = n
              · subst hkn
                obtain ⟨hnil, hest, hdels⟩ := h.ended ht hcall (htodo _ (Function.update_self ..))
                exact hdels.trans (hp t ht hnil hest)
              · rw [hother k hkn]
                exact h.released k ⟨hk, hserver', fun t' ht' => htodo t' ((Function.update_of_ne hkn _ _).trans ht')⟩ }

/-- A loop that ends and leaves its client deleted once has found data once. -/
theorem Tracked.found_of_released (h : Tracked w found) {a : ClientAnswer} {t : Thread} (ht : w.thread n = some t)
    (hnil : t.todo = some []) (hest : a.established = false) (hreleased : ReleasedOnce (w.processGo n a)) :
    found n = 1 := by
  have hcall : t.call = some .isValid := by rw [Thread.call, hnil]; rfl
  have hend : (t.next a).todo = none := by rw [Thread.next, hnil, hest]; rfl
  obtain ⟨hgo, _, _⟩ := dels_processGo (a := a) h ht hcall
  obtain ⟨_, _, hdels⟩ := h.ended ht hcall hend
  rw [← hdels]
  refine hreleased n ⟨?_, fun c hc heq => ?_, fun t' ht' => ?_⟩
  · by_contra hnot
    rw [hgo] at hnot
    rw [(h.fresh n (Nat.not_lt.mp hnot)).2] at ht
    cases ht
  · rw [hgo] at hc
    rw [← heq, (h.hand c hc).2.2] at ht
    cases ht
  · rw [hgo] at ht'
    rcases mem_update ht' with ⟨_, rfl⟩ | ⟨hne, _⟩
    · exact hend
    · exact absurd rfl hne

end World

/-! ## All runs -/

namespace Tally

open World

/-- The step lemma. -/
theorem go_tracked {s : Tally} {m : Move} (h : Tracked s.world s.found) (hp : s.Permits m) :
    ∃ s', s.go m = .ok s' ∧ Tracked s'.world s'.found := by
  cases m with
  | server a => exact ⟨⟨s.world.serverGo a, s.found⟩, rfl, h.serverGo hp⟩
  | process n a => exact ⟨⟨s.world.processGo n a, s.count (.process n a)⟩, rfl, h.processGo hp⟩

theorem permits_of_released {s s' : Tally} {m : Move} (h : Tracked s.world s.found) (hgo : s.go m = .ok s')
    (hreleased : ReleasedOnce s'.world) : s.Permits m := by
  cases m with
  | server a =>
      obtain rfl := Except.ok.inj hgo
      exact fun c hc => h.created_of_released hc hreleased
  | process n a =>
      obtain rfl := Except.ok.inj hgo
      exact fun t ht hnil hest => h.found_of_released ht hnil hest hreleased

end Tally

namespace World

/-- A client that sends a request. -/
def serving : List Move :=
  List.replicate 3 (.server ⟨true, some 7, false, true⟩) ++
    (List.replicate 4 (.process 0 ⟨true, 16, true, 0⟩) ++ [.process 0 ⟨false, -1, false, 0⟩])

end World

end CompileService.Http
