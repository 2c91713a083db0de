import CompileService.Base.Run
import CompileService.Http.Threads

/-!
# Who uses a client

As long as no `DoResp` finds data, every client is used by the thread that it was made for and by no thread after
it was deleted. A `DoResp` that finds data deletes its client; the test of the loop then gets a pointer to a freed
client.
-/

namespace CompileService.Http

open CompileService.Base

/-- Ownership: no thread passes a client on that it has deleted before, every pointer leads to the client that it was
returned for, and that is the client of the thread; `Server_Thread` uses clients without a thread. -/
structure Owned (w : World) : Prop where
  live : w.uses.Pairwise fun u v => ¬(u.call = .del ∧ v.thread = u.thread ∧ v.given = u.given)
  found : ∀ u ∈ w.uses, u.found = u.given
  process : ∀ u ∈ w.uses, ∀ n, u.thread = .process n → u.given = n
  server : ∀ u ∈ w.uses, u.thread = .server → w.thread u.given = none

/-- One more use, of the client of the thread, that comes after no deletion by the thread. -/
theorem Owned.snoc {w w' : World} {u : Use} (h : Owned w) (huses : w'.uses = w.uses ++ [u])
    (hthread : ∀ n, w.thread n = none → w'.thread n = none)
    (hlive : ∀ v ∈ w.uses, v.call = .del → u.thread = v.thread → u.given ≠ v.given) (hfound : u.found = u.given)
    (hprocess : ∀ n, u.thread = .process n → u.given = n)
    (hserver : u.thread = .server → w.thread u.given = none) : Owned w' where
  live := by
    rw [huses, List.pairwise_append]
    refine ⟨h.live, List.pairwise_singleton _ u, fun v hv u' hu' => ?_⟩
    rw [List.mem_singleton.mp hu']
    rintro ⟨hdel, hsame, hgiven⟩
    exact hlive v hv hdel hsame hgiven
  found := by
    rw [huses]
    exact List.forall_mem_append.mpr ⟨h.found, List.forall_mem_singleton.mpr hfound⟩
  process := by
    rw [huses]
    exact List.forall_mem_append.mpr ⟨h.process, List.forall_mem_singleton.mpr hprocess⟩
  server := by
    rw [huses]
    refine List.forall_mem_append.mpr ⟨fun v hv hs => hthread _ (h.server v hv hs), ?_⟩
    exact List.forall_mem_singleton.mpr fun hs => hthread _ (hserver hs)

/-- A `DoResp` that starts now finds nothing to read. -/
def NoData (w : World) : Move → Prop
  | .server _ => True
  | .process n a => ∀ t ∈ w.thread n, t.call = some .available → a.len ≤ 0

def idle : ClientAnswer := ⟨false, -1, false, 0⟩

/-- The states of a run in which no `DoResp` finds data. -/
structure Quiet (w : World) : Prop where
  owned : Owned w
  todo : ∀ n, ∀ t ∈ w.thread n, ∀ todo ∈ t.todo, todo = [] ∨ todo = [.available]
  arg : ∀ n, ∀ t ∈ w.thread n, t.arg.conn = n ∧ w.heap t.arg.addr = some n
  thread_lt : ∀ n, ∀ t ∈ w.thread n, n < w.accepted
  uses_lt : ∀ u ∈ w.uses, u.given < w.accepted
  deleted : ∀ u ∈ w.uses, u.call = .del → u.thread = .server
  hand : ∀ c, w.server = .hand (some c) → w.heap c.addr = some c.conn ∧ c.conn < w.accepted ∧
    w.thread c.conn = none ∧ ∀ u ∈ w.uses, u.given ≠ c.conn

theorem Thread.next_quiet {t : Thread} {a : ClientAnswer}
    (htodo : ∀ todo ∈ t.todo, todo = [] ∨ todo = [.available]) (ha : t.call = some .available → a.len ≤ 0) :
    ∀ todo ∈ (t.next a).todo, todo = [] ∨ todo = [.available] := by
  intro todo h
  obtain ⟨arg, _ | calls⟩ := t
  · cases h
  · rcases htodo calls rfl with rfl | rfl
    · cases hest : a.established with
      | false => simp [Thread.next, hest] at h
      | true =>
          right
          simpa [Thread.next, hest] using h.symm
    · left
      have hlen : ¬ 0 < a.len := Int.not_lt.mpr (ha rfl)
      simpa [Thread.next, respCalls, hlen] using h.symm

theorem Thread.call_quiet {t : Thread} {call : Call} (htodo : ∀ todo ∈ t.todo, todo = [] ∨ todo = [.available])
    (h : t.call = some call) : call ≠ .del := by
  obtain ⟨arg, _ | calls⟩ := t
  · cases h
  · rcases htodo calls rfl with rfl | rfl
    · cases h
      exact nofun
    · cases h
      exact nofun

variable {w : World}

theorem Quiet.init : Quiet World.init where
  owned := ⟨List.Pairwise.nil, nofun, nofun, nofun⟩
  todo := nofun
  arg := nofun
  thread_lt := nofun
  uses_lt := nofun
  deleted := nofun
  hand := nofun

theorem World.pass_eq {c : Ptr} (h : w.heap c.addr = some c.conn) (thread : ThreadId) (call : Call) :
    w.pass thread call c = .ok { w with
      heap := if call = .del then Function.update w.heap c.addr none else w.heap
      uses := w.uses ++ [⟨thread, call, c.conn, c.conn⟩] } := by
  rw [pass, h]

theorem mem_update {n m : Nat} {t t' : Thread} (h : t' ∈ Function.update w.thread n (some t) m) :
    m = n ∧ t' = t ∨ m ≠ n ∧ t' ∈ w.thread m := by
  by_cases hm : m = n
  · subst hm
    rw [Function.update_self] at h
    exact .inl ⟨rfl, (Option.some.inj h).symm⟩
  · rw [Function.update_of_ne hm] at h
    exact .inr ⟨hm, h⟩

/-! ## The steps of a `Process_Thread` -/

theorem Quiet.processStep {n : Nat} {a : ClientAnswer} (hw : Quiet w) (ha : NoData w (.process n a)) :
    ∃ w', w.processStep n a = .ok w' ∧ Quiet w' := by
  unfold World.processStep
  cases ht : w.thread n with
  | none => exact ⟨w, rfl, hw⟩
  | some t =>
      cases hcall : t.call with
      | none => exact ⟨w, by simp only [hcall], hw⟩
      | some call =>
          obtain ⟨hconn, hheap⟩ := hw.arg n t ht
          have hdel := Thread.call_quiet (hw.todo n t ht) hcall
          have hpass := World.pass_eq (hconn ▸ hheap) (.process n) call
          rw [if_neg hdel] at hpass
          simp only [hcall, hpass, Exec.ok_bind]
          refine ⟨_, rfl, ?_⟩
          have hnone : ∀ m, w.thread m = none → Function.update w.thread n (some (t.next a)) m = none := by
            intro m hm
            rw [Function.update_of_ne (fun h => by rw [h, ht] at hm; cases hm), hm]
          exact {
            owned := by
              refine hw.owned.snoc rfl hnone (fun v hv hv' hs => ?_) rfl (fun m hm => ?_) nofun
              · rw [hw.deleted v hv hv'] at hs
                cases hs
              · cases hm
                exact hconn
            todo := fun m t' h => by
              rcases mem_update h with ⟨rfl, rfl⟩ | ⟨_, h⟩
              · exact Thread.next_quiet (hw.todo m t ht) (fun hc => ha t ht hc)
              · exact hw.todo m t' h
            arg := fun m t' h => by
              rcases mem_update h with ⟨rfl, rfl⟩ | ⟨_, h⟩
              · exact ⟨hconn, hheap⟩
              · exact hw.arg m t' h
            thread_lt := fun m t' h => by
              rcases mem_update h with ⟨rfl, rfl⟩ | ⟨_, h⟩
              · exact hw.thread_lt m t ht
              · exact hw.thread_lt m t' h
            uses_lt := List.forall_mem_append.mpr
              ⟨hw.uses_lt, List.forall_mem_singleton.mpr (hconn ▸ hw.thread_lt n t ht)⟩
            deleted := List.forall_mem_append.mpr
              ⟨hw.deleted, List.forall_mem_singleton.mpr fun h => absurd h hdel⟩
            hand := fun c hc => by
              obtain ⟨haddr, hlt, hthread, huses⟩ := hw.hand c hc
              refine ⟨haddr, hlt, hnone _ hthread, List.forall_mem_append.mpr ⟨huses, ?_⟩⟩
              refine List.forall_mem_singleton.mpr fun h => ?_
              rw [← h, hconn, ht] at hthread
              cases hthread }

/-! ## The steps of `Server_Thread` -/

theorem Quiet.goto (hw : Quiet w) {pc : ServerPc} (hpc : ∀ c, pc ≠ .hand (some c)) :
    Quiet { w with server := pc } where
  owned := ⟨hw.owned.live, hw.owned.found, hw.owned.process, hw.owned.server⟩
  todo := hw.todo
  arg := hw.arg
  thread_lt := hw.thread_lt
  uses_lt := hw.uses_lt
  deleted := hw.deleted
  hand := fun c hc => absurd hc (hpc c)

theorem Quiet.newClient (hw : Quiet w) (alloc : Option Nat) : Quiet (w.newClient alloc) := by
  rcases w.newClient_cases alloc with hnew | ⟨addr, hfree, hnew⟩
  · rw [hnew]
    exact hw.goto nofun
  · rw [hnew]
    exact {
      owned := ⟨hw.owned.live, hw.owned.found, hw.owned.process, hw.owned.server⟩
      todo := hw.todo
      arg := fun n t ht => by
        obtain ⟨hconn, hheap⟩ := hw.arg n t ht
        have hne : t.arg.addr ≠ addr := fun h => by
          rw [h, hfree] at hheap
          cases hheap
        exact ⟨hconn, (Function.update_of_ne hne _ _).trans hheap⟩
      thread_lt := fun n t ht => Nat.lt_succ_of_lt (hw.thread_lt n t ht)
      uses_lt := fun u hu => Nat.lt_succ_of_lt (hw.uses_lt u hu)
      deleted := hw.deleted
      hand := fun c hc => by
        cases hc
        refine ⟨Function.update_self .., Nat.lt_succ_self _, ?_, fun u hu => Nat.ne_of_lt (hw.uses_lt u hu)⟩
        cases ht : w.thread w.accepted with
        | none => rfl
        | some t => exact absurd (hw.thread_lt _ t ht) (Nat.lt_irrefl _) }

theorem Quiet.create (hw : Quiet w) {c : Ptr} (hc : w.server = .hand (some c)) :
    Quiet { w.create c with server := .test } := by
  obtain ⟨haddr, hlt, hthread, huses⟩ := hw.hand c hc
  exact {
    owned := {
      live := hw.owned.live
      found := hw.owned.found
      process := hw.owned.process
      server := fun u hu hs => by
        have := hw.owned.server u hu hs
        exact (Function.update_of_ne (huses u hu) _ _).trans this }
    todo := fun n t h => by
      rcases mem_update h with ⟨_, rfl⟩ | ⟨_, h⟩
      · exact fun todo htodo => .inl (Option.some.inj htodo).symm
      · exact hw.todo n t h
    arg := fun n t h => by
      rcases mem_update h with ⟨rfl, rfl⟩ | ⟨_, h⟩
      · exact ⟨rfl, haddr⟩
      · exact hw.arg n t h
    thread_lt := fun n t h => by
      rcases mem_update h with ⟨rfl, rfl⟩ | ⟨_, h⟩
      · exact hlt
      · exact hw.thread_lt n t h
    uses_lt := hw.uses_lt
    deleted := hw.deleted
    hand := nofun }

theorem Quiet.refuse (hw : Quiet w) {c : Ptr} (hc : w.server = .hand (some c)) :
    ∃ w', w.pass .server .del c = .ok w' ∧ Quiet { w' with server := .test } := by
  obtain ⟨haddr, hlt, hthread, huses⟩ := hw.hand c hc
  refine ⟨_, World.pass_eq haddr .server .del, ?_⟩
  exact {
    owned := by
      refine hw.owned.snoc rfl (fun _ h => h) (fun v hv _ _ h => ?_) rfl nofun (fun _ => hthread)
      exact huses v hv h.symm
    todo := hw.todo
    arg := fun n t ht => by
      obtain ⟨hconn, hheap⟩ := hw.arg n t ht
      refine ⟨hconn, ?_⟩
      have hne : t.arg.addr ≠ c.addr := by
        intro h
        rw [h, haddr] at hheap
        rw [Option.some.inj hheap, ht] at hthread
        cases hthread
      exact (Function.update_of_ne hne _ _).trans hheap
    thread_lt := hw.thread_lt
    uses_lt := List.forall_mem_append.mpr ⟨hw.uses_lt, List.forall_mem_singleton.mpr hlt⟩
    deleted := List.forall_mem_append.mpr ⟨hw.deleted, List.forall_mem_singleton.mpr fun _ => rfl⟩
    hand := nofun }

theorem Quiet.serverStep (hw : Quiet w) (a : ServerAnswer) : ∃ w', w.serverStep a = .ok w' ∧ Quiet w' := by
  unfold World.serverStep
  cases hpc : w.server with
  | test =>
      refine ⟨_, rfl, hw.goto (fun c h => ?_)⟩
      split at h <;> cases h
  | accept => exact ⟨_, rfl, hw.newClient a.alloc⟩
  | hand client =>
      cases client with
      | none => exact ⟨_, rfl, hw.goto nofun⟩
      | some c =>
          cases hpaused : a.paused with
          | false =>
              refine ⟨_, rfl, ?_⟩
              cases hcreated : a.created with
              | false => exact hw.goto nofun
              | true => exact hw.create hpc
          | true =>
              obtain ⟨w', hpass, hw'⟩ := hw.refuse hpc
              refine ⟨_, ?_, hw'⟩
              simp only [hpass, Exec.ok_bind]
              rfl
  | returned => exact ⟨w, rfl, hw⟩

/-- The step lemma. -/
theorem Quiet.step {m : Move} (hw : Quiet w) (hm : NoData w m) : ∃ w', w.step m = .ok w' ∧ Quiet w' := by
  cases m with
  | server a => exact hw.serverStep a
  | process n a => exact hw.processStep hm

/-! ## After a deletion -/

theorem World.processStep_ok {n : Nat} {a : ClientAnswer} {t : Thread} {call : Call} {w' : World}
    (ht : w.thread n = some t) (hcall : t.call = some call) (h : w.processStep n a = .ok w') :
    w'.thread n = some (t.next a) ∧ ∃ found, w'.uses = w.uses ++ [⟨.process n, call, t.arg.conn, found⟩] := by
  simp only [World.processStep, ht, hcall] at h
  obtain ⟨w₁, hpass, h⟩ := Exec.bind_eq_ok.mp h
  obtain rfl := Except.ok.inj h
  refine ⟨Function.update_self .., ?_⟩
  unfold World.pass at hpass
  split at hpass
  · cases hpass
  · rename_i found _
    obtain rfl := Except.ok.inj hpass
    exact ⟨found, rfl⟩

/-- A thread that is left alone deletes its client, if it has not, and passes it on once more. -/
theorem not_always_owned {n : Nat} {todo : List Call} {t : Thread} (ht : w.thread n = some t)
    (htodo : t.todo = some todo) (hconn : t.arg.conn = n) (havail : .available ∉ todo)
    (hdel : .del ∈ todo ∨ ∃ u ∈ w.uses, u.call = .del ∧ u.thread = .process n ∧ u.given = n) :
    ¬ Always World.step Owned w (List.replicate (todo.length + 1) (.process n idle)) := by
  induction todo generalizing w t with
  | nil =>
      intro h
      obtain ⟨w', hstep, howned, _⟩ := h.uncons
      obtain ⟨u, hu, hcall, hthread, hgiven⟩ := hdel.resolve_left List.not_mem_nil
      have hnext : t.call = some .isValid := by rw [Thread.call, htodo]; rfl
      obtain ⟨_, found, huses⟩ := World.processStep_ok ht hnext hstep
      have hlive := howned.live
      rw [huses, List.pairwise_append] at hlive
      refine hlive.2.2 u hu _ (List.mem_singleton.mpr rfl) ⟨hcall, hthread.symm, ?_⟩
      rw [hgiven]
      exact hconn
  | cons call todo ih =>
      intro h
      rw [List.length_cons, List.replicate_succ] at h
      obtain ⟨w', hstep, _, hrest⟩ := h.uncons
      obtain ⟨hne, havail'⟩ := not_or.mp (fun h => havail (List.mem_cons.mpr h))
      have hnext : t.call = some call := by rw [Thread.call, htodo]; rfl
      obtain ⟨ht', found, huses⟩ := World.processStep_ok ht hnext hstep
      have htodo' : (t.next idle).todo = some todo := by
        unfold Thread.next
        rw [htodo]
        cases call with
        | available => exact absurd rfl hne
        | _ => rfl
      refine ih ht' htodo' hconn havail' ?_ hrest
      rw [huses]
      rcases hdel with hdel | ⟨u, hu, hu'⟩
      · rcases List.mem_cons.mp hdel with rfl | hdel
        · exact .inr ⟨_, List.mem_append_right _ (List.mem_singleton.mpr rfl), rfl, rfl, hconn⟩
        · exact .inl hdel
      · exact .inr ⟨u, List.mem_append_left _ hu, hu'⟩

theorem Quiet.data {n : Nat} {a : ClientAnswer} {t : Thread} (hw : Quiet w) (ht : w.thread n = some t)
    (hcall : t.call = some .available) (hlen : 0 < a.len) :
    ¬ ∀ k, Always World.step Owned w (.process n a :: List.replicate k (.process n idle)) := by
  intro h
  obtain ⟨w', hstep, _, _⟩ := (h 0).uncons
  obtain ⟨ht', _, _⟩ := World.processStep_ok ht hcall hstep
  have htodo : t.todo = some [.available] := by
    obtain ⟨todo, hsome, hhead⟩ := Option.map_eq_some_iff.mp hcall
    rcases hw.todo n t ht todo hsome with rfl | rfl
    · cases hhead
    · exact hsome
  have hnext : (t.next a).todo = some (respCalls a.len a.bufs a.sends) := by
    unfold Thread.next
    rw [htodo]
  have havail : .available ∉ respCalls a.len a.bufs a.sends := by
    rw [respCalls, if_pos hlen]
    cases a.bufs <;> simp
  have hdel : .del ∈ respCalls a.len a.bufs a.sends := by
    rw [respCalls, if_pos hlen]
    exact List.mem_append_right _ List.mem_cons_self
  obtain ⟨w'', hstep', _, hrest⟩ := (h ((respCalls a.len a.bufs a.sends).length + 1)).uncons
  obtain rfl := Except.ok.inj (hstep.symm.trans hstep')
  exact not_always_owned ht' hnext (hw.arg n t ht).1 havail (.inl hdel) hrest

/-- The run lemma: ownership holds, wherever a run is stopped and one thread left alone with a connection on which
nothing more arrives, if and only if no `DoResp` of the run finds data. -/
theorem Quiet.owned_iff (hw : Quiet w) (moves : List Move) :
    (∀ pre, pre <+: moves → ∀ n k, Always World.step Owned w (pre ++ List.replicate k (.process n idle))) ↔
      Along World.step NoData w moves := by
  constructor
  · intro h
    induction moves generalizing w with
    | nil => trivial
    | cons m moves ih =>
        have hm : NoData w m := by
          cases m with
          | server a => trivial
          | process n a =>
              intro t ht hcall
              refine Int.not_lt.mp (fun hlen => hw.data ht hcall hlen (fun k => ?_))
              exact h [.process n a] ⟨moves, rfl⟩ n k
        obtain ⟨w', hstep, hw'⟩ := hw.step hm
        refine ⟨hm, fun w₁ hstep₁ => ?_⟩
        obtain rfl := Except.ok.inj (hstep.symm.trans hstep₁)
        refine ih hw' (fun pre hpre n k => ?_)
        obtain ⟨w₂, hstep₂, _, hrest⟩ := (h (m :: pre) (List.cons_prefix_cons.mpr ⟨rfl, hpre⟩) n k).uncons
        obtain rfl := Except.ok.inj (hstep.symm.trans hstep₂)
        exact hrest
  · intro h pre hpre n k
    refine Along.always (fun _ => Quiet.owned) (fun _ _ => Quiet.step) hw ((h.initial hpre).append ?_)
    intro s m hm
    rw [List.eq_of_mem_replicate hm]
    exact fun _ _ _ => (by decide : idle.len ≤ 0)

/-- Ownership across threads, for any number of connections and any interleaving from the start of the server. -/
theorem threads_owned_iff (moves : List Move) :
    (∀ pre, pre <+: moves → ∀ n k, Always World.step Owned World.init (pre ++ List.replicate k (.process n idle))) ↔
      Along World.step NoData World.init moves :=
  Quiet.init.owned_iff moves

/-- The second client gets the address of the first, and the thread of the first deletes it. -/
theorem threads_not_owned :
    let accept : List Move := List.replicate 3 (.server ⟨true, some 7, false, true⟩)
    let serve : List Move := List.replicate 4 (.process 0 ⟨true, 16, true, 0⟩)
    ∃ w, (accept ++ serve ++ accept ++ serve).foldlM World.step World.init = .ok w ∧
      ⟨.process 0, .del, 0, 1⟩ ∈ w.uses ∧ ¬ Owned w := by
  refine ⟨_, rfl, by decide, fun h => ?_⟩
  have hfound := h.found ⟨.process 0, .del, 0, 1⟩ (by decide)
  cases hfound

end CompileService.Http
