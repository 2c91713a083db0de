import CompileService.Server.Lemmas.Books

/-!
# The descriptors of a server

The server holds the listening descriptor in `fd` and one descriptor for each client. All are closed exactly once as
long as `TcpServer_Start` does not overwrite an open descriptor, `TcpServer_Stop` does not close one for the second
time, and every accepted connection gets a client.
-/

namespace CompileService.Server

open CompileService.Base

namespace Desk

def books (d : Desk) : Books := ⟨d.work.server, d.fds⟩

/-- What `accept` can return while `i` is visited: -1 unless a listener is installed, or a descriptor that is not open,
if the listening descriptor is. -/
def AcceptKernel (p : Pass) (d : Desk) (i : Nat) : Prop :=
  ∀ k ∈ p.ready, i = (k : Nat) → d.work.server.fd = (k : Nat) →
    p.accept = -1 ∧ d.work.server.cb = false ∨
      0 ≤ p.accept ∧ Live d.fds d.work.server.fd ∧ ¬ Live d.fds p.accept

/-- What `accept` returns fits the table and gets a client. -/
def Serves (p : Pass) (d : Desk) (i : Nat) : Prop :=
  ∀ k ∈ p.ready, i = (k : Nat) → d.work.server.fd = (k : Nat) → 0 ≤ p.accept → p.accept < fdSize ∧ p.alloc ≠ none

/-- `socket` and `accept` return no descriptor that is open, and `accept` does not fail when a listener is installed. -/
def Kernel (d : Desk) : ServerOp → Prop
  | .start socket _ _ => d.work.server.valid = false → ¬ Live d.fds socket
  | .setListener _ => True
  | .enter => True
  | .pass p => d.work.server.valid = true → 0 < p.num →
      Along (visit p d.work.ret) (AcceptKernel p) d (List.range (d.work.ret + 1).toNat)
  | .stop => True

/-- `TcpServer_Start` finds no open descriptor in `fd`, and `TcpServer_Stop` none that is closed; the loop is entered
with a descriptor below `FD_SIZE`, and every accepted connection gets a descriptor below `FD_SIZE` and a client. -/
def Permits (d : Desk) : ServerOp → Prop
  | .start _ _ _ => d.work.server.valid = false → ¬ Live d.fds d.work.server.fd
  | .setListener _ => True
  | .enter => d.work.server.valid = true → 0 ≤ d.work.server.fd ∧ d.work.server.fd < fdSize
  | .pass p => d.work.server.valid = true → 0 < p.num →
      Along (visit p d.work.ret) (Serves p) d (List.range (d.work.ret + 1).toNat)
  | .stop => d.work.server.fd = -1 ∨ Live d.fds d.work.server.fd

structure Owning (d : Desk) : Prop where
  kept : d.books.Kept
  ret_lt : d.work.ret < fdSize

/-- Inside a pass the listening descriptor is open, unless the listener stopped the server. -/
structure Running (d : Desk) : Prop extends Owning d where
  listening : d.work.server.valid = true ∨ ¬ Live d.fds d.work.server.fd

variable {d d' : Desk} {p : Pass} {i : Nat} {max : Int} {k : Fin fdSize} {event : Event} {op : ServerOp}

/-! ### One visit -/

theorem callback_books (d : Desk) (stop : Bool) (k : Fin fdSize) (client : Option Client) (event : Event) :
    (d.callback stop k client event).books = if stop then d.books.stop else d.books := by
  cases stop with
  | false => simp [books, callback, Work.callback]
  | true => rfl

/-- The listener may stop the server, and a connection that is over is closed. -/
theorem dispatch_cases (p : Pass) (i : Nat) (k : Fin fdSize) (event : Event) (d : Desk) :
    ∃ d' stop, d.dispatch p i (k : Nat) event = .ok d' ∧ d'.work.ret = d.work.ret ∧
      (stop = true → (d.work.server.client k).isSome = true ∨ event = .conn) ∧
      (d'.books = (if stop then d.books.stop else d.books) ∨
        d'.books = Books.drop (if stop then d.books.stop else d.books) k) := by
  unfold dispatch
  simp only [slot_of_fin, Exec.ok_bind]
  split
  · rename_i hcall
    refine ⟨_, p.stop i, rfl, rfl, fun _ => ?_, .inl (callback_books _ _ _ _ _)⟩
    rcases hcall with hvalid | hconn | havail
    · unfold isValid at hvalid
      exact .inl (Bool.and_eq_true_iff.mp hvalid).1
    · exact .inr hconn
    · unfold available at havail
      split at havail
      · rename_i hsome
        exact .inl hsome
      · omega
  · cases hsome : (d.work.server.client k).isSome with
    | false => exact ⟨_, false, rfl, rfl, nofun, .inr rfl⟩
    | true =>
        refine ⟨_, p.stop i, rfl, rfl, fun _ => .inl rfl, .inr ?_⟩
        rw [← callback_books d (p.stop i) k (d.work.server.client k) .close]
        rfl

theorem Running.stopIf (h : Running d) {stop : Bool}
    (hstop : stop = true → (d.work.server.client k).isSome = true) :
    (if stop then d.books.stop else d.books).Kept ∧
      ((if stop then d.books.stop else d.books).server.valid = true ∨
        ¬ Live (if stop then d.books.stop else d.books).fds (if stop then d.books.stop else d.books).server.fd) := by
  cases stop with
  | false => exact ⟨h.kept, h.listening⟩
  | true =>
      have hvalid : d.work.server.valid = true := by
        by_contra hnot
        have hnone := h.kept.stopped (Bool.not_eq_true _ ▸ hnot) k
        have hsome := hstop rfl
        rw [show d.work.server.client k = none from hnone] at hsome
        cases hsome
      obtain ⟨hkept, hnone⟩ := h.kept.stop (.inr (h.kept.valid hvalid))
      exact ⟨hkept, .inr (hnone _)⟩

theorem Running.dispatch (h : Running d) (hconn : event = .conn → (d.work.server.client k).isSome = true) :
    ∃ d', d.dispatch p i (k : Nat) event = .ok d' ∧ Running d' := by
  obtain ⟨d', stop, hrun, hret, hstop, hbooks⟩ := dispatch_cases p i k event d
  obtain ⟨hkept, hlistening⟩ := h.stopIf fun hs => (hstop hs).elim id hconn
  have hlt : d'.work.ret < fdSize := hret ▸ h.ret_lt
  rcases hbooks with hbooks | hbooks
  · rw [← hbooks] at hkept hlistening
    exact ⟨d', hrun, ⟨⟨hkept, hlt⟩, hlistening⟩⟩
  · obtain ⟨hdrop, hlive⟩ := hkept.drop k
    have hlistening' := hlistening.imp_right fun hnot hl => hnot (hlive _ hl)
    rw [← hbooks] at hdrop
    refine ⟨d', hrun, ⟨⟨hdrop, hlt⟩, ?_⟩⟩
    show d'.books.server.valid = true ∨ ¬ Live d'.books.fds d'.books.server.fd
    rw [hbooks]
    exact hlistening'

theorem tidy_of_dispatch (hrun : d.dispatch p i (k : Nat) event = .ok d') (h : d'.books.Tidy) : d.books.Tidy := by
  obtain ⟨d₁, stop, hrun₁, _, _, hbooks⟩ := dispatch_cases p i k event d
  obtain rfl := Except.ok.inj (hrun.symm.trans hrun₁)
  have hstop : (if stop then d.books.stop else d.books).Tidy := by
    rcases hbooks with hbooks | hbooks
    · rwa [← hbooks]
    · rw [hbooks] at h
      exact h.of_drop
  cases stop with
  | false => exact hstop
  | true => exact hstop.of_stop

theorem visit_idle (h : k ∉ p.ready) : d.visit p max k = .ok d := by
  simp only [visit, slot_of_fin, Exec.ok_bind, h, if_false]
  rfl

theorem visit_data (h : k ∈ p.ready) (hfd : ((k : Nat) : Int) ≠ d.work.server.fd) :
    d.visit p max k = if d.work.server.cb then d.dispatch p k (k : Nat) .data else .ok d := by
  simp only [visit, slot_of_fin, Exec.ok_bind, h, if_true, hfd, if_false]
  rfl

/-- The desk after `accept` returned `j`. -/
def accepted (p : Pass) (max : Int) (d : Desk) (j : Fin fdSize) : Desk :=
  ⟨d.work.accepted max j (fromFd p.alloc (j : Nat)), d.fds ++ openedFd (j : Nat)⟩

theorem visit_accept {j : Fin fdSize} (h : k ∈ p.ready) (hfd : d.work.server.fd = (k : Nat))
    (hj : p.accept = (j : Nat)) : d.visit p max k =
      if d.work.server.cb then (d.accepted p max j).dispatch p k (j : Nat) .conn else .ok (d.accepted p max j) := by
  simp only [visit, slot_of_fin, Exec.ok_bind, h, if_true, hfd, acceptClient, Work.acceptClient_eq hj]
  rfl

theorem visit_refused (h : k ∈ p.ready) (hfd : d.work.server.fd = (k : Nat)) (hacc : p.accept = -1)
    (hcb : d.work.server.cb = false) : d.visit p max k = .ok d := by
  have hpos : ¬ -1 < (-1 : Int) := by decide
  simp only [visit, slot_of_fin, Exec.ok_bind, h, if_true, hfd, acceptClient, Work.acceptClient, hacc, hpos, if_false,
    openedFd, List.append_nil]
  show (if d.work.server.cb then _ else _) = _
  rw [hcb]
  rfl

theorem exists_fin {x : Int} (hlo : 0 ≤ x) (hhi : x < fdSize) : ∃ j : Fin fdSize, x = (j : Nat) :=
  ⟨⟨x.toNat, by omega⟩, (Int.toNat_of_nonneg hlo).symm⟩

theorem Running.visit (h : Running d) (hmax : max < fdSize) (hi : i < fdSize) (hk : AcceptKernel p d i)
    (hp : Serves p d i) : ∃ d', d.visit p max i = .ok d' ∧ Running d' := by
  obtain ⟨k, rfl⟩ : ∃ k : Fin fdSize, i = k := ⟨⟨i, hi⟩, rfl⟩
  by_cases hready : k ∈ p.ready
  · by_cases hfd : d.work.server.fd = (k : Nat)
    · rcases hk k hready rfl hfd with ⟨hacc, hcb⟩ | ⟨hacc, hlive, hfresh⟩
      · exact ⟨d, visit_refused hready hfd hacc hcb, h⟩
      · obtain ⟨hlt, halloc⟩ := hp k hready rfl hfd hacc
        obtain ⟨j, hj⟩ := exists_fin hacc hlt
        obtain ⟨addr, haddr⟩ := Option.ne_none_iff_exists'.mp halloc
        have hvalid : d.work.server.valid = true := h.listening.resolve_right (not_not.mpr hlive)
        have hkept : (d.accepted p max j).books.Kept := by
          have hclient : fromFd p.alloc (j : Nat) = some ⟨addr, (j : Nat)⟩ := by rw [haddr]; rfl
          show Books.Kept (d.books.enroll j (fromFd p.alloc (j : Nat)))
          rw [hclient]
          exact h.kept.enroll hvalid (hj ▸ hfresh)
        have hrunning : Running (d.accepted p max j) :=
          ⟨⟨hkept, (Work.accepted_ret _ hmax).2.2⟩, .inl hvalid⟩
        have hclient : ((d.accepted p max j).work.server.client j).isSome = true := by
          simp [accepted, Work.accepted, TcpServer.setClient, haddr, fromFd]
        rw [visit_accept hready hfd hj]
        split
        · exact hrunning.dispatch fun _ => hclient
        · exact ⟨_, rfl, hrunning⟩
    · rw [visit_data hready (Ne.symm hfd)]
      split
      · exact h.dispatch fun heq => absurd heq (by decide)
      · exact ⟨d, rfl, h⟩
  · exact ⟨d, visit_idle hready, h⟩

theorem tidy_of_accepted {j : Fin fdSize} (hfresh : ¬ Live d.fds (j : Nat)) (h : (d.accepted p max j).books.Tidy) :
    d.books.Tidy := by
  refine Books.Tidy.of_enroll (k := j) (c := fromFd p.alloc (j : Nat)) h hfresh fun c hc => ?_
  obtain ⟨addr, _, rfl⟩ := Option.map_eq_some_iff.mp hc
  rfl

theorem exists_accepted (hready : k ∈ p.ready) (hfd : d.work.server.fd = (k : Nat)) (hacc : 0 ≤ p.accept)
    (hrun : d.visit p max k = .ok d') : ∃ j : Fin fdSize, p.accept = (j : Nat) ∧
      (d'.books.Tidy → (d.accepted p max j).books.Tidy) := by
  obtain ⟨j, hj⟩ : ∃ j : Fin fdSize, p.accept = (j : Nat) := by
    by_cases hlt : p.accept < fdSize
    · exact exists_fin hacc hlt
    · have hslot : slot p.accept = .error .bounds := dif_neg fun hx => hlt hx.2
      have hpos : -1 < p.accept := by omega
      simp only [visit, slot_of_fin, Exec.ok_bind, hready, if_true, hfd, acceptClient, Work.acceptClient, hpos,
        hslot, Exec.error_bind] at hrun
      cases hrun
  refine ⟨j, hj, fun h => ?_⟩
  rw [visit_accept hready hfd hj] at hrun
  split at hrun
  · exact tidy_of_dispatch hrun h
  · rwa [Except.ok.inj hrun]

theorem tidy_of_visit (hk : AcceptKernel p d i) (hrun : d.visit p max i = .ok d') (h : d'.books.Tidy) :
    d.books.Tidy := by
  obtain ⟨k, hslot, _⟩ := Exec.bind_eq_ok.mp hrun
  obtain rfl : i = (k : Nat) := Int.ofNat.inj (slot_eq_ok hslot)
  by_cases hready : k ∈ p.ready
  · by_cases hfd : d.work.server.fd = (k : Nat)
    · rcases hk k hready rfl hfd with ⟨hacc, hcb⟩ | ⟨hacc, _, hfresh⟩
      · rw [visit_refused hready hfd hacc hcb] at hrun
        rwa [Except.ok.inj hrun]
      · obtain ⟨j, hj, htidy⟩ := exists_accepted hready hfd hacc hrun
        exact tidy_of_accepted (hj ▸ hfresh) (htidy h)
    · rw [visit_data hready (Ne.symm hfd)] at hrun
      split at hrun
      · exact tidy_of_dispatch hrun h
      · rwa [Except.ok.inj hrun]
  · rw [visit_idle hready] at hrun
    rwa [Except.ok.inj hrun]

theorem serves_of_visit (hd : Running d) (hk : AcceptKernel p d i) (hrun : d.visit p max i = .ok d')
    (h : d'.books.Tidy) : Serves p d i := by
  rintro k hready rfl hfd hacc
  rcases hk k hready rfl hfd with ⟨hneg, _⟩ | ⟨_, hlive, hfresh⟩
  · omega
  · obtain ⟨j, hj, htidy⟩ := exists_accepted hready hfd hacc hrun
    refine ⟨by rw [hj]; exact Int.ofNat_lt.mpr j.isLt, fun halloc => ?_⟩
    have hlost := hd.kept.not_tidy_enroll (k := j) hlive (hj ▸ hfresh)
    have hgood := htidy h
    simp only [accepted, halloc, fromFd, Option.map_none] at hgood
    exact hlost hgood

/-! ### One operation -/

theorem along_range (h : Along (Desk.visit p max) (AcceptKernel p) d (List.range (max + 1).toNat))
    (hmax : max < fdSize) : Along (Desk.visit p max) (fun d i => AcceptKernel p d i ∧ i < fdSize) d
      (List.range (max + 1).toNat) := by
  refine h.and (Along.of_forall (fun _ i hi => ?_) d)
  have := List.mem_range.mp hi
  omega

theorem Owning.pass (h : Owning d) (hk : Kernel d (.pass p)) (hp : Permits d (.pass p)) :
    ∃ d', d.pass p = .ok d' ∧ Owning d' := by
  unfold Desk.pass
  split
  · rename_i hrun
    have hrunning : Running d := ⟨h, .inl hrun.1⟩
    obtain ⟨d', hd', hrunning'⟩ := ((along_range (hk hrun.1 hrun.2) h.ret_lt).and (hp hrun.1 hrun.2)).run
      (fun _ _ hd hkp => hd.visit h.ret_lt hkp.1.2 hkp.1.1 hkp.2) hrunning
    exact ⟨d', hd', hrunning'.toOwning⟩
  · exact ⟨d, rfl, h⟩

theorem tidy_of_visits (hk : Along (Desk.visit p max) (AcceptKernel p) d (List.range (max + 1).toNat))
    (hrun : (List.range (max + 1).toNat).foldlM (Desk.visit p max) d = .ok d') (h : d'.books.Tidy) :
    d.books.Tidy ∧ Always (Desk.visit p max) (fun d => d.books.Tidy) d (List.range (max + 1).toNat) :=
  hk.always_of_last (fun _ _ _ hk hrun hd => tidy_of_visit hk hrun hd) hrun h

theorem tidy_of_pass (hk : Kernel d (.pass p)) (hrun : d.pass p = .ok d') (h : d'.books.Tidy) : d.books.Tidy := by
  unfold Desk.pass at hrun
  split at hrun
  · rename_i hvalid
    exact (tidy_of_visits (hk hvalid.1 hvalid.2) hrun h).1
  · rwa [Except.ok.inj hrun]

theorem permits_of_pass (hd : Owning d) (hk : Kernel d (.pass p)) (hrun : d.pass p = .ok d') (h : d'.books.Tidy) :
    Permits d (.pass p) := by
  intro hvalid hnum
  rw [Desk.pass, if_pos ⟨hvalid, hnum⟩] at hrun
  have halways := (tidy_of_visits (hk hvalid hnum) hrun h).2
  have hrunning : Running d := ⟨hd, .inl hvalid⟩
  exact (always_iff_within (fun d (h : Running d) => h.kept.tidy)
    (fun _ _ h hk hp => h.visit hd.ret_lt hk.2 hk.1 hp) (fun _ _ _ h hk hrun hgood => serves_of_visit h hk.1 hrun hgood)
    hrunning (along_range (hk hvalid hnum) hd.ret_lt)).mp halways

theorem Owning.enter (hd : Owning d) (hp : Permits d .enter) : ∃ d', d.enter = .ok d' ∧ Owning d' := by
  unfold Desk.enter
  split
  · rename_i hvalid
    obtain ⟨hlo, hhi⟩ := hp hvalid
    obtain ⟨k, hfd⟩ := exists_fin hlo hhi
    refine ⟨⟨⟨d.work.server, {k}, d.work.server.fd, []⟩, d.fds⟩, ?_, hd.kept, hhi⟩
    simp only [TcpServer.enter, hfd, slot_of_fin, Exec.ok_bind]
    rw [← hfd]
    rfl
  · exact ⟨d, rfl, hd⟩

/-- Entering the loop leaves the books alone. -/
theorem enter_ok (hrun : d.enter = .ok d') : d'.books = d.books ∧ Permits d .enter := by
  unfold Desk.enter at hrun
  split at hrun
  · obtain ⟨w, henter, hret⟩ := Exec.bind_eq_ok.mp hrun
    obtain rfl := Except.ok.inj hret
    obtain ⟨k, hslot, hw⟩ := Exec.bind_eq_ok.mp henter
    obtain rfl := Except.ok.inj hw
    exact ⟨rfl, fun _ => slot_range hslot⟩
  · rename_i hvalid
    obtain rfl := Except.ok.inj hrun
    exact ⟨rfl, fun h => absurd h hvalid⟩

theorem Owning.step (hd : Owning d) (hk : Kernel d op) (hp : Permits d op) :
    ∃ d', d.step op = .ok d' ∧ Owning d' := by
  cases op with
  | start socket bind listen => exact ⟨_, rfl, hd.kept.start bind listen hk hp, hd.ret_lt⟩
  | setListener listener =>
      obtain ⟨hturns, hneg, hlive, hclient, hvalid, hstopped⟩ := hd.kept
      exact ⟨_, rfl, ⟨hturns, hneg, hlive, hclient, hvalid, hstopped⟩, hd.ret_lt⟩
  | enter => exact hd.enter hp
  | pass p => exact hd.pass hk hp
  | stop => exact ⟨_, rfl, (hd.kept.stop hp).1, hd.ret_lt⟩

theorem tidy_of_step (hk : Kernel d op) (hrun : d.step op = .ok d') (h : d'.books.Tidy) : d.books.Tidy := by
  cases op with
  | start socket bind listen =>
      obtain rfl := Except.ok.inj hrun
      exact Books.Tidy.of_start (b := d.books) h hk
  | setListener listener =>
      obtain rfl := Except.ok.inj hrun
      exact ⟨h.turns, h.found⟩
  | enter => exact (enter_ok hrun).1 ▸ h
  | pass p => exact tidy_of_pass hk hrun h
  | stop =>
      obtain rfl := Except.ok.inj hrun
      exact Books.Tidy.of_stop (b := d.books) h

theorem permits_of_step (hd : Owning d) (hk : Kernel d op) (hrun : d.step op = .ok d') (h : d'.books.Tidy) :
    Permits d op := by
  cases op with
  | start socket bind listen =>
      obtain rfl := Except.ok.inj hrun
      exact fun hvalid => hd.kept.not_live_of_start hk h hvalid
  | setListener listener => trivial
  | enter => exact (enter_ok hrun).2
  | pass p => exact permits_of_pass hd hk hrun h
  | stop =>
      obtain rfl := Except.ok.inj hrun
      by_cases hfd : d.work.server.fd = -1
      · exact .inl hfd
      · exact .inr (Books.live_of_stop (b := d.books) h hfd)

/-! ### All runs -/

theorem Owning.init : Owning init := ⟨.new, by decide⟩

/-- For operations that end with `TcpServer_Del`, a `TcpServer_Stop` and a `free`: every descriptor is closed exactly
once, and none that is not open, if and only if no `TcpServer_Start` overwrites an open listening descriptor, no
`TcpServer_Stop` finds one that is closed already, and every accepted connection gets a client. -/
theorem descriptors_balanced_iff {ops : List ServerOp} (hk : Along step Kernel init (ops ++ [ServerOp.stop])) :
    (∃ d, (ops ++ [ServerOp.stop]).foldlM step init = .ok d ∧ Balanced d.fds) ↔
      Along step Permits init (ops ++ [ServerOp.stop]) := by
  constructor
  · rintro ⟨d, hrun, hbalanced⟩
    obtain ⟨hturns, hnone⟩ := Base.balanced_iff.mp hbalanced
    have htidy : d.books.Tidy := ⟨hturns, fun x hx => absurd hx (hnone x)⟩
    have halways : Always step (fun d => d.books.Tidy) init (ops ++ [ServerOp.stop]) :=
      (hk.always_of_last (fun _ _ _ hk hrun h => tidy_of_step hk hrun h) hrun htidy).2
    exact (always_iff_within (fun _ (h : Owning _) => h.kept.tidy) (fun _ _ => Owning.step)
      (fun _ _ _ => permits_of_step) Owning.init hk).mp halways
  · intro hp
    obtain ⟨d, hrun, hd⟩ := ((hk.initial (List.prefix_append ops _)).and (hp.initial (List.prefix_append ops _))).run
      (fun _ _ h hkp => h.step hkp.1 hkp.2) Owning.init
    obtain ⟨hkept, hnone⟩ := hd.kept.stop (hp.last hrun)
    refine ⟨⟨{ d.work with server := d.work.server.stop }, d.fds ++ d.work.server.stopFds⟩, ?_,
      Base.balanced_iff.mpr ⟨hkept.turns, hnone⟩⟩
    rw [List.foldlM_append, hrun]
    rfl

/-- A connection is accepted and the server deleted. -/
def serving : List ServerOp := [.start 3 true true, .setListener true, .enter, .pass (.accepting 4)]

theorem balanced_serving : ∃ d, (serving ++ [ServerOp.stop]).foldlM step init = .ok d ∧ Balanced d.fds := by
  let d₁ : Desk := ⟨⟨TcpServer.new.start 3 true true, ∅, 0, []⟩, [.opened 3]⟩
  let d₂ : Desk := ⟨⟨TcpServer.listening, ∅, 0, []⟩, [.opened 3]⟩
  let d₃ : Desk := ⟨⟨TcpServer.listening, {3}, 3, []⟩, [.opened 3]⟩
  have hstart : init.step (.start 3 true true) = .ok d₁ := rfl
  have hset : d₁.step (.setListener true) = .ok d₂ := rfl
  have henter : d₂.step .enter = .ok d₃ := rfl
  obtain ⟨d₄, hpass, hfds, hfd⟩ : ∃ d₄, d₃.step (.pass (.accepting 4)) = .ok d₄ ∧ d₄.fds = [.opened 3, .opened 4] ∧
      d₄.work.server.fd = 3 := ⟨_, rfl, rfl, rfl⟩
  have halong : ∀ {P : Desk → ServerOp → Prop}, P init (.start 3 true true) → P d₁ (.setListener true) → P d₂ .enter →
      P d₃ (.pass (.accepting 4)) → P d₄ .stop → Along step P init (serving ++ [ServerOp.stop]) := by
    intro P h₁ h₂ h₃ h₄ h₅
    exact .cons h₁ hstart (.cons h₂ hset (.cons h₃ henter (.cons h₄ hpass ⟨h₅, fun _ _ => trivial⟩)))
  have hvisits : ∀ {P : Desk → Nat → Prop}, (∀ i ≤ 3, P d₃ i) →
      Along (Desk.visit (.accepting 4) 3) P d₃ (List.range 4) := by
    intro P h
    have hidle : ∀ k : Fin fdSize, (k : Nat) < 3 → d₃.visit (.accepting 4) 3 (k : Nat) = .ok d₃ := by
      intro k hk
      have hready : k ∉ (Pass.accepting 4).ready := by
        rw [Pass.accepting, Finset.mem_singleton]
        exact fun heq => absurd (congrArg Fin.val heq) (Nat.ne_of_lt hk)
      exact visit_idle hready
    exact .cons (h 0 (by decide)) (hidle ⟨0, by decide⟩ (by decide)) (.cons (h 1 (by decide))
      (hidle ⟨1, by decide⟩ (by decide)) (.cons (h 2 (by decide)) (hidle ⟨2, by decide⟩ (by decide))
        ⟨h 3 (by decide), fun _ _ => trivial⟩))
  have hk : Along step Kernel init (serving ++ [ServerOp.stop]) :=
    halong (fun _ => by decide) trivial trivial
      (fun _ _ => hvisits fun _ _ _ _ _ _ => .inr ⟨by decide, by decide, by decide⟩) trivial
  refine (descriptors_balanced_iff hk).mpr (halong (fun _ => by decide) trivial (fun _ => by decide) ?_ (.inr ?_))
  · exact fun _ _ => hvisits fun _ _ _ _ _ _ _ => ⟨by decide, by decide⟩
  · rw [hfds, hfd]
    decide

theorem stopFds_of_none {s : TcpServer} (h : ∀ k, s.client k = none) : s.stopFds = closedFd s.fd := by
  have hnone : ((List.finRange fdSize).flatMap fun k => delFds (s.client k)) = [] :=
    List.flatMap_eq_nil_iff.mpr fun k _ => by rw [h k]; rfl
  rw [TcpServer.stopFds, hnone, List.append_nil]

def stopped : List ServerOp := [.start 3 true true, .stop]

/-- A server that is stopped and then deleted: its descriptor is closed for the second time. -/
theorem not_balanced_stopped : Along step Kernel init (stopped ++ [ServerOp.stop]) ∧
    ¬ ∃ d, (stopped ++ [ServerOp.stop]).foldlM step init = .ok d ∧ Balanced d.fds := by
  let d₁ : Desk := ⟨⟨TcpServer.new.start 3 true true, ∅, 0, []⟩, [.opened 3]⟩
  let d₂ : Desk := ⟨⟨(TcpServer.new.start 3 true true).stop, ∅, 0, []⟩, [.opened 3, .closed 3]⟩
  let d₃ : Desk := ⟨⟨(TcpServer.new.start 3 true true).stop.stop, ∅, 0, []⟩, [.opened 3, .closed 3, .closed 3]⟩
  have hstart : init.step (.start 3 true true) = .ok d₁ := rfl
  have hstop : d₁.step .stop = .ok d₂ := by
    simp only [step, stopFds_of_none (s := d₁.work.server) fun _ => rfl]
    rfl
  have hdel : d₂.step .stop = .ok d₃ := by
    simp only [step, stopFds_of_none (s := d₂.work.server) fun _ => rfl]
    rfl
  have hrun : (stopped ++ [ServerOp.stop]).foldlM step init = .ok d₃ := by
    show [ServerOp.start 3 true true, .stop, .stop].foldlM step init = .ok d₃
    rw [foldlM_cons_ok _ hstart, foldlM_cons_ok _ hstop, foldlM_cons_ok _ hdel]
    rfl
  refine ⟨⟨fun _ => by decide, fun _ _ => ⟨trivial, fun _ _ => ⟨trivial, fun _ _ => trivial⟩⟩⟩, ?_⟩
  rintro ⟨d, hd, hbalanced⟩
  obtain rfl := Except.ok.inj (hrun.symm.trans hd)
  exact absurd (hbalanced.settled 3) (by decide)

end Desk

end CompileService.Server
