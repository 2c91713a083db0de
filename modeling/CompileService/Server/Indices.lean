import CompileService.Server.TcpServer
import CompileService.Base.Run

/-!
# Table indices in the server loop

`SelectHandler` uses the result of `accept` as an index, also when `accept` failed. With a listener installed, a run
of `TcpServer_DoWork` stays inside the client table and the descriptor sets if and only if every `accept` in it
returns a descriptor below `FD_SIZE`.
-/

namespace CompileService.Server

open CompileService.Base

namespace Work

section
variable {w : Work} {stop : Bool} {k : Fin fdSize} {c : Option Client} {e : Event}

@[simp] theorem callback_fd : (w.callback stop k c e).server.fd = w.server.fd := by
  cases stop with
  | false => rfl
  | true => rfl

@[simp] theorem callback_cb : (w.callback stop k c e).server.cb = w.server.cb := by
  cases stop with
  | false => rfl
  | true => rfl

@[simp] theorem callback_ret : (w.callback stop k c e).ret = w.ret := rfl

end

structure Listening (F : Fin fdSize) (w : Work) : Prop where
  fd : w.server.fd = (F : Nat)
  cb : w.server.cb = true
  fd_le : ((F : Nat) : Int) ≤ w.ret
  ret_lt : w.ret < fdSize

/-- If the pass comes to accept a connection, then `accept` returns a descriptor below `FD_SIZE`. -/
def AcceptOk (w : Work) (p : Pass) : Prop :=
  w.server.valid = true → 0 < p.num → ∀ k ∈ p.ready, w.server.fd = (k : Nat) →
    0 ≤ p.accept ∧ p.accept < fdSize

variable {F k : Fin fdSize} {p : Pass} {w w' : Work} {max : Int}

theorem dispatch_listening (h : Listening F w) (i : Nat) (event : Event) :
    ∃ w', dispatch p i (k : Nat) event w = .ok w' ∧ Listening F w' := by
  unfold dispatch
  simp only [slot_of_fin, Exec.ok_bind]
  split
  · exact ⟨_, rfl, by simpa using h.fd, by simpa using h.cb, h.fd_le, h.ret_lt⟩
  · cases hc : (w.server.client k).isSome with
    | false => exact ⟨_, rfl, h.fd, h.cb, h.fd_le, h.ret_lt⟩
    | true =>
        refine ⟨_, rfl, ?_, ?_, h.fd_le, h.ret_lt⟩
        · simpa [TcpServer.setClient] using h.fd
        · simpa [TcpServer.setClient] using h.cb

def accepted (w : Work) (max : Int) (k : Fin fdSize) (c : Option Client) : Work :=
  { w with
    reads := insert k w.reads
    ret := if max < (k : Nat) then (k : Nat) else max
    server := w.server.setClient k c }

theorem acceptClient_eq (hk : p.accept = (k : Nat)) :
    w.acceptClient p max = .ok ((k : Nat), .conn, w.accepted max k (fromFd p.alloc (k : Nat))) := by
  have hpos : -1 < ((k : Nat) : Int) := by omega
  unfold acceptClient
  rw [hk]
  simp only
  rw [if_pos hpos, slot_of_fin, Exec.ok_bind]
  rfl

theorem accepted_ret (c : Option Client) (hhi : max < fdSize) :
    max ≤ (w.accepted max k c).ret ∧ ((k : Nat) : Int) ≤ (w.accepted max k c).ret ∧
      (w.accepted max k c).ret < fdSize := by
  have hk := k.isLt
  unfold accepted
  simp only
  split
  · omega
  · omega

theorem accepted_listening (hlo : ((F : Nat) : Int) ≤ max) (hhi : max < fdSize) (h : Listening F w)
    (c : Option Client) : Listening F (w.accepted max k c) := by
  obtain ⟨hmax, _, hlt⟩ := accepted_ret (w := w) (k := k) c hhi
  exact ⟨h.fd, h.cb, Int.le_trans hlo hmax, hlt⟩

theorem visit_listening (hlo : ((F : Nat) : Int) ≤ max) (hhi : max < fdSize) (h : Listening F w)
    (hok : k = F → F ∈ p.ready → 0 ≤ p.accept ∧ p.accept < fdSize) :
    ∃ w', visit p max w k = .ok w' ∧ Listening F w' := by
  by_cases hready : k ∈ p.ready
  · by_cases hkF : k = F
    · subst hkF
      obtain ⟨hacc, hlt⟩ := hok rfl hready
      obtain ⟨j, hj⟩ : ∃ j : Fin fdSize, p.accept = (j : Nat) :=
        ⟨⟨p.accept.toNat, by omega⟩, (Int.toNat_of_nonneg hacc).symm⟩
      have hw := accepted_listening (k := j) hlo hhi h (fromFd p.alloc (j : Nat))
      rw [visit_accept hready h.fd, acceptClient_eq hj, Exec.ok_bind]
      simp only [hw.cb, if_true]
      exact dispatch_listening hw k .conn
    · have hne : ((k : Nat) : Int) ≠ w.server.fd := by
        rw [h.fd]
        exact fun heq => hkF (Fin.ext (Int.ofNat.inj heq))
      rw [visit_data hready hne h.cb]
      exact dispatch_listening h k .data
  · exact ⟨w, visit_idle hready, h⟩

theorem accept_range_of_visit (h : Listening F w) (hready : F ∈ p.ready) (hok : visit p max w F = .ok w') :
    0 ≤ p.accept ∧ p.accept < fdSize := by
  rw [visit_accept hready h.fd] at hok
  obtain ⟨⟨index, event, w₁⟩, hacc, hrest⟩ := Exec.bind_eq_ok.mp hok
  unfold acceptClient at hacc
  simp only at hacc
  split at hacc
  · obtain ⟨j, hj, _⟩ := Exec.bind_eq_ok.mp hacc
    exact slot_range hj
  · -- the failed `accept` leaves -1 as the index of the client
    rename_i hneg
    cases hacc
    rw [if_pos h.cb] at hrest
    obtain ⟨j, hj, _⟩ := Exec.bind_eq_ok.mp hrest
    exact absurd (slot_range hj).1 (by omega)

/-! ## A pass -/

theorem fin_of_mem_range (h : Listening F w) {i : Nat} (hi : i ∈ List.range (w.ret + 1).toNat) :
    ∃ k : Fin fdSize, i = (k : Nat) := by
  have hlt := List.mem_range.mp hi
  have hret := h.ret_lt
  exact ⟨⟨i, by omega⟩, rfl⟩

theorem visit_step (h : Listening F w) : ∀ w₁, ∀ i ∈ List.range (w.ret + 1).toNat, Listening F w₁ →
    (i = F → F ∈ p.ready → 0 ≤ p.accept ∧ p.accept < fdSize) →
      ∃ w', visit p w.ret w₁ i = .ok w' ∧ Listening F w' := by
  intro w₁ i hi hw₁ hok
  obtain ⟨k, rfl⟩ := fin_of_mem_range h hi
  exact visit_listening h.fd_le h.ret_lt hw₁ (fun hk => hok (congrArg Fin.val hk))

theorem selectHandler_listening (h : Listening F w)
    (hok : F ∈ p.ready → 0 ≤ p.accept ∧ p.accept < fdSize) :
    ∃ w', w.selectHandler p = .ok w' ∧ Listening F w' :=
  run_of_forall (visit_step h) h (fun _ _ _ => hok)

theorem accept_range_of_selectHandler (h : Listening F w) (hok : w.selectHandler p = .ok w')
    (hready : F ∈ p.ready) : 0 ≤ p.accept ∧ p.accept < fdSize := by
  have hF : (F : Nat) ∈ List.range (w.ret + 1).toNat := by
    have hfd := h.fd_le
    exact List.mem_range.mpr (by omega)
  refine forall_of_run (visit_step h) (fun w₁ w₂ i _ hw₁ hvisit => ?_) h hok F hF rfl hready
  rintro rfl hF'
  exact accept_range_of_visit hw₁ hF' hvisit

theorem pass_listening (h : Listening F w) (hok : AcceptOk w p) :
    ∃ w', w.pass p = .ok w' ∧ Listening F w' := by
  unfold pass
  split
  · rename_i hrun
    exact selectHandler_listening h (fun hF => hok hrun.1 hrun.2 F hF h.fd)
  · exact ⟨w, rfl, h⟩

theorem acceptOk_of_pass (h : Listening F w) (hok : w.pass p = .ok w') : AcceptOk w p := by
  intro hvalid hnum k hk hfd
  rw [pass, if_pos ⟨hvalid, hnum⟩] at hok
  have hkF : k = F := Fin.ext (Int.ofNat.inj (hfd.symm.trans h.fd))
  subst hkF
  exact accept_range_of_selectHandler h hok hk

end Work

theorem TcpServer.enter_listening {s : TcpServer} {w : Work} (hcb : s.cb = true) (henter : s.enter = .ok w) :
    ∃ F, Work.Listening F w := by
  obtain ⟨F, hslot, hret⟩ := Exec.bind_eq_ok.mp henter
  have hfd := slot_eq_ok hslot
  obtain rfl := Except.ok.inj hret
  exact ⟨F, hfd, hcb, Int.le_of_eq hfd.symm, (slot_range hslot).2⟩

/-- With a listener installed, `TcpServer_DoWork` uses only indices below `FD_SIZE` if and only if the listening
descriptor is one and every `accept` in the run returns one. -/
theorem TcpServer.doWork_indices_iff {s : TcpServer} (hcb : s.cb = true) (passes : List Pass) :
    (∃ s', s.doWork passes = .ok s') ↔
      (s.valid = true → ∃ w, s.enter = .ok w ∧ Along Work.pass Work.AcceptOk w passes) := by
  have hiff : ∀ w, s.enter = .ok w →
      ((∃ w', passes.foldlM Work.pass w = .ok w') ↔ Along Work.pass Work.AcceptOk w passes) := by
    intro w henter
    obtain ⟨F, hw⟩ := enter_listening hcb henter
    exact exists_run_iff (fun _ _ => Work.pass_listening) (fun _ _ _ => Work.acceptOk_of_pass) hw passes
  unfold doWork
  constructor
  · rintro ⟨s', hrun⟩ hvalid
    rw [if_pos hvalid] at hrun
    obtain ⟨w, henter, hrun⟩ := Exec.bind_eq_ok.mp hrun
    obtain ⟨w', hw', _⟩ := Exec.bind_eq_ok.mp hrun
    exact ⟨w, henter, (hiff w henter).mp ⟨w', hw'⟩⟩
  · intro h
    split
    · rename_i hvalid
      obtain ⟨w, henter, halong⟩ := h hvalid
      obtain ⟨w', hw'⟩ := (hiff w henter).mpr halong
      exact ⟨w'.server, by rw [henter, Exec.ok_bind, hw']; rfl⟩
    · exact ⟨s, rfl⟩

def TcpServer.listening : TcpServer := (TcpServer.new.start 3 true true).setListener true

def Pass.accepting (index : Int) : Pass where
  num := 1
  ready := {3}
  accept := index
  alloc := some 0
  isValid := fun _ => true
  available := fun _ => 0
  stop := fun _ => false

theorem TcpServer.doWork_indices_accept : ∃ s', TcpServer.listening.doWork [.accepting 4] = .ok s' := by
  have henter : TcpServer.listening.enter = .ok ⟨TcpServer.listening, {3}, 3, []⟩ := rfl
  refine (TcpServer.doWork_indices_iff rfl [.accepting 4]).mpr fun _ => ⟨_, henter, ?_, fun _ _ => trivial⟩
  intro _ _ _ _ _
  exact ⟨by decide, by decide⟩

/-- A connection that is gone when `accept` gets to it. -/
theorem TcpServer.doWork_accept_fails : ¬ ∃ s', TcpServer.listening.doWork [.accepting (-1)] = .ok s' := by
  rintro ⟨s', hrun⟩
  obtain ⟨w, henter, hrest⟩ := Exec.bind_eq_ok.mp hrun
  obtain rfl := Except.ok.inj henter
  obtain ⟨w', hpasses, _⟩ := Exec.bind_eq_ok.mp hrest
  rw [List.foldlM_cons] at hpasses
  obtain ⟨w₁, hpass, _⟩ := Exec.bind_eq_ok.mp hpasses
  have hlistening : Work.Listening 3 ⟨TcpServer.listening, {3}, 3, []⟩ :=
    ⟨rfl, rfl, by decide, by decide⟩
  have hok := Work.acceptOk_of_pass hlistening hpass rfl (by decide) 3 (by decide) rfl
  exact absurd hok.1 (by decide)

end CompileService.Server
