import CompileService.Server.Indices
import CompileService.Base.Sessions

/-!
# Clients and events of the server loop

With a listener that leaves clients and server alone, and an `accept` that returns only descriptors that are not
open, the set of watched descriptors, the client table and `max` agree after every pass, and the events of each
descriptor form sessions of one client each. A pass works on a snapshot of the ready descriptors; the part of it
that is still to be visited stays accurate (`Pending`), since a visit closes only the descriptor it is at.
-/

namespace CompileService.Server

open CompileService.Base

/-! ## What is promised and what follows -/

namespace Work

def events (w : Work) (d : Fin fdSize) : List (Event × Option Client) :=
  (w.log.filter fun call => call.index = d).map fun call => (call.event, call.client)

/-- `a` is a descriptor below `FD_SIZE` that is neither the listening one nor that of a client. -/
structure Fresh (w : Work) (a : Int) : Prop where
  nonneg : 0 ≤ a
  lt : a < fdSize
  ne_fd : a ≠ w.server.fd
  ne_client : ∀ k c, w.server.client k = some c → c.fd ≠ a

/-- What a pass may do: only watched descriptors are ready, the listener does not stop the server,
`TcpClient_From` succeeds, and `accept` returns a descriptor that is not open when the loop gets there. -/
structure Permitted (w : Work) (p : Pass) : Prop where
  ready : p.ready ⊆ w.reads
  stop : ∀ i, p.stop i = false
  alloc : p.alloc ≠ none
  accept : ∀ k ∈ p.ready, w.server.fd = (k : Nat) → ∀ w',
    (List.range k).foldlM (visit p w.ret) w = .ok w' → Fresh w' p.accept

/-- The watched descriptors are the listening one and those in the client table, a client is filed under its
descriptor, `max` bounds what is watched, and the events of each descriptor are a prefix of
`(EVT_CONN EVT_DATA* EVT_CLOSE)*`, each session with one client. -/
structure Consistent (w : Work) : Prop where
  reads_iff : ∀ k, k ∈ w.reads ↔ w.server.fd = (k : Nat) ∨ w.server.client k ≠ none
  client_fd : ∀ k c, w.server.client k = some c → c.fd = (k : Nat)
  le_ret : ∀ k ∈ w.reads, ((k : Nat) : Int) ≤ w.ret
  events : ∀ d, ∃ ss, w.events d <+: sessions .conn .data .close ss
  client_some : ∀ call ∈ w.log, call.client ≠ none

structure Steady (F : Fin fdSize) (w : Work) : Prop extends Listening F w where
  reads_iff : ∀ k, k ∈ w.reads ↔ k = F ∨ w.server.client k ≠ none
  client_fd : ∀ k c, w.server.client k = some c → c.fd = (k : Nat)
  client_self : w.server.client F = none
  le_ret : ∀ k ∈ w.reads, ((k : Nat) : Int) ≤ w.ret
  trace : ∀ d, SessionTrace .conn .data .close (w.events d) ((w.server.client d).map some)
  client_some : ∀ call ∈ w.log, call.client ≠ none

def Pending (p : Pass) (i : Nat) (w : Work) : Prop := ∀ k ∈ p.ready, i ≤ (k : Nat) → k ∈ w.reads

def closed (w : Work) (k : Fin fdSize) (c : Client) : Work :=
  { w.callback false k (some c) .close with
    server := w.server.setClient k none
    reads := w.reads.erase k }

def connected (w : Work) (max : Int) (k : Fin fdSize) (c : Client) : Work :=
  (w.accepted max k (some c)).callback false k (some c) .conn

variable {F k d : Fin fdSize} {p : Pass} {w w' : Work} {c : Client} {max : Int} {i : Nat}

theorem Steady.consistent (h : Steady F w) : Consistent w where
  reads_iff := fun k => by
    rw [h.reads_iff k, h.fd]
    exact or_congr_left ⟨fun hk => by rw [hk], fun hk => (Fin.ext (Int.ofNat.inj hk)).symm⟩
  client_fd := h.client_fd
  le_ret := h.le_ret
  events := fun d => (h.trace d).initial
  client_some := h.client_some

/-! ## One event -/

theorem events_append (log : List Callback) (call : Callback) (hlog : w.log = log ++ [call]) :
    w.events d = (log.filter fun call => call.index = d).map (fun call => (call.event, call.client)) ++
      if call.index = d then [(call.event, call.client)] else [] := by
  unfold events
  rw [hlog, List.filter_append, List.map_append]
  by_cases h : call.index = d
  · simp [h]
  · simp [h]

theorem client_some_append {log : List Callback} (h : ∀ call ∈ log, call.client ≠ none) (e : Event) :
    ∀ call ∈ log ++ [⟨k, some c, e⟩], call.client ≠ none := by
  intro call hcall
  rcases List.mem_append.mp hcall with hcall | hcall
  · exact h call hcall
  · rw [List.mem_singleton.mp hcall]
    exact Option.some_ne_none c

theorem Steady.data (h : Steady F w) (hc : w.server.client k = some c) :
    Steady F (w.callback false k (some c) .data) where
  toListening := ⟨h.fd, h.cb, h.fd_le, h.ret_lt⟩
  reads_iff := h.reads_iff
  client_fd := h.client_fd
  client_self := h.client_self
  le_ret := h.le_ret
  trace := fun d => by
    rw [events_append w.log ⟨k, some c, .data⟩ rfl]
    show SessionTrace Event.conn Event.data Event.close _ ((w.server.client d).map some)
    have ht := h.trace d
    by_cases hd : k = d
    · subst hd
      rw [hc] at ht ⊢
      simp only [if_true]
      exact ht.data (some c)
    · simp only [hd, if_false, List.append_nil]
      exact ht
  client_some := client_some_append h.client_some .data

theorem Steady.ne_self (h : Steady F w) (hc : w.server.client k = some c) : k ≠ F := by
  rintro rfl
  rw [h.client_self] at hc
  cases hc

theorem closed_client (j : Fin fdSize) :
    (w.closed k c).server.client j = if j = k then none else w.server.client j :=
  Function.update_apply _ _ _ _

theorem connected_client (j : Fin fdSize) :
    (w.connected max k c).server.client j = if j = k then some c else w.server.client j :=
  Function.update_apply _ _ _ _

theorem Steady.close (h : Steady F w) (hc : w.server.client k = some c) : Steady F (w.closed k c) where
  toListening := ⟨h.fd, h.cb, h.fd_le, h.ret_lt⟩
  reads_iff := fun j => by
    rw [closed_client]
    show j ∈ w.reads.erase k ↔ _
    rw [Finset.mem_erase, h.reads_iff j]
    by_cases hj : j = k
    · subst hj
      simp [h.ne_self hc]
    · simp [hj]
  client_fd := fun j c' hj => by
    rw [closed_client] at hj
    split at hj
    · cases hj
    · exact h.client_fd j c' hj
  client_self := by
    rw [closed_client, if_neg (h.ne_self hc).symm]
    exact h.client_self
  le_ret := fun j hj => h.le_ret j (Finset.mem_of_mem_erase hj)
  trace := fun d => by
    rw [events_append w.log ⟨k, some c, .close⟩ rfl, closed_client]
    have ht := h.trace d
    by_cases hd : d = k
    · subst hd
      rw [hc] at ht
      simp only [if_true]
      exact ht.close (some c)
    · simp only [Ne.symm hd, hd, if_false, List.append_nil]
      exact ht
  client_some := client_some_append h.client_some .close

theorem Steady.conn (h : Steady F w) (hret : w.ret = max) (hne : k ≠ F) (hnone : w.server.client k = none)
    (hfd : c.fd = (k : Nat)) : Steady F (w.connected max k c) := by
  obtain ⟨hmax, hk, hlt⟩ := accepted_ret (w := w) (k := k) (some c) (hret ▸ h.ret_lt)
  refine ⟨⟨h.fd, h.cb, Int.le_trans (hret ▸ h.fd_le) hmax, hlt⟩, ?_, ?_, ?_, ?_, ?_,
    client_some_append h.client_some .conn⟩
  · intro j
    rw [connected_client]
    show j ∈ insert k w.reads ↔ _
    rw [Finset.mem_insert, h.reads_iff j]
    by_cases hj : j = k
    · simp [hj]
    · simp [hj]
  · intro j c' hj
    rw [connected_client] at hj
    split at hj
    · rename_i heq
      cases hj
      rw [heq, hfd]
    · exact h.client_fd j c' hj
  · rw [connected_client, if_neg hne.symm]
    exact h.client_self
  · intro j hj
    rcases Finset.mem_insert.mp hj with rfl | hj
    · exact hk
    · exact Int.le_trans (hret ▸ h.le_ret j hj) hmax
  · intro d
    rw [events_append w.log ⟨k, some c, .conn⟩ rfl, connected_client]
    have ht := h.trace d
    by_cases hd : d = k
    · subst hd
      rw [hnone] at ht
      simp only [if_true]
      exact ht.conn (some c)
    · simp only [Ne.symm hd, hd, if_false, List.append_nil]
      exact ht

/-! ## One visit -/

theorem dispatch_data (hstop : ∀ i, p.stop i = false) (hc : w.server.client k = some c) :
    dispatch p i (k : Nat) .data w = .ok (w.callback false k (some c) .data) ∨
      dispatch p i (k : Nat) .data w = .ok (w.closed k c) := by
  unfold dispatch
  simp only [slot_of_fin, Exec.ok_bind, hc, hstop]
  split
  · exact Or.inl rfl
  · exact Or.inr rfl

theorem dispatch_conn (hstop : ∀ i, p.stop i = false) (hc : w.server.client k = some c) :
    dispatch p i (k : Nat) .conn w = .ok (w.callback false k (some c) .conn) := by
  unfold dispatch
  simp only [slot_of_fin, Exec.ok_bind, hc, hstop, true_or, or_true, if_true]
  rfl

theorem accepted_client : (w.accepted max k (some c)).server.client k = some c :=
  Function.update_self _ _ _

theorem visit_client (h : Steady F w) (hp : Pending p k w) (hstop : ∀ i, p.stop i = false)
    (hk : k = F → F ∉ p.ready) :
    ∃ w', visit p max w k = .ok w' ∧ Steady F w' ∧ Pending p (k + 1) w' ∧ w'.ret = w.ret := by
  have hnext : ∀ j ∈ p.ready, (k : Nat) + 1 ≤ (j : Nat) → j ∈ w.reads ∧ j ≠ k := by
    intro j hj hle
    exact ⟨hp j hj (Nat.le_of_succ_le hle), fun heq => by rw [heq] at hle; omega⟩
  by_cases hready : k ∈ p.ready
  · have hkF : k ≠ F := fun heq => hk heq (heq ▸ hready)
    have hne : ((k : Nat) : Int) ≠ w.server.fd := by
      rw [h.fd]
      exact fun heq => hkF (Fin.ext (Int.ofNat.inj heq))
    obtain ⟨c, hc⟩ := Option.ne_none_iff_exists'.mp
      (((h.reads_iff k).mp (hp k hready (Nat.le_refl _))).resolve_left hkF)
    rw [visit_data hready hne h.cb]
    rcases dispatch_data hstop hc with hdata | hclose
    · exact ⟨_, hdata, h.data hc, fun j hj hle => (hnext j hj hle).1, rfl⟩
    · exact ⟨_, hclose, h.close hc,
        fun j hj hle => Finset.mem_erase.mpr ⟨(hnext j hj hle).2, (hnext j hj hle).1⟩, rfl⟩
  · exact ⟨w, visit_idle hready, h, fun j hj hle => (hnext j hj hle).1, rfl⟩

theorem visit_connect (h : Steady F w) (hp : Pending p F w) (halloc : p.alloc ≠ none)
    (hstop : ∀ i, p.stop i = false) (hready : F ∈ p.ready) (hret : w.ret = max) (hfresh : Fresh w p.accept) :
    ∃ w', visit p max w F = .ok w' ∧ Steady F w' ∧ Pending p (F + 1) w' := by
  obtain ⟨k, hk⟩ : ∃ k : Fin fdSize, p.accept = (k : Nat) :=
    ⟨⟨p.accept.toNat, by have := hfresh.nonneg; have := hfresh.lt; omega⟩,
      (Int.toNat_of_nonneg hfresh.nonneg).symm⟩
  obtain ⟨addr, haddr⟩ := Option.ne_none_iff_exists'.mp halloc
  have hne : k ≠ F := by
    rintro rfl
    exact hfresh.ne_fd (by rw [hk, h.fd])
  have hnone : w.server.client k = none := by
    cases hc : w.server.client k with
    | none => rfl
    | some c => exact absurd (by rw [h.client_fd k c hc, hk]) (hfresh.ne_client k c hc)
  refine ⟨w.connected max k ⟨addr, (k : Nat)⟩, ?_, h.conn hret hne hnone rfl, ?_⟩
  · have hcb : (w.accepted max k (some ⟨addr, (k : Nat)⟩)).server.cb = true := h.cb
    rw [visit_accept hready h.fd, acceptClient_eq hk, Exec.ok_bind, haddr]
    simp only [fromFd, Option.map_some, hcb, if_true]
    exact dispatch_conn hstop accepted_client
  · intro j hj hle
    exact Finset.mem_insert_of_mem (hp j hj (Nat.le_of_succ_le hle))

/-! ## A pass -/

theorem visits_clients (max : Int) (hstop : ∀ i, p.stop i = false) {n : Nat} (h : Steady F w) (hp : Pending p i w)
    (hrange : i + n ≤ fdSize) (hF : ∀ j, i ≤ j → j < i + n → j = F → F ∉ p.ready) :
    ∃ w', (List.range' i n).foldlM (visit p max) w = .ok w' ∧ Steady F w' ∧ Pending p (i + n) w' ∧
      w'.ret = w.ret := by
  induction n generalizing w i with
  | zero => exact ⟨w, rfl, h, hp, rfl⟩
  | succ n ih =>
      let k : Fin fdSize := ⟨i, by omega⟩
      obtain ⟨w₁, hone, h₁, hp₁, hret₁⟩ : ∃ w', visit p max w i = .ok w' ∧ Steady F w' ∧
          Pending p (i + 1) w' ∧ w'.ret = w.ret :=
        visit_client (k := k) h hp hstop (fun heq => hF i (Nat.le_refl i) (by omega) (congrArg Fin.val heq))
      obtain ⟨w₂, hrest, h₂, hp₂, hret₂⟩ := ih h₁ hp₁ (by omega) (fun j hj hlt => hF j (by omega) (by omega))
      refine ⟨w₂, ?_, h₂, by rwa [Nat.add_right_comm] at hp₂, hret₂.trans hret₁⟩
      rw [List.range'_succ, foldlM_cons_ok _ hone, hrest]

theorem selectHandler_steady (h : Steady F w) (hp : Permitted w p) :
    ∃ w', w.selectHandler p = .ok w' ∧ Steady F w' := by
  have hpending : Pending p 0 w := fun k hk _ => hp.ready hk
  have hlt := h.ret_lt
  have hle := h.fd_le
  unfold selectHandler
  by_cases hF : F ∈ p.ready
  · have hsplit : List.range (w.ret + 1).toNat =
        List.range' 0 F ++ (F : Nat) :: List.range' (F + 1) ((w.ret + 1).toNat - F - 1) := by
      rw [← List.range'_succ, List.range_eq_range']
      have happ := List.range'_append_1 (s := 0) (m := F) (n := (w.ret + 1).toNat - F - 1 + 1)
      rw [Nat.zero_add] at happ
      rw [happ]
      congr 1
      omega
    obtain ⟨w₁, hrun₁, h₁, hp₁, hret₁⟩ := visits_clients w.ret hp.stop h hpending (n := F) (by omega)
      (fun j _ hlt' heq => absurd heq (by omega))
    have hfresh : Fresh w₁ p.accept :=
      hp.accept F hF h.fd w₁ (by rw [List.range_eq_range']; exact hrun₁)
    rw [Nat.zero_add] at hp₁
    obtain ⟨w₂, hrun₂, h₂, hp₂⟩ := visit_connect h₁ hp₁ hp.alloc hp.stop hF hret₁ hfresh
    obtain ⟨w₃, hrun₃, h₃, _⟩ := visits_clients w.ret hp.stop h₂ hp₂
      (n := (w.ret + 1).toNat - F - 1) (by omega) (fun j hj _ heq => absurd heq (by omega))
    refine ⟨w₃, ?_, h₃⟩
    rw [hsplit, List.foldlM_append, hrun₁, Exec.ok_bind, foldlM_cons_ok _ hrun₂, hrun₃]
  · obtain ⟨w', hrun, hw', _⟩ := visits_clients w.ret hp.stop h hpending
      (n := (w.ret + 1).toNat) (by omega) (fun _ _ _ _ => hF)
    rw [← List.range_eq_range'] at hrun
    exact ⟨w', hrun, hw'⟩

def Permits (w : Work) (p : Pass) : Prop := w.server.valid = true → 0 < p.num → Permitted w p

theorem pass_steady (h : Steady F w) (hp : Permits w p) : ∃ w', w.pass p = .ok w' ∧ Steady F w' := by
  unfold pass
  split
  · rename_i hrun
    exact selectHandler_steady h (hp hrun.1 hrun.2)
  · exact ⟨w, rfl, h⟩

end Work

/-- The server before its loop: nothing is watched but the listening descriptor, and there are no clients. -/
theorem TcpServer.enter_steady {s : TcpServer} {w : Work} (hs : s.Prepared) (hcb : s.cb = true)
    (henter : s.enter = .ok w) : ∃ F, Work.Steady F w := by
  have hclient := hs.client
  obtain ⟨F, hslot, hret⟩ := Exec.bind_eq_ok.mp henter
  have hfd := slot_eq_ok hslot
  obtain rfl := Except.ok.inj hret
  refine ⟨F, ⟨hfd, hcb, Int.le_of_eq hfd.symm, (slot_range hslot).2⟩, ?_, ?_, hclient F, ?_, ?_, ?_⟩
  · intro k
    simp [hclient]
  · intro k c hk
    rw [hclient k] at hk
    cases hk
  · intro k hk
    rw [Finset.mem_singleton.mp hk]
    exact Int.le_of_eq hfd.symm
  · intro d
    simp only [hclient]
    exact .nil
  · intro call hcall
    exact absurd hcall List.not_mem_nil

/-- After every pass of `TcpServer_DoWork` the watched descriptors, the client table and `max` agree, and the
events of each descriptor form sessions of one client each. -/
theorem TcpServer.doWork_consistent {s : TcpServer} {w : Work} (hs : s.Prepared) (hcb : s.cb = true)
    (henter : s.enter = .ok w) {passes : List Pass} (hpermits : Along Work.pass Work.Permits w passes) :
    Always Work.pass Work.Consistent w passes := by
  obtain ⟨F, hw⟩ := TcpServer.enter_steady hs hcb henter
  intro pre hpre
  obtain ⟨w', hrun, hw'⟩ := (hpermits.initial hpre).run (fun _ _ => Work.pass_steady) hw
  exact ⟨w', hrun, hw'.consistent⟩

def Pass.closing (k : Fin fdSize) : Pass where
  num := 1
  ready := {k}
  accept := -1
  alloc := some 0
  isValid := fun _ => false
  available := fun _ => 0
  stop := fun _ => false

theorem TcpServer.doWork_consistent_session :
    ∃ w, TcpServer.listening.enter = .ok w ∧
      Always Work.pass Work.Consistent w [.accepting 4, .closing 4] := by
  let w : Work := ⟨TcpServer.listening, {3}, 3, []⟩
  have henter : TcpServer.listening.enter = .ok w := rfl
  refine ⟨w, henter, TcpServer.doWork_consistent (.setListener true (.start 3 true true .new)) rfl henter ?_⟩
  have hopen : w.pass (.accepting 4) = .ok (w.connected 3 4 ⟨0, 4⟩) := rfl
  refine ⟨fun _ _ => ⟨by decide, fun _ => rfl, by decide, ?_⟩, ?_⟩
  · intro k _ hk w' hrun
    have hk3 : k = 3 := Fin.ext (Int.ofNat.inj hk.symm)
    subst hk3
    have hidle : (List.range 3).foldlM (Work.visit (.accepting 4) 3) w = .ok w := rfl
    obtain rfl := Except.ok.inj (hidle.symm.trans hrun)
    exact ⟨by decide, by decide, by decide, fun k c hc => absurd hc (by simp [w, TcpServer.listening,
      TcpServer.setListener, TcpServer.start, TcpServer.new])⟩
  · intro w₁ hw₁
    obtain rfl := Except.ok.inj (hopen.symm.trans hw₁)
    refine ⟨fun _ _ => ⟨by decide, fun _ => rfl, by decide, ?_⟩, fun _ _ => trivial⟩
    intro k hk hfd
    rw [Finset.mem_singleton.mp hk] at hfd
    exact absurd hfd (by decide)

end CompileService.Server
