import CompileService.Server.Desk

/-!
# The books of a server

The books are in order if everything that is open is the listening descriptor or that of a client. Each operation
keeps them so, unless it overwrites an open descriptor, closes one twice or finds no memory for a client; what is lost
then is never closed.
-/

namespace CompileService.Server

open CompileService.Base

/-- The server with the ledger, and what becomes of both when a client is enrolled or deleted. -/
structure Books where
  server : TcpServer
  fds : List (Entry Int)

namespace Books

def start (b : Books) (socket : Int) (bind listen : Bool) : Books :=
  ⟨b.server.start socket bind listen, b.fds ++ if b.server.valid then [] else openedFd socket⟩

def stop (b : Books) : Books := ⟨b.server.stop, b.fds ++ b.server.stopFds⟩

def enroll (b : Books) (k : Fin fdSize) (c : Option Client) : Books :=
  ⟨b.server.setClient k c, b.fds ++ openedFd (k : Nat)⟩

def drop (b : Books) (k : Fin fdSize) : Books :=
  ⟨b.server.setClient k none, b.fds ++ delFds (b.server.client k)⟩

/-- Descriptors are opened and closed in turn, and those that are open are the listening one and those of the
clients, which are filed under them. Without a valid listening descriptor there are no clients. -/
structure Kept (b : Books) : Prop where
  turns : InTurn b.fds
  neg : ¬ Live b.fds (-1)
  live : ∀ x, Live b.fds x → x = b.server.fd ∨ ∃ k : Fin fdSize, x = (k : Nat) ∧ b.server.client k ≠ none
  client : ∀ k c, b.server.client k = some c → c.fd = (k : Nat) ∧ Live b.fds (k : Nat) ∧ b.server.fd ≠ (k : Nat)
  valid : b.server.valid = true → Live b.fds b.server.fd
  stopped : b.server.valid = false → ∀ k, b.server.client k = none

theorem Kept.new : Kept ⟨.new, []⟩ where
  turns := .nil
  neg := Nat.lt_irrefl 0
  live := fun _ h => absurd h (Nat.lt_irrefl 0)
  client := nofun
  valid := nofun
  stopped := fun _ _ => rfl

/-- `x` is the listening descriptor or that of a client. -/
def Found (b : Books) (x : Int) : Prop := x = b.server.fd ∨ ∃ k c, b.server.client k = some c ∧ c.fd = x

/-- Everything that is open is the listening descriptor or that of a client, so that `TcpServer_Del` closes it. -/
structure Tidy (b : Books) : Prop where
  turns : InTurn b.fds
  found : ∀ x, Live b.fds x → Found b x

variable {b b' : Books} {k : Fin fdSize} {addr : Nat}

theorem Kept.tidy (h : Kept b) : Tidy b where
  turns := h.turns
  found := fun x hx => by
    rcases h.live x hx with hfd | ⟨k, rfl, hk⟩
    · exact .inl hfd
    · obtain ⟨c, hc⟩ := Option.ne_none_iff_exists'.mp hk
      exact .inr ⟨k, c, hc, (h.client k c hc).1⟩

theorem closedFd_nat (n : Nat) : closedFd (n : Nat) = [.closed (n : Int)] := if_neg (by omega)

theorem openedFd_nat (n : Nat) : openedFd (n : Nat) = [.opened (n : Int)] := if_neg (by omega)

/-! ### Stopping -/

def clients (b : Books) : List (Fin fdSize) := (List.finRange fdSize).filter fun k => (b.server.client k).isSome

theorem mem_clients : k ∈ b.clients ↔ b.server.client k ≠ none := by
  rw [clients, List.mem_filter, and_iff_right (List.mem_finRange k), Option.isSome_iff_ne_none]

theorem nodup_clients (b : Books) : b.clients.Nodup := by
  rw [clients]
  exact (List.nodup_finRange fdSize).filter _

theorem Kept.flatMap_delFds (h : Kept b) (ks : List (Fin fdSize)) :
    (ks.flatMap fun k => delFds (b.server.client k)) =
      ((ks.filter fun k => (b.server.client k).isSome).map fun k : Fin fdSize => ((k : Nat) : Int)).map
        Entry.closed := by
  induction ks with
  | nil => rfl
  | cons k ks ih =>
      rw [List.flatMap_cons, ih]
      cases hc : b.server.client k with
      | none =>
          rw [List.filter_cons_of_neg (by simp [hc])]
          rfl
      | some c =>
          rw [List.filter_cons_of_pos (by simp [hc]), delFds, Option.elim_some, (h.client k c hc).1, closedFd_nat]
          rfl

/-- The clients are closed one by one under the numbers under which they are filed. -/
theorem Kept.stopFds_eq (h : Kept b) : b.server.stopFds =
    closedFd b.server.fd ++ (b.clients.map fun k : Fin fdSize => ((k : Nat) : Int)).map Entry.closed := by
  rw [TcpServer.stopFds, h.flatMap_delFds, clients]

theorem Kept.stop (h : Kept b) (hfd : b.server.fd = -1 ∨ Live b.fds b.server.fd) :
    Kept b.stop ∧ ∀ x, ¬ Live b.stop.fds x := by
  have hturns := h.turns.closedFd hfd
  have hlive : ∀ x, Live (b.fds ++ closedFd b.server.fd) x ↔ x ≠ b.server.fd ∧ Live b.fds x :=
    fun x => h.turns.live_closedFd h.neg
  have hinj : Function.Injective fun k : Fin fdSize => ((k : Nat) : Int) :=
    fun i j hij => Fin.ext (Int.ofNat.inj hij)
  have hnodup : (b.clients.map fun k : Fin fdSize => ((k : Nat) : Int)).Nodup :=
    (List.nodup_map_iff hinj).mpr b.nodup_clients
  obtain ⟨hturns', hlive'⟩ := hturns.closedAll hnodup fun x hx => by
    obtain ⟨k, hk, rfl⟩ := List.mem_map.mp hx
    obtain ⟨c, hc⟩ := Option.ne_none_iff_exists'.mp (mem_clients.mp hk)
    obtain ⟨_, hopen, hne⟩ := h.client k c hc
    exact (hlive _).mpr ⟨Ne.symm hne, hopen⟩
  rw [List.append_assoc, ← h.stopFds_eq] at hturns' hlive'
  have hnone : ∀ x, ¬ Live b.stop.fds x := by
    intro x hx
    obtain ⟨hx, hlivex⟩ := (hlive' x).mp hx
    obtain ⟨hne, hlivex⟩ := (hlive x).mp hlivex
    obtain ⟨k, rfl, hk⟩ := (h.live x hlivex).resolve_left hne
    exact hx (List.mem_map.mpr ⟨k, mem_clients.mpr hk, rfl⟩)
  exact ⟨⟨hturns', hnone _, fun x hx => absurd hx (hnone x), nofun, nofun, fun _ _ => rfl⟩, hnone⟩

/-- The listening descriptor is the first that is closed. -/
theorem live_of_stop (h : Tidy b.stop) (hfd : b.server.fd ≠ -1) : Live b.fds b.server.fd := by
  have hturns := h.turns
  simp only [Books.stop, TcpServer.stopFds, closedFd, if_neg hfd] at hturns
  exact hturns.live_of_closed

/-! ### Clients -/

theorem Kept.enroll (h : Kept b) (hvalid : b.server.valid = true) (hk : ¬ Live b.fds (k : Nat)) :
    Kept (b.enroll k (some ⟨addr, (k : Nat)⟩)) := by
  have hfd : b.server.fd ≠ (k : Nat) := fun heq => hk (heq ▸ h.valid hvalid)
  have hclient : ∀ j, (b.enroll k (some ⟨addr, (k : Nat)⟩)).server.client j =
      if j = k then some ⟨addr, (k : Nat)⟩ else b.server.client j := fun j => Function.update_apply _ _ _ _
  have hlive : ∀ x, Live (b.enroll k (some ⟨addr, (k : Nat)⟩)).fds x ↔ x = (k : Nat) ∨ Live b.fds x := by
    intro x
    simp only [Books.enroll, openedFd_nat]
    exact h.turns.live_opened
  refine ⟨h.turns.openedFd hk, fun hneg => ?_, fun x hx => ?_, fun j c hj => ?_, fun _ => ?_, fun hnot => ?_⟩
  · exact h.neg (((hlive _).mp hneg).resolve_left (by omega))
  · rcases (hlive x).mp hx with rfl | hx
    · exact .inr ⟨k, rfl, by rw [hclient, if_pos rfl]; exact Option.some_ne_none _⟩
    · rcases h.live x hx with hx | ⟨j, hj, hne⟩
      · exact .inl hx
      · refine .inr ⟨j, hj, ?_⟩
        rw [hclient]
        split
        · exact Option.some_ne_none _
        · exact hne
  · rw [hclient] at hj
    split at hj
    · rename_i heq
      obtain rfl := Option.some.inj hj
      subst heq
      exact ⟨rfl, (hlive _).mpr (.inl rfl), hfd⟩
    · obtain ⟨hfd', hopen, hne⟩ := h.client j c hj
      exact ⟨hfd', (hlive _).mpr (.inr hopen), hne⟩
  · exact (hlive _).mpr (.inr (h.valid hvalid))
  · exact absurd (hvalid.symm.trans hnot) (by decide)

theorem Kept.drop (h : Kept b) (k : Fin fdSize) : Kept (b.drop k) ∧ ∀ x, Live (b.drop k).fds x → Live b.fds x := by
  have hclient : ∀ j, (b.drop k).server.client j = if j = k then none else b.server.client j :=
    fun j => Function.update_apply _ _ _ _
  cases hc : b.server.client k with
  | none =>
      have hself : b.drop k = b := by
        simp only [Books.drop, hc, delFds, Option.elim_none, List.append_nil, TcpServer.setClient]
        rw [← hc, Function.update_eq_self]
      rw [hself]
      exact ⟨h, fun _ hx => hx⟩
  | some c =>
      obtain ⟨hfd, hopen, hne⟩ := h.client k c hc
      have hfds : (b.drop k).fds = b.fds ++ [Entry.closed ((k : Nat) : Int)] := by
        simp only [Books.drop, hc, delFds, Option.elim_some, hfd, closedFd_nat]
      have hlive : ∀ x, Live (b.drop k).fds x ↔ x ≠ (k : Nat) ∧ Live b.fds x := by
        rw [hfds]
        exact fun x => h.turns.live_closed
      refine ⟨⟨hfds ▸ h.turns.closed hopen, fun hneg => h.neg ((hlive _).mp hneg).2, fun x hx => ?_, fun j c' hj => ?_,
        fun hvalid => ?_, fun hnot j => ?_⟩, fun x hx => ((hlive x).mp hx).2⟩
      · obtain ⟨hxk, hx⟩ := (hlive x).mp hx
        rcases h.live x hx with hx | ⟨j, hj, hne'⟩
        · exact .inl hx
        · refine .inr ⟨j, hj, ?_⟩
          rwa [hclient, if_neg fun heq => hxk (by rw [hj, heq])]
      · rw [hclient] at hj
        split at hj
        · cases hj
        · rename_i hjk
          obtain ⟨hfd', hopen', hne'⟩ := h.client j c' hj
          exact ⟨hfd', (hlive _).mpr ⟨fun heq => hjk (Fin.ext (Int.ofNat.inj heq)), hopen'⟩, hne'⟩
      · exact (hlive _).mpr ⟨hne, h.valid hvalid⟩
      · rw [hclient]
        split
        · rfl
        · exact h.stopped hnot j

/-! ### Starting -/

theorem Kept.start (h : Kept b) {socket : Int} (bind listen : Bool)
    (hsocket : b.server.valid = false → ¬ Live b.fds socket) (hfd : b.server.valid = false → ¬ Live b.fds b.server.fd) :
    Kept (b.start socket bind listen) := by
  cases hvalid : b.server.valid with
  | true =>
      have hself : b.start socket bind listen = b := by
        simp only [Books.start, TcpServer.start, hvalid, if_true, List.append_nil]
      rw [hself]
      exact h
  | false =>
      have hnone : ∀ x, ¬ Live b.fds x := by
        intro x hx
        rcases h.live x hx with rfl | ⟨k, _, hk⟩
        · exact hfd hvalid hx
        · exact hk (h.stopped hvalid k)
      have hfds : (b.start socket bind listen).fds = b.fds ++ openedFd socket := by
        simp only [Books.start, hvalid, Bool.false_eq_true, if_false]
      have hserver : (b.start socket bind listen).server =
          { b.server with fd := socket, valid := socket ≠ -1 && bind && listen } := by
        simp only [Books.start, TcpServer.start, hvalid, Bool.false_eq_true, if_false]
      have hlive : ∀ x, Live (b.start socket bind listen).fds x ↔ x = socket ∧ socket ≠ -1 := by
        intro x
        rw [hfds, h.turns.live_openedFd, or_iff_left (hnone x)]
      refine ⟨by rw [hfds]; exact h.turns.openedFd (hsocket hvalid), ?_, fun x hx => ?_, fun k c hk => ?_, ?_, ?_⟩
      · rw [hlive]
        exact fun hx => hx.2 hx.1.symm
      · rw [hserver]
        exact .inl ((hlive x).mp hx).1
      · rw [hserver] at hk
        exact absurd hk (by rw [h.stopped hvalid k]; exact nofun)
      · rw [hlive, hserver]
        intro hx
        simp only [Bool.and_eq_true, decide_eq_true_eq] at hx
        exact ⟨rfl, hx.1.1⟩
      · rw [hserver]
        exact fun _ => h.stopped hvalid

/-! ### Lost descriptors -/

/-- What is open and lost stays so. -/
theorem Tidy.before {es : List (Entry Int)} (h : Tidy b') (hfds : b'.fds = b.fds ++ es)
    (hlost : ∀ x, Live b.fds x → ¬ Found b x → Entry.closed x ∉ es ∧ ¬ Found b' x) : Tidy b where
  turns := h.turns.initial ⟨es, hfds.symm⟩
  found := fun x hx => by
    by_contra hnot
    obtain ⟨hes, hnot'⟩ := hlost x hx hnot
    exact hnot' (h.found x (by rw [hfds]; exact hx.append hes))

theorem eq_of_mem_closedFd {x fd : Int} (h : Entry.closed x ∈ closedFd fd) : x = fd := by
  unfold closedFd at h
  split at h
  · cases h
  · cases List.mem_singleton.mp h
    rfl

theorem closed_notMem_openedFd (x fd : Int) : Entry.closed x ∉ openedFd fd := by
  unfold openedFd
  split
  · exact List.not_mem_nil
  · exact fun h => nomatch List.mem_singleton.mp h

theorem found_of_mem_delFds {x : Int} (h : Entry.closed x ∈ delFds (b.server.client k)) : Found b x := by
  cases hc : b.server.client k with
  | none =>
      rw [hc] at h
      cases h
  | some c =>
      rw [hc] at h
      exact .inr ⟨k, c, hc, (eq_of_mem_closedFd h).symm⟩

theorem Tidy.of_stop (h : Tidy b.stop) : Tidy b := by
  refine h.before rfl fun x _ hnot => ⟨fun hx => hnot ?_, fun hx => hnot ?_⟩
  · rcases List.mem_append.mp hx with hx | hx
    · exact .inl (eq_of_mem_closedFd hx)
    · obtain ⟨k, _, hk⟩ := List.mem_flatMap.mp hx
      exact found_of_mem_delFds hk
  · rcases hx with hx | ⟨k, c, hk, _⟩
    · exact .inl hx
    · cases hk

theorem Tidy.of_drop (h : Tidy (b.drop k)) : Tidy b := by
  refine h.before rfl fun x _ hnot => ⟨fun hx => hnot (found_of_mem_delFds hx), fun hx => hnot ?_⟩
  refine hx.imp_right fun ⟨j, c, hj, hc⟩ => ⟨j, c, ?_, hc⟩
  have hclient : (b.drop k).server.client j = if j = k then none else b.server.client j :=
    Function.update_apply _ _ _ _
  rw [hclient] at hj
  split at hj
  · cases hj
  · exact hj

theorem Tidy.of_enroll {c : Option Client} (h : Tidy (b.enroll k c)) (hk : ¬ Live b.fds (k : Nat))
    (hc : ∀ c', c = some c' → c'.fd = (k : Nat)) : Tidy b := by
  refine h.before rfl fun x hx hnot => ⟨closed_notMem_openedFd x _, fun hx' => hnot ?_⟩
  refine hx'.imp_right fun ⟨j, c', hj, hfd⟩ => ⟨j, c', ?_, hfd⟩
  have hclient : (b.enroll k c).server.client j = if j = k then c else b.server.client j :=
    Function.update_apply _ _ _ _
  rw [hclient] at hj
  split at hj
  · rw [hc c' hj] at hfd
    exact absurd (hfd ▸ hx) hk
  · exact hj

theorem Tidy.of_start {socket : Int} {bind listen : Bool} (h : Tidy (b.start socket bind listen))
    (hsocket : b.server.valid = false → ¬ Live b.fds socket) : Tidy b := by
  cases hvalid : b.server.valid with
  | true =>
      have hself : b.start socket bind listen = b := by
        simp only [Books.start, TcpServer.start, hvalid, if_true, List.append_nil]
      rwa [hself] at h
  | false =>
      have hfds : (b.start socket bind listen).fds = b.fds ++ openedFd socket := by
        simp only [Books.start, hvalid, Bool.false_eq_true, if_false]
      refine h.before hfds fun x hx hnot => ⟨closed_notMem_openedFd x _, fun hx' => hnot ?_⟩
      simp only [Found, Books.start, TcpServer.start, hvalid, Bool.false_eq_true, if_false] at hx'
      rcases hx' with rfl | hx'
      · exact absurd hx (hsocket hvalid)
      · exact .inr hx'

/-- A descriptor that `TcpServer_Start` overwrites is lost. -/
theorem Kept.not_live_of_start (h : Kept b) {socket : Int} {bind listen : Bool}
    (hsocket : b.server.valid = false → ¬ Live b.fds socket) (hgood : Tidy (b.start socket bind listen))
    (hvalid : b.server.valid = false) : ¬ Live b.fds b.server.fd := by
  intro hlive
  have hfds : (b.start socket bind listen).fds = b.fds ++ openedFd socket := by
    simp only [Books.start, hvalid, Bool.false_eq_true, if_false]
  have hfound := hgood.found b.server.fd (by rw [hfds]; exact hlive.openedFd socket)
  simp only [Found, Books.start, TcpServer.start, hvalid, Bool.false_eq_true, if_false] at hfound
  rcases hfound with hfd | ⟨k, c, hk, _⟩
  · exact hsocket hvalid (hfd ▸ hlive)
  · rw [h.stopped hvalid k] at hk
    cases hk

/-- A descriptor that `accept` returned is lost without a client. -/
theorem Kept.not_tidy_enroll (h : Kept b) (hlive : Live b.fds b.server.fd) (hk : ¬ Live b.fds (k : Nat)) :
    ¬ Tidy (b.enroll k none) := by
  intro hgood
  have hopen : Live (b.enroll k none).fds (k : Nat) := by
    rw [Books.enroll, openedFd_nat]
    exact h.turns.live_opened.mpr (.inl rfl)
  rcases hgood.found _ hopen with hfd | ⟨j, c, hj, hfd⟩
  · exact hk (hfd ▸ hlive)
  · have hclient : (b.enroll k none).server.client j = if j = k then none else b.server.client j :=
      Function.update_apply _ _ _ _
    rw [hclient] at hj
    split at hj
    · cases hj
    · obtain ⟨hfd', hopen', _⟩ := h.client j c hj
      rw [← hfd', hfd] at hopen'
      exact hk hopen'

end Books

end CompileService.Server
