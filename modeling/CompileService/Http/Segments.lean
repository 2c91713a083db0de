import CompileService.Http.DoResp

/-!
# Requests in segments

`DoResp` takes whatever is there at its first non-empty look for the whole request. A request line is therefore
served as it was sent exactly if its method and its path arrive in one piece.
-/

namespace CompileService.Http

open CompileService.Base

def requestText (path tail : CStr) : List UInt8 := ascii "GET " ++ (path ++ (ascii " HTTP/1.1" ++ tail))

def firstSegment (segments : List (List UInt8)) : List UInt8 := (segments.find? (· ≠ [])).getD []

theorem firstSegment_prefix (segments : List (List UInt8)) : firstSegment segments <+: segments.flatten := by
  induction segments with
  | nil => exact List.prefix_rfl
  | cons seg segments ih =>
      by_cases hseg : seg = []
      · subst hseg
        exact ih
      · have hfirst : firstSegment (seg :: segments) = seg := by simp [firstSegment, hseg]
        rw [hfirst, List.flatten_cons]
        exact List.prefix_append seg segments.flatten

/-! ## The first look -/

section
variable {path : CStr}

theorem takeWhile_cut_iff (hspace : ∀ b ∈ path, isSpace b = false) (rest : CStr) (n : Nat) :
    ((untilNul ((path ++ 0x20 :: rest).take n)).takeWhile fun b => !isSpace b) = path ↔
      0 ∉ path ∧ path.length ≤ n := by
  constructor
  · intro h
    have hsub : path.Sublist (untilNul ((path ++ 0x20 :: rest).take n)) := by
      have := List.takeWhile_sublist (fun b => !isSpace b) (l := untilNul ((path ++ 0x20 :: rest).take n))
      rwa [h] at this
    refine ⟨fun h0 => nul_notMem_untilNul _ (hsub.subset h0), ?_⟩
    have hlen := (hsub.trans (List.takeWhile_sublist _)).length_le
    rw [List.length_take] at hlen
    omega
  · rintro ⟨h0, hn⟩
    obtain ⟨m, rfl⟩ := Nat.exists_eq_add_of_le hn
    have hpos : ∀ b ∈ path, (!isSpace b) = true := fun b hb => by rw [hspace b hb]; rfl
    rw [List.take_length_add_append, untilNul_append h0, List.takeWhile_append_of_pos hpos]
    cases m with
    | zero => exact List.append_nil path
    | succ m => exact List.append_nil path

theorem word_cut (hne : path ≠ []) (hspace : ∀ b ∈ path, isSpace b = false) (rest : CStr) (n : Nat) :
    word (0x20 :: untilNul ((path ++ rest).take n)) =
      (untilNul ((path ++ rest).take n)).takeWhile fun b => !isSpace b := by
  rw [word_cons rfl]
  refine word_eq_takeWhile (fun b hb => ?_)
  cases path with
  | nil => exact absurd rfl hne
  | cons c path =>
      cases n with
      | zero => cases hb
      | succ n =>
          rw [List.cons_append, List.take_succ_cons, untilNul, List.takeWhile_cons] at hb
          split at hb
          · cases hb
            exact hspace b List.mem_cons_self
          · cases hb

/-- The first `k` bytes of a request scan to its path exactly if the path is among them. -/
theorem request_cut_iff (hne : path ≠ []) (hspace : ∀ b ∈ path, isSpace b = false) (tail : CStr) (k : Nat) :
    request (untilNul ((requestText path tail).take k)) = some path ↔ 0 ∉ path ∧ 4 + path.length ≤ k := by
  have hget : (ascii "GET ").length = 4 := rfl
  by_cases hk : k < 4
  · -- no room for a path
    constructor
    · intro h
      obtain ⟨rest, hrest, hword, _⟩ := request_some h
      have hlen : (untilNul ((requestText path tail).take k)).length ≤ k :=
        (List.takeWhile_sublist _).length_le.trans (List.length_take_le k _)
      rw [hrest, length_get] at hlen
      have hnil : rest = [] := List.eq_nil_of_length_eq_zero (by omega)
      rw [hnil] at hword
      exact absurd hword.symm hne
    · intro h
      omega
  · obtain ⟨n, rfl⟩ := Nat.exists_eq_add_of_le (Nat.le_of_not_lt hk)
    have htext : untilNul ((requestText path tail).take (4 + n)) =
        ascii "GET" ++ 0x20 :: untilNul ((path ++ 0x20 :: (ascii "HTTP/1.1" ++ tail)).take n) := by
      rw [← hget, requestText, List.take_length_add_append, untilNul_append (by decide)]
      rfl
    have hcut := takeWhile_cut_iff hspace (ascii "HTTP/1.1" ++ tail) n
    rw [← word_cut hne hspace] at hcut
    rw [htext, request_append]
    constructor
    · intro h
      split at h
      · cases h
      · obtain ⟨h0, hn⟩ := hcut.mp (Option.some.inj h)
        exact ⟨h0, by omega⟩
    · rintro ⟨h0, hn⟩
      rw [hcut.mpr ⟨h0, by omega⟩, if_neg hne]

/-! ## The loop -/

variable {sends : CStr → Nat} {tail : CStr}

theorem Blocks.Served.exists_blocks {b : Blocks} (hb : b.Served) {n : Nat} (hn : n ≤ peekSize) :
    ∃ buf blk req, b = ⟨buf, some req⟩ ∧ buf (n + 1) = some blk := by
  obtain ⟨buf, req⟩ := b
  have hsize : n + 1 ≤ ptrdiffMax := by
    unfold peekSize at hn
    unfold ptrdiffMax
    omega
  obtain ⟨blk, hblk⟩ := Option.ne_none_iff_exists'.mp (hb.1 (n + 1) hsize)
  obtain ⟨req, rfl⟩ := Option.ne_none_iff_exists'.mp hb.2
  exact ⟨buf, blk, req, rfl, hblk⟩

theorem doResp_deletes {b : Blocks} {received : List UInt8} (hne : received ≠ []) {resp : Resp}
    (h : doResp sends b (some received) = .ok resp) : .del ∈ resp.calls := by
  obtain ⟨bufs, n, hcalls⟩ := doResp_calls h
  have hpos : (0 : Int) < received.length := Int.natCast_pos.mpr (List.length_pos_iff.mpr hne)
  rw [hcalls, Option.elim_some, respCalls, if_pos hpos]
  exact List.mem_cons_of_mem _ (List.mem_append_right _ List.mem_cons_self)

theorem processThread_idle {r : Round} (hvalid : r.valid = true) (harr : r.arrived = []) (rounds : List Round) :
    processThread sends [] (r :: rounds) = processThread sends [] rounds := by
  have hdel : Call.del ∉ [Call.available] := by decide
  simp only [processThread, hvalid, if_true, harr, List.append_nil, doResp_none, Exec.ok_bind, if_neg hdel]
  cases processThread sends [] rounds with
  | error e => rfl
  | ok reqs => rfl

/-- A round in which something arrives is the last one. -/
theorem processThread_data {r : Round} (hvalid : r.valid = true) (harr : r.arrived ≠ [])
    (hlen : r.arrived.length ≤ peekSize) (rounds : List Round) :
    processThread sends [] (r :: rounds) =
      (doResp sends r.blocks (some r.arrived)).map fun resp => resp.request.toList := by
  have hpeek : r.arrived.take peekSize = r.arrived := List.take_of_length_le hlen
  simp only [processThread, hvalid, if_true, List.nil_append, harr, if_false, hpeek]
  cases hresp : doResp sends r.blocks (some r.arrived) with
  | error e => rfl
  | ok resp =>
      rw [Exec.ok_bind, if_pos (doResp_deletes harr hresp)]
      rfl

/-- The loop hands the first segment that is not empty to `DoResp`, and that is the end of the connection. -/
theorem processThread_first (sends : CStr → Nat) {rounds : List Round} (hrounds : ∀ r ∈ rounds, r.valid = true)
    (hlen : (rounds.map Round.arrived).flatten.length ≤ peekSize)
    (hne : (rounds.map Round.arrived).flatten ≠ []) :
    ∃ r ∈ rounds, r.arrived = firstSegment (rounds.map Round.arrived) ∧ r.arrived ≠ [] ∧
      processThread sends [] rounds =
        (doResp sends r.blocks (some r.arrived)).map fun resp => resp.request.toList := by
  induction rounds with
  | nil => exact absurd rfl hne
  | cons r rounds ih =>
      obtain ⟨hr, hrest⟩ := List.forall_mem_cons.mp hrounds
      rw [List.map_cons, List.flatten_cons] at hlen hne
      by_cases harr : r.arrived = []
      · rw [harr, List.nil_append] at hlen hne
        obtain ⟨r', hr', hfirst, hne', hrun⟩ := ih hrest hlen hne
        refine ⟨r', List.mem_cons_of_mem r hr', ?_, hne', ?_⟩
        · rw [hfirst, List.map_cons, harr]
          rfl
        · rw [processThread_idle hr harr, hrun]
      · have hlen' : r.arrived.length ≤ peekSize := by
          rw [List.length_append] at hlen
          omega
        refine ⟨r, List.mem_cons_self, ?_, harr, processThread_data hr harr hlen' rounds⟩
        simp [firstSegment, harr]

/-- The rounds in which some segments arrive, with the same blocks in each. -/
def roundsOf (b : Blocks) (segments : List (List UInt8)) : List Round := segments.map fun seg => ⟨true, seg, b⟩

theorem roundsOf_arrived (b : Blocks) (segments : List (List UInt8)) :
    (roundsOf b segments).map Round.arrived = segments := by
  rw [roundsOf, List.map_map]
  exact List.map_id segments

theorem mem_roundsOf {b : Blocks} {segments : List (List UInt8)} {r : Round} (h : r ∈ roundsOf b segments) :
    r.valid = true ∧ r.blocks = b := by
  obtain ⟨seg, _, rfl⟩ := List.mem_map.mp h
  exact ⟨rfl, rfl⟩

/-- Segmentation. `RequestHandler` is called once and with the path, whatever the blocks hold, if and only if the
path has no NUL and the first segment reaches to its end. -/
theorem processThread_segments_iff (sends : CStr → Nat) (hne : path ≠ []) (hspace : ∀ b ∈ path, isSpace b = false)
    (hlen : (requestText path tail).length ≤ peekSize) {segments : List (List UInt8)}
    (hsegments : segments.flatten = requestText path tail) :
    (∀ rounds : List Round, rounds.map Round.arrived = segments →
      (∀ r ∈ rounds, r.valid = true ∧ r.blocks.Served) → processThread sends [] rounds = .ok [path]) ↔
      0 ∉ path ∧ 4 + path.length ≤ (firstSegment segments).length := by
  have hprefix := firstSegment_prefix segments
  have hfirstlen : (firstSegment segments).length ≤ peekSize := hprefix.length_le.trans (hsegments ▸ hlen)
  have hcut := request_cut_iff hne hspace tail (firstSegment segments).length
  rw [← hsegments, ← List.prefix_iff_eq_take.mp hprefix] at hcut
  have htext : requestText path tail ≠ [] := fun h => by cases h
  rw [← hcut]
  constructor
  · intro h
    -- all blocks hold the empty string
    obtain ⟨req, hstr⟩ := exists_block (s := []) (n := 2048) List.not_mem_nil (by decide)
    let b : Blocks := ⟨Malloc.zeroed, some req⟩
    have hb : b.Served := ⟨Malloc.zeroed_serves, Option.some_ne_none req⟩
    have harrived := roundsOf_arrived b segments
    have hall := h (roundsOf b segments) harrived
      (fun r hr => ⟨(mem_roundsOf hr).1, (mem_roundsOf hr).2 ▸ hb⟩)
    rw [← harrived] at hsegments
    obtain ⟨r, hr, hfirst, hne', hrun⟩ :=
      processThread_first sends (fun r hr => (mem_roundsOf hr).1) (hsegments ▸ hlen) (hsegments ▸ htext)
    rw [harrived] at hfirst
    rw [hrun, (mem_roundsOf hr).2] at hall
    rw [← hfirst] at hfirstlen ⊢
    cases hreq : request (untilNul r.arrived) with
    | some s =>
        rw [doResp_request hne' hfirstlen rfl hreq] at hall
        rw [(List.cons.inj (Except.ok.inj hall)).1]
    | none =>
        rw [doResp_leftover hne' hfirstlen rfl hreq, hstr] at hall
        exact absurd (List.cons.inj (Except.ok.inj hall)).1.symm hne
  · rintro hreq rounds rfl hrounds
    obtain ⟨r, hr, hfirst, hne', hrun⟩ :=
      processThread_first sends (fun r hr => (hrounds r hr).1) (hsegments ▸ hlen) (hsegments ▸ htext)
    rw [← hfirst] at hfirstlen hreq
    obtain ⟨buf, blk, req, hb, hbuf⟩ := (hrounds r hr).2.exists_blocks hfirstlen
    rw [hrun, hb, doResp_request hne' hfirstlen hbuf hreq]
    rfl

end

theorem processThread_segments_late :
    let path := ascii "/"
    let segments := [ascii "GET / ", [], ascii "HTTP/1.1"]
    path ≠ [] ∧ (∀ b ∈ path, isSpace b = false) ∧ (requestText path []).length ≤ peekSize ∧
      segments.flatten = requestText path [] ∧
      ∀ rounds : List Round, rounds.map Round.arrived = segments →
        (∀ r ∈ rounds, r.valid = true ∧ r.blocks.Served) → processThread (fun _ => 0) [] rounds = .ok [path] := by
  have hne : ascii "/" ≠ [] := by decide
  have hspace : ∀ b ∈ ascii "/", isSpace b = false := by decide +kernel
  have hlen : (requestText (ascii "/") []).length ≤ peekSize := by decide
  have hsegments : [ascii "GET / ", [], ascii "HTTP/1.1"].flatten = requestText (ascii "/") [] := by decide
  refine ⟨hne, hspace, hlen, hsegments, ?_⟩
  exact (processThread_segments_iff (fun _ => 0) hne hspace hlen hsegments).mpr (by decide)

/-- The path arrives in two pieces, or after the method: the answer is about its first piece, or about what the
block held. -/
theorem processThread_segments_cut :
    let round : String → Round := fun s => ⟨true, ascii s, ⟨Malloc.zeroed, some (Vector.replicate 2048 0)⟩⟩
    ([round "GET /a", round "b HTTP/1.1"].map Round.arrived).flatten = requestText (ascii "/ab") [] ∧
      processThread (fun _ => 0) [] [round "GET /a", round "b HTTP/1.1"] = .ok [ascii "/a"] ∧
      ([round "GE", round "T /ab HTTP/1.1"].map Round.arrived).flatten = requestText (ascii "/ab") [] ∧
      processThread (fun _ => 0) [] [round "GE", round "T /ab HTTP/1.1"] = .ok [[]] := by
  decide +kernel

end CompileService.Http
