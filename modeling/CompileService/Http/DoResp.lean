import CompileService.Base.Scanf

/-!
# Serving one connection

`DoResp` and the loop of `Process_Thread` in `main.c`: whatever has arrived on the connection is read once, the path
is scanned out of it and handed to `RequestHandler`, and the client is deleted.
-/

namespace CompileService.Http

open CompileService.Base

/-- The functions of `tcp_client.c` that `main.c` and `response.c` pass a client to. -/
inductive Call where
  | isValid
  | available
  | recvRaw
  | sendRaw
  | del
deriving DecidableEq, Repr

structure Blocks where
  buf : Malloc
  req : Option (Vector UInt8 2048)

def Blocks.Served (b : Blocks) : Prop := b.buf.Serves ∧ b.req ≠ none

/-- What a call of `DoResp` did: the `req` that `RequestHandler` was called with, and the calls on the client. -/
structure Resp where
  request : Option CStr
  calls : List Call
deriving DecidableEq, Repr

/-- The calls of `DoResp` on its client after `TcpClient_Available` returned `len`; `bufs` says that both blocks were
allocated, `sends` how often `RequestHandler` sends. -/
def respCalls (len : Int) (bufs : Bool) (sends : Nat) : List Call :=
  if 0 < len then (if bufs then .recvRaw :: List.replicate sends .sendRaw else []) ++ [.del] else []

def requestFormat : List Directive := directives (ascii "GET %s HTTP")

/-- `sscanf(buf,"GET %s HTTP",req)`; without a conversion `req` stays as it is. -/
def scanRequest (buf : CStr) (req : List UInt8) : Exec (List UInt8) :=
  match (scanf requestFormat buf 0).2 with
  | [] => .ok req
  | s :: _ => memcpy req 0 (s ++ [0]) (s.length + 1 : Nat)

def peekSize : Nat := 2048

/-- `DoResp`. `peeked` is what `TcpClient_Available` finds, `none` if `recv` fails; `sends` tells how often
`RequestHandler` sends for a request. -/
def doResp (sends : CStr → Nat) (b : Blocks) (peeked : Option (List UInt8)) : Exec Resp := do
  let received := peeked.getD []
  let len : Int := peeked.elim (-1) fun bs => bs.length
  if 0 < len then
    match b.buf (received.length + 1), b.req with
    | some buf, some req =>
        -- `TcpClient_RecvRaw`, then `buf[len] = 0`
        let buf ← memcpy buf.toList 0 received len
        let buf ← memcpy buf len [0] 1
        let text ← cstr buf
        let req ← scanRequest text req.toList
        let s ← cstr req
        return ⟨some s, .available :: respCalls len true (sends s)⟩
    | _, _ => return ⟨none, .available :: respCalls len false 0⟩
  else return ⟨none, .available :: respCalls len false 0⟩

/-- One iteration of the loop: the answer of `TcpClient_IsValid`, the segment that arrived since the last one, and
the allocations. -/
structure Round where
  valid : Bool
  arrived : List UInt8
  blocks : Blocks

/-- The loop of `Process_Thread` on a connection with `queue` to read, up to the deletion of the client: the strings
that `RequestHandler` is called with. -/
def processThread (sends : CStr → Nat) (queue : List UInt8) : List Round → Exec (List CStr)
  | [] => .ok []
  | r :: rs =>
      if r.valid then do
        let queue := queue ++ r.arrived
        let resp ← doResp sends r.blocks (if queue = [] then none else some (queue.take peekSize))
        -- without a deletion nothing was read either
        if .del ∈ resp.calls then return resp.request.toList
        else
          let reqs ← processThread sends queue rs
          return resp.request.toList ++ reqs
      else .ok []

/-- The calls of `DoResp` depend on what it found, on its allocations and on how often the handler sent. -/
theorem doResp_calls {sends : CStr → Nat} {b : Blocks} {peeked : Option (List UInt8)} {resp : Resp}
    (h : doResp sends b peeked = .ok resp) :
    ∃ bufs n, resp.calls = .available :: respCalls (peeked.elim (-1) fun bs => bs.length) bufs n := by
  simp only [doResp] at h
  split at h
  · split at h
    · obtain ⟨_, _, h⟩ := Exec.bind_eq_ok.mp h
      obtain ⟨_, _, h⟩ := Exec.bind_eq_ok.mp h
      obtain ⟨_, _, h⟩ := Exec.bind_eq_ok.mp h
      obtain ⟨_, _, h⟩ := Exec.bind_eq_ok.mp h
      obtain ⟨s, _, h⟩ := Exec.bind_eq_ok.mp h
      obtain rfl := Except.ok.inj h
      exact ⟨true, sends s, rfl⟩
    · obtain rfl := Except.ok.inj h
      exact ⟨false, 0, rfl⟩
  · obtain rfl := Except.ok.inj h
    exact ⟨false, 0, rfl⟩

/-! ## The request -/

def request (text : CStr) : Option CStr := (scanf requestFormat text 0).2.head?

theorem request_eq (text : CStr) :
    request text = if ascii "GET" <+: text ∧ word (text.drop 3) ≠ [] then some (word (text.drop 3)) else none := by
  have hformat : requestFormat = (ascii "GET").map .lit ++ .white :: .str :: directives (ascii " HTTP") := by decide
  have hrest : .str ∉ directives (ascii " HTTP") := by decide
  have hlen : (ascii "GET").length = 3 := rfl
  rw [request, hformat, scanf_lits, scanf_word hrest, hlen]
  by_cases hget : ascii "GET" <+: text
  · by_cases hw : word (text.drop 3) = []
    · simp [hget, hw]
    · simp [hget, hw]
  · simp [hget]

theorem request_append (rest : CStr) :
    request (ascii "GET" ++ rest) = if word rest = [] then none else some (word rest) := by
  have hdrop : (ascii "GET" ++ rest).drop 3 = rest := rfl
  rw [request_eq, hdrop]
  by_cases hw : word rest = []
  · rw [if_neg (fun h => h.2 hw), if_pos hw]
  · rw [if_pos ⟨List.prefix_append _ _, hw⟩, if_neg hw]

theorem request_some {text s : CStr} (h : request text = some s) :
    ∃ rest, text = ascii "GET" ++ rest ∧ word rest = s ∧ s ≠ [] := by
  rw [request_eq] at h
  split at h
  · rename_i hc
    obtain ⟨⟨rest, rfl⟩, hw⟩ := hc
    obtain rfl := Option.some.inj h
    exact ⟨rest, rfl, rfl, hw⟩
  · cases h

theorem length_get (rest : CStr) : (ascii "GET" ++ rest).length = 3 + rest.length := by
  rw [List.length_append]
  rfl

theorem request_isSome_iff (text : CStr) :
    (request text).isSome ↔ ∃ rest, text = ascii "GET" ++ rest ∧ ∃ b ∈ rest, isSpace b = false := by
  have hword : ∀ rest, word rest ≠ [] ↔ ∃ b ∈ rest, isSpace b = false := by
    intro rest
    rw [Ne, word_eq_nil]
    simp
  constructor
  · intro h
    obtain ⟨s, hs⟩ := Option.isSome_iff_exists.mp h
    obtain ⟨rest, rfl, rfl, hne⟩ := request_some hs
    exact ⟨rest, rfl, (hword rest).mp hne⟩
  · rintro ⟨rest, rfl, hb⟩
    rw [request_append, if_neg ((hword rest).mpr hb)]
    rfl

/-! ## One call -/

theorem exists_block {s : CStr} {n : Nat} (h0 : 0 ∉ s) (hlen : s.length < n) :
    ∃ blk : Vector UInt8 n, cstr blk.toList = .ok s := by
  obtain ⟨k, rfl⟩ := Nat.exists_eq_add_of_lt hlen
  have hsize : (s ++ 0 :: List.replicate k 0).length = s.length + k + 1 := by
    rw [List.length_append, List.length_cons, List.length_replicate]
    rfl
  refine ⟨⟨(s ++ 0 :: List.replicate k 0).toArray, hsize⟩, ?_⟩
  exact cstr_append_self h0 (List.replicate k 0)

section
variable {sends : CStr → Nat} {received : List UInt8} {buf : Malloc} {blk : Vector UInt8 (received.length + 1)}

theorem doResp_none (sends : CStr → Nat) (b : Blocks) : doResp sends b none = .ok ⟨none, [.available]⟩ := rfl

theorem doResp_unallocated (hne : received ≠ []) (hbuf : buf (received.length + 1) = none)
    (req : Option (Vector UInt8 2048)) :
    doResp sends ⟨buf, req⟩ (some received) = .ok ⟨none, [.available, .del]⟩ := by
  have hpos : (0 : Int) < received.length := Int.natCast_pos.mpr (List.length_pos_iff.mpr hne)
  simp only [doResp, Option.getD_some, Option.elim_some, hpos, if_true, hbuf, respCalls]
  rfl

/-- `DoResp` up to the scan: the text is what was received before the first NUL. -/
theorem doResp_text (hne : received ≠ []) (hlen : received.length ≤ peekSize)
    (hbuf : buf (received.length + 1) = some blk) (req : Vector UInt8 2048) :
    doResp sends ⟨buf, some req⟩ (some received) =
      (do let req ← scanRequest (untilNul received) req.toList
          let s ← cstr req
          return ⟨some s, .available :: respCalls received.length true (sends s)⟩) := by
  have hpos : 0 < received.length := List.length_pos_iff.mpr hne
  have hsize : blk.toList.length = received.length + 1 := Vector.length_toList
  unfold peekSize at hlen
  have hread : memcpy blk.toList 0 received (received.length : Nat) =
      .ok (received ++ blk.toList.drop received.length) := by
    have h : memcpy blk.toList (0 : Nat) received (received.length : Nat) = _ :=
      memcpy_eq (by omega) (Nat.le_refl _) (by omega)
    rw [List.take_length] at h
    simpa [writeAt] using h
  have hnul : memcpy (received ++ blk.toList.drop received.length) (received.length : Nat) [0] 1 =
      .ok (received ++ [0]) := by
    have h : memcpy (received ++ blk.toList.drop received.length) (received.length : Nat) [0] (1 : Nat) = _ :=
      memcpy_eq (by simp) (by simp) (by omega)
    rw [Int.natCast_one] at h
    rw [h, writeAt]
    simp [hsize]
  have hcond : (0 : Int) < (received.length : Nat) := by omega
  simp only [doResp, Option.getD_some, Option.elim_some, hcond, if_true, hbuf, hread, hnul, Exec.ok_bind,
    cstr_append_nul]

theorem scanRequest_some {text s : CStr} {req : List UInt8} (h : request text = some s) (hnul : 0 ∉ text)
    (hlen : text.length < req.length + 3) (hreq : req.length < 2 ^ 63) :
    ∃ req', scanRequest text req = .ok req' ∧ cstr req' = .ok s := by
  obtain ⟨ss, hscan⟩ : ∃ ss, (scanf requestFormat text 0).2 = s :: ss := List.head?_eq_some_iff.mp h
  obtain ⟨rest, rfl, rfl, _⟩ := request_some h
  rw [length_get] at hlen
  have hle : (word rest).length ≤ rest.length := (word_sublist rest).length_le
  have hs0 : 0 ∉ word rest := fun h0 => hnul (List.mem_append_right _ ((word_sublist rest).subset h0))
  have hcopy : memcpy req 0 (word rest ++ [0]) ((word rest).length + 1 : Nat) =
      .ok (word rest ++ 0 :: req.drop ((word rest).length + 1)) := by
    have h : memcpy req (0 : Nat) (word rest ++ [0]) ((word rest).length + 1 : Nat) = _ :=
      memcpy_eq (by omega) (by simp) (by omega)
    refine h.trans ?_
    rw [List.take_of_length_le (by simp), writeAt]
    simp
  refine ⟨word rest ++ 0 :: req.drop ((word rest).length + 1), ?_, cstr_append_self hs0 _⟩
  unfold scanRequest
  rw [hscan]
  exact hcopy

theorem scanRequest_none {text : CStr} (h : request text = none) (req : List UInt8) :
    scanRequest text req = .ok req := by
  unfold scanRequest
  rw [List.head?_eq_none_iff.mp h]

/-- With a request `RequestHandler` is called with it, whatever `req` held. -/
theorem doResp_request {s : CStr} (hne : received ≠ []) (hlen : received.length ≤ peekSize)
    (hbuf : buf (received.length + 1) = some blk) (h : request (untilNul received) = some s)
    (req : Vector UInt8 2048) :
    doResp sends ⟨buf, some req⟩ (some received) =
      .ok ⟨some s, .available :: respCalls received.length true (sends s)⟩ := by
  have hreq : req.toList.length = 2048 := Vector.length_toList
  have htext : (untilNul received).length ≤ received.length := (List.takeWhile_sublist _).length_le
  unfold peekSize at hlen
  obtain ⟨req', hscan, hstr⟩ : ∃ req', scanRequest (untilNul received) req.toList = .ok req' ∧ cstr req' = .ok s :=
    scanRequest_some h (nul_notMem_untilNul received) (by omega) (by omega)
  rw [doResp_text hne hlen hbuf, hscan, Exec.ok_bind, hstr, Exec.ok_bind]
  rfl

/-- Without one it is called with what `req` held. -/
theorem doResp_leftover (hne : received ≠ []) (hlen : received.length ≤ peekSize)
    (hbuf : buf (received.length + 1) = some blk) (h : request (untilNul received) = none)
    (req : Vector UInt8 2048) :
    doResp sends ⟨buf, some req⟩ (some received) =
      (do let s ← cstr req.toList
          return ⟨some s, .available :: respCalls received.length true (sends s)⟩) := by
  rw [doResp_text hne hlen hbuf, scanRequest_none h, Exec.ok_bind]

end

end CompileService.Http
