import CompileService.Http.DoResp

/-!
# Where the request comes from

`DoResp` scans the request into a block that `malloc` has just returned and does not look at the result of `sscanf`.
The request depends on the received bytes alone exactly if the scan converts; otherwise it is what the block held.
-/

namespace CompileService.Http

open CompileService.Base

section
variable {received : List UInt8}

/-- The request does not depend on the contents of `req` if and only if `buf` is not allocated or the text that was
received, up to a NUL, is `GET` and at least one character that is not white space. -/
theorem doResp_request_iff (hne : received ≠ []) (hlen : received.length ≤ peekSize) (sends : CStr → Nat)
    (buf : Malloc) :
    (∀ req req' : Vector UInt8 2048,
      (doResp sends ⟨buf, some req⟩ (some received)).map Resp.request =
        (doResp sends ⟨buf, some req'⟩ (some received)).map Resp.request) ↔
      buf (received.length + 1) = none ∨
        ∃ rest, untilNul received = ascii "GET" ++ rest ∧ ∃ b ∈ rest, isSpace b = false := by
  rw [← request_isSome_iff]
  constructor
  · intro h
    cases hbuf : buf (received.length + 1) with
    | none => exact .inl rfl
    | some blk =>
        right
        cases hreq : request (untilNul received) with
        | some s => rfl
        | none =>
            -- two blocks with different strings
            obtain ⟨req, hstr⟩ := exists_block (s := []) (n := 2048) List.not_mem_nil (by decide)
            obtain ⟨req', hstr'⟩ := exists_block (s := [1]) (n := 2048) (by decide) (by decide)
            have hsame := h req req'
            rw [doResp_leftover hne hlen hbuf hreq, doResp_leftover hne hlen hbuf hreq, hstr, hstr'] at hsame
            cases Option.some.inj (Except.ok.inj hsame)
  · rintro (hbuf | hreq) req req'
    · rw [doResp_unallocated hne hbuf, doResp_unallocated hne hbuf]
    · obtain ⟨s, hs⟩ := Option.isSome_iff_exists.mp hreq
      cases hbuf : buf (received.length + 1) with
      | none => rw [doResp_unallocated hne hbuf, doResp_unallocated hne hbuf]
      | some blk => rw [doResp_request hne hlen hbuf hs, doResp_request hne hlen hbuf hs]

end

theorem doResp_request_get :
    ascii "GET / HTTP/1.1" ≠ [] ∧ (ascii "GET / HTTP/1.1").length ≤ peekSize ∧
      ∀ req req' : Vector UInt8 2048,
        (doResp (fun _ => 0) ⟨Malloc.zeroed, some req⟩ (some (ascii "GET / HTTP/1.1"))).map Resp.request =
          (doResp (fun _ => 0) ⟨Malloc.zeroed, some req'⟩ (some (ascii "GET / HTTP/1.1"))).map Resp.request := by
  have hne : ascii "GET / HTTP/1.1" ≠ [] := by decide
  have hlen : (ascii "GET / HTTP/1.1").length ≤ peekSize := by decide +kernel
  refine ⟨hne, hlen, (doResp_request_iff hne hlen (fun _ => 0) Malloc.zeroed).mpr (.inr ?_)⟩
  exact ⟨ascii " / HTTP/1.1", by decide, slash, by decide, by decide⟩

/-- A `POST` is answered with the page that an earlier user of the block asked for. -/
theorem doResp_request_post :
    (doResp (fun _ => 0) ⟨Malloc.zeroed, some (Vector.replicate 2048 0)⟩ (some (ascii "POST / HTTP/1.1"))).map
        Resp.request = .ok (some []) ∧
      (doResp (fun _ => 0) ⟨Malloc.zeroed, some ((Vector.replicate 2048 0).set 0 slash)⟩
        (some (ascii "POST / HTTP/1.1"))).map Resp.request = .ok (some [slash]) := by
  decide +kernel

end CompileService.Http
