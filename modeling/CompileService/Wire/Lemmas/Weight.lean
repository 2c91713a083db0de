import CompileService.Wire.TcpClient
import CompileService.Wire.Lemmas.Holds

/-!
# Counting bytes through the parser

`weight p` is the number of bytes that went into the unfinished message of `p`. For every length field and every
outcome of `malloc`, a call that does not fault returns and keeps at most the bytes that went in, so bytes that
one call loses are never made up for by later ones.
-/

namespace CompileService.Wire

open CompileService.Base

/-- The states between calls, for any value of the length field. -/
inductive Sane : MsgParser → Prop where
  | header {cache need} : 1 ≤ need → need ≤ 12 → Sane ⟨cache, false, need, none⟩
  | payload {cache need m} : -2 ^ 31 ≤ need → need < 2 ^ 31 → Sane ⟨cache, true, need, some m⟩

theorem Holds.sane {p : MsgParser} {s : List UInt8} (h : Holds p s) : Sane p := by
  cases h with
  | header hlen _ => exact .header (by omega) (by omega)
  | payload _ hlt _ hr => exact .payload (by omega) (by omega)

def retLen : Option Message → Nat
  | none => 0
  | some m => 12 + m.length.toNat

theorem sum_retLen {ms : List Message} (h : ∀ m ∈ ms, m.Full) :
    (ms.map fun m => retLen (some m)).sum = (wires ms).length := by
  induction ms with
  | nil => rfl
  | cons m ms ih =>
      have hm := h m (by simp)
      rw [List.map_cons, List.sum_cons, ih (fun m' hm' => h m' (by simp [hm'])), wires_cons,
        List.length_append, Message.length_wire, retLen, hm]

namespace MsgParser

def weight (p : MsgParser) : Nat :=
  match p.msg with
  | none => (12 - p.need).toNat
  | some m => 12 + ((m.length.toNat - p.need) % 2 ^ 32).toNat

theorem weight_none (cache : Header) (header : Bool) (need : Int) :
    weight ⟨cache, header, need, none⟩ = (12 - need).toNat := rfl

theorem weight_some (cache : Header) (header : Bool) (need : Int) (m : Message) :
    weight ⟨cache, header, need, some m⟩ = 12 + ((m.length.toNat - need) % 2 ^ 32).toNat := rfl

@[simp] theorem weight_initState (p : MsgParser) : p.initState.weight = 0 := by
  simp [weight, initState, sizeofMessage]

theorem Sane_initState (p : MsgParser) : Sane p.initState := .header (by decide) (by decide)

variable {malloc : Malloc} {cache : Header} {m : Message} {need : Int} {mem : Mem}

theorem finish_weight (cache : Header) (m : Message) (hlo : -2 ^ 31 ≤ need) (hhi : need < 2 ^ 31) :
    Sane (finish ⟨cache, true, need, some m⟩).2 ∧
      retLen (finish ⟨cache, true, need, some m⟩).1 + (finish ⟨cache, true, need, some m⟩).2.weight =
        weight ⟨cache, true, need, some m⟩ := by
  by_cases hneed : need = 0
  · subst hneed
    have hL := m.length.toNat_lt
    refine ⟨Sane_initState _, ?_⟩
    simp only [finish, toLastState, and_self, if_true, weight_initState, retLen, weight_some]
    omega
  · simp only [finish, toLastState, hneed, and_false, if_false, retLen, Nat.zero_add, and_true]
    exact .payload hlo hhi

theorem readMemPayload_weight {ret : Option Message} {p' : MsgParser} (hlo : -2 ^ 31 ≤ need)
    (hhi : need < 2 ^ 31) (h : readMemPayload ⟨cache, true, need, some m⟩ mem = .ok (ret, p')) :
    Sane p' ∧ retLen ret + p'.weight ≤ weight ⟨cache, true, need, some m⟩ + mem.bytes.length := by
  obtain ⟨payload, hcopy, hret⟩ := Exec.bind_eq_ok.mp h
  have hfin : finish ⟨cache, true, toInt32 (need - copyLen need mem.length),
      some { m with payload := payload }⟩ = (ret, p') := Except.ok.inj hret
  obtain ⟨hlen, hlen'⟩ := copyLen_of_memcpy hlo hhi hcopy
  obtain ⟨hlo', hhi'⟩ := toInt32_range (need - copyLen need mem.length)
  obtain ⟨hsane, hweight⟩ := finish_weight cache { m with payload := payload } hlo' hhi'
  rw [hfin] at hsane hweight
  refine ⟨hsane, ?_⟩
  rw [hweight, weight_some, weight_some]
  simp only [toInt32]
  omega

theorem toMidState_weight {p p' : MsgParser} {ok : Bool} (h : p.toMidState malloc = .ok (ok, p')) :
    ok = true → ∃ m need, p' = ⟨p.cache, true, need, some m⟩ ∧ -2 ^ 31 ≤ need ∧ need < 2 ^ 31 ∧
      p'.weight = 12 := by
  unfold toMidState at h
  intro hok
  simp only at h
  split at h
  · cases h
    cases hok
  · split at h
    · cases h
      obtain ⟨hlo, hhi⟩ := toInt32_range (p.cache.length.toNat : Int)
      refine ⟨_, _, rfl, hlo, hhi, ?_⟩
      rw [weight_some]
      simp only [toInt32]
      omega
    · cases h

theorem readMem_weight {p p' : MsgParser} {ret : Option Message} (hp : Sane p)
    (h : p.readMem malloc (some mem) = .ok (ret, p')) :
    Sane p' ∧ retLen ret + p'.weight ≤ p.weight + mem.bytes.length := by
  cases hp with
  | payload hlo hhi => exact readMemPayload_weight hlo hhi h
  | header hlo hhi =>
      rename_i cache need
      obtain ⟨bytes, hcopy, h⟩ := Exec.bind_eq_ok.mp h
      simp only at hcopy h
      obtain ⟨hlen, hlen'⟩ := copyLen_of_memcpy (by omega) (by omega) hcopy
      split at h
      · rename_i heq
        obtain ⟨⟨ok, q⟩, hmid, h⟩ := Exec.bind_eq_ok.mp h
        cases ok with
        | false =>
            cases h
            exact ⟨Sane_initState _, by simp [retLen]⟩
        | true =>
            obtain ⟨m, need', rfl, hlo', hhi', hweight⟩ := toMidState_weight hmid rfl
            obtain ⟨hsane, hle⟩ := readMemPayload_weight hlo' hhi' h
            refine ⟨hsane, ?_⟩
            rw [hweight] at hle
            have hadv : (mem.advance need.toNat).bytes.length = mem.bytes.length - need.toNat :=
              List.length_drop
            rw [weight_none]
            omega
      · rename_i hne
        cases h
        have hcases : copyLen need mem.length ≤ need := by
          unfold copyLen
          rw [toUInt32_of_range (by omega) (by omega)]
          split
          · exact Int.le_refl _
          · rw [toInt32_of_range (by omega) (by omega)]
            omega
        rw [toInt32_of_range (by omega) (by omega)]
        refine ⟨.header (by omega) (by omega), ?_⟩
        rw [weight_none, weight_none, retLen]
        omega

/-! ## `MParser_ReadFd` -/

section
variable {σ : Type} [Readable σ] {io io' : σ}

/-- A `ToRecv` that stays in its block stores what it reads, at most `size` bytes. -/
theorem recvAt_ok {blk blk' : List UInt8} {offset size : Int} {len : Nat}
    (h : recvAt io blk offset size = .ok (len, blk', io')) :
    ∃ bs, len = bs.length ∧ Reads io bs io' ∧ (bs = [] ∨ (bs.length : Int) ≤ size) := by
  unfold recvAt at h
  split at h
  · obtain ⟨⟨len', buf, io₁⟩, hrec, hret⟩ := Exec.bind_eq_ok.mp h
    cases hret
    by_cases hsize : size ≤ ((blk.drop offset.toNat).length : Nat)
    · obtain ⟨bs, fd', hreads, hle, huniform⟩ := toRecv_uniform io _ size 0 0 hsize
      cases hrec.symm.trans (huniform _ hsize)
      exact ⟨bs, Nat.zero_add _, hreads, by simpa using hle⟩
    · -- the loop faults at once
      rw [toRecv, if_pos (by omega), if_pos (by omega)] at hrec
      cases hrec
  · cases h

theorem readFdPayload_weight {ret : Option Message} {p' : MsgParser}
    (h : readFdPayload ⟨cache, true, need, some m⟩ io = .ok (ret, p', io')) :
    Sane p' ∧ ∃ bs, Reads io bs io' ∧
      retLen ret + p'.weight ≤ weight ⟨cache, true, need, some m⟩ + bs.length := by
  obtain ⟨⟨len, payload, io₁⟩, hrec, hret⟩ := Exec.bind_eq_ok.mp h
  obtain ⟨bs, rfl, hreads, hle⟩ := recvAt_ok hrec
  have hfin := Except.ok.inj hret
  simp only [Prod.mk.injEq] at hfin
  obtain ⟨rfl, rfl, rfl⟩ := hfin
  obtain ⟨hlo', hhi'⟩ := toInt32_range (need - bs.length)
  obtain ⟨hsane, hweight⟩ := finish_weight cache { m with payload := payload } hlo' hhi'
  refine ⟨hsane, bs, hreads, ?_⟩
  rw [hweight, weight_some, weight_some]
  simp only [toInt32]
  omega

theorem readFd_weight {p p' : MsgParser} {fd : Int} {ret : Option Message} (hp : Sane p)
    (h : p.readFd malloc fd io = .ok (ret, p', io')) :
    Sane p' ∧ ∃ bs, Reads io bs io' ∧ retLen ret + p'.weight ≤ p.weight + bs.length := by
  unfold readFd at h
  split at h
  · cases h
    exact ⟨hp, [], .nil, by simp [retLen]⟩
  cases hp with
  | payload _ _ => exact readFdPayload_weight h
  | header hlo hhi =>
      rename_i cache need
      simp only [Bool.false_eq_true, if_false] at h
      obtain ⟨⟨len, bytes, io₁⟩, hrec, h⟩ := Exec.bind_eq_ok.mp h
      obtain ⟨bs, rfl, hreads, hle⟩ := recvAt_ok hrec
      have hle' : (bs.length : Int) ≤ need := by
        rcases hle with rfl | hle
        · simp only [List.length_nil]
          omega
        · exact hle
      simp only at h
      split at h
      · rename_i heq
        obtain ⟨⟨ok, q⟩, hmid, h⟩ := Exec.bind_eq_ok.mp h
        cases ok with
        | false =>
            cases h
            exact ⟨Sane_initState _, bs, hreads, by simp [retLen]⟩
        | true =>
            obtain ⟨m, need', rfl, _, _, hweight⟩ := toMidState_weight hmid rfl
            obtain ⟨hsane, bs', hreads', hle''⟩ := readFdPayload_weight h
            refine ⟨hsane, bs ++ bs', hreads.trans hreads', ?_⟩
            rw [hweight] at hle''
            rw [weight_none, List.length_append]
            omega
      · rename_i hne
        cases h
        rw [toInt32_of_range (by omega) (by omega)]
        refine ⟨.header (by omega) (by omega), bs, hreads, ?_⟩
        rw [weight_none, weight_none, retLen]
        omega

end

end MsgParser

theorem Holds.weight_nil {p : MsgParser} (h : Holds p []) : p.weight = 0 := by
  generalize hs : ([] : List UInt8) = s at h
  cases h with
  | header _ _ =>
      subst hs
      rfl
  | payload =>
      have hlen := congrArg List.length hs
      rw [List.length_append, Header.length_wire, List.length_nil] at hlen
      omega

end CompileService.Wire
