import CompileService.Wire.Stream
import CompileService.Base.Run

/-!
# Allocations that fail in the middle of a stream

If `ToMidState` gets no block for a message, `MParser_ReadFd` gives up the header and expects another one, while the
payload is still in the stream. A reader of a stream of messages therefore stays in frame exactly if no allocation
fails for a message that has a payload.
-/

namespace CompileService.Wire

open CompileService.Base

/-- A reader of a stream: its parser, what the kernel holds for its descriptor, and the messages it got so far. -/
structure Reader (σ : Type) where
  parser : MsgParser
  io : σ
  got : List Message

namespace Reader

section
variable {σ : Type} [Readable σ]

/-- One `MParser_ReadFd`. -/
def step (fd : Int) (r : Reader σ) (malloc : Malloc) : Exec (Reader σ) := do
  let (ret, parser, io) ← r.parser.readFd malloc fd r.io
  return ⟨parser, io, r.got ++ ret.toList⟩

/-- If the call completes the header of a message with a payload, there is a block for the message. -/
def Allocates (fd : Int) (r : Reader σ) (malloc : Malloc) : Prop :=
  ∀ h, r.parser.headerOfFd fd r.io = some h → h.length ≠ 0 → malloc (blockSize h.length) ≠ none

end

/-- The messages returned are some of those sent, in order, and what the parser holds continues at the beginning of
a message. -/
def InFrame {σ : Type} [ByteStream σ] (ms : List Message) (r : Reader σ) : Prop :=
  ∃ j s, r.got.Sublist (ms.take j) ∧ Holds r.parser s ∧ s ++ ByteStream.inbox r.io = wires (ms.drop j)

end Reader

/-! ## Parts of the stream -/

theorem wires_drop_length_le (ms : List Message) {j k : Nat} (h : j ≤ k) :
    (wires (ms.drop k)).length ≤ (wires (ms.drop j)).length := by
  have hsplit : ms.drop j = (ms.drop j).take (k - j) ++ ms.drop k := by
    conv_lhs => rw [← List.take_append_drop (k - j) (ms.drop j)]
    rw [List.drop_drop, Nat.add_sub_cancel' h]
  rw [hsplit, wires_append, List.length_append]
  exact Nat.le_add_left _ _

theorem sublist_take_succ {got ms ms' : List Message} {m : Message} {j : Nat} (hj : ms.drop j = m :: ms')
    (h : got.Sublist (ms.take j)) (ret : Option Message) (hret : ret = none ∨ ret = some m) :
    (got ++ ret.toList).Sublist (ms.take (j + 1)) := by
  have htake : ms.take (j + 1) = ms.take j ++ [m] := by
    rw [List.take_add, hj]
    rfl
  rw [htake]
  refine h.append ?_
  rcases hret with rfl | rfl
  · exact List.nil_sublist _
  · exact List.Sublist.refl _

/-! ## One call -/

namespace Reader

section
variable {σ : Type} [ByteStream σ] {fd : Int} {ms : List Message} {r r' : Reader σ} {malloc : Malloc}

/-- A call in frame stays in frame, or it gives up the header of a message and leaves its payload in the stream. -/
theorem step_cases (hfd : fd ≠ -1) (hms : ∀ m ∈ ms, m.Sendable) (hr : r.InFrame ms) (malloc : Malloc) :
    ∃ r', r.step fd malloc = .ok r' ∧
      (((∀ h, r.parser.headerOfFd fd r.io = some h → malloc (blockSize h.length) ≠ none) ∧ r'.InFrame ms) ∨
      ∃ j m ms', ms.drop j = m :: ms' ∧ r.parser.headerOfFd fd r.io = some m.toHeader ∧
        malloc (blockSize m.length) = none ∧ r'.got.Sublist (ms.take (j + 1)) ∧ Holds r'.parser [] ∧
        ByteStream.inbox r'.io = m.payload ++ wires ms') := by
  obtain ⟨j, s, hgot, hp, hio⟩ := hr
  have hdrop : ∀ m ∈ ms.drop j, m.Sendable := fun m hm => hms m (List.mem_of_mem_drop hm)
  obtain ⟨bs, ret, p', io', hrun, hreads, hcase⟩ :=
    MsgParser.readFd_spec malloc hfd hp r.io (lengthOk_of_stream hdrop hp hio)
  refine ⟨⟨p', io', r.got ++ ret.toList⟩, by simp only [step, hrun, Exec.ok_bind]; rfl, ?_⟩
  rw [hreads.inbox_eq, ← List.append_assoc] at hio
  rcases hcase with ⟨h, hh, hnone, hwire, rfl, hp'⟩ | ⟨hall, hfed⟩
  · right
    rw [hwire] at hio
    obtain ⟨m, ms', hj, hhdr⟩ := wires_header hio (Header.length_wire h)
    have hheader : h = m.toHeader := by rw [← decodeHeader_wire h, hhdr, decodeHeader_wire]
    subst hheader
    refine ⟨j, m, ms', hj, hh, hnone, sublist_take_succ hj hgot none (Or.inl rfl), hp', ?_⟩
    rw [hj, wires_cons, Message.wire_eq, List.append_assoc] at hio
    exact List.append_cancel_left hio
  · refine Or.inl ⟨hall, ?_⟩
    generalize hs : s ++ bs = t at hio hfed
    cases hfed with
    | more hp' => exact ⟨j, t, by simpa using hgot, hp', hio⟩
    | done hfull hlt hp' =>
        rename_i m
        rw [List.append_nil] at hio
        obtain ⟨ms', hj, ht⟩ := wires_head hfull hdrop hio
        have hnext := drop_succ_of_drop hj
        exact ⟨j + 1, [], sublist_take_succ hj hgot (some m) (Or.inr rfl), hp', by rw [hnext]; simpa using ht⟩
    | drop _ hnone _ => cases hnone

theorem step_inFrame (hfd : fd ≠ -1) (hms : ∀ m ∈ ms, m.Sendable) (hr : r.InFrame ms)
    (halloc : r.Allocates fd malloc) : ∃ r', r.step fd malloc = .ok r' ∧ r'.InFrame ms := by
  obtain ⟨r', hrun, hcase⟩ := step_cases hfd hms hr malloc
  refine ⟨r', hrun, ?_⟩
  rcases hcase with ⟨_, hr'⟩ | ⟨j, m, ms', hj, hh, hnone, hgot, hp, hio⟩
  · exact hr'
  · -- the message that is given up has no payload
    have hlen : m.length = 0 := by
      by_contra hne
      exact halloc m.toHeader hh hne hnone
    have hfull : m.Full := (hms m (List.mem_of_mem_drop (by rw [hj]; exact List.mem_cons_self))).1
    have hpay : m.payload = [] := List.eq_nil_of_length_eq_zero (by rw [hfull, hlen]; rfl)
    rw [hpay, List.nil_append] at hio
    exact ⟨j + 1, [], hgot, hp, by rw [drop_succ_of_drop hj]; exact hio⟩

/-- In the middle of a stream there is no message boundary inside a payload. -/
theorem not_inFrame {j : Nat} {m : Message} {ms' : List Message} (hj : ms.drop j = m :: ms') (hne : m.payload ≠ [])
    (hp : Holds r.parser []) (hio : ByteStream.inbox r.io = m.payload ++ wires ms') : ¬ r.InFrame ms := by
  rintro ⟨k, s, _, hp', hio'⟩
  rw [hp.initial_unique hp', List.nil_append, hio] at hio'
  have hlen := congrArg List.length hio'
  have hpos : 0 < m.payload.length := List.length_pos_of_ne_nil hne
  rw [List.length_append] at hlen
  rcases Nat.lt_or_ge j k with hlt | hge
  · have hle := wires_drop_length_le ms hlt
    rw [drop_succ_of_drop hj] at hle
    omega
  · have hle := wires_drop_length_le ms hge
    rw [hj, wires_cons, List.length_append, Message.length_wire] at hle
    omega

theorem allocates_of_step (hfd : fd ≠ -1) (hms : ∀ m ∈ ms, m.Sendable) (hr : r.InFrame ms)
    (hrun : r.step fd malloc = .ok r') (hr' : r'.InFrame ms) : r.Allocates fd malloc := by
  obtain ⟨r₁, hrun₁, hcase⟩ := step_cases hfd hms hr malloc
  obtain rfl := Except.ok.inj (hrun.symm.trans hrun₁)
  rcases hcase with ⟨hall, _⟩ | ⟨j, m, ms', hj, hh, hnone, _, hp, hio⟩
  · exact fun h hh _ => hall h hh
  · intro h hh' hne
    obtain rfl := Option.some.inj (hh.symm.trans hh')
    have hfull : m.Full := (hms m (List.mem_of_mem_drop (by rw [hj]; exact List.mem_cons_self))).1
    have hpay : m.payload ≠ [] := by
      intro hnil
      rw [Message.Full, hnil] at hfull
      exact hne (UInt32.toNat.inj hfull.symm)
    exact absurd hr' (not_inFrame hj hpay hp hio)

/-! ## All calls -/

/-- Staying in frame. However the stream is cut and whichever allocations fail, the messages returned are some of
those sent and no byte of a payload is taken for a header, if and only if every header of a message with a payload
finds a block. -/
theorem inFrame_iff (hfd : fd ≠ -1) (hms : ∀ m ∈ ms, m.Sendable) {io : σ}
    (hsent : TcpClient.sendAll ms = .ok (ByteStream.inbox io)) (mallocs : List Malloc) :
    Always (step fd) (InFrame ms) ⟨MsgParser.fresh, io, []⟩ mallocs ↔
      Along (step fd) (Allocates fd) ⟨MsgParser.fresh, io, []⟩ mallocs := by
  rw [TcpClient.sendAll_eq hms] at hsent
  have hio := Except.ok.inj hsent
  have hstart : InFrame ms ⟨MsgParser.fresh, io, []⟩ :=
    ⟨0, [], List.nil_sublist _, Holds.fresh, by rw [List.nil_append, List.drop_zero, hio]⟩
  exact always_iff (fun _ h => h) (fun r malloc hr halloc => step_inFrame hfd hms hr halloc)
    (fun r malloc r' hr hrun hr' => allocates_of_step hfd hms hr hrun hr') hstart mallocs

end

/-- There is no block for a message without payload, which is then skipped. -/
theorem inFrame_skips_empty :
    let ms : List Message := [⟨⟨1, 2, 3, 4, 0⟩, []⟩, ⟨⟨5, 6, 7, 8, 2⟩, [7, 8]⟩]
    let malloc : Malloc := fun n => if n = 12 then none else Malloc.zeroed n
    let io : Sock := ⟨wires ms, Stream'.const (.count 4)⟩
    Always (step 3) (InFrame ms) ⟨MsgParser.fresh, io, []⟩ [malloc, malloc, malloc] := by
  intro ms malloc io
  have hms : ∀ m ∈ ms, m.Sendable := by decide
  have halloc : ∀ r : Reader Sock, r.Allocates 3 malloc := by
    intro r h _ hne hnone
    have hlt := h.length.toNat_lt
    have hpos : h.length.toNat ≠ 0 := fun hzero => hne (UInt32.toNat.inj hzero)
    have hsize : blockSize h.length ≠ 12 := by
      simp only [blockSize, sizeofMessage, toSize, toInt32]
      omega
    simp only [malloc, if_neg hsize] at hnone
    cases hnone
  exact (inFrame_iff (by decide) hms (TcpClient.sendAll_eq hms) _).mpr
    ⟨halloc _, fun r _ => ⟨halloc r, fun r _ => ⟨halloc r, fun _ _ => trivial⟩⟩⟩

/-- The payload of a message that finds no block is taken for a message of its own. -/
theorem payload_taken_for_header :
    let m : Message := ⟨⟨1, 2, 3, 4, 12⟩, [0, 9, 0, 0, 0, 0, 0, 0, 0, 0, 0, 0]⟩
    let io : Sock := ⟨wires [m], Stream'.const (.count 100)⟩
    m.Sendable ∧ ∃ r, [fun _ => none, Malloc.zeroed].foldlM (step 3) ⟨MsgParser.fresh, io, []⟩ = .ok r ∧
      r.got = [⟨⟨9, 0, 0, 0, 0⟩, []⟩] ∧ ¬ r.got.Sublist [m] := by
  intro m io
  have hgot : ([fun _ => none, Malloc.zeroed].foldlM (step 3) ⟨MsgParser.fresh, io, []⟩).map Reader.got =
      .ok [⟨⟨9, 0, 0, 0, 0⟩, []⟩] := by
    decide +kernel
  refine ⟨by decide, ?_⟩
  cases hrun : [fun _ => none, Malloc.zeroed].foldlM (step 3) ⟨MsgParser.fresh, io, []⟩ with
  | error e =>
      rw [hrun] at hgot
      cases hgot
  | ok r =>
      rw [hrun] at hgot
      have hr : r.got = [⟨⟨9, 0, 0, 0, 0⟩, []⟩] := Except.ok.inj hgot
      exact ⟨r, rfl, hr, by rw [hr]; decide⟩

end Reader

end CompileService.Wire
