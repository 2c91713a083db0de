import CompileService.Wire.Stream
import CompileService.Wire.Lemmas.Weight

/-!
# Messages in chunks

The encodings of a sequence of messages are handed to `MParser_ReadMem` chunk by chunk. A call returns at most one
message and has no way to give bytes back, so what follows a completed message in its chunk is lost: the
messages are delivered exactly when no chunk reaches past the end of a message.
-/

namespace CompileService.Wire

open CompileService.Base

def readMemCalls : List (Malloc × Mem) → MsgParser → Exec (List (Option Message) × MsgParser)
  | [], p => .ok ([], p)
  | (malloc, mem) :: calls, p => do
      let (ret, p) ← p.readMem malloc (some mem)
      let (rets, p) ← readMemCalls calls p
      return (ret :: rets, p)

def Delivers (calls : List (Malloc × Mem)) (p : MsgParser) (ms : List Message) : Prop :=
  ∃ rets p', readMemCalls calls p = .ok (rets, p') ∧ rets.filterMap id = ms

def chunksOf (calls : List (Malloc × Mem)) : List UInt8 := (calls.map fun c => c.2.bytes).flatten

def spans : Nat → List (Malloc × Mem) → List (Nat × Nat)
  | _, [] => []
  | pos, (_, mem) :: calls => (pos, pos + mem.bytes.length) :: spans (pos + mem.bytes.length) calls

/-- No chunk reaches past the end of a message that it holds bytes of. -/
def OnePerChunk (ms : List Message) (pos : Nat) (calls : List (Malloc × Mem)) : Prop :=
  ∀ span ∈ spans pos calls, ∀ k < ms.length, span.1 < endOf ms k → span.2 ≤ endOf ms k

instance (ms : List Message) (pos : Nat) (calls : List (Malloc × Mem)) :
    Decidable (OnePerChunk ms pos calls) :=
  inferInstanceAs (Decidable (∀ span ∈ spans pos calls, ∀ k < ms.length, _ → _))

theorem OnePerChunk_cons {ms : List Message} {pos : Nat} {malloc : Malloc} {mem : Mem}
    {calls : List (Malloc × Mem)} : OnePerChunk ms pos ((malloc, mem) :: calls) ↔
      (∀ k < ms.length, pos < endOf ms k → pos + mem.bytes.length ≤ endOf ms k) ∧
        OnePerChunk ms (pos + mem.bytes.length) calls := by
  simp [OnePerChunk, spans]

theorem Delivers_cons {malloc : Malloc} {mem : Mem} {calls : List (Malloc × Mem)} {p p' : MsgParser}
    {ret : Option Message} {ms : List Message} (h : p.readMem malloc (some mem) = .ok (ret, p')) :
    Delivers ((malloc, mem) :: calls) p ms ↔
      ∃ ms', Delivers calls p' ms' ∧ ms = ret.toList ++ ms' := by
  constructor
  · rintro ⟨rets, q, hrun, rfl⟩
    simp only [readMemCalls, h, Exec.ok_bind] at hrun
    obtain ⟨⟨rets', q'⟩, hrun', hret⟩ := Exec.bind_eq_ok.mp hrun
    cases hret
    refine ⟨_, ⟨rets', q', hrun', rfl⟩, ?_⟩
    cases ret <;> rfl
  · rintro ⟨ms', ⟨rets, q, hrun, rfl⟩, rfl⟩
    refine ⟨ret :: rets, q, ?_, by cases ret <;> rfl⟩
    simp only [readMemCalls, h, Exec.ok_bind, hrun]
    rfl

theorem Delivers.length_le {calls : List (Malloc × Mem)} {p : MsgParser} {ms : List Message}
    (hp : Sane p) (h : Delivers calls p ms) :
    (ms.map fun m => retLen (some m)).sum ≤ p.weight + (chunksOf calls).length := by
  induction calls generalizing p ms with
  | nil =>
      obtain ⟨rets, p', hrun, rfl⟩ := h
      cases hrun
      simp
  | cons call calls ih =>
      obtain ⟨malloc, mem⟩ := call
      obtain ⟨rets, q, hrun, rfl⟩ := h
      obtain ⟨⟨ret, p'⟩, hcall, _⟩ := Exec.bind_eq_ok.mp hrun
      obtain ⟨hp', hweight⟩ := MsgParser.readMem_weight hp hcall
      obtain ⟨ms', hrest, hms⟩ := (Delivers_cons hcall).mp ⟨rets, q, hrun, rfl⟩
      have hle := ih hp' hrest
      have hret : (ret.toList.map fun m => retLen (some m)).sum = retLen ret := by
        cases ret <;> simp [retLen]
      rw [hms, List.map_append, List.sum_append, hret]
      simp only [chunksOf, List.map_cons, List.flatten_cons, List.length_append] at hle ⊢
      omega

/-! ## One call in step with the stream -/

section call
variable {malloc : Malloc} {ms : List Message} {p : MsgParser} {s t : List UInt8} {mem : Mem}

theorem lengthOk_of_chunk (hms : ∀ m ∈ ms, m.Sendable) (hp : Holds p s)
    (hmem : s ++ mem.bytes ++ t = wires ms) :
    ∀ h, p.headerOfMem mem = some h → LengthOk malloc h := by
  intro h hh
  obtain ⟨hlen, rfl⟩ := MsgParser.headerOfMem_eq hp hh
  rw [← List.take_append_drop 12 (s ++ mem.bytes), List.append_assoc] at hmem
  obtain ⟨m, ms', rfl, hhdr⟩ := wires_header hmem (by rw [List.length_take, Nat.min_eq_left hlen])
  rw [hhdr, decodeHeader_wire]
  exact Or.inl (hms m (by simp)).length_lt

/-- A call in step with the stream stays inside the first message, or returns it and drops the rest of the
chunk. -/
theorem readMem_step (hserves : malloc.Serves) (hms : ∀ m ∈ ms, m.Sendable) (hp : Holds p s)
    (hmem : s ++ mem.bytes ++ t = wires ms) :
    ∃ ret p', p.readMem malloc (some mem) = .ok (ret, p') ∧
      ((ret = none ∧ Holds p' (s ++ mem.bytes)) ∨
        ∃ m ms' rest, ms = m :: ms' ∧ ret = some m ∧ Holds p' [] ∧ s ++ mem.bytes = m.wire ++ rest ∧
          rest ++ t = wires ms') := by
  obtain ⟨ret, p', rest, hrun, hfed⟩ :=
    MsgParser.readMem_fed malloc hp mem (lengthOk_of_chunk hms hp hmem)
  refine ⟨ret, p', hrun, ?_⟩
  generalize hs : s ++ mem.bytes = s' at hmem hfed
  cases hfed with
  | more hp' => exact Or.inl ⟨rfl, hp'⟩
  | done hfull hlt hp' =>
      rename_i m
      rw [List.append_assoc] at hmem
      obtain ⟨ms', rfl, ht⟩ := wires_head hfull hms hmem
      exact Or.inr ⟨m, ms', rest, rfl, rfl, hp', rfl, ht⟩
  | drop hlen hnone hp' =>
      rename_i hdr
      rw [List.append_assoc] at hmem
      obtain ⟨m, ms', rfl, rfl⟩ := wires_header hmem hlen
      have hlt := (hms m (by simp)).length_lt
      rw [decodeHeader_wire] at hnone
      exact absurd hnone (hserves _ (by rw [blockSize_of_lt hlt]; unfold ptrdiffMax; omega))

end call

/-! ## All chunks -/

/-- A span that goes on from inside message `j` and ends where message `j` does. -/
theorem le_endOf_of_exact {ms : List Message} {j a : Nat} :
    ∀ k < ms.length, startOf ms j + a < endOf ms k → startOf ms (j + 1) ≤ endOf ms k := by
  intro k _ hlt
  refine startOf_mono ms ?_
  by_contra hkj
  exact absurd (Nat.lt_of_le_of_lt (Nat.le_add_right _ _) hlt) (Nat.not_lt.mpr (startOf_mono ms (by omega)))

/-- With a part of the stream gone, not all of it is delivered. -/
theorem Holds.not_delivers {p : MsgParser} {ms : List Message} {rest : List UInt8} {calls : List (Malloc × Mem)}
    (hp : Holds p []) (hfull : ∀ m ∈ ms, m.Full) (hrest : rest ++ chunksOf calls = wires ms) (hne : rest ≠ []) :
    ¬ Delivers calls p ms := by
  intro hdel
  have hpos : 0 < rest.length := List.length_pos_of_ne_nil hne
  have hle := hdel.length_le hp.sane
  rw [sum_retLen hfull, ← hrest, List.length_append, hp.weight_nil] at hle
  omega

/-- A span within message `j` ends before any message that it begins before. -/
theorem Holds.span_inside {p : MsgParser} {ms : List Message} {s bytes t : List UInt8} {j : Nat}
    (hp : Holds p (s ++ bytes)) (hms : ∀ m ∈ ms, m.Sendable) (hmem : s ++ bytes ++ t = wires (ms.drop j)) :
    ∀ k < ms.length, startOf ms j + s.length < endOf ms k →
      startOf ms j + s.length + bytes.length ≤ endOf ms k := by
  intro k hk hlt
  refine Nat.le_of_lt (lt_endOf_of_inside (Nat.le_add_right _ _) (fun hjlt => ?_) k hk hlt)
  have hcons := List.drop_eq_getElem_cons hjlt
  rw [hcons] at hmem
  have hlt' := hp.length_lt (hms _ (List.getElem_mem hjlt)) hmem
  rw [List.length_append] at hlt'
  rw [endOf, startOf_succ hcons]
  omega

/-- A span that goes on past message `j` does not end where the message does. -/
theorem Holds.span_past {p : MsgParser} {ms ms' : List Message} {m : Message} {s bytes rest t : List UInt8} {j : Nat}
    (hp : Holds p s) (hm : m.Sendable) (hj : ms.drop j = m :: ms') (hmem : s ++ bytes ++ t = wires (m :: ms'))
    (hs : s ++ bytes = m.wire ++ rest) (hne : rest ≠ []) :
    ¬ ∀ k < ms.length, startOf ms j + s.length < endOf ms k →
      startOf ms j + s.length + bytes.length ≤ endOf ms k := by
  intro hspan
  have hsucc := startOf_succ hj
  have hjlt : j < ms.length := (List.getElem?_eq_some_iff.mp (getElem?_of_drop hj)).1
  have hlt : s.length < m.wire.length := by
    rw [List.append_assoc] at hmem
    exact hp.length_lt hm hmem
  have hlen := congrArg List.length hs
  rw [List.length_append, List.length_append] at hlen
  have hle := hspan j hjlt (by rw [endOf, hsucc]; omega)
  rw [endOf, hsucc] at hle
  have hpos : 0 < rest.length := List.length_pos_of_ne_nil hne
  omega

theorem delivers_iff {ms : List Message} (hms : ∀ m ∈ ms, m.Sendable) {calls : List (Malloc × Mem)}
    (hserves : ∀ call ∈ calls, call.1.Serves) {p : MsgParser} {s : List UInt8} {j : Nat}
    (hp : Holds p s) (hcut : s ++ chunksOf calls = wires (ms.drop j)) :
    Delivers calls p (ms.drop j) ↔ OnePerChunk ms (startOf ms j + s.length) calls := by
  induction calls generalizing p s j with
  | nil =>
      have hdrop : ms.drop j = [] :=
        hp.eq_nil (fun m hm => hms m (List.mem_of_mem_drop hm)) (by simpa [chunksOf] using hcut)
      rw [hdrop]
      exact ⟨fun _ => by simp [OnePerChunk, spans], fun _ => ⟨[], p, rfl, rfl⟩⟩
  | cons call calls ih =>
      obtain ⟨malloc, mem⟩ := call
      have hserves' : ∀ call ∈ calls, call.1.Serves := fun call hc => hserves call (by simp [hc])
      have hmem : s ++ mem.bytes ++ chunksOf calls = wires (ms.drop j) := by
        rw [← hcut, List.append_assoc]
        rfl
      have hserve : malloc.Serves := hserves (malloc, mem) (by simp)
      obtain ⟨ret, p', hrun, hcase⟩ := readMem_step hserve
        (fun m hm => hms m (List.mem_of_mem_drop hm)) hp hmem
      rw [Delivers_cons hrun, OnePerChunk_cons]
      rcases hcase with ⟨rfl, hp'⟩ | ⟨m, ms', rest, hj, rfl, hp', hs, hrest⟩
      · have hih := ih hserves' hp' hmem
        rw [List.length_append, ← Nat.add_assoc] at hih
        simp only [Option.toList_none, List.nil_append, exists_eq_right', hih]
        exact (and_iff_right (hp'.span_inside hms hmem)).symm
      · have hsucc := startOf_succ hj
        have hnext := drop_succ_of_drop hj
        have hms' : ∀ m' ∈ m :: ms', m'.Sendable := fun m' hm' => hms m' (List.mem_of_mem_drop (hj ▸ hm'))
        have hlen := congrArg List.length hs
        rw [List.length_append, List.length_append] at hlen
        by_cases hnil : rest = []
        · -- the chunk ends with the message
          subst hnil
          have hih := ih hserves' (j := j + 1) hp' (by rw [hnext]; simpa using hrest)
          have hpos : startOf ms j + s.length + mem.bytes.length =
              startOf ms (j + 1) + ([] : List UInt8).length := by
            simp only [List.length_nil] at hlen ⊢
            omega
          rw [hpos, ← hih, hnext, hj]
          simp only [Option.toList_some, List.singleton_append, List.cons.injEq, true_and,
            exists_eq_right']
          exact (and_iff_right le_endOf_of_exact).symm
        · -- the rest of the chunk is lost, and with it a message
          constructor
          · rintro ⟨ms'', hdel, heq⟩
            rw [hj, Option.toList_some, List.singleton_append, List.cons.injEq] at heq
            obtain ⟨_, rfl⟩ := heq
            have hfull : ∀ m' ∈ ms', m'.Full := fun m' hm' => (hms' m' (List.mem_cons_of_mem m hm')).1
            exact absurd hdel (hp'.not_delivers hfull hrest hnil)
          · rintro ⟨hspan, _⟩
            rw [hj] at hmem
            exact absurd hspan (hp.span_past (hms' m List.mem_cons_self) hj hmem hs hnil)

/-- Chunk invariance. For every division of the encodings into chunks, `MParser_ReadMem` delivers every message
in order and unchanged if and only if no chunk reaches past the end of a message that it holds bytes of. -/
theorem readMem_delivers_iff {ms : List Message} (hms : ∀ m ∈ ms, m.Sendable)
    {calls : List (Malloc × Mem)} (hserves : ∀ call ∈ calls, call.1.Serves)
    (hcut : chunksOf calls = wires ms) :
    Delivers calls MsgParser.fresh ms ↔ OnePerChunk ms 0 calls :=
  delivers_iff (j := 0) (s := []) hms hserves Holds.fresh hcut

theorem readMem_delivers_two_chunks :
    Delivers [(.zeroed, ⟨[0, 1, 0, 2, 0, 3, 0, 4, 0, 0, 0, 4], by decide⟩),
        (.zeroed, ⟨[0x11, 0x12, 0x13, 0x14], by decide⟩)]
      MsgParser.fresh [⟨⟨1, 2, 3, 4, 4⟩, [0x11, 0x12, 0x13, 0x14]⟩] :=
  (readMem_delivers_iff (by decide)
    (by
      intro call hcall
      simp only [List.mem_cons, List.not_mem_nil, or_false] at hcall
      rcases hcall with rfl | rfl <;> exact Malloc.zeroed_serves)
    (by decide)).mpr (by decide)

/-- One chunk with two messages: the second is lost. -/
theorem readMem_loses_second :
    let m : Message := ⟨⟨1, 2, 3, 4, 0⟩, []⟩
    let mem : Mem := ⟨[0, 1, 0, 2, 0, 3, 0, 4, 0, 0, 0, 0, 0, 1, 0, 2, 0, 3, 0, 4, 0, 0, 0, 0], by decide⟩
    mem.bytes = wires [m, m] ∧ m.Sendable ∧ Malloc.zeroed.Serves ∧
      ¬ Delivers [(.zeroed, mem)] MsgParser.fresh [m, m] := by
  intro m mem
  have hms : ∀ m' ∈ [m, m], m'.Sendable := by decide
  have hserves : ∀ call ∈ [(Malloc.zeroed, mem)], call.1.Serves := by
    intro call hcall
    rw [List.mem_singleton.mp hcall]
    exact Malloc.zeroed_serves
  refine ⟨by decide, by decide, Malloc.zeroed_serves, fun hdel => ?_⟩
  have hone : OnePerChunk [m, m] 0 [(Malloc.zeroed, mem)] :=
    (delivers_iff (j := 0) (s := []) hms hserves Holds.fresh (by decide)).mp hdel
  exact absurd hone (by decide)

end CompileService.Wire
