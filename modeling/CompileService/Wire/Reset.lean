import CompileService.Wire.Bounds

/-!
# A reset parser is as good as new

`InitState` leaves the cache as it is. The stale bytes are never read: two parsers in the header state whose caches
agree on the bytes that were received go through any calls with the same results, and once the header is complete
they are equal. Nothing is assumed about the lengths of messages, earlier or later.
-/

namespace CompileService.Wire

open CompileService.Base

section
variable {σ : Type} [Readable σ]

/-- One call, with its result and with what it leaves of the descriptor. -/
def Op.call (p : MsgParser) : Op σ → Exec ((Option Message × Option σ) × MsgParser)
  | .readMem malloc mem => do
      let (ret, p) ← p.readMem malloc mem
      return ((ret, none), p)
  | .readFd malloc fd io => do
      let (ret, p, io) ← p.readFd malloc fd io
      return ((ret, some io), p)
  | .reset => .ok ((none, none), p.reset)

def MsgParser.results : List (Op σ) → MsgParser → Exec (List (Option Message × Option σ))
  | [], _ => .ok []
  | op :: ops, p => do
      let (res, p) ← op.call p
      let rest ← results ops p
      return res :: rest

end

namespace MsgParser

/-- Parsers that differ at most in bytes of the cache that no message has been received into. -/
inductive Alike : MsgParser → MsgParser → Prop where
  | same {p} : Alike p p
  | header {cache cache' s} : s.length < 12 → cache.bytes.take s.length = s → cache'.bytes.take s.length = s →
      Alike ⟨cache, false, 12 - s.length, none⟩ ⟨cache', false, 12 - s.length, none⟩

theorem Alike.init (p q : MsgParser) : Alike p.initState q.initState :=
  .header (s := []) (by decide) rfl rfl

/-- Both computations fault alike, or they return the same and leave parsers that are alike. -/
def Matches {α : Type} (x y : Exec (α × MsgParser)) : Prop :=
  (∃ e, x = .error e ∧ y = .error e) ∨ ∃ a p q, x = .ok (a, p) ∧ y = .ok (a, q) ∧ Alike p q

theorem Matches.of_eq {α : Type} {x y : Exec (α × MsgParser)} (h : x = y) : Matches x y := by
  subst h
  cases x with
  | error e => exact Or.inl ⟨e, rfl, rfl⟩
  | ok r => exact Or.inr ⟨r.1, r.2, r.2, rfl, rfl, .same⟩

/-! ## One call -/

section
variable {malloc : Malloc} {cache cache' : Header} {s bs : List UInt8}

theorem fill_alike (htake : cache.bytes.take s.length = s) (htake' : cache'.bytes.take s.length = s)
    (hlt : s.length + bs.length < 12) :
    Alike ⟨Header.ofBytes (writeAt cache.bytes s.length bs), false, 12 - (s.length + bs.length : Nat), none⟩
      ⟨Header.ofBytes (writeAt cache'.bytes s.length bs), false, 12 - (s.length + bs.length : Nat), none⟩ := by
  obtain ⟨hlen, hgot⟩ := fill_spec htake (Nat.le_of_lt hlt)
  obtain ⟨hlen', hgot'⟩ := fill_spec htake' (Nat.le_of_lt hlt)
  rw [← List.length_append]
  exact .header (by rw [List.length_append]; exact hlt) (by rw [Header.bytes_ofBytes hlen]; exact hgot)
    (by rw [Header.bytes_ofBytes hlen']; exact hgot')

theorem readMem_matches (malloc : Malloc) {p q : MsgParser} (h : Alike p q) (mem : Option Mem) :
    Matches (p.readMem malloc mem) (q.readMem malloc mem) := by
  cases h with
  | same => exact .of_eq rfl
  | header hlen htake htake' =>
      rename_i cache cache' s
      cases mem with
      | none => exact Or.inr ⟨none, _, _, rfl, rfl, .header hlen htake htake'⟩
      | some mem =>
          let n := min (12 - s.length) mem.length
          have hn : (mem.bytes.take n).length = n := by
            rw [List.length_take]
            exact Nat.min_eq_left (Nat.min_le_right _ _)
          have hn' : n ≤ 12 - s.length := Nat.min_le_left _ _
          rw [readMem_header (n := n) hlen rfl, readMem_header (n := n) hlen rfl]
          by_cases hall : s.length + n = 12
          · -- the header is complete, and the same in both
            rw [if_pos hall, if_pos hall, fill_full htake (by rw [hn]; exact hall),
              fill_full htake' (by rw [hn]; exact hall)]
            exact .of_eq rfl
          · have hlt : s.length + (mem.bytes.take n).length < 12 := by omega
            have halike := fill_alike htake htake' hlt
            rw [hn] at halike
            rw [if_neg hall, if_neg hall]
            exact Or.inr ⟨none, _, _, rfl, rfl, halike⟩

end

section
variable {σ : Type} [Readable σ] {p q : MsgParser}

theorem call_readFd_matches (malloc : Malloc) (h : Alike p q) (fd : Int) (io : σ) :
    Matches ((Op.readFd malloc fd io).call p) ((Op.readFd malloc fd io).call q) := by
  cases h with
  | same => exact .of_eq rfl
  | header hlen htake htake' =>
      rename_i cache cache' s
      by_cases hfd : fd = -1
      · subst hfd
        exact Or.inr ⟨(none, some io), _, _, rfl, rfl, .header hlen htake htake'⟩
      · obtain ⟨bs, io', _, hle, hrec⟩ := recvHeader_uniform hlen io
        simp only [Op.call, readFd_header hfd hlen hle (hrec cache), readFd_header hfd hlen hle (hrec cache')]
        by_cases hall : s.length + bs.length = 12
        · rw [if_pos hall, if_pos hall, fill_full htake hall, fill_full htake' hall]
          exact .of_eq rfl
        · rw [if_neg hall, if_neg hall]
          have hlt : s.length + bs.length < 12 := Nat.lt_of_le_of_ne hle hall
          exact Or.inr ⟨(none, some io'), _, _, rfl, rfl, fill_alike htake htake' hlt⟩

theorem call_matches (h : Alike p q) (op : Op σ) : Matches (op.call p) (op.call q) := by
  cases op with
  | readMem malloc mem =>
      rcases readMem_matches malloc h mem with ⟨e, hp, hq⟩ | ⟨ret, p', q', hp, hq, h'⟩
      · exact Or.inl ⟨e, by simp only [Op.call, hp, Exec.error_bind], by simp only [Op.call, hq, Exec.error_bind]⟩
      · refine Or.inr ⟨(ret, none), p', q', ?_, ?_, h'⟩
        · simp only [Op.call, hp, Exec.ok_bind]
          rfl
        · simp only [Op.call, hq, Exec.ok_bind]
          rfl
  | readFd malloc fd io => exact call_readFd_matches malloc h fd io
  | reset => exact Or.inr ⟨(none, none), _, _, rfl, rfl, .init p q⟩

/-! ## Runs -/

theorem results_alike (h : Alike p q) (ops : List (Op σ)) : results ops p = results ops q := by
  induction ops generalizing p q with
  | nil => rfl
  | cons op ops ih =>
      rcases call_matches h op with ⟨e, hp, hq⟩ | ⟨res, p', q', hp, hq, h'⟩
      · simp only [results, hp, hq, Exec.error_bind]
      · simp only [results, hp, hq, Exec.ok_bind, ih h']

/-! ## After a message -/

variable {malloc : Malloc} {m : Message} {p' : MsgParser} {io io' : σ}

theorem finish_some (h : p.finish = (some m, p')) : ∃ r : MsgParser, p' = r.initState := by
  unfold finish at h
  split at h
  · obtain ⟨_, rfl⟩ := Prod.mk.inj h
    exact ⟨_, rfl⟩
  · cases h

theorem readMemPayload_some {mem : Mem} (h : p.readMemPayload mem = .ok (some m, p')) :
    ∃ r : MsgParser, p' = r.initState := by
  unfold readMemPayload at h
  split at h
  · exact finish_some (Except.ok.inj h)
  · obtain ⟨payload, _, hret⟩ := Exec.bind_eq_ok.mp h
    exact finish_some (Except.ok.inj hret)

theorem readMem_some {mem : Option Mem} (h : p.readMem malloc mem = .ok (some m, p')) :
    ∃ r : MsgParser, p' = r.initState := by
  cases mem with
  | none => cases h
  | some mem =>
      unfold readMem at h
      simp only at h
      split at h
      · exact readMemPayload_some h
      · obtain ⟨bytes, _, h⟩ := Exec.bind_eq_ok.mp h
        split at h
        · obtain ⟨⟨ok, q⟩, _, h⟩ := Exec.bind_eq_ok.mp h
          cases ok with
          | true => exact readMemPayload_some h
          | false => cases h
        · cases h

omit [Readable σ] in
theorem finish_some_io (h : (p.finish.1, p.finish.2, io) = (some m, p', io')) :
    ∃ r : MsgParser, p' = r.initState := by
  obtain ⟨hret, hrest⟩ := Prod.mk.inj h
  exact finish_some (Prod.ext hret (Prod.mk.inj hrest).1)

theorem readFdPayload_some (h : p.readFdPayload io = .ok (some m, p', io')) : ∃ r : MsgParser, p' = r.initState := by
  unfold readFdPayload at h
  split at h
  · exact finish_some_io (Except.ok.inj h)
  · obtain ⟨⟨len, payload, io₁⟩, _, hret⟩ := Exec.bind_eq_ok.mp h
    exact finish_some_io (Except.ok.inj hret)

theorem readFd_some {fd : Int} (h : p.readFd malloc fd io = .ok (some m, p', io')) :
    ∃ r : MsgParser, p' = r.initState := by
  unfold readFd at h
  split at h
  · cases h
  split at h
  · exact readFdPayload_some h
  · obtain ⟨⟨len, bytes, io₁⟩, _, h⟩ := Exec.bind_eq_ok.mp h
    simp only at h
    split at h
    · obtain ⟨⟨ok, q⟩, _, h⟩ := Exec.bind_eq_ok.mp h
      cases ok with
      | true => exact readFdPayload_some h
      | false => cases h
    · cases h

/-- A call that returns a message leaves the parser in the initial state. -/
theorem call_some {op : Op σ} {left : Option σ} (h : op.call p = .ok ((some m, left), p')) :
    ∃ r : MsgParser, p' = r.initState := by
  cases op with
  | readMem malloc mem =>
      obtain ⟨⟨ret, q⟩, hrun, hret⟩ := Exec.bind_eq_ok.mp h
      cases hret
      exact readMem_some hrun
  | readFd malloc fd io =>
      obtain ⟨⟨ret, q, io'⟩, hrun, hret⟩ := Exec.bind_eq_ok.mp h
      cases hret
      exact readFd_some hrun
  | reset => cases h

/-- A reset parser is as good as new. From any state, any later calls have the same results after
`MParser_Reset`, and after a call that returned a message, as on a parser from `MParser_New`. -/
theorem reset_as_new {q : MsgParser} (hnew : MsgParser.new true = some q) (p : MsgParser) (later : List (Op σ)) :
    results later p.reset = results later q ∧
      ∀ (op : Op σ) m left p', op.call p = .ok ((some m, left), p') → results later p' = results later q := by
  obtain rfl := Option.some.inj hnew
  refine ⟨results_alike (.init p _) later, fun op m left p' h => ?_⟩
  obtain ⟨r, rfl⟩ := call_some h
  exact results_alike (.init r _) later

end

/-- The cache holds the header of a message with payload; neither a reset nor the return of the message clears it. -/
theorem reset_as_new_stale :
    let first : Op Sock := .readMem .zeroed (some ⟨[0, 1, 0, 2, 0, 3, 0, 4, 0, 0, 0, 1, 0x41], by decide⟩)
    let later : List (Op Sock) := [.readMem .zeroed (some ⟨[0, 9, 0, 0, 0, 0, 0, 0, 0, 0, 0, 0], by decide⟩)]
    let stale : MsgParser := ⟨⟨1, 2, 3, 4, 1⟩, false, 12, none⟩
    first.call MsgParser.fresh = .ok ((some ⟨⟨1, 2, 3, 4, 1⟩, [0x41]⟩, none), stale) ∧
      results later stale = results later MsgParser.fresh ∧
      results later stale.reset = results later MsgParser.fresh ∧
      results later MsgParser.fresh = .ok [(some ⟨⟨9, 0, 0, 0, 0⟩, []⟩, none)] := by
  intro first later stale
  have hfirst : MsgParser.fresh.readMem .zeroed
      (some ⟨[0, 1, 0, 2, 0, 3, 0, 4, 0, 0, 0, 1, 0x41], by decide⟩) = .ok (some ⟨⟨1, 2, 3, 4, 1⟩, [0x41]⟩, stale) := by
    decide +kernel
  have hlater : MsgParser.fresh.readMem .zeroed (some ⟨[0, 9, 0, 0, 0, 0, 0, 0, 0, 0, 0, 0], by decide⟩) =
      .ok (some ⟨⟨9, 0, 0, 0, 0⟩, []⟩, ⟨⟨9, 0, 0, 0, 0⟩, false, 12, none⟩) := by
    decide +kernel
  have hcall : first.call MsgParser.fresh = .ok ((some ⟨⟨1, 2, 3, 4, 1⟩, [0x41]⟩, none), stale) := by
    simp only [first, Op.call, hfirst, Exec.ok_bind]
    rfl
  refine ⟨hcall, (reset_as_new rfl MsgParser.fresh later).2 first _ _ _ hcall, (reset_as_new rfl stale later).1, ?_⟩
  simp only [later, results, Op.call, hlater, Exec.ok_bind]
  rfl

end MsgParser

end CompileService.Wire
