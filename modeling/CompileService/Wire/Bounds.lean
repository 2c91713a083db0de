import CompileService.Wire.Lemmas.Holds
import CompileService.Base.Run

/-!
# The parser against an arbitrary peer

Any sequence of `MParser_ReadMem`, `MParser_ReadFd` and `MParser_Reset` on any bytes and with any `malloc`. The
bounds of the parser hold in every state of a run exactly as long as every header completed in it announces a
length that fits an `int`, or finds no block: from `2 ^ 31` on `need` is negative and the block has the wrong
size, and from `2 ^ 32 - 12` on the header itself does not fit into the block.
-/

namespace CompileService.Wire

open CompileService.Base

/-- One call on a parser. `io` is what the kernel holds for the descriptor at the time of the call. -/
inductive Op (σ : Type) where
  | readMem (malloc : Malloc) (mem : Option Mem)
  | readFd (malloc : Malloc) (fd : Int) (io : σ)
  | reset

/-- What the state says about the memory it points to. -/
def MsgParser.Bounds (p : MsgParser) : Prop :=
  match p.header with
  | false => p.msg = none ∧ 1 ≤ p.need ∧ p.need ≤ 12
  | true => ∃ m, p.msg = some m ∧ m.bytes.length = sizeofMessage + m.length.toNat ∧
      0 ≤ p.need ∧ p.need ≤ m.length.toNat

section
variable {σ : Type} [Readable σ]

namespace Op

def step (p : MsgParser) : Op σ → Exec MsgParser
  | .readMem malloc mem => do
      let (_, p) ← p.readMem malloc mem
      return p
  | .readFd malloc fd io => do
      let (_, p, _) ← p.readFd malloc fd io
      return p
  | .reset => .ok p.reset

/-- If the call completes a header, then its length fits an `int` or `malloc` has no block for it. -/
def LengthOk (p : MsgParser) : Op σ → Prop
  | .readMem malloc mem => ∀ mem' h, mem = some mem' → p.headerOfMem mem' = some h → Wire.LengthOk malloc h
  | .readFd malloc fd io => ∀ h, p.headerOfFd fd io = some h → Wire.LengthOk malloc h
  | .reset => True

end Op

namespace MsgParser

def SafeRun (p : MsgParser) (ops : List (Op σ)) : Prop := Always Op.step Bounds p ops

/-- Every header that the run completes announces a length that fits an `int`, or finds no block. -/
def LengthsOk (p : MsgParser) (ops : List (Op σ)) : Prop := Along Op.step (fun p op => op.LengthOk p) p ops

end MsgParser

end

/-! ## Good lengths -/

theorem Holds.bounds {p : MsgParser} {s : List UInt8} (h : Holds p s) : p.Bounds := by
  cases h with
  | header hlen _ => exact ⟨rfl, by simp only; omega, by simp only; omega⟩
  | payload hfull _ _ hlt =>
      exact ⟨_, rfl, hfull.length_bytes, by simp only; omega, by simp only; omega⟩

theorem Fed.holds {malloc : Malloc} {s : List UInt8} {ret : Option Message} {p : MsgParser}
    {rest : List UInt8} (h : Fed malloc s ret p rest) : ∃ s', Holds p s' := by
  cases h with
  | more hp => exact ⟨_, hp⟩
  | done _ _ hp => exact ⟨_, hp⟩
  | drop _ _ hp => exact ⟨_, hp⟩

section
variable {σ : Type} [Readable σ]

theorem Op.step_holds {p : MsgParser} {s : List UInt8} {op : Op σ} (hp : Holds p s)
    (hok : op.LengthOk p) : ∃ q s', op.step p = .ok q ∧ Holds q s' := by
  cases op with
  | readMem malloc mem =>
      cases mem with
      | none => exact ⟨p, s, rfl, hp⟩
      | some mem =>
          obtain ⟨ret, q, rest, hrun, hfed⟩ :=
            MsgParser.readMem_fed malloc hp mem (fun h => hok mem h rfl)
          obtain ⟨s', hq⟩ := hfed.holds
          exact ⟨q, s', by simp only [step, hrun, Exec.ok_bind]; rfl, hq⟩
  | readFd malloc fd io =>
      by_cases hfd : fd = -1
      · exact ⟨p, s, by simp only [step, MsgParser.readFd, hfd, if_true, Exec.ok_bind]; rfl, hp⟩
      · obtain ⟨bs, ret, q, io', hrun, _, hfed⟩ := MsgParser.readFd_fed malloc hfd hp io hok
        obtain ⟨s', hq⟩ := hfed.holds
        exact ⟨q, s', by simp only [step, hrun, Exec.ok_bind]; rfl, hq⟩
  | reset => exact ⟨p.reset, [], rfl, Holds.init p⟩

end

/-! ## Bad lengths -/

namespace MsgParser

variable {malloc : Malloc} {p p' : MsgParser}

/-- `p` points to a block of the wrong size, and `need` is negative. -/
structure Broken (p : MsgParser) : Prop where
  header : p.header = true
  need_neg : p.need < 0
  need_ge : -2 ^ 31 ≤ p.need
  block : ∃ m, p.msg = some m ∧ m.payload.length ≠ m.length.toNat

theorem not_bounds_of_block {m : Message} (hheader : p.header = true) (hmsg : p.msg = some m)
    (hblock : m.payload.length ≠ m.length.toNat) : ¬ p.Bounds := by
  unfold Bounds
  rw [hheader]
  rintro ⟨m', hm', hlen, _⟩
  rw [hmsg] at hm'
  cases hm'
  rw [Message.bytes, List.length_append, Header.length_bytes] at hlen
  exact hblock (Nat.add_left_cancel hlen)

theorem toMidState_broken {ok : Bool} (h : p.toMidState malloc = .ok (ok, p'))
    (hbad : ¬ LengthOk malloc p.cache) : ok = true ∧ p'.Broken := by
  have hL := p.cache.length.toNat_lt
  obtain ⟨hge, hneed, hsome⟩ := need_of_not_lengthOk hbad
  unfold blockSize at hsome
  unfold toMidState at h
  simp only at h
  rw [hneed] at h hsome
  split at h
  · rename_i hnone
    exact absurd hnone hsome
  · rename_i blk _
    split at h
    · cases h
      have hblk := blk.length_toList
      refine ⟨rfl, rfl, by simp only; omega, by simp only; omega, _, rfl, ?_⟩
      rw [List.length_drop, hblk]
      simp only [toSize, sizeofMessage]
      omega
    · cases h

theorem Broken.readMemPayload {mem : Mem} {ret : Option Message} (hp : p.Broken)
    (h : p.readMemPayload mem = .ok (ret, p')) : ¬ p'.Bounds := by
  obtain ⟨m, hmsg, hblock⟩ := hp.block
  have hneg := hp.need_neg
  have hge := hp.need_ge
  have hmem := mem.size_lt
  unfold MsgParser.readMemPayload at h
  simp only [hmsg] at h
  obtain ⟨payload, hcopy, hret⟩ := Exec.bind_eq_ok.mp h
  obtain ⟨_, hdst, hsrc, rfl⟩ := memcpy_ok hcopy
  -- the copy takes a non-negative number of bytes, so `need` does not become zero
  have hlen := (copyLen_of_memcpy hge (by omega) hcopy).1
  have hlt := (copyLen_range hge (by omega) mem.length).2
  have hnonzero : toInt32 (p.need - copyLen p.need mem.length) ≠ 0 := by
    unfold toInt32
    omega
  have hfin := Except.ok.inj hret
  simp only [finish, toLastState, hp.header, hnonzero, and_false, if_false, Prod.mk.injEq] at hfin
  obtain ⟨_, rfl⟩ := hfin
  refine not_bounds_of_block rfl rfl ?_
  rw [length_writeAt (by rw [List.length_take, Nat.min_eq_left hsrc]; exact hdst)]
  exact hblock

theorem readMem_broken {s : List UInt8} {mem : Mem} {h : Header} {ret : Option Message} (hp : Holds p s)
    (hh : p.headerOfMem mem = some h) (hbad : ¬ LengthOk malloc h)
    (hrun : p.readMem malloc (some mem) = .ok (ret, p')) : ¬ p'.Bounds := by
  obtain ⟨hlen12, rfl⟩ := headerOfMem_eq hp hh
  cases hp with
  | payload => cases hh
  | header hlen htake =>
      rw [readMem_complete hlen htake hlen12] at hrun
      obtain ⟨⟨ok, q⟩, hmid, hrest⟩ := Exec.bind_eq_ok.mp hrun
      obtain ⟨rfl, hq⟩ := toMidState_broken hmid hbad
      exact hq.readMemPayload hrest

section
variable {σ : Type} [Readable σ]

theorem Broken.readFdPayload {io io' : σ} {ret : Option Message} (hp : p.Broken)
    (h : p.readFdPayload io = .ok (ret, p', io')) : ¬ p'.Bounds := by
  obtain ⟨m, hmsg, hblock⟩ := hp.block
  have hneg := hp.need_neg
  have hge := hp.need_ge
  unfold MsgParser.readFdPayload at h
  simp only [hmsg] at h
  obtain ⟨⟨len, payload, io₁⟩, hrec, hret⟩ := Exec.bind_eq_ok.mp h
  have hskip : len = 0 ∧ payload = m.payload := by
    unfold recvAt at hrec
    split at hrec
    · rw [toRecv, if_neg (by omega)] at hrec
      cases hrec
      exact ⟨rfl, List.take_append_drop _ _⟩
    · cases hrec
  obtain ⟨rfl, rfl⟩ := hskip
  have hneed : toInt32 (p.need - (0 : Nat)) = p.need := by
    rw [toInt32_of_range (by omega) (by omega)]
    omega
  have hnonzero : p.need ≠ 0 := Int.ne_of_lt hneg
  have hfin := Except.ok.inj hret
  simp only [finish, toLastState, hneed, hp.header, hnonzero, and_false, if_false, Prod.mk.injEq] at hfin
  obtain ⟨_, rfl, _⟩ := hfin
  exact not_bounds_of_block rfl rfl hblock

theorem readFd_broken {s : List UInt8} {fd : Int} {io io' : σ} {h : Header} {ret : Option Message}
    (hp : Holds p s) (hh : p.headerOfFd fd io = some h) (hbad : ¬ LengthOk malloc h)
    (hrun : p.readFd malloc fd io = .ok (ret, p', io')) : ¬ p'.Bounds := by
  obtain ⟨hfd, cache, bs, io₁, rfl, hlen, _, hrec, _, hall, rfl⟩ := headerOfFd_received hp hh
  rw [readFd_header hfd hlen (Nat.le_of_eq hall) hrec, if_pos hall] at hrun
  obtain ⟨⟨ok, q⟩, hmid, hrest⟩ := Exec.bind_eq_ok.mp hrun
  obtain ⟨rfl, hq⟩ := toMidState_broken hmid hbad
  exact hq.readFdPayload hrest

end

end MsgParser

section
variable {σ : Type} [Readable σ]

theorem Op.lengthOk_of_step {p q : MsgParser} {s : List UInt8} {op : Op σ} (hp : Holds p s)
    (hstep : op.step p = .ok q) (hq : q.Bounds) : op.LengthOk p := by
  cases op with
  | readMem malloc mem =>
      intro mem' h hmem hh
      subst hmem
      by_contra hbad
      obtain ⟨⟨ret, q'⟩, hrun, hret⟩ := Exec.bind_eq_ok.mp hstep
      cases hret
      exact MsgParser.readMem_broken hp hh hbad hrun hq
  | readFd malloc fd io =>
      intro h hh
      by_contra hbad
      obtain ⟨⟨ret, q', io'⟩, hrun, hret⟩ := Exec.bind_eq_ok.mp hstep
      cases hret
      exact MsgParser.readFd_broken hp hh hbad hrun hq
  | reset => trivial

/-- The bounds hold in every state of a run if and only if every header completed in it has a length that fits
an `int`, or finds no block. -/
theorem MsgParser.safeRun_iff (ops : List (Op σ)) :
    SafeRun MsgParser.fresh ops ↔ LengthsOk MsgParser.fresh ops := by
  have hgood : ∀ p : MsgParser, (∃ s, Holds p s) → p.Bounds := fun _ ⟨_, hp⟩ => hp.bounds
  have hstep : ∀ (p : MsgParser) (op : Op σ), (∃ s, Holds p s) → op.LengthOk p →
      ∃ q, op.step p = .ok q ∧ ∃ s, Holds q s := by
    rintro p op ⟨s, hp⟩ hok
    obtain ⟨q, s', hq, hholds⟩ := Op.step_holds hp hok
    exact ⟨q, hq, s', hholds⟩
  have hback : ∀ (p : MsgParser) (op : Op σ) (q : MsgParser), (∃ s, Holds p s) → op.step p = .ok q →
      q.Bounds → op.LengthOk p := fun _ _ _ ⟨_, hp⟩ hq hb => Op.lengthOk_of_step hp hq hb
  exact always_iff hgood hstep hback ⟨[], Holds.fresh⟩ ops

end

/-- A length of `2 ^ 32 - 1`: the block has 11 bytes, and the header does not fit into it. -/
theorem MsgParser.run_overflow :
    let mem : Mem := ⟨[0, 1, 0, 2, 0, 3, 0, 4, 0xff, 0xff, 0xff, 0xff], by decide⟩
    let ops : List (Op Sock) := [.readMem .zeroed (some mem)]
    ops.foldlM Op.step MsgParser.fresh = .error .bounds ∧ ¬ SafeRun MsgParser.fresh ops := by
  intro mem ops
  have hrun : ops.foldlM Op.step MsgParser.fresh = .error .bounds := by decide +kernel
  refine ⟨hrun, fun hsafe => ?_⟩
  refine (hsafe ops List.prefix_rfl).elim (fun q hq => ?_)
  cases hrun.symm.trans hq.1

end CompileService.Wire
