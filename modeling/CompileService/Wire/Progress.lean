import CompileService.Wire.Bounds

/-!
# Progress on a descriptor

What `ToRecv` reads in all, and when a `MParser_ReadFd` that finds a byte makes something of it.
-/

namespace CompileService.Wire

open CompileService.Base

namespace MsgParser

/-! ## The reads of `ToRecv` -/

section
variable {σ : Type} [Readable σ]

/-- The trace does not change what is read. -/
theorem toRecv_traced (t : Traced σ) (buf : List UInt8) (size : Int) (retry i : Nat) :
    (toRecv t buf size retry i).map (fun r => (r.1, r.2.1, r.2.2.io)) = toRecv t.io buf size retry i := by
  fun_induction toRecv t buf size retry i with
  | case1 t buf retry i hi hlt =>
      rw [toRecv, if_pos hi, if_pos hlt]
      rfl
  | case2 t buf retry i hi hlt t' hread =>
      rw [toRecv, if_pos hi, if_neg hlt, (Traced.read_eq hread).1]
      rfl
  | case3 t buf retry i hi hlt bs t₁ hread hpos ih =>
      rw [ih]
      symm
      rw [toRecv, if_pos hi, if_neg hlt, (Traced.read_eq hread).1]
      simp only [hpos, if_true]
  | case4 t buf retry i hi hlt bs t₁ hread hpos hretry =>
      rw [toRecv, if_pos hi, if_neg hlt, (Traced.read_eq hread).1]
      simp only [hpos, if_false, hretry, if_true]
      rfl
  | case5 t buf retry i hi hlt bs t₁ hread hpos hretry ih =>
      rw [ih]
      symm
      rw [toRecv, if_pos hi, if_neg hlt, (Traced.read_eq hread).1]
      simp only [hpos, if_false, hretry]
  | case6 t buf retry i hi =>
      rw [toRecv, if_neg hi]
      rfl

/-- The reads `log` of a loop that stands at `buf[i]` and has `retry` reads of nothing behind it. -/
structure Tally (size : Int) (retry i : Nat) (log : List (Option (List UInt8))) : Prop where
  bounded : (i + (delivered log).length : Int) ≤ size
  counts : (i + log.countP (fun r => r.getD [] ≠ []) : Int) ≤ size
  zeros : retry + log.count (some []) ≤ 7
  fails : log.count none ≤ 1
  short : (i + (delivered log).length : Int) < size → none ∈ log ∨ retry + log.count (some []) = 7

section
variable {size : Int} {retry i : Nat} {log : List (Option (List UInt8))} {bs : List UInt8}

theorem Tally.full (hi : (i : Int) = size) (hretry : retry ≤ 6) : Tally size retry i [] where
  bounded := by simp [delivered, hi]
  counts := by simp [hi]
  zeros := by simp; omega
  fails := by simp
  short := by simp [delivered, hi]

theorem Tally.failed (hi : (i : Int) ≤ size) (hretry : retry ≤ 6) : Tally size retry i [none] where
  bounded := by simpa [delivered] using hi
  counts := by simpa using hi
  zeros := by simp; omega
  fails := by simp
  short := by simp

theorem Tally.exhausted (hi : (i : Int) ≤ size) : Tally size 6 i [some []] where
  bounded := by simpa [delivered] using hi
  counts := by simpa using hi
  zeros := by simp
  fails := by simp
  short := by simp

theorem Tally.received (hne : bs ≠ []) (h : Tally size retry (i + bs.length) log) :
    Tally size retry i (some bs :: log) := by
  have hpos := List.length_pos_iff.mpr hne
  obtain ⟨hbounded, hcounts, hzeros, hfails, hshort⟩ := h
  have hlen : (delivered (some bs :: log)).length = bs.length + (delivered log).length := by
    rw [delivered_cons, Option.getD_some, List.length_append]
  have hcount : (some bs :: log).count (some []) = log.count (some []) := List.count_cons_of_ne (by simpa using hne)
  refine ⟨?_, ?_, ?_, ?_, ?_⟩
  · rw [hlen]
    omega
  · rw [List.countP_cons_of_pos (by simpa using hne)]
    omega
  · rw [hcount]
    exact hzeros
  · rw [List.count_cons_of_ne (by simp)]
    exact hfails
  · rw [hlen, hcount]
    intro hless
    exact (hshort (by omega)).imp_left (List.mem_cons_of_mem _)

theorem Tally.nothing (h : Tally size (retry + 1) i log) : Tally size retry i (some [] :: log) := by
  obtain ⟨hbounded, hcounts, hzeros, hfails, hshort⟩ := h
  refine ⟨?_, ?_, ?_, ?_, ?_⟩
  · simpa [delivered_cons] using hbounded
  · simpa using hcounts
  · rw [List.count_cons_self]
    omega
  · rw [List.count_cons_of_ne (by simp)]
    exact hfails
  · rw [delivered_cons, List.count_cons_self]
    intro hless
    exact (hshort hless).imp (List.mem_cons_of_mem _) (by omega)

end

/-- What the loop reads from `buf[i]` on goes there, in order. -/
theorem toRecv_reads (t : Traced σ) (buf : List UInt8) (size : Int) (retry i : Nat) (hbuf : size ≤ buf.length)
    (hi : (i : Int) ≤ size) (hretry : retry ≤ 6) :
    ∃ log io', toRecv t buf size retry i =
        .ok (i + (delivered log).length, writeAt buf i (delivered log), ⟨io', t.log ++ log⟩) ∧
      Tally size retry i log := by
  fun_induction toRecv t buf size retry i with
  | case1 t buf retry i hi hlt => omega
  | case2 t buf retry i hi' hlt t' hread =>
      obtain ⟨_, hlog⟩ := Traced.read_eq hread
      exact ⟨[none], t'.io, by simp [delivered, ← hlog, writeAt_nil], .failed hi hretry⟩
  | case3 t buf retry i hi' hlt bs t₁ hread hpos ih =>
      obtain ⟨hio, hlog⟩ := Traced.read_eq hread
      have hle := Readable.length_le t.io _ bs (by rw [hio])
      have hfit : i + bs.length ≤ buf.length := by omega
      obtain ⟨log, io', hrun, htally⟩ := ih (by rw [length_writeAt hfit]; exact hbuf) (by omega) hretry
      refine ⟨some bs :: log, io', ?_, .received (List.ne_nil_of_length_pos hpos) htally⟩
      rw [hrun, hlog, delivered_cons, Option.getD_some, writeAt_writeAt _ hfit]
      simp [Nat.add_assoc]
  | case4 t buf retry i hi' hlt bs t₁ hread hpos hretry' =>
      obtain ⟨_, hlog⟩ := Traced.read_eq hread
      obtain rfl : bs = [] := List.eq_nil_of_length_eq_zero (by omega)
      obtain rfl : retry = 6 := by omega
      exact ⟨[some []], t₁.io, by simp [delivered, ← hlog, writeAt_nil], .exhausted hi⟩
  | case5 t buf retry i hi' hlt bs t₁ hread hpos hretry' ih =>
      obtain ⟨_, hlog⟩ := Traced.read_eq hread
      obtain rfl : bs = [] := List.eq_nil_of_length_eq_zero (by omega)
      obtain ⟨log, io', hrun, htally⟩ := ih hbuf hi (by omega)
      refine ⟨some [] :: log, io', ?_, .nothing htally⟩
      rw [hrun, hlog, delivered_cons]
      simp
  | case6 t buf retry i hi' =>
      exact ⟨[], t.io, by simp [delivered, writeAt_nil], .full (by omega) hretry⟩

/-- A `ToRecv` of `size` bytes into `buf` made the reads `log`, returned `i` and left `buf'`. -/
structure Accounts (size : Int) (buf buf' : List UInt8) (i : Nat) (log : List (Option (List UInt8))) : Prop where
  counts : (log.countP (fun r => r.getD [] ≠ []) : Int) ≤ size
  zeros : log.count (some []) ≤ 7
  fails : log.count none ≤ 1
  returned : i = (delivered log).length
  bounded : (i : Int) ≤ size
  received : buf'.take i = delivered log
  kept : buf'.length = buf.length ∧ buf'.drop size.toNat = buf.drop size.toNat
  short : (i : Int) < size → none ∈ log ∨ log.count (some []) = 7

/-- On any descriptor `ToRecv` ends, and accounts for every byte that it read. -/
theorem toRecv_accounts (fd : σ) {buf : List UInt8} {size : Int} (hsize : 0 ≤ size) (hbuf : size ≤ buf.length) :
    ∃ i buf' log fd', toRecv (⟨fd, []⟩ : Traced σ) buf size 0 0 = .ok (i, buf', ⟨fd', log⟩) ∧
      toRecv fd buf size 0 0 = .ok (i, buf', fd') ∧ Accounts size buf buf' i log := by
  obtain ⟨log, fd', hrun, hle, hcount, hzero, hfail, hshort⟩ :=
    toRecv_reads (⟨fd, []⟩ : Traced σ) buf size 0 0 hbuf hsize (Nat.zero_le 6)
  have hplain := toRecv_traced (⟨fd, []⟩ : Traced σ) buf size 0 0
  rw [hrun] at hplain
  rw [Nat.zero_add] at hrun
  simp only [Nat.cast_zero, Int.zero_add, Nat.zero_add] at hle hcount hzero hshort hplain
  have hfit : 0 + (delivered log).length ≤ buf.length := by omega
  have htake := take_writeAt hfit
  have hdrop := drop_writeAt hfit
  rw [Nat.zero_add] at htake hdrop
  refine ⟨_, _, log, fd', hrun, hplain.symm, hcount, hzero, hfail, rfl, hle, htake, ⟨length_writeAt hfit, ?_⟩, hshort⟩
  have hsplit : size.toNat = (delivered log).length + (size.toNat - (delivered log).length) := by omega
  rw [hsplit, ← List.drop_drop, hdrop, List.drop_drop]

end

theorem toRecv_accounts_zeros :
    let fd : Sock := ⟨[1, 2, 3], Stream'.cons (.count 1) (Stream'.const .zero)⟩
    ∃ i buf' log fd', toRecv (⟨fd, []⟩ : Traced Sock) [0, 0, 0, 9] 3 0 0 = .ok (i, buf', ⟨fd', log⟩) ∧
      toRecv fd [0, 0, 0, 9] 3 0 0 = .ok (i, buf', fd') ∧ Accounts 3 [0, 0, 0, 9] buf' i log :=
  toRecv_accounts _ (by decide) (by decide)

/-! ## What a call takes from the descriptor -/

section
variable {σ : Type} [ByteStream σ] {fd fd' : σ}

theorem read_inbox_le {n : Nat} {r : Option (List UInt8)} (h : Readable.read fd n = (r, fd')) :
    (ByteStream.inbox fd').length ≤ (ByteStream.inbox fd).length := by
  have hinbox := congrArg List.length (ByteStream.inbox_read fd n)
  rw [h, List.length_append] at hinbox
  exact Nat.le_of_add_left_le (Nat.le_of_eq hinbox.symm)

theorem toRecv_inbox_le {buf buf' : List UInt8} {size : Int} {retry i len : Nat}
    (h : toRecv fd buf size retry i = .ok (len, buf', fd')) :
    (ByteStream.inbox fd').length ≤ (ByteStream.inbox fd).length := by
  fun_induction toRecv fd buf size retry i with
  | case1 fd buf retry i hi hlt => cases h
  | case2 fd buf retry i hi hlt fd₁ hread =>
      cases h
      exact read_inbox_le hread
  | case3 fd buf retry i hi hlt bs fd₁ hread hpos ih => exact Nat.le_trans (ih h) (read_inbox_le hread)
  | case4 fd buf retry i hi hlt bs fd₁ hread hpos hretry =>
      cases h
      exact read_inbox_le hread
  | case5 fd buf retry i hi hlt bs fd₁ hread hpos hretry ih => exact Nat.le_trans (ih h) (read_inbox_le hread)
  | case6 fd buf retry i hi =>
      cases h
      exact Nat.le_refl _

/-- A read that delivers something takes it off the stream. -/
theorem toRecv_consumes {buf buf' : List UInt8} {size : Int} {retry i len : Nat} (hready : Ready fd)
    (hi : (i : Int) < size) (h : toRecv fd buf size retry i = .ok (len, buf', fd')) :
    (ByteStream.inbox fd').length < (ByteStream.inbox fd).length := by
  rw [toRecv, if_pos hi] at h
  split at h
  · cases h
  · obtain ⟨bs, hbs, hne⟩ := hready (size - i).toNat (by omega)
    have hpos : 0 < bs.length := List.length_pos_iff.mpr hne
    have hread : Readable.read fd (size - i).toNat = (some bs, (Readable.read fd (size - i).toNat).2) :=
      Prod.ext hbs rfl
    have hinbox := congrArg List.length (ByteStream.inbox_read fd (size - i).toNat)
    rw [hread] at h
    simp only [hpos, if_true] at h
    have hle := toRecv_inbox_le h
    rw [hbs, Option.getD_some, List.length_append] at hinbox
    omega

theorem recvAt_inbox_le {blk blk' : List UInt8} {offset size : Int} {len : Nat}
    (h : recvAt fd blk offset size = .ok (len, blk', fd')) :
    (ByteStream.inbox fd').length ≤ (ByteStream.inbox fd).length := by
  unfold recvAt at h
  split at h
  · obtain ⟨⟨k, buf, fd₁⟩, hrec, hret⟩ := Exec.bind_eq_ok.mp h
    cases hret
    exact toRecv_inbox_le hrec
  · cases h

theorem recvAt_consumes {blk blk' : List UInt8} {offset size : Int} {len : Nat} (hready : Ready fd) (hsize : 0 < size)
    (h : recvAt fd blk offset size = .ok (len, blk', fd')) :
    (ByteStream.inbox fd').length < (ByteStream.inbox fd).length := by
  unfold recvAt at h
  split at h
  · obtain ⟨⟨k, buf, fd₁⟩, hrec, hret⟩ := Exec.bind_eq_ok.mp h
    cases hret
    exact toRecv_consumes hready hsize hrec
  · cases h

theorem readFdPayload_inbox_le {p p' : MsgParser} {ret : Option Message} (h : p.readFdPayload fd = .ok (ret, p', fd')) :
    (ByteStream.inbox fd').length ≤ (ByteStream.inbox fd).length := by
  unfold readFdPayload at h
  split at h
  · cases h
    exact Nat.le_refl _
  · obtain ⟨⟨k, payload, fd₁⟩, hrec, hret⟩ := Exec.bind_eq_ok.mp h
    cases hret
    exact recvAt_inbox_le hrec

theorem readFdPayload_consumes {p p' : MsgParser} {ret : Option Message} {m : Message} (hready : Ready fd)
    (hmsg : p.msg = some m) (hneed : 0 < p.need) (h : p.readFdPayload fd = .ok (ret, p', fd')) :
    (ByteStream.inbox fd').length < (ByteStream.inbox fd).length := by
  unfold readFdPayload at h
  rw [hmsg] at h
  obtain ⟨⟨k, payload, fd₁⟩, hrec, hret⟩ := Exec.bind_eq_ok.mp h
  cases hret
  exact recvAt_consumes hready hneed hrec

/-- Between two messages and within one, `need` is positive: a call that finds a byte takes it. -/
theorem readFdWith_consumes {mid : MsgParser → Exec (Bool × MsgParser)} {p p' : MsgParser} {s : List UInt8}
    {ret : Option Message} {n : Int} (hp : Holds p s) (hn : n ≠ -1) (hready : Ready fd)
    (h : readFdWith mid p n fd = .ok (ret, p', fd')) :
    (ByteStream.inbox fd').length < (ByteStream.inbox fd).length := by
  cases hp with
  | payload hfull hlt htake hshort =>
      rw [readFdWith, if_neg hn, if_pos rfl] at h
      exact readFdPayload_consumes hready rfl (by simp only; omega) h
  | header hlen htake =>
      rename_i cache
      obtain ⟨bs, fd₁, hrec, _, hle⟩ := recvHeader_spec cache hlen fd
      have hconsumed := recvAt_consumes hready (by omega) hrec
      rw [readFdWith_header hn hlen hle hrec] at h
      split at h
      · obtain ⟨⟨ok, q⟩, _, hrest⟩ := Exec.bind_eq_ok.mp h
        cases ok with
        | true => exact Nat.lt_of_le_of_lt (readFdPayload_inbox_le hrest) hconsumed
        | false =>
            cases hrest
            exact hconsumed
      · cases h
        exact hconsumed

end

/-! ## Blocks that have room for a header -/

/-- `ToMidState` where every block has room for a header, whatever was asked for. -/
def toMidStateSlack (malloc : Malloc) (p : MsgParser) : Bool × MsgParser :=
  let need := toInt32 p.cache.length.toNat
  match malloc (toSize (sizeofMessage + need)) with
  | none => (false, { p with header := true, need := need, msg := none })
  | some blk => (true, { p with header := true, need := need, msg := some ⟨p.cache, blk.toList.drop sizeofMessage⟩ })

theorem toMidStateSlack_of_ok {malloc : Malloc} {p : MsgParser} {r : Bool × MsgParser}
    (h : p.toMidState malloc = .ok r) : p.toMidStateSlack malloc = r := by
  unfold toMidState at h
  unfold toMidStateSlack
  simp only at h ⊢
  split at h
  · rename_i hnone
    rw [hnone]
    exact Except.ok.inj h
  · rename_i blk hsome
    rw [hsome]
    split at h
    · exact Except.ok.inj h
    · cases h

/-- `need` is negative, and the payload is written from its beginning on. -/
structure Stuck (p : MsgParser) : Prop where
  header : p.header = true
  need_neg : p.need < 0
  need_ge : -2 ^ 31 ≤ p.need
  msg : ∃ m, p.msg = some m ∧ toInt32 (m.length.toNat - p.need) = 0

theorem toMidStateSlack_stuck {malloc : Malloc} {p : MsgParser} (hbad : ¬ LengthOk malloc p.cache) :
    (p.toMidStateSlack malloc).1 = true ∧ Stuck (p.toMidStateSlack malloc).2 := by
  have hL := p.cache.length.toNat_lt
  obtain ⟨hge, hneed, hsome⟩ := need_of_not_lengthOk hbad
  obtain ⟨blk, hblk⟩ := Option.ne_none_iff_exists'.mp hsome
  unfold blockSize at hblk
  unfold toMidStateSlack
  simp only [hblk]
  refine ⟨trivial, rfl, ?_, ?_, _, rfl, ?_⟩
  · show toInt32 (p.cache.length.toNat : Int) < 0
    omega
  · show -2 ^ 31 ≤ toInt32 (p.cache.length.toNat : Int)
    omega
  · show toInt32 ((p.cache.length.toNat : Int) - toInt32 (p.cache.length.toNat : Int)) = 0
    rw [hneed]
    unfold toInt32
    omega

section
variable {σ : Type} [Readable σ] {malloc : Malloc} {p : MsgParser}

/-- `MParser_ReadFd` where every block has room for a header. -/
def readFdSlack (malloc : Malloc) (p : MsgParser) (fd : Int) (io : σ) : Exec (Option Message × MsgParser × σ) :=
  readFdWith (fun p => .ok (p.toMidStateSlack malloc)) p fd io

theorem readFdWith_of_ok {mid mid' : MsgParser → Exec (Bool × MsgParser)} {fd : Int} {io : σ}
    {r : Option Message × MsgParser × σ} (hmid : ∀ p r, mid p = .ok r → mid' p = .ok r)
    (h : readFdWith mid p fd io = .ok r) : readFdWith mid' p fd io = .ok r := by
  by_cases hfd : fd = -1
  · rw [readFdWith, if_pos hfd] at h ⊢
    exact h
  · cases hheader : p.header with
    | true =>
        rw [readFdWith, if_neg hfd, if_pos hheader] at h ⊢
        exact h
    | false =>
        have hnot : ¬ p.header = true := by
          rw [hheader]
          exact Bool.false_ne_true
        rw [readFdWith, if_neg hfd, if_neg hnot] at h ⊢
        obtain ⟨⟨len, bytes, io₁⟩, hrec, hrest⟩ := Exec.bind_eq_ok.mp h
        simp only [hrec, Exec.ok_bind]
        by_cases hall : (len : Int) = p.need
        · simp only [hall, if_true] at hrest ⊢
          obtain ⟨r₁, hone, hret⟩ := Exec.bind_eq_ok.mp hrest
          rw [hmid _ _ hone, Exec.ok_bind]
          exact hret
        · simp only [hall, if_false] at hrest ⊢
          exact hrest

/-- It is `MParser_ReadFd` wherever that has a meaning. -/
theorem readFdSlack_of_ok {fd : Int} {io : σ} {r : Option Message × MsgParser × σ} (h : p.readFd malloc fd io = .ok r) :
    p.readFdSlack malloc fd io = .ok r := by
  have hwith : readFdWith (toMidState malloc) p fd io = .ok r := h
  exact readFdWith_of_ok (fun _ _ hmid => congrArg Except.ok (toMidStateSlack_of_ok hmid)) hwith

theorem Stuck.readFdPayload (hp : p.Stuck) (io : σ) : p.readFdPayload io = .ok (none, p, io) := by
  obtain ⟨m, hmsg, hoffset⟩ := hp.msg
  have hneg := hp.need_neg
  have hge := hp.need_ge
  have hrec : recvAt io m.payload 0 p.need = .ok (0, m.payload, io) := by
    rw [recvAt, if_pos ⟨Int.le_refl 0, Nat.zero_le _⟩, toRecv, if_neg (by omega)]
    rfl
  have hneed : toInt32 (p.need - (0 : Nat)) = p.need := by
    rw [toInt32_of_range (by omega) (by omega)]
    omega
  have hself : { p with need := p.need, msg := some { m with payload := m.payload } } = p := by
    rw [← hmsg]
  have hlast : ¬ (p.header = true ∧ p.need = 0) := fun h => Int.ne_of_lt hneg h.2
  have hfin : p.finish = (none, p) := by
    rw [finish, toLastState, if_neg hlast]
  unfold MsgParser.readFdPayload
  rw [hmsg]
  simp only [hoffset, hrec, Exec.ok_bind, hneed]
  rw [hself, hfin]
  rfl

/-- A stuck parser reads nothing. -/
theorem Stuck.readFdSlack (hp : p.Stuck) (fd : Int) (io : σ) : p.readFdSlack malloc fd io = .ok (none, p, io) := by
  unfold MsgParser.readFdSlack readFdWith
  split
  · rfl
  · rw [if_pos hp.header, hp.readFdPayload]

end

end MsgParser

/-! ## All calls -/

/-- A call of `MParser_ReadFd`. `io` is what the kernel holds for the descriptor at the time of the call. -/
structure ReadCall (σ : Type) where
  malloc : Malloc
  fd : Int
  io : σ

namespace ReadCall

section
variable {σ : Type} [Readable σ]

def op (c : ReadCall σ) : Op σ := .readFd c.malloc c.fd c.io

def step (p : MsgParser) (c : ReadCall σ) : Exec MsgParser := do
  let (_, p, _) ← p.readFdSlack c.malloc c.fd c.io
  return p

variable {p q : MsgParser} {s : List UInt8} {c : ReadCall σ}

theorem step_of_op (h : c.op.step p = .ok q) : c.step p = .ok q := by
  obtain ⟨⟨ret, q', io'⟩, hrun, hret⟩ := Exec.bind_eq_ok.mp h
  rw [step, MsgParser.readFdSlack_of_ok hrun]
  exact hret

/-- A header that announces more than an `int` holds, and finds a block. -/
theorem step_stuck (hp : Holds p s) (hlong : ¬ c.op.LengthOk p) : ∃ q, c.step p = .ok q ∧ q.Stuck := by
  obtain ⟨h, hnot⟩ := not_forall.mp hlong
  obtain ⟨hh, hbad⟩ := Classical.not_imp.mp hnot
  obtain ⟨hfd, cache, bs, io₁, rfl, hlen, _, hrec, _, hall, rfl⟩ := MsgParser.headerOfFd_received hp hh
  obtain ⟨hok, hstuck⟩ := MsgParser.toMidStateSlack_stuck
    (p := ⟨decodeHeader (writeAt cache.bytes s.length bs), false, 12 - s.length, none⟩) hbad
  refine ⟨_, ?_, hstuck⟩
  rw [step, MsgParser.readFdSlack, MsgParser.readFdWith_header hfd hlen (Nat.le_of_eq hall) hrec, if_pos hall,
    Exec.ok_bind, if_pos hok, hstuck.readFdPayload]
  rfl

theorem step_cases (hp : Holds p s) (c : ReadCall σ) :
    (c.op.LengthOk p ∧ ∃ q s', c.step p = .ok q ∧ Holds q s') ∨
      (¬ c.op.LengthOk p ∧ ∃ q, c.step p = .ok q ∧ q.Stuck) := by
  by_cases hok : c.op.LengthOk p
  · obtain ⟨q, s', hstep, hq⟩ := Op.step_holds hp hok
    exact Or.inl ⟨hok, q, s', step_of_op hstep, hq⟩
  · exact Or.inr ⟨hok, step_stuck hp hok⟩

theorem run_stuck (hp : p.Stuck) (calls : List (ReadCall σ)) : calls.foldlM step p = .ok p := by
  induction calls with
  | nil => rfl
  | cons c calls ih =>
      have hstep : c.step p = .ok p := by
        rw [step, hp.readFdSlack]
        rfl
      rw [foldlM_cons_ok calls hstep, ih]

/-- Every header that the run completes announces a length that fits an `int`, or finds no block. -/
def LengthsOk (p : MsgParser) (calls : List (ReadCall σ)) : Prop := Along step (fun p c => c.op.LengthOk p) p calls

theorem run_cases (hp : Holds p s) (calls : List (ReadCall σ)) :
    ∃ q, calls.foldlM step p = .ok q ∧
      ((LengthsOk p calls ∧ ∃ s', Holds q s') ∨ (¬ LengthsOk p calls ∧ q.Stuck)) := by
  induction calls generalizing p s with
  | nil => exact ⟨p, rfl, Or.inl ⟨trivial, s, hp⟩⟩
  | cons c calls ih =>
      rcases step_cases hp c with ⟨hok, q, s', hstep, hq⟩ | ⟨hbad, q, hstep, hq⟩
      · obtain ⟨r, hrun, hcase⟩ := ih hq
        refine ⟨r, (foldlM_cons_ok calls hstep).trans hrun, hcase.imp ?_ ?_⟩
        · exact fun ⟨hrest, hr⟩ => ⟨Along.cons hok hstep hrest, hr⟩
        · exact fun ⟨hrest, hr⟩ => ⟨fun h => hrest (h.2 q hstep), hr⟩
      · exact ⟨q, (foldlM_cons_ok calls hstep).trans (run_stuck hq calls), Or.inr ⟨fun h => hbad h.1, hq⟩⟩

end

section
variable {σ : Type} [ByteStream σ] {p q : MsgParser} {s : List UInt8} {c : ReadCall σ}

/-- The call takes a byte from the descriptor, returns a message or resets the parser. -/
def Progress (p : MsgParser) (c : ReadCall σ) : Prop :=
  ∃ ret q io', p.readFdSlack c.malloc c.fd c.io = .ok (ret, q, io') ∧
    ((ByteStream.inbox io').length < (ByteStream.inbox c.io).length ∨ ret ≠ none ∨ (q = q.reset ∧ q ≠ p))

theorem not_progress_of_stuck (hp : p.Stuck) (c : ReadCall σ) : ¬ c.Progress p := by
  rintro ⟨ret, q, io', hrun, hcase⟩
  rw [hp.readFdSlack] at hrun
  cases hrun
  rcases hcase with hlt | hret | ⟨_, hne⟩
  · exact Nat.lt_irrefl _ hlt
  · exact hret rfl
  · exact hne rfl

theorem progress_of_holds (hp : Holds p s) (hfd : c.fd ≠ -1) (hready : Ready c.io) : c.Progress p := by
  have hrun : ∃ q, c.step p = .ok q := by
    rcases step_cases hp c with ⟨_, q, _, hstep, _⟩ | ⟨_, q, hstep, _⟩
    · exact ⟨q, hstep⟩
    · exact ⟨q, hstep⟩
  obtain ⟨q, hstep⟩ := hrun
  obtain ⟨⟨ret, q', io'⟩, hread, _⟩ := Exec.bind_eq_ok.mp hstep
  exact ⟨ret, q', io', hread, Or.inl (MsgParser.readFdWith_consumes hp hfd hready hread)⟩

/-- A further call that finds a byte makes progress if and only if every header that the calls before it completed
announced a length that fits an `int`, or found no block. -/
theorem progress_iff (calls : List (ReadCall σ)) (hfd : c.fd ≠ -1) (hready : Ready c.io) :
    (∃ p, calls.foldlM step MsgParser.fresh = .ok p ∧ c.Progress p) ↔ LengthsOk MsgParser.fresh calls := by
  obtain ⟨q, hrun, hcase⟩ := run_cases Holds.fresh calls
  constructor
  · rintro ⟨p, hp, hprogress⟩
    obtain rfl := Except.ok.inj (hp.symm.trans hrun)
    rcases hcase with ⟨hok, _⟩ | ⟨_, hstuck⟩
    · exact hok
    · exact absurd hprogress (not_progress_of_stuck hstuck c)
  · intro hok
    rcases hcase with ⟨_, _, hq⟩ | ⟨hbad, _⟩
    · exact ⟨q, hrun, progress_of_holds hq hfd hready⟩
    · exact absurd hok hbad

end

theorem ready_of_cons (b : UInt8) (bs : List UInt8) (k : Nat) : Ready (⟨b :: bs, Stream'.const (.count k)⟩ : Sock) := by
  intro n hn
  obtain ⟨m, hm⟩ : ∃ m, min (k + 1) n = m + 1 := ⟨min (k + 1) n - 1, by omega⟩
  refine ⟨(b :: bs).take (min (k + 1) n), rfl, ?_⟩
  rw [hm]
  exact List.cons_ne_nil _ _

/-- A header of the length `2 ^ 32 - 1` that finds no block is given up, and the next call reads on. -/
theorem progress_without_block :
    let huge : Sock := ⟨[0, 1, 0, 2, 0, 3, 0, 4, 0xff, 0xff, 0xff, 0xff], Stream'.const (.count 4)⟩
    ∃ p, [(⟨fun _ => none, 3, huge⟩ : ReadCall Sock)].foldlM step MsgParser.fresh = .ok p ∧
      Progress p ⟨.zeroed, 3, (⟨[7], Stream'.const (.count 0)⟩ : Sock)⟩ := by
  intro huge
  refine (progress_iff _ (by decide) (ready_of_cons 7 [] 0)).mpr ⟨fun h _ => Or.inr rfl, fun _ _ => trivial⟩

/-- The same header with a block: `MParser_ReadFd` writes behind it, and where there is room the parser is stuck. -/
theorem progress_stops :
    let huge : Sock := ⟨[0, 1, 0, 2, 0, 3, 0, 4, 0xff, 0xff, 0xff, 0xff], Stream'.const (.count 4)⟩
    (Op.readFd .zeroed 3 huge).step MsgParser.fresh = .error .bounds ∧
      ∃ p, [(⟨.zeroed, 3, huge⟩ : ReadCall Sock)].foldlM step MsgParser.fresh = .ok p ∧
        (∀ io : Sock, p.readFdSlack .zeroed 3 io = .ok (none, p, io)) ∧
        ¬ Progress p ⟨.zeroed, 3, (⟨[7], Stream'.const (.count 0)⟩ : Sock)⟩ := by
  intro huge
  have hbad : ¬ (⟨.zeroed, 3, huge⟩ : ReadCall Sock).op.LengthOk MsgParser.fresh := by
    intro hok
    have hheader : MsgParser.fresh.headerOfFd 3 huge = some ⟨1, 2, 3, 4, 0xffffffff⟩ := by decide +kernel
    rcases hok _ hheader with hlt | hnone
    · revert hlt
      decide
    · cases hnone
  obtain ⟨p, hstep, hstuck⟩ := step_stuck Holds.fresh hbad
  exact ⟨by decide +kernel, p, foldlM_cons_ok [] hstep, hstuck.readFdSlack 3, not_progress_of_stuck hstuck _⟩

end ReadCall

end CompileService.Wire
