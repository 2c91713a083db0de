import CompileService.Wire.Connections
import CompileService.Wire.Memory

/-!
# What the functions do to memory

Each object has its footprint, the blocks that belong to it, and each function on the heap carries out the function
of the same name on values: it makes the footprint of the arguments that of the results and touches nothing else.
-/

namespace CompileService.Wire.Memory

open CompileService.Base Assertion Carries

/-! ## Footprints -/

def messageAt (a : Nat) (m : Message) : Assertion Block := pointsTo a (.message m)

/-- A parser together with the message that it is working on. -/
def parserAt (a : Nat) (p : MsgParser) : Assertion Block :=
  ex fun msg => pointsTo a (.parser ⟨p.cache, p.header, p.need, msg⟩) * orNull messageAt msg p.msg

def clientAt (a : Nat) (c : Client) : Assertion Block :=
  ex fun parser => pointsTo a (.client ⟨c.fd, parser⟩) * parserAt parser c.parser

def pointAt (a : Nat) (c : UdpPoint) : Assertion Block := clientAt a ⟨c.fd, c.parser⟩

section rules
variable {α ρ : Type} {F : Assertion Block} {m : Exec ρ} {Q : ρ → α → Assertion Block}

theorem Carries.loadParser {a : Nat} {p : ParserBlock} {k : ParserBlock → Prog Block α}
    (hk : Carries (pointsTo a (.parser p) * F) (k p) m Q) :
    Carries (pointsTo a (.parser p) * F) (Memory.loadParser a >>= k) m Q := loadAs rfl hk

theorem Carries.loadClient {a : Nat} {c : ClientBlock} {k : ClientBlock → Prog Block α}
    (hk : Carries (pointsTo a (.client c) * F) (k c) m Q) :
    Carries (pointsTo a (.client c) * F) (Memory.loadClient a >>= k) m Q := loadAs rfl hk

theorem Carries.loadMessage {a : Nat} {msg : Message} {k : Message → Prog Block α}
    (hk : Carries (pointsTo a (.message msg) * F) (k msg) m Q) :
    Carries (pointsTo a (.message msg) * F) (Memory.loadMessage a >>= k) m Q := loadAs rfl hk

theorem Carries.storeHeader {a n : Nat} {bytes : List UInt8} {hdr : Header} {k : Unit → Prog Block α}
    (hn : bytes.length = n) (hk : Carries (messageAt a ⟨hdr, bytes.drop sizeofMessage⟩ * F) (k ()) m Q) :
    Carries (pointsTo a (.raw bytes) * F) (Memory.storeHeader a hdr >>= k)
      (if sizeofMessage ≤ n then m else .error .bounds) Q := by
  subst hn
  rw [Memory.storeHeader, bind_assoc]
  apply load
  dsimp only
  by_cases hlen : sizeofMessage ≤ bytes.length
  · rw [if_pos hlen, if_pos hlen]
    exact store hk
  · rw [if_neg hlen, if_neg hlen]
    exact fails .bounds fun h => rfl

theorem Carries.storeHeader_of_le {a : Nat} {bytes : List UInt8} {hdr : Header} {k : Unit → Prog Block α}
    (hlen : sizeofMessage ≤ bytes.length)
    (hk : Carries (messageAt a ⟨hdr, bytes.drop sizeofMessage⟩ * F) (k ()) m Q) :
    Carries (pointsTo a (.raw bytes) * F) (Memory.storeHeader a hdr >>= k) m Q := by
  have hstore := Carries.storeHeader rfl hk
  rwa [if_pos hlen] at hstore

/-- A message that may not be there is freed. -/
theorem Carries.freeMessage {a : Nat} {msg : Option Message} {k : Unit → Prog Block α} (hk : Carries F (k ()) m Q) :
    Carries (orNull messageAt a msg * F) (Prog.free a >>= k) m Q := by
  cases msg with
  | none =>
      apply of_fact
      rintro rfl
      exact free_null hk
  | some msg => exact free hk

end rules

/-- A parser without a message. -/
theorem parserAt_null {a : Nat} {cache : Header} {header : Bool} {need : Int} {h : Heap Block}
    (hP : pointsTo a (.parser ⟨cache, header, need, 0⟩) h) : parserAt a ⟨cache, header, need, none⟩ h := by
  refine ex_apply.mpr ⟨0, ?_⟩
  rwa [orNull_null, mul_one]

theorem parserAt_ne_zero {a : Nat} {p : MsgParser} {h : Heap Block} (hP : parserAt a p h) : a ≠ 0 := by
  obtain ⟨msg, hP⟩ := hP
  exact pointsTo_ne_zero hP

theorem clientAt_ne_zero {a : Nat} {c : Client} {h : Heap Block} (hP : clientAt a c h) : a ≠ 0 := by
  obtain ⟨parser, hP⟩ := hP
  exact pointsTo_ne_zero hP

/-- A call that returns a message or none, and leaves a parser. -/
def Returned (a : Nat) (r : Option Message × MsgParser) (ret : Nat) : Assertion Block :=
  orNull messageAt ret r.1 * parserAt a r.2

/-- The same of a call that also reads from a descriptor. -/
def Received {σ : Type} (a : Nat) (r : Option Message × MsgParser × σ) (out : Nat × σ) : Assertion Block :=
  fact (out.2 = r.2.2) * Returned a (r.1, r.2.1) out.1

theorem returned_none {a : Nat} {p : MsgParser} {h : Heap Block} (hP : parserAt a p h) : Returned a (none, p) 0 h := by
  rwa [Returned, orNull_null, one_mul]

theorem received_none {σ : Type} {a : Nat} {p : MsgParser} {h : Heap Block} (io : σ) (hP : parserAt a p h) :
    Received a (none, p, io) (0, io) h := fact_mul_apply.mpr ⟨rfl, returned_none hP⟩

namespace MParser

theorem initState_carries (a : Nat) (p : MsgParser) :
    Carries (parserAt a p) (initState a) (.ok p.initState) fun p' _ => parserAt a p' := by
  apply of_ex
  intro msg
  apply Carries.loadParser
  apply store
  rw [mul_comm]
  apply Carries.freeMessage
  rw [← mul_one (pointsTo a _), ← bind_pure (Prog.store a _)]
  apply store
  apply ret
  intro h hP
  rw [mul_one] at hP
  exact parserAt_null hP

theorem toLastState_carries (a : Nat) (p : MsgParser) :
    Carries (parserAt a p) (toLastState a) (.ok p.toLastState) (Returned a) := by
  apply of_ex
  intro msg
  apply Carries.loadParser
  by_cases hdone : p.header = true ∧ p.need = 0
  · rw [if_pos hdone, MsgParser.toLastState, if_pos hdone]
    apply store
    apply ret
    intro h hP
    rw [Returned, mul_comm]
    exact mul_mono (fun _ => parserAt_null) (fun _ => id) hP
  · rw [if_neg hdone, MsgParser.toLastState, if_neg hdone]
    exact ret fun h hP => returned_none ⟨msg, hP⟩

theorem toMidState_carries (A : Allocator Block) (malloc : Malloc) (a : Nat) {p : MsgParser} (hp : p.msg = none) :
    Carries (parserAt a p) (toMidState A malloc a) (p.toMidState malloc) fun r ok =>
      fact (ok = r.1) * parserAt a r.2 := by
  apply of_ex
  intro msg
  rw [hp, mul_comm]
  apply of_fact
  rintro rfl
  rw [← mul_one (pointsTo a _)]
  apply Carries.loadParser
  simp only [mallocRaw, MsgParser.toMidState]
  generalize toSize (sizeofMessage + toInt32 p.cache.length.toNat) = size
  cases hmalloc : malloc size with
  | none =>
      apply alloc_none
      apply store
      apply ret
      intro h hP
      refine fact_mul_apply.mpr ⟨rfl, ?_⟩
      rw [← mul_one (parserAt a _)]
      exact mul_mono (fun _ => parserAt_null) (fun _ => id) hP
  | some blk =>
      apply alloc
      intro msg
      apply of_pointsTo
      intro hne
      rw [mul_left_comm]
      apply store
      rw [mul_left_comm, if_neg hne]
      apply Carries.storeHeader Vector.length_toList
      apply ret
      intro h hP
      refine fact_mul_apply.mpr ⟨rfl, msg, ?_⟩
      rwa [mul_one, mul_comm] at hP

theorem finish_carries (a : Nat) (p : MsgParser) : Carries (parserAt a p) (finish a) (.ok p.finish) (Returned a) := by
  have hfinish : (.ok p.finish : Exec (Option Message × MsgParser)) =
      .ok p.toLastState >>= fun r => .ok (r.1, r.1.elim r.2 fun _ => r.2.initState) := by
    rw [Exec.ok_bind, MsgParser.finish]
    obtain ⟨_ | m, p'⟩ := p.toLastState
    · rfl
    · rfl
  rw [hfinish, finish]
  apply bind (toLastState_carries a p)
  rintro ⟨_ | m, p'⟩ msg -
  · apply of_fact
    rintro rfl
    exact ret fun h => returned_none
  · apply of_pointsTo
    intro hne
    rw [if_neg hne, mul_comm]
    apply call (initState_carries a p')
    intro _
    apply ret
    intro h hP
    rwa [Returned, mul_comm]

theorem readMemPayload_carries (a : Nat) (p : MsgParser) (mem : Mem) :
    Carries (parserAt a p) (readMemPayload a mem) (p.readMemPayload mem) (Returned a) := by
  obtain ⟨cache, header, need, held⟩ := p
  apply of_ex
  intro msg
  apply Carries.loadParser
  rw [mul_comm]
  cases held with
  | none =>
      apply of_fact
      rintro rfl
      exact strengthen (finish_carries a _) fun h => parserAt_null
  | some m =>
      apply of_pointsTo
      intro hne
      rw [if_neg hne]
      apply Carries.loadMessage
      apply eval
      intro payload _
      apply store
      rw [mul_comm]
      apply store
      exact strengthen (finish_carries a _) fun h hP => ⟨msg, hP⟩

/-- A parser that has no header has no message either. -/
theorem readMem_carries (A : Allocator Block) (malloc : Malloc) (a : Nat) {p : MsgParser}
    (hp : p.header = false → p.msg = none) (mem : Option Mem) :
    Carries (parserAt a p) (readMem A malloc a mem) (p.readMem malloc mem) (Returned a) := by
  apply of_known fun h => parserAt_ne_zero
  intro hne
  unfold readMem
  rw [if_neg hne]
  cases mem with
  | none =>
      exact ret fun h => returned_none
  | some mem =>
      obtain ⟨cache, header, need, held⟩ := p
      cases header with
      | true =>
          apply of_ex
          intro msg
          apply Carries.loadParser
          exact strengthen (readMemPayload_carries a _ mem) fun h hP => ⟨msg, hP⟩
      | false =>
          obtain rfl : held = none := hp rfl
          apply of_ex
          intro msg
          apply Carries.loadParser
          apply eval
          intro bytes _
          apply store
          dsimp only
          split
          · apply store
            refine strengthen (bind (toMidState_carries A malloc a rfl) ?_) fun h hP => ⟨msg, hP⟩
            rintro ⟨ok, p⟩ found -
            apply of_fact
            rintro rfl
            cases found with
            | true => exact readMemPayload_carries a p _
            | false =>
                rw [← mul_one (parserAt a p)]
                apply call (initState_carries a p)
                intro _
                apply ret
                intro h hP
                exact returned_none (mul_one (parserAt a _) ▸ hP)
          · apply store
            exact ret fun h hP => returned_none ⟨msg, hP⟩

section descriptor
variable {σ : Type}

theorem finish_received (a : Nat) (p : MsgParser) (io : σ) :
    Carries (parserAt a p) (finish a >>= fun ret => pure (ret, io)) (.ok (p.finish.1, p.finish.2, io))
      (Received a) := by
  rw [← mul_one (parserAt a p)]
  apply call (finish_carries a p)
  intro ret
  apply Carries.ret
  intro h hP
  rw [mul_one] at hP
  exact fact_mul_apply.mpr ⟨rfl, hP⟩

variable [Readable σ]

theorem readFdPayload_carries (a : Nat) (p : MsgParser) (io : σ) :
    Carries (parserAt a p) (readFdPayload a io) (p.readFdPayload io) (Received a) := by
  obtain ⟨cache, header, need, held⟩ := p
  apply of_ex
  intro msg
  apply Carries.loadParser
  rw [mul_comm]
  cases held with
  | none =>
      apply of_fact
      rintro rfl
      exact strengthen (finish_received a _ io) fun h => parserAt_null
  | some m =>
      apply of_pointsTo
      intro hne
      rw [if_neg hne]
      apply Carries.loadMessage
      apply eval
      rintro ⟨len, payload, io'⟩ -
      apply store
      rw [mul_comm]
      apply store
      exact strengthen (finish_received a _ io') fun h hP => ⟨msg, hP⟩

theorem readFd_carries (A : Allocator Block) (malloc : Malloc) (a : Nat) {p : MsgParser}
    (hp : p.header = false → p.msg = none) (fd : Int) (io : σ) :
    Carries (parserAt a p) (readFd A malloc a fd io) (p.readFd malloc fd io) (Received a) := by
  apply of_known fun h => parserAt_ne_zero
  intro hne
  rw [readFd, MsgParser.readFd]
  by_cases hfd : fd = -1
  · rw [if_pos (.inl hfd), if_pos hfd]
    exact ret fun h hP => received_none io hP
  · rw [if_neg (not_or.mpr ⟨hfd, hne⟩), if_neg hfd]
    obtain ⟨cache, header, need, held⟩ := p
    cases header with
    | true =>
        apply of_ex
        intro msg
        apply Carries.loadParser
        exact strengthen (readFdPayload_carries a _ io) fun h hP => ⟨msg, hP⟩
    | false =>
        obtain rfl : held = none := hp rfl
        apply of_ex
        intro msg
        apply Carries.loadParser
        apply eval
        rintro ⟨len, bytes, io'⟩ -
        apply store
        dsimp only
        split
        · apply store
          refine strengthen (bind (toMidState_carries A malloc a rfl) ?_) fun h hP => ⟨msg, hP⟩
          rintro ⟨ok, p⟩ found -
          apply of_fact
          rintro rfl
          cases found with
          | true => exact readFdPayload_carries a p io'
          | false =>
              rw [← mul_one (parserAt a p)]
              apply call (initState_carries a p)
              intro _
              apply ret
              intro h hP
              exact received_none io' (mul_one (parserAt a _) ▸ hP)
        · apply store
          exact ret fun h hP => received_none io' ⟨msg, hP⟩

end descriptor

theorem reset_carries (a : Nat) (p : MsgParser) :
    Carries (parserAt a p) (reset a) (.ok p.reset) fun p' _ => parserAt a p' := by
  apply of_known fun h => parserAt_ne_zero
  intro hne
  rw [reset, if_neg hne]
  exact initState_carries a p

theorem del_carries (a : Nat) (p : MsgParser) : Carries (parserAt a p) (del a) (.ok ()) fun _ _ => 1 := by
  apply of_known fun h => parserAt_ne_zero
  intro hne
  rw [del, if_neg hne]
  apply of_ex
  intro msg
  apply Carries.loadParser
  rw [mul_comm]
  apply Carries.freeMessage
  rw [← mul_one (pointsTo a _), ← bind_pure (Prog.free a)]
  apply free
  exact Carries.ret fun h hP => hP

theorem new_carries (A : Allocator Block) (calloc : Bool) :
    Carries 1 (new A calloc) (.ok (MsgParser.new calloc)) fun r ret => orNull parserAt ret r := by
  cases calloc with
  | false =>
      apply alloc_none
      apply ret
      intro h hP
      rwa [MsgParser.new, if_neg Bool.false_ne_true, orNull_null]
  | true =>
      apply alloc
      intro a
      apply of_pointsTo
      intro hne
      rw [if_neg hne]
      refine strengthen (P := parserAt a ⟨⟨0, 0, 0, 0, 0⟩, false, 0, none⟩ * 1) ?_ fun h hP =>
        mul_mono (fun _ => parserAt_null) (fun _ => id) hP
      apply call (initState_carries a _)
      intro _
      apply ret
      intro h hP
      rwa [mul_one] at hP

end MParser

/-! ## Messages -/

theorem messageNew_carries (A : Allocator Block) (malloc : Malloc) (type cmd index total : UInt16)
    (payload : Option (List UInt8)) (length : UInt32) :
    Carries 1 (messageNew A malloc type cmd index total payload length)
      (Message.new malloc type cmd index total payload length) fun r ret => orNull messageAt ret r := by
  rw [messageNew, mallocRaw, Message.new]
  cases malloc (sizeofMessage + length.toNat) with
  | none =>
      apply alloc_none
      apply ret
      intro h hP
      rwa [orNull_null]
  | some blk =>
      have hlen : sizeofMessage ≤ blk.toList.length := by
        rw [Vector.length_toList]
        exact Nat.le_add_right _ _
      apply alloc
      intro a
      apply of_pointsTo
      intro hne
      rw [if_neg hne]
      refine Carries.storeHeader_of_le hlen ?_
      have hdone : ∀ m h, (messageAt a m * 1 : Assertion Block) h → orNull messageAt a (some m) h := by
        intro m h hP
        rwa [mul_one] at hP
      cases payload with
      | none => exact ret (hdone _)
      | some src =>
          apply Carries.loadMessage
          apply eval
          intro rest _
          apply store
          exact ret (hdone _)

/-! ## Clients -/

/-- The parser that a client points to is not null. -/
theorem of_client {α ρ : Type} {a parser : Nat} {fd : Int} {p : MsgParser} {prog : Prog Block α} {m : Exec ρ}
    {Q : ρ → α → Assertion Block}
    (hc : parser ≠ 0 → Carries (pointsTo a (.client ⟨fd, parser⟩) * parserAt parser p) prog m Q) :
    Carries (pointsTo a (.client ⟨fd, parser⟩) * parserAt parser p) prog m Q := by
  refine of_known ?_ hc
  rintro _ ⟨_, _, _, _, _, hP⟩
  exact parserAt_ne_zero hP

theorem fromFd_carries (A : Allocator Block) (malloc : Option ClientBlock) (calloc : Bool) (fd : Int) :
    Carries 1 (fromFd A malloc calloc fd) (.ok (Wire.TcpClient.fromFd malloc.isSome calloc fd)) fun r ret =>
      orNull clientAt ret r := by
  cases malloc with
  | none =>
      apply alloc_none
      apply ret
      intro h hP
      rwa [Option.isSome_none, Wire.TcpClient.fromFd, if_neg Bool.false_ne_true, orNull_null]
  | some garbage =>
      apply alloc
      intro a
      apply of_pointsTo
      intro hne
      rw [if_neg hne]
      apply Carries.loadClient
      apply store
      rw [mul_comm]
      apply call (MParser.new_carries A calloc)
      intro parser
      rw [mul_comm]
      apply store
      cases calloc with
      | false =>
          rw [mul_comm]
          apply of_fact
          rintro rfl
          rw [if_pos rfl, ← mul_one (pointsTo a _)]
          apply free
          apply ret
          intro h hP
          exact (orNull_null clientAt).symm ▸ hP
      | true =>
          apply of_client
          intro hparser
          rw [if_neg hparser]
          exact ret fun h hP => ⟨parser, hP⟩

namespace TcpClient

theorem recvMsg_carries {σ : Type} [Readable σ] (A : Allocator Block) (malloc : Malloc) (a : Nat) {c : Client}
    (hp : c.parser.header = false → c.parser.msg = none) (io : σ) :
    Carries (clientAt a c) (recvMsg A malloc a io) (Wire.TcpClient.recvMsg malloc c io) fun r out =>
      fact (out.2 = r.2.2) * (orNull messageAt out.1 r.1 * clientAt a r.2.1) := by
  apply of_known fun h => clientAt_ne_zero
  intro hne
  rw [recvMsg, if_neg hne]
  apply of_ex
  intro parser
  apply Carries.loadClient
  rw [mul_comm, ← bind_pure (MParser.readFd _ _ _ _ _)]
  apply bind ((MParser.readFd_carries A malloc parser hp c.fd io).frame _)
  rintro ⟨msg, p, io'⟩ out -
  apply Carries.ret
  intro h hP
  rw [Received, mul_assoc] at hP
  obtain ⟨hio, hP⟩ := fact_mul_apply.mp hP
  rw [Returned, mul_assoc] at hP
  refine fact_mul_apply.mpr ⟨hio, mul_mono (fun _ => id) (fun h hP => ?_) hP⟩
  rw [mul_comm] at hP
  exact ⟨parser, hP⟩

theorem close_carries (a : Nat) (c : Client) :
    Carries (clientAt a c) (close a) (.ok (Wire.TcpClient.close c)) fun c' _ => clientAt a c' := by
  apply of_known fun h => clientAt_ne_zero
  intro hne
  rw [close, if_neg hne]
  apply of_ex
  intro parser
  apply Carries.loadClient
  apply store
  rw [mul_comm, ← bind_pure (MParser.reset _)]
  apply call (MParser.reset_carries parser c.parser)
  intro _
  apply ret
  intro h hP
  rw [mul_comm] at hP
  exact ⟨parser, hP⟩

theorem del_carries (a : Nat) (c : Client) : Carries (clientAt a c) (del a) (.ok ()) fun _ _ => 1 := by
  apply of_known fun h => clientAt_ne_zero
  intro hne
  rw [del, if_neg hne, ← mul_one (clientAt a c)]
  apply call (close_carries a c)
  intro _
  rw [mul_one]
  apply of_ex
  intro parser
  apply Carries.loadClient
  rw [mul_comm]
  apply call (MParser.del_carries parser _)
  intro _
  rw [one_mul, ← mul_one (pointsTo a _), ← bind_pure (Prog.free a)]
  apply free
  exact ret fun h hP => hP

/-- The message goes to network order and back in its own block. -/
theorem sendMsg_carries (send : Int → List UInt8 → Int) (a b : Nat) (c : Client) (m : Message) :
    Carries (clientAt a c * messageAt b m) (sendMsg send a b) (Wire.TcpClient.sendMsg send c m) fun r ok =>
      fact (ok = r.1) * (clientAt a c * messageAt b r.2) := by
  have hknown : ∀ h, (clientAt a c * messageAt b m : Assertion Block) h → a ≠ 0 ∧ b ≠ 0 := by
    rintro _ ⟨h₁, h₂, _, rfl, hc, hm, _⟩
    exact ⟨clientAt_ne_zero hc, hm⟩
  refine of_known hknown ?_
  rintro ⟨ha, hb⟩
  rw [sendMsg, if_neg (not_or.mpr ⟨ha, hb⟩), Wire.TcpClient.sendMsg, mul_comm]
  apply Carries.loadMessage
  apply store
  rw [mul_comm, clientAt, ex_mul]
  apply of_ex
  intro parser
  rw [mul_assoc]
  apply Carries.loadClient
  apply eval
  intro buf _
  rw [mul_comm (parserAt _ _), mul_left_comm]
  apply store
  apply ret
  intro h hP
  refine fact_mul_apply.mpr ⟨rfl, ?_⟩
  rw [mul_comm] at hP
  exact mul_mono (fun h hP => ⟨parser, hP⟩) (fun _ => id) hP

end TcpClient

/-! ## Points -/

namespace UdpPoint

theorem fromFd_carries (A : Allocator Block) (malloc : Option ClientBlock) (calloc : Bool) (fd : Int) :
    Carries 1 (fromFd A malloc calloc fd) (.ok (Wire.UdpPoint.fromFd malloc.isSome calloc fd)) fun r ret =>
      orNull pointAt ret r := by
  refine of_ok (Memory.fromFd_carries A malloc calloc fd) fun a h hP => ?_
  cases malloc with
  | none => exact hP
  | some garbage =>
      cases calloc with
      | false => exact hP
      | true => exact hP

theorem new_carries (A : Allocator Block) (malloc : Option ClientBlock) (calloc : Bool) (socket : Int) (bind : Bool) :
    Carries 1 (new A malloc calloc socket bind) (.ok (Wire.UdpPoint.new malloc.isSome calloc socket bind))
      fun r ret => orNull pointAt ret r := by
  cases malloc with
  | none =>
      apply alloc_none
      apply ret
      intro h hP
      rwa [Option.isSome_none, Wire.UdpPoint.new, if_neg Bool.false_ne_true, orNull_null]
  | some garbage =>
      apply alloc
      intro a
      apply of_pointsTo
      intro hne
      rw [if_neg hne]
      apply Carries.loadClient
      rw [mul_comm]
      apply call (MParser.new_carries A calloc)
      intro parser
      rw [mul_comm]
      apply store
      cases calloc with
      | false =>
          rw [mul_comm]
          apply of_fact
          rintro rfl
          rw [if_pos rfl, MParser.del, if_pos rfl, pure_bind, ← mul_one (pointsTo a _)]
          apply free
          apply ret
          intro h hP
          exact (orNull_null pointAt).symm ▸ hP
      | true =>
          apply of_client
          intro hparser
          rw [if_neg hparser]
          apply store
          have hnew : Wire.UdpPoint.new true true socket bind =
              if socket ≠ -1 ∧ bind then some ⟨socket, MsgParser.fresh⟩ else none := rfl
          rw [Option.isSome_some, hnew]
          by_cases hok : socket ≠ -1 ∧ bind = true
          · rw [if_pos hok, if_pos hok]
            exact ret fun h hP => ⟨parser, hP⟩
          · rw [if_neg hok, if_neg hok, mul_comm]
            apply call (MParser.del_carries parser _)
            intro _
            rw [mul_comm]
            apply free
            apply ret
            intro h hP
            rwa [orNull_null]

theorem sendMsg_carries (sendto : Int → List UInt8 → Int) (a b : Nat) (c : UdpPoint) (m : Message) :
    Carries (pointAt a c * messageAt b m) (sendMsg sendto a b) (Wire.UdpPoint.sendMsg sendto c m) fun r ok =>
      fact (ok = r.1) * (pointAt a c * messageAt b r.2) := by
  have hsame : Wire.UdpPoint.sendMsg sendto c m = Wire.TcpClient.sendMsg sendto ⟨c.fd, c.parser⟩ m := by
    rw [Wire.UdpPoint.sendMsg, Wire.TcpClient.sendMsg]
  rw [hsame]
  exact TcpClient.sendMsg_carries sendto a b ⟨c.fd, c.parser⟩ m

theorem recvMsg_carries (A : Allocator Block) (buffer malloc : Malloc) (a : Nat) {c : UdpPoint}
    (hp : c.parser.header = false → c.parser.msg = none) (d : Datagram) :
    Carries (pointAt a c) (recvMsg A buffer malloc a d) (Wire.UdpPoint.recvMsg buffer malloc c d none none)
      fun r ret => orNull messageAt ret r.1 * pointAt a r.2.2.2 := by
  apply of_known fun h => clientAt_ne_zero
  intro hne
  rw [recvMsg, if_neg hne, Wire.UdpPoint.recvMsg]
  apply of_ex
  intro parser
  apply Carries.loadClient
  dsimp only
  have hnone : ∀ h, (pointsTo a (.client ⟨c.fd, parser⟩) * parserAt parser c.parser : Assertion Block) h →
      (orNull messageAt 0 none * pointAt a c : Assertion Block) h := by
    intro h hP
    rw [orNull_null, one_mul]
    exact ⟨parser, hP⟩
  by_cases hpos : 0 < Wire.UdpPoint.peek d
  · rw [if_pos hpos, if_pos hpos, mallocRaw]
    cases hbuffer : buffer (Wire.UdpPoint.peek d) with
    | none =>
        apply alloc_none
        rw [if_neg fun h => h.2 rfl, if_neg fun h => Bool.false_ne_true h.2, pure_bind]
        apply free_null
        exact ret hnone
    | some blk =>
        apply alloc
        intro buf
        apply of_pointsTo
        intro hbuf
        rw [if_pos ⟨hpos, hbuf⟩, if_pos ⟨hpos, rfl⟩]
        apply store
        rw [mul_comm, mul_comm (pointsTo a _), mul_assoc]
        apply bind ((MParser.readMem_carries A malloc parser hp _).frame _)
        rintro ⟨msg, p⟩ out -
        rw [mul_comm (pointsTo a _), mul_left_comm]
        apply free
        have hpost : ∀ h, (Returned parser (msg, p) out * pointsTo a (.client ⟨c.fd, parser⟩) : Assertion Block) h →
            (orNull messageAt out msg * pointAt a ⟨c.fd, p⟩ : Assertion Block) h := by
          intro h hP
          rw [Returned, mul_assoc, mul_comm (parserAt _ _)] at hP
          exact mul_mono (fun _ => id) (fun h hP => ⟨parser, hP⟩) hP
        cases msg with
        | none => exact ret hpost
        | some m => exact ret hpost
  · rw [if_neg hpos, if_neg fun h => hpos h.1, pure_bind, if_neg fun h => hpos h.1, pure_bind]
    apply free_null
    exact ret hnone

theorem del_carries (a : Nat) (c : UdpPoint) : Carries (pointAt a c) (del a) (.ok ()) fun _ _ => 1 := by
  apply of_known fun h => clientAt_ne_zero
  intro hne
  rw [del, if_neg hne]
  apply of_ex
  intro parser
  apply Carries.loadClient
  rw [mul_comm]
  apply call (MParser.del_carries parser _)
  intro _
  rw [one_mul, ← mul_one (pointsTo a _), ← bind_pure (Prog.free a)]
  apply free
  exact ret fun h hP => hP

end UdpPoint

end CompileService.Wire.Memory
