import CompileService.Wire.Message
import CompileService.Base.Descriptor

/-!
# The message parser

`msg_parser.c`. The parser collects a header in `cache`, then allocates the message and collects its payload
there; `need` counts what is missing. Bytes come from memory (`readMem`) or from a descriptor (`readFd`).
-/

namespace CompileService.Wire

open CompileService.Base

structure MsgParser where
  cache : Header
  header : Bool
  need : Int
  msg : Option Message
deriving DecidableEq, Repr

/-- A pointer to bytes together with their number, an `unsigned int`. -/
structure Mem where
  bytes : List UInt8
  size_lt : bytes.length < 2 ^ 32

def Mem.length (mem : Mem) : Nat := mem.bytes.length

/-- `mem += n, length -= n`. -/
def Mem.advance (mem : Mem) (n : Nat) : Mem where
  bytes := mem.bytes.drop n
  size_lt := by
    have := mem.size_lt
    simp only [List.length_drop]
    omega

namespace MsgParser

/-! ## States -/

def initState (p : MsgParser) : MsgParser :=
  { p with header := false, need := sizeofMessage, msg := none }

/-- `ToMidState`. `need` is the `unsigned` length as an `int`, and it is `need` that goes into the size. -/
def toMidState (malloc : Malloc) (p : MsgParser) : Exec (Bool × MsgParser) :=
  let need := toInt32 p.cache.length.toNat
  let size := toSize (sizeofMessage + need)
  match malloc size with
  | none => .ok (false, { p with header := true, need := need, msg := none })
  | some blk =>
      -- `*p->msg = p->cache` writes a whole header
      if sizeofMessage ≤ size then
        let msg : Message := ⟨p.cache, blk.toList.drop sizeofMessage⟩
        .ok (true, { p with header := true, need := need, msg := some msg })
      else .error .bounds

def toLastState (p : MsgParser) : Option Message × MsgParser :=
  if p.header ∧ p.need = 0 then (p.msg, { p with msg := none }) else (none, p)

/-- The end of both read functions: `if( ret = ToLastState(p) ) InitState(p)`. -/
def finish (p : MsgParser) : Option Message × MsgParser :=
  match p.toLastState with
  | (some m, p) => (some m, p.initState)
  | (none, p) => (none, p)

/-- `MParser_New`; `calloc` clears the block. -/
def new (calloc : Bool) : Option MsgParser :=
  if calloc then some (initState ⟨⟨0, 0, 0, 0, 0⟩, false, 0, none⟩) else none

/-- The parser that a successful `MParser_New` returns. -/
def fresh : MsgParser := ⟨⟨0, 0, 0, 0, 0⟩, false, 12, none⟩

def reset (p : MsgParser) : MsgParser := p.initState

/-! ## Reading from memory -/

/-- `(p->need < length) ? p->need : length`: the comparison is unsigned, the result an `int`. -/
def copyLen (need : Int) (length : Nat) : Int :=
  if toUInt32 need < length then need else toInt32 length

/-- `MParser_ReadMem` with `header` set. -/
def readMemPayload (p : MsgParser) (mem : Mem) : Exec (Option Message × MsgParser) :=
  match p.msg with
  | none => .ok p.finish
  | some m => do
      let len := copyLen p.need mem.length
      let offset := toInt32 (m.length.toNat - p.need)
      let payload ← memcpy m.payload offset mem.bytes len
      return finish { p with need := toInt32 (p.need - len), msg := some { m with payload := payload } }

/-- `MParser_ReadMem`. The recursive call of the source runs with `header` set by `ToMidState`. -/
def readMem (malloc : Malloc) (p : MsgParser) (mem : Option Mem) :
    Exec (Option Message × MsgParser) :=
  match mem with
  | none => .ok (none, p)
  | some mem =>
      if p.header then p.readMemPayload mem
      else do
        let len := copyLen p.need mem.length
        let offset := toInt32 (sizeofMessage - p.need)
        let bytes ← memcpy p.cache.bytes offset mem.bytes len
        let p := { p with cache := Header.ofBytes bytes }
        if p.need = len then
          let p := { p with cache := p.cache.n2h }
          let rest := mem.advance p.need.toNat
          let (ok, p) ← p.toMidState malloc
          if ok then p.readMemPayload rest else return (none, p.initState)
        else return (none, { p with need := toInt32 (p.need - len) })

/-! ## Reading from a descriptor -/

section descriptor
variable {σ : Type} [Readable σ]

/-- The loop of `ToRecv`: `buf` is the memory from the pointer to the end of its block, `i` the number of
bytes received. A `read` may fill all of `buf[i .. size)`. -/
def toRecv (fd : σ) (buf : List UInt8) (size : Int) (retry i : Nat) :
    Exec (Nat × List UInt8 × σ) :=
  if (i : Int) < size then
    if (buf.length : Int) < size then .error .bounds
    else
      match Readable.read fd (size - i).toNat with
      | (none, fd) => .ok (i, buf, fd)
      | (some bs, fd) =>
          if 0 < bs.length then toRecv fd (writeAt buf i bs) size retry (i + bs.length)
          -- `retry++ > 5`
          else if 5 < retry then .ok (i, buf, fd)
          else toRecv fd buf size (retry + 1) i
  else .ok (i, buf, fd)
termination_by (size.toNat - i) + (7 - retry)

/-- `ToRecv(fd, blk + offset, size)`. -/
def recvAt (fd : σ) (blk : List UInt8) (offset size : Int) : Exec (Nat × List UInt8 × σ) :=
  if 0 ≤ offset ∧ offset.toNat ≤ blk.length then do
    let (len, buf, fd) ← toRecv fd (blk.drop offset.toNat) size 0 0
    return (len, blk.take offset.toNat ++ buf, fd)
  else .error .bounds

/-- `MParser_ReadFd` with `header` set. -/
def readFdPayload (p : MsgParser) (io : σ) : Exec (Option Message × MsgParser × σ) :=
  match p.msg with
  | none => .ok (p.finish.1, p.finish.2, io)
  | some m => do
      let offset := toInt32 (m.length.toNat - p.need)
      let (len, payload, io) ← recvAt io m.payload offset p.need
      let p := { p with need := toInt32 (p.need - len), msg := some { m with payload := payload } }
      return (p.finish.1, p.finish.2, io)

/-- `MParser_ReadFd`; `io` is what the kernel holds for the descriptor `fd`. -/
def readFd (malloc : Malloc) (p : MsgParser) (fd : Int) (io : σ) :
    Exec (Option Message × MsgParser × σ) :=
  if fd = -1 then .ok (none, p, io)
  else if p.header then p.readFdPayload io
  else do
    let offset := toInt32 (sizeofMessage - p.need)
    let (len, bytes, io) ← recvAt io p.cache.bytes offset p.need
    let p := { p with cache := Header.ofBytes bytes }
    if (len : Int) = p.need then
      let p := { p with cache := p.cache.n2h }
      let (ok, p) ← p.toMidState malloc
      if ok then p.readFdPayload io else return (none, p.initState, io)
    else return (none, { p with need := toInt32 (p.need - len) }, io)

end descriptor

end MsgParser

end CompileService.Wire
