import CompileService.Base.Separation
import CompileService.Wire.UdpPoint

/-!
# Parsers, clients and messages in memory

The functions of `message.c`, `msg_parser.c`, `tcp_client.c` and `udp_point.c` that allocate, use and free blocks, on
a heap and with pointers as in the source: 0 is the null pointer. The functions on values of the other modules leave
the heap out.
-/

namespace CompileService.Wire.Memory

open CompileService.Base Prog

/-! ## Blocks -/

/-- `struct msg_parser`. -/
structure ParserBlock where
  cache : Header
  header : Bool
  need : Int
  msg : Nat
deriving DecidableEq, Repr

/-- `struct tcp_client`, which has the same fields as `struct udp_point`. -/
structure ClientBlock where
  fd : Int
  parser : Nat
deriving DecidableEq, Repr

/-- What a block is used for; `raw` has the bytes of a block that is no object yet. -/
inductive Block where
  | parser (p : ParserBlock)
  | client (c : ClientBlock)
  | message (m : Message)
  | raw (bytes : List UInt8)
deriving DecidableEq, Repr

def Block.toParser : Block → Option ParserBlock
  | parser p => some p
  | _ => none

def Block.toClient : Block → Option ClientBlock
  | client c => some c
  | _ => none

def Block.toMessage : Block → Option Message
  | message m => some m
  | _ => none

def loadParser (a : Nat) : Prog Block ParserBlock := loadAs Block.toParser a

def loadClient (a : Nat) : Prog Block ClientBlock := loadAs Block.toClient a

def loadMessage (a : Nat) : Prog Block Message := loadAs Block.toMessage a

/-- The assignment of a header to the message at `a`. -/
def storeHeader (a : Nat) (h : Header) : Prog Block Unit :=
  load a >>= fun
    | .message m => store a (.message { m with toHeader := h })
    | .raw bytes =>
        if sizeofMessage ≤ bytes.length then store a (.message ⟨h, bytes.drop sizeofMessage⟩)
        else eval (.error .bounds)
    | _ => eval (.error .bounds)

def mallocRaw (A : Allocator Block) (malloc : Malloc) (size : Nat) : Prog Block Nat :=
  alloc A ((malloc size).map fun blk => .raw blk.toList)

/-! ## `message.c` -/

/-- `Message_New`. -/
def messageNew (A : Allocator Block) (malloc : Malloc) (type cmd index total : UInt16) (payload : Option (List UInt8))
    (length : UInt32) : Prog Block Nat := do
  let ret ← mallocRaw A malloc (sizeofMessage + length.toNat)
  if ret = 0 then return 0
  else do
    storeHeader ret ⟨type, cmd, index, total, length⟩
    match payload with
    | none => return ret
    | some src => do
        let m ← loadMessage ret
        let payload ← eval (memcpy m.payload 0 src length.toNat)
        store ret (.message { m with payload := payload })
        return ret

/-! ## `msg_parser.c` -/

namespace MParser

def initState (p : Nat) : Prog Block Unit := do
  let s ← loadParser p
  let s := { s with header := false, need := sizeofMessage }
  store p (.parser s)
  free s.msg
  store p (.parser { s with msg := 0 })

def toMidState (A : Allocator Block) (malloc : Malloc) (p : Nat) : Prog Block Bool := do
  let s ← loadParser p
  let need := toInt32 s.cache.length.toNat
  let msg ← mallocRaw A malloc (toSize (sizeofMessage + need))
  store p (.parser { s with header := true, need := need, msg := msg })
  if msg = 0 then return false
  else do
    storeHeader msg s.cache
    return true

def toLastState (p : Nat) : Prog Block Nat := do
  let s ← loadParser p
  if s.header ∧ s.need = 0 then do
    store p (.parser { s with msg := 0 })
    return s.msg
  else return 0

/-- `if( ret = ToLastState(p) ) InitState(p)`. -/
def finish (p : Nat) : Prog Block Nat := do
  let ret ← toLastState p
  if ret = 0 then return 0
  else do
    initState p
    return ret

/-- `MParser_New`; `calloc` clears the block. -/
def new (A : Allocator Block) (calloc : Bool) : Prog Block Nat := do
  let ret ← alloc A (if calloc then some (.parser ⟨⟨0, 0, 0, 0, 0⟩, false, 0, 0⟩) else none)
  if ret = 0 then return 0
  else do
    initState ret
    return ret

/-- `MParser_ReadMem` with `header` set. -/
def readMemPayload (p : Nat) (mem : Mem) : Prog Block Nat := do
  let s ← loadParser p
  if s.msg = 0 then finish p
  else do
    let m ← loadMessage s.msg
    let len := MsgParser.copyLen s.need mem.length
    let offset := toInt32 (m.length.toNat - s.need)
    let payload ← eval (memcpy m.payload offset mem.bytes len)
    store s.msg (.message { m with payload := payload })
    store p (.parser { s with need := toInt32 (s.need - len) })
    finish p

/-- `MParser_ReadMem`; `mem` has the bytes that the pointer leads to. -/
def readMem (A : Allocator Block) (malloc : Malloc) (p : Nat) (mem : Option Mem) : Prog Block Nat :=
  if p = 0 then return 0
  else
    match mem with
    | none => return 0
    | some mem => do
        let s ← loadParser p
        if s.header then readMemPayload p mem
        else do
          let len := MsgParser.copyLen s.need mem.length
          let offset := toInt32 (sizeofMessage - s.need)
          let bytes ← eval (memcpy s.cache.bytes offset mem.bytes len)
          let s := { s with cache := Header.ofBytes bytes }
          store p (.parser s)
          if s.need = len then do
            store p (.parser { s with cache := s.cache.n2h })
            let ok ← toMidState A malloc p
            if ok then readMemPayload p (mem.advance s.need.toNat)
            else do
              initState p
              return 0
          else do
            store p (.parser { s with need := toInt32 (s.need - len) })
            return 0

section descriptor
variable {σ : Type} [Readable σ]

/-- `MParser_ReadFd` with `header` set. -/
def readFdPayload (p : Nat) (io : σ) : Prog Block (Nat × σ) := do
  let s ← loadParser p
  if s.msg = 0 then do
    let ret ← finish p
    return (ret, io)
  else do
    let m ← loadMessage s.msg
    let offset := toInt32 (m.length.toNat - s.need)
    let (len, payload, io) ← eval (MsgParser.recvAt io m.payload offset s.need)
    store s.msg (.message { m with payload := payload })
    store p (.parser { s with need := toInt32 (s.need - len) })
    let ret ← finish p
    return (ret, io)

/-- `MParser_ReadFd`. -/
def readFd (A : Allocator Block) (malloc : Malloc) (p : Nat) (fd : Int) (io : σ) : Prog Block (Nat × σ) :=
  if fd = -1 ∨ p = 0 then return (0, io)
  else do
    let s ← loadParser p
    if s.header then readFdPayload p io
    else do
      let offset := toInt32 (sizeofMessage - s.need)
      let (len, bytes, io) ← eval (MsgParser.recvAt io s.cache.bytes offset s.need)
      let s := { s with cache := Header.ofBytes bytes }
      store p (.parser s)
      if (len : Int) = s.need then do
        store p (.parser { s with cache := s.cache.n2h })
        let ok ← toMidState A malloc p
        if ok then readFdPayload p io
        else do
          initState p
          return (0, io)
      else do
        store p (.parser { s with need := toInt32 (s.need - len) })
        return (0, io)

end descriptor

def reset (p : Nat) : Prog Block Unit :=
  if p = 0 then return ()
  else initState p

def del (p : Nat) : Prog Block Unit :=
  if p = 0 then return ()
  else do
    let s ← loadParser p
    free s.msg
    free p

end MParser

/-! ## `tcp_client.c` -/

/-- `TcpClient_From` and `UdpPoint_From`; the new block has any contents at first. -/
def fromFd (A : Allocator Block) (malloc : Option ClientBlock) (calloc : Bool) (fd : Int) : Prog Block Nat := do
  let ret ← alloc A (malloc.map .client)
  if ret = 0 then return 0
  else do
    let c ← loadClient ret
    let c := { c with fd := fd }
    store ret (.client c)
    let parser ← MParser.new A calloc
    store ret (.client { c with parser := parser })
    if parser = 0 then do
      free ret
      return 0
    else return ret

namespace TcpClient

def fromFd (A : Allocator Block) (malloc : Option ClientBlock) (calloc : Bool) (fd : Int) : Prog Block Nat :=
  Memory.fromFd A malloc calloc fd

def sendMsg (send : Int → List UInt8 → Int) (client msg : Nat) : Prog Block Bool :=
  if client = 0 ∨ msg = 0 then return false
  else do
    let m ← loadMessage msg
    store msg (.message m.h2n)
    let c ← loadClient client
    let buf ← eval m.sendBuf
    let ret := send c.fd buf
    store msg (.message m.h2n.n2h)
    return ret ≠ -1

def recvMsg {σ : Type} [Readable σ] (A : Allocator Block) (malloc : Malloc) (client : Nat) (io : σ) :
    Prog Block (Nat × σ) :=
  if client = 0 then return (0, io)
  else do
    let c ← loadClient client
    MParser.readFd A malloc c.parser c.fd io

def close (client : Nat) : Prog Block Unit :=
  if client = 0 then return ()
  else do
    let c ← loadClient client
    store client (.client { c with fd := -1 })
    MParser.reset c.parser

def del (client : Nat) : Prog Block Unit :=
  if client = 0 then return ()
  else do
    close client
    let c ← loadClient client
    MParser.del c.parser
    free client

end TcpClient

/-! ## `udp_point.c` -/

namespace UdpPoint

def fromFd (A : Allocator Block) (malloc : Option ClientBlock) (calloc : Bool) (fd : Int) : Prog Block Nat :=
  Memory.fromFd A malloc calloc fd

/-- `UdpPoint_New`; `socket` and `bind` are the results of the calls. -/
def new (A : Allocator Block) (malloc : Option ClientBlock) (calloc : Bool) (socket : Int) (bind : Bool) :
    Prog Block Nat := do
  let ret ← alloc A (malloc.map .client)
  if ret = 0 then return 0
  else do
    let c ← loadClient ret
    let parser ← MParser.new A calloc
    store ret (.client { c with parser := parser })
    if parser = 0 then do
      MParser.del parser
      free ret
      return 0
    else do
      store ret (.client ⟨socket, parser⟩)
      if socket ≠ -1 ∧ bind then return ret
      else do
        MParser.del parser
        free ret
        return 0

def sendMsg (sendto : Int → List UInt8 → Int) (point msg : Nat) : Prog Block Bool :=
  TcpClient.sendMsg sendto point msg

/-- `UdpPoint_RecvMsg` when the next datagram is `d`, up to the address of the sender. -/
def recvMsg (A : Allocator Block) (buffer malloc : Malloc) (point : Nat) (d : Datagram) : Prog Block Nat :=
  if point = 0 then return 0
  else do
    let c ← loadClient point
    let length := UdpPoint.peek d
    let buf ← if 0 < length then mallocRaw A buffer length else pure 0
    let ret ←
      if 0 < length ∧ buf ≠ 0 then do
        store buf (.raw (UdpPoint.chunk d).bytes)
        MParser.readMem A malloc c.parser (some (UdpPoint.chunk d))
      else pure 0
    free buf
    return ret

def del (point : Nat) : Prog Block Unit :=
  if point = 0 then return ()
  else do
    let c ← loadClient point
    MParser.del c.parser
    free point

end UdpPoint

end CompileService.Wire.Memory
