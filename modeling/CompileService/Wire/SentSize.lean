import CompileService.Wire.UdpPoint

/-!
# The size of what is sent

`Message_Size` adds in `size_t` and returns an `int`, which `send` and `sendto` get as a `size_t` again. The count is
the size of the message as long as that fits an `int`.
-/

namespace CompileService.Wire

open CompileService.Base

/-! ## The calls of the kernel -/

/-- What `send` is called with: the descriptor, the memory behind the pointer, the count. -/
structure SendArgs where
  fd : Int
  data : List UInt8
  len : Nat
deriving DecidableEq, Repr

/-- What `sendto` is called with. -/
structure SendtoArgs extends SendArgs where
  addr : SockAddr

/-- The bytes that are handed over; a count beyond the end of the memory reads past it. -/
def SendArgs.bytes (args : SendArgs) : Exec (List UInt8) :=
  if args.len ≤ args.data.length then .ok (args.data.take args.len) else .error .bounds

/-- The `send` of `TcpClient_SendMsg`. -/
def TcpClient.sendMsgArgs : Option Client → Option Message → Option SendArgs
  | some c, some msg =>
      let len := msg.size
      let data := msg.h2n.bytes
      some ⟨c.fd, data, toSize len⟩
  | _, _ => none

namespace UdpPoint

/-- The `sendto` of `UdpPoint_SendRaw`; `inetAddr` is `inet_addr`. -/
def sendRawArgs (inetAddr : String → UInt8 × UInt8 × UInt8 × UInt8) (point : Option UdpPoint)
    (buf : Option (List UInt8)) (length : Int) (remote : Option String) (port : Int) : Option SendtoArgs :=
  match point, buf, remote with
  | some c, some buf, some remote =>
      some { fd := c.fd, data := buf, len := toSize length, addr := ⟨inetAddr remote, ntohs (UInt16.ofInt port)⟩ }
  | _, _, _ => none

/-- The `sendto` of `UdpPoint_SendMsg`. -/
def sendMsgArgs (inetAddr : String → UInt8 × UInt8 × UInt8 × UInt8) (point : Option UdpPoint)
    (msg : Option Message) (remote : Option String) (port : Int) : Option SendtoArgs :=
  match point, msg, remote with
  | some c, some msg, some remote =>
      let len := msg.size
      let data := msg.h2n.bytes
      sendRawArgs inetAddr (some c) (some data) len (some remote) port
  | _, _, _ => none

end UdpPoint

/-- Both functions pass on the count `n`, whoever sends the message and wherever it goes. -/
def Message.SentAs (m : Message) (n : Nat) : Prop :=
  (∀ c : Client, (TcpClient.sendMsgArgs (some c) (some m)).map (fun args => args.len) = some n) ∧
    ∀ (inetAddr : String → UInt8 × UInt8 × UInt8 × UInt8) (c : UdpPoint) (remote : String) (port : Int),
      (UdpPoint.sendMsgArgs inetAddr (some c) (some m) (some remote) port).map (fun args => args.len) = some n

section
variable {malloc : Malloc} {type cmd index total : UInt16} {payload : Option (List UInt8)} {length : UInt32}
  {m : Message} {n : Nat}

/-- `TcpClient_SendMsg` sends what its call of `send` describes. -/
theorem TcpClient.sendMsg_args (send : Int → List UInt8 → Int) (c : Client) (m : Message) :
    ∃ args, sendMsgArgs (some c) (some m) = some args ∧
      sendMsg send c m = args.bytes >>= fun buf => .ok (decide (send args.fd buf ≠ -1), m) := by
  refine ⟨⟨c.fd, m.h2n.bytes, toSize m.size⟩, rfl, ?_⟩
  simp only [sendMsg, Message.sendBuf, SendArgs.bytes, Message.n2h_h2n]
  rfl

/-- `UdpPoint_SendMsg` sends what its call of `sendto` describes. -/
theorem UdpPoint.sendMsg_args (sendto : SockAddr → Int → List UInt8 → Int)
    (inetAddr : String → UInt8 × UInt8 × UInt8 × UInt8) (c : UdpPoint) (m : Message) (remote : String) (port : Int) :
    ∃ args, sendMsgArgs inetAddr (some c) (some m) (some remote) port = some args ∧
      sendMsg (sendto args.addr) c m =
        args.bytes >>= fun buf => .ok (decide (sendto args.addr args.fd buf ≠ -1), m) := by
  refine ⟨⟨⟨c.fd, m.h2n.bytes, toSize m.size⟩, ⟨inetAddr remote, ntohs (UInt16.ofInt port)⟩⟩, rfl, ?_⟩
  simp only [sendMsg, Message.sendBuf, SendArgs.bytes, Message.n2h_h2n]
  rfl

theorem Message.sentAs_iff : m.SentAs n ↔ toSize m.size = n := by
  simp only [Message.SentAs, TcpClient.sendMsgArgs, UdpPoint.sendMsgArgs, UdpPoint.sendRawArgs, Option.map_some,
    Option.some.injEq]
  exact ⟨fun h => h.1 ⟨0, MsgParser.fresh⟩, fun h => ⟨fun _ => h, fun _ _ _ _ => h⟩⟩

/-! ## Messages of any length -/

theorem Message.new_length
    (h : Message.new malloc type cmd index total payload length = .ok (some m)) : m.length = length := by
  unfold Message.new at h
  split at h
  · cases h
  · cases payload with
    | none =>
        cases h
        rfl
    | some src =>
        obtain ⟨rest, _, hm⟩ := Exec.bind_eq_ok.mp h
        cases hm
        rfl

/-- Without a payload to copy, an allocation is all that a message needs. -/
theorem Message.new_null (type cmd index total : UInt16) (h : malloc (sizeofMessage + length.toNat) ≠ none) :
    ∃ m, Message.new malloc type cmd index total none length = .ok (some m) := by
  obtain ⟨blk, hblk⟩ := Option.ne_none_iff_exists'.mp h
  exact ⟨_, by rw [Message.new, hblk]⟩

/-- The size of what is sent. Whatever message is built, the count that `TcpClient_SendMsg` and `UdpPoint_SendMsg` pass
on is the size of its block if and only if that size fits an `int`. -/
theorem Message.sent_size_iff (h : Message.new malloc type cmd index total payload length = .ok (some m)) :
    m.bytes.length = sizeofMessage + length.toNat ∧
      (m.SentAs (sizeofMessage + length.toNat) ↔ sizeofMessage + length.toNat < 2 ^ 31) := by
  rw [Message.sentAs_iff, ← Message.new_length h]
  exact ⟨(Message.new_full h).length_bytes, m.toSize_size_eq_iff⟩

end

theorem sent_size_three :
    ∃ m, Message.new .cleared 1 2 3 4 (some [5, 6, 7]) 3 = .ok (some m) ∧ m.SentAs 15 := by
  obtain ⟨m, hnew⟩ : ∃ m, Message.new .cleared 1 2 3 4 (some [5, 6, 7]) 3 = .ok (some m) := ⟨_, rfl⟩
  exact ⟨m, hnew, (Message.sent_size_iff hnew).2.mpr (by decide)⟩

/-- A block of `2 ^ 31` bytes: its size is negative as an `int`. -/
theorem sent_size_two_gib :
    ∃ m, Message.new .cleared 1 2 3 4 none 2147483636 = .ok (some m) ∧ m.bytes.length = 2 ^ 31 ∧
      m.SentAs (2 ^ 64 - 2 ^ 31) ∧ ¬ m.SentAs (sizeofMessage + (2147483636 : UInt32).toNat) := by
  have hblock : Malloc.cleared (sizeofMessage + (2147483636 : UInt32).toNat) ≠ none :=
    Malloc.cleared_succeeds.serves _ (by decide)
  obtain ⟨m, hnew⟩ := Message.new_null 1 2 3 4 hblock
  have hlength := Message.new_length hnew
  have hsize : toSize m.size = 2 ^ 64 - 2 ^ 31 := by
    rw [Message.size, hlength]
    decide
  refine ⟨m, hnew, ?_, Message.sentAs_iff.mpr hsize, fun h => ?_⟩
  · rw [(Message.new_full hnew).length_bytes, hlength]
    rfl
  · rw [Message.sentAs_iff, hsize] at h
    exact absurd h (by decide)

end CompileService.Wire
