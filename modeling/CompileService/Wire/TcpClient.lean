import CompileService.Wire.Parser

/-!
# Sending and receiving messages over TCP

The part of `tcp_client.c` that moves messages: `TcpClient_SendMsg` hands the message to `send` in network
order, `TcpClient_RecvMsg` parses what the descriptor delivers.
-/

namespace CompileService.Wire

open CompileService.Base

/-- A client: its descriptor (-1 when closed) and its parser. -/
structure Client where
  fd : Int
  parser : MsgParser
deriving DecidableEq, Repr

/-- The bytes that `TcpClient_SendMsg` hands to `send`: `Message_Size` many from the converted message. -/
def Message.sendBuf (m : Message) : Exec (List UInt8) :=
  let len := toSize m.size
  let data := m.h2n.bytes
  if len ≤ data.length then .ok (data.take len) else .error .bounds

/-- What a `send` does: fail and queue nothing, or queue up to `k + 1` bytes. -/
inductive SendEvent where
  | fail
  | count (k : Nat)
deriving DecidableEq, Repr

/-- The result of a `send` of `buf`, and the bytes that are queued. -/
def SendEvent.send (e : SendEvent) (buf : List UInt8) : Int × List UInt8 :=
  match e with
  | .fail => (-1, [])
  | .count k => ((buf.take (k + 1)).length, buf.take (k + 1))

/-- The side of a socket on which bytes are sent: the number of calls of `send` so far, and the bytes queued. -/
structure Outlet where
  calls : Nat
  queue : List UInt8
deriving DecidableEq, Repr

def Outlet.fresh : Outlet := ⟨0, []⟩

namespace TcpClient

/-- `TcpClient_From`; either allocation may fail. -/
def fromFd (malloc calloc : Bool) (fd : Int) : Option Client :=
  if malloc then (MsgParser.new calloc).map fun parser => ⟨fd, parser⟩ else none

/-- `TcpClient_SendMsg`; the message is converted back afterwards. -/
def sendMsg (send : Int → List UInt8 → Int) (c : Client) (msg : Message) : Exec (Bool × Message) := do
  let buf ← msg.sendBuf
  return (send c.fd buf ≠ -1, msg.h2n.n2h)

/-- `TcpClient_SendRaw`; `sched` has the results of the calls of `send`, in their order. -/
def sendRaw (sched : Nat → SendEvent) (out : Outlet) (buf : List UInt8) (length : Int) : Exec (Int × Outlet) :=
  if toSize length ≤ buf.length then
    let (ret, taken) := (sched out.calls).send (buf.take (toSize length))
    .ok (ret, ⟨out.calls + 1, out.queue ++ taken⟩)
  else .error .bounds

def recvMsg {σ : Type} [Readable σ] (malloc : Malloc) (c : Client) (io : σ) :
    Exec (Option Message × Client × σ) := do
  let (ret, parser, io) ← c.parser.readFd malloc c.fd io
  return (ret, { c with parser := parser }, io)

/-- The bytes that a sequence of `TcpClient_SendMsg` calls hands to `send`. -/
def sendAll : List Message → Exec (List UInt8)
  | [] => .ok []
  | m :: ms => do
      let buf ← m.sendBuf
      let bufs ← sendAll ms
      return buf ++ bufs

theorem sendRaw_eq {sched : Nat → SendEvent} {out : Outlet} {buf : List UInt8} {n : Nat} (hbuf : n ≤ buf.length)
    (hn : n < 2 ^ 64) :
    sendRaw sched out buf n = .ok (((sched out.calls).send (buf.take n)).1,
      ⟨out.calls + 1, out.queue ++ ((sched out.calls).send (buf.take n)).2⟩) := by
  have hsize : toSize n = n := toSize_natCast hn
  simp only [sendRaw, hsize, if_pos hbuf]

end TcpClient

/-- The `send` of `n` bytes takes all of them. -/
def SendEvent.Takes (e : SendEvent) (n : Nat) : Prop :=
  match e with
  | .fail => False
  | .count k => n ≤ k + 1

instance (e : SendEvent) (n : Nat) : Decidable (e.Takes n) :=
  match e with
  | .fail => inferInstanceAs (Decidable False)
  | .count _ => inferInstanceAs (Decidable (_ ≤ _))

theorem SendEvent.Takes.send_eq {e : SendEvent} {buf : List UInt8} (he : e.Takes buf.length) :
    e.send buf = ((buf.length : Int), buf) := by
  cases e with
  | fail => exact he.elim
  | count k => simp only [SendEvent.send, List.take_of_length_le he]

/-- What a `send` returns and queues if it does not take all. -/
theorem SendEvent.send_short {e : SendEvent} {buf : List UInt8} (hbuf : 1 ≤ buf.length) (he : ¬ e.Takes buf.length) :
    -1 ≤ (e.send buf).1 ∧ (e.send buf).1 < buf.length ∧ (e.send buf).2.length < buf.length := by
  cases e with
  | fail =>
      simp only [SendEvent.send, List.length_nil]
      omega
  | count k =>
      simp only [SendEvent.Takes] at he
      simp only [SendEvent.send, List.length_take]
      omega

/-- The `send` takes as many bytes as an `int` can count. -/
def SendEvent.Full (e : SendEvent) : Prop :=
  match e with
  | .fail => False
  | .count k => 2 ^ 31 ≤ k + 1

theorem SendEvent.Full.takes {e : SendEvent} {n : Nat} (he : e.Full) (hn : n < 2 ^ 31) : e.Takes n := by
  cases e with
  | fail => exact he
  | count k => exact Nat.le_trans (Nat.le_of_lt hn) he

theorem SendEvent.Full.send_eq {e : SendEvent} {buf : List UInt8} (he : e.Full) (hbuf : buf.length < 2 ^ 31) :
    e.send buf = ((buf.length : Int), buf) :=
  (he.takes hbuf).send_eq

/-- A `send` queues a beginning of what it is given. -/
theorem SendEvent.send_initial (e : SendEvent) (buf : List UInt8) : (e.send buf).2 <+: buf := by
  cases e with
  | fail => exact List.nil_prefix
  | count k => exact List.take_prefix (k + 1) buf

/-- `m` is a message whose size fits the `int` that `Message_Size` returns. -/
def Message.Sendable (m : Message) : Prop := m.Full ∧ m.payload.length ≤ 2 ^ 31 - 13

instance (m : Message) : Decidable m.Sendable := inferInstanceAs (Decidable (_ ∧ _))

def wires (ms : List Message) : List UInt8 := (ms.map Message.wire).flatten

@[simp] theorem wires_nil : wires [] = [] := rfl

@[simp] theorem wires_cons (m : Message) (ms : List Message) : wires (m :: ms) = m.wire ++ wires ms := rfl

theorem wires_append (ms ms' : List Message) : wires (ms ++ ms') = wires ms ++ wires ms' := by
  simp [wires]

theorem wires_frames {ms : List Message} (h : ∀ m ∈ ms, m.Full) :
    ∀ f ∈ ms.map Message.wire, msgFraming.Frame f := by
  intro f hf
  obtain ⟨m, hm, rfl⟩ := List.mem_map.mp hf
  exact (h m hm).frame

theorem Message.Sendable.length_lt {m : Message} (h : m.Sendable) : m.length.toNat < 2 ^ 31 := by
  have := h.1
  have := h.2
  unfold Message.Full at *
  omega

/-- What is handed over is the whole message if and only if its size fits an `int`. -/
theorem Message.Full.sendBuf_iff {m : Message} (h : m.Full) :
    m.sendBuf = .ok m.wire ↔ sizeofMessage + m.length.toNat < 2 ^ 31 := by
  have hlen : m.h2n.bytes.length = sizeofMessage + m.length.toNat := by
    rw [← h]
    exact m.length_wire
  refine Iff.trans ?_ m.toSize_size_eq_iff
  constructor
  · intro hbuf
    simp only [Message.sendBuf] at hbuf
    split at hbuf
    · rename_i hle
      have htake := congrArg List.length (Except.ok.inj hbuf)
      rw [List.length_take_of_le hle] at htake
      rw [htake, ← hlen]
      rfl
    · cases hbuf
  · intro hsize
    have hle : toSize m.size ≤ m.h2n.bytes.length := by rw [hsize, hlen]
    simp only [Message.sendBuf, if_pos hle]
    rw [List.take_of_length_le (by rw [hsize, hlen])]
    rfl

theorem Message.Sendable.sendBuf_eq {m : Message} (h : m.Sendable) : m.sendBuf = .ok m.wire := by
  have hlt : m.payload.length ≤ 2 ^ 31 - 13 := h.2
  rw [h.1] at hlt
  refine h.1.sendBuf_iff.mpr ?_
  unfold sizeofMessage
  omega

theorem TcpClient.sendMsg_eq {send : Int → List UInt8 → Int} {c : Client} {m : Message}
    (h : m.Sendable) : TcpClient.sendMsg send c m = .ok (send c.fd m.wire ≠ -1, m) := by
  simp only [TcpClient.sendMsg, h.sendBuf_eq, Exec.ok_bind, Message.n2h_h2n]
  rfl

theorem TcpClient.sendAll_eq {ms : List Message} (h : ∀ m ∈ ms, m.Sendable) :
    TcpClient.sendAll ms = .ok (wires ms) := by
  induction ms with
  | nil => rfl
  | cons m ms ih =>
      have hm := h m (by simp)
      simp only [sendAll, hm.sendBuf_eq, ih (fun m' hm' => h m' (by simp [hm'])), Exec.ok_bind]
      rfl

end CompileService.Wire
