import CompileService.Wire.TcpClient

/-!
# Sending and receiving messages over UDP

The part of `udp_point.c` that moves messages. A receive looks at the next datagram through a buffer of 4096
bytes to learn its size, takes it off the queue into a block of that size, and hands it to the one parser of
the point.
-/

namespace CompileService.Wire

open CompileService.Base

/-- An internet address with a port: the four octets, and the port as a number. -/
structure Endpoint where
  a : UInt8
  b : UInt8
  c : UInt8
  d : UInt8
  port : UInt16
deriving DecidableEq, Repr

/-- `struct sockaddr_in`: the address as it lies in memory, the port in network order. -/
structure SockAddr where
  sinAddr : UInt8 × UInt8 × UInt8 × UInt8
  sinPort : UInt16

/-- What the kernel stores for an address. -/
def Endpoint.sockAddr (e : Endpoint) : SockAddr := ⟨(e.a, e.b, e.c, e.d), ntohs e.port⟩

def inetNtoa : UInt8 × UInt8 × UInt8 × UInt8 → String
  | (a, b, c, d) => ".".intercalate [toString a.toNat, toString b.toNat, toString c.toNat, toString d.toNat]

def Endpoint.ip (e : Endpoint) : String := inetNtoa (e.a, e.b, e.c, e.d)

structure Datagram where
  data : List UInt8
  sender : Endpoint
deriving DecidableEq, Repr

structure UdpPoint where
  fd : Int
  parser : MsgParser
deriving DecidableEq, Repr

namespace UdpPoint

def tempSize : Nat := 1024 * 4

/-- `ParseAddr`: `none` is a null pointer, otherwise what it points to. -/
def parseAddr (addr : SockAddr) (ip : Option String) (port : Option Int) : Option String × Option Int :=
  (ip.map fun _ => inetNtoa addr.sinAddr, port.map fun _ => (ntohs addr.sinPort).toNat)

/-- `UdpPoint_From`; either allocation may fail. -/
def fromFd (malloc calloc : Bool) (fd : Int) : Option UdpPoint :=
  if malloc then (MsgParser.new calloc).map fun parser => ⟨fd, parser⟩ else none

/-- `UdpPoint_New`; `socket` and `bind` are what the calls of these names give. -/
def new (malloc calloc : Bool) (socket : Int) (bind : Bool) : Option UdpPoint :=
  if malloc then (MsgParser.new calloc).bind fun parser => if socket ≠ -1 ∧ bind then some ⟨socket, parser⟩ else none
  else none

/-- `UdpPoint_SendMsg`: `sendto` is handed `Message_Size` bytes of the converted message. -/
def sendMsg (sendto : Int → List UInt8 → Int) (c : UdpPoint) (msg : Message) : Exec (Bool × Message) := do
  let buf ← msg.sendBuf
  return (sendto c.fd buf ≠ -1, msg.h2n.n2h)

def recvfrom (d : Datagram) (n : Nat) : List UInt8 × SockAddr := (d.data.take n, d.sender.sockAddr)

/-- The size of `d` as far as `g_temp` shows it. -/
def peek (d : Datagram) : Nat := (recvfrom d tempSize).1.length

theorem peek_le (d : Datagram) : peek d ≤ tempSize := List.length_take_le _ _

/-- The bytes that `UdpPoint_RecvMsg` hands to the parser. -/
def chunk (d : Datagram) : Mem where
  bytes := (recvfrom d (peek d)).1
  size_lt := by
    have hle : (recvfrom d (peek d)).1.length ≤ peek d := List.length_take_le _ _
    exact Nat.lt_of_le_of_lt (Nat.le_trans hle (peek_le d)) (by decide)

/-- `UdpPoint_RecvMsg` when the next datagram is `d`. The first allocation is the receive buffer; without one
the second `recvfrom` fails and the datagram is gone. -/
def recvMsg (buffer malloc : Malloc) (c : UdpPoint) (d : Datagram) (remote : Option String)
    (port : Option Int) : Exec (Option Message × Option String × Option Int × UdpPoint) :=
  let length := peek d
  let buf := if 0 < length then buffer length else none
  if 0 < length ∧ buf.isSome then do
    let (ret, parser) ← c.parser.readMem malloc (some (chunk d))
    match ret with
    | some m =>
        let (remote, port) := parseAddr (recvfrom d length).2 remote port
        return (some m, remote, port, { c with parser := parser })
    | none => return (none, remote, port, { c with parser := parser })
  else .ok (none, remote, port, c)

end UdpPoint

/-! ## What they do -/

namespace UdpPoint

theorem parseAddr_eq (e : Endpoint) (ip : String) (port : Int) :
    parseAddr e.sockAddr (some ip) (some port) = (some e.ip, some (e.port.toNat : Int)) := by
  simp [parseAddr, Endpoint.sockAddr, Endpoint.ip]

theorem sendMsg_eq {sendto : Int → List UInt8 → Int} {c : UdpPoint} {m : Message} (h : m.Sendable) :
    sendMsg sendto c m = .ok (sendto c.fd m.wire ≠ -1, m) := by
  simp only [sendMsg, h.sendBuf_eq, Exec.ok_bind, Message.n2h_h2n]
  rfl

theorem chunk_bytes (d : Datagram) : (chunk d).bytes = d.data.take 4096 := by
  show d.data.take (d.data.take 4096).length = d.data.take 4096
  rw [List.length_take, List.take_eq_take_iff]
  omega

theorem recvMsg_eq {buffer malloc : Malloc} {c : UdpPoint} {d : Datagram} (hbuffer : buffer.Serves)
    (hdata : d.data ≠ []) (ip : String) (port : Int) :
    recvMsg buffer malloc c d (some ip) (some port) =
      c.parser.readMem malloc (some (chunk d)) >>= fun r =>
        .ok (r.1, if r.1.isSome then some d.sender.ip else some ip,
          if r.1.isSome then some (d.sender.port.toNat : Int) else some port, { c with parser := r.2 }) := by
  have hpos : 0 < peek d := by
    have hlen : 0 < d.data.length := List.length_pos_of_ne_nil hdata
    simp only [peek, recvfrom, List.length_take, tempSize]
    omega
  have hsome : (buffer (peek d)).isSome :=
    Option.isSome_iff_ne_none.mpr (hbuffer _ (Nat.le_trans (peek_le d) (by decide)))
  simp only [recvMsg, hpos, hsome, if_true, and_self]
  cases c.parser.readMem malloc (some (chunk d)) with
  | error e => rfl
  | ok r =>
      obtain ⟨ret, parser⟩ := r
      cases ret with
      | none => rfl
      | some m =>
          simp only [Exec.ok_bind]
          rw [show (recvfrom d (peek d)).2 = d.sender.sockAddr from rfl, parseAddr_eq]
          rfl

end UdpPoint

end CompileService.Wire
