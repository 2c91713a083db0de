import CompileService.Wire.UdpPoint

/-!
# Faults on values

Functions on values can leave the bounds of a block. They have no pointers, so nothing in them can dangle.
-/

namespace CompileService.Wire

open CompileService.Base

namespace MsgParser

section
variable {σ : Type} [Readable σ]

theorem toRecv_ne_dangling (fd : σ) (buf : List UInt8) (size : Int) (retry i : Nat) :
    toRecv fd buf size retry i ≠ .error .dangling := by
  fun_induction toRecv fd buf size retry i with
  | case1 => nofun
  | case2 => nofun
  | case3 =>
      rename_i ih
      exact ih
  | case4 => nofun
  | case5 =>
      rename_i ih
      exact ih
  | case6 => nofun

theorem recvAt_ne_dangling (fd : σ) (blk : List UInt8) (offset size : Int) :
    recvAt fd blk offset size ≠ .error .dangling := by
  unfold recvAt
  split
  · exact Exec.bind_ne_error (toRecv_ne_dangling _ _ _ _ _) fun _ => nofun
  · nofun

theorem toMidState_ne_dangling (malloc : Malloc) (p : MsgParser) : p.toMidState malloc ≠ .error .dangling := by
  unfold toMidState
  dsimp only
  split
  · nofun
  · split
    · nofun
    · nofun

theorem readMemPayload_ne_dangling (p : MsgParser) (mem : Mem) : p.readMemPayload mem ≠ .error .dangling := by
  unfold readMemPayload
  split
  · nofun
  · exact Exec.bind_ne_error (memcpy_ne_dangling _ _ _ _) fun _ => nofun

theorem readMem_ne_dangling (malloc : Malloc) (p : MsgParser) (mem : Option Mem) :
    p.readMem malloc mem ≠ .error .dangling := by
  unfold readMem
  split
  · nofun
  split
  · exact readMemPayload_ne_dangling _ _
  refine Exec.bind_ne_error (memcpy_ne_dangling _ _ _ _) fun bytes => ?_
  dsimp only
  split
  · refine Exec.bind_ne_error (toMidState_ne_dangling _ _) ?_
    rintro ⟨ok, p'⟩
    cases ok with
    | true => exact readMemPayload_ne_dangling _ _
    | false => nofun
  · nofun

theorem readFdPayload_ne_dangling (p : MsgParser) (io : σ) : p.readFdPayload io ≠ .error .dangling := by
  unfold readFdPayload
  split
  · nofun
  · exact Exec.bind_ne_error (recvAt_ne_dangling _ _ _ _) fun _ => nofun

theorem readFd_ne_dangling (malloc : Malloc) (p : MsgParser) (fd : Int) (io : σ) :
    p.readFd malloc fd io ≠ .error .dangling := by
  unfold readFd
  split
  · nofun
  split
  · exact readFdPayload_ne_dangling _ _
  refine Exec.bind_ne_error (recvAt_ne_dangling _ _ _ _) ?_
  rintro ⟨len, bytes, io'⟩
  dsimp only
  split
  · refine Exec.bind_ne_error (toMidState_ne_dangling _ _) ?_
    rintro ⟨ok, p'⟩
    cases ok with
    | true => exact readFdPayload_ne_dangling _ _
    | false => nofun
  · nofun

end

end MsgParser

theorem Message.sendBuf_ne_dangling (m : Message) : m.sendBuf ≠ .error .dangling := by
  unfold Message.sendBuf
  dsimp only
  split
  · nofun
  · nofun

theorem Message.new_ne_dangling (malloc : Malloc) (type cmd index total : UInt16) (payload : Option (List UInt8))
    (length : UInt32) : Message.new malloc type cmd index total payload length ≠ .error .dangling := by
  unfold Message.new
  split
  · nofun
  · split
    · nofun
    · exact Exec.bind_ne_error (memcpy_ne_dangling _ _ _ _) fun _ => nofun

theorem UdpPoint.recvMsg_ne_dangling (buffer malloc : Malloc) (c : UdpPoint) (d : Datagram) :
    UdpPoint.recvMsg buffer malloc c d none none ≠ .error .dangling := by
  rw [UdpPoint.recvMsg]
  by_cases hbuf : 0 < peek d ∧ (if 0 < peek d then buffer (peek d) else none).isSome
  · rw [if_pos hbuf]
    refine Exec.bind_ne_error (MsgParser.readMem_ne_dangling _ _ _) ?_
    rintro ⟨ret, parser⟩ h
    cases ret with
    | none => cases h
    | some m => cases h
  · rw [if_neg hbuf]
    rintro ⟨⟩

end CompileService.Wire
