import CompileService.Wire.Parser

/-!
# What one `ToRecv` does
-/

namespace CompileService.Wire

open CompileService.Base

namespace MsgParser

variable {σ : Type} [Readable σ]

/-- The loop stores what it reads at `buf + i`, returns how far it got, and never goes past `size`. What it reads
does not depend on the buffer. -/
theorem toRecv_uniform (fd : σ) (blk : List UInt8) (size : Int) (retry i : Nat) (hblk : size ≤ blk.length) :
    ∃ bs fd', Reads fd bs fd' ∧ (bs = [] ∨ (i + bs.length : Int) ≤ size) ∧
      ∀ buf : List UInt8, size ≤ buf.length →
        toRecv fd buf size retry i = .ok (i + bs.length, writeAt buf i bs, fd') := by
  fun_induction toRecv fd blk size retry i with
  | case1 fd blk retry i hi hlt => exact absurd hblk (by omega)
  | case2 fd blk retry i hi hlt fd' hread =>
      refine ⟨[], fd', .of_read hread .nil, Or.inl rfl, fun buf hbuf => ?_⟩
      rw [toRecv, if_pos hi, if_neg (Int.not_lt.mpr hbuf), hread, writeAt_nil]
      rfl
  | case3 fd blk retry i hi hlt bs fd₁ hread hpos ih =>
      have hle := Readable.length_le fd _ bs (by rw [hread])
      have hfit : ∀ buf : List UInt8, size ≤ buf.length → i + bs.length ≤ buf.length := by
        intro buf hbuf
        omega
      obtain ⟨bs', fd', hreads, hsize, hrec⟩ := ih (by rw [length_writeAt (hfit blk hblk)]; exact hblk)
      refine ⟨bs ++ bs', fd', .of_read hread hreads, Or.inr ?_, fun buf hbuf => ?_⟩
      · rcases hsize with rfl | hsize
        · simp only [List.append_nil]
          omega
        · simp only [List.length_append]
          omega
      · rw [toRecv, if_pos hi, if_neg (Int.not_lt.mpr hbuf), hread]
        simp only [hpos, if_true]
        rw [hrec _ (by rw [length_writeAt (hfit buf hbuf)]; exact hbuf), writeAt_writeAt bs' (hfit buf hbuf),
          List.length_append, Nat.add_assoc]
  | case4 fd blk retry i hi hlt bs fd₁ hread hpos hretry =>
      have hnil : bs = [] := List.eq_nil_of_length_eq_zero (by omega)
      subst hnil
      refine ⟨[], fd₁, .of_read hread .nil, Or.inl rfl, fun buf hbuf => ?_⟩
      rw [toRecv, if_pos hi, if_neg (Int.not_lt.mpr hbuf), hread]
      simp only [hpos, if_false, hretry, if_true, writeAt_nil]
      rfl
  | case5 fd blk retry i hi hlt bs fd₁ hread hpos hretry ih =>
      have hnil : bs = [] := List.eq_nil_of_length_eq_zero (by omega)
      subst hnil
      obtain ⟨bs', fd', hreads, hsize, hrec⟩ := ih hblk
      refine ⟨bs', fd', .of_read hread hreads, hsize, fun buf hbuf => ?_⟩
      rw [toRecv, if_pos hi, if_neg (Int.not_lt.mpr hbuf), hread]
      simp only [hpos, if_false, hretry]
      exact hrec buf hbuf
  | case6 fd blk retry i hi =>
      refine ⟨[], fd, .nil, Or.inl rfl, fun buf _ => ?_⟩
      rw [toRecv, if_neg hi, writeAt_nil]
      rfl

/-- `ToRecv` into the rest of a block; what it reads does not depend on what the block holds. -/
theorem recvAt_uniform (fd : σ) (offset size : Nat) :
    ∃ bs fd', Reads fd bs fd' ∧ bs.length ≤ size ∧ ∀ blk : List UInt8, offset + size ≤ blk.length →
      recvAt fd blk offset size = .ok (bs.length, writeAt blk offset bs, fd') := by
  obtain ⟨bs, fd', hreads, hsize, hrec⟩ :=
    toRecv_uniform fd (List.replicate size 0) size 0 0 (by rw [List.length_replicate])
  have hlen : bs.length ≤ size := by
    rcases hsize with rfl | hsize
    · exact Nat.zero_le size
    · omega
  refine ⟨bs, fd', hreads, hlen, fun blk hfit => ?_⟩
  have hrec := hrec (blk.drop offset) (by simp only [List.length_drop]; omega)
  have hwrite : blk.take offset ++ writeAt (blk.drop offset) 0 bs = writeAt blk offset bs := by
    simp [writeAt, List.drop_drop]
  have hin : offset ≤ blk.length := by omega
  simp [recvAt, hin, hrec, hwrite]

theorem recvAt_spec (fd : σ) (blk : List UInt8) (offset size : Nat)
    (hfit : offset + size ≤ blk.length) :
    ∃ bs fd', recvAt fd blk offset size = .ok (bs.length, writeAt blk offset bs, fd') ∧
      Reads fd bs fd' ∧ bs.length ≤ size := by
  obtain ⟨bs, fd', hreads, hlen, hrec⟩ := recvAt_uniform fd offset size
  exact ⟨bs, fd', hrec blk hfit, hreads, hlen⟩

end MsgParser

end CompileService.Wire
