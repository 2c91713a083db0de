import CompileService.Base.CString

/-!
# Strings in blocks and arrays

Writing a string puts its bytes and a NUL into a block from some offset on. A `char` array in a structure is a block
of fixed size.
-/

namespace CompileService.Base

/-- `strcpy(blk + off, s)`. -/
def putStr (blk : List UInt8) (off : Int) (s : CStr) : Exec (List UInt8) :=
  if 0 ≤ off ∧ off.toNat + s.length + 1 ≤ blk.length then .ok (writeAt blk off.toNat (s ++ [0])) else .error .bounds

/-- `strcat(blk, s)`. -/
def catStr (blk : List UInt8) (s : CStr) : Exec (List UInt8) := do
  let t ← cstr blk
  putStr blk t.length s

/-- A read of `blk[i]`. -/
def byteAt (blk : List UInt8) (i : Int) : Exec UInt8 :=
  if 0 ≤ i then
    match blk[i.toNat]? with
    | some b => .ok b
    | none => .error .bounds
  else .error .bounds

/-- `blk[i] = b`. -/
def setByte (blk : List UInt8) (i : Int) (b : UInt8) : Exec (List UInt8) :=
  if 0 ≤ i ∧ i.toNat < blk.length then .ok (blk.set i.toNat b) else .error .bounds

abbrev CArray (n : Nat) := Vector UInt8 n

namespace CArray

variable {n : Nat}

def zeroed : CArray n := Vector.replicate n 0

/-- The string that the array holds; without a NUL in the array it is read past its end. -/
def text (a : CArray n) : Exec CStr := cstr a.toList

/-- The array with the string `s` from `off` on. -/
def put (a : CArray n) (off : Nat) (s : CStr) : Exec (CArray n) :=
  if h : off + s.length + 1 ≤ n then
    .ok ⟨(writeAt a.toList off (s ++ [0])).toArray, by
      rw [List.size_toArray, length_writeAt, Vector.length_toList]
      rw [List.length_append, Vector.length_toList]
      exact h⟩
  else .error .bounds

def strcpy (a : CArray n) (s : CStr) : Exec (CArray n) := a.put 0 s

def strcat (a : CArray n) (s : CStr) : Exec (CArray n) := do
  let t ← a.text
  a.put t.length s

/-- A cleared array that a string was copied to. -/
def ofText (s : CStr) : CArray n :=
  match zeroed.strcpy s with
  | .ok a => a
  | .error _ => zeroed

end CArray

/-! ## Blocks -/

theorem cstr_ok {mem : List UInt8} {s : CStr} (h : cstr mem = .ok s) : 0 ∉ s ∧ ∃ rest, mem = s ++ 0 :: rest := by
  unfold cstr at h
  split at h
  · rename_i hmem
    obtain rfl := Except.ok.inj h
    refine ⟨nul_notMem_untilNul mem, ?_⟩
    have hsplit := List.takeWhile_append_dropWhile (p := fun b : UInt8 => decide (b ≠ 0)) (l := mem)
    cases hdrop : mem.dropWhile fun b : UInt8 => decide (b ≠ 0) with
    | nil =>
        have hall := List.dropWhile_eq_nil_iff.mp hdrop 0 hmem
        exact absurd rfl (of_decide_eq_true hall)
    | cons b rest =>
        have hb : b = 0 := by
          have hhead := List.head?_dropWhile_not (fun b : UInt8 => decide (b ≠ 0)) mem
          rw [hdrop] at hhead
          simpa using hhead
        subst hb
        rw [hdrop] at hsplit
        exact ⟨rest, hsplit.symm⟩
  · cases h

theorem cstr_length_lt {mem : List UInt8} {s : CStr} (h : cstr mem = .ok s) : s.length < mem.length := by
  obtain ⟨_, rest, rfl⟩ := cstr_ok h
  rw [List.length_append, List.length_cons]
  omega

theorem cstr_writeAt {mem : List UInt8} {t s : CStr} (ht : mem.take t.length = t) (ht0 : 0 ∉ t) (hs0 : 0 ∉ s) :
    cstr (writeAt mem t.length (s ++ [0])) = .ok (t ++ s) := by
  have h0 : 0 ∉ t ++ s := fun h => (List.mem_append.mp h).elim ht0 hs0
  have hmem : writeAt mem t.length (s ++ [0]) = (t ++ s) ++ 0 :: mem.drop (t.length + (s ++ [0]).length) := by
    rw [writeAt, ht]
    simp
  rw [hmem, cstr_append_self h0]

theorem putStr_eq {blk : List UInt8} {off : Nat} {s : CStr} (h : off + s.length < blk.length) :
    putStr blk off s = .ok (writeAt blk off (s ++ [0])) := by
  unfold putStr
  rw [if_pos ⟨Int.natCast_nonneg off, by rw [Int.toNat_natCast]; omega⟩, Int.toNat_natCast]

/-- A string that is written behind another one continues it. -/
theorem putStr_after {blk : List UInt8} {t s : CStr} (ht : blk.take t.length = t) (ht0 : 0 ∉ t) (hs0 : 0 ∉ s)
    (h : t.length + s.length < blk.length) :
    ∃ blk', putStr blk t.length s = .ok blk' ∧ cstr blk' = .ok (t ++ s) ∧ blk'.length = blk.length ∧
      blk'.take (t ++ s).length = t ++ s := by
  have hlen : t.length + (s ++ [0]).length ≤ blk.length := by
    rw [List.length_append, List.length_singleton]
    omega
  have hcstr := cstr_writeAt ht ht0 hs0
  refine ⟨_, putStr_eq h, hcstr, length_writeAt hlen, ?_⟩
  obtain ⟨_, rest, hmem⟩ := cstr_ok hcstr
  rw [hmem, List.take_left]

theorem putStr_start {blk : List UInt8} {s : CStr} (h0 : 0 ∉ s) (h : s.length < blk.length) :
    ∃ blk', putStr blk 0 s = .ok blk' ∧ cstr blk' = .ok s ∧ blk'.length = blk.length ∧ blk'.take s.length = s :=
  putStr_after (t := []) rfl List.not_mem_nil h0 (by rw [List.length_nil]; omega)

theorem catStr_after {blk : List UInt8} {t s : CStr} (ht : cstr blk = .ok t) (hs0 : 0 ∉ s)
    (h : t.length + s.length < blk.length) :
    ∃ blk', catStr blk s = .ok blk' ∧ cstr blk' = .ok (t ++ s) ∧ blk'.length = blk.length := by
  obtain ⟨ht0, rest, rfl⟩ := cstr_ok ht
  obtain ⟨blk', hput, hcstr, hlen, _⟩ := putStr_after (List.take_left ..) ht0 hs0 h
  exact ⟨blk', by rw [catStr, ht, Exec.ok_bind, hput], hcstr, hlen⟩

theorem putStr_ok {blk blk' : List UInt8} {off : Int} {s : CStr} (h : putStr blk off s = .ok blk') :
    s.length < blk.length ∧ blk'.length = blk.length := by
  unfold putStr at h
  split at h
  · rename_i hfit
    obtain rfl := Except.ok.inj h
    refine ⟨by omega, length_writeAt ?_⟩
    rw [List.length_append, List.length_singleton]
    omega
  · cases h

theorem catStr_ok {blk blk' : List UInt8} {s : CStr} (h : catStr blk s = .ok blk') :
    s.length < blk.length ∧ blk'.length = blk.length := by
  obtain ⟨_, _, hput⟩ := Exec.bind_eq_ok.mp h
  exact putStr_ok hput

/-! ## Single bytes -/

section
variable {blk : List UInt8} {i : Nat} {b : UInt8}

theorem byteAt_eq (h : blk[i]? = some b) : byteAt blk i = .ok b := by
  simp [byteAt, h]

theorem setByte_eq (b : UInt8) (h : i < blk.length) : setByte blk i b = .ok (blk.set i b) := by
  simp [setByte, h]

theorem setByte_length {blk' : List UInt8} {i : Int} (h : setByte blk i b = .ok blk') : blk'.length = blk.length := by
  unfold setByte at h
  split at h
  · obtain rfl := Except.ok.inj h
    exact List.length_set
  · cases h

theorem take_set_succ (b : UInt8) (h : i < blk.length) : (blk.set i b).take (i + 1) = blk.take i ++ [b] := by
  rw [List.take_add_one, List.take_set_of_le (Nat.le_refl i), List.getElem?_set_self h]
  rfl

theorem cstr_set {t : CStr} (ht : blk.take i = t) (ht0 : 0 ∉ t) (h : i < blk.length) :
    cstr (blk.set i 0) = .ok t := by
  rw [List.set_eq_take_append_cons_drop, if_pos h, ht, cstr_append_self ht0]

end

/-! ## Arrays -/

namespace CArray

variable {n : Nat} {a : CArray n} {s t : CStr}

theorem text_ok (h : a.text = .ok t) : 0 ∉ t ∧ t.length < n ∧ a.toList.take t.length = t := by
  have hlen := cstr_length_lt h
  obtain ⟨h0, rest, hmem⟩ := cstr_ok h
  rw [Vector.length_toList] at hlen
  refine ⟨h0, hlen, ?_⟩
  rw [hmem, List.take_left]

theorem put_text (htake : a.toList.take t.length = t) (ht0 : 0 ∉ t) (hs0 : 0 ∉ s) (h : t.length + s.length < n) :
    ∃ a', a.put t.length s = .ok a' ∧ a'.text = .ok (t ++ s) :=
  ⟨_, dif_pos (by omega), cstr_writeAt htake ht0 hs0⟩

theorem strcpy_text (h0 : 0 ∉ s) (h : s.length < n) : ∃ a', a.strcpy s = .ok a' ∧ a'.text = .ok s :=
  put_text (t := []) rfl List.not_mem_nil h0 (by rw [List.length_nil]; omega)

theorem ofText_text (h0 : 0 ∉ s) (h : s.length < n) : (ofText s : CArray n).text = .ok s := by
  obtain ⟨a, hrun, htext⟩ := strcpy_text (a := zeroed) h0 h
  rw [ofText, hrun]
  exact htext

theorem strcpy_long (h : n ≤ s.length) : a.strcpy s = .error .bounds := dif_neg (by omega)

theorem strcat_text (ht : a.text = .ok t) (h0 : 0 ∉ s) (h : t.length + s.length < n) :
    ∃ a', a.strcat s = .ok a' ∧ a'.text = .ok (t ++ s) := by
  obtain ⟨ht0, _, htake⟩ := text_ok ht
  rw [strcat, ht]
  exact put_text htake ht0 h0 h

theorem strcat_long (ht : a.text = .ok t) (h : n ≤ t.length + s.length) : a.strcat s = .error .bounds := by
  rw [strcat, ht]
  exact dif_neg (by omega)

end CArray

end CompileService.Base
