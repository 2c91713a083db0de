import CompileService.Base.Ranges
import CompileService.Shell.Divide

/-!
# Rows in one block

`Malloc2d` of `utility.h` allocates an array of row pointers and one block for the elements of all rows. The size of the
array is a product in `size_t`; that of the block and the offsets of the rows are products of two `int`s.
-/

namespace CompileService.Shell

open CompileService.Base

/-- `sizeof(type*)`. -/
def sizeofPointer : Nat := 8

def sizeofChar : Nat := 1

/-- What `Malloc2d` returns: the row pointers as offsets into the block `p` (`none` as long as they are not set). -/
structure Malloc2d where
  ret : List (Option Int)
  p : List UInt8

/-- `row * sizeof(type*)`. -/
def pointersSize (row : Int) : Nat := toSize (toSize row * sizeofPointer)

/-- `row * col * sizeof(type)`: the first product is an `int`, only the second one a `size_t`. -/
def elementsSize (size : Nat) (row col : Int) : Nat := toSize (toSize (toInt32 (row * col)) * size)

/-- `p + i * col`, in bytes behind `p`. -/
def rowOffset (size : Nat) (col : Int) (i : Nat) : Int := toInt32 (i * col) * size

/-- The loop for `n` more values of `i`. -/
def setRows (size : Nat) (col : Int) : Nat → Nat → List (Option Int) → Exec (List (Option Int))
  | 0, _, ret => .ok ret
  | n + 1, i, ret =>
      if i < ret.length then setRows size col n (i + 1) (ret.set i (some (rowOffset size col i)))
      else .error .bounds

/-- `Malloc2d(type, row, col)`, where `size` is `sizeof(type)`. -/
def malloc2d (pointers elements : Malloc) (size : Nat) (row col : Int) : Exec (Option Malloc2d) :=
  if 0 < row ∧ 0 < col then
    match pointers (pointersSize row), elements (elementsSize size row col) with
    | some ret, some p => do
        let ret ← setRows size col row.toNat 0 (List.replicate (ret.toList.length / sizeofPointer) none)
        return some ⟨ret, p.toList⟩
    -- the one of the two blocks that may be there is freed
    | _, _ => .ok none
  else .ok none

/-- Each of the `n` row pointers is set; the `w` bytes from it on lie in the block, and no two rows share a byte. -/
def Malloc2d.Fits (m : Malloc2d) (w n : Nat) : Prop :=
  ∃ offs : List Int, m.ret = offs.map some ∧ offs.length = n ∧ Laid offs w m.p.length

/-- The rows of `w` bytes from the pointers on. -/
def Malloc2d.argv (m : Malloc2d) (w : Nat) : List (List UInt8) :=
  m.ret.filterMap fun slot => slot.map fun off => (m.p.drop off.toNat).take w

/-! ## What the macro computes -/

section
variable {pointers elements : Malloc} {size row col : Nat}

theorem setRows_eq (done rest : List (Option Int)) (size : Nat) (col : Int) :
    setRows size col rest.length done.length (done ++ rest) =
      .ok (done ++ (List.range' done.length rest.length).map fun i => some (rowOffset size col i)) := by
  induction rest generalizing done with
  | nil =>
      rw [List.length_nil, List.range'_zero, List.map_nil]
      rfl
  | cons slot rest ih =>
      have hslot : done.length < (done ++ slot :: rest).length := by
        rw [List.length_append, List.length_cons]
        omega
      have hset : (done ++ slot :: rest).set done.length (some (rowOffset size col done.length)) =
          (done ++ [some (rowOffset size col done.length)]) ++ rest := by simp
      have hnext := ih (done ++ [some (rowOffset size col done.length)])
      rw [List.length_append, List.length_singleton] at hnext
      rw [List.length_cons, setRows, if_pos hslot, hset, hnext, List.range'_succ, List.map_cons, List.append_assoc,
        List.singleton_append]

theorem pointersSize_eq (hrow : row < 2 ^ 31) : pointersSize row = row * sizeofPointer := by
  have hconv : toSize row = row := toSize_natCast (by omega)
  unfold pointersSize sizeofPointer
  rw [hconv, ← Int.natCast_mul, toSize_natCast (by omega)]

/-- With both blocks there, the loop sets every pointer of the array. -/
theorem malloc2d_eq (hrow : 0 < row) (hrow' : row < 2 ^ 31) (hcol : 0 < col)
    {ret : Vector UInt8 (pointersSize row)} {p : Vector UInt8 (elementsSize size row col)}
    (hret : pointers (pointersSize row) = some ret) (hp : elements (elementsSize size row col) = some p) :
    malloc2d pointers elements size row col =
      .ok (some ⟨((List.range row).map (rowOffset size col)).map some, p.toList⟩) := by
  have hslots : ret.toList.length / sizeofPointer = row := by
    rw [Vector.length_toList, pointersSize_eq hrow', Nat.mul_div_cancel row (by decide)]
  have hloop := setRows_eq [] (List.replicate row none) size col
  rw [List.length_replicate, List.length_nil, List.nil_append, List.nil_append, ← List.range_eq_range'] at hloop
  have hpos : 0 < (row : Int) ∧ 0 < (col : Int) := by omega
  rw [malloc2d, if_pos hpos, hret, hp]
  change (setRows size col (row : Int).toNat 0 (List.replicate (ret.toList.length / sizeofPointer) none) >>= _) = _
  rw [hslots, Int.toNat_natCast, hloop, List.map_map]
  rfl

theorem malloc2d_refused
    (h : pointers (pointersSize row) = none ∨ elements (elementsSize size row col) = none) :
    malloc2d pointers elements size row col = .ok none := by
  unfold malloc2d
  split
  · split
    · rename_i hret hp
      rw [hret, hp] at h
      rcases h with h | h <;> cases h
    · rfl
  · rfl

/-! ## The products -/

theorem elementsSize_eq (hprod : row * col < 2 ^ 31) (hsize : size ≤ 2 ^ 32) :
    elementsSize size row col = row * (col * size) := by
  have hint : toInt32 ((row : Int) * col) = (row * col : Nat) := by
    rw [← Int.natCast_mul]
    exact toInt32_of_range (by omega) (by omega)
  have hconv : toSize (row * col : Nat) = row * col := toSize_natCast (by omega)
  have hle : row * col * size ≤ 2 ^ 31 * 2 ^ 32 := Nat.mul_le_mul (Nat.le_of_lt hprod) hsize
  unfold elementsSize
  rw [hint, hconv, ← Int.natCast_mul, toSize_natCast (by omega), Nat.mul_assoc]

theorem rowOffsets_eq (hprod : row * col < 2 ^ 31) :
    (List.range row).map (rowOffset size col) = evenly (col * size) row := by
  refine List.map_congr_left fun i hi => ?_
  have hle : i * col ≤ row * col := Nat.mul_le_mul_right col (Nat.le_of_lt (List.mem_range.mp hi))
  have hint : toInt32 ((i : Int) * col) = (i * col : Nat) := by
    rw [← Int.natCast_mul]
    exact toInt32_of_range (by omega) (by omega)
  rw [rowOffset, hint, ← Int.natCast_mul, Nat.mul_assoc]

/-- A product that is no `int`: a block of the size that is asked for is too small for the rows. A negative product
becomes a size that no block has, any other one has lost a multiple of `2 ^ 32`. -/
theorem elementsSize_lt (hprod : 2 ^ 31 ≤ row * col) (hpos : 0 < size) (hsize : size ≤ 2 ^ 32)
    (hblock : elementsSize size row col ≤ ptrdiffMax) : elementsSize size row col < row * (col * size) := by
  have hsum : elementsSize size row col = toSize (toInt32 (row * col : Nat) * size) := by
    rw [elementsSize, toSize_toSize_mul, Int.natCast_mul]
  obtain ⟨hlo, hhi⟩ := toInt32_range (row * col : Nat)
  have hlost : toInt32 (row * col : Nat) < (row * col : Nat) := by omega
  by_cases hneg : toInt32 (row * col : Nat) < 0
  · have hge : -2 ^ 31 * 2 ^ 32 ≤ toInt32 (row * col : Nat) * size := by
      have hfirst : -2 ^ 31 * (size : Int) ≤ toInt32 (row * col : Nat) * size :=
        Int.mul_le_mul_of_nonneg_right hlo (Int.natCast_nonneg size)
      omega
    have hlt : toInt32 (row * col : Nat) * size < 0 := Int.mul_neg_of_neg_of_pos hneg (by omega)
    rw [hsum] at hblock
    unfold toSize ptrdiffMax at hblock
    omega
  · have hle : toInt32 (row * col : Nat) * size ≤ 2 ^ 31 * 2 ^ 32 :=
      Int.mul_le_mul (by omega) (by omega) (by omega) (by omega)
    have hlt : toInt32 (row * col : Nat) * size < (row * col : Nat) * size :=
      Int.mul_lt_mul_of_pos_right hlost (by omega)
    have hnonneg : 0 ≤ toInt32 (row * col : Nat) * size := Int.mul_nonneg (by omega) (by omega)
    rw [← Int.natCast_mul, Nat.mul_assoc] at hlt
    rw [hsum, toSize_of_range hnonneg (by omega)]
    omega

/-! ## The rows -/

/-- `Malloc2d` does not fault, and each row of what it returns lies in the block, apart from the others. -/
def RowsLaid (pointers elements : Malloc) (size row col : Nat) : Prop :=
  ∃ r, malloc2d pointers elements size row col = .ok r ∧ ∀ m, r = some m → m.Fits (col * size) row

/-- For elements of any size: the rows fit if and only if their number of elements fits an `int`, or there is no
block. -/
theorem rowsLaid_iff (hbounded : ∀ n, ptrdiffMax < n → elements n = none) (hpos : 0 < size) (hsize : size ≤ 2 ^ 32)
    (hrow : 0 < row) (hrow' : row < 2 ^ 31) (hcol : 0 < col) :
    RowsLaid pointers elements size row col ↔ row * col < 2 ^ 31 ∨ pointers (pointersSize row) = none ∨
      elements (elementsSize size row col) = none := by
  by_cases hrefused : pointers (pointersSize row) = none ∨ elements (elementsSize size row col) = none
  · exact iff_of_true ⟨none, malloc2d_refused hrefused, fun _ h => nomatch h⟩ (Or.inr hrefused)
  · obtain ⟨hret, hp⟩ := not_or.mp hrefused
    obtain ⟨ret, hret⟩ := Option.ne_none_iff_exists'.mp hret
    obtain ⟨p, hp⟩ := Option.ne_none_iff_exists'.mp hp
    have hrun := malloc2d_eq hrow hrow' hcol hret hp
    have hblock : elementsSize size row col ≤ ptrdiffMax := by
      by_contra hlarge
      rw [hbounded _ (Nat.not_le.mp hlarge)] at hp
      cases hp
    constructor
    · rintro ⟨r, hr, hfits⟩
      obtain rfl := Except.ok.inj (hrun.symm.trans hr)
      obtain ⟨offs, hoffs, hlen, hlaid⟩ := hfits _ rfl
      -- rows that fit need a block with room for all of their elements
      refine Or.inl (Nat.not_le.mp fun hprod => ?_)
      have hroom := hlaid.mul_le
      rw [hlen, Vector.length_toList] at hroom
      exact absurd hroom (Nat.not_le.mpr (elementsSize_lt hprod hpos hsize hblock))
    · rintro (hprod | h)
      · refine ⟨_, hrun, fun m hm => ?_⟩
        obtain rfl := Option.some.inj hm
        refine ⟨_, rfl, by rw [List.length_map, List.length_range], ?_⟩
        rw [rowOffsets_eq hprod, Vector.length_toList]
        exact laid_evenly (Nat.le_of_eq (elementsSize_eq hprod hsize).symm)
      · exact absurd h hrefused

/-- Rows of `char`s. `Malloc2d(char, row, col)` returns rows of `col` bytes that lie in the block and apart from each
other, or nothing, if and only if `row * col` fits an `int` or one of the two allocations fails. -/
theorem malloc2d_rows_iff (hbounded : ∀ n, ptrdiffMax < n → elements n = none) (hrow : 0 < row) (hrow' : row < 2 ^ 31)
    (hcol : 0 < col) :
    (∃ r, malloc2d pointers elements sizeofChar row col = .ok r ∧ ∀ m, r = some m → m.Fits col row) ↔
      row * col < 2 ^ 31 ∨ pointers (pointersSize row) = none ∨ elements (elementsSize sizeofChar row col) = none := by
  have hiff : RowsLaid pointers elements sizeofChar row col ↔ _ :=
    rowsLaid_iff hbounded (by decide) (by decide) hrow hrow' hcol
  rwa [RowsLaid, sizeofChar, Nat.mul_one] at hiff

theorem malloc2d_two_rows :
    ∃ r, malloc2d .cleared .cleared sizeofChar 2 3 = .ok r ∧ ∀ m, r = some m → m.Fits 3 2 :=
  (@malloc2d_rows_iff .cleared .cleared 2 3 Malloc.cleared_succeeds.bounded (by decide) (by decide) (by decide)).mpr
    (Or.inl (by decide))

/-- Three rows of 1431655766 bytes: their product is 2 as an `int`, and so is the size of the block. -/
theorem malloc2d_three_rows :
    malloc2d .cleared .cleared sizeofChar 3 1431655766 =
        .ok (some ⟨[some 0, some 1431655766, some (-1431655764)], [0, 0]⟩) ∧
      ¬ ∃ r, malloc2d .cleared .cleared sizeofChar 3 1431655766 = .ok r ∧ ∀ m, r = some m → m.Fits 1431655766 3 := by
  have hrun : malloc2d .cleared .cleared sizeofChar 3 1431655766 =
      .ok (some ⟨[some 0, some 1431655766, some (-1431655764)], [0, 0]⟩) := rfl
  refine ⟨hrun, ?_⟩
  rintro ⟨r, hr, hfits⟩
  obtain rfl := Except.ok.inj (hrun.symm.trans hr)
  obtain ⟨offs, _, hlen, hlaid⟩ := hfits _ rfl
  have hroom := hlaid.mul_le
  rw [hlen] at hroom
  exact absurd hroom (by decide)

end

/-! ## Dividing a line into the rows -/

section
variable {m : Malloc2d} {w n row col : Nat}

/-- Rows that fit are buffers of their full width. -/
theorem Malloc2d.Fits.argv (h : m.Fits w n) : (m.argv w).length = n ∧ ∀ old ∈ m.argv w, old.length = w := by
  obtain ⟨offs, hret, hlen, hlaid⟩ := h
  have hargv : m.argv w = offs.map fun off => (m.p.drop off.toNat).take w := by
    rw [Malloc2d.argv, hret, List.filterMap_map]
    exact congrFun List.filterMap_eq_map' offs
  refine ⟨by rw [hargv, List.length_map, hlen], fun old hold => ?_⟩
  rw [hargv] at hold
  obtain ⟨off, hoff, rfl⟩ := List.mem_map.mp hold
  have hinside := hlaid.inside off hoff
  rw [List.length_take, List.length_drop]
  omega

/-- `DivideByChar` does its work on the rows of `Malloc2d` when they fit, for every line that an `int` counts. -/
theorem Malloc2d.Fits.divides {malloc : Malloc} {line : CStr} {c : UInt8} (h : m.Fits col row) (h0 : 0 ∉ line)
    (hline : line.length < 2 ^ 31) (hmalloc : ∀ n, ptrdiffMax < n → malloc n = none)
    (halloc : malloc (formatSize line) ≠ none) (hcol : 1 ≤ col) : Divides malloc line c (m.argv col) row col := by
  obtain ⟨hlen, hrows⟩ := h.argv
  have hcounts : 0 ≤ toInt32 line.length := by
    rw [toInt32_of_range (by omega) (by omega)]
    omega
  have hwidth : ∀ old ∈ m.argv col, col ≤ old.length := fun old hold => Nat.le_of_eq (hrows old hold).symm
  exact divides_of_counted h0 hmalloc (fun _ => halloc) hcounts hcol hwidth (Nat.le_of_eq hlen.symm)
    (by rw [counted_of_lt hline])

end

end CompileService.Shell
