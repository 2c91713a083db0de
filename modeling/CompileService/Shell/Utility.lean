import CompileService.Base.CArray

/-!
# Words of a line

`utility.c`: `FormatByChar` brings a line into the form with single separators between its words, `DivideByChar` copies
the words into rows, `CharCount` counts separators. All lengths are `int`s.
-/

namespace CompileService.Shell

open CompileService.Base

/-! ## FormatByChar -/

/-- The state of the second loop: the block with the bytes that were kept, their number and whether the last one is a
separator. -/
structure Format where
  ret : List UInt8
  j : Nat
  flag : Bool

/-- One byte of `src`. -/
def formatByte (c : UInt8) (f : Format) (b : UInt8) : Exec Format :=
  if b ≠ c then do return ⟨← setByte f.ret f.j b, f.j + 1, false⟩
  else if f.flag then .ok f
  else do return ⟨← setByte f.ret f.j b, f.j + 1, true⟩

/-- The size that `FormatByChar` asks for. -/
def formatSize (src : CStr) : Nat := toSize (toInt32 (toInt32 src.length + 1))

def formatByChar (malloc : Malloc) (src : Option CStr) (c : UInt8) : Exec (Option (List UInt8)) :=
  let s := src.getD []
  let len := toInt32 s.length
  if len = 0 then .ok none
  else
    match malloc (formatSize s) with
    | none => .ok none
    | some ret => do
        -- both loops run while `i < len`; the first one passes over leading separators
        let f ← ((s.take len.toNat).dropWhile (· = c)).foldlM (formatByte c) ⟨ret.toList, 0, false⟩
        return some (← setByte f.ret (if f.flag then f.j - 1 else f.j : Int) 0)

/-! ## DivideByChar -/

/-- `strncpy(dst, src, n)`: at most `n` bytes of the string, filled up with NULs. -/
def strncpy (dst src : List UInt8) (n : Nat) : Exec (List UInt8) :=
  let s := untilNul (src.take n)
  if (s.length = n ∨ s.length < src.length) ∧ n ≤ dst.length then
    .ok (writeAt dst 0 (s ++ List.replicate (n - s.length) 0))
  else .error .bounds

/-- The state of the loop: `buf[j]` is the first byte of the word that is read, `ret` rows are filled. -/
structure Divide where
  i : Nat
  j : Nat
  ret : Nat
  argv : List (List UInt8)

/-- A separator at `buf[i]`: the word before it goes into the next row, cut if it does not fit. -/
def divideWord (buf : List UInt8) (col : Int) (d : Divide) : Exec Divide :=
  match d.argv[d.ret]? with
  | none => .error .bounds
  | some row => do
      let k := if (d.i - d.j : Int) < col then (d.i - d.j : Int) else col
      let row ← strncpy row (buf.drop d.j) (toSize k)
      let row ← setByte row (if k < col then k else k - 1) 0
      return { d with j := d.i + 1, ret := d.ret + 1, argv := d.argv.set d.ret row }

/-- The loop for `n` more values of `i`. -/
def divideLoop (buf : List UInt8) (c : UInt8) (row col : Int) : Nat → Divide → Exec Divide
  | 0, d => .ok d
  | n + 1, d =>
      if d.ret < row then do
        let b ← byteAt buf d.i
        let d ← (if b = c then divideWord buf col d else .ok d)
        divideLoop buf c row col n { d with i := d.i + 1 }
      else .ok d

/-- `DivideByChar` with the rows it leaves in `argv`. -/
def divideByChar (malloc : Malloc) (line : Option CStr) (c : UInt8) (argv : Option (List (List UInt8)))
    (row col : Int) : Exec (Int × Option (List (List UInt8))) :=
  match line, argv with
  | some line, some argv => do
      match ← formatByChar malloc (some line) c with
      | none => return (0, some argv)
      | some buf =>
          let len := toInt32 (← cstr buf).length
          if len = 0 then return (0, some argv)
          else
            let buf ← setByte buf len c
            let d ← divideLoop buf c row col (len + 1).toNat ⟨0, 0, 0, argv⟩
            return (d.ret, some d.argv)
  | _, argv => .ok (0, argv)

/-! ## CharCount -/

def charCount (s : Option CStr) (c : UInt8) : Int :=
  (s.getD []).foldl (fun ret b => toInt32 (ret + if b = c then 1 else 0)) 0

end CompileService.Shell
