import CompileService.Shell.Format

/-!
# The rows of a divided line

`DivideByChar` puts a separator in the place of the terminator, so that each word of the formatted line ends in one, and
copies the words one by one, as long as there are rows.
-/

namespace CompileService.Shell

open CompileService.Base

/-- The rows with one word in each, cut to `col - 1` bytes and terminated. -/
def putWords (col : Nat) : List CStr → List (List UInt8) → List (List UInt8)
  | w :: ws, old :: rows => writeAt old 0 (w.take (col - 1) ++ [0]) :: putWords col ws rows
  | [], rows => rows
  | _ :: _, [] => []

/-! ## One word -/

section
variable {buf pre w rest old : List UInt8} {c : UInt8} {col row : Nat} {ws : List CStr} {rows done : List (List UInt8)}

theorem writeAt_zero (blk data : List UInt8) : writeAt blk 0 data = data ++ blk.drop data.length := by
  simp [writeAt]

theorem strncpy_word (hw0 : 0 ∉ w) {k : Nat} (hk : k ≤ w.length) (hold : k ≤ old.length) :
    strncpy old (w ++ rest) k = .ok (w.take k ++ old.drop k) := by
  have htake : (w ++ rest).take k = w.take k := List.take_append_of_le_length hk
  have hself : untilNul (w.take k) = w.take k := by
    have h := untilNul_append (fun h => hw0 (List.mem_of_mem_take h) : 0 ∉ w.take k) []
    rwa [List.append_nil, show untilNul [] = [] from rfl, List.append_nil] at h
  have hlen : (w.take k).length = k := List.length_take_of_le hk
  simp only [strncpy, htake, hself, hlen, true_or, true_and, hold, if_true, Nat.sub_self, List.replicate_zero,
    List.append_nil, writeAt_zero]

/-- The terminator goes behind a word that is shorter than the row. -/
theorem set_behind (hw : w.length < col) (hold : col ≤ old.length) :
    setByte (w ++ old.drop w.length) w.length 0 = .ok (writeAt old 0 (w.take (col - 1) ++ [0])) := by
  have htake : w.take (col - 1) = w := List.take_of_length_le (by omega)
  rw [setByte_eq 0 (by rw [List.length_append, List.length_drop]; omega), htake, writeAt_zero,
    List.set_append_right _ _ (Nat.le_refl _), Nat.sub_self, List.drop_eq_getElem_cons (by omega), List.set_cons_zero,
    List.length_append, List.length_singleton, List.append_assoc, List.singleton_append]

/-- The last byte of the row is the terminator of a longer word. -/
theorem set_last (hw : col ≤ w.length) (hcol : 1 ≤ col) (hold : col ≤ old.length) :
    setByte (w.take col ++ old.drop col) (col - 1 : Nat) 0 = .ok (writeAt old 0 (w.take (col - 1) ++ [0])) := by
  obtain ⟨n, rfl⟩ : ∃ n, col = n + 1 := ⟨col - 1, by omega⟩
  have hlen : (w.take n).length = n := List.length_take_of_le (by omega)
  have hlen' : (w.take (n + 1)).length = n + 1 := List.length_take_of_le hw
  have hsplit : w.take (n + 1) = w.take n ++ [w[n]] := by rw [List.take_succ_eq_append_getElem (by omega)]
  rw [setByte_eq 0 (by rw [List.length_append, List.length_drop]; omega), writeAt_zero, Nat.add_sub_cancel, hsplit,
    List.append_assoc, List.set_append_right _ _ (by omega), hlen, Nat.sub_self]
  simp [hlen]

/-- The word at a separator goes into the next row. -/
theorem divideWord_eq (hbuf : buf = pre ++ w ++ rest) (hw0 : 0 ∉ w) (hlen : w.length < 2 ^ 64) (hcol : 1 ≤ col)
    (hold : col ≤ old.length) :
    divideWord buf col ⟨pre.length + w.length, pre.length, done.length, done ++ old :: rows⟩ =
      .ok ⟨pre.length + w.length, pre.length + w.length + 1, done.length + 1,
        done ++ writeAt old 0 (w.take (col - 1) ++ [0]) :: rows⟩ := by
  have hdrop : buf.drop pre.length = w ++ rest := by rw [hbuf, List.append_assoc, List.drop_left]
  have hrow : (done ++ old :: rows)[done.length]? = some old := by simp
  have hdiff : ((pre.length + w.length : Nat) - pre.length : Int) = w.length := by omega
  have hset : ∀ new, (done ++ old :: rows).set done.length new = done ++ new :: rows := by simp
  simp only [divideWord, hrow, hdiff, hdrop, hset]
  by_cases hshort : w.length < col
  · have hk : (w.length : Int) < col := by omega
    have hsize : toSize w.length = w.length := toSize_natCast (by omega)
    rw [if_pos hk, hsize, strncpy_word hw0 (Nat.le_refl _) (by omega), Exec.ok_bind, if_pos hk, List.take_length,
      set_behind hshort hold, Exec.ok_bind]
    rfl
  · have hk : ¬ (w.length : Int) < col := by omega
    have hsize : toSize col = col := toSize_natCast (by omega)
    have hlast : (col : Int) - 1 = (col - 1 : Nat) := by omega
    rw [if_neg hk, hsize, strncpy_word hw0 (Nat.not_lt.mp hshort) hold, Exec.ok_bind, if_neg (Int.lt_irrefl _), hlast,
      set_last (Nat.not_lt.mp hshort) hcol hold, Exec.ok_bind]
    rfl

/-! ## The loop -/

/-- Bytes of a word are passed over. -/
theorem divideLoop_skip (hbuf : buf = pre ++ w ++ rest) (hw : c ∉ w) (n : Nat) {d : Divide} (hi : d.i = pre.length)
    (hret : (d.ret : Int) < row) (col : Int) :
    divideLoop buf c row col (w.length + n) d = divideLoop buf c row col n { d with i := pre.length + w.length } := by
  induction w generalizing pre d with
  | nil =>
      rw [List.length_nil, Nat.zero_add, Nat.add_zero, ← hi]
  | cons b w ih =>
      have hb : byteAt buf d.i = .ok b := byteAt_eq (by rw [hbuf, hi]; simp)
      have hne : b ≠ c := by
        rintro rfl
        exact hw List.mem_cons_self
      have hlen : (b :: w).length + n = (w.length + n) + 1 := by
        rw [List.length_cons]
        omega
      have hnext : pre.length + (b :: w).length = (pre ++ [b]).length + w.length := by
        simp only [List.length_cons, List.length_append, List.length_nil]
        omega
      have hi' : d.i + 1 = (pre ++ [b]).length := by
        rw [hi, List.length_append, List.length_singleton]
      have hbuf' : buf = (pre ++ [b]) ++ w ++ rest := by rw [hbuf]; simp
      have ih' := ih hbuf' (fun h => hw (List.mem_cons_of_mem b h)) (d := { d with i := d.i + 1 }) hi' hret
      rw [hlen, divideLoop, if_pos hret, hb, Exec.ok_bind, if_neg hne, Exec.ok_bind, ih', hnext]

theorem divideLoop_full {d : Divide} (hret : ¬ (d.ret : Int) < row) (n : Nat) (col : Int) :
    divideLoop buf c row col n d = .ok d := by
  cases n with
  | zero => rfl
  | succ n => rw [divideLoop, if_neg hret]

/-- The words that are still to come, as long as there are rows. -/
theorem divideLoop_words (hbuf : buf = pre ++ ws.flatMap (· ++ [c]) ++ rest) (hlen : buf.length < 2 ^ 64)
    (hws : ∀ w ∈ ws, c ∉ w ∧ 0 ∉ w) (hcol : 1 ≤ col) (hrows : ∀ old ∈ rows, col ≤ old.length)
    (hroom : row ≤ done.length + rows.length) :
    ∃ d, divideLoop buf c row col (ws.flatMap (· ++ [c])).length ⟨pre.length, pre.length, done.length, done ++ rows⟩ =
        .ok d ∧ d.ret = done.length + (ws.take (row - done.length)).length ∧
      d.argv = done ++ putWords col (ws.take (row - done.length)) rows := by
  induction ws generalizing pre done rows with
  | nil => exact ⟨_, rfl, by simp, by simp [putWords]⟩
  | cons w ws ih =>
      obtain ⟨⟨hw, hw0⟩, hws⟩ := List.forall_mem_cons.mp hws
      by_cases hret : done.length < row
      · obtain ⟨old, rows, rfl⟩ : ∃ old rows', rows = old :: rows' :=
          List.exists_cons_of_ne_nil (by rintro rfl; rw [List.length_nil] at hroom; omega)
        obtain ⟨hold, hrows⟩ := List.forall_mem_cons.mp hrows
        have hbuf' : buf = pre ++ w ++ c :: (ws.flatMap (· ++ [c]) ++ rest) := by rw [hbuf]; simp
        have hwlen : w.length < 2 ^ 64 := by
          rw [hbuf', List.length_append, List.length_append] at hlen
          omega
        have hcount : ((w :: ws).flatMap (· ++ [c])).length = w.length + ((ws.flatMap (· ++ [c])).length + 1) := by
          rw [List.flatMap_cons, List.length_append, List.length_append, List.length_singleton]
          omega
        have hret' : (done.length : Int) < row := by omega
        have hsep : byteAt buf (pre.length + w.length : Nat) = .ok c :=
          byteAt_eq (by rw [hbuf', ← List.length_append]; simp)
        have hpre : pre.length + w.length + 1 = (pre ++ w ++ [c]).length := by simp; omega
        have htake : (w :: ws).take (row - done.length) = w :: ws.take (row - (done.length + 1)) := by
          rw [show row - done.length = row - (done.length + 1) + 1 by omega, List.take_succ_cons]
        let new := writeAt old 0 (w.take (col - 1) ++ [0])
        have hdone : done.length + 1 = (done ++ [new]).length := by simp
        have hbuf₁ : buf = (pre ++ w ++ [c]) ++ ws.flatMap (· ++ [c]) ++ rest := by rw [hbuf']; simp
        have hroom₁ : row ≤ (done ++ [new]).length + rows.length := by
          rw [List.length_cons] at hroom
          omega
        obtain ⟨d, hrun, hdret, hdargv⟩ := ih hbuf₁ hws hrows hroom₁
        refine ⟨d, ?_, ?_, ?_⟩
        · rw [hcount, divideLoop_skip hbuf' hw _ rfl hret' col, divideLoop, if_pos hret', hsep, Exec.ok_bind,
            if_pos rfl, divideWord_eq hbuf' hw0 hwlen hcol hold, Exec.ok_bind, ← hrun, ← hpre, ← hdone]
          simp [new]
        · rw [hdret, htake, ← hdone, List.length_cons]
          omega
        · rw [hdargv, htake, ← hdone, putWords]
          simp [new]
      · have hzero : row - done.length = 0 := by omega
        exact ⟨_, divideLoop_full (fun h => hret (Int.ofNat_lt.mp h)) _ _, by rw [hzero]; rfl, by rw [hzero]; rfl⟩

end

/-! ## The function -/

section
variable {malloc : Malloc} {line : CStr} {c : UInt8} {row col : Nat} {argv : List (List UInt8)}

/-- The rest of `DivideByChar`, once the formatted line is there. -/
theorem divideByChar_eq {ret text : List UInt8} (hrun : formatByChar malloc (some line) c = .ok (some ret))
    (htext : cstr ret = .ok text) (row col : Int) :
    divideByChar malloc (some line) c (some argv) row col =
      if toInt32 text.length = 0 then .ok (0, some argv)
      else do
        let buf ← setByte ret (toInt32 text.length) c
        let d ← divideLoop buf c row col (toInt32 text.length + 1).toNat ⟨0, 0, 0, argv⟩
        return (d.ret, some d.argv) := by
  rw [divideByChar, hrun, Exec.ok_bind]
  change (cstr ret >>= _) = _
  rw [htext, Exec.ok_bind]
  rfl

/-- Dividing a line that was brought into the form with single separators. -/
theorem divideByChar_formatted {part ret : List UInt8} (hrun : formatByChar malloc (some line) c = .ok (some ret))
    (htext : cstr ret = .ok (joined c part)) (hlen : ret.length ≤ 2 ^ 31) (h0 : 0 ∉ part) (hcol : 1 ≤ col)
    (hrows : ∀ old ∈ argv, col ≤ old.length) (hroom : row ≤ argv.length) :
    divideByChar malloc (some line) c (some argv) row col =
      .ok ((((words c part).take row).length : Nat), some (putWords col ((words c part).take row) argv)) := by
  by_cases hnil : words c part = []
  · have hjoined : joined c part = [] := by rw [joined, hnil]; rfl
    rw [hjoined] at htext
    have hzero : toInt32 (([] : CStr).length : Nat) = 0 := by
      rw [List.length_nil]
      decide
    rw [divideByChar_eq hrun htext, hzero, if_pos rfl, hnil, List.take_nil]
    rfl
  · have hshort := cstr_length_lt htext
    obtain ⟨_, rest, hret⟩ := cstr_ok htext
    have hflat : (words c part).flatMap (· ++ [c]) = joined c part ++ [c] := flatMap_separated hnil
    have hne : joined c part ≠ [] := fun h => hnil (by rw [← words_joined, h]; rfl)
    have hws : ∀ w ∈ words c part, c ∉ w ∧ 0 ∉ w :=
      fun w hw => ⟨(mem_words hw).2, fun h => h0 (mem_of_mem_words hw h)⟩
    have hint : toInt32 (joined c part).length = ((joined c part).length : Nat) :=
      toInt32_of_range (by omega) (by omega)
    have hpos : ¬ ((joined c part).length : Int) = 0 :=
      fun h => hne (List.eq_nil_of_length_eq_zero (Int.ofNat_eq_zero.mp h))
    have hset : setByte ret (joined c part).length c = .ok (joined c part ++ c :: rest) := by
      rw [setByte_eq c hshort, hret]
      simp
    have hbuf : joined c part ++ c :: rest = [] ++ (words c part).flatMap (· ++ [c]) ++ rest := by
      rw [hflat]
      simp
    have hbuflen : (joined c part ++ c :: rest).length < 2 ^ 64 := by
      have hretlen := congrArg List.length hret
      rw [List.length_append, List.length_cons] at hretlen ⊢
      omega
    have hroom' : row ≤ ([] : List (List UInt8)).length + argv.length := by
      rw [List.length_nil]
      omega
    obtain ⟨d, hloop, hdret, hdargv⟩ := divideLoop_words hbuf hbuflen hws hcol hrows hroom'
    have hcount : ((joined c part).length + 1 : Int).toNat = ((words c part).flatMap (· ++ [c])).length := by
      rw [hflat, List.length_append, List.length_singleton]
      omega
    simp only [List.length_nil, List.nil_append, Nat.sub_zero, Nat.zero_add] at hloop hdret hdargv
    rw [divideByChar_eq hrun htext, hint, if_neg hpos, hset, Exec.ok_bind, hcount, hloop, Exec.ok_bind, hdret, hdargv]
    rfl

theorem divideByChar_ok (h0 : 0 ∉ line) (hmalloc : ∀ n, ptrdiffMax < n → malloc n = none)
    (halloc : toInt32 line.length ≠ 0 → malloc (formatSize line) ≠ none) (hcounts : 0 ≤ toInt32 line.length)
    (hcol : 1 ≤ col) (hrows : ∀ old ∈ argv, col ≤ old.length) (hroom : row ≤ argv.length) :
    divideByChar malloc (some line) c (some argv) row col =
      .ok ((((words c (counted line)).take row).length : Nat),
        some (putWords col ((words c (counted line)).take row) argv)) := by
  rcases formatByChar_cases c h0 hmalloc halloc with ⟨hzero, hrun⟩ | ⟨hneg, _⟩ | ⟨_, ret, hrun, htext, hlen⟩
  · have hnil : words c (counted line) = [] := by
      rw [counted, hzero]
      rfl
    rw [divideByChar, hrun, Exec.ok_bind, hnil, List.take_nil]
    rfl
  · omega
  · have hcounted := length_counted hcounts
    have hrange := toInt32_range line.length
    exact divideByChar_formatted hrun htext (by omega) (fun h => h0 (List.mem_of_mem_take h)) hcol hrows hroom

/-! ## The rows -/

/-- `argv'` holds the words of the line, one in each of the first `n` rows, cut to `col - 1` bytes and terminated; what
lies behind the first `col` bytes of a row is as it was, and so are the other rows. -/
structure Divided (c : UInt8) (line : CStr) (row col : Nat) (argv argv' : List (List UInt8)) (n : Nat) : Prop where
  count : n = min row (words c line).length
  copied : ∀ (k : Nat) (w : CStr), (words c line)[k]? = some w → k < n →
    ∃ rest, argv'[k]? = some (w.take (col - 1) ++ 0 :: rest)
  size : ∀ k : Nat, (argv'[k]?).map (fun old => old.length) = (argv[k]?).map fun old => old.length
  behind : ∀ k : Nat, (argv'[k]?).map (fun old => old.drop col) = (argv[k]?).map fun old => old.drop col
  others : ∀ k : Nat, n ≤ k → argv'[k]? = argv[k]?

theorem putWords_getElem? (ws : List CStr) (argv : List (List UInt8)) (k : Nat) :
    (putWords col ws argv)[k]? = argv[k]?.map fun old =>
      (ws[k]?.map fun w => writeAt old 0 (w.take (col - 1) ++ [0])).getD old := by
  induction ws generalizing argv k with
  | nil => simp [putWords]
  | cons w ws ih =>
      cases argv with
      | nil => simp [putWords]
      | cons old rows =>
          cases k with
          | zero => simp [putWords]
          | succ k => simp [putWords, ih]

/-- Rows that are filled with words which are those of the line, as far as they are copied. -/
theorem divided_putWords {ws : List CStr} (hcol : 1 ≤ col) (hrows : ∀ old ∈ argv, col ≤ old.length)
    (hroom : row ≤ argv.length)
    (hws : (ws.take row).map (List.take (col - 1)) = ((words c line).take row).map (List.take (col - 1))) :
    Divided c line row col argv (putWords col (ws.take row) argv) (ws.take row).length := by
  have hcount := congrArg List.length hws
  rw [List.length_map, List.length_map, List.length_take (l := words c line)] at hcount
  have hfits : ∀ w : CStr, (w.take (col - 1) ++ [0]).length ≤ col := by
    intro w
    rw [List.length_append, List.length_take, List.length_singleton]
    omega
  constructor
  · exact hcount
  · intro k w hw hk
    have hline : ((words c line).take row)[k]? = some w := by
      rwa [List.getElem?_take_of_lt (by omega)]
    have hmap := congrArg (fun l => l[k]?) hws
    simp only [List.getElem?_map, hline, Option.map_some] at hmap
    obtain ⟨w', hw', hcut⟩ := Option.map_eq_some_iff.mp hmap
    have hold : argv[k]? = some argv[k] := List.getElem?_eq_getElem (by omega)
    refine ⟨argv[k].drop (w.take (col - 1) ++ [0]).length, ?_⟩
    rw [putWords_getElem?, hold, hw', Option.map_some, Option.map_some, Option.getD_some, hcut, writeAt_zero,
      List.append_assoc, List.singleton_append]
  · intro k
    rw [putWords_getElem?]
    cases hold : argv[k]? with
    | none => rfl
    | some old =>
        have hcol' := hrows old (List.mem_of_getElem? hold)
        cases (ws.take row)[k]? with
        | none => rfl
        | some w =>
            have hfit := hfits w
            exact congrArg some (length_writeAt (by omega))
  · intro k
    rw [putWords_getElem?]
    cases argv[k]? with
    | none => rfl
    | some old =>
        cases (ws.take row)[k]? with
        | none => rfl
        | some w =>
            refine congrArg some ?_
            change (writeAt old 0 (w.take (col - 1) ++ [0])).drop col = old.drop col
            rw [writeAt_zero, List.drop_append, List.drop_of_length_le (hfits w), List.nil_append, List.drop_drop,
              Nat.add_sub_cancel' (hfits w)]
  · intro k hk
    rw [putWords_getElem?, List.getElem?_eq_none hk]
    exact Option.map_id'

/-! ## Counting the words -/

theorem charCount_eq {s : CStr} (h : s.length < 2 ^ 31) (c : UInt8) : charCount (some s) c = s.count c := by
  have hfold : ∀ (s : CStr) (n : Nat), n + s.length < 2 ^ 31 →
      s.foldl (fun ret b => toInt32 (ret + if b = c then 1 else 0)) (n : Int) = (n + s.count c : Nat) := by
    intro s
    induction s with
    | nil => exact fun n _ => rfl
    | cons b s ih =>
        intro n hn
        rw [List.length_cons] at hn
        by_cases hb : b = c
        · have hnext : toInt32 ((n : Int) + 1) = (n + 1 : Nat) := toInt32_of_range (by omega) (by omega)
          rw [List.foldl_cons, if_pos hb, hnext, ih (n + 1) (by omega), hb, List.count_cons_self]
          omega
        · have hnext : toInt32 ((n : Int) + 0) = (n : Nat) := by
            rw [Int.add_zero]
            exact toInt32_of_range (by omega) (by omega)
          rw [List.foldl_cons, if_neg hb, hnext, ih n (by omega), List.count_cons_of_ne hb]
  have hrun := hfold s 0 (by omega)
  rwa [Nat.zero_add] at hrun

/-- What `DivideByChar` is for. The number of rows agrees with the separators that `CharCount` finds in the formatted
line, if there are words and a row for each. -/
def Divides (malloc : Malloc) (line : CStr) (c : UInt8) (argv : List (List UInt8)) (row col : Nat) : Prop :=
  ∃ (n : Nat) (argv' : List (List UInt8)),
    divideByChar malloc (some line) c (some argv) row col = .ok ((n : Int), some argv') ∧
    Divided c line row col argv argv' n ∧
    (words c line ≠ [] → (words c line).length ≤ row → ∃ ret text,
      formatByChar malloc (some line) c = .ok (some ret) ∧ cstr ret = .ok text ∧
      (n : Int) = charCount (some text) c + 1)

/-- A row begins with the word that was copied into it. -/
theorem Divided.row_text {argv' : List (List UInt8)} {n k : Nat} {w : CStr} (h : Divided c line row col argv argv' n)
    (h0 : 0 ∉ line) (hw : (words c line)[k]? = some w) (hk : k < n) :
    (argv'[k]?).map untilNul = some (w.take (col - 1)) := by
  obtain ⟨rest, hrow⟩ := h.copied k w hw hk
  have hw0 : 0 ∉ w.take (col - 1) :=
    fun hmem => h0 (mem_of_mem_words (List.mem_of_getElem? hw) (List.mem_of_mem_take hmem))
  rw [hrow, Option.map_some, untilNul_append_nul]
  have hself := untilNul_append hw0 []
  rw [List.append_nil] at hself
  exact congrArg some (hself.trans (List.append_nil _))

/-- Rows that hold the words of two lines: the words are the same, as far as they are copied. -/
theorem Divided.words_eq {line' : CStr} {argv' : List (List UInt8)} {n : Nat} (h : Divided c line row col argv argv' n)
    (h' : Divided c line' row col argv argv' n) (h0 : 0 ∉ line) (h0' : 0 ∉ line') :
    ((words c line).take row).map (List.take (col - 1)) = ((words c line').take row).map (List.take (col - 1)) := by
  have hcount := h.count
  have hcount' := h'.count
  refine List.ext_getElem? fun k => ?_
  rw [List.getElem?_map, List.getElem?_map]
  by_cases hk : k < n
  · have hword : (words c line)[k]? = _ := List.getElem?_eq_getElem (by omega)
    have hword' : (words c line')[k]? = _ := List.getElem?_eq_getElem (by omega)
    have htext := h.row_text h0 hword hk
    rw [h'.row_text h0' hword' hk] at htext
    rw [List.getElem?_take_of_lt (by omega), List.getElem?_take_of_lt (by omega), hword, hword']
    exact htext.symm
  · rw [List.getElem?_eq_none (by rw [List.length_take]; omega),
      List.getElem?_eq_none (by rw [List.length_take]; omega)]

/-- The separators in the formatted line, one less than its words. -/
theorem charCount_formatted (h0 : 0 ∉ line) (hmalloc : ∀ n, ptrdiffMax < n → malloc n = none)
    (halloc : toInt32 line.length ≠ 0 → malloc (formatSize line) ≠ none) (hcounts : 0 ≤ toInt32 line.length)
    (hne : words c (counted line) ≠ []) : ∃ ret text, formatByChar malloc (some line) c = .ok (some ret) ∧
      cstr ret = .ok text ∧ ((words c (counted line)).length : Int) = charCount (some text) c + 1 := by
  rcases formatByChar_cases c h0 hmalloc halloc with ⟨hzero, _⟩ | ⟨hneg, _⟩ | ⟨_, ret, hrun, htext, hlen⟩
  · refine absurd ?_ hne
    rw [counted, hzero]
    rfl
  · omega
  · have hshort := cstr_length_lt htext
    have hcounted := length_counted hcounts
    have hrange := toInt32_range line.length
    have hjoined := count_joined hne
    refine ⟨ret, _, hrun, htext, ?_⟩
    rw [charCount_eq (by omega), ← hjoined]
    rfl

/-- The part of the line that `int` counts has the words of the line, as far as they are copied. -/
theorem divides_of_counted (h0 : 0 ∉ line) (hmalloc : ∀ n, ptrdiffMax < n → malloc n = none)
    (halloc : toInt32 line.length ≠ 0 → malloc (formatSize line) ≠ none) (hcounts : 0 ≤ toInt32 line.length)
    (hcol : 1 ≤ col) (hrows : ∀ old ∈ argv, col ≤ old.length) (hroom : row ≤ argv.length)
    (hws : ((words c (counted line)).take row).map (List.take (col - 1)) =
      ((words c line).take row).map (List.take (col - 1))) : Divides malloc line c argv row col := by
  refine ⟨_, _, divideByChar_ok h0 hmalloc halloc hcounts hcol hrows hroom, divided_putWords hcol hrows hroom hws, ?_⟩
  intro hne hall
  -- the words that `int` counts are no more than those of the line, so there is a row for each
  have hless := length_words_le (c := c) (counted line) (line.drop (toInt32 line.length).toNat)
  rw [counted_append_drop] at hless
  have hcount := congrArg List.length hws
  rw [List.take_of_length_le hall, List.take_of_length_le (by omega), List.length_map, List.length_map] at hcount
  have hpos := List.length_pos_iff.mpr hne
  rw [List.take_of_length_le (by omega)]
  exact charCount_formatted h0 hmalloc halloc hcounts (List.length_pos_iff.mp (by omega))

/-- Dividing a line. With the allocation succeeding, `DivideByChar` copies the words of the line into the rows if and
only if the length of the line is not negative as an `int`, and the words that are copied are, as far as they are
copied, those of the part that `int` counts. As for `FormatByChar`, a line whose length is `2 ^ 31 - 1` as an `int` is
not covered, since its allocation cannot succeed. -/
theorem divideByChar_divides_iff (h0 : 0 ∉ line) (hmalloc : ∀ n, ptrdiffMax < n → malloc n = none)
    (halloc : toInt32 line.length ≠ 0 → malloc (formatSize line) ≠ none) (hcol : 1 ≤ col)
    (hrows : ∀ old ∈ argv, col ≤ old.length) (hroom : row ≤ argv.length) :
    Divides malloc line c argv row col ↔ 0 ≤ toInt32 line.length ∧
      ((words c (counted line)).take row).map (List.take (col - 1)) =
        ((words c line).take row).map (List.take (col - 1)) := by
  constructor
  · rintro ⟨n, argv', hrun, hdivided, _⟩
    have hcounts : 0 ≤ toInt32 line.length := by
      rcases formatByChar_cases c h0 hmalloc halloc with ⟨hzero, _⟩ | ⟨_, herror⟩ | ⟨hpos, _⟩
      · omega
      · rw [divideByChar, herror] at hrun
        cases hrun
      · omega
    have hok := Except.ok.inj (hrun.symm.trans (divideByChar_ok h0 hmalloc halloc hcounts hcol hrows hroom))
    have hn := (Prod.mk.inj hok).1
    obtain rfl : n = ((words c (counted line)).take row).length := by omega
    obtain rfl := Option.some.inj (Prod.mk.inj hok).2
    have hdivided' := divided_putWords hcol hrows hroom
      (Eq.refl (((words c (counted line)).take row).map (List.take (col - 1))))
    exact ⟨hcounts, hdivided'.words_eq hdivided (fun h => h0 (List.mem_of_mem_take h)) h0⟩
  · exact fun ⟨hcounts, hws⟩ => divides_of_counted h0 hmalloc halloc hcounts hcol hrows hroom hws

end

theorem divides_three_rows :
    Divides .cleared (ascii "  copy this here ") 0x20 [[9, 9, 9, 9], [9, 9, 9, 9], [9, 9, 9, 9]] 3 4 := by
  have halloc : toInt32 (ascii "  copy this here ").length ≠ 0 →
      Malloc.cleared (formatSize (ascii "  copy this here ")) ≠ none :=
    fun _ => Malloc.cleared_succeeds.serves _ (by decide)
  exact (divideByChar_divides_iff (by decide) Malloc.cleared_succeeds.bounded halloc (by decide) (by decide)
    (by decide)).mpr (by decide)

/-- A line of four gigabytes without a blank is one word, but no row is filled. -/
theorem divides_four_gib :
    divideByChar .cleared (some fourGiB) 0x20 (some [[9, 9]]) 1 2 = .ok (0, some [[9, 9]]) ∧
      words 0x20 fourGiB = [fourGiB] ∧ ¬ Divides .cleared fourGiB 0x20 [[9, 9]] 1 2 := by
  have hformat : formatByChar .cleared (some fourGiB) 0x20 = .ok none := formatByChar_uncounted 0x20 toInt32_fourGiB
  have hrun : divideByChar .cleared (some fourGiB) 0x20 (some [[9, 9]]) 1 2 = .ok (0, some [[9, 9]]) := by
    rw [divideByChar, hformat]
    rfl
  have hblank : 0x20 ∉ fourGiB := fun h => absurd (mem_fourGiB h) (by decide)
  have hwords : words 0x20 fourGiB = [fourGiB] := words_singleton hblank fourGiB_ne_nil
  refine ⟨hrun, hwords, ?_⟩
  rintro ⟨n, argv', hok, hdivided, _⟩
  have hn := (Prod.mk.inj (Except.ok.inj (hrun.symm.trans hok))).1
  have hcount := hdivided.count
  rw [hwords, List.length_singleton] at hcount
  omega

end CompileService.Shell
