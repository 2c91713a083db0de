import CompileService.Shell.Format
import Mathlib.Data.Set.Finite.Basic
import Mathlib.Data.Set.Finite.Lattice

/-!
# The command loop

`Run` of `main.c` on any standard input. Its index into `line` comes from the length of what `fgets` left there, and the
result of `fgets` is not looked at.
-/

namespace CompileService.Shell

open CompileService.Base

/-! ## fgets -/

/-- The bytes up to the first newline, at most `n`. -/
def takeLine : Nat → CStr → CStr
  | 0, _ => []
  | _ + 1, [] => []
  | n + 1, b :: s => if b = 0x0a then [b] else b :: takeLine n s

/-- `fgets(line, n, stdin)` with what is left of `stdin`. At the end of the input `line` stays as it is. -/
def fgets (line : List UInt8) (n : Nat) (stdin : CStr) : Exec (List UInt8 × CStr) :=
  let got := takeLine (n - 1) stdin
  if got = [] then .ok (line, stdin) else do return (← putStr line 0 got, stdin.drop got.length)

theorem takeLine_length (n : Nat) (s : CStr) : (takeLine n s).length ≤ n := by
  induction n generalizing s with
  | zero => exact Nat.le_refl 0
  | succ n ih =>
      cases s with
      | nil => exact Nat.zero_le _
      | cons b s =>
          by_cases hb : b = 0x0a
          · rw [takeLine, if_pos hb]
            exact Nat.succ_le_succ (Nat.zero_le n)
          · rw [takeLine, if_neg hb]
            exact Nat.succ_le_succ (ih s)

theorem takeLine_ne_nil {n : Nat} {s : CStr} (hn : 0 < n) (hs : s ≠ []) : takeLine n s ≠ [] := by
  obtain ⟨n, rfl⟩ := Nat.exists_eq_succ_of_ne_zero (Nat.ne_of_gt hn)
  obtain ⟨b, s, rfl⟩ := List.exists_cons_of_ne_nil hs
  rw [takeLine]
  split
  · exact List.cons_ne_nil _ _
  · exact List.cons_ne_nil _ _

/-- A zeroed array holds the string that was read, up to its first NUL. -/
theorem fgets_spec {size n : Nat} (hn : n ≤ size) (hsize : 0 < size) (stdin : CStr) :
    ∃ line, fgets (List.replicate size 0) n stdin = .ok (line, stdin.drop (takeLine (n - 1) stdin).length) ∧
      cstr line = .ok (untilNul (takeLine (n - 1) stdin)) ∧ line.length = size := by
  have hshort := takeLine_length (n - 1) stdin
  by_cases hgot : takeLine (n - 1) stdin = []
  · refine ⟨List.replicate size 0, ?_, ?_, List.length_replicate⟩
    · rw [fgets, if_pos hgot, hgot]
      rfl
    · obtain ⟨size, rfl⟩ := Nat.exists_eq_succ_of_ne_zero (Nat.ne_of_gt hsize)
      rw [hgot]
      exact cstr_append_self (s := []) List.not_mem_nil _
  · have hpos : 0 < (takeLine (n - 1) stdin).length := List.length_pos_iff.mpr hgot
    have hfit : (takeLine (n - 1) stdin ++ [0]).length ≤ (List.replicate size (0 : UInt8)).length := by
      rw [List.length_append, List.length_singleton, List.length_replicate]
      omega
    refine ⟨writeAt (List.replicate size 0) 0 (takeLine (n - 1) stdin ++ [0]), ?_, ?_, ?_⟩
    · have hput : putStr (List.replicate size 0) (0 : Nat) (takeLine (n - 1) stdin) = _ :=
        putStr_eq (by rw [List.length_replicate]; omega)
      rw [Nat.cast_zero] at hput
      rw [fgets, if_neg hgot, hput]
      rfl
    · have hmem : writeAt (List.replicate size 0) 0 (takeLine (n - 1) stdin ++ [0]) =
          takeLine (n - 1) stdin ++ 0 :: (List.replicate size 0).drop (takeLine (n - 1) stdin ++ [0]).length := by
        simp [writeAt]
      rw [hmem, cstr_append_nul]
    · rw [length_writeAt (by rw [Nat.zero_add]; exact hfit), List.length_replicate]

/-! ## Run -/

/-- `BUF_SIZE`. -/
def bufSize : Nat := 512

/-- `Start_Handler`, `Pause_Handler` and `Exit_Handler`. -/
inductive Handler where
  | start
  | pause
  | exit
deriving DecidableEq, Repr

def gHandler : List (CStr × Handler) := [(ascii "start", .start), (ascii "pause", .pause), (ascii "exit", .exit)]

/-- The loop between two iterations: what is left of `stdin`, the indices that `line` has been used with, and whether
the process has ended. -/
structure Loop where
  stdin : CStr
  used : List Nat
  ended : Bool

/-- The command in `line`, and whether the process ends with it. -/
def command (malloc : Malloc) (line : List UInt8) : Exec Bool := do
  match ← formatByChar malloc (some (← cstr line)) 0x20 with
  | none => return true -- `strcmp` reads at a null pointer
  | some cmd => return gHandler.lookup (← cstr cmd) = some .exit

/-- One iteration, with the `malloc` that `FormatByChar` sees in it. -/
def iteration (l : Loop) (malloc : Malloc) : Exec Loop :=
  if l.ended then .ok l
  else do
    let read ← fgets (List.replicate bufSize 0) (bufSize - 1) l.stdin
    let last := toSize ((← cstr read.1).length - 1)
    -- an index outside of `line` is on record, and leaves `line` as it is
    let line := read.1.set last 0
    let ended ← (if (← byteAt line 0) ≠ 0 then command malloc line else .ok false)
    return ⟨read.2, l.used ++ [last, 0], ended⟩

/-- `Run` up to some iteration. -/
def run (stdin : CStr) (mallocs : List Malloc) : Exec Loop := mallocs.foldlM iteration ⟨stdin, [], false⟩

/-! ## One iteration -/

/-- What `fgets` puts into `line`. -/
abbrev got (stdin : CStr) : CStr := takeLine 510 stdin

/-- What the next call reads on. -/
abbrev rest (stdin : CStr) : CStr := stdin.drop (got stdin).length

/-- The words of the line, without its last byte. -/
def said (stdin : CStr) : CStr := joined 0x20 (untilNul (got stdin)).dropLast

section
variable {malloc : Malloc} {stdin : CStr} {used : List Nat}

theorem lookup_exit {cmd : CStr} : gHandler.lookup cmd = some .exit ↔ cmd = ascii "exit" := by
  constructor
  · intro h
    by_contra hexit
    by_cases hstart : cmd = ascii "start"
    · subst hstart
      revert h
      decide
    · by_cases hpause : cmd = ascii "pause"
      · subst hpause
        revert h
        decide
      · simp [gHandler, List.lookup_cons, beq_false_of_ne hstart, beq_false_of_ne hpause, beq_false_of_ne hexit] at h
  · rintro rfl
    decide

theorem cstr_head {line : List UInt8} {t : CStr} (h : cstr line = .ok t) :
    ∃ b, byteAt line 0 = .ok b ∧ (b = 0 ↔ t = []) := by
  obtain ⟨h0, rest, rfl⟩ := cstr_ok h
  cases t with
  | nil => exact ⟨0, rfl, iff_of_true rfl rfl⟩
  | cons b t => exact ⟨b, rfl, iff_of_false (fun hb => h0 (hb ▸ List.mem_cons_self)) (List.cons_ne_nil b t)⟩

theorem formatSize_short {t : CStr} (hshort : t.length < bufSize) :
    toInt32 t.length = t.length ∧ formatSize t = t.length + 1 := by
  have hlen : t.length < 512 := hshort
  have hint : toInt32 t.length = t.length := toInt32_of_range (by omega) (by omega)
  rw [formatSize, hint, toInt32_of_range (by omega) (by omega), toSize_of_range (by omega) (by omega)]
  exact ⟨rfl, by omega⟩

/-- A line that fits into the buffer is taken apart into its words, if there is memory. -/
theorem formatByChar_words (malloc : Malloc) {t : CStr} (hnul : 0 ∉ t) (hne : t ≠ []) (hshort : t.length < bufSize) :
    (malloc (formatSize t) = none ∧ formatByChar malloc (some t) 0x20 = .ok none) ∨
      ∃ ret, formatByChar malloc (some t) 0x20 = .ok (some ret) ∧ cstr ret = .ok (joined 0x20 t) := by
  have hlen : t.length < 512 := hshort
  have hpos : 0 < t.length := List.length_pos_iff.mpr hne
  obtain ⟨hint, hsize⟩ := formatSize_short hshort
  cases hblk : malloc (formatSize t) with
  | none =>
      have hne : toInt32 t.length ≠ 0 := by omega
      refine .inl ⟨rfl, ?_⟩
      rw [formatByChar, Option.getD_some, if_neg hne, hblk]
  | some blk =>
      have hserved : malloc (formatSize t) ≠ none := by
        rw [hblk]
        exact Option.some_ne_none blk
      obtain ⟨ret, hrun, htext, _⟩ := formatByChar_ok 0x20 hnul (by omega) (by omega) hserved
      rw [counted_of_lt (by omega)] at htext
      exact .inr ⟨ret, hrun, htext⟩

theorem command_spec (malloc : Malloc) {line : List UInt8} {t : CStr} (ht : cstr line = .ok t) (hne : t ≠ [])
    (hshort : t.length < bufSize) :
    ∃ ended, command malloc line = .ok ended ∧ (joined 0x20 t = ascii "exit" → ended = true) ∧
      (malloc.Serves → ended = true → joined 0x20 t = ascii "exit") := by
  rw [command, ht, Exec.ok_bind]
  rcases formatByChar_words malloc (cstr_ok ht).1 hne hshort with ⟨hnone, hrun⟩ | ⟨ret, hrun, htext⟩
  · refine ⟨true, by rw [hrun]; rfl, fun _ => rfl, fun hserves => ?_⟩
    have hlen : t.length < 512 := hshort
    have hsize := (formatSize_short hshort).2
    exact absurd hnone (hserves _ (by unfold ptrdiffMax; omega))
  · refine ⟨decide (gHandler.lookup (joined 0x20 t) = some .exit), ?_, fun h => ?_, fun _ h => ?_⟩
    · rw [hrun, Exec.ok_bind]
      change (cstr ret >>= _) = _
      rw [htext]
      rfl
    · exact decide_eq_true (lookup_exit.mpr h)
    · exact lookup_exit.mp (of_decide_eq_true h)

theorem read_line (stdin : CStr) :
    ∃ line, fgets (List.replicate bufSize 0) (bufSize - 1) stdin = .ok (line, rest stdin) ∧
      cstr line = .ok (untilNul (got stdin)) ∧ line.length = bufSize :=
  fgets_spec (by decide) (by decide) stdin

theorem got_short (stdin : CStr) : (untilNul (got stdin)).length < bufSize :=
  Nat.lt_of_le_of_lt (Nat.le_trans (List.takeWhile_sublist _).length_le (takeLine_length 510 stdin)) (by decide)

theorem iteration_eq {line : List UInt8} {t : CStr} {last : Nat} {b : UInt8} {ended : Bool}
    (hread : fgets (List.replicate bufSize 0) (bufSize - 1) stdin = .ok (line, rest stdin)) (htext : cstr line = .ok t)
    (hlast : toSize (t.length - 1) = last) (hbyte : byteAt (line.set last 0) 0 = .ok b)
    (hended : (if b ≠ 0 then command malloc (line.set last 0) else .ok false) = .ok ended) :
    iteration ⟨stdin, used, false⟩ malloc = .ok ⟨rest stdin, used ++ [last, 0], ended⟩ := by
  rw [iteration, if_neg Bool.false_ne_true, hread, Exec.ok_bind]
  change (cstr line >>= _) = _
  rw [htext, Exec.ok_bind, hlast]
  change (byteAt (line.set last 0) 0 >>= _) = _
  rw [hbyte, Exec.ok_bind, hended]
  rfl

/-- The last byte of a string in `line` is overwritten. -/
theorem cut_line {line : List UInt8} {t : CStr} (htext : cstr line = .ok t) (hne : t ≠ [])
    (hshort : t.length < bufSize) :
    toSize (t.length - 1) = t.dropLast.length ∧ cstr (line.set t.dropLast.length 0) = .ok t.dropLast := by
  have hpos := List.length_pos_iff.mpr hne
  have hlen : t.length < 512 := hshort
  have hless : t.dropLast.length < t.length := by
    rw [List.length_dropLast]
    omega
  obtain ⟨h0, tail, rfl⟩ := cstr_ok htext
  constructor
  · rw [List.length_dropLast, toSize_of_range (by omega) (by omega)]
    omega
  · refine cstr_set ?_ (fun hmem => h0 (List.mem_of_mem_dropLast hmem)) ?_
    · rw [List.take_append_of_le_length (Nat.le_of_lt hless), List.length_dropLast, List.dropLast_eq_take]
    · rw [List.length_append]
      omega

/-- The line of an iteration, without its last byte. -/
theorem read_command (stdin : CStr) :
    ∃ line last b, fgets (List.replicate bufSize 0) (bufSize - 1) stdin = .ok (line, rest stdin) ∧
      cstr line = .ok (untilNul (got stdin)) ∧ toSize ((untilNul (got stdin)).length - 1) = last ∧
      cstr (line.set last 0) = .ok (untilNul (got stdin)).dropLast ∧ byteAt (line.set last 0) 0 = .ok b ∧
      (b = 0 ↔ (untilNul (got stdin)).dropLast = []) := by
  obtain ⟨line, hread, htext, hlen⟩ := read_line stdin
  by_cases hempty : untilNul (got stdin) = []
  · rw [hempty] at htext ⊢
    have hset : line.set (2 ^ 64 - 1) 0 = line := List.set_eq_of_length_le (by rw [hlen]; decide)
    obtain ⟨b, hbyte, hb⟩ := cstr_head htext
    exact ⟨line, 2 ^ 64 - 1, b, hread, htext, rfl, by rw [hset]; exact htext, by rw [hset]; exact hbyte, hb⟩
  · obtain ⟨hlast, hcut⟩ := cut_line htext hempty (got_short stdin)
    obtain ⟨b, hbyte, hb⟩ := cstr_head hcut
    exact ⟨line, _, b, hread, htext, hlast, hcut, hbyte, hb⟩

/-- `fgets` leaves an empty string: the index is the largest `size_t`. -/
theorem iteration_empty (malloc : Malloc) (used : List Nat) (h : untilNul (got stdin) = []) :
    iteration ⟨stdin, used, false⟩ malloc = .ok ⟨rest stdin, used ++ [2 ^ 64 - 1, 0], false⟩ := by
  obtain ⟨line, last, b, hread, htext, hlast, _, hbyte, hb⟩ := read_command stdin
  rw [h] at htext hlast hb
  obtain rfl : 2 ^ 64 - 1 = last := hlast
  exact iteration_eq hread htext rfl hbyte (if_neg (not_not.mpr (hb.mpr rfl)))

/-- `fgets` leaves a string: its last byte goes, and the rest of it is the command. -/
theorem iteration_line (malloc : Malloc) (used : List Nat) (h : untilNul (got stdin) ≠ []) :
    ∃ last ended, iteration ⟨stdin, used, false⟩ malloc = .ok ⟨rest stdin, used ++ [last, 0], ended⟩ ∧
      last < bufSize ∧ (said stdin = ascii "exit" → ended = true) ∧
      (malloc.Serves → ended = true → said stdin = ascii "exit") := by
  obtain ⟨line, last, b, hread, htext, hlast, hcut, hbyte, hb⟩ := read_command stdin
  have hword : (untilNul (got stdin)).dropLast.length < bufSize :=
    Nat.lt_of_le_of_lt (List.dropLast_sublist _).length_le (got_short stdin)
  have hwithin : last < bufSize := by
    rw [← hlast, (cut_line htext h (got_short stdin)).1]
    exact hword
  refine ⟨last, ?_⟩
  by_cases hempty : (untilNul (got stdin)).dropLast = []
  · refine ⟨false, iteration_eq hread htext hlast hbyte (if_neg (not_not.mpr (hb.mpr hempty))), hwithin, ?_, ?_⟩
    · intro hexit
      rw [said, hempty] at hexit
      cases hexit
    · intro _ hended
      cases hended
  · obtain ⟨ended, hcommand, hexit, hended⟩ := command_spec malloc hcut hempty hword
    refine ⟨ended, iteration_eq hread htext hlast hbyte ?_, hwithin, hexit, hended⟩
    rw [if_pos (mt hb.mp hempty), hcommand]

end

/-! ## All iterations -/

/-- With any allocations, every index into `line` is within it, and finitely many iterations start when the input is
exhausted. -/
structure Safe (stdin : CStr) : Prop where
  within : ∀ mallocs : List Malloc, ∃ l, run stdin mallocs = .ok l ∧ ∀ i ∈ l.used, i < bufSize
  ends : ∀ malloc : Nat → Malloc,
    {n | ∃ l, run stdin ((List.range n).map malloc) = .ok l ∧ l.ended = false ∧ l.stdin = []}.Finite

/-- Some line says `exit`, and no line up to it begins with a NUL. -/
inductive Quits : CStr → Prop where
  | exit {stdin : CStr} : said stdin = ascii "exit" → Quits stdin
  | next {stdin : CStr} : untilNul (got stdin) ≠ [] → Quits (rest stdin) → Quits stdin

example : Quits (ascii "start\n\n  exit \n") := .next (by decide) (.next (by decide) (.exit (by decide)))

section
variable {stdin : CStr} {used : List Nat} {l : Loop} {mallocs : List Malloc}

theorem said_ne_exit (h : untilNul (got stdin) = []) : said stdin ≠ ascii "exit" := by
  rw [said, h]
  decide

theorem ended_stays (h : l.ended = true) (mallocs : List Malloc) : mallocs.foldlM iteration l = .ok l := by
  induction mallocs with
  | nil => rfl
  | cons malloc mallocs ih => rw [List.foldlM_cons, iteration, if_pos h, Exec.ok_bind, ih]

theorem used_within {last : Nat} (hused : ∀ i ∈ used, i < bufSize) (hlast : last < bufSize) :
    ∀ i ∈ used ++ [last, 0], i < bufSize := by
  intro i hi
  rcases List.mem_append.mp hi with hi | hi
  · exact hused i hi
  · rcases List.mem_cons.mp hi with rfl | hi
    · exact hlast
    · obtain rfl := List.mem_singleton.mp hi
      decide

/-- An input that quits: every iteration up to the end has a line. -/
theorem Quits.runs (h : Quits stdin) : ∃ N, ∀ (mallocs : List Malloc) (used : List Nat),
    (∀ i ∈ used, i < bufSize) → ∃ l, mallocs.foldlM iteration ⟨stdin, used, false⟩ = .ok l ∧
      (∀ i ∈ l.used, i < bufSize) ∧ (N ≤ mallocs.length → l.ended = true) := by
  induction h with
  | @exit stdin hexit =>
      refine ⟨1, fun mallocs used hused => ?_⟩
      cases mallocs with
      | nil => exact ⟨_, rfl, hused, fun hlen => absurd hlen (by decide)⟩
      | cons malloc mallocs =>
          have hline : untilNul (got stdin) ≠ [] := fun hempty => said_ne_exit hempty hexit
          obtain ⟨last, ended, hrun, hlast, hended, _⟩ := iteration_line malloc used hline
          obtain rfl := hended hexit
          rw [List.foldlM_cons, hrun, Exec.ok_bind]
          exact ⟨_, ended_stays rfl mallocs, used_within hused hlast, fun _ => rfl⟩
  | @next stdin hline _ ih =>
      obtain ⟨N, ih⟩ := ih
      refine ⟨N + 1, fun mallocs used hused => ?_⟩
      cases mallocs with
      | nil => exact ⟨_, rfl, hused, fun hlen => absurd hlen (Nat.not_succ_le_zero N)⟩
      | cons malloc mallocs =>
          obtain ⟨last, ended, hrun, hlast, _⟩ := iteration_line malloc used hline
          rw [List.foldlM_cons, hrun, Exec.ok_bind]
          cases ended with
          | true => exact ⟨_, ended_stays rfl mallocs, used_within hused hlast, fun _ => rfl⟩
          | false =>
              obtain ⟨l, hrun, hwithin, hended⟩ := ih mallocs _ (used_within hused hlast)
              exact ⟨l, hrun, hwithin, fun hlen => hended (Nat.le_of_succ_le_succ hlen)⟩

/-- With memory for every command, indices that stay within `line` take the loop to an `exit`. The induction is on the
length of the input: every iteration reads some of it, and the one that finds nothing leaves `line`. -/
theorem quits_of_within (used : List Nat) (hwithin : ∀ n, ∃ l,
    (List.replicate n Malloc.cleared).foldlM iteration ⟨stdin, used, false⟩ = .ok l ∧ ∀ i ∈ l.used, i < bufSize) :
    Quits stdin := by
  induction hn : stdin.length using Nat.strong_induction_on generalizing stdin used with
  | _ n ih =>
      by_cases hempty : untilNul (got stdin) = []
      · obtain ⟨l, hrun, hused⟩ := hwithin 1
        rw [List.replicate_one, List.foldlM_cons, iteration_empty _ _ hempty] at hrun
        obtain rfl := Except.ok.inj hrun
        exact absurd (hused (2 ^ 64 - 1) (by simp)) (by decide)
      · obtain ⟨last, ended, hrun, _, _, hended⟩ := iteration_line .cleared used hempty
        cases ended with
        | true => exact .exit (hended Malloc.cleared_succeeds.serves rfl)
        | false =>
            have hne : stdin ≠ [] := by
              rintro rfl
              exact hempty rfl
            have hgot : 0 < (got stdin).length :=
              List.length_pos_iff.mpr (takeLine_ne_nil (by decide) hne)
            have hpos := List.length_pos_iff.mpr hne
            refine .next hempty (ih (rest stdin).length ?_ (used ++ [last, 0]) (fun m => ?_) rfl)
            · rw [List.length_drop]
              omega
            · obtain ⟨l, hrest, hused⟩ := hwithin (m + 1)
              rw [List.replicate_succ, List.foldlM_cons, hrun, Exec.ok_bind] at hrest
              exact ⟨l, hrest, hused⟩

/-- The command loop. Its indices stay within `line` and it ends after its input, with any allocations, if and only if
some line says `exit` and no line up to it begins with a NUL. -/
theorem run_safe_iff (stdin : CStr) : Safe stdin ↔ Quits stdin := by
  constructor
  · intro h
    exact quits_of_within [] fun n => h.within (List.replicate n .cleared)
  · intro h
    obtain ⟨N, hruns⟩ := h.runs
    have hstart : ∀ i ∈ ([] : List Nat), i < bufSize := nofun
    refine ⟨fun mallocs => ?_, fun malloc => ?_⟩
    · obtain ⟨l, hrun, hwithin, _⟩ := hruns mallocs [] hstart
      exact ⟨l, hrun, hwithin⟩
    · refine (Set.finite_lt_nat N).subset ?_
      rintro n ⟨l, hrun, hended, _⟩
      refine Nat.lt_of_not_le fun hle => ?_
      obtain ⟨l', hrun', _, hended'⟩ := hruns ((List.range n).map malloc) [] hstart
      obtain rfl := Except.ok.inj (hrun.symm.trans hrun')
      rw [hended' (by rwa [List.length_map, List.length_range])] at hended
      cases hended

/-- Behind the end of the input the loop goes on for good. -/
theorem exhausted_runs (used : List Nat) (mallocs : List Malloc) :
    ∃ l, mallocs.foldlM iteration ⟨[], used, false⟩ = .ok l ∧ l.ended = false ∧ l.stdin = [] := by
  induction mallocs generalizing used with
  | nil => exact ⟨_, rfl, rfl, rfl⟩
  | cons malloc mallocs ih =>
      obtain ⟨l, hrun, hl⟩ := ih (used ++ [2 ^ 64 - 1, 0])
      exact ⟨l, by rw [List.foldlM_cons, iteration_empty malloc used rfl, Exec.ok_bind]; exact hrun, hl⟩

/-- No input at all: the first iteration writes before `line`, and infinitely many follow. -/
theorem run_end_of_input : (∃ l, run [] [Malloc.cleared] = .ok l ∧ 2 ^ 64 - 1 ∈ l.used) ∧
    {n | ∃ l, run [] ((List.range n).map fun _ => Malloc.cleared) = .ok l ∧ l.ended = false ∧ l.stdin = []}.Infinite ∧
    ¬ Safe [] := by
  have hall : {n | ∃ l, run [] ((List.range n).map fun _ => Malloc.cleared) = .ok l ∧ l.ended = false ∧
      l.stdin = []} = Set.univ :=
    Set.eq_univ_of_forall fun n => exhausted_runs [] ((List.range n).map fun _ => Malloc.cleared)
  have hinfinite := hall ▸ Set.infinite_univ (α := Nat)
  refine ⟨⟨⟨[], [2 ^ 64 - 1, 0], false⟩, ?_, ?_⟩, hinfinite, fun h => hinfinite (h.ends fun _ => .cleared)⟩
  · rw [run, List.foldlM_cons, iteration_empty _ _ rfl]
    rfl
  · exact List.mem_cons_self

end

end CompileService.Shell
