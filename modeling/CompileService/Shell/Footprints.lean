import CompileService.Shell.Memory

/-!
# What the utilities do to memory

Each function on the heap carries out the function of the same name on values. What `FormatByChar` and `Malloc2d`
return belongs to the caller; `DivideByChar` frees the line that it has formatted, unless there is no word in it.
-/

namespace CompileService.Shell

open CompileService.Base CompileService.Server CompileService.Http

/-- A call of `DivideByChar` that has something to divide and rows to fill; `malloc` refuses sizes that no block can
have. -/
structure Division where
  malloc : Malloc
  bounded : ∀ n, ptrdiffMax < n → malloc n = none
  line : CStr
  noNul : 0 ∉ line
  c : UInt8
  argv : List (List UInt8)
  row : Int
  col : Int

namespace Division

def run (x : Division) : Exec (Int × Option (List (List UInt8))) :=
  divideByChar x.malloc (some x.line) x.c (some x.argv) x.row x.col

/-- The line is formatted and has only separators. -/
def Wordless (x : Division) : Prop :=
  toInt32 x.line.length ≠ 0 ∧ (x.malloc (formatSize x.line)).isSome ∧ ∀ b ∈ counted x.line, b = x.c

instance (x : Division) : Decidable x.Wordless := inferInstanceAs (Decidable (_ ∧ _ ∧ _))

/-- The blocks that the call leaves behind. -/
def lost (x : Division) : Nat := if x.Wordless then 1 else 0

theorem lost_none {x : Division} (h : formatByChar x.malloc (some x.line) x.c = .ok none) : x.lost = 0 := by
  refine if_neg ?_
  rintro ⟨hne, hsome, _⟩
  have halloc : toInt32 x.line.length ≠ 0 → x.malloc (formatSize x.line) ≠ none :=
    fun _ => Option.isSome_iff_ne_none.mp hsome
  rcases formatByChar_cases x.c x.noNul x.bounded halloc with ⟨hzero, _⟩ | ⟨_, hrun⟩ | ⟨_, ret, hrun, _⟩
  · exact hne hzero
  · cases hrun.symm.trans h
  · cases hrun.symm.trans h

theorem lost_some {x : Division} {buf : List UInt8} {s : CStr}
    (h : formatByChar x.malloc (some x.line) x.c = .ok (some buf)) (hs : cstr buf = .ok s) :
    x.lost = if toInt32 s.length = 0 then 1 else 0 := by
  have hne : toInt32 x.line.length ≠ 0 := by
    intro hzero
    cases (formatByChar_uncounted x.c hzero).symm.trans h
  have hsome : x.malloc (formatSize x.line) ≠ none := by
    intro hnone
    rw [formatByChar, Option.getD_some, if_neg hne, hnone] at h
    cases h
  rcases formatByChar_cases x.c x.noNul x.bounded fun _ => hsome with
    ⟨hzero, _⟩ | ⟨_, hrun⟩ | ⟨hpos, ret, hrun, htext, hlen⟩
  · exact (hne hzero).elim
  · cases hrun.symm.trans h
  · cases hrun.symm.trans h
    obtain rfl := Except.ok.inj (htext.symm.trans hs)
    have hcounted := length_counted (s := x.line) (by omega)
    have hrange := toInt32_range x.line.length
    have hshort : (joined x.c (counted x.line)).length < buf.length := by
      obtain ⟨_, rest, hbuf⟩ := cstr_ok htext
      rw [hbuf, List.length_append, List.length_cons]
      omega
    have hempty : joined x.c (counted x.line) = [] ↔ ∀ b ∈ counted x.line, b = x.c := by
      have hiff := joined_append_eq_iff (c := x.c) (s := []) (t := counted x.line)
      have hnil : joined x.c [] = [] := by
        rw [joined, words_nil]
        rfl
      rwa [List.nil_append, hnil] at hiff
    have hzero : toInt32 (joined x.c (counted x.line)).length = 0 ↔ ∀ b ∈ counted x.line, b = x.c := by
      rw [toInt32_of_range (by omega) (by omega), ← hempty, ← List.length_eq_zero_iff]
      omega
    have hlost : x.Wordless ↔ toInt32 (joined x.c (counted x.line)).length = 0 := by
      rw [hzero]
      exact ⟨fun h => h.2.2, fun h => ⟨hne, Option.isSome_iff_ne_none.mpr hsome, h⟩⟩
    exact if_congr hlost rfl rfl

end Division

/-- `Free2d`. -/
def Malloc2d.free2d (m : Malloc2d) : Exec Unit := if m.ret.head? = some (some 0) then .ok () else .error .bounds

namespace Memory

open Assertion Carries

def textAt (a : Nat) (bytes : List UInt8) : Assertion Block := pointsTo a (.bytes bytes)

/-- The pointers to rows in the block `p`. -/
def rowsIn (p : Nat) (ret : List (Option Int)) : List (Option (Nat × Int)) :=
  ret.map fun slot => slot.map fun off => (p, off)

def arrayAt (a : Nat) (m : Malloc2d) : Assertion Block :=
  ex fun p => pointsTo a (.pointers (rowsIn p m.ret)) * textAt p m.p

section rules
variable {α ρ ι : Type} {F : Assertion Block} {m : Exec ρ} {Q : ρ → α → Assertion Block}

theorem Carries.loadBytes {a : Nat} {bytes : List UInt8} {k : List UInt8 → Prog Block α}
    (hk : Carries (textAt a bytes * F) (k bytes) m Q) :
    Carries (textAt a bytes * F) (Memory.loadBytes a >>= k) m Q := loadAs rfl hk

theorem Carries.loadPointers {a : Nat} {ret : List (Option (Nat × Int))}
    {k : List (Option (Nat × Int)) → Prog Block α} (hk : Carries (pointsTo a (.pointers ret) * F) (k ret) m Q) :
    Carries (pointsTo a (.pointers ret) * F) (Memory.loadPointers a >>= k) m Q := loadAs rfl hk

theorem Carries.loadServer {a : Nat} {s : TcpServer} {k : TcpServer → Prog Block α}
    (hk : Carries (pointsTo a (.server s) * F) (k s) m Q) :
    Carries (pointsTo a (.server s) * F) (Memory.loadServer a >>= k) m Q := loadAs rfl hk

end rules

variable {A : Allocator Block}

/-! ## Lines -/

theorem formatByChar_carries (malloc : Malloc) (src : Option CStr) (c : UInt8) :
    Carries 1 (formatByChar A malloc src c) (Shell.formatByChar malloc src c) fun r a => orNull textAt a r := by
  unfold formatByChar Shell.formatByChar mallocBytes
  by_cases hlen : toInt32 (src.getD []).length = 0
  · dsimp only
    rw [if_pos hlen, if_pos hlen]
    exact ret fun h hP => ⟨rfl, hP⟩
  · dsimp only
    rw [if_neg hlen, if_neg hlen]
    cases malloc (formatSize (src.getD [])) with
    | none =>
        apply alloc_none
        exact ret fun h hP => ⟨rfl, hP⟩
    | some blk =>
        apply alloc
        intro a
        apply of_pointsTo
        intro hne
        rw [if_neg hne]
        apply Carries.loadBytes
        apply eval
        intro f _
        apply eval
        intro blk _
        apply store
        apply ret
        intro h hP
        rwa [mul_one] at hP

theorem divideByChar_carries (x : Division) :
    Carries 1 (divideByChar A x.malloc (some x.line) x.c (some x.argv) x.row x.col) x.run fun r a =>
      fact (a = r) * blocks x.lost := by
  apply bind (formatByChar_carries x.malloc (some x.line) x.c)
  intro r buf hr
  unfold divideFormatted
  apply of_mul_one
  cases r with
  | none =>
      apply of_fact
      rintro rfl
      rw [if_pos rfl, Division.lost_none hr, blocks_zero]
      exact ret fun h hP => fact_mul_apply.mpr ⟨rfl, hP⟩
  | some bytes =>
      apply of_pointsTo
      intro hne
      rw [if_neg hne]
      apply Carries.loadBytes
      apply eval
      intro s hs
      rw [Division.lost_some hr hs]
      by_cases hlen : toInt32 s.length = 0
      · rw [if_pos hlen, if_pos hlen, if_pos hlen]
        apply ret
        intro h hP
        rw [mul_one] at hP
        exact fact_mul_apply.mpr ⟨rfl, HasSize.pointsTo buf _ h hP⟩
      · rw [if_neg hlen, if_neg hlen, if_neg hlen, blocks_zero]
        apply eval
        intro blk _
        apply store
        apply eval
        intro d _
        apply Carries.free
        exact ret fun h hP => fact_mul_apply.mpr ⟨rfl, hP⟩

/-! ## Rows -/

theorem setRows_carries (size : Nat) (col : Int) (p a n i : Nat) (slots : List (Option Int)) :
    Carries (pointsTo a (.pointers (rowsIn p slots))) (setRows size col p a n i) (Shell.setRows size col n i slots)
      fun r _ => pointsTo a (.pointers (rowsIn p r)) := by
  induction n generalizing i slots with
  | zero => exact ret fun h => id
  | succ n ih =>
      unfold setRows Shell.setRows
      apply of_mul_one
      apply Carries.loadPointers
      have hlen : (rowsIn p slots).length = slots.length := List.length_map _
      by_cases hi : i < slots.length
      · rw [if_pos (by rwa [hlen]), if_pos hi]
        apply store
        have hset : (rowsIn p slots).set i (some (p, rowOffset size col i)) =
            rowsIn p (slots.set i (some (rowOffset size col i))) := by
          rw [rowsIn, rowsIn, List.map_set]
          rfl
        rw [hset, mul_one]
        exact ih (i + 1) _
      · rw [if_neg (by rwa [hlen]), if_neg hi]
        exact fails .bounds fun h => rfl

theorem malloc2d_carries (pointers elements : Malloc) (size : Nat) (row col : Int) :
    Carries 1 (malloc2d A pointers elements size row col) (Shell.malloc2d pointers elements size row col) fun r a =>
      orNull arrayAt a r := by
  unfold malloc2d Shell.malloc2d mallocBytes fillRows
  by_cases hpos : 0 < row ∧ 0 < col
  · rw [if_pos hpos, if_pos hpos]
    cases pointers (pointersSize row) with
    | none =>
        apply alloc_none
        cases elements (elementsSize size row col) with
        | none =>
            apply alloc_none
            rw [if_neg fun h => h.1 rfl]
            apply free_null
            apply free_null
            exact ret fun h hP => ⟨rfl, hP⟩
        | some blk =>
            apply alloc
            intro p
            rw [if_neg fun h => h.1 rfl]
            apply free_null
            apply Carries.free
            exact ret fun h hP => ⟨rfl, hP⟩
    | some slots =>
        apply alloc
        intro a
        cases elements (elementsSize size row col) with
        | none =>
            apply alloc_none
            rw [if_neg fun h => h.2 rfl]
            apply Carries.free
            apply free_null
            exact ret fun h hP => ⟨rfl, hP⟩
        | some blk =>
            apply of_pointsTo
            intro ha
            apply alloc
            intro p
            apply of_pointsTo
            intro hp
            rw [if_pos ⟨ha, hp⟩, mul_one, mul_comm]
            have hunset : ∀ n, List.replicate n none = rowsIn p (List.replicate n none) := by
              intro n
              rw [rowsIn, List.map_replicate]
              rfl
            dsimp only
            rw [hunset]
            apply part (setRows_carries size col p a row.toNat 0 _)
            intro rows _ _
            apply ret
            intro h hP
            exact ⟨p, hP⟩
  · rw [if_neg hpos, if_neg hpos]
    exact ret fun h hP => ⟨rfl, hP⟩

theorem free2d_carries (a : Nat) (m : Malloc2d) : Carries (arrayAt a m) (free2d a) m.free2d fun _ _ => 1 := by
  apply of_ex
  intro p
  apply of_pointsTo
  intro hne
  unfold free2d
  rw [if_neg hne]
  apply Carries.loadPointers
  have hhead : (rowsIn p m.ret).head? = m.ret.head?.map fun slot => slot.map fun off => (p, off) := List.head?_map
  rw [hhead, Malloc2d.free2d]
  cases hm : m.ret.head? with
  | none => exact fails .bounds fun h => rfl
  | some slot =>
      cases slot with
      | none => exact fails .bounds fun h => rfl
      | some off =>
          change Carries _ ((if off = 0 then Prog.free p else Prog.eval (.error .bounds)) >>= fun _ => Prog.free a) _ _
          by_cases hoff : off = 0
          · subst hoff
            rw [if_pos rfl, if_pos rfl, mul_comm]
            apply Carries.free
            rw [← bind_pure (Prog.free a)]
            apply of_mul_one
            apply Carries.free
            exact ret fun h => id
          · rw [if_neg hoff, if_neg fun h => hoff (Option.some.inj (Option.some.inj h))]
            exact fails .bounds fun h => rfl

/-! ## Commands -/

def serverAt (a : Nat) (l : Launch) : Assertion Block := pointsTo a (.server l.server)

/-- The status is that of the console, and each of its launches has its server. -/
def consoleAt (c : Http.Console) (a : Console) : Assertion Block :=
  fact (a.status = c.status) * each serverAt a.servers c.launches

/-- What is there when the process ends. -/
def anything : Assertion Block := ex fun n => blocks n

theorem anything_apply (h : Heap Block) : anything h := ex_apply.mpr ⟨_, rfl⟩

/-- What a command leaves; there is no console after it if the process has ended. -/
def consoleAfter : Option Http.Console → Option Console → Assertion Block
  | some c, some a => consoleAt c a
  | none, none => anything
  | _, _ => fact False

def sessionAt (s : Shell.Session) (a : Session) : Assertion Block :=
  fact (a.loop = s.loop) * if s.loop.ended then anything else consoleAt s.console a.console

section
variable {c : Http.Console} {a : Console} {t : Turn}

theorem tcpServerStart_carries (p : Nat) (s : TcpServer) (t : Turn) :
    Carries (pointsTo p (.server s)) (tcpServerStart p t) (.ok (s.start t.socket t.bind t.listen)) fun s' valid =>
      fact (valid = s'.valid) * pointsTo p (.server s') := by
  unfold tcpServerStart
  apply of_mul_one
  apply Carries.loadServer
  apply store
  exact ret fun h hP => fact_mul_apply.mpr ⟨rfl, by rwa [mul_one] at hP⟩

theorem tcpServerIsValid_carries (p : Nat) (s : TcpServer) :
    Carries (pointsTo p (.server s)) (tcpServerIsValid p) (.ok s) fun s' valid =>
      fact (valid = s'.valid) * pointsTo p (.server s') := by
  apply of_mul_one
  apply of_pointsTo
  intro hne
  unfold tcpServerIsValid
  rw [if_pos hne]
  apply Carries.loadServer
  exact ret fun h hP => fact_mul_apply.mpr ⟨rfl, by rwa [mul_one] at hP⟩

/-- A start of a stopped server leaves the server, whether it succeeds or not. -/
theorem startHandler_carries (c : Http.Console) (a : Console) (t : Turn) :
    Carries (consoleAt c a) (startHandler A a t) (.ok (Shell.Session.handle c t (some .start))) consoleAfter := by
  apply of_fact
  intro hstatus
  unfold startHandler
  rw [hstatus]
  by_cases hstop : c.status = .stop
  · rw [if_pos hstop, tcpServerNew]
    cases hserver : t.server with
    | false =>
        rw [if_neg Bool.false_ne_true]
        apply alloc_none
        rw [if_pos rfl, Shell.Session.handle, if_pos ⟨hstop, hserver⟩]
        exact ret fun h _ => anything_apply h
    | true =>
        have hhandle : Shell.Session.handle c t (some .start) =
            some (c.startHandler t.socket t.bind t.listen t.create) :=
          if_neg fun h => by rw [hserver] at h; cases h.2
        rw [if_pos rfl, hhandle]
        apply alloc
        intro p
        apply of_pointsTo
        intro hne
        rw [if_neg hne]
        apply call (tcpServerStart_carries p .new t)
        intro _
        rw [mul_assoc]
        apply of_fact
        intro _
        apply call (tcpServerIsValid_carries p _)
        intro valid
        rw [mul_assoc]
        apply of_fact
        rintro rfl
        apply ret
        intro h hP
        rw [mul_comm] at hP
        have hlen := each_length hP
        rw [Http.Console.startHandler, if_pos hstop]
        refine fact_mul_apply.mpr ⟨rfl, ?_⟩
        rw [each_append hlen, each_cons, each_nil, mul_one]
        exact hP
  · rw [if_neg hstop, Shell.Session.handle, if_neg fun h => hstop h.1, Http.Console.startHandler, if_neg hstop]
    exact ret fun h hP => fact_mul_apply.mpr ⟨rfl, hP⟩

theorem handle_carries (c : Http.Console) (a : Console) (t : Turn) (handler : Option Handler) :
    Carries (consoleAt c a) (handle A a t handler) (.ok (Shell.Session.handle c t handler)) consoleAfter := by
  cases handler with
  | none => exact ret fun h hP => hP
  | some handler =>
      cases handler with
      | start => exact startHandler_carries c a t
      | pause =>
          apply of_fact
          intro hstatus
          apply ret
          intro h hP
          show consoleAt c.pauseHandler (pauseHandler a) h
          rw [Http.Console.pauseHandler, pauseHandler, hstatus]
          split
          · exact fact_mul_apply.mpr ⟨rfl, hP⟩
          · exact fact_mul_apply.mpr ⟨hstatus, hP⟩
      | exit => exact ret fun h _ => anything_apply h

theorem command_carries (c : Http.Console) (a : Console) (t : Turn) (line : List UInt8) :
    Carries (consoleAt c a) (command A a t line) (Shell.Session.command c t line) consoleAfter := by
  apply eval
  intro s _
  apply fresh (formatByChar_carries t.malloc (some s) 0x20)
  intro r cmd _
  cases r with
  | none =>
      apply of_fact
      rintro rfl
      rw [if_pos rfl]
      exact ret fun h _ => anything_apply h
  | some bytes =>
      apply of_pointsTo
      intro hne
      rw [if_neg hne]
      apply Carries.loadBytes
      apply eval
      intro s _
      rw [mul_comm]
      apply call (handle_carries c a t (gHandler.lookup s))
      intro a'
      cases Shell.Session.handle c t (gHandler.lookup s) with
      | none =>
          cases a' with
          | none => exact ret fun h _ => anything_apply h
          | some a' => exact of_fact False.elim
      | some c' =>
          cases a' with
          | none => exact of_fact False.elim
          | some a' =>
              rw [mul_comm]
              apply Carries.free
              exact ret fun h hP => hP

theorem handleLine_carries (c : Http.Console) (a : Console) (t : Turn) (line : List UInt8) :
    Carries (consoleAt c a) (handleLine A a t line)
      (do if (← byteAt line 0) ≠ 0 then Shell.Session.command c t line else .ok (some c)) consoleAfter := by
  apply eval
  intro b _
  by_cases hb : b ≠ 0
  · rw [if_pos hb, if_pos hb]
    exact command_carries c a t line
  · rw [if_neg hb, if_neg hb]
    exact ret fun h hP => hP

theorem iteration_carries (s : Shell.Session) (a : Session) (t : Turn) :
    Carries (sessionAt s a) (iteration A a t) (s.iteration t) sessionAt := by
  obtain ⟨loop, c⟩ := s
  obtain ⟨loop', a⟩ := a
  apply of_fact
  intro hloop
  obtain rfl : loop' = loop := hloop
  unfold iteration Shell.Session.iteration
  dsimp only
  cases hended : loop'.ended with
  | true =>
      apply ret
      intro h hP
      refine fact_mul_apply.mpr ⟨rfl, ?_⟩
      dsimp only
      rwa [hended]
  | false =>
      apply eval
      intro read _
      apply eval
      intro text _
      rw [← bind_assoc]
      apply bind (handleLine_carries c a t _)
      intro c' a' _
      apply ret
      intro h hP
      cases c' with
      | none =>
          cases a' with
          | none => exact fact_mul_apply.mpr ⟨rfl, anything_apply h⟩
          | some a' => exact hP.1.elim
      | some c' =>
          cases a' with
          | none => exact hP.1.elim
          | some a' => exact fact_mul_apply.mpr ⟨rfl, hP⟩

end

end Memory

end CompileService.Shell
