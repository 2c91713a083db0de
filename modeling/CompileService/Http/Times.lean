import CompileService.Http.Lemmas.Html

/-!
# The time column

`MakeEntryItem` writes every text of a row but the time, and `InsertRow` prints the time as well: the page shows what
the allocator left in the slots of the entries.
-/

namespace CompileService.Http

open CompileService.Base

/-- The string that `MakeHTML` returns. -/
def Disk.htmlText (d : Disk) (heap : PageHeap) (req root : CStr) : Exec (Option CStr) := do
  match ← d.makeHTML heap req root with
  | none => return none
  | some html => return some (← cstr html)

/-- In any two runs in which all allocations succeed `MakeHTML` returns the same string. -/
def Disk.SamePage (d : Disk) (req root : CStr) : Prop :=
  ∀ heap₁ heap₂ : PageHeap, heap₁.Serves → heap₂.Serves →
    ∃ page, d.htmlText heap₁ req root = .ok (some page) ∧ d.htmlText heap₂ req root = .ok (some page)

/-! ## Heaps -/

/-- Allocations that succeed, with the same contents in all slots. -/
def EntryHeap.filled (slot : RowInfo) : EntryHeap :=
  ⟨true, true, fun _ => some (Vector.replicate 5 slot), fun _ => true, some slot⟩

def PageHeap.filled (slot : RowInfo) : PageHeap :=
  ⟨.cleared, true, fun _ => .cleared, fun _ => .cleared, .filled slot, .filled slot, .cleared, .cleared⟩

theorem EntryHeap.filled_serves (slot : RowInfo) : (EntryHeap.filled slot).Serves :=
  ⟨rfl, rfl, fun _ => Option.some_ne_none _, fun _ => rfl, Option.some_ne_none _⟩

theorem PageHeap.filled_serves (slot : RowInfo) : (PageHeap.filled slot).Serves :=
  ⟨Malloc.cleared_succeeds, rfl, fun _ => Malloc.cleared_succeeds, fun _ => Malloc.cleared_succeeds,
    EntryHeap.filled_serves slot, EntryHeap.filled_serves slot, Malloc.cleared_succeeds, Malloc.cleared_succeeds⟩

/-- The times in the first `n` slots are strings only if there are no such slots, or the slots hold strings. -/
theorem EntryHeap.filled_terminated {slot : RowInfo} {n : Nat} (hslot : 0 ∉ slot.time.toList) :
    (EntryHeap.filled slot).Terminated n ↔ n = 0 := by
  constructor
  · intro h
    by_contra hn
    obtain ⟨slot', hslot', hnul⟩ := h 0 (Nat.pos_of_ne_zero hn)
    obtain rfl : slot = slot' := Option.some.inj hslot'
    exact hslot hnul
  · rintro rfl k hk
    exact absurd hk (Nat.not_lt_zero k)

/-! ## The page -/

section
variable {d : Disk} {heap : PageHeap} {ap req root : CStr} {entries : List Dirent}

theorem length_backTexts (hreq : 0 ∉ req) (hlen : req.length < 2048) (hslash : slash ∈ req) :
    ((backTexts req).flatMap Row.text).length < 2 ^ 12 := by
  obtain ⟨back, _, hreads⟩ := backRow_reads hreq hlen hslash
  unfold backTexts
  split
  · decide
  · rw [List.flatMap_singleton]
    exact hreads.length_text_lt

/-- The page of a directory in which nothing is shown. -/
theorem htmlText_bare (hserves : heap.Serves) (hreq : 0 ∉ req) (hlen : req.length < 2048)
    (habs : absPath req root = some ap) (hdir : d.opendir ap = some entries) (hnames : ∀ dp ∈ entries, 0 ∉ dp.name)
    (hslash : slash ∈ req) (hdirs : d.listed ap typeDir entries = []) (hfiles : d.listed ap typeFile entries = []) :
    d.htmlText heap req root = .ok (some (pageText req (backTexts req))) := by
  rcases Disk.makeHTML_cases hserves hreq hlen habs hdir hnames with
    ⟨hnot, _⟩ | ⟨_, rs, w, page, hrs, hw, hrun, hpage⟩
  · refine (hnot ⟨hslash, ?_, ?_, ?_⟩).elim
    · rw [hdirs, hfiles]
      exact fun dp hdp => absurd hdp List.not_mem_nil
    · rw [hdirs]
      exact fun k hk => absurd hk (Nat.not_lt_zero k)
    · rw [hfiles]
      exact fun k hk => absurd hk (Nat.not_lt_zero k)
  · have hrows : d.pageRows heap ap req entries = backTexts req := by
      rw [Disk.pageRows, hdirs, hfiles]
      exact (List.append_nil _).trans (List.append_nil _)
    have hback : rs = backTexts req := by
      rw [hrows] at hrs
      unfold backTexts at hrs ⊢
      by_cases hroot : req = ascii "/"
      · rw [if_pos hroot] at hrs ⊢
        exact List.perm_nil.mp hrs
      · rw [if_neg hroot] at hrs ⊢
        exact List.perm_singleton.mp hrs
    have hsmall := length_backTexts hreq hlen hslash
    have htitle := length_tableTitle
    have hwhole : w = tableTitle ++ rs.flatMap Row.text := by
      refine hw.2.resolve_right fun h => ?_
      have hlong := h.2
      rw [List.length_append, hback] at hlong
      omega
    simp only [Disk.htmlText, hrun, hpage, Exec.ok_bind]
    rw [hwhole, hback]
    rfl

/-- `MakeHTML` returns the same string in all runs if and only if the request has a slash and no entry of the
directory is shown. -/
theorem samePage_iff (hreq : 0 ∉ req) (hlen : req.length < 2048) (habs : absPath req root = some ap)
    (hdir : d.opendir ap = some entries) (hnames : ∀ dp ∈ entries, 0 ∉ dp.name) :
    d.SamePage req root ↔
      slash ∈ req ∧ d.listed ap typeDir entries = [] ∧ d.listed ap typeFile entries = [] := by
  constructor
  · intro h
    -- a run in which the slots hold no NUL
    have hx : 0 ∉ ({ RowInfo.zeroed with time := Vector.replicate 32 0x78 } : RowInfo).time.toList := by decide
    generalize ({ RowInfo.zeroed with time := Vector.replicate 32 0x78 } : RowInfo) = slot at hx
    have hserves := PageHeap.filled_serves slot
    obtain ⟨page, hrun, _⟩ := h _ _ hserves hserves
    rcases Disk.makeHTML_cases hserves hreq hlen habs hdir hnames with ⟨_, hover⟩ | ⟨hbuild, _⟩
    · simp only [Disk.htmlText, hover, Exec.error_bind] at hrun
      cases hrun
    · have hdirs := (EntryHeap.filled_terminated hx).mp hbuild.dirTimes
      have hfiles := (EntryHeap.filled_terminated hx).mp hbuild.fileTimes
      exact ⟨hbuild.slash, List.length_eq_zero_iff.mp hdirs, List.length_eq_zero_iff.mp hfiles⟩
  · rintro ⟨hslash, hdirs, hfiles⟩ heap₁ heap₂ hserves₁ hserves₂
    exact ⟨_, htmlText_bare hserves₁ hreq hlen habs hdir hnames hslash hdirs hfiles,
      htmlText_bare hserves₂ hreq hlen habs hdir hnames hslash hdirs hfiles⟩

end

/-- A directory with the file `a`, of one byte. -/
def oneFile : Disk where
  access := fun _ => true
  opendir := fun path => if path = ascii "/srv/" then some [⟨ascii "a", typeFile⟩] else none
  openFile := fun _ => none
  stat := fun _ => some 1

/-- A directory of which nothing is shown: the two dots, a socket, and a file that `stat` does not find. -/
def nothingShown : Disk where
  access := fun _ => true
  opendir := fun path =>
    if path = ascii "/srv/c" then
      some [⟨ascii ".", typeDir⟩, ⟨ascii "..", typeDir⟩, ⟨ascii "s", 0x0c⟩, ⟨ascii "gone", typeFile⟩]
    else none
  openFile := fun _ => none
  stat := fun path => if path = ascii "/srv/c/gone" then none else some 1

/-- The page has the row that leads back. -/
theorem samePage_nothingShown : nothingShown.SamePage (ascii "/c") (ascii "/srv") := by
  have habs : absPath (ascii "/c") (ascii "/srv") = some (ascii "/srv/c") := by decide
  have hdir : nothingShown.opendir (ascii "/srv/c") =
      some [⟨ascii ".", typeDir⟩, ⟨ascii "..", typeDir⟩, ⟨ascii "s", 0x0c⟩, ⟨ascii "gone", typeFile⟩] := by decide
  exact (samePage_iff (by decide) (by decide) habs hdir (by decide)).mpr (by decide)

def oneFilePage (time : CStr) : CStr :=
  pageText (ascii "/") [⟨ascii "/a", ascii "a", ascii "File", ascii "1 Byte", time⟩]

/-- A slot that holds the time `x`. -/
def stale : RowInfo := { RowInfo.zeroed with time := (CArray.zeroed : CArray 32).set 0 0x78 }

/-- The pages of two runs for a directory with one file; the slots were empty in one and stale in the other. -/
theorem page_leaks :
    absPath (ascii "/") (ascii "/srv") = some (ascii "/srv/") ∧
      oneFile.opendir (ascii "/srv/") = some [⟨ascii "a", typeFile⟩] ∧
      (⟨ascii "a", typeFile⟩ : Dirent).Fits (ascii "/") ∧
      oneFile.htmlText (.filled RowInfo.zeroed) (ascii "/") (ascii "/srv") = .ok (some (oneFilePage [])) ∧
      oneFile.htmlText (.filled stale) (ascii "/") (ascii "/srv") = .ok (some (oneFilePage (ascii "x"))) ∧
      ¬ oneFile.SamePage (ascii "/") (ascii "/srv") := by
  have hempty : oneFile.htmlText (.filled RowInfo.zeroed) (ascii "/") (ascii "/srv") =
      .ok (some (oneFilePage [])) := by
    decide +kernel
  have hstale : oneFile.htmlText (.filled stale) (ascii "/") (ascii "/srv") =
      .ok (some (oneFilePage (ascii "x"))) := by
    decide +kernel
  have hdiffer : oneFilePage [] ≠ oneFilePage (ascii "x") := by decide +kernel
  refine ⟨by decide, rfl, by decide, hempty, hstale, fun h => ?_⟩
  obtain ⟨page, hrun, hrun'⟩ := h _ _ (PageHeap.filled_serves _) (PageHeap.filled_serves _)
  rw [hempty] at hrun
  rw [hstale] at hrun'
  exact hdiffer (Option.some.inj (Except.ok.inj (hrun.trans hrun'.symm)))

end CompileService.Http
