import CompileService.Base.Words
import CompileService.Http.Lemmas.Entries

/-!
# The page of a directory

`MakeHTML` writes the page of a directory if the request has a slash, the entries fit their rows and the times that
the allocator left in the slots are strings. Otherwise it leaves an array.
-/

namespace CompileService.Http

open CompileService.Base

/-! ## The row that leads back -/

/-- What is left of a request that is cut at its last slash; the root keeps its slash. -/
def parentLink (req : CStr) : CStr :=
  let parent := (req.reverse.dropWhile (· ≠ slash)).tail.reverse
  if parent = [] then [slash] else parent

def backOf (req : CStr) : Row := ⟨parentLink req, ascii "./..", ascii "Back..", [], []⟩

/-- The rows before those of the entries. -/
def backTexts (req : CStr) : List Row := if req = ascii "/" then [] else [backOf req]

theorem lastSlash_found {link : List UInt8} {a b rest : CStr} (hlink : link = a ++ slash :: b ++ rest)
    (hb : slash ∉ b) : lastSlash link (a ++ slash :: b).length = .ok a.length := by
  have hscan : ∀ n ≤ b.length, lastSlash link (a.length + n + 1) = .ok a.length := by
    intro n
    induction n with
    | zero =>
        intro _
        rw [Nat.add_zero, lastSlash, if_pos]
        rw [hlink, List.append_assoc, List.getElem?_append_right (Nat.le_refl _), Nat.sub_self]
        rfl
    | succ n ih =>
        intro hn
        rw [lastSlash, if_neg, ← Nat.add_assoc]
        · exact ih (by omega)
        · intro hslash
          rw [hlink, List.append_assoc, List.getElem?_append_right (by omega), List.cons_append,
            List.getElem?_cons, if_neg (by omega), List.getElem?_append_left (by omega)] at hslash
          exact hb (List.mem_of_getElem? hslash)
  rw [List.length_append, List.length_cons, ← Nat.add_assoc]
  exact hscan b.length (Nat.le_refl _)

theorem lastSlash_missing {link : List UInt8} {req rest : CStr} (hlink : link = req ++ rest) (h : slash ∉ req) :
    lastSlash link req.length = .error .bounds := by
  have hscan : ∀ n ≤ req.length, lastSlash link n = .error .bounds := by
    intro n
    induction n with
    | zero => exact fun _ => rfl
    | succ n ih =>
        intro hn
        rw [lastSlash, if_neg]
        · exact ih (by omega)
        · intro hslash
          rw [hlink, List.getElem?_append_left (by omega)] at hslash
          exact h (List.mem_of_getElem? hslash)
  exact hscan req.length (Nat.le_refl _)

theorem parentLink_eq {a b : CStr} (hb : slash ∉ b) :
    parentLink (a ++ slash :: b) = if a = [] then [slash] else a := by
  have hrev : ((a ++ slash :: b).reverse.dropWhile (· ≠ slash)).tail.reverse = a := by
    rw [List.reverse_append, List.reverse_cons, List.append_assoc, List.dropWhile_append_of_pos]
    · simp
    · intro c hc
      rw [decide_eq_true_iff]
      rintro rfl
      exact hb (List.mem_reverse.mp hc)
  simp only [parentLink, hrev]

theorem backRow_missing {req : CStr} (h0 : 0 ∉ req) (hlen : req.length < 2048) (h : slash ∉ req) :
    backRow req = .error .bounds := by
  obtain ⟨link, hcpy, htext⟩ := CArray.strcpy_text (a := RowInfo.zeroed.link) h0 hlen
  obtain ⟨_, rest, hlink⟩ := cstr_ok htext
  simp only [backRow, hcpy, Exec.ok_bind, lastSlash_missing hlink h]
  rfl

theorem backRow_reads {req : CStr} (h0 : 0 ∉ req) (hlen : req.length < 2048) (h : slash ∈ req) :
    ∃ back, backRow req = .ok back ∧ back.Reads (backOf req) := by
  obtain ⟨a, b, rfl, hb⟩ := exists_last h
  have hname0 : 0 ∉ ascii "./.." ∧ (ascii "./..").length < 255 := by decide
  have htype0 : 0 ∉ ascii "Back.." ∧ (ascii "Back..").length < 32 := by decide
  obtain ⟨link, hcpy, htext⟩ := CArray.strcpy_text (a := RowInfo.zeroed.link) h0 hlen
  obtain ⟨name, hname, hnametext⟩ := CArray.strcpy_text (a := RowInfo.zeroed.name) hname0.1 hname0.2
  obtain ⟨type, htype, htypetext⟩ := CArray.strcpy_text (a := RowInfo.zeroed.type) htype0.1 htype0.2
  obtain ⟨_, rest, hlink⟩ := cstr_ok htext
  have hlast := lastSlash_found hlink hb
  have hparent := parentLink_eq (a := a) hb
  have hzero : (CArray.zeroed : CArray 32).text = .ok [] := by decide
  obtain ⟨hput, hparent0, htake, hlt⟩ :
      cutLink link a.length = link.put (parentLink (a ++ slash :: b)).length [] ∧ 0 ∉ parentLink (a ++ slash :: b) ∧
      link.toList.take (parentLink (a ++ slash :: b)).length = parentLink (a ++ slash :: b) ∧
      (parentLink (a ++ slash :: b)).length + ([] : CStr).length < 2048 := by
    rw [hparent, hlink]
    cases a with
    | nil => exact ⟨rfl, by decide, rfl, by decide⟩
    | cons c a =>
        have hc0 : 0 ∉ c :: a := fun hmem => h0 (List.mem_append_left _ hmem)
        have hcut : ((c :: a) ++ slash :: b ++ 0 :: rest).take (c :: a).length = c :: a := by
          rw [List.append_assoc, List.take_left]
        rw [List.length_append] at hlen
        exact ⟨rfl, hc0, hcut, by simp only [reduceCtorEq, if_false, List.length_nil]; omega⟩
  obtain ⟨link', hcut, hcuttext⟩ := CArray.put_text htake hparent0 List.not_mem_nil hlt
  rw [List.append_nil] at hcuttext
  refine ⟨{ RowInfo.zeroed with link := link', name := name, type := type }, ?_, hcuttext, hnametext, htypetext,
    hzero, hzero⟩
  · simp only [backRow, hcpy, hlast, hput, hcut, hname, htype, Exec.ok_bind]
    rfl

theorem backRows_reads {req : CStr} (h0 : 0 ∉ req) (hlen : req.length < 2048) (hslash : slash ∈ req) :
    ∃ back, backRows true req = .ok back ∧ List.Forall₂ RowInfo.Reads back (backTexts req) := by
  unfold backTexts backRows
  by_cases hroot : req = ascii "/"
  · exact ⟨[], if_neg fun h => h.1 hroot, by rw [if_pos hroot]; exact .nil⟩
  · obtain ⟨back, hrun, hreads⟩ := backRow_reads h0 hlen hslash
    exact ⟨[back], by rw [if_pos ⟨hroot, rfl⟩, hrun]; rfl, by rw [if_neg hroot]; exact .cons hreads .nil⟩

theorem backRows_missing {req : CStr} (h0 : 0 ∉ req) (hlen : req.length < 2048) (hslash : slash ∉ req) :
    backRows true req = .error .bounds := by
  have hroot : req ≠ ascii "/" := by
    rintro rfl
    exact hslash List.mem_cons_self
  rw [backRows, if_pos ⟨hroot, rfl⟩, backRow_missing h0 hlen hslash]
  rfl

/-! ## The table -/

/-- The table holds `w` where it should hold `s`: the same, unless both have outgrown `int`. -/
def Tabled (s w : CStr) : Prop :=
  w.length < 2 ^ 31 + 2 ^ 12 ∧ (w = s ∨ 2 ^ 31 ≤ w.length ∧ 2 ^ 31 ≤ s.length)

theorem Tabled.start : Tabled tableTitle tableTitle := ⟨by rw [length_tableTitle]; decide, Or.inl rfl⟩

section
variable {buf grow : Malloc} {t : List UInt8} {s w : CStr} {info : RowInfo} {r : Row}

theorem insertRow_tabled (hbuf : buf.Serves) (hgrow : grow.Succeeds) (ht : cstr t = .ok w) (hw : Tabled s w)
    (hinfo : info.Reads r) :
    ∃ t' w', insertRow buf grow (some t) (some info) = .ok (some t') ∧ cstr t' = .ok w' ∧
      Tabled (s ++ r.text) w' := by
  have hblock : buf (rowFormat.length + sizeofRowInfo) ≠ none :=
    hbuf _ (by rw [length_rowFormat]; unfold sizeofRowInfo ptrdiffMax; omega)
  have htext := hinfo.length_text_lt
  have hlen : (s ++ r.text).length = s.length + r.text.length := List.length_append
  obtain ⟨hlimit, hcase⟩ := hw
  by_cases hfull : 2 ^ 31 ≤ w.length
  · have hlarge := growSize_large hinfo hfull (by omega)
    refine ⟨t, w, insertRow_stays ht hinfo (Or.inr (hgrow.bounded _ hlarge)), ht, hlimit, Or.inr ⟨hfull, ?_⟩⟩
    rcases hcase with rfl | ⟨_, hs⟩
    · omega
    · omega
  · obtain rfl : w = s := hcase.resolve_right fun h => hfull h.1
    have hroom : grow (w.length + r.text.length + 1) ≠ none := hgrow.serves _ (by unfold ptrdiffMax; omega)
    obtain ⟨t', hrun, ht'⟩ := insertRow_grows hblock hroom ht hinfo (Nat.not_le.mp hfull)
    exact ⟨t', w ++ r.text, hrun, ht', by omega, Or.inl rfl⟩

theorem insertRow_unterminated {link name type size : CStr} (grow : Malloc) (hbuf : buf.Serves) (ht : cstr t = .ok s)
    (hlink : info.link.text = .ok link) (hname : info.name.text = .ok name) (htype : info.type.text = .ok type)
    (hsize : info.size.text = .ok size) (htime : info.time.text = .error .bounds) :
    insertRow buf grow (some t) (some info) = .error .bounds := by
  obtain ⟨blk, hblk⟩ := Option.ne_none_iff_exists'.mp
    (hbuf (rowFormat.length + sizeofRowInfo) (by rw [length_rowFormat]; unfold sizeofRowInfo ptrdiffMax; omega))
  simp only [insertRow, ht, hblk, hlink, hname, htype, hsize, htime, Exec.ok_bind]
  rfl

end

/-- All allocations of a `MakeHTML` succeed. -/
structure PageHeap.Serves (heap : PageHeap) : Prop where
  table : heap.table.Succeeds
  back : heap.back = true
  rowBuf : ∀ n, (heap.rowBuf n).Succeeds
  rowGrow : ∀ n, (heap.rowGrow n).Succeeds
  dirs : heap.dirs.Serves
  files : heap.files.Serves
  tableString : heap.tableString.Succeeds
  page : heap.page.Succeeds

section
variable {heap : PageHeap} {t : List UInt8} {s w : CStr} {rows : List RowInfo} {rs : List Row}

theorem insertRows_tabled (hserves : heap.Serves) (n : Nat) (ht : cstr t = .ok w) (hw : Tabled s w)
    (hrows : List.Forall₂ RowInfo.Reads rows rs) :
    ∃ t' w', insertRows heap n rows (some t) = .ok (some t') ∧ cstr t' = .ok w' ∧
      Tabled (s ++ rs.flatMap Row.text) w' := by
  induction hrows generalizing n t s w with
  | nil => exact ⟨t, w, rfl, ht, by rwa [List.flatMap_nil, List.append_nil]⟩
  | @cons row r rows rs hrow _ ih =>
      obtain ⟨t₁, w₁, hrun, ht₁, hw₁⟩ := insertRow_tabled (hserves.rowBuf n).serves (hserves.rowGrow n) ht hw hrow
      obtain ⟨t', w', hrun', ht', hw'⟩ := ih (n + 1) ht₁ hw₁
      refine ⟨t', w', by rw [insertRows, hrun, Exec.ok_bind, hrun'], ht', ?_⟩
      rwa [List.flatMap_cons, ← List.append_assoc]

/-- A time that is not a string is read past its array. -/
theorem insertRows_unterminated {d : Disk} {ap req : CStr} (hserves : heap.Serves) (n : Nat) (ht : cstr t = .ok w)
    (hw : Tabled s w) (hrows : ∀ row ∈ rows, ∃ dp, d.Made ap req dp row)
    (hbad : ∃ row ∈ rows, row.time.text = .error .bounds) : insertRows heap n rows (some t) = .error .bounds := by
  induction rows generalizing n t s w with
  | nil =>
      obtain ⟨row, hrow, _⟩ := hbad
      exact absurd hrow List.not_mem_nil
  | cons row rows ih =>
      obtain ⟨⟨dp, hmade⟩, hrows⟩ := List.forall_mem_cons.mp hrows
      cases htime : row.time.text with
      | error e =>
          have he : row.time.text = .error .bounds := by
            unfold CArray.text cstr at htime ⊢
            split at htime
            · cases htime
            · rename_i hnul
              rw [if_neg hnul]
          have hrun := insertRow_unterminated (heap.rowGrow n) (hserves.rowBuf n).serves ht hmade.link hmade.name
            hmade.type hmade.size he
          rw [insertRows, hrun]
          rfl
      | ok time =>
          have hreads : row.Reads ⟨linkOf req dp.name, dp.name, dp.typeText, d.sizeOf ap dp, time⟩ :=
            ⟨hmade.link, hmade.name, hmade.type, hmade.size, htime⟩
          obtain ⟨t₁, w₁, hrun, ht₁, hw₁⟩ :=
            insertRow_tabled (hserves.rowBuf n).serves (hserves.rowGrow n) ht hw hreads
          rw [insertRows, hrun, Exec.ok_bind]
          refine ih (n + 1) ht₁ hw₁ hrows ?_
          obtain ⟨row', hrow', hbad'⟩ := hbad
          rcases List.mem_cons.mp hrow' with rfl | hrow'
          · rw [htime] at hbad'
            cases hbad'
          · exact ⟨row', hrow', hbad'⟩

end

/-! ## The whole page -/

namespace Disk

variable {d : Disk} {ap req root : CStr} {entries : List Dirent}

/-- With all allocations `GetEntry` makes the rows of all listed entries, or one of these does not fit. -/
theorem getEntry_served {heap : EntryHeap} (hserves : heap.Serves) (type : UInt8) (hreq : 0 ∉ req)
    (habs : absPath req root = some ap) (hdir : d.opendir ap = some entries) (hnames : ∀ dp ∈ entries, 0 ∉ dp.name) :
    ((∃ dp ∈ d.listed ap type entries, ¬ dp.Fits req) ∧ d.getEntry heap req root type = .error .bounds) ∨
    ((∀ dp ∈ d.listed ap type entries, dp.Fits req) ∧ ∃ fe fe', d.getEntry heap req root type = .ok (some fe) ∧
      d.Holding heap ap req (d.listed ap type entries) fe' ∧ fe.rows.Perm fe'.rows) := by
  rcases getEntry_cases heap type hreq habs hdir hnames with
    ⟨_, hnot⟩ | ⟨hrun, hfit⟩ | ⟨dps, fe, fe', hrun, hholding, hperm, _, hfits, hall⟩
  · exact absurd hserves hnot
  · exact Or.inl ⟨hfit, hrun⟩
  · obtain rfl := hall hserves
    exact Or.inr ⟨hfits, fe, fe', hrun, hholding, hperm⟩

/-- The list that `GetEntry` returns is sorted. -/
theorem getEntry_sorted {heap : EntryHeap} {type : UInt8} {fe : FileEntry} (hserves : heap.Serves) (hreq : 0 ∉ req)
    (habs : absPath req root = some ap) (hdir : d.opendir ap = some entries) (hnames : ∀ dp ∈ entries, 0 ∉ dp.name)
    (hrun : d.getEntry heap req root type = .ok (some fe)) : fe.rows.Pairwise NameLe := by
  have hstart : d.Holding heap ap req [] ⟨0, []⟩ := .start
  rw [getEntry_eq type hserves.ap hserves.ret habs hdir] at hrun
  rcases readEntries_cases type (absPath_ne_nil habs) hreq hnames hstart 0 with
    ⟨hread, _⟩ | ⟨hread, _⟩ | ⟨dps, fe', hread, h', _⟩
  · rw [hread] at hrun
    cases hrun
  · rw [hread] at hrun
    cases hrun
  · obtain ⟨fe₁, hsort, _, hsorted⟩ := sortFileEntry_sorts heap.temp h'.readable
    rw [hread, Exec.ok_bind, Option.elim_some, hsort] at hrun
    obtain rfl := Option.some.inj (Except.ok.inj hrun)
    exact hsorted hserves.temp

/-- The rows of a list go into the table if their times are strings, and past an array if not. -/
theorem insertRows_listed {heap : PageHeap} {entryHeap : EntryHeap} {dps : List Dirent} {fe fe' : FileEntry}
    {t : List UInt8} {s w : CStr} (hserves : heap.Serves) (n : Nat) (hholding : d.Holding entryHeap ap req dps fe')
    (hperm : fe.rows.Perm fe'.rows) (ht : cstr t = .ok w) (hw : Tabled s w) :
    (¬ entryHeap.Terminated dps.length ∧ insertRows heap n fe.rows (some t) = .error .bounds) ∨
    (entryHeap.Terminated dps.length ∧ ∃ (rs : List Row) (t' : List UInt8) (w' : CStr),
      List.Forall₂ RowInfo.Reads fe.rows rs ∧ rs.Perm (d.rowsOf entryHeap ap req dps) ∧
      insertRows heap n fe.rows (some t) = .ok (some t') ∧
      cstr t' = .ok w' ∧ Tabled (s ++ rs.flatMap Row.text) w') := by
  by_cases hterm : entryHeap.Terminated dps.length
  · obtain ⟨rs, hreads, hrs⟩ := List.perm_comp_forall₂ hperm (hholding.reads hterm)
    obtain ⟨t', w', hrun, ht', hw'⟩ := insertRows_tabled hserves n ht hw hreads
    exact Or.inr ⟨hterm, rs, t', w', hreads, hrs, hrun, ht', hw'⟩
  · obtain ⟨row, hrow, hbad⟩ := hholding.unterminated hterm
    have hmade : ∀ row ∈ fe.rows, ∃ dp, d.Made ap req dp row := by
      intro row hrow
      obtain ⟨dp, _, hmade⟩ := hholding.mem_rows (hperm.mem_iff.mp hrow)
      exact ⟨dp, hmade⟩
    exact Or.inl ⟨hterm, insertRows_unterminated hserves n ht hw hmade ⟨row, hperm.mem_iff.mpr hrow, hbad⟩⟩

/-- Sorted rows have their texts in the order of the names. -/
theorem pairwise_texts {rows : List RowInfo} {rs : List Row} (h : List.Forall₂ RowInfo.Reads rows rs)
    (hsorted : rows.Pairwise NameLe) : rs.Pairwise fun a b => a.name ≤ b.name := by
  obtain ⟨hlen, hget⟩ := List.forall₂_iff_get.mp h
  refine List.pairwise_iff_getElem.mpr fun i j hi hj hij => ?_
  have hle := List.pairwise_iff_getElem.mp hsorted i j (hlen ▸ hi) (hlen ▸ hj) hij
  exact (nameLe_iff (hget i (hlen ▸ hi) hi).name (hget j (hlen ▸ hj) hj).name).mp hle

/-- The page of a directory can be written: there is a slash at which the request is cut, the entries fit their rows,
and the times that the allocator left in the slots are strings. -/
structure Buildable (d : Disk) (heap : PageHeap) (ap req : CStr) (entries : List Dirent) : Prop where
  slash : slash ∈ req
  fits : ∀ dp ∈ d.listed ap typeDir entries ++ d.listed ap typeFile entries, dp.Fits req
  dirTimes : heap.dirs.Terminated (d.listed ap typeDir entries).length
  fileTimes : heap.files.Terminated (d.listed ap typeFile entries).length

/-- The rows of the page, those of the entries in the order of the directory. -/
def pageRows (d : Disk) (heap : PageHeap) (ap req : CStr) (entries : List Dirent) : List Row :=
  backTexts req ++ d.rowsOf heap.dirs ap req (d.listed ap typeDir entries) ++
    d.rowsOf heap.files ap req (d.listed ap typeFile entries)

/-- The rows of the page as they stand in it: the way back, the directories and then the files, each sorted by name. -/
def IsListing (d : Disk) (heap : PageHeap) (ap req : CStr) (entries : List Dirent) (rs : List Row) : Prop :=
  ∃ dirs files, rs = backTexts req ++ dirs ++ files ∧
    dirs.Perm (d.rowsOf heap.dirs ap req (d.listed ap typeDir entries)) ∧ dirs.Pairwise (fun a b => a.name ≤ b.name) ∧
    files.Perm (d.rowsOf heap.files ap req (d.listed ap typeFile entries)) ∧ files.Pairwise fun a b => a.name ≤ b.name

theorem IsListing.perm {heap : PageHeap} {rs : List Row} (h : d.IsListing heap ap req entries rs) :
    rs.Perm (d.pageRows heap ap req entries) := by
  obtain ⟨dirs, files, rfl, hdirs, _, hfiles, _⟩ := h
  exact ((List.Perm.refl _).append hdirs).append hfiles

/-- What `MakeHTML` returns for a directory when all allocations succeed. -/
theorem makeHTML_listed {heap : PageHeap} (hserves : heap.Serves) (hreq : 0 ∉ req) (hlen : req.length < 2048)
    (habs : absPath req root = some ap) (hdir : d.opendir ap = some entries) (hnames : ∀ dp ∈ entries, 0 ∉ dp.name) :
    (¬ d.Buildable heap ap req entries ∧ d.makeHTML heap req root = .error .bounds) ∨
    (d.Buildable heap ap req entries ∧ ∃ (rs : List Row) (w : CStr) (page : List UInt8),
      d.IsListing heap ap req entries rs ∧ Tabled (tableTitle ++ rs.flatMap Row.text) w ∧
      d.makeHTML heap req root = .ok (some page) ∧
      cstr page = .ok (printf pageFormat [.str req, .str (tableBegin ++ w ++ tableEnd)])) := by
  obtain ⟨t₀, htable, ht₀⟩ := createTable_ok (hserves.table.serves _ (by rw [length_tableTitle]; decide))
  by_cases hslash : slash ∈ req
  · obtain ⟨back, hback, hbackreads⟩ := backRows_reads hreq hlen hslash
    obtain ⟨t₁, w₁, hins₁, ht₁, hw₁⟩ := insertRows_tabled hserves 0 ht₀ Tabled.start hbackreads
    rcases getEntry_served hserves.dirs typeDir hreq habs hdir hnames with
      ⟨⟨dp, hdp, hfit⟩, hdirs⟩ | ⟨hdirfits, dirs, dirs', hdirs, hholding₂, hperm₂⟩
    · refine Or.inl ⟨fun h => hfit (h.fits dp (List.mem_append_left _ hdp)), ?_⟩
      simp only [makeHTML, htable, hserves.back, hback, hins₁, hdirs, Exec.ok_bind]
      rfl
    rcases insertRows_listed hserves back.length hholding₂ hperm₂ ht₁ hw₁ with
      ⟨hterm, hins₂⟩ | ⟨hterm₂, rs₂, t₂, w₂, hreads₂, hrs₂, hins₂, ht₂, hw₂⟩
    · refine Or.inl ⟨fun h => hterm h.dirTimes, ?_⟩
      simp only [makeHTML, htable, hserves.back, hback, hins₁, hdirs, hins₂, Exec.ok_bind, Option.elim_some]
      rfl
    rcases getEntry_served hserves.files typeFile hreq habs hdir hnames with
      ⟨⟨dp, hdp, hfit⟩, hfiles⟩ | ⟨hfilefits, files, files', hfiles, hholding₃, hperm₃⟩
    · refine Or.inl ⟨fun h => hfit (h.fits dp (List.mem_append_right _ hdp)), ?_⟩
      simp only [makeHTML, htable, hserves.back, hback, hins₁, hdirs, hins₂, hfiles, Exec.ok_bind, Option.elim_some]
      rfl
    rcases insertRows_listed hserves (back.length + dirs.rows.length) hholding₃ hperm₃ ht₂ hw₂ with
      ⟨hterm, hins₃⟩ | ⟨hterm₃, rs₃, t₃, w₃, hreads₃, hrs₃, hins₃, ht₃, hw₃⟩
    · refine Or.inl ⟨fun h => hterm h.fileTimes, ?_⟩
      simp only [makeHTML, htable, hserves.back, hback, hins₁, hdirs, hins₂, hfiles, hins₃, Exec.ok_bind,
        Option.elim_some]
      rfl
    have hsmall : w₃.length < 2 ^ 31 + 2 ^ 12 := hw₃.1
    have hends := length_table_ends
    obtain ⟨ts, htostring, hts⟩ :=
      toTableString_ok (hserves.tableString.serves _ (by unfold ptrdiffMax; omega)) ht₃
    have hformat := length_pageFormat
    have hblock : heap.page (pageFormat.length + req.length + (tableBegin ++ w₃ ++ tableEnd).length + 1) ≠ none :=
      hserves.page.serves _ (by simp only [List.length_append]; unfold ptrdiffMax; omega)
    obtain ⟨page, htopage, hpage⟩ := toPageString_ok hblock hreq hts
    have hbuild : d.Buildable heap ap req entries :=
      ⟨hslash, List.forall_mem_append.mpr ⟨hdirfits, hfilefits⟩, hterm₂, hterm₃⟩
    have hsorted₂ := getEntry_sorted hserves.dirs hreq habs hdir hnames hdirs
    have hsorted₃ := getEntry_sorted hserves.files hreq habs hdir hnames hfiles
    refine Or.inr ⟨hbuild, backTexts req ++ rs₂ ++ rs₃, w₃, page, ?_, ?_, ?_, hpage⟩
    · exact ⟨rs₂, rs₃, rfl, hrs₂, pairwise_texts hreads₂ hsorted₂, hrs₃, pairwise_texts hreads₃ hsorted₃⟩
    · rwa [List.flatMap_append, List.flatMap_append, ← List.append_assoc, ← List.append_assoc]
    · simp only [makeHTML, htable, hserves.back, hback, hins₁, hdirs, hins₂, hfiles, hins₃, htostring, htopage,
        Exec.ok_bind, Option.elim_some]
  · refine Or.inl ⟨fun h => hslash h.slash, ?_⟩
    simp only [makeHTML, htable, hserves.back, backRows_missing hreq hlen hslash, Exec.ok_bind]
    rfl

theorem makeHTML_cases {heap : PageHeap} (hserves : heap.Serves) (hreq : 0 ∉ req) (hlen : req.length < 2048)
    (habs : absPath req root = some ap) (hdir : d.opendir ap = some entries) (hnames : ∀ dp ∈ entries, 0 ∉ dp.name) :
    (¬ d.Buildable heap ap req entries ∧ d.makeHTML heap req root = .error .bounds) ∨
    (d.Buildable heap ap req entries ∧ ∃ (rs : List Row) (w : CStr) (page : List UInt8),
      rs.Perm (d.pageRows heap ap req entries) ∧ Tabled (tableTitle ++ rs.flatMap Row.text) w ∧
      d.makeHTML heap req root = .ok (some page) ∧
      cstr page = .ok (printf pageFormat [.str req, .str (tableBegin ++ w ++ tableEnd)])) := by
  rcases makeHTML_listed hserves hreq hlen habs hdir hnames with hnot | ⟨hbuild, rs, w, page, hrs, hpage⟩
  · exact Or.inl hnot
  · exact Or.inr ⟨hbuild, rs, w, page, hrs.perm, hpage⟩

end Disk

end CompileService.Http
