import CompileService.Http.Times

/-!
# The markup of the pages

The texts of a row and the request go into a page as they are, so the markup of a page is that of its formats and of
what is printed into them.
-/

namespace CompileService.Http

open CompileService.Base

/-- The characters `<`, `>` and `"` of a text, in their order. -/
def markup (s : CStr) : CStr := s.filter fun b => b = 0x3c || b = 0x3e || b = 0x22

/-- The texts of two rows have the same markup, each with each. -/
structure Row.SameMarkup (r r' : Row) : Prop where
  link : markup r.link = markup r'.link
  name : markup r.name = markup r'.name
  type : markup r.type = markup r'.type
  size : markup r.size = markup r'.size
  time : markup r.time = markup r'.time

/-- A page with some rows, as `MakeHTML` puts it together. -/
def buildPage (heap : PageHeap) (path : CStr) (rows : List RowInfo) : Exec (Option (List UInt8)) := do
  match ← createTable heap.table with
  | none => return none
  | some table =>
      let table ← insertRows heap 0 rows (some table)
      match ← toTableString heap.tableString table with
      | none => return none
      | some ts => toPageString heap.page path (some ts)

/-- Rows with the texts `rs` go into one page: there is memory for all of it, and the table has a length that `int` can
count. -/
structure Builds (heap : PageHeap) (path : CStr) (rows : List RowInfo) (rs : List Row) : Prop where
  serves : heap.Serves
  nul : 0 ∉ path
  reads : List.Forall₂ RowInfo.Reads rows rs
  table : (tableTitle ++ rs.flatMap Row.text).length < 2 ^ 31
  page : heap.page (pageFormat.length + path.length + (tableText rs).length + 1) ≠ none

section
variable {heap heap' : PageHeap} {malloc malloc' : Malloc} {path path' : CStr} {rows rows' : List RowInfo}
  {r r' : Row} {rs rs' : List Row}

/-! ## Texts -/

@[simp] theorem markup_append (s t : CStr) : markup (s ++ t) = markup s ++ markup t := List.filter_append s t

theorem Row.SameMarkup.text (h : r.SameMarkup r') : markup r.text = markup r'.text := by
  simp only [Row.text, markup_append, h.link, h.name, h.type, h.size, h.time]

theorem markup_rows (h : List.Forall₂ Row.SameMarkup rs rs') :
    markup (rs.flatMap Row.text) = markup (rs'.flatMap Row.text) := by
  induction h with
  | nil => rfl
  | cons hrow _ ih => simp only [List.flatMap_cons, markup_append, hrow.text, ih]

theorem markup_pageText (hpath : markup path = markup path') (hrows : List.Forall₂ Row.SameMarkup rs rs') :
    markup (pageText path rs) = markup (pageText path' rs') := by
  obtain ⟨w₁, w₂, w₃, _, _, htext⟩ := printf_pageFormat
  simp only [pageText, htext, tableText, markup_append, hpath, markup_rows hrows]

/-- The markup of an error page gives away the markup of its path. -/
theorem markup_errText : markup (errText path) = markup (errText path') ↔ markup path = markup path' := by
  obtain ⟨w₁, w₂, _, _, htext⟩ := printf_errFormat
  simp only [errText, htext, markup_append, List.append_left_inj, List.append_right_inj]

/-! ## Pages -/

theorem Builds.written (h : Builds heap path rows rs) :
    ∃ page, buildPage heap path rows = .ok (some page) ∧ cstr page = .ok (pageText path rs) := by
  obtain ⟨t, htable, ht⟩ := createTable_ok (h.serves.table.serves _ (by rw [length_tableTitle]; decide))
  obtain ⟨t', w, hrows, ht', hw⟩ := insertRows_tabled h.serves 0 ht Tabled.start h.reads
  have hsmall := h.table
  obtain rfl : w = tableTitle ++ rs.flatMap Row.text := hw.2.resolve_right fun hlong => by omega
  have hends := length_table_ends
  obtain ⟨ts, hstring, hts⟩ := toTableString_ok (h.serves.tableString.serves _ (by unfold ptrdiffMax; omega)) ht'
  obtain ⟨page, hpage, htext⟩ := toPageString_ok h.page h.nul hts
  refine ⟨page, ?_, htext⟩
  simp only [buildPage, htable, hrows, hstring, hpage, Exec.ok_bind]

/-- Two runs: pages with as many rows have the same markup if the requests and the texts of the rows have, and error
pages have the same markup exactly if the paths have. -/
theorem same_markup :
    (∀ {heap heap' path path' rows rows' rs rs'}, Builds heap path rows rs → Builds heap' path' rows' rs' →
      markup path = markup path' → List.Forall₂ Row.SameMarkup rs rs' →
      ∃ page page' w w', buildPage heap path rows = .ok (some page) ∧ cstr page = .ok w ∧
        buildPage heap' path' rows' = .ok (some page') ∧ cstr page' = .ok w' ∧
        markup w = markup w') ∧
    (∀ {malloc malloc' : Malloc} {path path' : CStr}, 0 ∉ path → 0 ∉ path' →
      malloc (errFormat.length + path.length + 1) ≠ none → malloc' (errFormat.length + path'.length + 1) ≠ none →
      ∃ page page' w w', toErrString malloc path = .ok (some page) ∧ cstr page = .ok w ∧
        toErrString malloc' path' = .ok (some page') ∧ cstr page' = .ok w' ∧
        (markup w = markup w' ↔ markup path = markup path')) := by
  constructor
  · intro heap heap' path path' rows rows' rs rs' h h' hpath hrows
    obtain ⟨page, hpage, hw⟩ := h.written
    obtain ⟨page', hpage', hw'⟩ := h'.written
    exact ⟨page, page', _, _, hpage, hw, hpage', hw', markup_pageText hpath hrows⟩
  · intro malloc malloc' path path' hpath hpath' hmalloc hmalloc'
    obtain ⟨page, hpage, hw⟩ := toErrString_ok hmalloc hpath
    obtain ⟨page', hpage', hw'⟩ := toErrString_ok hmalloc' hpath'
    exact ⟨page, page', _, _, hpage, hw, hpage', hw', markup_errText⟩

end

/-- With cleared blocks a short page is put together. -/
theorem builds_short {path : CStr} {rows : List RowInfo} {rs : List Row} (hpath : 0 ∉ path)
    (hreads : List.Forall₂ RowInfo.Reads rows rs) (hlen : path.length + (rs.flatMap Row.text).length < 2 ^ 30) :
    Builds (.filled RowInfo.zeroed) path rows rs := by
  have htitle := length_tableTitle
  have hends := length_table_ends
  have hpage := length_pageFormat
  have hserves := PageHeap.filled_serves RowInfo.zeroed
  refine ⟨hserves, hpath, hreads, ?_, hserves.page.serves _ ?_⟩
  · rw [List.length_append]
    omega
  · simp only [tableText, List.length_append]
    unfold ptrdiffMax
    omega

/-- A row that shows one character as its name. -/
def rowNamed (b : UInt8) : RowInfo := { RowInfo.zeroed with name := (CArray.zeroed : CArray 255).set 0 b }

theorem rowNamed_reads {b : UInt8} (hb : (rowNamed b).name.text = .ok [b]) :
    (rowNamed b).Reads ⟨[], [b], [], [], []⟩ :=
  ⟨RowInfo.zeroed_reads.link, hb, RowInfo.zeroed_reads.type, RowInfo.zeroed_reads.size, RowInfo.zeroed_reads.time⟩

theorem builds_rowNamed {b : UInt8} (hb : (rowNamed b).name.text = .ok [b]) :
    Builds (.filled RowInfo.zeroed) (ascii "/") [rowNamed b] [⟨[], [b], [], [], []⟩] := by
  have htext := Row.length_text ⟨[], [b], [], [], []⟩
  have hrow := length_rowFormat
  have hpath : (ascii "/").length = 1 := rfl
  simp only [List.length_nil, List.length_singleton] at htext
  refine builds_short (by decide) (.cons (rowNamed_reads hb) .nil) ?_
  rw [List.flatMap_singleton]
  omega

/-- Names and paths without markup. -/
theorem same_markup_plain :
    (∃ page page' w w', buildPage (.filled RowInfo.zeroed) (ascii "/") [rowNamed 0x61] = .ok (some page) ∧
      cstr page = .ok w ∧ buildPage (.filled RowInfo.zeroed) (ascii "/") [rowNamed 0x62] = .ok (some page') ∧
      cstr page' = .ok w' ∧ markup w = markup w') ∧
    ∃ page page' w w', toErrString .zeroed (ascii "a") = .ok (some page) ∧ cstr page = .ok w ∧
      toErrString .zeroed (ascii "b") = .ok (some page') ∧ cstr page' = .ok w' ∧
      (markup w = markup w' ↔ markup (ascii "a") = markup (ascii "b")) := by
  have ha := builds_rowNamed (b := 0x61) (by decide)
  have hb := builds_rowNamed (b := 0x62) (by decide)
  exact ⟨same_markup.1 ha hb rfl (.cons ⟨rfl, rfl, rfl, rfl, rfl⟩ .nil),
    same_markup.2 (by decide) (by decide) (Option.some_ne_none _) (Option.some_ne_none _)⟩

/-- A name that is `<`: its page and the page of an error have markup that those of `a` have not. -/
theorem markup_of_name :
    (∃ page page' w w', buildPage (.filled RowInfo.zeroed) (ascii "/") [rowNamed 0x3c] = .ok (some page) ∧
      cstr page = .ok w ∧ buildPage (.filled RowInfo.zeroed) (ascii "/") [rowNamed 0x61] = .ok (some page') ∧
      cstr page' = .ok w' ∧ markup w ≠ markup w') ∧
    markup (errText (ascii "<")) ≠ markup (errText (ascii "a")) := by
  obtain ⟨page, hpage, hw⟩ := (builds_rowNamed (b := 0x3c) (by decide)).written
  obtain ⟨page', hpage', hw'⟩ := (builds_rowNamed (b := 0x61) (by decide)).written
  exact ⟨⟨page, page', _, _, hpage, hw, hpage', hw', by decide +kernel⟩, by decide +kernel⟩

end CompileService.Http
