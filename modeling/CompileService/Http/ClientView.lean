import CompileService.Http.Complete
import CompileService.Http.Delivery
import CompileService.Http.PageReader

/-!
# What the client sees

A client takes the header block of an answer, a body of the length that it announces, and reads the page in it. For a
directory it then has the request and the rows that `GetEntry` made, in their order, unless a text has the character at
which it ends in the page.
-/

namespace CompileService.Http

open CompileService.Base CompileService.Wire

/-- The body of an answer of the given type, if it has the length that the header block announces. -/
def readBody (type : CStr) (bytes : List UInt8) : Option (List UInt8) := do
  let (lines, body) ← readHead 0x0d 0x0a bytes.length bytes
  if lines.filter (fun l => (ascii "Content-Length:").isPrefixOf l) = [ascii "Content-Length:" ++ digits body.length] ∧
      ascii "Content-Type:" ++ type ∈ lines then return body
  else none

def readAnswer (bytes : List UInt8) : Option (CStr × List Row) := (readBody (ascii "text/html") bytes).bind readPage

/-- The client that sends the request `req` sees a page with this path and these rows. -/
def Disk.Shows (d : Disk) (run : Run) (req root path : CStr) (rs : List Row) : Prop :=
  ∃ ret out, d.requestHandler run .fresh req root = .ok (ret, out) ∧ readAnswer out.queue = some (path, rs)

/-- The directory at `ap` has a page that can be written and announced, in which each text can be told from what
follows it. -/
structure Disk.Legible (d : Disk) (heap : PageHeap) (ap req : CStr) (entries : List Dirent) : Prop where
  buildable : d.Buildable heap ap req entries
  short : (pageAnswer (pageText req (d.pageRows heap ap req entries))).length < 2 ^ 31
  path : 0x3c ∉ req
  rows : ∀ r ∈ d.pageRows heap ap req entries, r.Plain

/-! ## Answers -/

section
variable {type want page req path : CStr} {body : List UInt8} {rs : List Row} {n : Int}

theorem filter_headLines (type : CStr) (n : Int) :
    (headLines type n).filter (fun l => (ascii "Content-Length:").isPrefixOf l) =
      [ascii "Content-Length:" ++ decimal n] := by
  have hstatus : (ascii "Content-Length:").isPrefixOf (ascii "HTTP/1.1 200 OK") = false := by decide
  rw [← headLines_lengths type n, headLines, List.filter_cons, hstatus]
  rfl

theorem type_mem_headLines : ascii "Content-Type:" ++ want ∈ headLines type n ↔ want = type := by
  have hclosed : ¬ ascii "Content-Type:" <+: ascii "HTTP/1.1 200 OK" ∧
      ¬ ascii "Content-Type:" <+: ascii "Server:Test Http Server" ∧
      ¬ ascii "Content-Type:" <+: ascii "Connection:close" := by
    decide
  have hlength : ascii "Content-Type:" ++ want ≠ ascii "Content-Length:" ++ decimal n := by
    intro h
    have htake := congrArg (List.take 13) h
    rw [List.take_append_of_le_length (by decide), List.take_append_of_le_length (by decide)] at htake
    exact absurd htake (by decide)
  simp only [headLines, List.mem_cons, List.not_mem_nil, or_false, List.append_cancel_left_eq]
  constructor
  · rintro (h | h | h | h | h)
    · exact absurd ⟨_, h⟩ hclosed.1
    · exact absurd ⟨_, h⟩ hclosed.2.1
    · exact absurd h hlength
    · exact h
    · exact absurd ⟨_, h⟩ hclosed.2.2
  · exact fun h => .inr (.inr (.inr (.inl h)))

theorem readBody_answerText (hcr : 0x0d ∉ type) (hlf : 0x0a ∉ type) :
    readBody want (answerText type n body) = if n = body.length ∧ want = type then some body else none := by
  have hhead : readHead 0x0d 0x0a (answerText type n body).length (answerText type n body) =
      some (headLines type n, body) :=
    readHead_headed body (fun l hl => (headLines_lines hcr hlf n l hl).1) (length_lines_lt _ _ _ _)
  have hdigits : digits body.length = decimal (body.length : Int) := by
    rw [decimal, if_neg (by omega), Int.natAbs_natCast]
  have hlength : decimal n = digits body.length ↔ n = body.length := by
    rw [hdigits]
    exact ⟨fun h => decimal_inj h, fun h => by rw [h]⟩
  rw [readBody, hhead]
  simp only [Option.bind_eq_bind, Option.bind_some, filter_headLines, List.cons.injEq, List.append_cancel_left_eq,
    and_true, type_mem_headLines, hlength]
  rfl

/-- A page that is announced with its length is read. -/
theorem readBody_pageAnswer (h : (pageAnswer page).length < 2 ^ 31) (want : CStr) :
    readBody want (pageAnswer page) = if want = ascii "text/html" then some page else none := by
  have hpage := length_le_pageAnswer page
  have hint : toInt32 page.length = page.length := toInt32_of_range (by omega) (by omega)
  rw [pageAnswer, readBody_answerText (by decide) (by decide), hint]
  simp only [true_and]

theorem readAnswer_pageAnswer (h : (pageAnswer page).length < 2 ^ 31) :
    readAnswer (pageAnswer page) = readPage page := by
  rw [readAnswer, readBody_pageAnswer h, if_pos rfl]
  rfl

theorem readBody_fileAnswer (contents : List UInt8) (want : CStr) :
    readBody want (fileAnswer contents) =
      if contents.length < 2 ^ 31 ∧ want = ascii "application/*" then some contents else none := by
  have hrange := toInt32_range contents.length
  have hint : toInt32 contents.length = contents.length ↔ contents.length < 2 ^ 31 :=
    ⟨fun h => by omega, fun h => toInt32_of_range (by omega) (by omega)⟩
  rw [fileAnswer, readBody_answerText (by decide) (by decide)]
  simp only [hint]

/-- A file is not taken for a page. -/
theorem readAnswer_fileAnswer (contents : List UInt8) : readAnswer (fileAnswer contents) = none := by
  have htype : ascii "text/html" ≠ ascii "application/*" := by decide
  rw [readAnswer, readBody_fileAnswer, if_neg fun h => htype h.2]
  rfl

theorem readAnswer_nil : readAnswer [] = none := rfl

/-- Neither is the error page. -/
theorem readPage_errText (req : CStr) : readPage (errText req) = none := by
  cases hread : readPage (errText req) with
  | none => rfl
  | some p =>
      obtain ⟨_, htext⟩ := readPage_eq_some_iff.mp (show readPage (errText req) = some (p.1, p.2) from hread)
      have herr : (errText req).take 161 = errFormat.take 161 := by
        have hformat : errFormat = errFormat.take 161 ++ errFormat.drop 161 ∧ 0x25 ∉ errFormat.take 161 ∧
            (errFormat.take 161).length = 161 := by
          decide +kernel
        rw [errText]
        conv_lhs => rw [hformat.1, printf_text hformat.2.1]
        exact List.take_left' hformat.2.2
      have hpage : (pageText p.1 p.2).take 161 = pageFormat.take 161 := by
        have hlen : (pageFormat.take 161).length = 161 := by decide +kernel
        rw [← pageForm_write, DocumentForm.write, Form.write, List.append_assoc, List.append_assoc]
        exact List.take_left' hlen
      rw [htext, hpage] at herr
      exact absurd herr (by decide)

end

theorem EntryHeap.filled_slot (slot : RowInfo) (k : Nat) : (EntryHeap.filled slot).slot k = some slot := by
  have hget : (Vector.replicate 5 slot).get ⟨k % 5, Nat.mod_lt k (by decide)⟩ = slot :=
    Vector.getElem_replicate (Nat.mod_lt k (by decide))
  simp only [EntryHeap.slot, EntryHeap.filled, Option.map_some, hget]

/-! ## Directories -/

namespace Disk

section
variable {d : Disk} {run : Run} {ap req root path : CStr} {entries : List Dirent} {rs : List Row}

/-- What is sent for a directory is the answer with its listing. -/
theorem dirReqHandler_listed (hserves : run.Serves) (hsends : run.SendsAll) (hreq : 0 ∉ req) (hlen : req.length < 2048)
    (habs : absPath req root = some ap) (hdir : d.opendir ap = some entries) (hnames : ∀ dp ∈ entries, 0 ∉ dp.name)
    (hbuild : d.Buildable run.page ap req entries)
    (hshort : (pageAnswer (pageText req (d.pageRows run.page ap req entries))).length < 2 ^ 31) :
    ∃ rs, d.IsListing run.page ap req entries rs ∧ (pageAnswer (pageText req rs)).length < 2 ^ 31 ∧
      d.dirReqHandler run .fresh req root = .ok (run.noReturn, ⟨1, pageAnswer (pageText req rs)⟩) := by
  rcases makeHTML_listed hserves.page hreq hlen habs hdir hnames with
    ⟨hnot, _⟩ | ⟨_, rs, w, html, hrs, hw, hhtml, hpage⟩
  · exact absurd hbuild hnot
  · rw [← length_pageAnswer_perm hrs.perm] at hshort
    have hanswer := length_le_pageAnswer (pageText req rs)
    have htable := length_printf_pageFormat req (tableText rs)
    have hformat := length_pageFormat
    rw [pageText] at hanswer hshort
    rw [tableText, List.length_append, List.length_append] at htable
    obtain rfl : w = tableTitle ++ rs.flatMap Row.text := hw.2.resolve_right fun hlong => by
      unfold tableText at hanswer hshort
      omega
    have hsend := response_ok .fresh hserves.resp hsends hpage hshort
    exact ⟨rs, hrs, hshort, by simp only [dirReqHandler, hhtml, Exec.ok_bind, hsend]; rfl⟩

/-- The client of a directory sees its listing exactly if the page is legible. -/
theorem shows_dir_iff (hserves : run.Serves) (hsends : run.SendsAll) (hreq : 0 ∉ req) (hlen : req.length < 2048)
    (habs : absPath req root = some ap) (haccess : d.access ap = true) (hdir : d.opendir ap = some entries)
    (hnames : ∀ dp ∈ entries, 0 ∉ dp.name) :
    (∃ rs, d.IsListing run.page ap req entries rs ∧ d.Shows run req root req rs) ↔
      d.Legible run.page ap req entries := by
  rw [← and_iff_left_of_imp (a := d.Legible run.page ap req entries) fun h => And.intro h.buildable h.short]
  by_cases hcond : d.Buildable run.page ap req entries ∧
      (pageAnswer (pageText req (d.pageRows run.page ap req entries))).length < 2 ^ 31
  · obtain ⟨rs₀, hrs₀, hshort, hrun⟩ :=
      dirReqHandler_listed hserves hsends hreq hlen habs hdir hnames hcond.1 hcond.2
    rw [← requestHandler_dir hserves.ap habs haccess hdir] at hrun
    have hread : ∀ rs, d.Shows run req root req rs ↔ readPage (pageText req rs₀) = some (req, rs) := by
      intro rs
      simp only [Shows, hrun, ← readAnswer_pageAnswer hshort]
      constructor
      · rintro ⟨ret, out, hok, hread⟩
        obtain ⟨_, rfl⟩ := Prod.mk.inj (Except.ok.inj hok)
        exact hread
      · exact fun hread => ⟨_, _, rfl, hread⟩
    simp only [hread, readPage_eq_some_iff]
    constructor
    · rintro ⟨rs, hrs, ⟨hpath, hplain⟩, _⟩
      exact ⟨⟨hcond.1, hcond.2, hpath, fun r hr => hplain r (hrs.perm.mem_iff.mpr hr)⟩, hcond⟩
    · rintro ⟨h, _⟩
      exact ⟨rs₀, hrs₀, ⟨h.path, fun r hr => h.rows r (hrs₀.perm.mem_iff.mp hr)⟩, rfl⟩
  · refine iff_of_false ?_ fun h => hcond h.2
    rintro ⟨rs, _, ret, out, hok, _⟩
    rcases dirReqHandler_cases hserves hsends hreq hlen habs hdir hnames with ⟨h, _⟩ | ⟨_, hlost⟩
    · exact hcond h
    · rw [requestHandler_dir hserves.ap habs haccess hdir, hlost] at hok
      cases hok

/-- There is a directory at the path of the request. -/
def Finds (d : Disk) (req root ap : CStr) (entries : List Dirent) : Prop :=
  absPath req root = some ap ∧ d.access ap = true ∧ d.opendir ap = some entries

/-- What is not a directory is not shown as one. -/
theorem finds_of_shows (hserves : run.Serves) (hsends : run.SendsAll) (hreq : 0 ∉ req) (hlen : req.length < 2048)
    (h : d.Shows run req root path rs) : ∃ ap entries, d.Finds req root ap entries := by
  obtain ⟨ret, out, hrun, hread⟩ := h
  cases habs : absPath req root with
  | none =>
      rw [requestHandler_no_root hserves.ap habs] at hrun
      cases hrun
  | some ap =>
      cases haccess : d.access ap with
      | false =>
          rw [requestHandler_absent hserves.ap habs haccess, badReqHandler_full hserves hsends hreq hlen] at hrun
          obtain ⟨_, rfl⟩ := Prod.mk.inj (Except.ok.inj hrun)
          rw [Outlet.fresh, List.nil_append, readAnswer_pageAnswer (length_errAnswer_lt hlen),
            readPage_errText] at hread
          cases hread
      | true =>
          cases hdir : d.opendir ap with
          | some entries => exact ⟨ap, entries, habs, haccess, hdir⟩
          | none =>
              rw [requestHandler_file hserves.ap habs haccess hdir] at hrun
              cases hfile : d.openFile ap with
              | none =>
                  rw [fileReqHandler_unreadable habs hfile] at hrun
                  obtain ⟨_, rfl⟩ := Prod.mk.inj (Except.ok.inj hrun)
                  rw [Outlet.fresh, readAnswer_nil] at hread
                  cases hread
              | some contents =>
                  obtain ⟨ret', calls, hsent⟩ := fileReqHandler_full .fresh hserves hsends habs hfile
                  rw [hsent] at hrun
                  obtain ⟨_, rfl⟩ := Prod.mk.inj (Except.ok.inj hrun)
                  rw [Outlet.fresh, List.nil_append, readAnswer_fileAnswer] at hread
                  cases hread

/-- The listing on the client's side. With allocations and sends that succeed, a client sees a page with rows only if
there is a directory at the path of its request, and it sees the request and the rows of the directory in their order
if and only if the page of the directory is legible. -/
theorem listing_seen_iff (hserves : run.Serves) (hsends : run.SendsAll) (hreq : 0 ∉ req) (hlen : req.length < 2048)
    (hnames : ∀ path entries, d.opendir path = some entries → ∀ dp ∈ entries, 0 ∉ dp.name) :
    ((∃ path rs, d.Shows run req root path rs) → ∃ ap entries, d.Finds req root ap entries) ∧
    ∀ ap entries, d.Finds req root ap entries →
      ((∃ rs, d.IsListing run.page ap req entries rs ∧ d.Shows run req root req rs) ↔
        d.Legible run.page ap req entries) := by
  constructor
  · rintro ⟨path, rs, hshows⟩
    exact finds_of_shows hserves hsends hreq hlen hshows
  · rintro ap entries ⟨habs, haccess, hdir⟩
    exact shows_dir_iff hserves hsends hreq hlen habs haccess hdir (hnames ap entries hdir)

end

theorem unsorted_names : ∀ path entries, unsorted.opendir path = some entries → ∀ dp ∈ entries, 0 ∉ dp.name := by
  intro path entries h
  simp only [unsorted] at h
  split at h
  · obtain rfl := Option.some.inj h
    decide
  · cases h

theorem listing_seen_unsorted :
    let entries : List Dirent := [⟨ascii "b", typeFile⟩, ⟨ascii ".", typeDir⟩, ⟨ascii "c", typeDir⟩,
      ⟨ascii "a", typeFile⟩]
    ∃ rs, unsorted.IsListing Run.cleared.page (ascii "/srv/") (ascii "/") entries rs ∧
      unsorted.Shows .cleared (ascii "/") (ascii "/srv") (ascii "/") rs := by
  intro entries
  have hfinds : unsorted.Finds (ascii "/") (ascii "/srv") (ascii "/srv/") entries := ⟨by decide, rfl, by decide⟩
  have htimes : ∀ n, (EntryHeap.filled RowInfo.zeroed).Terminated n := fun n k _ =>
    ⟨RowInfo.zeroed, EntryHeap.filled_slot _ k, by decide⟩
  have hlegible : unsorted.Legible Run.cleared.page (ascii "/srv/") (ascii "/") entries :=
    ⟨⟨by decide, by decide, htimes _, htimes _⟩, by decide +kernel, by decide, by decide +kernel⟩
  exact ((listing_seen_iff Run.cleared_serves Run.cleared_sendsAll (by decide) (by decide) unsorted_names).2 _ _
    hfinds).mpr hlegible

end Disk

end CompileService.Http
