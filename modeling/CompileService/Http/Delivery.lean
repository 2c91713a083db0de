import CompileService.Http.Lemmas.Handlers
import CompileService.Http.Times

/-!
# One response for each request

A complete response is a header block that announces the length of the body after it. `RequestHandler` sends one for
each path that does not exist; for a file or a directory it sends nothing if this cannot be read, and the length is
wrong, or the page is lost, from `2 ^ 31` bytes on.
-/

namespace CompileService.Http

open CompileService.Base CompileService.Wire

/-- One complete HTTP response: a status line, other lines of which exactly one announces a length, and a body of that
length. -/
def IsResponse (bytes : List UInt8) : Prop :=
  ∃ status fields body, bytes = headed 0x0d 0x0a (status :: fields) body ∧
    (∀ l ∈ status :: fields, IsLine 0x0d l ∧ 0x0a ∉ l) ∧ ascii "HTTP/1.1 " <+: status ∧
    fields.filter (fun l => (ascii "Content-Length:").isPrefixOf l) = [ascii "Content-Length:" ++ digits body.length]

/-- What `RequestHandler` hands to the socket is one complete response. -/
def Disk.Answers (d : Disk) (run : Run) (req root : CStr) : Prop :=
  ∃ ret out, d.requestHandler run .fresh req root = .ok (ret, out) ∧ IsResponse out.queue

/-- What is found at `ap` can be answered with one response: nothing, a file below `2 ^ 31` bytes that can be read, or
a directory with a page that can be written and stays below `2 ^ 31` bytes with its header block. -/
def Disk.Deliverable (d : Disk) (heap : PageHeap) (ap req : CStr) : Prop :=
  d.access ap = true →
    match d.opendir ap with
    | some entries =>
        d.Buildable heap ap req entries ∧ (pageAnswer (pageText req (d.pageRows heap ap req entries))).length < 2 ^ 31
    | none => ∃ contents, d.openFile ap = some contents ∧ contents.length < 2 ^ 31

/-! ## Responses -/

theorem not_isResponse_nil : ¬ IsResponse [] := by
  rintro ⟨status, fields, body, h, _⟩
  rw [headed_cons] at h
  exact absurd h.symm (List.append_ne_nil_of_right_ne_nil status (List.cons_ne_nil _ _))

theorem headLines_lines {type : CStr} (hcr : 0x0d ∉ type) (hlf : 0x0a ∉ type) (n : Int) :
    ∀ l ∈ headLines type n, IsLine 0x0d l ∧ 0x0a ∉ l := by
  have hclosed : ∀ b ∈ [0x0d, 0x0a], b ∉ ascii "HTTP/1.1 200 OK" ∧ b ∉ ascii "Server:Test Http Server" ∧
      b ∉ ascii "Content-Length:" ∧ b ∉ ascii "Content-Type:" ∧ b ∉ ascii "Connection:close" := by
    decide +kernel
  have hdecimal : ∀ b ∈ [0x0d, 0x0a], b ∉ decimal n := by
    intro b hb h
    have hdigit : ∀ b ∈ [0x0d, 0x0a], ¬ (b = 0x2d ∨ isDigit b = true) := by decide +kernel
    exact hdigit b hb (isDigit_or_minus_of_mem_decimal h)
  have htype : ∀ b ∈ [0x0d, 0x0a], b ∉ type := by
    simp only [List.forall_mem_cons]
    exact ⟨hcr, hlf, fun b hb => absurd hb List.not_mem_nil⟩
  have hlines : ∀ b ∈ [0x0d, 0x0a], ∀ l ∈ headLines type n, b ∉ l := by
    intro b hb
    obtain ⟨hstatus, hserver, hlength, hct, hconn⟩ := hclosed b hb
    unfold headLines
    simp only [List.forall_mem_cons, List.mem_append, not_or]
    exact ⟨hstatus, hserver, ⟨hlength, hdecimal b hb⟩, ⟨hct, htype b hb⟩, hconn,
      fun l hl => absurd hl List.not_mem_nil⟩
  have hne : ∀ l ∈ headLines type n, l ≠ [] := by
    unfold headLines
    simp only [List.forall_mem_cons]
    exact ⟨by decide, by decide, List.append_ne_nil_of_left_ne_nil (by decide) _,
      List.append_ne_nil_of_left_ne_nil (by decide) _, by decide, fun l hl => absurd hl List.not_mem_nil⟩
  intro l hl
  exact ⟨⟨hne l hl, hlines 0x0d (by decide) l hl⟩, hlines 0x0a (by decide) l hl⟩

theorem headLines_lengths (type : CStr) (n : Int) :
    (headLines type n).tail.filter (fun l => (ascii "Content-Length:").isPrefixOf l) =
      [ascii "Content-Length:" ++ decimal n] := by
  have hserver : (ascii "Content-Length:").isPrefixOf (ascii "Server:Test Http Server") = false := by decide
  have hlength : (ascii "Content-Length:").isPrefixOf (ascii "Content-Length:" ++ decimal n) = true :=
    List.isPrefixOf_iff_prefix.mpr (List.prefix_append _ _)
  have htype : (ascii "Content-Length:").isPrefixOf (ascii "Content-Type:" ++ type) = false := rfl
  have hconn : (ascii "Content-Length:").isPrefixOf (ascii "Connection:close") = false := by decide
  simp only [headLines, List.tail_cons, List.filter_cons, hserver, hlength, htype, hconn, List.filter_nil, if_true,
    Bool.false_eq_true, if_false]

/-- What the handlers send is a complete response if the number that is printed is the length of the body. -/
theorem isResponse_answerText {type : CStr} (hcr : 0x0d ∉ type) (hlf : 0x0a ∉ type) (n : Int) (body : List UInt8) :
    IsResponse (answerText type n body) ↔ n = body.length := by
  have hlines := headLines_lines hcr hlf n
  constructor
  · rintro ⟨status, fields, body', heq, hlines', _, hlength⟩
    obtain ⟨hhead, rfl⟩ := headed_inj (fun l hl => (hlines l hl).1) (fun l hl => (hlines' l hl).1) heq
    have htail : fields = (headLines type n).tail := by rw [hhead, List.tail_cons]
    rw [htail, headLines_lengths] at hlength
    have hdecimal : decimal n = decimal body.length := List.append_cancel_left (List.singleton_inj.mp hlength)
    exact decimal_inj hdecimal
  · rintro rfl
    exact ⟨_, _, body, rfl, hlines, ⟨ascii "200 OK", by decide⟩, headLines_lengths type _⟩

theorem isResponse_pageAnswer {page : CStr} (h : (pageAnswer page).length < 2 ^ 31) :
    IsResponse (pageAnswer page) := by
  have hcr : 0x0d ∉ ascii "text/html" := by decide
  have hlf : 0x0a ∉ ascii "text/html" := by decide
  have hpage := length_le_pageAnswer page
  exact (isResponse_answerText hcr hlf _ page).mpr (toInt32_of_range (by omega) (by omega))

theorem isResponse_fileAnswer (contents : List UInt8) :
    IsResponse (fileAnswer contents) ↔ contents.length < 2 ^ 31 := by
  have hcr : 0x0d ∉ ascii "application/*" := by decide
  have hlf : 0x0a ∉ ascii "application/*" := by decide
  have hrange := toInt32_range contents.length
  rw [fileAnswer, isResponse_answerText hcr hlf]
  constructor
  · intro h
    omega
  · exact fun h => toInt32_of_range (by omega) (by omega)

/-! ## Directories -/

theorem length_pageAnswer_perm {path : CStr} {rs rs' : List Row} (h : rs.Perm rs') :
    (pageAnswer (pageText path rs)).length = (pageAnswer (pageText path rs')).length := by
  have hrows : (rs.flatMap Row.text).length = (rs'.flatMap Row.text).length := (h.flatMap_right Row.text).length_eq
  have hpage : (pageText path rs).length = (pageText path rs').length := by
    have hlen := length_printf_pageFormat path (tableText rs)
    have hlen' := length_printf_pageFormat path (tableText rs')
    simp only [tableText, List.length_append, hrows] at hlen hlen'
    simp only [pageText, tableText]
    omega
  have hlen := length_answerText (ascii "text/html") (toInt32 (pageText path rs).length) (pageText path rs)
  have hlen' := length_answerText (ascii "text/html") (toInt32 (pageText path rs').length) (pageText path rs')
  rw [hpage] at hlen
  simp only [pageAnswer, hpage]
  omega

section
variable {d : Disk} {run : Run} {ap req root : CStr} {entries : List Dirent}

/-- The page of a directory is sent as one response, or lost with an access outside a block. -/
theorem dirReqHandler_cases (hserves : run.Serves) (hsends : run.SendsAll) (hreq : 0 ∉ req) (hlen : req.length < 2048)
    (habs : absPath req root = some ap) (hdir : d.opendir ap = some entries) (hnames : ∀ dp ∈ entries, 0 ∉ dp.name) :
    ((d.Buildable run.page ap req entries ∧
        (pageAnswer (pageText req (d.pageRows run.page ap req entries))).length < 2 ^ 31) ∧
      ∃ ret out, d.dirReqHandler run .fresh req root = .ok (ret, out) ∧ IsResponse out.queue) ∨
    (¬ (d.Buildable run.page ap req entries ∧
        (pageAnswer (pageText req (d.pageRows run.page ap req entries))).length < 2 ^ 31) ∧
      d.dirReqHandler run .fresh req root = .error .bounds) := by
  rcases Disk.makeHTML_cases hserves.page hreq hlen habs hdir hnames with
    ⟨hnot, hhtml⟩ | ⟨hbuild, rs, w, html, hrs, hw, hhtml, hpage⟩
  · exact Or.inr ⟨fun h => hnot h.1, by simp only [Disk.dirReqHandler, hhtml, Exec.error_bind]⟩
  · have hformat := length_pageFormat
    have hends := length_table_ends
    have hsmall := hw.1
    have hlength := length_printf_pageFormat req (tableBegin ++ w ++ tableEnd)
    have hwhole : w = tableTitle ++ rs.flatMap Row.text →
        printf pageFormat [.str req, .str (tableBegin ++ w ++ tableEnd)] = pageText req rs := by
      rintro rfl
      rfl
    generalize printf pageFormat [.str req, .str (tableBegin ++ w ++ tableEnd)] = page at hpage hlength hwhole
    rw [List.length_append, List.length_append] at hlength
    have hroom := length_pageAnswer_lt page
    have hpagelen := length_le_pageAnswer page
    have hhead := length_pageHttpFormat
    rw [← length_pageAnswer_perm hrs]
    by_cases hshort : (pageAnswer page).length < 2 ^ 31
    · have hpage' := hwhole (hw.2.resolve_right fun h => by omega)
      have hsend := response_ok .fresh hserves.resp hsends hpage hshort
      have hresponse := isResponse_pageAnswer hshort
      refine Or.inl ⟨⟨hbuild, by rwa [← hpage']⟩, run.noReturn, ⟨1, pageAnswer page⟩, ?_, hresponse⟩
      simp only [Disk.dirReqHandler, hhtml, Exec.ok_bind, hsend]
      rfl
    · have hlost := response_long .fresh hserves.resp hpage (Nat.not_lt.mp hshort) (by omega)
      refine Or.inr ⟨fun h => ?_, by simp only [Disk.dirReqHandler, hhtml, Exec.ok_bind, hlost, Exec.error_bind]⟩
      rcases hw.2 with hw' | ⟨_, hlong⟩
      · exact hshort (by rw [hwhole hw']; exact h.2)
      · have htable := length_printf_pageFormat req (tableText rs)
        have hanswer := length_le_pageAnswer (pageText req rs)
        have hbound := h.2
        rw [tableText, List.length_append, List.length_append] at htable
        unfold pageText tableText at hanswer hbound
        omega

/-! ## Requests -/

theorem answers_absent (hserves : run.Serves) (hsends : run.SendsAll) (hreq : 0 ∉ req) (hlen : req.length < 2048)
    (habs : absPath req root = some ap) (haccess : d.access ap = false) : d.Answers run req root := by
  refine ⟨run.noReturn, ⟨1, pageAnswer (errText req)⟩, ?_, isResponse_pageAnswer (length_errAnswer_lt hlen)⟩
  rw [Disk.requestHandler_absent hserves.ap habs haccess, badReqHandler_full hserves hsends hreq hlen]
  rfl

theorem answers_file_iff (hserves : run.Serves) (hsends : run.SendsAll) (habs : absPath req root = some ap)
    (haccess : d.access ap = true) (hdir : d.opendir ap = none) :
    d.Answers run req root ↔ ∃ contents, d.openFile ap = some contents ∧ contents.length < 2 ^ 31 := by
  rw [Disk.Answers, Disk.requestHandler_file hserves.ap habs haccess hdir]
  cases hfile : d.openFile ap with
  | none =>
      rw [Disk.fileReqHandler_unreadable habs hfile]
      refine iff_of_false ?_ fun ⟨contents, hcontents, _⟩ => by cases hcontents
      rintro ⟨ret, out, hok, hresponse⟩
      obtain ⟨_, rfl⟩ := Prod.mk.inj (Except.ok.inj hok)
      exact not_isResponse_nil hresponse
  | some contents =>
      obtain ⟨ret, calls, hsent⟩ := Disk.fileReqHandler_full .fresh hserves hsends habs hfile
      rw [hsent]
      constructor
      · rintro ⟨ret', out, hok, hresponse⟩
        obtain ⟨_, rfl⟩ := Prod.mk.inj (Except.ok.inj hok)
        exact ⟨contents, rfl, (isResponse_fileAnswer contents).mp hresponse⟩
      · rintro ⟨contents', hcontents, hshort⟩
        obtain rfl := Option.some.inj hcontents
        exact ⟨ret, _, rfl, (isResponse_fileAnswer contents).mpr hshort⟩

theorem answers_dir_iff (hserves : run.Serves) (hsends : run.SendsAll) (hreq : 0 ∉ req) (hlen : req.length < 2048)
    (habs : absPath req root = some ap) (haccess : d.access ap = true) (hdir : d.opendir ap = some entries)
    (hnames : ∀ dp ∈ entries, 0 ∉ dp.name) :
    d.Answers run req root ↔ d.Buildable run.page ap req entries ∧
      (pageAnswer (pageText req (d.pageRows run.page ap req entries))).length < 2 ^ 31 := by
  rw [Disk.Answers, Disk.requestHandler_dir hserves.ap habs haccess hdir]
  rcases dirReqHandler_cases hserves hsends hreq hlen habs hdir hnames with ⟨hcond, hsent⟩ | ⟨hcond, hlost⟩
  · exact iff_of_true hsent hcond
  · refine iff_of_false ?_ hcond
    rintro ⟨ret, out, hok, _⟩
    rw [hlost] at hok
    cases hok

/-- With allocations and sends that succeed, one complete response is sent if and only if what the path names can be
answered with one. -/
theorem answers_iff (hserves : run.Serves) (hsends : run.SendsAll) (hreq : 0 ∉ req) (hlen : req.length < 2048)
    (hnames : ∀ path entries, d.opendir path = some entries → ∀ dp ∈ entries, 0 ∉ dp.name) :
    d.Answers run req root ↔ ∃ ap, absPath req root = some ap ∧ d.Deliverable run.page ap req := by
  cases habs : absPath req root with
  | none =>
      refine iff_of_false ?_ fun ⟨ap, hap, _⟩ => by cases hap
      rintro ⟨ret, out, hok, _⟩
      rw [Disk.requestHandler_no_root hserves.ap habs] at hok
      cases hok
  | some ap =>
      simp only [Option.some.injEq, exists_eq_left', Disk.Deliverable]
      cases haccess : d.access ap with
      | false => exact iff_of_true (answers_absent hserves hsends hreq hlen habs haccess) fun h => by cases h
      | true =>
          cases hdir : d.opendir ap with
          | none =>
              rw [answers_file_iff hserves hsends habs haccess hdir]
              exact ⟨fun h _ => h, fun h => h rfl⟩
          | some entries =>
              rw [answers_dir_iff hserves hsends hreq hlen habs haccess hdir (hnames ap entries hdir)]
              exact ⟨fun h _ => h, fun h => h rfl⟩

end

/-- Every byte of the file is read on its own. -/
def Division.bytewise (contents : List UInt8) : Division contents where
  pieces := contents.map fun b => [b]
  whole := by rw [← List.flatMap_def, List.flatMap_singleton']
  size := by
    intro piece hpiece
    obtain ⟨b, _, rfl⟩ := List.mem_map.mp hpiece
    rw [List.length_singleton]
    exact ⟨Nat.le_refl 1, by omega⟩

/-- A run in which all memory is cleared and all sends are full. -/
def Run.cleared : Run where
  ap := true
  fileAp := true
  head := .cleared
  buf := .cleared
  page := .filled RowInfo.zeroed
  err := .cleared
  resp := .cleared
  sends := fun _ => .count (2 ^ 31)
  reads := .bytewise
  noReturn := 0

theorem Run.cleared_serves : Run.cleared.Serves :=
  ⟨rfl, rfl, Malloc.cleared_succeeds.serves, Malloc.cleared_succeeds.serves, PageHeap.filled_serves _,
    Malloc.cleared_succeeds.serves, Malloc.cleared_succeeds.serves⟩

theorem Run.cleared_sendsAll : Run.cleared.SendsAll := fun _ => Nat.le_succ _

/-- Where there is one file, which can be read only if `contents` are given. -/
def fileOnly (contents : Option (List UInt8)) : Disk where
  access := fun path => path = ascii "/srv/a"
  opendir := fun _ => none
  openFile := fun path => if path = ascii "/srv/a" then contents else none
  stat := fun _ => none

theorem absPath_fileOnly : absPath (ascii "/a") (ascii "/srv") = some (ascii "/srv/a") := by decide

theorem fileOnly_openFile (contents : List UInt8) :
    (fileOnly (some contents)).openFile (ascii "/srv/a") = some contents := rfl

theorem answers_readable : (fileOnly (some (ascii "text"))).Answers .cleared (ascii "/a") (ascii "/srv") := by
  refine (answers_iff Run.cleared_serves Run.cleared_sendsAll (by decide) (by decide) ?_).mpr
    ⟨ascii "/srv/a", absPath_fileOnly, fun _ => ⟨ascii "text", fileOnly_openFile _, by decide⟩⟩
  intro path entries h
  cases h

/-- Nothing is sent for a file that exists and cannot be read. -/
theorem answers_unreadable :
    absPath (ascii "/a") (ascii "/srv") = some (ascii "/srv/a") ∧ (fileOnly none).access (ascii "/srv/a") = true ∧
      (fileOnly none).requestHandler .cleared .fresh (ascii "/a") (ascii "/srv") = .ok (0, .fresh) ∧
      ¬ (fileOnly none).Answers .cleared (ascii "/a") (ascii "/srv") := by
  have haccess : (fileOnly none).access (ascii "/srv/a") = true := by decide
  have hrun : (fileOnly none).requestHandler .cleared .fresh (ascii "/a") (ascii "/srv") = .ok (0, .fresh) := by
    rw [Disk.requestHandler_file rfl absPath_fileOnly haccess rfl, Disk.fileReqHandler_unreadable absPath_fileOnly rfl]
  refine ⟨absPath_fileOnly, haccess, hrun, ?_⟩
  rintro ⟨ret, out, hok, hresponse⟩
  rw [hrun] at hok
  obtain ⟨_, rfl⟩ := Prod.mk.inj (Except.ok.inj hok)
  exact not_isResponse_nil hresponse

end CompileService.Http
