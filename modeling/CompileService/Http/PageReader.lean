import CompileService.Base.Records
import CompileService.Http.Markup

/-!
# Reading a page

A page is a document of records. Whoever knows its formats can read the path and the rows back, unless a text has the
character at which it ends in the page.
-/

namespace CompileService.Http

open CompileService.Base

/-- The row that `rowFormat` writes: the link ends at its quote, the other texts at the next tag. -/
def rowForm : Form UInt8 :=
  ⟨ascii "<tr>  <td><a href=\"", [⟨0x22, ascii ">"⟩, ⟨0x3c, ascii "/a></td><td>"⟩, ⟨0x3c, ascii "/td><td>"⟩,
    ⟨0x3c, ascii "/td><td>"⟩, ⟨0x3c, ascii "/td></tr>"⟩]⟩

/-- The page that `pageFormat` writes around a table. -/
def pageForm : DocumentForm UInt8 where
  head := ⟨pageFormat.take 161, [⟨0x3c, ascii "/h3>    " ++ tableBegin ++ tableTitle⟩]⟩
  row := rowForm
  tail := tableEnd ++ ascii "  </body></html>"
  opened := by decide
  apart := by decide

def Row.texts (r : Row) : List CStr := [r.link, r.name, r.type, r.size, r.time]

def Row.ofTexts (ts : List CStr) : Row := ⟨ts.getD 0 [], ts.getD 1 [], ts.getD 2 [], ts.getD 3 [], ts.getD 4 []⟩

def readPage (w : CStr) : Option (CStr × List Row) :=
  (pageForm.read w).map fun p => (p.1.headD [], p.2.map Row.ofTexts)

/-- No text of the row has the character at which it ends. -/
structure Row.Plain (r : Row) : Prop where
  link : 0x22 ∉ r.link
  name : 0x3c ∉ r.name
  type : 0x3c ∉ r.type
  size : 0x3c ∉ r.size
  time : 0x3c ∉ r.time

instance Row.decidablePlain (r : Row) : Decidable r.Plain :=
  decidable_of_iff (0x22 ∉ r.link ∧ 0x3c ∉ r.name ∧ 0x3c ∉ r.type ∧ 0x3c ∉ r.size ∧ 0x3c ∉ r.time)
    ⟨fun ⟨hlink, hname, htype, hsize, htime⟩ => ⟨hlink, hname, htype, hsize, htime⟩,
      fun h => ⟨h.link, h.name, h.type, h.size, h.time⟩⟩

section
variable {r : Row} {ts : List CStr} {path w : CStr} {rs : List Row}

/-! ## The forms -/

theorem rowForm_write (r : Row) : rowForm.write r.texts = r.text := by
  have hlink : ascii "\">" = 0x22 :: ascii ">" := by decide
  have hname : ascii "</a></td><td>" = 0x3c :: ascii "/a></td><td>" := by decide
  have hcell : ascii "</td><td>" = 0x3c :: ascii "/td><td>" := by decide
  have hend : ascii "</td></tr>" = 0x3c :: ascii "/td></tr>" := by decide
  simp only [Form.write, rowForm, Row.texts, writeFields, Row.text, hlink, hname, hcell, hend, List.append_assoc,
    List.append_nil, List.cons_append]

theorem pageForm_write (path : CStr) (rs : List Row) : pageForm.write [path] (rs.map Row.texts) = pageText path rs := by
  obtain ⟨hformat, h25⟩ : pageFormat = pageFormat.take 161 ++ (ascii "%s" ++ (0x3c :: ascii "/h3>    " ++ (ascii "%s" ++
      ascii "  </body></html>"))) ∧
      0x25 ∉ pageFormat.take 161 ∧ 0x25 ∉ 0x3c :: ascii "/h3>    " ∧ 0x25 ∉ ascii "  </body></html>" := by
    decide +kernel
  have hrows : (rs.map Row.texts).flatMap rowForm.write = rs.flatMap Row.text := by
    rw [List.flatMap_map]
    exact List.flatMap_congr fun r _ => rowForm_write r
  have hpage : pageText path rs = pageFormat.take 161 ++ (path ++ (0x3c :: ascii "/h3>    " ++
      (tableText rs ++ ascii "  </body></html>"))) := by
    conv_lhs => rw [pageText, hformat, printf_text h25.1, printf_s, printf_text h25.2.1, printf_s, printf_end _ h25.2.2]
  rw [hpage, DocumentForm.write, pageForm, hrows]
  simp only [Form.write, writeFields, tableText, List.append_assoc, List.append_nil, List.cons_append]

theorem allows_texts : rowForm.Allows r.texts ↔ r.Plain := by
  simp only [Form.Allows, rowForm, Row.texts, List.forall₂_cons, List.forall₂_nil_left_iff, and_true]
  constructor
  · rintro ⟨hlink, hname, htype, hsize, htime⟩
    exact ⟨hlink, hname, htype, hsize, htime⟩
  · intro h
    exact ⟨h.link, h.name, h.type, h.size, h.time⟩

theorem texts_ofTexts (h : rowForm.Allows ts) : (Row.ofTexts ts).texts = ts := by
  have hlen : ts.length = 5 := h.length_eq.symm
  match ts, hlen with
  | [_, _, _, _, _], _ => rfl

/-! ## Pages -/

/-- The reader is the inverse of the writer: it gives what the page was made of, and it does so if no text has the
character at which it ends. -/
theorem readPage_eq_some_iff :
    readPage w = some (path, rs) ↔ (0x3c ∉ path ∧ ∀ r ∈ rs, r.Plain) ∧ w = pageText path rs := by
  rw [readPage, Option.map_eq_some_iff]
  constructor
  · rintro ⟨⟨ts, tss⟩, hread, heq⟩
    obtain ⟨⟨hhead, hrows⟩, rfl⟩ := DocumentForm.read_eq_some_iff.mp hread
    obtain ⟨rfl, rfl⟩ := Prod.mk.inj heq
    have hback : (tss.map Row.ofTexts).map Row.texts = tss := by
      rw [List.map_map]
      exact (List.map_congr_left fun ts hts => texts_ofTexts (hrows ts hts)).trans (List.map_id _)
    have hone : ts = [ts.headD []] := by
      have hlen : ts.length = 1 := hhead.length_eq.symm
      obtain ⟨t, rfl⟩ := List.length_eq_one_iff.mp hlen
      rfl
    rw [hone] at hhead
    refine ⟨⟨(List.forall₂_cons.mp hhead).1, fun r hr => ?_⟩, ?_⟩
    · obtain ⟨ts, hts, rfl⟩ := List.mem_map.mp hr
      rw [← allows_texts, texts_ofTexts (hrows ts hts)]
      exact hrows ts hts
    · rw [← pageForm_write, hback, ← hone]
  · rintro ⟨⟨hpath, hrows⟩, rfl⟩
    refine ⟨([path], rs.map Row.texts), DocumentForm.read_eq_some_iff.mpr ⟨⟨?_, ?_⟩, ?_⟩, ?_⟩
    · exact .cons hpath .nil
    · intro ts hts
      obtain ⟨r, hr, rfl⟩ := List.mem_map.mp hts
      exact allows_texts.mpr (hrows r hr)
    · rw [pageForm_write]
    · rw [List.map_map]
      exact congrArg (Prod.mk path) ((List.map_congr_left fun _ _ => rfl).trans (List.map_id rs))

/-- The round trip of a page. With memory for all of it, the page that is put together from some rows is read back as
its path and these rows if and only if no text of it has the character at which it ends. -/
theorem page_reads_back {heap : PageHeap} {rows : List RowInfo} (h : Builds heap path rows rs) :
    ∃ page w, buildPage heap path rows = .ok (some page) ∧ cstr page = .ok w ∧
      (readPage w = some (path, rs) ↔ 0x3c ∉ path ∧ ∀ r ∈ rs, r.Plain) := by
  obtain ⟨page, hpage, hw⟩ := h.written
  refine ⟨page, _, hpage, hw, ?_⟩
  rw [readPage_eq_some_iff]
  exact and_iff_left rfl

end

/-- A directory and a file; a quote may stand in a name, and a tag in a link. -/
theorem page_reads_back_two :
    let docs : Row := ⟨ascii "/srv/docs", ascii "docs", ascii "Dir", ascii "3 Item", ascii "noon"⟩
    let file : Row := ⟨ascii "/srv/<1", ascii "the \"first\"", ascii "File", ascii "1 Byte", ascii "12:01"⟩
    ∃ page w, buildPage (.filled RowInfo.zeroed) (ascii "/srv") [.ofRow docs, .ofRow file] = .ok (some page) ∧
      cstr page = .ok w ∧ readPage w = some (ascii "/srv", [docs, file]) := by
  intro docs file
  have hdocs : (RowInfo.ofRow docs).Reads docs := RowInfo.ofRow_reads (by decide)
  have hfile : (RowInfo.ofRow file).Reads file := RowInfo.ofRow_reads (by decide)
  have hlen : (ascii "/srv").length + ([docs, file].flatMap Row.text).length < 2 ^ 30 := by
    have hone := hdocs.length_text_lt
    have htwo := hfile.length_text_lt
    have hpath : (ascii "/srv").length = 4 := rfl
    rw [List.flatMap_cons, List.flatMap_singleton, List.length_append]
    omega
  obtain ⟨page, w, hpage, hw, hiff⟩ :=
    page_reads_back (builds_short (by decide) (.cons hdocs (.cons hfile .nil)) hlen)
  exact ⟨page, w, hpage, hw, hiff.mpr (by decide)⟩

end CompileService.Http
