import CompileService.Base.CArray
import CompileService.Base.Printf

/-!
# The pages

`page.c`: a table grows row by row, and a page is made from a finished table. All texts lie in blocks of exactly the
size that is computed for them.
-/

namespace CompileService.Http

open CompileService.Base

structure RowInfo where
  link : CArray 2048
  name : CArray 255
  type : CArray 32
  size : CArray 32
  time : CArray 32
deriving DecidableEq

/-- `sizeof(RowInfo)`. -/
def sizeofRowInfo : Nat := 2048 + 255 + 32 + 32 + 32

/-- A row after `calloc`. -/
def RowInfo.zeroed : RowInfo := ⟨CArray.zeroed, CArray.zeroed, CArray.zeroed, CArray.zeroed, CArray.zeroed⟩

/-! ## Texts -/

def pageFormat : CStr := [
  "<!DOCTYPE html>",
  "<html>",
  "  <head>",
  "    <meta charset=\"utf-8\">",
  "    <title>DownLoader Server</title>",
  "  </head>",
  "  <body>",
  "    <h1> Http File Server</h1>",
  "    <hr/>",
  "    <h3>Path: %s</h3>",
  "    %s",
  "  </body>",
  "</html>"].flatMap ascii

def errFormat : CStr := [
  "<!DOCTYPE html>",
  "<html>",
  "  <head>",
  "    <meta charset=\"utf-8\">",
  "    <title>DownLoader</title>",
  "  </head>",
  "  <body>",
  "    <h1> Http File Server</h1>",
  "    <hr/>",
  "    <h2>OOPS!!!</h2>",
  "    <h3>Path: '%s' is NOT available...</h3>",
  "  </body>",
  "</html>"].flatMap ascii

def tableBegin : CStr := ascii "<table border=\"1\" width=\"100%\">"

def tableTitle : CStr := [
  "  <tr>",
  "    <th>File Name</th><th>File Type</th><th>File Size</th><th>Modify Time</th>",
  "  </tr>"].flatMap ascii

def rowFormat : CStr := [
  "<tr>",
  "  <td><a href=\"%s\">%s</a></td><td>%s</td><td>%s</td><td>%s</td>",
  "</tr>"].flatMap ascii

def tableEnd : CStr := [
  "  </tr>",
  "</table>"].flatMap ascii

/-! ## Functions -/

def toPageString (malloc : Malloc) (path : CStr) (ts : Option (List UInt8)) : Exec (Option (List UInt8)) :=
  match ts with
  | none => .ok none
  | some ts => do
      let s ← cstr ts
      match malloc (pageFormat.length + path.length + s.length + 1) with
      | none => return none
      | some ret => return some (← putStr ret.toList 0 (printf pageFormat [.str path, .str s]))

def createTable (malloc : Malloc) : Exec (Option (List UInt8)) :=
  match malloc (tableTitle.length + 1) with
  | none => .ok none
  | some ret => do return some (← putStr ret.toList 0 tableTitle)

def toTableString (malloc : Malloc) (table : Option (List UInt8)) : Exec (Option (List UInt8)) :=
  match table with
  | none => .ok none
  | some table => do
      let s ← cstr table
      match malloc (s.length + tableBegin.length + tableEnd.length + 1) with
      | none => return none
      | some ret =>
          let ret ← putStr ret.toList 0 tableBegin
          let ret ← putStr ret tableBegin.length s
          return some (← putStr ret (tableBegin.length + s.length : Nat) tableEnd)

/-- `InsertRow`; `len` is an `int`. A row that finds no memory is left out. -/
def insertRow (buf grow : Malloc) (table : Option (List UInt8)) (info : Option RowInfo) :
    Exec (Option (List UInt8)) :=
  match table, info with
  | some t, some info => do
      let len := toInt32 (← cstr t).length
      match buf (rowFormat.length + sizeofRowInfo) with
      | none => return some t
      | some buf =>
          let args := [.str (← info.link.text), .str (← info.name.text), .str (← info.type.text),
            .str (← info.size.text), .str (← info.time.text)]
          let s ← cstr (← putStr buf.toList 0 (printf rowFormat args))
          match grow.realloc t (toSize (len + s.length + 1)) with
          | none => return some t
          | some ret => return some (← putStr ret len s)
  | _, _ => .ok none

def toErrString (malloc : Malloc) (path : CStr) : Exec (Option (List UInt8)) :=
  match malloc (errFormat.length + path.length + 1) with
  | none => .ok none
  | some ret => do return some (← putStr ret.toList 0 (printf errFormat [.str path]))

/-! ## What they write -/

/-- The texts of a row. -/
structure Row where
  link : CStr
  name : CStr
  type : CStr
  size : CStr
  time : CStr
deriving DecidableEq, Repr

/-- The arrays of `info` hold the texts of `r`. -/
structure RowInfo.Reads (info : RowInfo) (r : Row) : Prop where
  link : info.link.text = .ok r.link
  name : info.name.text = .ok r.name
  type : info.type.text = .ok r.type
  size : info.size.text = .ok r.size
  time : info.time.text = .ok r.time

theorem RowInfo.zeroed_reads : RowInfo.zeroed.Reads ⟨[], [], [], [], []⟩ :=
  ⟨by decide, by decide, by decide, by decide, by decide⟩

/-- Each text is a C string that its array has room for. -/
def Row.Fits (r : Row) : Prop :=
  (0 ∉ r.link ∧ r.link.length < 2048) ∧ (0 ∉ r.name ∧ r.name.length < 255) ∧ (0 ∉ r.type ∧ r.type.length < 32) ∧
    (0 ∉ r.size ∧ r.size.length < 32) ∧ 0 ∉ r.time ∧ r.time.length < 32

instance (r : Row) : Decidable r.Fits := inferInstanceAs (Decidable (_ ∧ _))

def RowInfo.ofRow (r : Row) : RowInfo :=
  ⟨.ofText r.link, .ofText r.name, .ofText r.type, .ofText r.size, .ofText r.time⟩

theorem RowInfo.ofRow_reads {r : Row} (h : r.Fits) : (RowInfo.ofRow r).Reads r := by
  obtain ⟨hlink, hname, htype, hsize, htime⟩ := h
  exact ⟨CArray.ofText_text hlink.1 hlink.2, CArray.ofText_text hname.1 hname.2, CArray.ofText_text htype.1 htype.2,
    CArray.ofText_text hsize.1 hsize.2, CArray.ofText_text htime.1 htime.2⟩

def Row.text (r : Row) : CStr :=
  ascii "<tr>  <td><a href=\"" ++ r.link ++ ascii "\">" ++ r.name ++ ascii "</a></td><td>" ++ r.type ++
    ascii "</td><td>" ++ r.size ++ ascii "</td><td>" ++ r.time ++ ascii "</td></tr>"

def tableText (rows : List Row) : CStr := tableBegin ++ (tableTitle ++ rows.flatMap Row.text) ++ tableEnd

def pageText (path : CStr) (rows : List Row) : CStr := printf pageFormat [.str path, .str (tableText rows)]

def errText (path : CStr) : CStr := printf errFormat [.str path]

theorem length_pageFormat : pageFormat.length = 190 := by
  rw [pageFormat, List.length_flatMap]
  decide

theorem length_errFormat : errFormat.length = 219 := by
  rw [errFormat, List.length_flatMap]
  decide

theorem length_rowFormat : rowFormat.length = 72 := by decide

theorem length_tableTitle : tableTitle.length = 91 := by decide

theorem length_table_ends : tableBegin.length = 31 ∧ tableEnd.length = 15 := by decide

theorem rowFormat_eq : rowFormat = ascii "<tr>  <td><a href=\"" ++ (ascii "%s" ++ (ascii "\">" ++ (ascii "%s" ++
    (ascii "</a></td><td>" ++ (ascii "%s" ++ (ascii "</td><td>" ++ (ascii "%s" ++ (ascii "</td><td>" ++
      (ascii "%s" ++ ascii "</td></tr>"))))))))) := by
  decide

theorem printf_rowFormat (r : Row) :
    printf rowFormat [.str r.link, .str r.name, .str r.type, .str r.size, .str r.time] = r.text := by
  have hlink : 0x25 ∉ ascii "<tr>  <td><a href=\"" := by decide
  have hname : 0x25 ∉ ascii "\">" := by decide
  have htype : 0x25 ∉ ascii "</a></td><td>" := by decide
  have hcell : 0x25 ∉ ascii "</td><td>" := by decide
  have hend : 0x25 ∉ ascii "</td></tr>" := by decide
  rw [rowFormat_eq, printf_text hlink, printf_s, printf_text hname, printf_s, printf_text htype, printf_s,
    printf_text hcell, printf_s, printf_text hcell, printf_s, printf_end _ hend]
  simp only [Row.text, List.append_assoc]

theorem printf_pageFormat : ∃ w₁ w₂ w₃ : CStr, w₁.length + w₂.length + w₃.length + 4 = pageFormat.length ∧
    0 ∉ w₁ ++ w₂ ++ w₃ ∧ ∀ path s, printf pageFormat [.str path, .str s] = w₁ ++ path ++ w₂ ++ s ++ w₃ := by
  obtain ⟨w₁, w₂, w₃, hformat, h25, h0⟩ : ∃ w₁ w₂ w₃, pageFormat = w₁ ++ (ascii "%s" ++ (w₂ ++ (ascii "%s" ++ w₃))) ∧
      0x25 ∉ w₁ ++ w₂ ++ w₃ ∧ 0 ∉ w₁ ++ w₂ ++ w₃ := by
    refine ⟨pageFormat.take 161, ascii "</h3>    ", ascii "  </body></html>", ?_⟩
    set_option maxRecDepth 2000 in
    decide
  have hs : (ascii "%s").length = 2 := rfl
  simp only [List.mem_append, not_or] at h25
  refine ⟨w₁, w₂, w₃, ?_, h0, fun path s => ?_⟩
  · simp only [hformat, List.length_append, hs]
    omega
  · rw [hformat, printf_text h25.1.1, printf_s, printf_text h25.1.2, printf_s, printf_end _ h25.2]
    simp only [List.append_assoc]

theorem printf_errFormat : ∃ w₁ w₂ : CStr, w₁.length + w₂.length + 2 = errFormat.length ∧ 0 ∉ w₁ ++ w₂ ∧
    ∀ path, printf errFormat [.str path] = w₁ ++ path ++ w₂ := by
  obtain ⟨w₁, w₂, hformat, h25, h0⟩ : ∃ w₁ w₂, errFormat = w₁ ++ (ascii "%s" ++ w₂) ∧ 0x25 ∉ w₁ ++ w₂ ∧
      0 ∉ w₁ ++ w₂ := by
    refine ⟨errFormat.take 175, ascii "' is NOT available...</h3>  </body></html>", ?_⟩
    set_option maxRecDepth 2000 in
    decide
  have hs : (ascii "%s").length = 2 := rfl
  simp only [List.mem_append, not_or] at h25
  refine ⟨w₁, w₂, ?_, h0, fun path => ?_⟩
  · simp only [hformat, List.length_append, hs]
    omega
  · rw [hformat, printf_text h25.1, printf_s, printf_end _ h25.2]
    simp only [List.append_assoc]

theorem length_printf_pageFormat (path s : CStr) :
    (printf pageFormat [.str path, .str s]).length + 4 = pageFormat.length + path.length + s.length := by
  obtain ⟨w₁, w₂, w₃, hformat, _, htext⟩ := printf_pageFormat
  rw [htext]
  simp only [List.length_append]
  omega

theorem length_errText (path : CStr) : (errText path).length + 2 = errFormat.length + path.length := by
  obtain ⟨w₁, w₂, hformat, _, htext⟩ := printf_errFormat
  rw [errText, htext]
  simp only [List.length_append]
  omega

theorem Row.length_text (r : Row) : r.text.length + 10 = rowFormat.length +
    (r.link.length + r.name.length + r.type.length + r.size.length + r.time.length) := by
  have hs : (ascii "%s").length = 2 := rfl
  simp only [rowFormat_eq, Row.text, List.length_append, hs]
  omega

namespace RowInfo.Reads

variable {info : RowInfo} {r : Row}

theorem length_text (h : info.Reads r) : r.text.length < rowFormat.length + sizeofRowInfo := by
  have hlen := r.length_text
  have hlink := (CArray.text_ok h.link).2.1
  have hname := (CArray.text_ok h.name).2.1
  have htype := (CArray.text_ok h.type).2.1
  have hsize := (CArray.text_ok h.size).2.1
  have htime := (CArray.text_ok h.time).2.1
  unfold sizeofRowInfo
  omega

theorem length_text_lt (h : info.Reads r) : r.text.length < 2 ^ 12 := by
  have htext := h.length_text
  rw [length_rowFormat] at htext
  exact Nat.lt_of_lt_of_le htext (by decide)

theorem nul_notMem_text (h : info.Reads r) : 0 ∉ r.text := by
  have hlink : 0 ∉ ascii "<tr>  <td><a href=\"" := by decide
  have hname : 0 ∉ ascii "\">" := by decide
  have htype : 0 ∉ ascii "</a></td><td>" := by decide
  have hcell : 0 ∉ ascii "</td><td>" := by decide
  have hend : 0 ∉ ascii "</td></tr>" := by decide
  simp only [Row.text, List.mem_append, not_or]
  exact ⟨⟨⟨⟨⟨⟨⟨⟨⟨⟨hlink, (CArray.text_ok h.link).1⟩, hname⟩, (CArray.text_ok h.name).1⟩, htype⟩,
    (CArray.text_ok h.type).1⟩, hcell⟩, (CArray.text_ok h.size).1⟩, hcell⟩, (CArray.text_ok h.time).1⟩, hend⟩

end RowInfo.Reads

section
variable {malloc buf grow : Malloc} {t : List UInt8} {s : CStr} {info : RowInfo} {r : Row}

theorem createTable_ok (hmalloc : malloc (tableTitle.length + 1) ≠ none) :
    ∃ t, createTable malloc = .ok (some t) ∧ cstr t = .ok tableTitle := by
  have h0 : 0 ∉ tableTitle := by decide
  obtain ⟨blk, hblk⟩ := Option.ne_none_iff_exists'.mp hmalloc
  have hfit : tableTitle.length < blk.toList.length := by
    rw [Vector.length_toList]
    exact Nat.lt_succ_self _
  obtain ⟨t, hput, ht, _⟩ := putStr_start h0 hfit
  exact ⟨t, by simp only [createTable, hblk, hput, Exec.ok_bind]; rfl, ht⟩

/-- A table that was created holds the title. -/
theorem createTable_text (h : createTable malloc = .ok (some t)) : cstr t = .ok tableTitle := by
  have hmalloc : malloc (tableTitle.length + 1) ≠ none := by
    intro hnone
    rw [createTable, hnone] at h
    cases h
  obtain ⟨t', hrun, ht'⟩ := createTable_ok hmalloc
  rwa [← Option.some.inj (Except.ok.inj (hrun.symm.trans h))]

/-- The size that `InsertRow` asks `realloc` for: `len` is an `int`. -/
def growSize (s : CStr) (r : Row) : Nat := toSize (toInt32 s.length + r.text.length + 1)

/-- A table beyond `int` finds no memory for another row. -/
theorem growSize_large (hinfo : info.Reads r) (hlo : 2 ^ 31 ≤ s.length) (hhi : s.length < 2 ^ 31 + 2 ^ 16) :
    ptrdiffMax < growSize s r := by
  have htext := hinfo.length_text_lt
  have hint : toInt32 s.length = s.length - 2 ^ 32 := toInt32_of_large (by omega) (by omega)
  have hneg := toSize_of_neg (x := toInt32 s.length + r.text.length + 1) (by omega) (by omega)
  unfold growSize ptrdiffMax
  omega

theorem growSize_small (hinfo : info.Reads r) (h : s.length < 2 ^ 31) :
    growSize s r = s.length + r.text.length + 1 := by
  have htext := hinfo.length_text_lt
  rw [growSize, toInt32_of_range (by omega) (by omega), toSize_of_range (by omega) (by omega)]
  omega

/-- What `InsertRow` does with the row, once its text is written. -/
theorem insertRow_eq (hbuf : buf (rowFormat.length + sizeofRowInfo) ≠ none) (ht : cstr t = .ok s)
    (hinfo : info.Reads r) :
    insertRow buf grow (some t) (some info) =
      match grow.realloc t (growSize s r) with
      | none => .ok (some t)
      | some ret => (putStr ret (toInt32 s.length) r.text).map some := by
  obtain ⟨blk, hblk⟩ := Option.ne_none_iff_exists'.mp hbuf
  have hfit : r.text.length < blk.toList.length := by
    rw [Vector.length_toList]
    exact hinfo.length_text
  obtain ⟨b, hput, hb, _⟩ := putStr_start hinfo.nul_notMem_text hfit
  simp only [insertRow, ht, hblk, hinfo.link, hinfo.name, hinfo.type, hinfo.size, hinfo.time, printf_rowFormat,
    Exec.ok_bind, hput, hb, growSize]
  cases grow.realloc t (toSize (toInt32 s.length + r.text.length + 1)) with
  | none => rfl
  | some ret => exact Exec.bind_ok_eq_map _ some

/-- Without memory the table stays as it is. -/
theorem insertRow_stays (ht : cstr t = .ok s) (hinfo : info.Reads r)
    (h : buf (rowFormat.length + sizeofRowInfo) = none ∨ grow (growSize s r) = none) :
    insertRow buf grow (some t) (some info) = .ok (some t) := by
  by_cases hbuf : buf (rowFormat.length + sizeofRowInfo) = none
  · simp only [insertRow, ht, hbuf, Exec.ok_bind]
    rfl
  · rw [insertRow_eq hbuf ht hinfo, Malloc.realloc, h.resolve_left hbuf]
    rfl

theorem insertRow_grows (hbuf : buf (rowFormat.length + sizeofRowInfo) ≠ none)
    (hgrow : grow (s.length + r.text.length + 1) ≠ none) (ht : cstr t = .ok s) (hinfo : info.Reads r)
    (hlen : s.length < 2 ^ 31) :
    ∃ t', insertRow buf grow (some t) (some info) = .ok (some t') ∧ cstr t' = .ok (s ++ r.text) := by
  obtain ⟨hs0, rest, rfl⟩ := cstr_ok ht
  have hint : toInt32 s.length = (s.length : Nat) := toInt32_of_range (by omega) (by omega)
  obtain ⟨ret, hrealloc, hretlen, hkeep⟩ := Malloc.realloc_some hgrow (s ++ 0 :: rest)
  have hrets : ret.take s.length = s := by
    rw [hkeep s.length (by omega) (by rw [List.length_append]; omega), List.take_left]
  refine ⟨writeAt ret s.length (r.text ++ [0]), ?_, cstr_writeAt hrets hs0 hinfo.nul_notMem_text⟩
  rw [insertRow_eq hbuf ht hinfo, growSize_small hinfo hlen, hrealloc]
  simp only [hint]
  rw [putStr_eq (by omega)]
  rfl

theorem toTableString_ok (hmalloc : malloc (s.length + tableBegin.length + tableEnd.length + 1) ≠ none)
    (ht : cstr t = .ok s) :
    ∃ t', toTableString malloc (some t) = .ok (some t') ∧ cstr t' = .ok (tableBegin ++ s ++ tableEnd) := by
  have hbegin0 : 0 ∉ tableBegin := by decide
  have hend0 : 0 ∉ tableEnd := by decide
  obtain ⟨hs0, _⟩ := cstr_ok ht
  have hts0 : 0 ∉ tableBegin ++ s := fun h => (List.mem_append.mp h).elim hbegin0 hs0
  obtain ⟨blk, hblk⟩ := Option.ne_none_iff_exists'.mp hmalloc
  have hsize : blk.toList.length = s.length + tableBegin.length + tableEnd.length + 1 := Vector.length_toList
  obtain ⟨b₁, hput₁, _, hlen₁, htake₁⟩ := putStr_start hbegin0 (by omega : tableBegin.length < blk.toList.length)
  obtain ⟨b₂, hput₂, _, hlen₂, htake₂⟩ :=
    putStr_after htake₁ hbegin0 hs0 (by omega : tableBegin.length + s.length < b₁.length)
  have hfit₃ : (tableBegin ++ s).length + tableEnd.length < b₂.length := by
    rw [List.length_append]
    omega
  obtain ⟨b₃, hput₃, hcstr, _⟩ := putStr_after htake₂ hts0 hend0 hfit₃
  rw [List.length_append] at hput₃
  exact ⟨b₃, by simp only [toTableString, ht, hblk, hput₁, hput₂, hput₃, Exec.ok_bind]; rfl, hcstr⟩

theorem toPageString_ok {path : CStr} (hmalloc : malloc (pageFormat.length + path.length + s.length + 1) ≠ none)
    (hpath : 0 ∉ path) (ht : cstr t = .ok s) :
    ∃ t', toPageString malloc path (some t) = .ok (some t') ∧
      cstr t' = .ok (printf pageFormat [.str path, .str s]) := by
  obtain ⟨w₁, w₂, w₃, hformat, h0, htext⟩ := printf_pageFormat
  have hsize := length_pageFormat
  obtain ⟨hs0, _⟩ := cstr_ok ht
  obtain ⟨blk, hblk⟩ := Option.ne_none_iff_exists'.mp hmalloc
  have hnul : 0 ∉ printf pageFormat [.str path, .str s] := by
    rw [htext]
    simp only [List.mem_append, not_or] at h0 ⊢
    exact ⟨⟨⟨⟨h0.1.1, hpath⟩, h0.1.2⟩, hs0⟩, h0.2⟩
  have hfit : (printf pageFormat [.str path, .str s]).length < blk.toList.length := by
    rw [htext, Vector.length_toList]
    simp only [List.length_append]
    omega
  obtain ⟨b, hput, hcstr, _⟩ := putStr_start hnul hfit
  exact ⟨b, by simp only [toPageString, ht, hblk, hput, Exec.ok_bind]; rfl, hcstr⟩

theorem toErrString_ok {path : CStr} (hmalloc : malloc (errFormat.length + path.length + 1) ≠ none)
    (hpath : 0 ∉ path) : ∃ t', toErrString malloc path = .ok (some t') ∧ cstr t' = .ok (errText path) := by
  obtain ⟨w₁, w₂, hformat, h0, htext⟩ := printf_errFormat
  obtain ⟨blk, hblk⟩ := Option.ne_none_iff_exists'.mp hmalloc
  have hnul : 0 ∉ errText path := by
    rw [errText, htext]
    simp only [List.mem_append, not_or] at h0 ⊢
    exact ⟨⟨h0.1, hpath⟩, h0.2⟩
  have hfit : (errText path).length < blk.toList.length := by
    rw [errText, htext, Vector.length_toList]
    simp only [List.length_append]
    omega
  obtain ⟨b, hput, hcstr, _⟩ := putStr_start hnul hfit
  exact ⟨b, by unfold errText at hput; simp only [toErrString, hblk, hput, Exec.ok_bind]; rfl, hcstr⟩

end

end CompileService.Http
