import CompileService.Http.Delivery

/-!
# The buffers of the pages

Each text is written into a block whose size is computed from the lengths of its parts. The formats' own conversion
characters or a few bytes of slack leave room for the terminator and for the digits of a length.
-/

namespace CompileService.Http

open CompileService.Base CompileService.Wire

/-- Both allocations of the `n`-th `InsertRow` succeed, for the row `r` behind the text `s`. -/
def PageHeap.Inserts (heap : PageHeap) (n : Nat) (s : CStr) (r : Row) : Prop :=
  heap.rowBuf n (rowFormat.length + sizeofRowInfo) ≠ none ∧ heap.rowGrow n (growSize s r) ≠ none

instance (heap : PageHeap) (n : Nat) (s : CStr) (r : Row) : Decidable (heap.Inserts n s r) :=
  inferInstanceAs (Decidable (_ ∧ _))

/-- The rows whose allocations succeed; the first of `rs` is the `n`-th row and comes behind the text `s`. -/
def PageHeap.kept (heap : PageHeap) : Nat → CStr → List Row → List Row
  | _, _, [] => []
  | n, s, r :: rs => if heap.Inserts n s r then r :: heap.kept (n + 1) (s ++ r.text) rs else heap.kept (n + 1) s rs

/-- The title and the rows that are kept. -/
def PageHeap.keptText (heap : PageHeap) (rs : List Row) : CStr :=
  tableTitle ++ (heap.kept 0 tableTitle rs).flatMap Row.text

section
variable {heap : PageHeap} {n : Nat} {t : List UInt8} {s : CStr} {info : RowInfo} {r : Row} {rows : List RowInfo}
  {rs : List Row}

/-! ## Rows that find memory -/

/-- An insertion that fails leaves the table, which the caller still holds. -/
theorem insertRow_failed (ht : cstr t = .ok s) (hinfo : info.Reads r) (h : ¬ heap.Inserts n s r) :
    insertRow (heap.rowBuf n) (heap.rowGrow n) (some t) (some info) = .ok (some t) := by
  refine insertRow_stays ht hinfo ?_
  by_cases hbuf : heap.rowBuf n (rowFormat.length + sizeofRowInfo) = none
  · exact Or.inl hbuf
  · exact Or.inr (not_not.mp fun hgrow => h ⟨hbuf, hgrow⟩)

/-- An insertion that finds memory appends the whole row, and the table is below `int` before it. -/
theorem insertRow_inserted (hbounded : ∀ m, ptrdiffMax < m → heap.rowGrow n m = none) (ht : cstr t = .ok s)
    (hinfo : info.Reads r) (hs : s.length < 2 ^ 31 + 2 ^ 12) (h : heap.Inserts n s r) :
    ∃ t', insertRow (heap.rowBuf n) (heap.rowGrow n) (some t) (some info) = .ok (some t') ∧
      cstr t' = .ok (s ++ r.text) ∧ (s ++ r.text).length < 2 ^ 31 + 2 ^ 12 := by
  obtain ⟨hbuf, hgrow⟩ := h
  have hsmall : s.length < 2 ^ 31 := by
    by_contra hlarge
    exact hgrow (hbounded _ (growSize_large hinfo (Nat.not_lt.mp hlarge) (by omega)))
  have htext := hinfo.length_text_lt
  rw [growSize_small hinfo hsmall] at hgrow
  obtain ⟨t', hrun, ht'⟩ := insertRow_grows hbuf hgrow ht hinfo hsmall
  exact ⟨t', hrun, ht', by rw [List.length_append]; omega⟩

/-- The loop over the rows: the table holds the rows that found memory. -/
theorem insertRows_kept (hbounded : ∀ n m, ptrdiffMax < m → heap.rowGrow n m = none)
    (hrows : List.Forall₂ RowInfo.Reads rows rs) (n : Nat) (ht : cstr t = .ok s) (hs : s.length < 2 ^ 31 + 2 ^ 12) :
    ∃ t', insertRows heap n rows (some t) = .ok (some t') ∧
      cstr t' = .ok (s ++ (heap.kept n s rs).flatMap Row.text) := by
  induction hrows generalizing n t s with
  | nil => exact ⟨t, rfl, by rw [ht, PageHeap.kept, List.flatMap_nil, List.append_nil]⟩
  | @cons row r rows rs hrow _ ih =>
      by_cases h : heap.Inserts n s r
      · obtain ⟨t₁, hrun, ht₁, hs₁⟩ := insertRow_inserted (hbounded n) ht hrow hs h
        obtain ⟨t', hrun', ht'⟩ := ih (n + 1) ht₁ hs₁
        refine ⟨t', by rw [insertRows, hrun, Exec.ok_bind, hrun'], ?_⟩
        rw [ht', PageHeap.kept, if_pos h, List.flatMap_cons, List.append_assoc]
      · have hrun := insertRow_failed ht hrow h
        obtain ⟨t', hrun', ht'⟩ := ih (n + 1) ht hs
        refine ⟨t', by rw [insertRows, hrun, Exec.ok_bind, hrun'], ?_⟩
        rw [ht', PageHeap.kept, if_neg h]

/-- Rows are inserted whole or not at all. Whichever of the allocations of `InsertRow` fail, `ToTableString` returns
the rows for which both succeeded, in their order, and an insertion that fails leaves the table. `realloc` is assumed to
refuse sizes that no block can have. -/
theorem table_all_or_nothing (hbounded : ∀ n m, ptrdiffMax < m → heap.rowGrow n m = none)
    (htable : createTable heap.table = .ok (some t)) (hrows : List.Forall₂ RowInfo.Reads rows rs) :
    (∃ t', insertRows heap 0 rows (some t) = .ok (some t') ∧ cstr t' = .ok (heap.keptText rs) ∧
      (heap.tableString ((heap.keptText rs).length + tableBegin.length + tableEnd.length + 1) ≠ none →
        ∃ ts, toTableString heap.tableString (some t') = .ok (some ts) ∧
          cstr ts = .ok (tableText (heap.kept 0 tableTitle rs)))) ∧
    ∀ n t s info r, cstr t = .ok s → RowInfo.Reads info r → ¬ heap.Inserts n s r →
      insertRow (heap.rowBuf n) (heap.rowGrow n) (some t) (some info) = .ok (some t) := by
  have hlen := length_tableTitle
  obtain ⟨t', hrun, ht'⟩ := insertRows_kept hbounded hrows 0 (createTable_text htable) (by omega)
  exact ⟨⟨t', hrun, ht', fun hblk => toTableString_ok hblk ht'⟩,
    fun n t s info r ht hinfo h => insertRow_failed ht hinfo h⟩

end

/-- No memory for the first row. -/
def PageHeap.secondOnly : PageHeap :=
  ⟨.cleared, true, fun n => if n = 1 then .cleared else fun _ => none, fun _ => .cleared, .zeroed, .zeroed, .cleared,
    .cleared⟩

def emptyRow : Row := ⟨[], [], [], [], []⟩

theorem table_second_only : ∃ t t' ts, createTable .cleared = .ok (some t) ∧
    insertRows .secondOnly 0 [RowInfo.zeroed, RowInfo.zeroed] (some t) = .ok (some t') ∧
    toTableString .cleared (some t') = .ok (some ts) ∧ cstr ts = .ok (tableText [emptyRow]) := by
  have hserves := Malloc.cleared_succeeds.serves
  have hbounded : ∀ n m, ptrdiffMax < m → PageHeap.secondOnly.rowGrow n m = none :=
    fun _ => Malloc.cleared_succeeds.bounded
  have hreads : RowInfo.zeroed.Reads emptyRow := RowInfo.zeroed_reads
  have hkept : PageHeap.secondOnly.kept 0 tableTitle [emptyRow, emptyRow] = [emptyRow] := by decide +kernel
  have hsize : (PageHeap.secondOnly.keptText [emptyRow, emptyRow]).length + tableBegin.length + tableEnd.length + 1 ≤
      ptrdiffMax := by
    rw [PageHeap.keptText, hkept]
    decide +kernel
  obtain ⟨t, htable, _⟩ := createTable_ok (hserves (tableTitle.length + 1) (by rw [length_tableTitle]; decide))
  obtain ⟨⟨t', hrun, _, hstring⟩, _⟩ := table_all_or_nothing hbounded htable (.cons hreads (.cons hreads .nil))
  have hcleared : PageHeap.secondOnly.tableString = .cleared := rfl
  rw [hcleared] at hstring
  obtain ⟨ts, hts, htext⟩ := hstring (hserves _ hsize)
  exact ⟨t, t', ts, htable, hrun, hts, hkept ▸ htext⟩

/-! ## Room for the texts -/

section
variable {buf grow : Malloc} {s : CStr} {t : List UInt8} {info : RowInfo} {r : Row}

theorem toPageString_fits (malloc : Malloc) (path : CStr) (ht : cstr t = .ok s) :
    ∃ page, toPageString malloc path (some t) = .ok page := by
  have hlen := length_printf_pageFormat path s
  unfold toPageString
  simp only [ht, Exec.ok_bind]
  split
  · exact ⟨none, rfl⟩
  · rename_i ret _
    have hfit : 0 + (printf pageFormat [.str path, .str s]).length < ret.toList.length := by
      rw [Vector.length_toList]
      omega
    exact ⟨_, by rw [← Int.natCast_zero, putStr_eq hfit]; rfl⟩

theorem toErrString_fits (malloc : Malloc) (path : CStr) : ∃ page, toErrString malloc path = .ok page := by
  have hlen := length_errText path
  unfold errText at hlen
  unfold toErrString
  split
  · exact ⟨none, rfl⟩
  · rename_i ret _
    have hfit : 0 + (printf errFormat [.str path]).length < ret.toList.length := by
      rw [Vector.length_toList]
      omega
    exact ⟨_, by rw [← Int.natCast_zero, putStr_eq hfit]; rfl⟩

theorem createTable_fits (malloc : Malloc) : ∃ t, createTable malloc = .ok t := by
  by_cases hmalloc : malloc (tableTitle.length + 1) = none
  · exact ⟨none, by rw [createTable, hmalloc]⟩
  · exact (createTable_ok hmalloc).imp' some fun _ h => h.1

theorem toTableString_fits (malloc : Malloc) (ht : cstr t = .ok s) :
    ∃ ts, toTableString malloc (some t) = .ok ts := by
  by_cases hmalloc : malloc (s.length + tableBegin.length + tableEnd.length + 1) = none
  · exact ⟨none, by simp only [toTableString, ht, hmalloc, Exec.ok_bind]; rfl⟩
  · exact (toTableString_ok hmalloc ht).imp' some fun _ h => h.1

theorem insertRow_fits (buf grow : Malloc) (ht : cstr t = .ok s) (hs : s.length < 2 ^ 31) (hinfo : info.Reads r) :
    ∃ t', insertRow buf grow (some t) (some info) = .ok t' := by
  by_cases hbuf : buf (rowFormat.length + sizeofRowInfo) = none
  · exact ⟨some t, insertRow_stays ht hinfo (Or.inl hbuf)⟩
  · by_cases hgrow : grow (growSize s r) = none
    · exact ⟨some t, insertRow_stays ht hinfo (Or.inr hgrow)⟩
    · rw [growSize_small hinfo hs] at hgrow
      exact (insertRow_grows hbuf hgrow ht hinfo hs).imp' some fun _ h => h.1

end

theorem pageHead_fits (html : CStr) (resp : Vector UInt8 (pageHttpFormat.length + html.length + 16)) :
    ∃ b, putStr resp.toList 0 (printf pageHttpFormat [.num html.length, .str html]) = .ok b := by
  have hfit : 0 + (printf pageHttpFormat [.num html.length, .str html]).length < resp.toList.length := by
    rw [Vector.length_toList, printf_pageHttpFormat, Nat.zero_add]
    exact length_pageAnswer_lt html
  exact ⟨_, putStr_eq hfit⟩

theorem fileHead_fits (max : Int) (head : Vector UInt8 (fileHttpFormat.length + 32)) :
    ∃ b, putStr head.toList 0 (printf fileHttpFormat [.num max]) = .ok b := by
  have htype : 0x25 ∉ ascii "application/*" := by decide
  have hprintf : printf fileHttpFormat [.num max] = answerText (ascii "application/*") (toInt32 max) [] := by
    have h := printf_httpFormat htype max [] []
    rwa [List.append_nil] at h
  have hlen := length_answerText (ascii "application/*") (toInt32 max) []
  have hdecimal := length_decimal_toInt32 max
  rw [List.length_nil] at hlen
  have hfit : 0 + (printf fileHttpFormat [.num max]).length < head.toList.length := by
    rw [Vector.length_toList, hprintf, fileHttpFormat]
    omega
  exact ⟨_, putStr_eq hfit⟩

/-- Whatever is allocated and sent, `FileReqHandler` does not fault. -/
theorem fileReqHandler_fits {d : Disk} {run : Run} {ap req root : CStr} (out : Outlet)
    (habs : absPath req root = some ap) : ∃ r, d.fileReqHandler run out req root = .ok r := by
  cases hfile : d.openFile ap with
  | none => exact ⟨_, Disk.fileReqHandler_unreadable habs hfile⟩
  | some contents =>
      by_cases halloc : Disk.Allocated run
      · obtain ⟨buf, hbuf, hrun⟩ := Disk.fileReqHandler_sends out halloc habs hfile
        rw [hrun]
        by_cases hpos : ((run.sends out.calls).send (fileHead contents)).1 > 0
        · obtain ⟨ret, hcopy, _⟩ := copyFile_sends run contents
            ⟨out.calls + 1, out.queue ++ ((run.sends out.calls).send (fileHead contents)).2⟩ hbuf hpos
          rw [hcopy]
          exact ⟨_, rfl⟩
        · rw [copyFile, if_neg hpos]
          exact ⟨_, rfl⟩
      · exact ⟨_, Disk.fileReqHandler_unallocated habs halloc⟩

/-- Buffers suffice. Whatever is allocated, no text of `page.c` is written over the end of its block, for strings of any
length and a table below `2 ^ 31` bytes; and neither is the response of `Response`, nor the header block of
`FileReqHandler` for any length of a file. So `Response` gets as far as its send, and `FileReqHandler` to its end. -/
theorem buffers_suffice :
    (∀ (malloc : Malloc) (path : CStr) (t : List UInt8) (s : CStr), cstr t = .ok s →
      ∃ page, toPageString malloc path (some t) = .ok page) ∧
    (∀ (malloc : Malloc) (path : CStr), ∃ page, toErrString malloc path = .ok page) ∧
    (∀ malloc : Malloc, ∃ t, createTable malloc = .ok t) ∧
    (∀ (malloc : Malloc) (t : List UInt8) (s : CStr), cstr t = .ok s →
      ∃ ts, toTableString malloc (some t) = .ok ts) ∧
    (∀ (buf grow : Malloc) (t : List UInt8) (s : CStr) (info : RowInfo) (r : Row), cstr t = .ok s →
      s.length < 2 ^ 31 → info.Reads r → ∃ t', insertRow buf grow (some t) (some info) = .ok t') ∧
    (∀ (html : CStr) (resp : Vector UInt8 (pageHttpFormat.length + html.length + 16)),
      ∃ b, putStr resp.toList 0 (printf pageHttpFormat [.num html.length, .str html]) = .ok b) ∧
    (∀ (max : Int) (head : Vector UInt8 (fileHttpFormat.length + 32)),
      ∃ b, putStr head.toList 0 (printf fileHttpFormat [.num max]) = .ok b) ∧
    (∀ (run : Run) (out : Outlet) (html : List UInt8) (page : CStr), cstr html = .ok page →
      run.resp (pageHttpFormat.length + page.length + 16) ≠ none →
        ∃ blk, blk.length = pageHttpFormat.length + page.length + 16 ∧
          blk.take (pageAnswer page).length = pageAnswer page ∧
          response run out (some html) =
            (TcpClient.sendRaw run.sends out blk (toInt32 (pageAnswer page).length)).map
              fun sent => (if sent.1 > 0 then 1 else 0, sent.2)) ∧
    ∀ (d : Disk) (run : Run) (out : Outlet) (req root ap : CStr), absPath req root = some ap →
      ∃ r, d.fileReqHandler run out req root = .ok r :=
  ⟨fun malloc path _ _ ht => toPageString_fits malloc path ht, toErrString_fits, createTable_fits,
    fun malloc _ _ ht => toTableString_fits malloc ht,
    fun buf grow _ _ _ _ ht hs hinfo => insertRow_fits buf grow ht hs hinfo, pageHead_fits, fileHead_fits,
    fun _ out _ _ hhtml hresp => response_eq out hresp hhtml, fun _ _ out _ _ _ habs => fileReqHandler_fits out habs⟩

/-- A row whose texts fill their arrays. -/
def fullRow : Row :=
  ⟨List.replicate 2047 0x61, List.replicate 254 0x61, List.replicate 31 0x61, List.replicate 31 0x61,
    List.replicate 31 0x61⟩

theorem fullRow_reads : (RowInfo.ofRow fullRow).Reads fullRow := by
  refine RowInfo.ofRow_reads ?_
  simp only [Row.Fits, fullRow, List.mem_replicate, List.length_replicate]
  decide

/-- The page of a table with a full row, and the insertion of another one. -/
theorem buffers_suffice_full :
    (∃ page, toPageString .cleared (ascii "/docs") (some (tableText [fullRow] ++ [0])) = .ok page) ∧
    (∃ ts, toTableString .cleared (some (tableTitle ++ fullRow.text ++ [0])) = .ok ts) ∧
    (∃ t', insertRow .cleared .cleared (some (tableTitle ++ fullRow.text ++ [0])) (some (.ofRow fullRow)) = .ok t') ∧
    (∃ blk, blk.length = pageHttpFormat.length + (ascii "<html></html>").length + 16 ∧
      blk.take (pageAnswer (ascii "<html></html>")).length = pageAnswer (ascii "<html></html>") ∧
      response .cleared .fresh (some (ascii "<html></html>" ++ [0])) =
        (TcpClient.sendRaw Run.cleared.sends .fresh blk (toInt32 (pageAnswer (ascii "<html></html>")).length)).map
          fun sent => (if sent.1 > 0 then 1 else 0, sent.2)) ∧
    ∃ r, (fileOnly (some (ascii "text"))).fileReqHandler .cleared .fresh (ascii "/a") (ascii "/srv") = .ok r := by
  obtain ⟨hpage, _, _, htable, hrow, _, _, hresponse, hfile⟩ := buffers_suffice
  have hnul : 0 ∉ tableTitle ++ fullRow.text := fun h =>
    (List.mem_append.mp h).elim (by decide) fullRow_reads.nul_notMem_text
  have htext : cstr (tableTitle ++ fullRow.text ++ [0]) = .ok (tableTitle ++ fullRow.text) := cstr_append_self hnul []
  have hends : 0 ∉ tableBegin ∧ 0 ∉ tableEnd := by decide
  have hwhole : cstr (tableText [fullRow] ++ [0]) = .ok (tableText [fullRow]) := by
    refine cstr_append_self ?_ []
    rw [tableText, List.flatMap_singleton]
    simp only [List.mem_append, not_or] at hnul ⊢
    exact ⟨⟨hends.1, hnul⟩, hends.2⟩
  have hhtml : cstr (ascii "<html></html>" ++ [0]) = .ok (ascii "<html></html>") := by decide
  have hlen : (tableTitle ++ fullRow.text).length < 2 ^ 31 := by
    have htitle := length_tableTitle
    have hrow := fullRow_reads.length_text_lt
    rw [List.length_append]
    omega
  have hresp : Run.cleared.resp (pageHttpFormat.length + (ascii "<html></html>").length + 16) ≠ none :=
    Run.cleared_serves.resp _ (by rw [length_pageHttpFormat]; decide)
  refine ⟨hpage .cleared (ascii "/docs") _ _ hwhole, htable .cleared _ _ htext,
    hrow .cleared .cleared _ _ (.ofRow fullRow) fullRow htext hlen fullRow_reads, ?_, ?_⟩
  · exact hresponse .cleared .fresh _ _ hhtml hresp
  · exact hfile (fileOnly (some (ascii "text"))) .cleared .fresh (ascii "/a") (ascii "/srv") _ absPath_fileOnly

end CompileService.Http
