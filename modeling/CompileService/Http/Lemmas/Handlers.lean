import CompileService.Base.HeaderBlock
import CompileService.Http.Answer
import CompileService.Http.Lemmas.Html

/-!
# What the handlers send

With allocations and sends that succeed, `Response` sends a header block and a page, and `FileReqHandler` a header
block and the file, piece by piece.
-/

namespace CompileService.Http

open CompileService.Base CompileService.Wire

/-! ## The header block -/

def headLines (type : CStr) (length : Int) : List CStr :=
  [ascii "HTTP/1.1 200 OK", ascii "Server:Test Http Server", ascii "Content-Length:" ++ decimal length,
    ascii "Content-Type:" ++ type, ascii "Connection:close"]

def answerText (type : CStr) (length : Int) (body : List UInt8) : List UInt8 :=
  headed 0x0d 0x0a (headLines type length) body

theorem httpFormat_eq (type : CStr) :
    httpFormat type = ascii "HTTP/1.1 200 OK\r\nServer:Test Http Server\r\nContent-Length:" ++ (ascii "%d" ++
      (ascii "\r\nContent-Type:" ++ type ++ ascii "\r\nConnection:close\r\n\r\n")) := by
  have hbefore : ["HTTP/1.1 200 OK\r\n", "Server:Test Http Server\r\n", "Content-Length:%d\r\n",
      "Content-Type:"].flatMap ascii =
        ascii "HTTP/1.1 200 OK\r\nServer:Test Http Server\r\nContent-Length:" ++ (ascii "%d" ++
          ascii "\r\nContent-Type:") := by
    decide
  have hafter : ["\r\n", "Connection:close\r\n\r\n"].flatMap ascii = ascii "\r\nConnection:close\r\n\r\n" := by
    decide
  rw [httpFormat, hbefore, hafter]
  simp only [List.append_assoc]

theorem answerText_eq (type : CStr) (n : Int) (body : List UInt8) :
    answerText type n body = ascii "HTTP/1.1 200 OK\r\nServer:Test Http Server\r\nContent-Length:" ++ (decimal n ++
      (ascii "\r\nContent-Type:" ++ type ++ ascii "\r\nConnection:close\r\n\r\n" ++ body)) := by
  have hbefore : ascii "HTTP/1.1 200 OK\r\nServer:Test Http Server\r\nContent-Length:" = ascii "HTTP/1.1 200 OK" ++
      0x0d :: 0x0a :: (ascii "Server:Test Http Server" ++ 0x0d :: 0x0a :: ascii "Content-Length:") := by
    decide
  have htype : ascii "\r\nContent-Type:" = 0x0d :: 0x0a :: ascii "Content-Type:" := by decide
  have hafter : ascii "\r\nConnection:close\r\n\r\n" = 0x0d :: 0x0a :: (ascii "Connection:close" ++
      [0x0d, 0x0a, 0x0d, 0x0a]) := by
    decide
  simp only [answerText, headLines, headed_cons, headed_nil, hbefore, htype, hafter, List.append_assoc,
    List.cons_append, List.nil_append]

theorem printf_httpFormat {type : CStr} (htype : 0x25 ∉ type) (n : Int) (f : CStr) (args : List Arg) :
    printf (httpFormat type ++ f) (.num n :: args) = answerText type (toInt32 n) (printf f args) := by
  have hbefore : 0x25 ∉ ascii "HTTP/1.1 200 OK\r\nServer:Test Http Server\r\nContent-Length:" := by decide
  have hafter : 0x25 ∉ ascii "\r\nContent-Type:" ++ type ++ ascii "\r\nConnection:close\r\n\r\n" := by
    simp only [List.mem_append, not_or]
    exact ⟨⟨by decide, htype⟩, by decide⟩
  rw [httpFormat_eq, List.append_assoc, printf_text hbefore, List.append_assoc, printf_d, printf_text hafter,
    answerText_eq]

theorem length_answerText (type : CStr) (n : Int) (body : List UInt8) :
    (answerText type n body).length + 2 = (httpFormat type).length + (decimal n).length + body.length := by
  have hd : (ascii "%d").length = 2 := rfl
  simp only [httpFormat_eq, answerText_eq, List.length_append, hd]
  omega

theorem nul_notMem_answerText {type body : CStr} (htype : 0 ∉ type) (n : Int) (hbody : 0 ∉ body) :
    0 ∉ answerText type n body := by
  have hbefore : 0 ∉ ascii "HTTP/1.1 200 OK\r\nServer:Test Http Server\r\nContent-Length:" := by decide
  have hmiddle : 0 ∉ ascii "\r\nContent-Type:" := by decide
  have hafter : 0 ∉ ascii "\r\nConnection:close\r\n\r\n" := by decide
  simp only [answerText_eq, List.mem_append, not_or]
  exact ⟨hbefore, nul_notMem_decimal n, ⟨⟨hmiddle, htype⟩, hafter⟩, hbody⟩

theorem length_httpFormat : (httpFormat (ascii "text/html")).length = 105 ∧
    (httpFormat (ascii "application/*")).length = 109 := by
  decide

/-! ## Sends -/

/-- All allocations of a `RequestHandler` succeed. -/
structure Run.Serves (run : Run) : Prop where
  ap : run.ap = true
  fileAp : run.fileAp = true
  head : run.head.Serves
  buf : run.buf.Serves
  page : run.page.Serves
  err : run.err.Serves
  resp : run.resp.Serves

def Run.SendsAll (run : Run) : Prop := ∀ i, (run.sends i).Full

section
variable {run : Run} {out : Outlet} {buf : List UInt8} {n : Nat}

/-- A length that the conversion to `int` makes negative is one of almost `2 ^ 64` bytes for `send`. -/
theorem sendRaw_negative (sched : Nat → SendEvent) (hlo : 2 ^ 31 ≤ n) (hhi : n < 2 ^ 32)
    (hbuf : buf.length < 2 ^ 63) : TcpClient.sendRaw sched out buf (toInt32 n) = .error .bounds := by
  have hint : toInt32 n = n - 2 ^ 32 := toInt32_of_large (by omega) (by omega)
  have hsize := toSize_of_neg (x := toInt32 n) (toInt32_range n).1 (by omega)
  exact if_neg (by omega)

/-! ## Pages -/

/-- What `Response` sends for a page. -/
def pageAnswer (page : CStr) : List UInt8 := answerText (ascii "text/html") (toInt32 page.length) page

theorem printf_pageHttpFormat (page : CStr) :
    printf pageHttpFormat [.num page.length, .str page] = pageAnswer page := by
  have htype : 0x25 ∉ ascii "text/html" := by decide
  have hpage : printf (ascii "%s") [.str page] = page := List.append_nil page
  rw [pageHttpFormat, printf_httpFormat htype, hpage, pageAnswer]

theorem length_pageHttpFormat : pageHttpFormat.length = 107 := by
  rw [pageHttpFormat, List.length_append, length_httpFormat.1]
  rfl

/-- The block of `Response` has room for the header block and the page. -/
theorem length_pageAnswer_lt (page : CStr) :
    (pageAnswer page).length < pageHttpFormat.length + page.length + 16 := by
  have hlen := length_answerText (ascii "text/html") (toInt32 page.length) page
  have hdecimal := length_decimal_toInt32 page.length
  have hs : (ascii "%s").length = 2 := rfl
  rw [pageHttpFormat, List.length_append, hs, pageAnswer]
  omega

theorem length_le_pageAnswer (page : CStr) : page.length + 103 ≤ (pageAnswer page).length := by
  have hlen := length_answerText (ascii "text/html") (toInt32 page.length) page
  rw [length_httpFormat.1] at hlen
  rw [pageAnswer]
  omega

/-- `Response`, as far as the send. -/
theorem response_eq {html page : CStr} (out : Outlet)
    (hresp : run.resp (pageHttpFormat.length + page.length + 16) ≠ none) (hhtml : cstr html = .ok page) :
    ∃ blk, blk.length = pageHttpFormat.length + page.length + 16 ∧
      blk.take (pageAnswer page).length = pageAnswer page ∧
      response run out (some html) =
        (TcpClient.sendRaw run.sends out blk (toInt32 (pageAnswer page).length)).map
          fun sent => (if sent.1 > 0 then 1 else 0, sent.2) := by
  have htype : 0 ∉ ascii "text/html" := by decide
  have hnul : 0 ∉ pageAnswer page := nul_notMem_answerText htype _ (cstr_ok hhtml).1
  unfold response
  simp only [hhtml, Exec.ok_bind]
  split
  · rename_i hnone
    exact absurd hnone hresp
  · rename_i resp _
    have hfit : (pageAnswer page).length < resp.toList.length := by
      rw [Vector.length_toList]
      exact length_pageAnswer_lt page
    obtain ⟨blk, hput, htext, hblklen, htake⟩ := putStr_start hnul hfit
    refine ⟨blk, by rw [hblklen, Vector.length_toList], htake, ?_⟩
    rw [printf_pageHttpFormat, hput, Exec.ok_bind, htext, Exec.ok_bind]
    exact Exec.bind_ok_eq_map _ _

/-- `Response` for a page that `int` can count, whatever the `send` does. -/
theorem response_short {html page : CStr} (out : Outlet)
    (hresp : run.resp (pageHttpFormat.length + page.length + 16) ≠ none) (hhtml : cstr html = .ok page)
    (hlen : (pageAnswer page).length < 2 ^ 31) :
    response run out (some html) = .ok (if ((run.sends out.calls).send (pageAnswer page)).1 > 0 then 1 else 0,
      ⟨out.calls + 1, out.queue ++ ((run.sends out.calls).send (pageAnswer page)).2⟩) := by
  obtain ⟨blk, hblk, htake, heq⟩ := response_eq out hresp hhtml
  have hroom := length_pageAnswer_lt page
  have hint : toInt32 (pageAnswer page).length = ((pageAnswer page).length : Nat) :=
    toInt32_of_range (by omega) (by omega)
  rw [heq, hint, TcpClient.sendRaw_eq (by omega) (by omega), htake]
  rfl

theorem response_unallocated {html page : CStr} (out : Outlet)
    (hresp : run.resp (pageHttpFormat.length + page.length + 16) = none) (hhtml : cstr html = .ok page) :
    response run out (some html) = .ok (0, out) := by
  unfold response
  simp only [hhtml, Exec.ok_bind]
  split
  · rfl
  · rename_i hsome
    rw [hresp] at hsome
    cases hsome

theorem response_ok {html page : CStr} (out : Outlet) (hresp : run.resp.Serves) (hsends : run.SendsAll)
    (hhtml : cstr html = .ok page) (hlen : (pageAnswer page).length < 2 ^ 31) :
    response run out (some html) = .ok (1, ⟨out.calls + 1, out.queue ++ pageAnswer page⟩) := by
  have hpage := length_le_pageAnswer page
  have hblock : run.resp (pageHttpFormat.length + page.length + 16) ≠ none :=
    hresp _ (by rw [length_pageHttpFormat]; unfold ptrdiffMax; omega)
  have hpos : ((pageAnswer page).length : Int) > 0 := by omega
  rw [response_short out hblock hhtml hlen, (hsends out.calls).send_eq hlen, if_pos hpos]

theorem response_long {html page : CStr} (out : Outlet) (hresp : run.resp.Serves) (hhtml : cstr html = .ok page)
    (hlo : 2 ^ 31 ≤ (pageAnswer page).length) (hhi : (pageAnswer page).length < 2 ^ 32) :
    response run out (some html) = .error .bounds := by
  have hpage := length_le_pageAnswer page
  have hformat := length_pageHttpFormat
  have hblock : run.resp (pageHttpFormat.length + page.length + 16) ≠ none :=
    hresp _ (by rw [hformat]; unfold ptrdiffMax; omega)
  obtain ⟨blk, hblk, _, heq⟩ := response_eq out hblock hhtml
  rw [heq, sendRaw_negative run.sends hlo hhi (by omega)]
  rfl

/-! ## Files -/

/-- What `FileReqHandler` sends for a file. -/
def fileAnswer (contents : List UInt8) : List UInt8 :=
  answerText (ascii "application/*") (toInt32 contents.length) contents

/-- Its header block. -/
def fileHead (contents : List UInt8) : List UInt8 :=
  answerText (ascii "application/*") (toInt32 contents.length) []

/-- What the sends of the pieces return in total; the first of them is the `i`-th `send`. -/
def sentSum (sends : Nat → SendEvent) : Nat → List (List UInt8) → Int
  | _, [] => 0
  | i, piece :: pieces => ((sends i).send piece).1 + sentSum sends (i + 1) pieces

/-- What they queue. -/
def sentBytes (sends : Nat → SendEvent) : Nat → List (List UInt8) → List UInt8
  | _, [] => []
  | i, piece :: pieces => ((sends i).send piece).2 ++ sentBytes sends (i + 1) pieces

def AllTaken (sends : Nat → SendEvent) (i : Nat) (pieces : List (List UInt8)) : Prop :=
  ∀ p ∈ pieces.zipIdx i, (sends p.2).Takes p.1.length

section
variable {sends : Nat → SendEvent} {i : Nat} {piece : List UInt8} {pieces : List (List UInt8)}

theorem allTaken_cons :
    AllTaken sends i (piece :: pieces) ↔ (sends i).Takes piece.length ∧ AllTaken sends (i + 1) pieces := by
  simp only [AllTaken, List.zipIdx_cons, List.forall_mem_cons]

theorem AllTaken.sent (h : AllTaken sends i pieces) :
    sentSum sends i pieces = pieces.flatten.length ∧ sentBytes sends i pieces = pieces.flatten := by
  induction pieces generalizing i with
  | nil => exact ⟨rfl, rfl⟩
  | cons piece pieces ih =>
      obtain ⟨hpiece, hrest⟩ := allTaken_cons.mp h
      obtain ⟨hsum, hbytes⟩ := ih hrest
      simp only [sentSum, sentBytes, hpiece.send_eq, hsum, hbytes, List.flatten_cons, List.length_append, Nat.cast_add,
        and_self]

/-- One send returns at least -1, and no more than it is given. -/
theorem send_bounds (e : SendEvent) (hpiece : 1 ≤ piece.length) :
    -1 ≤ (e.send piece).1 ∧ (e.send piece).1 ≤ piece.length ∧ (e.send piece).2.length ≤ piece.length := by
  by_cases h : e.Takes piece.length
  · simp only [h.send_eq]
    omega
  · have hshort := SendEvent.send_short hpiece h
    omega

theorem sent_bounds (sends : Nat → SendEvent) (i : Nat) (hsize : ∀ piece ∈ pieces, 1 ≤ piece.length) :
    -(pieces.flatten.length : Int) ≤ sentSum sends i pieces ∧ sentSum sends i pieces ≤ pieces.flatten.length ∧
      (sentBytes sends i pieces).length ≤ pieces.flatten.length := by
  induction pieces generalizing i with
  | nil => simp [sentSum, sentBytes]
  | cons piece pieces ih =>
      obtain ⟨hpiece, hsize⟩ := List.forall_mem_cons.mp hsize
      have hone := send_bounds (sends i) hpiece
      have hrest := ih (i + 1) hsize
      simp only [sentSum, sentBytes, List.flatten_cons, List.length_append]
      omega

theorem Run.SendsAll.allTaken (hsends : run.SendsAll) (i : Nat)
    (hsize : ∀ piece ∈ pieces, 1 ≤ piece.length ∧ piece.length ≤ 1024) : AllTaken run.sends i pieces := by
  intro p hp
  have hpiece := hsize p.1 (List.fst_mem_of_mem_zipIdx hp)
  exact (hsends p.2).takes (by omega)

/-- The loop, for any sends; the sum is that of the results unless it leaves `int`. -/
theorem copyPieces_sends (run : Run) (ret : Int) (out : Outlet) (hbuf : buf.length = 1024)
    (hsize : ∀ piece ∈ pieces, 1 ≤ piece.length ∧ piece.length ≤ 1024) :
    ∃ ret' buf', pieces.foldlM (copyPiece run) (ret, buf, out) = .ok (ret', buf',
      ⟨out.calls + pieces.length, out.queue ++ sentBytes run.sends out.calls pieces⟩) ∧
        (-2 ^ 31 ≤ ret - pieces.flatten.length → ret + pieces.flatten.length < 2 ^ 31 →
          ret' = ret + sentSum run.sends out.calls pieces) := by
  induction pieces generalizing out ret buf with
  | nil => exact ⟨ret, buf, by rw [sentBytes, List.append_nil]; rfl, fun _ _ => (Int.add_zero ret).symm⟩
  | cons piece pieces ih =>
      obtain ⟨⟨hpos, hpiece⟩, hsize⟩ := List.forall_mem_cons.mp hsize
      have hwritten : (writeAt buf 0 piece).length = 1024 := by rw [length_writeAt (by omega), hbuf]
      have htake : (writeAt buf 0 piece).take piece.length = piece := by
        have htake : (writeAt buf 0 piece).take (0 + piece.length) = piece := take_writeAt (by omega)
        rwa [Nat.zero_add] at htake
      obtain ⟨ret', buf', hrun, hsum⟩ := ih (toInt32 (ret + ((run.sends out.calls).send piece).1))
        ⟨out.calls + 1, out.queue ++ ((run.sends out.calls).send piece).2⟩ hwritten hsize
      refine ⟨ret', buf', ?_, fun hlo hhi => ?_⟩
      · rw [List.foldlM_cons]
        simp only [copyPiece, TcpClient.sendRaw_eq (by omega : piece.length ≤ (writeAt buf 0 piece).length) (by omega),
          htake, Exec.ok_bind]
        rw [sentBytes, ← List.append_assoc, List.length_cons, Nat.add_comm pieces.length, ← Nat.add_assoc]
        exact hrun
      · obtain ⟨hmin, hmax, _⟩ := send_bounds (run.sends out.calls) hpos
        rw [List.flatten_cons, List.length_append] at hlo hhi
        rw [toInt32_of_range (by omega) (by omega)] at hsum
        rw [hsum (by omega) (by omega), sentSum, Int.add_assoc]

end

theorem copyFile_sends (run : Run) (contents : List UInt8) (out : Outlet) {len : Int} (hbuf : buf.length = 1024)
    (hpos : len > 0) :
    ∃ ret, copyFile run len buf contents out = .ok (ret, ⟨out.calls + (run.reads contents).pieces.length,
      out.queue ++ sentBytes run.sends out.calls (run.reads contents).pieces⟩) ∧
        (contents.length < 2 ^ 31 → ret = sentSum run.sends out.calls (run.reads contents).pieces) := by
  obtain ⟨ret, buf', hrun, hsum⟩ := copyPieces_sends run 0 out hbuf (run.reads contents).size
  simp only [(run.reads contents).whole, Int.zero_add] at hsum
  exact ⟨ret, by rw [copyFile, if_pos hpos, hrun]; rfl, fun hlen => hsum (by omega) (by omega)⟩

theorem length_fileHttpFormat : fileHttpFormat.length = 109 := length_httpFormat.2

theorem printf_fileHttpFormat (contents : List UInt8) :
    printf fileHttpFormat [.num (toInt32 contents.length)] = fileHead contents := by
  have htype : 0x25 ∉ ascii "application/*" := by decide
  have hrange := toInt32_range contents.length
  have hprintf := printf_httpFormat htype (toInt32 contents.length) [] []
  rwa [List.append_nil, toInt32_of_range hrange.1 hrange.2] at hprintf

theorem fileHead_append (contents : List UInt8) : fileHead contents ++ contents = fileAnswer contents := by
  simp only [fileHead, fileAnswer, answerText_eq, List.append_assoc, List.nil_append]

theorem nul_notMem_fileHead (contents : List UInt8) : 0 ∉ fileHead contents := by
  have htype : 0 ∉ ascii "application/*" := by decide
  exact nul_notMem_answerText htype _ List.not_mem_nil

theorem length_fileHead (contents : List UInt8) :
    107 ≤ (fileHead contents).length ∧ (fileHead contents).length ≤ 118 := by
  have hlen := length_answerText (ascii "application/*") (toInt32 contents.length) []
  have hdecimal := length_decimal_toInt32 contents.length
  rw [length_httpFormat.2, List.length_nil] at hlen
  unfold fileHead
  omega

namespace Disk

variable {d : Disk} {ap req root : CStr}

/-- The three allocations of `FileReqHandler` succeed. -/
def Allocated (run : Run) : Prop :=
  run.fileAp = true ∧ run.head (fileHttpFormat.length + 32) ≠ none ∧ run.buf bufSize ≠ none

theorem allocated_of_serves (hserves : run.Serves) : Allocated run :=
  ⟨hserves.fileAp, hserves.head _ (by rw [length_fileHttpFormat]; unfold ptrdiffMax; omega),
    hserves.buf _ (by unfold bufSize ptrdiffMax; omega)⟩

/-- `FileReqHandler`, as far as the send of the header block. -/
theorem fileReqHandler_sends {contents : List UInt8} (out : Outlet) (halloc : Allocated run)
    (habs : absPath req root = some ap) (hfile : d.openFile ap = some contents) :
    ∃ buf : List UInt8, buf.length = 1024 ∧ d.fileReqHandler run out req root =
      (copyFile run ((run.sends out.calls).send (fileHead contents)).1 buf contents
        ⟨out.calls + 1, out.queue ++ ((run.sends out.calls).send (fileHead contents)).2⟩).map
          fun sent => (if sent.1 = toInt32 contents.length then 1 else 0, sent.2) := by
  obtain ⟨hpath, hhead, hbuf⟩ := halloc
  have hap : getAbsPath run.fileAp req root = .ok (some ap) := by
    rw [getAbsPath_of_absPath habs, hpath]
    rfl
  have hlen := length_fileHead contents
  have hint : toInt32 (fileHead contents).length = ((fileHead contents).length : Nat) :=
    toInt32_of_range (by omega) (by omega)
  simp only [fileReqHandler, hap, Exec.ok_bind, Option.bind_some, hfile]
  split
  · rename_i head buf _ _ _ hopened
    obtain rfl := Option.some.inj hopened
    have hfit : (fileHead contents).length < head.toList.length := by
      rw [Vector.length_toList, length_fileHttpFormat]
      omega
    obtain ⟨blk, hput, htext, hblklen, htake⟩ := putStr_start (nul_notMem_fileHead contents) hfit
    refine ⟨buf.toList, Vector.length_toList, ?_⟩
    rw [printf_fileHttpFormat, hput, Exec.ok_bind, htext, Exec.ok_bind, hint,
      TcpClient.sendRaw_eq (by omega) (by omega), htake, Exec.ok_bind]
    exact Exec.bind_ok_eq_map _ _
  · rename_i hnot
    obtain ⟨head, hhead⟩ := Option.ne_none_iff_exists'.mp hhead
    obtain ⟨buf, hbuf⟩ := Option.ne_none_iff_exists'.mp hbuf
    exact (hnot head buf contents hhead hbuf rfl).elim

theorem fileReqHandler_full {contents : List UInt8} (out : Outlet) (hserves : run.Serves) (hsends : run.SendsAll)
    (habs : absPath req root = some ap) (hfile : d.openFile ap = some contents) :
    ∃ ret calls, d.fileReqHandler run out req root = .ok (ret, ⟨calls, out.queue ++ fileAnswer contents⟩) := by
  have hlen := length_fileHead contents
  have hpos : ((fileHead contents).length : Int) > 0 := by omega
  have htaken := hsends.allTaken (out.calls + 1) (run.reads contents).size
  obtain ⟨buf, hbuf, hrun⟩ := fileReqHandler_sends out (allocated_of_serves hserves) habs hfile
  obtain ⟨ret, hcopy, _⟩ := copyFile_sends run contents ⟨out.calls + 1, out.queue ++ fileHead contents⟩ hbuf hpos
  rw [hrun, (hsends out.calls).send_eq (by omega), hcopy, htaken.sent.2, (run.reads contents).whole, List.append_assoc,
    fileHead_append]
  exact ⟨_, _, rfl⟩

theorem fileReqHandler_unallocated (habs : absPath req root = some ap) (h : ¬ Allocated run) :
    d.fileReqHandler run out req root = .ok (0, out) := by
  simp only [fileReqHandler, getAbsPath_of_absPath habs, Exec.ok_bind]
  split
  · rename_i hhead hbuf hopened
    refine absurd ⟨?_, ?_, ?_⟩ h
    · by_contra hnot
      rw [if_neg hnot] at hopened
      cases hopened
    · rw [hhead]
      exact Option.some_ne_none _
    · rw [hbuf]
      exact Option.some_ne_none _
  · rfl

theorem fileReqHandler_unreadable (habs : absPath req root = some ap) (hfile : d.openFile ap = none) :
    d.fileReqHandler run out req root = .ok (0, out) := by
  have hopened : (if run.fileAp then some ap else none).bind d.openFile = none := by
    cases run.fileAp with
    | false => rfl
    | true => exact hfile
  simp only [fileReqHandler, getAbsPath_of_absPath habs, Exec.ok_bind, hopened]
  split
  · rename_i h
    cases h
  · rfl

end Disk

/-! ## The error page -/

theorem length_errAnswer_lt {req : CStr} (hlen : req.length < 2048) : (pageAnswer (errText req)).length < 2 ^ 31 := by
  have hroom := length_pageAnswer_lt (errText req)
  have hformat := length_pageHttpFormat
  have herr := length_errText req
  have hsize := length_errFormat
  omega

theorem badReqHandler_full {req : CStr} (hserves : run.Serves) (hsends : run.SendsAll) (hreq : 0 ∉ req)
    (hlen : req.length < 2048) :
    badReqHandler run out req = .ok (run.noReturn, ⟨out.calls + 1, out.queue ++ pageAnswer (errText req)⟩) := by
  have hsize := length_errFormat
  obtain ⟨html, hrun, hhtml⟩ := toErrString_ok (hserves.err _ (by unfold ptrdiffMax; omega)) hreq
  have hshort := length_errAnswer_lt hlen
  simp only [badReqHandler, hrun, Exec.ok_bind, response_ok out hserves.resp hsends hhtml hshort]
  rfl

/-- Whatever is allocated and sent, it is a beginning of the response with the error page. -/
theorem badReqHandler_initial {req : CStr} {ret : Int} {out' : Outlet} (hreq : 0 ∉ req) (hlen : req.length < 2048)
    (h : badReqHandler run out req = .ok (ret, out')) :
    ∃ bytes, bytes <+: pageAnswer (errText req) ∧ out'.queue = out.queue ++ bytes := by
  by_cases herr : run.err (errFormat.length + req.length + 1) = none
  · have hnone : toErrString run.err req = .ok none := by simp only [toErrString, herr]
    simp only [badReqHandler, hnone, Exec.ok_bind, response] at h
    obtain ⟨_, rfl⟩ := Prod.mk.inj (Except.ok.inj h)
    exact ⟨[], List.nil_prefix, (List.append_nil _).symm⟩
  · obtain ⟨html, hrun, hhtml⟩ := toErrString_ok herr hreq
    by_cases hresp : run.resp (pageHttpFormat.length + (errText req).length + 16) = none
    · simp only [badReqHandler, hrun, Exec.ok_bind, response_unallocated out hresp hhtml] at h
      obtain ⟨_, rfl⟩ := Prod.mk.inj (Except.ok.inj h)
      exact ⟨[], List.nil_prefix, (List.append_nil _).symm⟩
    · simp only [badReqHandler, hrun, Exec.ok_bind, response_short out hresp hhtml (length_errAnswer_lt hlen)] at h
      obtain ⟨_, rfl⟩ := Prod.mk.inj (Except.ok.inj h)
      exact ⟨_, SendEvent.send_initial _ _, rfl⟩

/-! ## Which handler answers -/

namespace Disk

variable {d : Disk} {ap req root : CStr}

theorem requestHandler_absent (hap : run.ap = true) (habs : absPath req root = some ap)
    (haccess : d.access ap = false) : d.requestHandler run out req root = badReqHandler run out req := by
  simp only [requestHandler, getAbsPath_of_absPath habs, hap, if_true, Exec.ok_bind, haccess, Bool.false_eq_true,
    if_false]

theorem requestHandler_file (hap : run.ap = true) (habs : absPath req root = some ap) (haccess : d.access ap = true)
    (hdir : d.opendir ap = none) : d.requestHandler run out req root = d.fileReqHandler run out req root := by
  have hcount : getEntryCount d.toFileSystem ap < 0 := getEntryCount_neg_iff.mpr hdir
  simp only [requestHandler, getAbsPath_of_absPath habs, hap, if_true, Exec.ok_bind, haccess, if_pos hcount]

theorem requestHandler_dir {entries : List Dirent} (hap : run.ap = true) (habs : absPath req root = some ap)
    (haccess : d.access ap = true) (hdir : d.opendir ap = some entries) :
    d.requestHandler run out req root = d.dirReqHandler run out req root := by
  have hcount : ¬ getEntryCount d.toFileSystem ap < 0 := by
    rw [getEntryCount_neg_iff, hdir]
    exact Option.some_ne_none entries
  simp only [requestHandler, getAbsPath_of_absPath habs, hap, if_true, Exec.ok_bind, haccess, if_neg hcount]

theorem requestHandler_no_root (hap : run.ap = true) (habs : absPath req root = none) :
    d.requestHandler run out req root = .error .bounds := by
  have hroot : root = [] := by
    by_contra hroot
    simp only [absPath, getAbsPath, if_true, if_neg hroot] at habs
    cases habs
  simp only [requestHandler, hap, getAbsPath, if_true, if_pos hroot, Exec.error_bind]

end Disk

end

end CompileService.Http
