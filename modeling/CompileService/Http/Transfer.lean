import CompileService.Http.Delivery
import Mathlib.Data.List.TakeDrop

/-!
# What is reported of a transfer

`FileReqHandler` judges a transfer by the sum of what the sends of the pieces return, and does not look at how much of
the header block went out. The length that it announces has passed through an `int`. The handlers of pages drop what
`Response` returns.
-/

namespace CompileService.Http

open CompileService.Base CompileService.Wire

/-! ## The sends of a file -/

/-- The header block is taken in full; or its send fails, and the file is not empty; or it is taken in part, and so is
a piece, or the send of a piece fails. -/
def Run.Reports (run : Run) (calls : Nat) (contents : List UInt8) : Prop :=
  match run.sends calls with
  | .fail => contents ≠ []
  | .count k => (fileHead contents).length ≤ k + 1 ∨ ¬ AllTaken run.sends (calls + 1) (run.reads contents).pieces

section
variable {sends : Nat → SendEvent} {i : Nat} {pieces : List (List UInt8)}

/-- One piece that is not taken in full is missing in the sum and among the bytes. -/
theorem sent_short (hsize : ∀ piece ∈ pieces, 1 ≤ piece.length) (h : ¬ AllTaken sends i pieces) :
    sentSum sends i pieces < pieces.flatten.length ∧
      (sentBytes sends i pieces).length < pieces.flatten.length := by
  induction pieces generalizing i with
  | nil => exact absurd (fun p hp => absurd hp List.not_mem_nil) h
  | cons piece pieces ih =>
      obtain ⟨hpiece, hsize⟩ := List.forall_mem_cons.mp hsize
      have hrest := sent_bounds sends (i + 1) hsize
      simp only [sentSum, sentBytes, List.flatten_cons, List.length_append]
      by_cases hfirst : (sends i).Takes piece.length
      · have hmissing := ih hsize fun hall => h (allTaken_cons.mpr ⟨hfirst, hall⟩)
        simp only [hfirst.send_eq]
        omega
      · have hshort := SendEvent.send_short hpiece hfirst
        omega

end

section
variable {run : Run} {contents : List UInt8}

namespace Disk

variable {d : Disk} {ap req root : CStr}

/-- For files below `2 ^ 31` bytes `FileReqHandler` reports exactly the complete transfers if and only if the header
block is taken in full, or something else of the response is missed and noticed. -/
theorem fileReqHandler_reports_iff (out : Outlet) (hserves : run.Serves) (habs : absPath req root = some ap)
    (hfile : d.openFile ap = some contents) (hlen : contents.length < 2 ^ 31) :
    (∃ ret out', d.fileReqHandler run out req root = .ok (ret, out') ∧
      (ret = 1 ↔ out'.queue = out.queue ++ fileAnswer contents)) ↔ run.Reports out.calls contents := by
  have hhead := length_fileHead contents
  have hint : toInt32 contents.length = (contents.length : Nat) := toInt32_of_range (by omega) (by omega)
  have hwhole := (run.reads contents).whole
  have hsize : ∀ piece ∈ (run.reads contents).pieces, 1 ≤ piece.length :=
    fun piece hpiece => ((run.reads contents).size piece hpiece).1
  obtain ⟨buf, hbuf, hrun⟩ := fileReqHandler_sends out (allocated_of_serves hserves) habs hfile
  rw [hrun, hint, Run.Reports, ← fileHead_append]
  cases hevent : run.sends out.calls with
  | fail =>
      have hne : out.queue ≠ out.queue ++ (fileHead contents ++ contents) := by
        intro heq
        have hlength := congrArg List.length heq
        simp only [List.length_append] at hlength
        omega
      have hcopy : copyFile run (SendEvent.fail.send (fileHead contents)).1 buf contents
          ⟨out.calls + 1, out.queue ++ (SendEvent.fail.send (fileHead contents)).2⟩ =
            .ok (0, ⟨out.calls + 1, out.queue⟩) := by
        simp only [SendEvent.send, List.append_nil]
        exact if_neg (by decide)
      rw [hcopy]
      constructor
      · rintro ⟨ret, out', hok, hiff⟩ rfl
        cases hok
        exact hne (hiff.mp rfl)
      · intro hcontents
        have hpos := List.length_pos_of_ne_nil hcontents
        have hmax : ¬ (0 : Int) = contents.length := by omega
        exact ⟨0, ⟨out.calls + 1, out.queue⟩, by simp only [Except.map, if_neg hmax], iff_of_false (by decide) hne⟩
  | count k =>
      have hpos : ((SendEvent.count k).send (fileHead contents)).1 > 0 := by
        simp only [SendEvent.send, List.length_take]
        omega
      obtain ⟨ret, hcopy, hret⟩ := copyFile_sends run contents
        ⟨out.calls + 1, out.queue ++ ((SendEvent.count k).send (fileHead contents)).2⟩ hbuf hpos
      rw [hcopy, hret hlen]
      simp only [SendEvent.send, List.append_assoc, Except.map, Except.ok.injEq, Prod.mk.injEq, and_assoc,
        exists_and_left, exists_eq_left', List.append_cancel_left_eq]
      by_cases htaken : AllTaken run.sends (out.calls + 1) (run.reads contents).pieces
      · obtain ⟨hsum, hbytes⟩ := htaken.sent
        rw [hsum, hbytes, hwhole, if_pos rfl, List.append_cancel_right_eq, List.take_eq_self_iff]
        simp only [true_iff, htaken, not_true_eq_false, or_false]
      · obtain ⟨hsum, hbytes⟩ := sent_short hsize htaken
        rw [hwhole] at hsum hbytes
        refine iff_of_true ?_ (.inr htaken)
        rw [if_neg (by omega)]
        refine iff_of_false (by decide) fun heq => ?_
        have hlength := congrArg List.length heq
        simp only [List.length_append, List.length_take] at hlength
        omega

end Disk

end

/-- The header block is cut after its first byte, the file is sent in full. -/
def Run.beheaded : Run := { Run.cleared with sends := fun i => if i = 0 then .count 0 else .count 1023 }

theorem reports_readable : ∃ ret out',
    (fileOnly (some (ascii "text"))).fileReqHandler .cleared .fresh (ascii "/a") (ascii "/srv") = .ok (ret, out') ∧
      (ret = 1 ↔ out'.queue = Outlet.fresh.queue ++ fileAnswer (ascii "text")) := by
  have hhead := length_fileHead (ascii "text")
  have hlen : (ascii "text").length < 2 ^ 31 := by decide
  refine (Disk.fileReqHandler_reports_iff .fresh Run.cleared_serves absPath_fileOnly (fileOnly_openFile _) hlen).mpr
    (Or.inl ?_)
  omega

/-- A response that begins with `Htext` counts as delivered. -/
theorem reports_beheaded :
    (fileOnly (some (ascii "text"))).fileReqHandler .beheaded .fresh (ascii "/a") (ascii "/srv") =
        .ok (1, ⟨5, ascii "Htext"⟩) ∧
      ¬ ∃ ret out',
        (fileOnly (some (ascii "text"))).fileReqHandler .beheaded .fresh (ascii "/a") (ascii "/srv") = .ok (ret, out') ∧
          (ret = 1 ↔ out'.queue = Outlet.fresh.queue ++ fileAnswer (ascii "text")) := by
  have hrun : (fileOnly (some (ascii "text"))).fileReqHandler .beheaded .fresh (ascii "/a") (ascii "/srv") =
      .ok (1, ⟨5, ascii "Htext"⟩) := by
    decide +kernel
  refine ⟨hrun, ?_⟩
  rintro ⟨ret, out', hok, hiff⟩
  obtain ⟨rfl, rfl⟩ := Prod.mk.inj (Except.ok.inj (hrun.symm.trans hok))
  exact absurd (hiff.mp rfl) (by decide +kernel)

/-! ## The length that is announced -/

/-- The number that is printed after `Content-Length:` in a header block is `n`, and so many bytes follow the block. -/
def Announces (bytes : List UInt8) (n : Nat) : Prop :=
  ∃ lines body, bytes = headed 0x0d 0x0a lines body ∧ (∀ l ∈ lines, IsLine 0x0d l) ∧
    lines.filter (fun l => (ascii "Content-Length:").isPrefixOf l) = [ascii "Content-Length:" ++ digits n] ∧
    body.length = n

theorem announces_fileAnswer (contents : List UInt8) :
    Announces (fileAnswer contents) contents.length ↔ contents.length < 2 ^ 31 := by
  have hcr : 0x0d ∉ ascii "application/*" := by decide
  have hlf : 0x0a ∉ ascii "application/*" := by decide
  have hlines := headLines_lines hcr hlf (toInt32 contents.length)
  have hprinted : (headLines (ascii "application/*") (toInt32 contents.length)).filter
      (fun l => (ascii "Content-Length:").isPrefixOf l) =
        [ascii "Content-Length:" ++ decimal (toInt32 contents.length)] :=
    headLines_lengths (ascii "application/*") (toInt32 contents.length)
  have hrange := toInt32_range contents.length
  constructor
  · rintro ⟨lines, body, heq, hlines', hlength, _⟩
    obtain ⟨rfl, _⟩ := headed_inj (fun l hl => (hlines l hl).1) hlines' heq
    rw [hprinted] at hlength
    have hdecimal : decimal (toInt32 contents.length) = decimal contents.length :=
      List.append_cancel_left (List.singleton_inj.mp hlength)
    have hint := decimal_inj hdecimal
    omega
  · intro hlen
    have hint : toInt32 contents.length = contents.length := toInt32_of_range (by omega) (by omega)
    refine ⟨_, contents, rfl, fun l hl => (hlines l hl).1, ?_, rfl⟩
    rw [hprinted, hint]
    rfl

/-- With all sends full the number that `FileReqHandler` prints is the number of bytes that follow if and only if the
file has fewer than `2 ^ 31` of them. -/
theorem length_announced_iff {d : Disk} {run : Run} {ap req root : CStr} {contents : List UInt8} (out : Outlet)
    (hserves : run.Serves) (hsends : run.SendsAll) (habs : absPath req root = some ap)
    (hfile : d.openFile ap = some contents) :
    (∃ ret calls bytes, d.fileReqHandler run out req root = .ok (ret, ⟨calls, out.queue ++ bytes⟩) ∧
      Announces bytes contents.length) ↔ contents.length < 2 ^ 31 := by
  obtain ⟨ret, calls, hrun⟩ := Disk.fileReqHandler_full out hserves hsends habs hfile
  rw [← announces_fileAnswer]
  constructor
  · rintro ⟨ret', calls', bytes, hok, hbytes⟩
    have hout := (Prod.mk.inj (Except.ok.inj (hrun.symm.trans hok))).2
    rwa [List.append_cancel_left (Outlet.mk.inj hout).2]
  · exact fun h => ⟨ret, calls, fileAnswer contents, hrun, h⟩

theorem length_announced_text : ∃ ret calls bytes,
    (fileOnly (some (ascii "text"))).fileReqHandler .cleared .fresh (ascii "/a") (ascii "/srv") =
        .ok (ret, ⟨calls, Outlet.fresh.queue ++ bytes⟩) ∧ Announces bytes (ascii "text").length :=
  (length_announced_iff .fresh Run.cleared_serves Run.cleared_sendsAll absPath_fileOnly (fileOnly_openFile _)).mpr
    (by decide)

/-- A file of two gigabytes. -/
def twoGiB : List UInt8 := List.replicate (2 ^ 31) 0

theorem length_twoGiB : twoGiB.length = 2 ^ 31 := List.length_replicate

/-- A file of two gigabytes is announced with a length of `-2147483648`. -/
theorem announced_negative :
    (∃ ret calls, (fileOnly (some twoGiB)).fileReqHandler .cleared .fresh (ascii "/a") (ascii "/srv") =
      .ok (ret, ⟨calls, answerText (ascii "application/*") (-2147483648) twoGiB⟩)) ∧
    ¬ ∃ ret calls bytes, (fileOnly (some twoGiB)).fileReqHandler .cleared .fresh (ascii "/a") (ascii "/srv") =
      .ok (ret, ⟨calls, Outlet.fresh.queue ++ bytes⟩) ∧ Announces bytes twoGiB.length := by
  have hint : toInt32 twoGiB.length = -2147483648 := by
    rw [length_twoGiB]
    rfl
  obtain ⟨ret, calls, hrun⟩ :=
    Disk.fileReqHandler_full .fresh Run.cleared_serves Run.cleared_sendsAll absPath_fileOnly (fileOnly_openFile twoGiB)
  refine ⟨⟨ret, calls, ?_⟩, ?_⟩
  · rw [hrun, fileAnswer, hint]
    rfl
  · rintro ⟨ret', calls', bytes, hok, hbytes⟩
    have hout := (Prod.mk.inj (Except.ok.inj (hrun.symm.trans hok))).2
    rw [← List.append_cancel_left (Outlet.mk.inj hout).2, announces_fileAnswer, length_twoGiB] at hbytes
    exact absurd hbytes (Nat.lt_irrefl _)

/-! ## Pages -/

/-- `RequestHandler` leaves the request to `DirReqHandler` or to `BadReqHandler`. -/
def Disk.AnswersPage (d : Disk) (run : Run) (req root : CStr) : Prop :=
  ∀ ap, getAbsPath run.ap req root = .ok (some ap) → d.access ap = true → 0 ≤ getEntryCount d.toFileSystem ap

section
variable {d : Disk} {run : Run} {out : Outlet} {req root : CStr}

/-- What the handlers of pages return has nothing to do with what they do. -/
theorem badReqHandler_noReturn (v : Int) :
    badReqHandler { run with noReturn := v } out req = (badReqHandler run out req).map fun r => (v, r.2) := by
  have hresponse : ∀ html, response { run with noReturn := v } out html = response run out html := fun _ => rfl
  simp only [badReqHandler, hresponse]
  cases toErrString run.err req with
  | error e => rfl
  | ok html =>
      simp only [Exec.ok_bind]
      cases response run out html with
      | error e => rfl
      | ok r => rfl

theorem dirReqHandler_noReturn (v : Int) : d.dirReqHandler { run with noReturn := v } out req root =
    (d.dirReqHandler run out req root).map fun r => (v, r.2) := by
  have hresponse : ∀ html, response { run with noReturn := v } out html = response run out html := fun _ => rfl
  simp only [Disk.dirReqHandler, hresponse]
  cases d.makeHTML run.page req root with
  | error e => rfl
  | ok html =>
      simp only [Exec.ok_bind]
      cases response run out html with
      | error e => rfl
      | ok r => rfl

theorem requestHandler_noReturn (hpage : d.AnswersPage run req root) (v : Int) :
    d.requestHandler { run with noReturn := v } out req root =
      (d.requestHandler run out req root).map fun r => (v, r.2) := by
  simp only [Disk.requestHandler]
  cases hap : getAbsPath run.ap req root with
  | error e => rfl
  | ok looked =>
      cases looked with
      | none => exact badReqHandler_noReturn v
      | some ap =>
          simp only [Exec.ok_bind]
          cases haccess : d.access ap with
          | false => exact badReqHandler_noReturn v
          | true =>
              have hcount : ¬ getEntryCount d.toFileSystem ap < 0 := Int.not_lt.mpr (hpage ap hap haccess)
              simp only [if_true, if_neg hcount]
              exact dirReqHandler_noReturn v

/-- Of a request that is answered with a page `RequestHandler` never reports the delivery: for no page does the result
tell whether the response with it was taken in full, unless something is assumed of the missing `return`. -/
theorem page_unreported (hpage : d.AnswersPage run req root) (page : CStr) :
    ¬ ∀ v, ∃ ret out', d.requestHandler { run with noReturn := v } out req root = .ok (ret, out') ∧
      (ret ≠ 0 ↔ out'.queue = out.queue ++ pageAnswer page) := by
  intro h
  obtain ⟨ret₀, out₀, hrun₀, hiff₀⟩ := h 0
  obtain ⟨ret₁, out₁, hrun₁, hiff₁⟩ := h 1
  rw [requestHandler_noReturn hpage] at hrun₀ hrun₁
  cases hrun : d.requestHandler run out req root with
  | error e =>
      rw [hrun] at hrun₀
      cases hrun₀
  | ok r =>
      rw [hrun] at hrun₀ hrun₁
      obtain ⟨rfl, rfl⟩ := Prod.mk.inj (Except.ok.inj hrun₀)
      obtain ⟨rfl, rfl⟩ := Prod.mk.inj (Except.ok.inj hrun₁)
      exact hiff₀.mpr (hiff₁.mp (by decide)) rfl

end

theorem page_unreported_absent :
    ¬ ∀ v, ∃ ret out', (fileOnly none).requestHandler { Run.cleared with noReturn := v } .fresh (ascii "/b")
        (ascii "/srv") = .ok (ret, out') ∧
      (ret ≠ 0 ↔ out'.queue = Outlet.fresh.queue ++ pageAnswer (errText (ascii "/b"))) := by
  refine page_unreported (fun ap hap haccess => ?_) _
  have habs : absPath (ascii "/b") (ascii "/srv") = some ap := getAbsPath_eq hap
  obtain rfl : ascii "/srv/b" = ap := Option.some.inj habs
  exact absurd haccess (by decide)

/-- The page for a path that does not exist is taken in full, and 0 is returned. -/
theorem page_taken_unreported :
    ∃ calls, (fileOnly none).requestHandler .cleared .fresh (ascii "/b") (ascii "/srv") =
        .ok (0, ⟨calls, pageAnswer (errText (ascii "/b"))⟩) ∧
      ¬ ∃ ret out', (fileOnly none).requestHandler .cleared .fresh (ascii "/b") (ascii "/srv") = .ok (ret, out') ∧
        (ret ≠ 0 ↔ out'.queue = Outlet.fresh.queue ++ pageAnswer (errText (ascii "/b"))) := by
  have habs : absPath (ascii "/b") (ascii "/srv") = some (ascii "/srv/b") := by decide
  have hrun : (fileOnly none).requestHandler .cleared .fresh (ascii "/b") (ascii "/srv") =
      .ok (0, ⟨1, pageAnswer (errText (ascii "/b"))⟩) := by
    rw [Disk.requestHandler_absent rfl habs (by decide),
      badReqHandler_full Run.cleared_serves Run.cleared_sendsAll (by decide) (by decide)]
    rfl
  refine ⟨1, hrun, ?_⟩
  rintro ⟨ret, out', hok, hiff⟩
  obtain ⟨rfl, rfl⟩ := Prod.mk.inj (Except.ok.inj (hrun.symm.trans hok))
  exact hiff.mpr rfl rfl

end CompileService.Http
