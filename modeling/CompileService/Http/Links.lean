import CompileService.Base.Words
import CompileService.Http.Confinement
import CompileService.Http.Segments
import CompileService.Http.Lemmas.Entries

/-!
# Following a link

The link of a row goes out as it is and comes back through the scan of `DoResp`, which ends at white space and sees
the first 2048 bytes of the request.
-/

namespace CompileService.Http

open CompileService.Base

/-- The request `GET <link> HTTP/1.1`, sent to `DoResp`, makes `RequestHandler` look up a path with the components of
`path`, whatever the allocated blocks hold. -/
def Reaches (root link path : CStr) : Prop :=
  ∀ sends b, b.Served → ∃ resp s looked,
    doResp sends b (some ((requestText link []).take peekSize)) = .ok resp ∧ resp.request = some s ∧
      absPath s root = some looked ∧ comps looked = comps path

/-! ## The bytes of the components -/

def compText : Comp CStr → CStr
  | .cur => ascii "."
  | .up => ascii ".."
  | .name s => s

theorem compText_classify (s : CStr) : compText (classify s) = s := by
  unfold classify
  split
  · rename_i h
    exact h.symm
  · split
    · rename_i h
      exact h.symm
    · rfl

/-- The components of a path hold its bytes other than slashes. -/
theorem flatMap_comps (path : CStr) : (comps path).flatMap compText = path.filter (· ≠ slash) := by
  have hid : (fun s => compText (classify s)) = id := funext compText_classify
  rw [comps, List.flatMap_map, hid, List.flatMap_id]
  exact flatten_words slash path

/-- A path that ends in a name has other components when it is cut. -/
theorem eq_of_comps_initial {s link : CStr} (hinit : s <+: link) (hlast : link.getLast? ≠ some slash)
    (h : comps s = comps link) : s = link := by
  obtain ⟨r, rfl⟩ := hinit
  have hbytes : s.filter (· ≠ slash) = (s ++ r).filter (· ≠ slash) := by
    rw [← flatMap_comps, ← flatMap_comps, h]
  rw [List.filter_append] at hbytes
  have hr : r.filter (· ≠ slash) = [] := List.self_eq_append_right.mp hbytes
  cases hrlast : r.getLast? with
  | none => rw [List.getLast?_eq_none_iff.mp hrlast, List.append_nil]
  | some b =>
      have hb : b = slash := by
        have := List.filter_eq_nil_iff.mp hr b (List.mem_of_getLast? hrlast)
        simpa using this
      rw [List.getLast?_append, hrlast, hb] at hlast
      exact absurd rfl hlast

/-! ## The scan -/

section
variable {root link path : CStr}

/-- What the scan makes of the link. -/
def scannedLink (link : CStr) : CStr := (link.takeWhile fun b => !isSpace b).take (peekSize - 4)

theorem request_link (hhead : link.head? = some slash) (h0 : 0 ∉ link) :
    request (untilNul ((requestText link []).take peekSize)) = some (scannedLink link) := by
  obtain ⟨t, rfl⟩ := List.head?_eq_some_iff.mp hhead
  have hget : (ascii "GET ").length = 4 := rfl
  have hpeek : peekSize = 4 + (peekSize - 4) := rfl
  have hnul : 0 ∉ (slash :: t ++ 0x20 :: ascii "HTTP/1.1").take (peekSize - 4) := by
    intro h
    rcases List.mem_append.mp (List.mem_of_mem_take h) with h | h
    · exact h0 h
    · exact absurd h (by decide)
  have hself := untilNul_append hnul []
  rw [List.append_nil] at hself
  have htext : untilNul ((requestText (slash :: t) []).take peekSize) =
      ascii "GET" ++ 0x20 :: (slash :: t ++ 0x20 :: ascii "HTTP/1.1").take (peekSize - 4) := by
    rw [hpeek, ← hget, requestText, List.take_length_add_append, untilNul_append (by decide), hget]
    exact congrArg (fun u => ascii "GET " ++ u) (hself.trans (List.append_nil _))
  have hspace : isSpace slash = false := by decide
  have hcut : (slash :: t ++ 0x20 :: ascii "HTTP/1.1").takeWhile (fun b => !isSpace b) =
      (slash :: t).takeWhile fun b => !isSpace b := by
    have hblank : isSpace 0x20 = true := by decide
    rw [List.takeWhile_append]
    split
    · rw [List.takeWhile_cons_of_neg (by simp [hblank]), List.append_nil]
      rename_i hall
      exact (List.takeWhile_prefix _).eq_of_length hall |>.symm
    · rfl
  have hword : word (0x20 :: (slash :: t ++ 0x20 :: ascii "HTTP/1.1").take (peekSize - 4)) =
      scannedLink (slash :: t) := by
    rw [word_cons rfl, word_eq_takeWhile, ← List.take_takeWhile, hcut, scannedLink]
    intro b hb
    obtain rfl := Option.some.inj hb
    exact hspace
  rw [htext, request_append, hword, if_neg]
  rw [scannedLink, List.takeWhile_cons_of_pos (by simp [hspace])]
  exact List.cons_ne_nil _ _

theorem scannedLink_initial (link : CStr) : scannedLink link <+: link :=
  (List.take_prefix _ _).trans (List.takeWhile_prefix _)

theorem scannedLink_eq_iff (link : CStr) :
    scannedLink link = link ↔ (∀ b ∈ link, isSpace b = false) ∧ 4 + link.length ≤ peekSize := by
  constructor
  · intro h
    have hsub : link.Sublist (link.takeWhile fun b => !isSpace b) := by
      conv_lhs => rw [← h]
      exact List.take_sublist _ _
    have hlen : link.length ≤ peekSize - 4 := by
      conv_lhs => rw [← h]
      exact List.length_take_le _ _
    refine ⟨fun b hb => ?_, by unfold peekSize at *; omega⟩
    simpa using List.mem_takeWhile_imp (hsub.subset hb)
  · rintro ⟨hspace, hlen⟩
    have hall : link.takeWhile (fun b => !isSpace b) = link :=
      List.takeWhile_eq_self_iff.mpr fun b hb => by simp [hspace b hb]
    rw [scannedLink, hall, List.take_of_length_le (by omega)]

/-! ## The lookup -/

theorem exists_absPath {root : CStr} (hroot : root ≠ []) (s : CStr) : ∃ looked, absPath s root = some looked := by
  simp only [absPath, getAbsPath, if_true, hroot, if_false]
  exact ⟨_, rfl⟩

theorem doResp_link (sends : CStr → Nat) {b : Blocks} (hb : b.Served) (hhead : link.head? = some slash)
    (h0 : 0 ∉ link) :
    ∃ resp, doResp sends b (some ((requestText link []).take peekSize)) = .ok resp ∧
      resp.request = some (scannedLink link) := by
  have hlen : ((requestText link []).take peekSize).length ≤ peekSize := List.length_take_le _ _
  have hne : (requestText link []).take peekSize ≠ [] := List.cons_ne_nil _ _
  obtain ⟨buf, blk, req, rfl, hbuf⟩ := hb.exists_blocks hlen
  exact ⟨_, doResp_request hne hlen hbuf (request_link hhead h0) req, rfl⟩

/-- A link is followed exactly if the scan brings it back. -/
theorem reaches_iff (hroot : root ≠ []) (hhead : link.head? = some slash) (hlast : link.getLast? ≠ some slash)
    (h0 : 0 ∉ link) (hpath : comps path = comps root ++ comps link) :
    Reaches root link path ↔ (∀ b ∈ link, isSpace b = false) ∧ 4 + link.length ≤ peekSize := by
  have hdoResp : ∀ (sends : CStr → Nat) (b : Blocks), b.Served →
      ∃ resp, doResp sends b (some ((requestText link []).take peekSize)) = .ok resp ∧
        resp.request = some (scannedLink link) :=
    fun sends b hb => doResp_link sends hb hhead h0
  obtain ⟨looked, hlooked⟩ := exists_absPath hroot (scannedLink link)
  have hcomps := (comps_absPath hlooked).1
  rw [← scannedLink_eq_iff]
  constructor
  · intro h
    have hserved : (⟨Malloc.zeroed, some (Vector.replicate 2048 0)⟩ : Blocks).Served :=
      ⟨Malloc.zeroed_serves, Option.some_ne_none _⟩
    obtain ⟨resp, s, looked', hrun, hreq, hlooked', hsame⟩ := h (fun _ => 0) _ hserved
    obtain ⟨resp', hrun', hreq'⟩ := hdoResp (fun _ => 0) _ hserved
    obtain rfl := Except.ok.inj (hrun.symm.trans hrun')
    obtain rfl := Option.some.inj (hreq.symm.trans hreq')
    rw [(comps_absPath hlooked').1, hpath] at hsame
    exact eq_of_comps_initial (scannedLink_initial link) hlast (List.append_cancel_left hsame)
  · intro h sends b hb
    obtain ⟨resp, hrun, hreq⟩ := hdoResp sends b hb
    exact ⟨resp, scannedLink link, looked, hrun, hreq, hlooked, by rw [hcomps, h, hpath]⟩

/-! ## The links of a listing -/

/-- The name of an entry as it stands in a directory. -/
def Dirent.Plain (dp : Dirent) : Prop := dp.name ≠ [] ∧ 0 ∉ dp.name ∧ slash ∉ dp.name

instance (dp : Dirent) : Decidable dp.Plain := inferInstanceAs (Decidable (_ ∧ _ ∧ _))

theorem comps_linkOf (req name : CStr) : comps (linkOf req name) = comps req ++ comps name := by
  unfold linkOf
  split
  · rename_i h
    rw [h]
    exact comps_cons_slash name
  · rw [List.append_assoc]
    exact comps_append req name

theorem head_linkOf {req : CStr} (h : req.head? = some slash) (name : CStr) :
    (linkOf req name).head? = some slash := by
  obtain ⟨t, rfl⟩ := List.head?_eq_some_iff.mp h
  unfold linkOf
  split <;> rfl

variable {d : Disk} {heap : EntryHeap} {req ap : CStr} {type : UInt8} {entries : List Dirent} {fe : FileEntry}

/-- Following a link. Each row that `GetEntry` makes belongs to an entry, and its link leads to the path on which
`stat` was called for the entry if and only if it has no white space and `GET` with it fits the look at the request. -/
theorem link_followed_iff (hhead : req.head? = some slash) (hreq : 0 ∉ req) (habs : absPath req root = some ap)
    (hdir : d.opendir ap = some entries) (hnames : ∀ dp ∈ entries, dp.Plain)
    (hrun : d.getEntry heap req root type = .ok (some fe)) {row : RowInfo} (hrow : row ∈ fe.rows) :
    ∃ dp ∈ entries, ∃ link path, row.name.text = .ok dp.name ∧ row.link.text = .ok link ∧
      absPath dp.name ap = some path ∧ d.stat path ≠ none ∧
        (Reaches root link path ↔ (∀ b ∈ link, isSpace b = false) ∧ 4 + link.length ≤ peekSize) := by
  have hroot : root ≠ [] := by
    rintro rfl
    cases habs
  have hnul : ∀ dp ∈ entries, 0 ∉ dp.name := fun dp hdp => (hnames dp hdp).2.1
  rcases Disk.getEntry_cases heap type hreq habs hdir hnul with
    ⟨hnone, _⟩ | ⟨herror, _⟩ | ⟨dps, fe₁, fe', hrun', hholding, hperm, hsub, _⟩
  · rw [hnone] at hrun
    cases hrun
  · rw [herror] at hrun
    cases hrun
  · obtain rfl := Option.some.inj (Except.ok.inj (hrun.symm.trans hrun'))
    obtain ⟨dp, hdp, hmade⟩ := hholding.mem_rows (hperm.mem_iff.mp hrow)
    obtain ⟨hentry, hlisted⟩ := List.mem_filter.mp (hsub.subset hdp)
    have hstat : d.stat (dp.path ap) ≠ none := (of_decide_eq_true hlisted).2.2
    obtain ⟨hne, hname0, hnoslash⟩ := hnames dp hentry
    obtain ⟨path, hpath⟩ := exists_absPath (absPath_ne_nil habs) dp.name
    have hpath' : dp.path ap = path := by rw [Dirent.path, hpath]; rfl
    refine ⟨dp, hentry, linkOf req dp.name, path, hmade.name, hmade.link, hpath, hpath' ▸ hstat, ?_⟩
    refine reaches_iff hroot (head_linkOf hhead dp.name) ?_ (CArray.text_ok hmade.link).1 ?_
    · intro hlast
      rw [linkOf, List.getLast?_append] at hlast
      cases hb : dp.name.getLast? with
      | none => exact hne (List.getLast?_eq_none_iff.mp hb)
      | some b =>
          rw [hb] at hlast
          exact hnoslash (Option.some.inj hlast ▸ List.mem_of_getLast? hb)
    · rw [comps_linkOf, (comps_absPath hpath).1, (comps_absPath habs).1, List.append_assoc]

end

/-- A directory with the subdirectory `c` and a file that has a blank in its name. -/
def blankName : Disk where
  access := fun _ => true
  opendir := fun path =>
    if path = ascii "/srv/" then some [⟨ascii "a b", typeFile⟩, ⟨ascii "c", typeDir⟩] else none
  openFile := fun _ => none
  stat := fun _ => some 1

theorem link_followed_dir :
    ∃ fe row path, blankName.getEntry .zeroed (ascii "/") (ascii "/srv") typeDir = .ok (some fe) ∧ row ∈ fe.rows ∧
      row.link.text = .ok (ascii "/c") ∧ Reaches (ascii "/srv") (ascii "/c") path := by
  have hlinks : (blankName.getEntry .zeroed (ascii "/") (ascii "/srv") typeDir).map
      (fun fe => fe.map fun fe => fe.rows.map fun row => row.link.text) = .ok (some [.ok (ascii "/c")]) := by
    decide +kernel
  have habs : absPath (ascii "/") (ascii "/srv") = some (ascii "/srv/") := by decide
  have hdir : blankName.opendir (ascii "/srv/") = some [⟨ascii "a b", typeFile⟩, ⟨ascii "c", typeDir⟩] := by decide
  have hnames : ∀ dp ∈ [(⟨ascii "a b", typeFile⟩ : Dirent), ⟨ascii "c", typeDir⟩], dp.Plain := by decide
  cases hrun : blankName.getEntry .zeroed (ascii "/") (ascii "/srv") typeDir with
  | error e =>
      rw [hrun] at hlinks
      cases hlinks
  | ok r =>
      rw [hrun] at hlinks
      obtain ⟨fe, rfl, hrows⟩ := Option.map_eq_some_iff.mp (Except.ok.inj hlinks)
      obtain ⟨row, rows, hfe, hlink, _⟩ := List.map_eq_cons_iff.mp hrows
      have hrow : row ∈ fe.rows := by
        rw [hfe]
        exact List.mem_cons_self
      obtain ⟨_, _, link, path, _, htext, _, _, hiff⟩ :=
        link_followed_iff (by decide) (by decide) habs hdir hnames hrun hrow
      obtain rfl := Except.ok.inj (hlink.symm.trans htext)
      exact ⟨fe, row, path, rfl, hrow, hlink, hiff.mpr (by decide +kernel)⟩

/-- The link of a name with a blank is cut by the scan. -/
theorem link_cut :
    (blankName.getEntry .zeroed (ascii "/") (ascii "/srv") typeFile).map
        (fun fe => fe.map fun fe => fe.rows.map fun row => row.link.text) = .ok (some [.ok (ascii "/a b")]) ∧
      absPath (ascii "a b") (ascii "/srv/") = some (ascii "/srv/a b") ∧
      ¬ Reaches (ascii "/srv") (ascii "/a b") (ascii "/srv/a b") := by
  refine ⟨by decide +kernel, by decide, fun h => ?_⟩
  have hserved : (⟨Malloc.zeroed, some (Vector.replicate 2048 0)⟩ : Blocks).Served :=
    ⟨Malloc.zeroed_serves, Option.some_ne_none _⟩
  have hcut : (doResp (fun _ => 0) ⟨Malloc.zeroed, some (Vector.replicate 2048 0)⟩
      (some ((requestText (ascii "/a b") []).take peekSize))).map Resp.request = .ok (some (ascii "/a")) := by
    decide +kernel
  obtain ⟨resp, s, looked, hrun, hreq, hlooked, hcomps⟩ := h (fun _ => 0) _ hserved
  rw [hrun] at hcut
  obtain rfl := Option.some.inj (hreq.symm.trans (Except.ok.inj hcut))
  have hpath : absPath (ascii "/a") (ascii "/srv") = some (ascii "/srv/a") := by decide
  obtain rfl := Option.some.inj (hpath.symm.trans hlooked)
  exact absurd hcomps (by decide)

end CompileService.Http
