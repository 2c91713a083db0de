import CompileService.Http.ClientView
import CompileService.Http.Links
import Mathlib.Logic.Relation

/-!
# Browsing

A client that starts at the root follows the links of the pages that it sees: each click sends the link of a row as the
next request, which comes back through the scan of `DoResp`. By clicks it gets to the places of the directory tree and
to no others.
-/

namespace CompileService.Http

open CompileService.Base CompileService.Wire

/-- The request of the place that is reached from the root over these names. -/
def requestOf (ns : List CStr) : CStr := if ns = [] then [slash] else ns.flatMap (slash :: ·)

/-- A name that can be told from what follows it in a page, in a link and in a request. -/
def CleanName (n : CStr) : Prop :=
  n ≠ [] ∧ ∀ b ∈ n, b ≠ 0 ∧ b ≠ slash ∧ b ≠ 0x22 ∧ b ≠ 0x3c ∧ isSpace b = false

instance (n : CStr) : Decidable (CleanName n) := inferInstanceAs (Decidable (_ ∧ _))

/-- The times that the allocator leaves in the slots do not end early in a page. -/
def EntryHeap.PlainTimes (heap : EntryHeap) : Prop :=
  ∀ k slot, heap.slot k = some slot → 0x3c ∉ untilNul slot.time.toList

/-- A click: the run of the server that makes the page, the number of the row, and the blocks of the `DoResp` that
receives its link. -/
structure Click where
  run : Run
  row : Nat
  blocks : Blocks

structure Click.Sound (c : Click) : Prop where
  serves : c.run.Serves
  sends : c.run.SendsAll
  dirs : c.run.page.dirs.PlainTimes
  files : c.run.page.files.PlainTimes
  blocks : c.blocks.Served

/-- A click on the row number `i`, with cleared memory. -/
def Click.cleared (i : Nat) : Click := ⟨.cleared, i, ⟨.zeroed, some (Vector.replicate 2048 0)⟩⟩

theorem EntryHeap.filled_plain : (EntryHeap.filled RowInfo.zeroed).PlainTimes := by
  intro k slot hslot
  rw [EntryHeap.filled_slot] at hslot
  obtain rfl := Option.some.inj hslot
  decide

theorem Click.cleared_sound (i : Nat) : (Click.cleared i).Sound :=
  ⟨Run.cleared_serves, Run.cleared_sendsAll, EntryHeap.filled_plain, EntryHeap.filled_plain,
    Malloc.zeroed_serves, Option.some_ne_none _⟩

namespace Disk

/-- What `RequestHandler` is called with after the click. -/
def click (d : Disk) (root req : CStr) (c : Click) : Option CStr :=
  match d.requestHandler c.run .fresh req root with
  | .error _ => none
  | .ok (_, out) => do
      let (_, rows) ← readAnswer out.queue
      let r ← rows[c.row]?
      match doResp (fun _ => 0) c.blocks (some ((requestText r.link []).take peekSize)) with
      | .error _ => none
      | .ok resp => resp.request

/-- One click leads from `req` to `req'`. -/
def Follows (d : Disk) (root req req' : CStr) : Prop := ∃ c : Click, c.Sound ∧ d.click root req c = some req'

/-- The names lead from the root through directories to an entry that is listed. -/
inductive Walkable (d : Disk) (root : CStr) : List CStr → Prop where
  | root : Walkable d root []
  | entry {ns : List CStr} {ap : CStr} {entries : List Dirent} {dp : Dirent} (hns : Walkable d root ns)
      (hfinds : d.Finds (requestOf ns) root ap entries)
      (hlisted : dp ∈ d.listed ap typeDir entries ∨ dp ∈ d.listed ap typeFile entries) :
      Walkable d root (ns ++ [dp.name])

/-- The names that lead to listed entries are clean, each such name fits its row and its link the look at the request,
and no page of a directory among them outgrows `int`. Of other directories only the C strings are asked. -/
structure Tidy (d : Disk) (root : CStr) : Prop where
  nul : ∀ path entries, d.opendir path = some entries → ∀ dp ∈ entries, 0 ∉ dp.name
  names : ∀ ns, d.Walkable root ns → ∀ n ∈ ns, CleanName n
  fits : ∀ ns n, d.Walkable root (ns ++ [n]) → n.length < 255 ∧ 4 + (requestOf (ns ++ [n])).length ≤ peekSize
  pages : ∀ ns ap entries, d.Walkable root ns → d.Finds (requestOf ns) root ap entries →
    (pageAnswer (pageText (requestOf ns) (d.pageRows Run.cleared.page ap (requestOf ns) entries))).length < 2 ^ 31

end Disk

/-! ## Requests of places -/

section
variable {ns : List CStr} {n : CStr} {b : UInt8}

theorem mem_requestOf (h : b ∈ requestOf ns) : b = slash ∨ ∃ n ∈ ns, b ∈ n := by
  unfold requestOf at h
  split at h
  · exact .inl (List.mem_singleton.mp h)
  · obtain ⟨n, hn, hb⟩ := List.mem_flatMap.mp h
    rcases List.mem_cons.mp hb with rfl | hb
    · exact .inl rfl
    · exact .inr ⟨n, hn, hb⟩

theorem head_requestOf (ns : List CStr) : (requestOf ns).head? = some slash := by
  cases ns with
  | nil => rfl
  | cons n ns => rfl

theorem requestOf_eq_root (hns : ∀ n ∈ ns, n ≠ []) : requestOf ns = ascii "/" ↔ ns = [] := by
  cases ns with
  | nil => exact iff_of_true rfl rfl
  | cons n ns =>
      refine iff_of_false (fun h => ?_) (List.cons_ne_nil n ns)
      have hroot : ascii "/" = [slash] := rfl
      rw [requestOf, if_neg (List.cons_ne_nil n ns), hroot, List.flatMap_cons, List.cons_append] at h
      exact hns n List.mem_cons_self (List.append_eq_nil_iff.mp (List.cons.inj h).2).1

theorem requestOf_snoc (ns : List CStr) (n : CStr) : requestOf (ns ++ [n]) = ns.flatMap (slash :: ·) ++ slash :: n := by
  rw [requestOf, if_neg (List.append_ne_nil_of_right_ne_nil ns (List.cons_ne_nil n [])), List.flatMap_append,
    List.flatMap_singleton]

theorem linkOf_requestOf (hns : ∀ n ∈ ns, n ≠ []) (n : CStr) : linkOf (requestOf ns) n = requestOf (ns ++ [n]) := by
  have hroot : ascii "/" = [slash] := rfl
  rw [requestOf_snoc, linkOf]
  by_cases hnil : ns = []
  · subst hnil
    rfl
  · rw [if_neg (mt (requestOf_eq_root hns).mp hnil), requestOf, if_neg hnil, hroot, List.append_assoc,
      List.singleton_append]

theorem parentLink_requestOf (hn : slash ∉ n) : parentLink (requestOf (ns ++ [n])) = requestOf ns := by
  rw [requestOf_snoc, parentLink_eq hn, requestOf]
  cases ns with
  | nil => rfl
  | cons m ns => rfl

theorem CleanName.nonempty (hns : ∀ n ∈ ns, CleanName n) : ∀ n ∈ ns, n ≠ [] := fun n hn => (hns n hn).1

/-- The request of a place has no NUL, no white space and no end of a text. -/
theorem clean_requestOf (hns : ∀ n ∈ ns, CleanName n) (hb : b ∈ requestOf ns) :
    b ≠ 0 ∧ b ≠ 0x22 ∧ b ≠ 0x3c ∧ isSpace b = false := by
  rcases mem_requestOf hb with rfl | ⟨n, hn, hb⟩
  · decide
  · obtain ⟨h0, _, hquote, htag, hspace⟩ := (hns n hn).2 b hb
    exact ⟨h0, hquote, htag, hspace⟩

theorem comps_requestOf (hns : ∀ n ∈ ns, CleanName n ∧ isDotPath n = false) :
    comps (requestOf ns) = ns.map Comp.name := by
  induction ns using List.reverseRecOn with
  | nil => rfl
  | append_singleton ns n ih =>
      obtain ⟨hns, hlast⟩ := List.forall_mem_append.mp hns
      obtain ⟨⟨hne, hclean⟩, hdot⟩ := hlast n (List.mem_singleton_self n)
      have hnoslash : slash ∉ n := fun h => (hclean slash h).2.1 rfl
      have hone : comps n = [.name n] := by
        have hwords : (n.splitOn slash).filter (· ≠ []) = [n] := words_singleton hnoslash hne
        have hdot' : n ≠ ascii "." ∧ n ≠ ascii ".." := by simpa [isDotPath] using hdot
        rw [comps, hwords, List.map_singleton, classify, if_neg hdot'.1, if_neg hdot'.2]
      rw [← linkOf_requestOf (fun m hm => (hns m hm).1.1), comps_linkOf, ih hns, hone, List.map_append,
        List.map_singleton]

end

/-! ## Rows of a tidy directory -/

namespace Disk

section
variable {d : Disk} {root ap req path : CStr} {ns : List CStr} {entries : List Dirent} {heap : PageHeap} {run : Run}
  {rs : List Row} {r : Row}

theorem sizeOf_plain (d : Disk) (ap : CStr) (dp : Dirent) : 0x3c ∉ d.sizeOf ap dp := by
  have hdecimal : ∀ n, 0x3c ∉ decimal n := by
    intro n h
    rcases isDigit_or_minus_of_mem_decimal h with h | h
    · exact absurd h (by decide)
    · exact absurd h (by decide)
  have hunits : 0x3c ∉ ascii " Byte" ∧ 0x3c ∉ ascii " KB" ∧ 0x3c ∉ ascii " MB" ∧ 0x3c ∉ ascii " Item" := by decide
  unfold sizeOf sizeText
  split
  · split
    · exact fun h => (List.mem_append.mp h).elim (hdecimal _) hunits.1
    · split
      · exact fun h => (List.mem_append.mp h).elim (hdecimal _) hunits.2.1
      · exact fun h => (List.mem_append.mp h).elim (hdecimal _) hunits.2.2.1
  · exact fun h => (List.mem_append.mp h).elim (hdecimal _) hunits.2.2.2

/-- A row of the page of a place: it leads to the parent, or to a listed entry. -/
theorem mem_pageRows (h : r ∈ d.pageRows heap ap req entries) :
    (req ≠ ascii "/" ∧ r = backOf req) ∨
      ∃ dp entryHeap k, (dp ∈ d.listed ap typeDir entries ∨ dp ∈ d.listed ap typeFile entries) ∧
        (entryHeap = heap.dirs ∨ entryHeap = heap.files) ∧ r = d.rowOf ap req dp (entryHeap.slot k) := by
  have hrows : ∀ {entryHeap dps}, r ∈ d.rowsOf entryHeap ap req dps →
      ∃ dp k, dp ∈ dps ∧ r = d.rowOf ap req dp (entryHeap.slot k) := by
    intro entryHeap dps h
    obtain ⟨⟨dp, k⟩, hdp, rfl⟩ := List.mem_map.mp h
    exact ⟨dp, k, List.fst_mem_of_mem_zipIdx hdp, rfl⟩
  rcases List.mem_append.mp h with h | h
  · rcases List.mem_append.mp h with h | h
    · unfold backTexts at h
      split at h
      · exact absurd h List.not_mem_nil
      · rename_i hroot
        exact .inl ⟨hroot, List.mem_singleton.mp h⟩
    · obtain ⟨dp, k, hdp, rfl⟩ := hrows h
      exact .inr ⟨dp, _, k, .inl hdp, .inl rfl, rfl⟩
  · obtain ⟨dp, k, hdp, rfl⟩ := hrows h
    exact .inr ⟨dp, _, k, .inr hdp, .inr rfl, rfl⟩

theorem mem_of_listed {dp : Dirent} (h : dp ∈ d.listed ap typeDir entries ∨ dp ∈ d.listed ap typeFile entries) :
    dp ∈ entries ∧ isDotPath dp.name = false := by
  rcases h with h | h
  · obtain ⟨hentry, hl⟩ := List.mem_filter.mp h
    exact ⟨hentry, (of_decide_eq_true hl).2.1⟩
  · obtain ⟨hentry, hl⟩ := List.mem_filter.mp h
    exact ⟨hentry, (of_decide_eq_true hl).2.1⟩

theorem row_of_listed {dp : Dirent} (heap : PageHeap) (ap req : CStr)
    (h : dp ∈ d.listed ap typeDir entries ∨ dp ∈ d.listed ap typeFile entries) :
    ∃ r ∈ d.pageRows heap ap req entries, r.link = linkOf req dp.name := by
  have hrows : ∀ entryHeap {dps}, dp ∈ dps → ∃ r ∈ d.rowsOf entryHeap ap req dps, r.link = linkOf req dp.name := by
    intro entryHeap dps hdp
    obtain ⟨k, hk⟩ := List.mem_iff_getElem?.mp hdp
    exact ⟨_, List.mem_map.mpr ⟨(dp, k), List.mk_mem_zipIdx_iff_getElem?.mpr hk, rfl⟩, rfl⟩
  rcases h with h | h
  · obtain ⟨r, hr, hlink⟩ := hrows heap.dirs h
    exact ⟨r, List.mem_append_left _ (List.mem_append_right _ hr), hlink⟩
  · obtain ⟨r, hr, hlink⟩ := hrows heap.files h
    exact ⟨r, List.mem_append_right _ hr, hlink⟩

/-! ## Places -/

theorem Walkable.dotless (h : d.Walkable root ns) : ∀ n ∈ ns, isDotPath n = false := by
  induction h with
  | root => exact fun n hn => absurd hn List.not_mem_nil
  | entry _ _ hlisted ih =>
      refine List.forall_mem_append.mpr ⟨ih, fun n hn => ?_⟩
      obtain rfl := List.mem_singleton.mp hn
      exact (mem_of_listed hlisted).2

theorem Walkable.length (htidy : d.Tidy root) (h : d.Walkable root ns) : 4 + (requestOf ns).length ≤ peekSize := by
  rcases List.eq_nil_or_concat' ns with rfl | ⟨ms, n, rfl⟩
  · decide
  · exact (htidy.fits ms n h).2

theorem Walkable.request (htidy : d.Tidy root) (h : d.Walkable root ns) :
    0 ∉ requestOf ns ∧ 0x3c ∉ requestOf ns ∧ (requestOf ns).length < 2048 := by
  have hclean := htidy.names ns h
  have hlen := h.length htidy
  unfold peekSize at hlen
  exact ⟨fun hb => (clean_requestOf hclean hb).1 rfl, fun hb => (clean_requestOf hclean hb).2.2.1 rfl, by omega⟩

theorem Walkable.parent {n : CStr} (h : d.Walkable root (ns ++ [n])) : d.Walkable root ns := by
  generalize hms : ns ++ [n] = ms at h
  cases h with
  | root => exact absurd hms (List.append_ne_nil_of_right_ne_nil ns (List.cons_ne_nil n []))
  | entry hns _ _ =>
      obtain ⟨rfl, _⟩ := List.append_inj' hms rfl
      exact hns

/-- All rows of the page of a place are plain. -/
theorem Tidy.plain (htidy : d.Tidy root) (hns : d.Walkable root ns) (hfinds : d.Finds (requestOf ns) root ap entries)
    (hdirs : heap.dirs.PlainTimes) (hfiles : heap.files.PlainTimes) :
    ∀ r ∈ d.pageRows heap ap (requestOf ns) entries, r.Plain := by
  have hclean := htidy.names ns hns
  have hquote : ∀ {ms : List CStr}, (∀ n ∈ ms, CleanName n) → 0x22 ∉ requestOf ms :=
    fun hms hb => (clean_requestOf hms hb).2.1 rfl
  intro r hr
  rcases mem_pageRows hr with ⟨hroot, rfl⟩ | ⟨dp, entryHeap, k, hlisted, hheap, rfl⟩
  · have hne : ns ≠ [] := mt (requestOf_eq_root (CleanName.nonempty hclean)).mpr hroot
    obtain ⟨ms, n, rfl⟩ := (List.eq_nil_or_concat' ns).resolve_left hne
    have hnoslash : slash ∉ n := fun h => ((hclean n (by simp)).2 slash h).2.1 rfl
    have hback : 0x3c ∉ ascii "./.." ∧ 0x3c ∉ ascii "Back.." := by decide
    refine ⟨?_, hback.1, hback.2, List.not_mem_nil, List.not_mem_nil⟩
    rw [backOf, parentLink_requestOf hnoslash]
    exact hquote fun m hm => hclean m (List.mem_append_left _ hm)
  · have hplace := htidy.names _ (hns.entry hfinds hlisted)
    have hname : CleanName dp.name := hplace dp.name (by simp)
    refine ⟨?_, fun h => (hname.2 _ h).2.2.2.1 rfl, ?_, sizeOf_plain d ap dp, ?_⟩
    · rw [rowOf, linkOf_requestOf (CleanName.nonempty hclean)]
      exact hquote hplace
    · simp only [rowOf, Dirent.typeText]
      split
      · decide
      · decide
    · have htimes : entryHeap.PlainTimes := hheap.elim (fun h => h ▸ hdirs) fun h => h ▸ hfiles
      simp only [rowOf]
      cases hslot : entryHeap.slot k with
      | none => exact List.not_mem_nil
      | some slot => exact htimes k slot hslot

/-- What the client of a place sees is its listing. -/
theorem Tidy.shows (htidy : d.Tidy root) (hns : d.Walkable root ns) (hfinds : d.Finds (requestOf ns) root ap entries)
    {c : Click} (hc : c.Sound) (hshows : d.Shows c.run (requestOf ns) root path rs) :
    d.IsListing c.run.page ap (requestOf ns) entries rs := by
  obtain ⟨ret, out, hrun, hread⟩ := hshows
  obtain ⟨habs, haccess, hdir⟩ := hfinds
  obtain ⟨hreq, htag, hlen⟩ := hns.request htidy
  have hnames := htidy.nul ap entries hdir
  rw [requestHandler_dir hc.serves.ap habs haccess hdir] at hrun
  rcases dirReqHandler_cases hc.serves hc.sends hreq hlen habs hdir hnames with ⟨⟨hbuild, hshort⟩, _⟩ | ⟨_, hlost⟩
  · obtain ⟨rs₀, hrs₀, hshort₀, hsent⟩ :=
      dirReqHandler_listed hc.serves hc.sends hreq hlen habs hdir hnames hbuild hshort
    rw [hsent] at hrun
    obtain ⟨_, rfl⟩ := Prod.mk.inj (Except.ok.inj hrun)
    have hplain := htidy.plain hns ⟨habs, haccess, hdir⟩ hc.dirs hc.files
    have hback : readPage (pageText (requestOf ns) rs₀) = some (requestOf ns, rs₀) :=
      readPage_eq_some_iff.mpr ⟨⟨htag, fun r hr => hplain r (hrs₀.perm.mem_iff.mp hr)⟩, rfl⟩
    rw [readAnswer_pageAnswer hshort₀, hback] at hread
    obtain ⟨_, rfl⟩ := Prod.mk.inj (Option.some.inj hread)
    exact hrs₀
  · rw [hlost] at hrun
    cases hrun

/-- The link of a row leads to a place again. -/
theorem Tidy.leads (htidy : d.Tidy root) (hns : d.Walkable root ns) (hfinds : d.Finds (requestOf ns) root ap entries)
    (hr : r ∈ d.pageRows heap ap (requestOf ns) entries) : ∃ ms, d.Walkable root ms ∧ r.link = requestOf ms := by
  have hclean := htidy.names ns hns
  rcases mem_pageRows hr with ⟨hroot, rfl⟩ | ⟨dp, _, k, hlisted, _, rfl⟩
  · have hne : ns ≠ [] := mt (requestOf_eq_root (CleanName.nonempty hclean)).mpr hroot
    obtain ⟨ms, n, rfl⟩ := (List.eq_nil_or_concat' ns).resolve_left hne
    have hnoslash : slash ∉ n := fun h => ((hclean n (by simp)).2 slash h).2.1 rfl
    exact ⟨ms, hns.parent, parentLink_requestOf hnoslash⟩
  · exact ⟨_, .entry hns hfinds hlisted, linkOf_requestOf (CleanName.nonempty hclean) dp.name⟩

/-- The request of a place comes back through the scan. -/
theorem Walkable.scanned (htidy : d.Tidy root) (h : d.Walkable root ns) {b : Blocks} (hb : b.Served) :
    ∃ resp, doResp (fun _ => 0) b (some ((requestText (requestOf ns) []).take peekSize)) = .ok resp ∧
      resp.request = some (requestOf ns) := by
  have hclean := htidy.names ns h
  obtain ⟨resp, hrun, hreq⟩ := doResp_link (fun _ => 0) hb (head_requestOf ns)
    fun h0 => (clean_requestOf hclean h0).1 rfl
  have hscan := (scannedLink_eq_iff (requestOf ns)).mpr
    ⟨fun b hb => (clean_requestOf hclean hb).2.2.2, h.length htidy⟩
  exact ⟨resp, hrun, by rw [hreq, hscan]⟩

/-! ## Clicks -/

/-- A click on the page of a place leads to a place. -/
theorem Follows.walks {req : CStr} (htidy : d.Tidy root) (hns : d.Walkable root ns)
    (h : d.Follows root (requestOf ns) req) : ∃ ms, d.Walkable root ms ∧ req = requestOf ms := by
  obtain ⟨c, hc, hclick⟩ := h
  obtain ⟨hreq, _, hlen⟩ := hns.request htidy
  unfold click at hclick
  split at hclick
  · cases hclick
  · rename_i ret out hrun
    simp only [Option.bind_eq_bind, Option.bind_eq_some_iff] at hclick
    obtain ⟨⟨path, rows⟩, hread, r, hr, hresp⟩ := hclick
    have hshows : d.Shows c.run (requestOf ns) root path rows := ⟨ret, out, hrun, hread⟩
    obtain ⟨ap, entries, hfinds⟩ := finds_of_shows hc.serves hc.sends hreq hlen hshows
    have hlisting := htidy.shows hns hfinds hc hshows
    obtain ⟨ms, hms, hlink⟩ := htidy.leads hns hfinds (hlisting.perm.mem_iff.mp (List.mem_of_getElem? hr))
    obtain ⟨resp, hdo, hback⟩ := hms.scanned htidy hc.blocks
    simp only [hlink, hdo, hback] at hresp
    exact ⟨ms, hms, (Option.some.inj hresp).symm⟩

/-- The page of a place is legible with cleared memory. -/
theorem Tidy.legible (htidy : d.Tidy root) (hns : d.Walkable root ns)
    (hfinds : d.Finds (requestOf ns) root ap entries) :
    d.Legible Run.cleared.page ap (requestOf ns) entries := by
  have hslash : slash ∈ requestOf ns := List.mem_of_mem_head? (head_requestOf ns)
  have htimes : ∀ n, (EntryHeap.filled RowInfo.zeroed).Terminated n := fun n k _ =>
    ⟨RowInfo.zeroed, EntryHeap.filled_slot _ k, by decide⟩
  refine ⟨⟨hslash, fun dp hdp => ?_, htimes _, htimes _⟩, htidy.pages ns ap entries hns hfinds, (hns.request htidy).2.1,
    htidy.plain hns hfinds EntryHeap.filled_plain EntryHeap.filled_plain⟩
  obtain ⟨hname, hlink⟩ := htidy.fits ns dp.name (hns.entry hfinds (List.mem_append.mp hdp))
  unfold peekSize at hlink
  rw [Dirent.Fits, linkOf_requestOf (CleanName.nonempty (htidy.names ns hns))]
  exact ⟨hname, by omega⟩

/-- An entry of the page of a place is one click away. -/
theorem Walkable.follows {dp : Dirent} (htidy : d.Tidy root) (hns : d.Walkable root ns)
    (hfinds : d.Finds (requestOf ns) root ap entries)
    (hlisted : dp ∈ d.listed ap typeDir entries ∨ dp ∈ d.listed ap typeFile entries) :
    d.Follows root (requestOf ns) (requestOf (ns ++ [dp.name])) := by
  obtain ⟨habs, haccess, hdir⟩ := hfinds
  obtain ⟨hreq, _, hlen⟩ := hns.request htidy
  obtain ⟨rs, hlisting, ret, out, hrun, hread⟩ := (shows_dir_iff Run.cleared_serves Run.cleared_sendsAll hreq hlen habs
    haccess hdir (htidy.nul ap entries hdir)).mpr (htidy.legible hns ⟨habs, haccess, hdir⟩)
  obtain ⟨r, hr, hlink⟩ := row_of_listed Run.cleared.page ap (requestOf ns) hlisted
  rw [linkOf_requestOf (CleanName.nonempty (htidy.names ns hns))] at hlink
  obtain ⟨i, hi⟩ := List.mem_iff_getElem?.mp (hlisting.perm.mem_iff.mpr hr)
  obtain ⟨resp, hdo, hback⟩ := (hns.entry ⟨habs, haccess, hdir⟩ hlisted).scanned htidy (Click.cleared_sound i).blocks
  refine ⟨.cleared i, Click.cleared_sound i, ?_⟩
  have hrun' : d.requestHandler (Click.cleared i).run .fresh (requestOf ns) root = .ok (ret, out) := hrun
  have hi' : rs[(Click.cleared i).row]? = some r := hi
  simp only [click, hrun', hread, hi', hlink, hdo, hback, Option.bind_eq_bind, Option.bind_some]

theorem browse_places (htidy : d.Tidy root) (req : CStr) :
    Relation.ReflTransGen (d.Follows root) (ascii "/") req ↔ ∃ ns, d.Walkable root ns ∧ req = requestOf ns := by
  constructor
  · intro h
    induction h with
    | refl => exact ⟨[], .root, rfl⟩
    | tail _ hlast ih =>
        obtain ⟨ns, hns, rfl⟩ := ih
        exact hlast.walks htidy hns
  · rintro ⟨ns, hns, rfl⟩
    induction hns with
    | root => exact .refl
    | entry hns hfinds hlisted ih => exact ih.tail (hns.follows htidy hfinds hlisted)

/-- Browsing. In a tidy tree a client that starts at the root gets by clicks to exactly the requests of the places that
lead there through listed entries, and each of them is looked up below the root, under its names. -/
theorem browse_iff (htidy : d.Tidy root) (req : CStr) :
    Relation.ReflTransGen (d.Follows root) (ascii "/") req ↔ ∃ ns, d.Walkable root ns ∧ req = requestOf ns ∧
      ∀ looked, absPath req root = some looked → comps looked = comps root ++ ns.map Comp.name := by
  rw [browse_places htidy]
  constructor
  · rintro ⟨ns, hns, rfl⟩
    refine ⟨ns, hns, rfl, fun looked h => ?_⟩
    rw [(comps_absPath h).1, comps_requestOf fun n hn => ⟨htidy.names ns hns n hn, hns.dotless n hn⟩]
  · rintro ⟨ns, hns, hreq, _⟩
    exact ⟨ns, hns, hreq⟩

end

/-! ## A tree -/

theorem absPath_srv {req : CStr} (hhead : req.head? = some slash) :
    absPath req (ascii "/srv") = some (ascii "/srv" ++ req) := by
  have hlast : (ascii "/srv").getLast? ≠ some slash := by decide
  have hroot : ascii "/srv" ≠ [] := by decide
  simp only [absPath, getAbsPath, if_true, hroot, if_false, hhead, hlast, and_false, ne_eq, not_true, false_and]
  rfl

theorem srv_of_finds {d : Disk} {ns : List CStr} {ap : CStr} {entries : List Dirent}
    (h : d.Finds (requestOf ns) (ascii "/srv") ap entries) : ap = ascii "/srv" ++ requestOf ns := by
  have habs := h.1
  rw [absPath_srv (head_requestOf ns)] at habs
  exact (Option.some.inj habs).symm

/-- What lies in the tree of `site`: `/srv` with a directory and three files below it, and a directory outside. -/
def siteNodes : List (List CStr × FileNode) :=
  [([], .dir), ([ascii "home"], .dir), ([ascii "home", ascii "my notes"], .file (ascii "secret")),
    ([ascii "srv"], .dir), ([ascii "srv", ascii "docs"], .dir), ([ascii "srv", ascii "b"], .file []),
    ([ascii "srv", ascii "docs", ascii "a.txt"], .file (ascii "text")), ([ascii "srv", ascii "a"], .file (ascii "b"))]

def siteTree : FileTree CStr where
  node := fun place => siteNodes.lookup place
  root := rfl
  parent := by
    have hparents : ∀ e ∈ siteNodes, e.1 = [] ∨ siteNodes.lookup e.1.dropLast = some .dir := by decide
    intro place a h
    obtain ⟨⟨q, node⟩, he, heq⟩ := List.lookup_isSome_iff.mp (Option.isSome_iff_ne_none.mpr h)
    obtain rfl : place ++ [a] = q := eq_of_beq heq
    have hparent := (hparents _ he).resolve_left (List.append_ne_nil_of_right_ne_nil place (List.cons_ne_nil a []))
    rwa [List.dropLast_concat] at hparent

/-- What `readdir` gives: the two dots, a link that leads nowhere, and what lies in the directory. -/
def siteEntries (place : List CStr) : List Dirent :=
  [⟨ascii ".", typeDir⟩, ⟨ascii "..", typeDir⟩, ⟨ascii "to do", 0x0a⟩] ++
    (siteNodes.filter fun e => e.1 ≠ [] ∧ e.1.dropLast = place).map fun e =>
      ⟨e.1.getLastD [], if e.2 = .dir then typeDir else typeFile⟩

/-- A disk that walks a path component by component, so that `/srv/./docs/..` is opened as well. -/
def site : Disk where
  toFileSystem := { FileSystem.ofTree siteTree [] with
    opendir := fun path => (lookup siteTree [] path).bind fun place =>
      if siteTree.node place = some .dir then some (siteEntries place) else none }
  stat := fun path => (lookup siteTree [] path).map fun _ => 4096

/-- The disk opens paths with dots as well. -/
example : site.Finds (requestOf [ascii ".", ascii "docs", ascii ".."]) (ascii "/srv") (ascii "/srv/./docs/..")
    (siteEntries [ascii "srv"]) := ⟨by decide, by decide, by decide⟩

theorem opendir_site {path : CStr} {entries : List Dirent} (h : site.opendir path = some entries) :
    ∃ place ∈ siteNodes.map Prod.fst, lookup siteTree [] path = some place ∧ entries = siteEntries place := by
  obtain ⟨place, hplace, hentries⟩ := Option.bind_eq_some_iff.mp h
  split at hentries
  · rename_i hdir
    have hsome : (siteNodes.lookup place).isSome := Option.isSome_of_mem hdir
    obtain ⟨_, he, heq⟩ := List.lookup_isSome_iff.mp hsome
    exact ⟨place, List.mem_map.mpr ⟨_, he, (eq_of_beq heq).symm⟩, hplace, (Option.some.inj hentries).symm⟩
  · cases hentries

/-- The places below `/srv`. -/
def sitePlaces : List (List CStr) :=
  [[], [ascii "docs"], [ascii "b"], [ascii "a"], [ascii "docs", ascii "a.txt"]]

theorem site_closed : ∀ ns ∈ sitePlaces, ∀ entries ∈ site.opendir (ascii "/srv" ++ requestOf ns),
    ∀ dp ∈ entries, dp ∈ site.listed (ascii "/srv" ++ requestOf ns) typeDir entries ∨
      dp ∈ site.listed (ascii "/srv" ++ requestOf ns) typeFile entries → ns ++ [dp.name] ∈ sitePlaces := by
  decide

theorem site_places {ns : List CStr} (h : site.Walkable (ascii "/srv") ns) : ns ∈ sitePlaces := by
  induction h with
  | root => decide
  | entry _ hfinds hlisted ih =>
      obtain rfl := srv_of_finds hfinds
      exact site_closed _ ih _ hfinds.2.2 _ (mem_of_listed hlisted).1 hlisted

theorem site_tidy : site.Tidy (ascii "/srv") where
  nul := by
    have hnul : ∀ place ∈ siteNodes.map Prod.fst, ∀ dp ∈ siteEntries place, 0 ∉ dp.name := by decide
    intro path entries h
    obtain ⟨place, hplace, _, rfl⟩ := opendir_site h
    exact hnul place hplace
  names := by
    have hnames : ∀ ns ∈ sitePlaces, ∀ n ∈ ns, CleanName n := by
      set_option maxRecDepth 2000 in decide
    exact fun ns h => hnames ns (site_places h)
  fits := by
    have hfits : ∀ ns ∈ sitePlaces, ∀ n ∈ ns.getLast?, n.length < 255 ∧ 4 + (requestOf ns).length ≤ peekSize := by
      decide
    intro ns n h
    exact hfits _ (site_places h) n (by simp)
  pages := by
    have hpages : ∀ ns ∈ sitePlaces, ∀ entries ∈ site.opendir (ascii "/srv" ++ requestOf ns),
        (pageAnswer (pageText (requestOf ns)
          (site.pageRows Run.cleared.page (ascii "/srv" ++ requestOf ns) (requestOf ns) entries))).length < 2 ^ 31 := by
      decide +kernel
    intro ns ap entries h hfinds
    obtain rfl := srv_of_finds hfinds
    exact hpages ns (site_places h) entries hfinds.2.2

theorem site_file : site.Walkable (ascii "/srv") [ascii "docs", ascii "a.txt"] := by
  have hdocs : site.Walkable (ascii "/srv") [ascii "docs"] :=
    @Walkable.entry site (ascii "/srv") [] (ascii "/srv/") _ ⟨ascii "docs", typeDir⟩ .root
      ⟨by decide, by decide, rfl⟩ (by decide)
  exact @Walkable.entry site (ascii "/srv") [ascii "docs"] (ascii "/srv/docs") _ ⟨ascii "a.txt", typeFile⟩ hdocs
    ⟨by decide, by decide, rfl⟩ (by decide)

/-- Into the subdirectory, and to the file that lies there. -/
theorem browse_site :
    Relation.ReflTransGen (site.Follows (ascii "/srv")) (ascii "/") (ascii "/docs/a.txt") := by
  refine (browse_iff site_tidy (ascii "/docs/a.txt")).mpr ⟨_, site_file, rfl, fun looked h => ?_⟩
  rw [absPath_srv rfl] at h
  obtain rfl := Option.some.inj h
  decide

end Disk

end CompileService.Http
