import CompileService.Http.Browse

/-!
# Downloads

A client that comes by clicks to the link of a file sends it as a request and takes the body of the answer. What it can
get this way are the files of the tree that can be read and are below `2 ^ 31` bytes, with their contents.
-/

namespace CompileService.Http

open CompileService.Base CompileService.Wire

namespace Disk

/-- The client that sends the request `req` gets a file with these contents. -/
def Delivers (d : Disk) (run : Run) (req root : CStr) (contents : List UInt8) : Prop :=
  ∃ ret out, d.requestHandler run .fresh req root = .ok (ret, out) ∧
    readBody (ascii "application/*") out.queue = some contents

/-- There is a file with these contents at the path of the request, and it can be read. -/
def Holds (d : Disk) (req root : CStr) (contents : List UInt8) : Prop :=
  ∃ ap, absPath req root = some ap ∧ d.access ap = true ∧ d.opendir ap = none ∧ d.openFile ap = some contents

section
variable {d : Disk} {run : Run} {ap req root : CStr} {contents : List UInt8} {entries : List Dirent}

theorem not_delivers_page {out : Outlet} {page : CStr} (hqueue : out.queue = pageAnswer page)
    (hshort : (pageAnswer page).length < 2 ^ 31) : readBody (ascii "application/*") out.queue = none := by
  have htype : ascii "application/*" ≠ ascii "text/html" := by decide
  rw [hqueue, readBody_pageAnswer hshort, if_neg htype]

/-- A page is not taken for a file. -/
theorem not_delivers_dir (hserves : run.Serves) (hsends : run.SendsAll) (hreq : 0 ∉ req) (hlen : req.length < 2048)
    (habs : absPath req root = some ap) (haccess : d.access ap = true) (hdir : d.opendir ap = some entries)
    (hnames : ∀ dp ∈ entries, 0 ∉ dp.name) : ¬ d.Delivers run req root contents := by
  rintro ⟨ret, out, hrun, hread⟩
  rw [requestHandler_dir hserves.ap habs haccess hdir] at hrun
  rcases dirReqHandler_cases hserves hsends hreq hlen habs hdir hnames with ⟨⟨hbuild, hshort⟩, _⟩ | ⟨_, hlost⟩
  · obtain ⟨rs, _, hshort', hsent⟩ := dirReqHandler_listed hserves hsends hreq hlen habs hdir hnames hbuild hshort
    rw [hsent] at hrun
    obtain ⟨_, rfl⟩ := Prod.mk.inj (Except.ok.inj hrun)
    rw [not_delivers_page rfl hshort'] at hread
    cases hread
  · rw [hlost] at hrun
    cases hrun

theorem delivers_file_iff (hserves : run.Serves) (hsends : run.SendsAll) (habs : absPath req root = some ap)
    (haccess : d.access ap = true) (hdir : d.opendir ap = none) :
    d.Delivers run req root contents ↔ d.openFile ap = some contents ∧ contents.length < 2 ^ 31 := by
  rw [Delivers, requestHandler_file hserves.ap habs haccess hdir]
  cases hfile : d.openFile ap with
  | none =>
      rw [fileReqHandler_unreadable habs hfile]
      refine iff_of_false ?_ fun h => by cases h.1
      rintro ⟨ret, out, hok, hread⟩
      obtain ⟨_, rfl⟩ := Prod.mk.inj (Except.ok.inj hok)
      cases hread
  | some found =>
      obtain ⟨ret, calls, hsent⟩ := fileReqHandler_full .fresh hserves hsends habs hfile
      have hbody : readBody (ascii "application/*") (Outlet.fresh.queue ++ fileAnswer found) =
          if found.length < 2 ^ 31 then some found else none := by
        rw [Outlet.fresh, List.nil_append, readBody_fileAnswer]
        simp only [and_true]
      rw [hsent]
      constructor
      · rintro ⟨ret', out, hok, hread⟩
        obtain ⟨_, rfl⟩ := Prod.mk.inj (Except.ok.inj hok)
        rw [hbody] at hread
        split at hread
        · rename_i hshort
          obtain rfl := Option.some.inj hread
          exact ⟨rfl, hshort⟩
        · cases hread
      · rintro ⟨hfound, hshort⟩
        obtain rfl := Option.some.inj hfound
        exact ⟨_, _, rfl, by rw [hbody, if_pos hshort]⟩

theorem delivers_iff (hserves : run.Serves) (hsends : run.SendsAll) (hreq : 0 ∉ req) (hlen : req.length < 2048)
    (hnames : ∀ path entries, d.opendir path = some entries → ∀ dp ∈ entries, 0 ∉ dp.name) :
    d.Delivers run req root contents ↔ d.Holds req root contents ∧ contents.length < 2 ^ 31 := by
  cases habs : absPath req root with
  | none =>
      refine iff_of_false ?_ ?_
      · rintro ⟨ret, out, hok, _⟩
        rw [requestHandler_no_root hserves.ap habs] at hok
        cases hok
      · rintro ⟨⟨ap, hap, _⟩, _⟩
        rw [habs] at hap
        cases hap
  | some ap =>
      have hholds : d.Holds req root contents ↔
          d.access ap = true ∧ d.opendir ap = none ∧ d.openFile ap = some contents := by
        simp only [Holds, habs, Option.some.injEq, exists_eq_left']
      rw [hholds]
      cases haccess : d.access ap with
      | false =>
          refine iff_of_false ?_ fun h => by cases h.1.1
          rintro ⟨ret, out, hok, hread⟩
          rw [requestHandler_absent hserves.ap habs haccess, badReqHandler_full hserves hsends hreq hlen] at hok
          obtain ⟨_, rfl⟩ := Prod.mk.inj (Except.ok.inj hok)
          rw [not_delivers_page rfl (length_errAnswer_lt hlen)] at hread
          cases hread
      | true =>
          cases hdir : d.opendir ap with
          | some entries =>
              refine iff_of_false ?_ fun h => by cases h.1.2.1
              exact not_delivers_dir hserves hsends hreq hlen habs haccess hdir (hnames ap entries hdir)
          | none =>
              rw [delivers_file_iff hserves hsends habs haccess hdir]
              simp only [true_and]

/-- Downloads. In a tidy tree a client that starts at the root and follows links gets a file with some contents if and
only if an entry to which listed entries lead is a readable file with these contents, of less than `2 ^ 31` bytes. -/
theorem downloads_iff (htidy : d.Tidy root) (contents : List UInt8) :
    (∃ req run, Relation.ReflTransGen (d.Follows root) (ascii "/") req ∧ (run.Serves ∧ run.SendsAll) ∧
      d.Delivers run req root contents) ↔
    ∃ ns, d.Walkable root ns ∧ d.Holds (requestOf ns) root contents ∧ contents.length < 2 ^ 31 := by
  have hnames := htidy.nul
  constructor
  · rintro ⟨req, run, hreach, ⟨hserves, hsends⟩, hdelivers⟩
    obtain ⟨ns, hns, rfl⟩ := (browse_places htidy req).mp hreach
    obtain ⟨hreq, _, hlen⟩ := hns.request htidy
    exact ⟨ns, hns, (delivers_iff hserves hsends hreq hlen hnames).mp hdelivers⟩
  · rintro ⟨ns, hns, hholds⟩
    obtain ⟨hreq, _, hlen⟩ := hns.request htidy
    exact ⟨requestOf ns, .cleared, (browse_places htidy _).mpr ⟨ns, hns, rfl⟩,
      ⟨Run.cleared_serves, Run.cleared_sendsAll⟩,
      (delivers_iff Run.cleared_serves Run.cleared_sendsAll hreq hlen hnames).mpr hholds⟩

end

/-- The file in the subdirectory. -/
theorem downloads_site : ∃ req run, Relation.ReflTransGen (site.Follows (ascii "/srv")) (ascii "/") req ∧
    (run.Serves ∧ run.SendsAll) ∧ site.Delivers run req (ascii "/srv") (ascii "text") :=
  (downloads_iff site_tidy (ascii "text")).mpr
    ⟨_, site_file, ⟨ascii "/srv/docs/a.txt", by decide, by decide, by decide, by decide⟩, by decide⟩

end Disk

end CompileService.Http
