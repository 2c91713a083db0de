import CompileService.Http.Response
import CompileService.Base.FileTree

/-!
# What is served lies below the root, or not

`RequestHandler` opens the request joined to the root as it is. The components of the join are those of the root
and then those of the request, so the path resolves to one below the root exactly if the request, where its `..`
lead out of the root, comes back by the same names.
-/

namespace CompileService.Http

open CompileService.Base

def classify (s : CStr) : Comp CStr :=
  if s = ascii "." then .cur else if s = ascii ".." then .up else .name s

/-- The components of a path. Slashes in a row count as one. -/
def comps (path : CStr) : List (Comp CStr) := ((path.splitOn slash).filter (· ≠ [])).map classify

def isAbs (path : CStr) : Bool := path.head? = some slash

/-- The place that a path leads to from the directory `cwd`; a slash at its end asks for a directory. -/
def lookup (t : FileTree CStr) (cwd : List CStr) (path : CStr) : Option (List CStr) :=
  t.walk (if isAbs path then [] else cwd) (comps path ++ if path.getLast? = some slash then [.cur] else [])

/-- The answers of the file system are those of a tree without links, seen from a directory; it may refuse any. -/
def FileSystem.Linkless (fs : FileSystem) : Prop :=
  ∃ (t : FileTree CStr) (cwd : List CStr), t.node cwd = some .dir ∧
    (∀ path, fs.access path = true → lookup t cwd path ≠ none) ∧
    (∀ path entries, fs.opendir path = some entries → ∃ place ∈ lookup t cwd path, t.node place = some .dir) ∧
    ∀ path contents, fs.openFile path = some contents →
      ∃ place ∈ lookup t cwd path, t.node place = some (.file contents)

/-- The file system of a tree that refuses nothing; its directories are listed as empty. -/
def FileSystem.ofTree (t : FileTree CStr) (cwd : List CStr) : FileSystem where
  access := fun path => (lookup t cwd path).isSome
  opendir := fun path => if (lookup t cwd path).bind t.node = some .dir then some [] else none
  openFile := fun path =>
    match (lookup t cwd path).bind t.node with
    | some (.file contents) => some contents
    | _ => none

/-- A path after lexical resolution of its `.` and `..`. -/
def resolvePath (path : CStr) : LexPath CStr := .resolve (isAbs path) (comps path)

def AtOrBelow (root path : CStr) : Prop :=
  isAbs path = isAbs root ∧ (resolvePath path).Below (resolvePath root)

instance (root path : CStr) : Decidable (AtOrBelow root path) := inferInstanceAs (Decidable (_ ∧ _))

/-- Resolved on its own, the request has no `..` left, or it enters again what they leave of the root. -/
def StaysInside (root req : CStr) : Prop :=
  (resolvePath root).Reenters (isAbs root) (.resolve false (comps req))

instance (root req : CStr) : Decidable (StaysInside root req) :=
  inferInstanceAs (Decidable (LexPath.Reenters _ _ _))

/-! ## Joining -/

theorem comps_append (s t : CStr) : comps (s ++ slash :: t) = comps s ++ comps t := by
  unfold comps
  rw [List.splitOn_append_cons_self, List.filter_append, List.map_append]

theorem comps_nil : comps [] = [] := rfl

theorem comps_cons_slash (t : CStr) : comps (slash :: t) = comps t := by
  have h := comps_append [] t
  rwa [comps_nil, List.nil_append, List.nil_append] at h

theorem comps_concat_slash (s : CStr) : comps (s ++ [slash]) = comps s := by
  rw [comps_append, comps_nil, List.append_nil]

theorem comps_absPath {req root ap : CStr} (h : absPath req root = some ap) :
    comps ap = comps root ++ comps req ∧ isAbs ap = isAbs root := by
  obtain ⟨s, t, rfl, hroot, hreq⟩ := absPath_spec h
  have hcomps : comps root = comps s := by
    rcases hroot with ⟨rfl, _⟩ | rfl
    · rfl
    · exact comps_concat_slash s
  have hcomps' : comps req = comps t := by
    rcases hreq with rfl | rfl
    · rfl
    · exact comps_cons_slash t
  refine ⟨by rw [comps_append, hcomps, hcomps'], ?_⟩
  cases s with
  | nil =>
      rcases hroot with ⟨_, hnil⟩ | rfl
      · exact absurd rfl hnil
      · rfl
  | cons b s =>
      rcases hroot with ⟨rfl, _⟩ | rfl
      · rfl
      · rfl

/-- The join lies at or below the root exactly if the request stays inside. -/
theorem atOrBelow_iff {req root ap : CStr} (h : absPath req root = some ap) :
    AtOrBelow root ap ↔ StaysInside root req := by
  obtain ⟨hcomps, habs⟩ := comps_absPath h
  have hresolve : resolvePath ap =
      (resolvePath root).join (isAbs root) (.resolve false (comps req)) := by
    rw [resolvePath, hcomps, habs, LexPath.resolve_append]
    rfl
  rw [AtOrBelow, hresolve, LexPath.join_below_iff]
  exact and_iff_right habs

theorem served_atOrBelow_iff {fs : FileSystem} {o : Outcome} {req root : CStr} {sent : List Served}
    (h : requestHandler fs o req root = .ok sent) {s : Served} (hs : s ∈ sent) :
    AtOrBelow root s.path ↔ StaysInside root req :=
  atOrBelow_iff (requestHandler_path h s hs)

theorem lookup_resolvePath {t : FileTree CStr} {cwd place : List CStr} {path : CStr} (habs : isAbs path = true)
    (h : lookup t cwd path = some place) : resolvePath path = ⟨0, place⟩ := by
  rw [lookup, if_pos habs] at h
  have hresolve := FileTree.walk_resolve h
  rw [resolvePath, habs]
  split at hresolve
  · -- the last component is a dot
    rw [LexPath.resolve, List.foldl_append] at hresolve
    exact hresolve
  · rw [List.append_nil] at hresolve
    exact hresolve

/-- Below the root of a tree without links lies what resolves to below the root. -/
theorem AtOrBelow.place {t : FileTree CStr} {cwd place rootPlace : List CStr} {root path : CStr}
    (h : AtOrBelow root path) (habs : isAbs root = true) (hroot : lookup t cwd root = some rootPlace)
    (hpath : lookup t cwd path = some place) : rootPlace <+: place := by
  have hbelow := h.2
  rw [lookup_resolvePath (h.1.trans habs) hpath, lookup_resolvePath habs hroot] at hbelow
  exact hbelow.2

/-! ## Confinement -/

theorem FileSystem.ofTree_linkless {t : FileTree CStr} {cwd : List CStr} (hcwd : t.node cwd = some .dir) :
    (FileSystem.ofTree t cwd).Linkless := by
  refine ⟨t, cwd, hcwd, fun path h => ?_, fun path entries h => ?_, fun path contents h => ?_⟩
  · exact Option.isSome_iff_ne_none.mp h
  · simp only [ofTree] at h
    split at h
    · rename_i hdir
      exact Option.bind_eq_some_iff.mp hdir
    · cases h
  · simp only [ofTree] at h
    split at h
    · rename_i hfile
      cases h
      exact Option.bind_eq_some_iff.mp hfile
    · cases h

/-- Every path leads to a directory of some tree, and there the directory is listed. -/
theorem exists_served (req : CStr) {root : CStr} (hroot : root ≠ []) :
    ∃ fs : FileSystem, fs.Linkless ∧ ∃ o ap, requestHandler fs o req root = .ok [.listing ap, .listing ap] := by
  let o : Outcome := ⟨true, true, true, true, true, true, fun _ => true, fun _ => true, true⟩
  obtain ⟨ap, hap⟩ : ∃ ap, getAbsPath true req root = .ok (some ap) := by
    unfold getAbsPath
    rw [if_pos rfl, if_neg hroot]
    exact ⟨_, rfl⟩
  let cs := comps ap ++ if ap.getLast? = some slash then [Comp.cur] else []
  let t := FileTree.ofPlaces (FileTree.visited [] cs)
  obtain ⟨q, hwalk, hnode⟩ : ∃ q, t.walk [] cs = some q ∧ t.node q = some .dir :=
    FileTree.walk_ofPlaces (fun _ h => h)
  have hlookup : lookup t [] ap = some q := by
    unfold lookup
    rw [ite_self]
    exact hwalk
  have hopendir : (FileSystem.ofTree t []).opendir ap = some [] := by
    simp only [FileSystem.ofTree, hlookup, Option.bind_some, hnode, if_true]
  refine ⟨.ofTree t [], FileSystem.ofTree_linkless t.root, o, ap, ?_⟩
  have haccess : (FileSystem.ofTree t []).access ap = true := by
    simp only [FileSystem.ofTree, hlookup, Option.isSome_some]
  simp only [requestHandler, dirReqHandler, getEntry, o, hap, Exec.ok_bind, getEntryCount, haccess, hopendir, if_true]
  rfl

/-- Confinement. On every file system without links `RequestHandler` serves only what lies at or below the root if
and only if the request stays inside the root. -/
theorem requestHandler_confined_iff {root : CStr} (hroot : root ≠ []) (req : CStr) :
    (∀ fs : FileSystem, fs.Linkless → ∀ o sent, requestHandler fs o req root = .ok sent →
      ∀ s ∈ sent, AtOrBelow root s.path) ↔ StaysInside root req := by
  constructor
  · intro h
    obtain ⟨fs, hfs, o, ap, hsent⟩ := exists_served req hroot
    exact (served_atOrBelow_iff hsent List.mem_cons_self).mp (h fs hfs o _ hsent _ List.mem_cons_self)
  · intro hstays fs _ o sent hsent s hs
    exact (served_atOrBelow_iff hsent hs).mpr hstays

theorem requestHandler_confined_sibling :
    StaysInside (ascii "/srv") (ascii "/a/../b") ∧
      ∀ fs : FileSystem, fs.Linkless → ∀ o sent,
        requestHandler fs o (ascii "/a/../b") (ascii "/srv") = .ok sent →
          ∀ s ∈ sent, AtOrBelow (ascii "/srv") s.path := by
  have hstays : StaysInside (ascii "/srv") (ascii "/a/../b") := by decide
  exact ⟨hstays, (requestHandler_confined_iff (by decide) (ascii "/a/../b")).mpr hstays⟩

/-- A tree with the directories `/srv` and `/etc` and the file `/etc/passwd`. -/
def passwdTree : FileTree CStr where
  node := fun place =>
    if place = [] ∨ place = [ascii "srv"] ∨ place = [ascii "etc"] then some .dir
    else if place = [ascii "etc", ascii "passwd"] then some (.file [0x78])
    else none
  root := if_pos (.inl rfl)
  parent := by
    intro place a h
    have hplace : ∀ q, place ++ [a] = q → place = q.dropLast := by
      rintro q rfl
      exact List.dropLast_concat.symm
    split at h
    · rename_i hdir
      rcases hdir with heq | heq | heq
      · exact absurd heq (by simp)
      · rw [hplace _ heq]
        rfl
      · rw [hplace _ heq]
        rfl
    · split at h
      · rename_i hfile
        rw [hplace _ hfile]
        decide
      · exact absurd rfl h

/-- A root in which a request finds the way to `/etc`. -/
theorem requestHandler_escapes :
    let o : Outcome := ⟨true, true, true, true, true, true, fun _ => true, fun _ => true, true⟩
    (FileSystem.ofTree passwdTree []).Linkless ∧
      requestHandler (.ofTree passwdTree []) o (ascii "/../etc/passwd") (ascii "/srv") =
        .ok [.file (ascii "/srv/../etc/passwd") [0x78]] ∧
      ¬ AtOrBelow (ascii "/srv") (ascii "/srv/../etc/passwd") := by
  intro o
  exact ⟨FileSystem.ofTree_linkless rfl, by decide +kernel, by decide +kernel⟩

end CompileService.Http
