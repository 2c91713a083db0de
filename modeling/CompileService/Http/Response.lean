import CompileService.Base.Bytes
import CompileService.Base.CString

/-!
# Answering a request

The dispatch of `response.c`: `RequestHandler` joins the request to the root directory, asks the file system about
the result and leaves the answer to one of three handlers. The model follows what the handlers open and whether it
reaches the client; the text of the pages is left out.
-/

namespace CompileService.Http

open CompileService.Base

structure Dirent where
  name : CStr
  type : UInt8
deriving DecidableEq, Repr

/-- A file system, as the server asks about it: `access` for existence, `opendir` with the entries that `readdir`
returns, `open` with the contents. -/
structure FileSystem where
  access : CStr → Bool
  opendir : CStr → Option (List Dirent)
  openFile : CStr → Option (List UInt8)

/-- The allocations and sends of one `RequestHandler`, and whether each succeeds. -/
structure Outcome where
  ap : Bool
  fileAp : Bool
  head : Bool
  buf : Bool
  sendHead : Bool
  table : Bool
  entryAp : UInt8 → Bool
  entries : UInt8 → Bool
  page : Bool

/-- What a response was made from, with the path that was opened for it. -/
inductive Served where
  | file (path : CStr) (contents : List UInt8)
  | listing (path : CStr)
deriving DecidableEq, Repr

def Served.path : Served → CStr
  | .file path _ => path
  | .listing path => path

def typeDir : UInt8 := 0x04

def typeFile : UInt8 := 0x08

def getAbsPath (alloc : Bool) (relative root : CStr) : Exec (Option CStr) :=
  if alloc then
    -- both tests read `ret[rootLen-1]`
    if root = [] then .error .bounds
    else
      let ret := if relative.head? = some slash ∧ root.getLast? = some slash then root.dropLast else root
      let ret := if relative.head? ≠ some slash ∧ ret.getLast? ≠ some slash then ret ++ [slash] else ret
      .ok (some (ret ++ relative))
  else .ok none

def isDotPath (path : CStr) : Bool := path = ascii "." || path = ascii ".."

def getEntryCount (fs : FileSystem) (path : CStr) : Int :=
  match fs.opendir path with
  | none => -1
  | some entries => (entries.filter fun dp => !isDotPath dp.name).length

/-- `GetEntry`, as far as it decides which directory is listed. -/
def getEntry (fs : FileSystem) (o : Outcome) (req root : CStr) (type : UInt8) : Exec (Option CStr) := do
  match ← getAbsPath (o.entryAp type) req root with
  | none => return none
  | some ap => return if (fs.opendir ap).isSome ∧ o.entries type then some ap else none

def fileReqHandler (fs : FileSystem) (o : Outcome) (req root : CStr) : Exec (List Served) := do
  match ← getAbsPath o.fileAp req root with
  | none => return []
  | some ap =>
      match fs.openFile ap with
      | none => return []
      | some contents => return if o.head ∧ o.buf ∧ o.sendHead then [.file ap contents] else []

/-- `DirReqHandler`: the page lists the subdirectories, then the files. -/
def dirReqHandler (fs : FileSystem) (o : Outcome) (req root : CStr) : Exec (List Served) :=
  if o.table then do
    let dirs ← getEntry fs o req root typeDir
    let files ← getEntry fs o req root typeFile
    return if o.page then (dirs.toList ++ files.toList).map .listing else []
  else .ok []

/-- `RequestHandler` for a client, a request and a root that are not null. The error page is made from the request
alone. -/
def requestHandler (fs : FileSystem) (o : Outcome) (req root : CStr) : Exec (List Served) := do
  match ← getAbsPath o.ap req root with
  | some ap =>
      if fs.access ap then
        if getEntryCount fs ap < 0 then fileReqHandler fs o req root else dirReqHandler fs o req root
      else return []
  | none => return []

theorem getEntryCount_neg_iff {fs : FileSystem} {path : CStr} :
    getEntryCount fs path < 0 ↔ fs.opendir path = none := by
  rw [getEntryCount]
  cases fs.opendir path with
  | none => exact iff_of_true (by decide) rfl
  | some entries => exact iff_of_false (Int.not_lt.mpr (Int.natCast_nonneg _)) (Option.some_ne_none entries)

/-! ## The path that is opened -/

def absPath (req root : CStr) : Option CStr := (getAbsPath true req root).toOption.join

theorem getAbsPath_eq {alloc : Bool} {req root ap : CStr} (h : getAbsPath alloc req root = .ok (some ap)) :
    absPath req root = some ap := by
  cases alloc with
  | false => cases h
  | true => rw [absPath, h]; rfl

/-- The slash at the joint is that of `root`, that of `req`, or one that is added if neither has one. -/
theorem absPath_joint {req root ap : CStr} (h : absPath req root = some ap) :
    ∃ s t, ap = s ++ slash :: t ∧ (root = s ∧ s ≠ [] ∧ s.getLast? ≠ some slash ∨ root = s ++ [slash]) ∧
      (req = t ∧ t.head? ≠ some slash ∨ req = slash :: t) := by
  have hroot : root ≠ [] := by
    rintro rfl
    cases h
  simp only [absPath, getAbsPath, if_true, hroot, if_false] at h
  obtain rfl := Option.some.inj h
  by_cases hlast : root.getLast? = some slash
  · obtain ⟨s, rfl⟩ := List.getLast?_eq_some_iff.mp hlast
    by_cases hreq : req.head? = some slash
    · obtain ⟨t, rfl⟩ := List.head?_eq_some_iff.mp hreq
      exact ⟨s, t, by simp, Or.inr rfl, Or.inr rfl⟩
    · exact ⟨s, req, by simp [hreq], Or.inr rfl, Or.inl ⟨rfl, hreq⟩⟩
  · by_cases hreq : req.head? = some slash
    · obtain ⟨t, rfl⟩ := List.head?_eq_some_iff.mp hreq
      exact ⟨root, t, by simp [hlast], Or.inl ⟨rfl, hroot, hlast⟩, Or.inr rfl⟩
    · exact ⟨root, req, by simp [hreq, hlast], Or.inl ⟨rfl, hroot, hlast⟩, Or.inl ⟨rfl, hreq⟩⟩

theorem absPath_spec {req root ap : CStr} (h : absPath req root = some ap) :
    ∃ s t, ap = s ++ slash :: t ∧ (root = s ∧ s ≠ [] ∨ root = s ++ [slash]) ∧ (req = t ∨ req = slash :: t) := by
  obtain ⟨s, t, hap, hroot, hreq⟩ := absPath_joint h
  exact ⟨s, t, hap, hroot.imp_left fun hs => ⟨hs.1, hs.2.1⟩, hreq.imp_left And.left⟩

theorem absPath_ne_nil {req root ap : CStr} (h : absPath req root = some ap) : ap ≠ [] := by
  obtain ⟨s, t, rfl, _⟩ := absPath_spec h
  exact List.append_ne_nil_of_right_ne_nil s (List.cons_ne_nil slash t)

theorem getAbsPath_of_absPath {req root ap : CStr} (h : absPath req root = some ap) (alloc : Bool) :
    getAbsPath alloc req root = .ok (if alloc then some ap else none) := by
  cases alloc with
  | false => rfl
  | true =>
      unfold absPath at h
      cases hrun : getAbsPath true req root with
      | error e =>
          rw [hrun] at h
          cases h
      | ok r =>
          rw [hrun] at h
          obtain rfl : r = some ap := h
          rfl

theorem getEntry_path {fs : FileSystem} {o : Outcome} {req root : CStr} {type : UInt8} {res : Option CStr}
    (h : getEntry fs o req root type = .ok res) : ∀ path ∈ res.toList, absPath req root = some path := by
  intro path hpath
  obtain ⟨ap, hap, h⟩ := Exec.bind_eq_ok.mp h
  cases ap with
  | none =>
      cases h
      exact absurd hpath List.not_mem_nil
  | some ap =>
      obtain rfl := Except.ok.inj h
      split at hpath
      · rw [Option.toList_some, List.mem_singleton] at hpath
        rw [hpath]
        exact getAbsPath_eq hap
      · exact absurd hpath List.not_mem_nil

theorem fileReqHandler_path {fs : FileSystem} {o : Outcome} {req root : CStr} {sent : List Served}
    (h : fileReqHandler fs o req root = .ok sent) : ∀ s ∈ sent, absPath req root = some s.path := by
  intro s hs
  obtain ⟨ap, hap, h⟩ := Exec.bind_eq_ok.mp h
  cases ap with
  | none =>
      cases h
      exact absurd hs List.not_mem_nil
  | some ap =>
      simp only at h
      split at h
      · cases h
        exact absurd hs List.not_mem_nil
      · obtain rfl := Except.ok.inj h
        split at hs
        · rw [List.mem_singleton.mp hs]
          exact getAbsPath_eq hap
        · exact absurd hs List.not_mem_nil

theorem dirReqHandler_path {fs : FileSystem} {o : Outcome} {req root : CStr} {sent : List Served}
    (h : dirReqHandler fs o req root = .ok sent) : ∀ s ∈ sent, absPath req root = some s.path := by
  intro s hs
  unfold dirReqHandler at h
  split at h
  · obtain ⟨dirs, hdirs, h⟩ := Exec.bind_eq_ok.mp h
    obtain ⟨files, hfiles, h⟩ := Exec.bind_eq_ok.mp h
    obtain rfl := Except.ok.inj h
    split at hs
    · obtain ⟨path, hpath, rfl⟩ := List.mem_map.mp hs
      rcases List.mem_append.mp hpath with hpath | hpath
      · exact getEntry_path hdirs path hpath
      · exact getEntry_path hfiles path hpath
    · exact absurd hs List.not_mem_nil
  · cases h
    exact absurd hs List.not_mem_nil

/-- Whatever `RequestHandler` sends comes from the one path that `GetAbsPath` gives for the request. -/
theorem requestHandler_path {fs : FileSystem} {o : Outcome} {req root : CStr} {sent : List Served}
    (h : requestHandler fs o req root = .ok sent) : ∀ s ∈ sent, absPath req root = some s.path := by
  obtain ⟨ap, hap, h⟩ := Exec.bind_eq_ok.mp h
  cases ap with
  | none =>
      cases h
      exact fun s hs => absurd hs List.not_mem_nil
  | some ap =>
      simp only at h
      split at h
      · split at h
        · exact fileReqHandler_path h
        · exact dirReqHandler_path h
      · cases h
        exact fun s hs => absurd hs List.not_mem_nil

end CompileService.Http
