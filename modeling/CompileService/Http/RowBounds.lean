import CompileService.Http.DoResp
import CompileService.Http.Lemmas.Html

/-!
# The arrays of a row

The names of a directory have up to 255 bytes and a request up to 2047, but a row has room for names of 254 bytes and
for links of 2047. Neither is checked when the row of an entry is made, and the row that leads back is searched for a
slash that a request need not have.
-/

namespace CompileService.Http

open CompileService.Base

/-- `DoResp` can call `RequestHandler` with `req`. -/
def Obtainable (req : CStr) : Prop :=
  ∃ sends b received resp, received.length ≤ peekSize ∧ doResp sends b (some received) = .ok resp ∧
    resp.request = some req

/-- The name of an entry: 1 to `NAME_MAX` bytes, none of them NUL. -/
def Dirent.Named (dp : Dirent) : Prop := 1 ≤ dp.name.length ∧ dp.name.length ≤ 255 ∧ 0 ∉ dp.name

instance (dp : Dirent) : Decidable dp.Named := inferInstanceAs (Decidable (_ ∧ _ ∧ _))

/-- What `MakeHTML` and `MakeEntryItem` write into rows stays in the arrays, whichever allocations succeed: the texts
of the row that leads back, and the rows of both lists. -/
structure Disk.RowsFit (d : Disk) (req root : CStr) : Prop where
  backLink : req ≠ ascii "/" → ∃ link, RowInfo.zeroed.link.strcpy req = .ok link
  backName : ∃ name, RowInfo.zeroed.name.strcpy (ascii "./..") = .ok name
  backType : ∃ type, RowInfo.zeroed.type.strcpy (ascii "Back..") = .ok type
  dirs : ∀ heap, ∃ fe, d.getEntry heap req root typeDir = .ok fe
  files : ∀ heap, ∃ fe, d.getEntry heap req root typeFile = .ok fe

/-! ## The request -/

/-- The scan keeps the size of the block. -/
theorem length_scanRequest {text : CStr} {req req' : List UInt8} (h : scanRequest text req = .ok req') :
    req'.length = req.length := by
  unfold scanRequest at h
  split at h
  · rw [Except.ok.inj h]
  · obtain ⟨_, hfit, hlen, rfl⟩ := memcpy_ok h
    refine length_writeAt ?_
    rw [List.length_take]
    omega

theorem Obtainable.bounds {req : CStr} (h : Obtainable req) : 0 ∉ req ∧ req.length < 2048 := by
  obtain ⟨sends, b, received, resp, _, hrun, hreq⟩ := h
  generalize some received = peeked at hrun
  simp only [doResp] at hrun
  split at hrun
  · split at hrun
    · obtain ⟨_, _, hrun⟩ := Exec.bind_eq_ok.mp hrun
      obtain ⟨_, _, hrun⟩ := Exec.bind_eq_ok.mp hrun
      obtain ⟨_, _, hrun⟩ := Exec.bind_eq_ok.mp hrun
      obtain ⟨block, hscan, hrun⟩ := Exec.bind_eq_ok.mp hrun
      obtain ⟨s, hstr, hrun⟩ := Exec.bind_eq_ok.mp hrun
      obtain rfl := Except.ok.inj hrun
      obtain rfl := Option.some.inj hreq
      have hlen := cstr_length_lt hstr
      rw [length_scanRequest hscan, Vector.length_toList] at hlen
      exact ⟨(cstr_ok hstr).1, hlen⟩
    · obtain rfl := Except.ok.inj hrun
      cases hreq
  · obtain rfl := Except.ok.inj hrun
    cases hreq

/-! ## The rows -/

section
variable {d : Disk} {req root ap : CStr} {entries : List Dirent}

/-- One list is built inside the arrays, whatever fails, exactly if all its entries fit. -/
theorem getEntry_safe_iff (type : UInt8) (hreq : 0 ∉ req) (habs : absPath req root = some ap)
    (hdir : d.opendir ap = some entries) (hnames : ∀ dp ∈ entries, 0 ∉ dp.name) :
    (∀ heap, ∃ fe, d.getEntry heap req root type = .ok fe) ↔ ∀ dp ∈ d.listed ap type entries, dp.Fits req := by
  constructor
  · intro h
    obtain ⟨fe, hrun⟩ := h .zeroed
    rcases Disk.getEntry_cases .zeroed type hreq habs hdir hnames with
      ⟨_, hserves⟩ | ⟨hover, _⟩ | ⟨dps, _, _, _, _, _, _, hfits, hall⟩
    · exact absurd EntryHeap.zeroed_serves hserves
    · rw [hover] at hrun
      cases hrun
    · rw [← hall EntryHeap.zeroed_serves]
      exact hfits
  · intro h heap
    rcases Disk.getEntry_cases heap type hreq habs hdir hnames with
      ⟨hrun, _⟩ | ⟨_, dp, hdp, hfit⟩ | ⟨_, fe, _, hrun, _⟩
    · exact ⟨_, hrun⟩
    · exact absurd (h dp hdp) hfit
    · exact ⟨_, hrun⟩

/-- For a request that `DoResp` obtains and that names a directory, what is written into rows fits if and only if the
entries that are shown have names of at most 254 bytes and links of at most 2047. -/
theorem rowsFit_iff (hobtained : Obtainable req) (habs : absPath req root = some ap)
    (hdir : d.opendir ap = some entries) (hnames : ∀ dp ∈ entries, dp.Named) :
    d.RowsFit req root ↔
      ∀ dp ∈ d.listed ap typeDir entries ++ d.listed ap typeFile entries, dp.Fits req := by
  obtain ⟨hreq, hlen⟩ := hobtained.bounds
  have hnul : ∀ dp ∈ entries, 0 ∉ dp.name := fun dp hdp => (hnames dp hdp).2.2
  rw [List.forall_mem_append, ← getEntry_safe_iff typeDir hreq habs hdir hnul,
    ← getEntry_safe_iff typeFile hreq habs hdir hnul]
  constructor
  · exact fun h => ⟨h.dirs, h.files⟩
  · rintro ⟨hdirs, hfiles⟩
    have hname0 : 0 ∉ ascii "./.." ∧ (ascii "./..").length < 255 := by decide
    have htype0 : 0 ∉ ascii "Back.." ∧ (ascii "Back..").length < 32 := by decide
    have hlink := CArray.strcpy_text (a := RowInfo.zeroed.link) hreq hlen
    have hname := CArray.strcpy_text (a := RowInfo.zeroed.name) hname0.1 hname0.2
    have htype := CArray.strcpy_text (a := RowInfo.zeroed.type) htype0.1 htype0.2
    exact ⟨fun _ => hlink.imp fun _ h => h.1, hname.imp fun _ h => h.1, htype.imp fun _ h => h.1, hdirs, hfiles⟩

end

theorem obtainable_root : Obtainable (ascii "/") := by
  refine ⟨fun _ => 0, ⟨Malloc.zeroed, some (Vector.replicate 2048 0)⟩, ascii "GET / HTTP/1.1",
    ⟨some (ascii "/"), .available :: respCalls 14 true 0⟩, by decide +kernel, by decide +kernel, rfl⟩

/-- A directory with one file, whose name has `n` bytes. -/
def oneName (n : Nat) : Disk where
  access := fun _ => true
  opendir := fun path => if path = ascii "/srv/" then some [⟨List.replicate n 0x61, typeFile⟩] else none
  openFile := fun _ => none
  stat := fun _ => some 1

theorem rowsFit_longest : (oneName 254).RowsFit (ascii "/") (ascii "/srv") := by
  have habs : absPath (ascii "/") (ascii "/srv") = some (ascii "/srv/") := by decide
  have hdir : (oneName 254).opendir (ascii "/srv/") = some [⟨List.replicate 254 0x61, typeFile⟩] := rfl
  have hnames : ∀ dp ∈ [(⟨List.replicate 254 0x61, typeFile⟩ : Dirent)], dp.Named := by decide +kernel
  exact (rowsFit_iff obtainable_root habs hdir hnames).mpr (by decide +kernel)

/-- The name of a file with a longest possible name overflows its array. -/
theorem rowsFit_overflow :
    Obtainable (ascii "/") ∧ absPath (ascii "/") (ascii "/srv") = some (ascii "/srv/") ∧
      (oneName 255).opendir (ascii "/srv/") = some [⟨List.replicate 255 0x61, typeFile⟩] ∧
      (⟨List.replicate 255 0x61, typeFile⟩ : Dirent).Named ∧
      ((oneName 255).getEntry .zeroed (ascii "/") (ascii "/srv") typeFile).isOk = false ∧
      ¬ (oneName 255).RowsFit (ascii "/") (ascii "/srv") := by
  have hover : ((oneName 255).getEntry .zeroed (ascii "/") (ascii "/srv") typeFile).isOk = false := by decide +kernel
  refine ⟨obtainable_root, by decide, rfl, by decide +kernel, hover, fun h => ?_⟩
  obtain ⟨fe, hrun⟩ := h.files .zeroed
  rw [hrun] at hover
  cases hover

/-! ## The row that leads back -/

/-- `RequestHandler` leaves the request to `MakeHTML`, which looks for its last slash. -/
structure Disk.Browses (d : Disk) (req root : CStr) : Prop where
  obtainable : Obtainable req
  ne_root : req ≠ ascii "/"
  directory : ∃ ap, absPath req root = some ap ∧ d.access ap = true ∧ d.opendir ap ≠ none

/-- The loop finds a slash inside the string if there is one, and else leaves the row. -/
theorem lastSlash_iff {link : List UInt8} {req rest : CStr} (hlink : link = req ++ rest) :
    (∃ i, lastSlash link req.length = .ok i ∧ i < req.length) ↔ slash ∈ req := by
  constructor
  · rintro ⟨i, hscan, _⟩
    by_contra hslash
    rw [lastSlash_missing hlink hslash] at hscan
    cases hscan
  · intro hslash
    obtain ⟨a, b, rfl, hb⟩ := exists_last hslash
    refine ⟨a.length, lastSlash_found hlink hb, ?_⟩
    rw [List.length_append, List.length_cons]
    omega

/-- For a request that names a directory the backward scan stops inside the string if and only if the request has a
slash. -/
theorem scan_stops_iff {d : Disk} {req root : CStr} (h : d.Browses req root) :
    (∃ link i, RowInfo.zeroed.link.strcpy req = .ok link ∧ lastSlash link.toList req.length = .ok i ∧
      i < req.length) ↔ slash ∈ req := by
  obtain ⟨hreq, hlen⟩ := h.obtainable.bounds
  obtain ⟨link, hcpy, htext⟩ := CArray.strcpy_text (a := RowInfo.zeroed.link) hreq hlen
  obtain ⟨_, rest, hlink⟩ := cstr_ok htext
  rw [← lastSlash_iff hlink]
  constructor
  · rintro ⟨link', i, hcpy', hscan⟩
    obtain rfl := Except.ok.inj (hcpy.symm.trans hcpy')
    exact ⟨i, hscan⟩
  · rintro ⟨i, hscan⟩
    exact ⟨link, i, hcpy, hscan⟩

/-- A directory `a` in the root directory. -/
def oneFolder : Disk where
  access := fun path => path = ascii "/srv/a"
  opendir := fun path => if path = ascii "/srv/a" then some [] else none
  openFile := fun _ => none
  stat := fun _ => some 1

theorem browses_folder {req : CStr} (hobtainable : Obtainable req) (hreq : req ≠ ascii "/")
    (habs : absPath req (ascii "/srv") = some (ascii "/srv/a")) : oneFolder.Browses req (ascii "/srv") :=
  ⟨hobtainable, hreq, _, habs, by decide, by decide⟩

theorem scan_stops_folder : ∃ link i, RowInfo.zeroed.link.strcpy (ascii "/a") = .ok link ∧
    lastSlash link.toList (ascii "/a").length = .ok i ∧ i < (ascii "/a").length := by
  have hobtainable : Obtainable (ascii "/a") :=
    ⟨fun _ => 0, ⟨Malloc.zeroed, some (Vector.replicate 2048 0)⟩, ascii "GET /a HTTP/1.1",
      ⟨some (ascii "/a"), .available :: respCalls 15 true 0⟩, by decide +kernel, by decide +kernel, rfl⟩
  exact (scan_stops_iff (browses_folder hobtainable (by decide) (by decide))).mpr (by decide)

/-- `GET a HTTP/1.1` names the directory `a`, since `GetAbsPath` supplies the slash; the scan runs out of the row. -/
theorem scan_leaves_row : oneFolder.Browses (ascii "a") (ascii "/srv") ∧
    (RowInfo.zeroed.link.strcpy (ascii "a")).map (fun link => (lastSlash link.toList (ascii "a").length).isOk) =
      .ok false ∧
    ¬ ∃ link i, RowInfo.zeroed.link.strcpy (ascii "a") = .ok link ∧
      lastSlash link.toList (ascii "a").length = .ok i ∧ i < (ascii "a").length := by
  have hobtainable : Obtainable (ascii "a") :=
    ⟨fun _ => 0, ⟨Malloc.zeroed, some (Vector.replicate 2048 0)⟩, ascii "GET a HTTP/1.1",
      ⟨some (ascii "a"), .available :: respCalls 14 true 0⟩, by decide +kernel, by decide +kernel, rfl⟩
  have hscan : (RowInfo.zeroed.link.strcpy (ascii "a")).map
      (fun link => (lastSlash link.toList (ascii "a").length).isOk) = .ok false := by decide +kernel
  refine ⟨browses_folder hobtainable (by decide) (by decide), hscan, ?_⟩
  rintro ⟨link, i, hcpy, hi, _⟩
  rw [hcpy] at hscan
  have hfalse : (lastSlash link.toList (ascii "a").length).isOk = false := Except.ok.inj hscan
  rw [hi] at hfalse
  cases hfalse

end CompileService.Http
