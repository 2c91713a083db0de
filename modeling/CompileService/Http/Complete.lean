import CompileService.Http.Lemmas.Html

/-!
# A listing is complete

`GetEntry` goes through a directory of any size. The array grows when it is full and another entry is read, an entry
that is not listed uses no slot, and at the end the rows are sorted by name.
-/

namespace CompileService.Http

open CompileService.Base

namespace Disk

/-- The `k`-th `realloc` is called: so far `n` rows and those of the entries read have filled `5 * k` slots, and there
is another entry. -/
def Grows (d : Disk) (ap : CStr) (type : UInt8) (n : Nat) (entries : List Dirent) (k : Nat) : Prop :=
  ∃ read dp rest, entries = read ++ dp :: rest ∧ n + (d.listed ap type read).length = 5 * k

section
variable {d : Disk} {heap : EntryHeap} {ap req : CStr} {type : UInt8} {dp : Dirent} {dps entries : List Dirent}
  {fe : FileEntry} {n k : Nat}

theorem listed_cons (dp : Dirent) (entries : List Dirent) :
    d.listed ap type (dp :: entries) = d.listed ap type [dp] ++ d.listed ap type entries :=
  List.filter_append [dp] entries

theorem grows_cons : d.Grows ap type n (dp :: entries) k ↔
    n = 5 * k ∨ d.Grows ap type (n + (d.listed ap type [dp]).length) entries k := by
  constructor
  · rintro ⟨read, dp', rest, heq, hlen⟩
    cases read with
    | nil => exact Or.inl hlen
    | cons first read =>
        obtain ⟨rfl, rfl⟩ := List.cons.inj heq
        rw [listed_cons, List.length_append, ← Nat.add_assoc] at hlen
        exact Or.inr ⟨read, dp', rest, rfl, hlen⟩
  · rintro (hn | ⟨read, dp', rest, rfl, hlen⟩)
    · exact ⟨[], dp, entries, rfl, hn⟩
    · rw [Nat.add_assoc, ← List.length_append, ← listed_cons] at hlen
      exact ⟨dp :: read, dp', rest, rfl, hlen⟩

/-- One entry: unless `realloc` fails it has its row if it is listed, and uses no slot if not. -/
theorem addEntry_complete (hpath : ∀ i, heap.path i = true) (hap : ap ≠ []) (hreq : 0 ∉ req) (hname : 0 ∉ dp.name)
    (hfits : ∀ x ∈ d.listed ap type [dp], x.Fits req) (h : d.Holding heap ap req dps fe) (i : Nat) :
    (d.addEntry heap ap req type i dp fe = .ok none ∧ ∃ k, fe.length = 5 * k ∧ heap.grow k = none) ∨
    (∃ fe', d.addEntry heap ap req type i dp fe = .ok (some fe') ∧
      d.Holding heap ap req (dps ++ d.listed ap type [dp]) fe' ∧ Roomy fe fe') := by
  rcases addEntry_cases type hap hreq hname h i with
    hfull | ⟨hskip, fe', hadd, h', hroomy⟩ | ⟨⟨_, hlisted⟩, _, fe', hadd, h', hroomy⟩ | ⟨hlisted, hfit, _⟩
  · exact Or.inl hfull
  · have hnot : ¬ d.Listed ap type dp := fun hlisted => hskip ⟨hpath i, hlisted⟩
    refine Or.inr ⟨fe', hadd, ?_, hroomy⟩
    rwa [listed_neg hnot, listed, List.filter_nil, List.append_nil]
  · refine Or.inr ⟨fe', hadd, ?_, hroomy⟩
    rwa [listed_pos hlisted, listed, List.filter_nil]
  · rw [listed_pos hlisted] at hfits
    exact absurd (hfits dp List.mem_cons_self) hfit

/-- The loop: it ends at the first `realloc` that fails; if none fails all listed entries have their rows. -/
theorem readEntries_complete (hpath : ∀ i, heap.path i = true) (hap : ap ≠ []) (hreq : 0 ∉ req)
    (hnames : ∀ dp ∈ entries, 0 ∉ dp.name) (hfits : ∀ dp ∈ d.listed ap type entries, dp.Fits req)
    (h : d.Holding heap ap req dps fe) (i : Nat) :
    (d.readEntries heap ap req type i entries fe = .ok none ∧
      ∃ k, d.Grows ap type dps.length entries k ∧ heap.grow k = none) ∨
    (∃ fe', d.readEntries heap ap req type i entries fe = .ok (some fe') ∧
      d.Holding heap ap req (dps ++ d.listed ap type entries) fe' ∧ fe.data.length ≤ fe'.data.length ∧
      ∀ k, d.Grows ap type dps.length entries k → 5 * k < fe'.data.length) := by
  induction entries generalizing dps fe i with
  | nil =>
      refine Or.inr ⟨fe, rfl, ?_, Nat.le_refl _, ?_⟩
      · rwa [listed, List.filter_nil, List.append_nil]
      · rintro k ⟨read, dp, rest, heq, _⟩
        exact absurd heq (List.ne_nil_of_mem (List.mem_append_right _ List.mem_cons_self)).symm
  | cons dp entries ih =>
      obtain ⟨hname, hnames⟩ := List.forall_mem_cons.mp hnames
      rw [listed_cons] at hfits ⊢
      obtain ⟨hfit, hfits⟩ := List.forall_mem_append.mp hfits
      have hlength := h.length
      simp only [grows_cons, ← List.length_append]
      rcases addEntry_complete hpath hap hreq hname hfit h i with
        ⟨hadd, k, hlen, hnone⟩ | ⟨fe₁, hadd, h₁, hroom, hkept⟩
      · exact Or.inl ⟨by rw [readEntries, hadd]; rfl, k, Or.inl (hlength ▸ hlen), hnone⟩
      · rw [readEntries, hadd, Exec.ok_bind, ← List.append_assoc]
        rcases ih hnames hfits h₁ (i + 1) with ⟨hrun, k, hk, hnone⟩ | ⟨fe', hrun, h', hle, hcap⟩
        · exact Or.inl ⟨hrun, k, Or.inr hk, hnone⟩
        · refine Or.inr ⟨fe', hrun, h', Nat.le_trans hkept hle, fun k hk => ?_⟩
          rcases hk with hfull | hk
          · omega
          · exact hcap k hk

end

section
variable {d : Disk} {heap : EntryHeap} {ap req root : CStr} {dps entries : List Dirent} {rows : List RowInfo}
  {fe : FileEntry}

theorem Holding.made_rows (h : d.Holding heap ap req dps fe) :
    List.Forall₂ (fun row dp => d.Made ap req dp row) fe.rows dps := by
  refine List.forall₂_iff_get.mpr ⟨h.length_rows, fun k hk hk' => ?_⟩
  obtain ⟨row, _, hrow, hmade, _⟩ := h.row (List.getElem?_eq_getElem hk')
  have hget : fe.rows[k] = row := Option.some.inj ((List.getElem?_eq_getElem hk).symm.trans hrow)
  simp only [List.get_eq_getElem, hget]
  exact hmade

/-- Rows in the order of their names belong to entries in that order. -/
theorem pairwise_names (h : List.Forall₂ (fun row dp => d.Made ap req dp row) rows dps)
    (hsorted : rows.Pairwise NameLe) : dps.Pairwise fun a b => a.name ≤ b.name := by
  obtain ⟨hlen, hget⟩ := List.forall₂_iff_get.mp h
  refine List.pairwise_iff_getElem.mpr fun i j hi hj hij => ?_
  have hle := List.pairwise_iff_getElem.mp hsorted i j (hlen ▸ hi) (hlen ▸ hj) hij
  exact (nameLe_iff (hget i (hlen ▸ hi) hi).name (hget j (hlen ▸ hj) hj).name).mp hle

/-- For a directory of any size: if each `realloc` that is called succeeds, then there is exactly one row for each entry
that is listed, with its own texts, and the rows are sorted by name; if one fails there is no list. A row behind the
slots that were allocated would end the run with a fault, and it does not. -/
theorem getEntry_complete (type : UInt8) (hap : heap.ap = true) (hret : heap.ret = true)
    (hpath : ∀ i, heap.path i = true) (htemp : heap.temp ≠ none) (hreq : 0 ∉ req) (habs : absPath req root = some ap)
    (hdir : d.opendir ap = some entries) (hnames : ∀ dp ∈ entries, 0 ∉ dp.name ∧ dp.Fits req) :
    ((∀ k, d.Grows ap type 0 entries k → heap.grow k ≠ none) →
      ∃ fe dps, d.getEntry heap req root type = .ok (some fe) ∧ dps.Perm (d.listed ap type entries) ∧
        List.Forall₂ (fun row dp => d.Made ap req dp row) fe.rows dps ∧
        dps.Pairwise fun a b => a.name ≤ b.name) ∧
    ((∃ k, d.Grows ap type 0 entries k ∧ heap.grow k = none) → d.getEntry heap req root type = .ok none) := by
  have hfits : ∀ dp ∈ d.listed ap type entries, dp.Fits req := fun dp hdp => (hnames dp (List.mem_of_mem_filter hdp)).2
  have hstart : d.Holding heap ap req [] ⟨0, []⟩ := .start
  rw [getEntry_eq type hap hret habs hdir]
  rcases readEntries_complete hpath (absPath_ne_nil habs) hreq (fun dp hdp => (hnames dp hdp).1) hfits hstart 0 with
    ⟨hrun, k, hk, hnone⟩ | ⟨fe', hrun, h', _, hcap⟩
  · rw [hrun]
    exact ⟨fun hgrow => absurd hnone (hgrow k hk), fun _ => rfl⟩
  · obtain ⟨fe, hsort, hperm, hsorted⟩ := sortFileEntry_sorts heap.temp h'.readable
    obtain ⟨dps, hmade, hdps⟩ := List.perm_comp_forall₂ hperm h'.made_rows
    refine ⟨fun _ => ⟨fe, dps, ?_, hdps, hmade, pairwise_names hmade (hsorted htemp)⟩, ?_⟩
    · rw [hrun, Exec.ok_bind, Option.elim_some, hsort]
      rfl
    · rintro ⟨k, hk, hnone⟩
      exact absurd hnone (h'.granted (hcap k hk))

/-- Two files, not in the order of their names, and a subdirectory. -/
def unsorted : Disk where
  access := fun _ => true
  opendir := fun path =>
    if path = ascii "/srv/" then
      some [⟨ascii "b", typeFile⟩, ⟨ascii ".", typeDir⟩, ⟨ascii "c", typeDir⟩, ⟨ascii "a", typeFile⟩]
    else none
  openFile := fun _ => none
  stat := fun _ => some 1

/-- The list with all allocations, and without the first `realloc`. -/
theorem getEntry_complete_unsorted :
    (∃ fe dps, unsorted.getEntry .zeroed (ascii "/") (ascii "/srv") typeFile = .ok (some fe) ∧
      dps.Perm [⟨ascii "b", typeFile⟩, ⟨ascii "a", typeFile⟩] ∧
      List.Forall₂ (fun row dp => unsorted.Made (ascii "/srv/") (ascii "/") dp row) fe.rows dps ∧
      dps.Pairwise fun a b => a.name ≤ b.name) ∧
    unsorted.getEntry { EntryHeap.zeroed with grow := fun _ => none } (ascii "/") (ascii "/srv") typeFile =
      .ok none := by
  have hreq : 0 ∉ ascii "/" := by decide
  have habs : absPath (ascii "/") (ascii "/srv") = some (ascii "/srv/") := by decide
  have hdir : unsorted.opendir (ascii "/srv/") =
      some [⟨ascii "b", typeFile⟩, ⟨ascii ".", typeDir⟩, ⟨ascii "c", typeDir⟩, ⟨ascii "a", typeFile⟩] := by decide
  have hnames : ∀ dp ∈ [(⟨ascii "b", typeFile⟩ : Dirent), ⟨ascii ".", typeDir⟩, ⟨ascii "c", typeDir⟩,
      ⟨ascii "a", typeFile⟩], 0 ∉ dp.name ∧ dp.Fits (ascii "/") := by decide
  have htemp : EntryHeap.zeroed.temp ≠ none := Option.some_ne_none _
  have hlisted : unsorted.listed (ascii "/srv/") typeFile [⟨ascii "b", typeFile⟩, ⟨ascii ".", typeDir⟩,
      ⟨ascii "c", typeDir⟩, ⟨ascii "a", typeFile⟩] = [⟨ascii "b", typeFile⟩, ⟨ascii "a", typeFile⟩] := by decide
  constructor
  · rw [← hlisted]
    exact (getEntry_complete typeFile rfl rfl (fun _ => rfl) htemp hreq habs hdir hnames).1
      fun _ _ => Option.some_ne_none _
  · have hap : ({ EntryHeap.zeroed with grow := fun _ => none } : EntryHeap).ap = true := rfl
    exact (getEntry_complete typeFile hap rfl (fun _ => rfl) htemp hreq habs hdir hnames).2
      ⟨0, ⟨[], _, _, rfl, rfl⟩, rfl⟩

end

/-! ## The number of items -/

section
variable {d : Disk} {dirs files : EntryHeap} {ap req root : CStr} {dp : Dirent} {entries : List Dirent}

/-- `MakeHTML` has a row for the entry: it is a directory or a file by its `d_type`, and `stat` finds it. -/
def Shown (d : Disk) (ap : CStr) (dp : Dirent) : Prop :=
  (dp.type = typeDir ∨ dp.type = typeFile) ∧ d.stat (dp.path ap) ≠ none

instance (d : Disk) (ap : CStr) (dp : Dirent) : Decidable (d.Shown ap dp) := inferInstanceAs (Decidable (_ ∧ _))

/-- The number that `GetEntryCount` gives for the directory is that of the rows of its page. -/
def CountAgrees (d : Disk) (dirs files : EntryHeap) (req root ap : CStr) : Prop :=
  ∃ feDirs feFiles, d.getEntry dirs req root typeDir = .ok (some feDirs) ∧
    d.getEntry files req root typeFile = .ok (some feFiles) ∧
    getEntryCount d.toFileSystem ap = feDirs.rows.length + feFiles.rows.length

theorem listed_iff_shown : d.Listed ap typeDir dp ∨ d.Listed ap typeFile dp ↔
    isDotPath dp.name = false ∧ d.Shown ap dp := by
  have hall : typeDir ≠ typeAll ∧ typeFile ≠ typeAll := by decide
  simp only [Listed, Shown, hall, false_or, eq_comm (a := typeDir), eq_comm (a := typeFile)]
  tauto

/-- An entry is in one of the two lists at most. -/
theorem length_listed_add (entries : List Dirent) :
    (d.listed ap typeDir entries).length + (d.listed ap typeFile entries).length =
      ((entries.filter fun dp => !isDotPath dp.name).filter fun dp => d.Shown ap dp).length := by
  induction entries with
  | nil => rfl
  | cons dp entries ih =>
      have hone : d.Listed ap typeDir dp → ¬ d.Listed ap typeFile dp := by
        rintro ⟨htype, _⟩ ⟨htype', _⟩
        rw [← htype.resolve_left (by decide)] at htype'
        exact absurd htype' (by decide)
      rw [List.filter_filter] at ih ⊢
      by_cases hshown : isDotPath dp.name = false ∧ d.Shown ap dp
      · rw [List.filter_cons_of_pos (by simp [hshown]), List.length_cons, ← ih]
        rcases listed_iff_shown.mpr hshown with hdir | hfile
        · rw [listed_pos hdir, listed_neg (hone hdir), List.length_cons]
          omega
        · rw [listed_pos hfile, listed_neg (fun hdir => hone hdir hfile), List.length_cons]
          omega
      · have hneither := mt listed_iff_shown.mp hshown
        rw [not_or] at hneither
        rw [List.filter_cons_of_neg (by simpa [and_comm] using hshown), ← ih, listed_neg hneither.1,
          listed_neg hneither.2]

/-- With all allocations there is a list exactly if the entries that belong into it fit their rows, with a row for
each of them. -/
theorem getEntry_length_iff {heap : EntryHeap} {n : Nat} (hserves : heap.Serves) (type : UInt8) (hreq : 0 ∉ req)
    (habs : absPath req root = some ap) (hdir : d.opendir ap = some entries) (hnames : ∀ dp ∈ entries, 0 ∉ dp.name) :
    (∃ fe, d.getEntry heap req root type = .ok (some fe) ∧ fe.rows.length = n) ↔
      (∀ dp ∈ d.listed ap type entries, dp.Fits req) ∧ (d.listed ap type entries).length = n := by
  rcases getEntry_served hserves type hreq habs hdir hnames with
    ⟨⟨dp, hdp, hnot⟩, herror⟩ | ⟨hfits, fe, fe', hrun, hholding, hperm⟩
  · refine iff_of_false ?_ fun h => hnot (h.1 dp hdp)
    rintro ⟨fe, hrun, _⟩
    rw [herror] at hrun
    cases hrun
  · have hlen : fe.rows.length = (d.listed ap type entries).length := hperm.length_eq.trans hholding.length_rows
    constructor
    · rintro ⟨fe₁, hrun₁, hn⟩
      obtain rfl := Option.some.inj (Except.ok.inj (hrun.symm.trans hrun₁))
      exact ⟨hfits, hlen.symm.trans hn⟩
    · rintro ⟨_, hn⟩
      exact ⟨fe, hrun, hlen.trans hn⟩

/-- The number of items. With all allocations succeeding, `GetEntryCount` counts the rows of the page if and only if
each entry other than `.` and `..` is a directory or a file by its `d_type`, is found by `stat` and fits its row. -/
theorem entry_count_iff (hdirs : dirs.Serves) (hfiles : files.Serves) (hreq : 0 ∉ req)
    (habs : absPath req root = some ap) (hdir : d.opendir ap = some entries) (hnames : ∀ dp ∈ entries, 0 ∉ dp.name) :
    d.CountAgrees dirs files req root ap ↔
      ∀ dp ∈ entries, isDotPath dp.name = false → d.Shown ap dp ∧ dp.Fits req := by
  have hcount : getEntryCount d.toFileSystem ap = (entries.filter fun dp => !isDotPath dp.name).length := by
    rw [getEntryCount, hdir]
  have hsplit : (d.listed ap typeDir entries).length + (d.listed ap typeFile entries).length =
      ((entries.filter fun dp => !isDotPath dp.name).filter fun dp => d.Shown ap dp).length := length_listed_add entries
  have hmem : ∀ dp, (isDotPath dp.name = false ∧ d.Shown ap dp) ∧ dp ∈ entries →
      dp ∈ d.listed ap typeDir entries ∨ dp ∈ d.listed ap typeFile entries := by
    rintro dp ⟨hshown, hdp⟩
    exact (listed_iff_shown.mpr hshown).imp (fun h => List.mem_filter.mpr ⟨hdp, decide_eq_true h⟩)
      fun h => List.mem_filter.mpr ⟨hdp, decide_eq_true h⟩
  have hlisted : ∀ type dp, dp ∈ d.listed ap type entries → dp ∈ entries ∧ isDotPath dp.name = false := by
    intro type dp hdp
    obtain ⟨hentry, hl⟩ := List.mem_filter.mp hdp
    exact ⟨hentry, (of_decide_eq_true hl).2.1⟩
  constructor
  · rintro ⟨feDirs, feFiles, hrunDirs, hrunFiles, hagree⟩
    obtain ⟨hfits, hlen⟩ := (getEntry_length_iff hdirs typeDir hreq habs hdir hnames).mp ⟨feDirs, hrunDirs, rfl⟩
    obtain ⟨hfits', hlen'⟩ := (getEntry_length_iff hfiles typeFile hreq habs hdir hnames).mp ⟨feFiles, hrunFiles, rfl⟩
    rw [hcount, ← hlen, ← hlen'] at hagree
    have hfull := List.length_filter_eq_length_iff.mp (hsplit.symm.trans (by omega))
    intro dp hdp hdot
    have hshown : d.Shown ap dp := of_decide_eq_true (hfull dp (List.mem_filter.mpr ⟨hdp, by simp [hdot]⟩))
    exact ⟨hshown, (hmem dp ⟨⟨hdot, hshown⟩, hdp⟩).elim (hfits dp) (hfits' dp)⟩
  · intro hall
    have hfit : ∀ type, ∀ dp ∈ d.listed ap type entries, dp.Fits req := by
      intro type dp hdp
      obtain ⟨hentry, hdot⟩ := hlisted type dp hdp
      exact (hall dp hentry hdot).2
    obtain ⟨fe, hrun, hlen⟩ := (getEntry_length_iff hdirs typeDir hreq habs hdir hnames).mpr ⟨hfit typeDir, rfl⟩
    obtain ⟨fe', hrun', hlen'⟩ := (getEntry_length_iff hfiles typeFile hreq habs hdir hnames).mpr ⟨hfit typeFile, rfl⟩
    refine ⟨fe, fe', hrun, hrun', ?_⟩
    have hfull : ((entries.filter fun dp => !isDotPath dp.name).filter fun dp => d.Shown ap dp).length =
        (entries.filter fun dp => !isDotPath dp.name).length := by
      refine List.length_filter_eq_length_iff.mpr fun dp hdp => ?_
      obtain ⟨hentry, hdot⟩ := List.mem_filter.mp hdp
      exact decide_eq_true (hall dp hentry (by simpa using hdot)).1
    rw [hcount, hlen, hlen']
    omega

end

theorem entry_count_unsorted : unsorted.CountAgrees .zeroed .zeroed (ascii "/") (ascii "/srv") (ascii "/srv/") := by
  have hdir : unsorted.opendir (ascii "/srv/") =
      some [⟨ascii "b", typeFile⟩, ⟨ascii ".", typeDir⟩, ⟨ascii "c", typeDir⟩, ⟨ascii "a", typeFile⟩] := by decide
  exact (entry_count_iff EntryHeap.zeroed_serves EntryHeap.zeroed_serves (by decide) (by decide) hdir (by decide)).mpr
    (by decide)

/-- A directory with one symbolic link, which `readdir` returns as `DT_LNK`. -/
def oneSymlink : Disk where
  access := fun _ => true
  opendir := fun path => if path = ascii "/srv/" then some [⟨ascii "a", 0x0a⟩] else none
  openFile := fun _ => none
  stat := fun _ => some 1

/-- The link is counted as an item, but there is no row for it. -/
theorem symlink_counted : getEntryCount oneSymlink.toFileSystem (ascii "/srv/") = 1 ∧
    (∀ type ∈ [typeDir, typeFile], (oneSymlink.getEntry .zeroed (ascii "/") (ascii "/srv") type).map
      (fun fe => fe.map fun fe => fe.rows.length) = .ok (some 0)) ∧
    ¬ oneSymlink.CountAgrees .zeroed .zeroed (ascii "/") (ascii "/srv") (ascii "/srv/") := by
  have hcount : getEntryCount oneSymlink.toFileSystem (ascii "/srv/") = 1 := by decide
  have hrows : ∀ type ∈ [typeDir, typeFile], (oneSymlink.getEntry .zeroed (ascii "/") (ascii "/srv") type).map
      (fun fe => fe.map fun fe => fe.rows.length) = .ok (some 0) := by decide +kernel
  refine ⟨hcount, hrows, ?_⟩
  rintro ⟨feDirs, feFiles, hdirs, hfiles, hagree⟩
  have hdirs' := hrows typeDir (by decide)
  have hfiles' := hrows typeFile (by decide)
  rw [hdirs] at hdirs'
  rw [hfiles] at hfiles'
  have hlen : feDirs.rows.length = 0 := Option.some.inj (Except.ok.inj hdirs')
  have hlen' : feFiles.rows.length = 0 := Option.some.inj (Except.ok.inj hfiles')
  rw [hcount, hlen, hlen'] at hagree
  exact absurd hagree (by decide)

end Disk

end CompileService.Http
