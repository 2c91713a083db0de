import CompileService.Http.Listing

/-!
# The rows that are filled in

`MakeEntryItem` fills the row of an entry if the name and the link fit their arrays, and writes past an array if not.
Type and size always fit; the time is left as it was.
-/

namespace CompileService.Http

open CompileService.Base

/-- The path on which `MakeEntryItem` calls `stat`. -/
def Dirent.path (dp : Dirent) (ap : CStr) : CStr := (absPath dp.name ap).getD []

def linkOf (req name : CStr) : CStr := (if req = ascii "/" then req else req ++ ascii "/") ++ name

def Dirent.typeText (dp : Dirent) : CStr := if dp.type = typeFile then ascii "File" else ascii "Folder"

def sizeText (st_size : Int) : CStr :=
  if st_size < 1024 then decimal st_size ++ ascii " Byte"
  else if st_size.tdiv 1024 < 1024 then decimal (st_size.tdiv 1024) ++ ascii " KB"
  else decimal ((st_size.tdiv 1024).tdiv 1024) ++ ascii " MB"

def Disk.sizeOf (d : Disk) (ap : CStr) (dp : Dirent) : CStr :=
  if dp.type = typeFile then sizeText ((d.stat (dp.path ap)).getD 0).toInt
  else decimal (toInt32 (getEntryCount d.toFileSystem (dp.path ap))) ++ ascii " Item"

/-- The name and the link of the row of `dp` fit their arrays. -/
def Dirent.Fits (req : CStr) (dp : Dirent) : Prop := dp.name.length < 255 ∧ (linkOf req dp.name).length < 2048

instance (req : CStr) (dp : Dirent) : Decidable (dp.Fits req) := inferInstanceAs (Decidable (_ ∧ _))

/-- The row shows the entry `dp`. -/
structure Disk.Made (d : Disk) (ap req : CStr) (dp : Dirent) (info : RowInfo) : Prop where
  link : info.link.text = .ok (linkOf req dp.name)
  name : info.name.text = .ok dp.name
  type : info.type.text = .ok dp.typeText
  size : info.size.text = .ok (d.sizeOf ap dp)

section
variable {req name : CStr}

theorem makeLink_ok (link : CArray 2048) (hreq : 0 ∉ req) (hname : 0 ∉ name) (h : (linkOf req name).length < 2048) :
    ∃ link', makeLink link req name = .ok link' ∧ link'.text = .ok (linkOf req name) := by
  have hslash : 0 ∉ ascii "/" := by decide
  rw [linkOf, List.length_append] at h
  by_cases hroot : req = ascii "/"
  · rw [if_pos hroot] at h
    obtain ⟨link₁, hcpy, ht₁⟩ := CArray.strcpy_text (a := link) hreq (by omega)
    obtain ⟨link₂, hcat, ht₂⟩ := CArray.strcat_text ht₁ hname h
    refine ⟨link₂, ?_, by rw [ht₂, linkOf, if_pos hroot]⟩
    rw [makeLink, hcpy, Exec.ok_bind, if_neg (not_not.mpr hroot)]
    exact hcat
  · rw [if_neg hroot] at h
    have hreqlen : (req ++ ascii "/").length = req.length + (ascii "/").length := List.length_append
    obtain ⟨link₁, hcpy, ht₁⟩ := CArray.strcpy_text (a := link) hreq (by omega)
    obtain ⟨link₂, hcat, ht₂⟩ := CArray.strcat_text ht₁ hslash (by omega)
    obtain ⟨link₃, hcat', ht₃⟩ := CArray.strcat_text ht₂ hname h
    refine ⟨link₃, ?_, by rw [ht₃, linkOf, if_neg hroot]⟩
    rw [makeLink, hcpy, Exec.ok_bind, if_pos hroot, hcat]
    exact hcat'

theorem makeLink_long (link : CArray 2048) (hreq : 0 ∉ req) (h : 2048 ≤ (linkOf req name).length) :
    makeLink link req name = .error .bounds := by
  have hslash : 0 ∉ ascii "/" := by decide
  rw [linkOf, List.length_append] at h
  by_cases hlong : 2048 ≤ req.length
  · rw [makeLink, CArray.strcpy_long hlong]
    rfl
  · obtain ⟨link₁, hcpy, ht₁⟩ := CArray.strcpy_text (a := link) hreq (Nat.not_le.mp hlong)
    by_cases hroot : req = ascii "/"
    · rw [if_pos hroot] at h
      rw [makeLink, hcpy, Exec.ok_bind, if_neg (not_not.mpr hroot)]
      exact CArray.strcat_long ht₁ h
    · rw [if_neg hroot] at h
      rw [makeLink, hcpy, Exec.ok_bind, if_pos hroot]
      by_cases hlong' : 2048 ≤ req.length + (ascii "/").length
      · rw [CArray.strcat_long ht₁ hlong']
        rfl
      · obtain ⟨link₂, hcat, ht₂⟩ := CArray.strcat_text ht₁ hslash (Nat.not_le.mp hlong')
        rw [hcat]
        exact CArray.strcat_long ht₂ h

end

theorem putSize_ok (item : RowInfo) {type number unit : CStr} (htype : 0 ∉ type ∧ type.length < 32)
    (hnumber : 0 ∉ number) (hunit : 0 ∉ unit) (h : number.length + unit.length < 32) :
    ∃ item', putSize item type number unit = .ok item' ∧ item'.link = item.link ∧ item'.name = item.name ∧
      item'.type.text = .ok type ∧ item'.size.text = .ok (number ++ unit) ∧ item'.time = item.time := by
  obtain ⟨type', hcpy, htext⟩ := CArray.strcpy_text (a := item.type) htype.1 htype.2
  obtain ⟨buf, hbuf, hnum⟩ := CArray.strcpy_text (a := (CArray.zeroed : CArray 32)) hnumber (by omega)
  obtain ⟨size, hsize, hsizetext⟩ := CArray.strcpy_text (a := item.size) hnumber (by omega)
  obtain ⟨size', hcat, hcattext⟩ := CArray.strcat_text hsizetext hunit h
  refine ⟨{ item with type := type', size := size' }, ?_, rfl, rfl, htext, hcattext, rfl⟩
  simp only [putSize, hcpy, hbuf, hnum, hsize, hcat, Exec.ok_bind]
  rfl

namespace Disk

variable {d : Disk} {ap req : CStr} {dp : Dirent}

theorem makeEntryItem_unallocated (item : RowInfo) : d.makeEntryItem false item dp ap req = .ok (false, item) := rfl

theorem getAbsPath_path (hap : ap ≠ []) : getAbsPath true dp.name ap = .ok (some (dp.path ap)) := by
  have h : ∃ path, getAbsPath true dp.name ap = .ok (some path) := by
    simp only [getAbsPath, if_true, hap, if_false]
    exact ⟨_, rfl⟩
  obtain ⟨path, hpath⟩ := h
  rw [Dirent.path, absPath, hpath]
  rfl

theorem makeEntryItem_missing (item : RowInfo) (hap : ap ≠ []) (hstat : d.stat (dp.path ap) = none) (alloc : Bool) :
    d.makeEntryItem alloc item dp ap req = .ok (false, item) := by
  cases alloc with
  | false => rfl
  | true => simp only [makeEntryItem, getAbsPath_path hap, Exec.ok_bind, hstat]; rfl

/-- The type and size of every entry fit. -/
theorem putEntrySize_ok (item : RowInfo) {sb : Int64} (hstat : d.stat (dp.path ap) = some sb) :
    ∃ item', d.putEntrySize item dp (dp.path ap) sb.toInt = .ok item' ∧ item'.link = item.link ∧
      item'.name = item.name ∧ item'.type.text = .ok dp.typeText ∧ item'.size.text = .ok (d.sizeOf ap dp) ∧
      item'.time = item.time := by
  have hlo := sb.le_toInt
  have hhi := sb.toInt_lt
  have hlong : ∀ {n : Int}, n.natAbs ≤ 2 ^ 63 → (decimal n).length ≤ 20 :=
    fun h => length_decimal_le (by decide) (by omega)
  have hdiv : ∀ {n : Int}, n.natAbs ≤ 2 ^ 63 → (n.tdiv 1024).natAbs ≤ 2 ^ 63 := by
    intro n hn
    rw [Int.natAbs_tdiv]
    exact (Nat.div_le_self _ _).trans hn
  have hsb : sb.toInt.natAbs ≤ 2 ^ 63 := by omega
  have hfile : 0 ∉ ascii "File" ∧ (ascii "File").length < 32 := by decide
  have hfolder : 0 ∉ ascii "Folder" ∧ (ascii "Folder").length < 32 := by decide
  have hsize : (d.stat (dp.path ap)).getD 0 = sb := by
    rw [hstat]
    rfl
  unfold putEntrySize sizeOf Dirent.typeText sizeText
  simp only [printf_num, hsize]
  split
  · split
    · have hunit : (ascii " Byte").length = 5 := by decide
      have hlen := hlong hsb
      exact putSize_ok item hfile (nul_notMem_decimal _) (by decide) (by omega)
    · split
      · have hunit : (ascii " KB").length = 3 := by decide
        have hlen := hlong (hdiv hsb)
        exact putSize_ok item hfile (nul_notMem_decimal _) (by decide) (by omega)
      · have hunit : (ascii " MB").length = 3 := by decide
        have hlen := hlong (hdiv (hdiv hsb))
        exact putSize_ok item hfile (nul_notMem_decimal _) (by decide) (by omega)
  · have hunit : (ascii " Item").length = 5 := by decide
    have hlen := length_decimal_toInt32 (getEntryCount d.toFileSystem (dp.path ap))
    exact putSize_ok item hfolder (nul_notMem_decimal _) (by decide) (by omega)

theorem makeEntryItem_made (item : RowInfo) (hap : ap ≠ []) (hreq : 0 ∉ req) (hname : 0 ∉ dp.name)
    (hstat : d.stat (dp.path ap) ≠ none) (hfits : dp.Fits req) :
    ∃ item', d.makeEntryItem true item dp ap req = .ok (true, item') ∧ d.Made ap req dp item' ∧
      item'.time = item.time := by
  obtain ⟨sb, hsb⟩ := Option.ne_none_iff_exists'.mp hstat
  obtain ⟨link, hlink, hlinktext⟩ := makeLink_ok item.link hreq hname hfits.2
  obtain ⟨name, hcpy, hnametext⟩ := CArray.strcpy_text (a := item.name) hname hfits.1
  obtain ⟨item', hput, hl, hn, ht, hs, htime⟩ :=
    putEntrySize_ok { item with link := link, name := name } hsb
  refine ⟨item', ?_, ⟨by rw [hl]; exact hlinktext, by rw [hn]; exact hnametext, ht, hs⟩, htime⟩
  simp only [makeEntryItem, getAbsPath_path hap, Exec.ok_bind, hsb, hlink, hcpy, hput]
  rfl

/-- Without room for the name or the link `MakeEntryItem` writes past the array. -/
theorem makeEntryItem_overflows (item : RowInfo) (hap : ap ≠ []) (hreq : 0 ∉ req) (hname : 0 ∉ dp.name)
    (hstat : d.stat (dp.path ap) ≠ none) (hfits : ¬ dp.Fits req) :
    d.makeEntryItem true item dp ap req = .error .bounds := by
  obtain ⟨sb, hsb⟩ := Option.ne_none_iff_exists'.mp hstat
  by_cases hlink : (linkOf req dp.name).length < 2048
  · have hlong : 255 ≤ dp.name.length := Nat.not_lt.mp fun h => hfits ⟨h, hlink⟩
    obtain ⟨link, hmake, _⟩ := makeLink_ok item.link hreq hname hlink
    simp only [makeEntryItem, getAbsPath_path hap, Exec.ok_bind, hsb, hmake, CArray.strcpy_long hlong]
    rfl
  · have hlong := makeLink_long item.link hreq (Nat.not_lt.mp hlink)
    simp only [makeEntryItem, getAbsPath_path hap, Exec.ok_bind, hsb, hlong]
    rfl

end Disk

end CompileService.Http
