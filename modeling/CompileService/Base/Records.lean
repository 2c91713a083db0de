import Mathlib.Data.List.Forall2
import Mathlib.Data.List.TakeWhile

/-!
# Records in a text

A record is written into a fixed form: an opening text and then its fields, each followed by a text that closes it. A
field is read up to the first symbol of its closing. A document is a record, any number of records of another form,
and an end. What is read back is what was written exactly if no field has the symbol at which it is closed.
-/

namespace CompileService.Base

/-- What closes a field: the symbol at which the field ends, and more text. -/
structure Closing (α : Type) where
  stop : α
  more : List α

structure Form (α : Type) where
  opening : List α
  closings : List (Closing α)

variable {α : Type}

def writeFields : List (Closing α) → List (List α) → List α
  | c :: cs, t :: ts => t ++ c.stop :: c.more ++ writeFields cs ts
  | _, _ => []

def Form.write (f : Form α) (ts : List (List α)) : List α := f.opening ++ writeFields f.closings ts

/-- There is a text for each field, without the symbol at which the field is closed. -/
def Form.Allows (f : Form α) (ts : List (List α)) : Prop := List.Forall₂ (fun c t => c.stop ∉ t) f.closings ts

/-- A form of documents. The end of a document is not taken for another row. -/
structure DocumentForm (α : Type) where
  head : Form α
  row : Form α
  tail : List α
  opened : row.opening ≠ []
  apart : ¬ row.opening <+: tail

def DocumentForm.write (f : DocumentForm α) (ts : List (List α)) (tss : List (List (List α))) : List α :=
  f.head.write ts ++ tss.flatMap f.row.write ++ f.tail

theorem Form.length_le_flatMap_write {f : Form α} (hopening : f.opening ≠ []) (tss : List (List (List α))) :
    tss.length ≤ (tss.flatMap f.write).length := by
  induction tss with
  | nil => exact Nat.zero_le _
  | cons ts tss ih =>
      have hpos := List.length_pos_of_ne_nil hopening
      simp only [List.flatMap_cons, List.length_append, List.length_cons, Form.write] at ih ⊢
      omega

variable [DecidableEq α]

/-! ## Reading -/

/-- What follows the text `w`. -/
def after (w s : List α) : Option (List α) := if w <+: s then some (s.drop w.length) else none

def readFields : List (Closing α) → List α → Option (List (List α) × List α)
  | [], s => some ([], s)
  | c :: cs, s => do
      let rest ← after (c.stop :: c.more) (s.dropWhile (· ≠ c.stop))
      let (ts, rest) ← readFields cs rest
      return (s.takeWhile (· ≠ c.stop) :: ts, rest)

def Form.read (f : Form α) (s : List α) : Option (List (List α) × List α) :=
  (after f.opening s).bind (readFields f.closings)

/-- As many records as there are, `n` at most. -/
def Form.readRows (f : Form α) : Nat → List α → List (List (List α)) × List α
  | 0, s => ([], s)
  | n + 1, s =>
      match f.read s with
      | none => ([], s)
      | some (ts, rest) => (ts :: (f.readRows n rest).1, (f.readRows n rest).2)

def DocumentForm.read (f : DocumentForm α) (s : List α) : Option (List (List α) × List (List (List α))) := do
  let (ts, s) ← f.head.read s
  let (tss, rest) := f.row.readRows s.length s
  if rest = f.tail then return (ts, tss) else none

/-! ## One record -/

section
variable {w s rest : List α} {ts : List (List α)}

theorem after_eq_some_iff : after w s = some rest ↔ s = w ++ rest := by
  unfold after
  constructor
  · intro h
    split at h
    · rename_i hw
      obtain ⟨t, rfl⟩ := hw
      rw [List.drop_left] at h
      rw [Option.some.inj h]
    · cases h
  · rintro rfl
    rw [if_pos (List.prefix_append w rest), List.drop_left]

/-- A text is cut at the first stop. -/
theorem cut_at_stop {a : α} {t : List α} (ht : a ∉ t) (rest : List α) :
    (t ++ a :: rest).takeWhile (· ≠ a) = t ∧ (t ++ a :: rest).dropWhile (· ≠ a) = a :: rest := by
  have hall : ∀ b ∈ t, decide (b ≠ a) = true := by
    intro b hb
    rw [decide_eq_true_iff]
    rintro rfl
    exact ht hb
  rw [List.takeWhile_append_of_pos hall, List.dropWhile_append_of_pos hall, List.takeWhile_cons_of_neg (by simp),
    List.dropWhile_cons_of_neg (by simp), List.append_nil]
  exact ⟨rfl, rfl⟩

theorem readFields_eq_some_iff {cs : List (Closing α)} : readFields cs s = some (ts, rest) ↔
    List.Forall₂ (fun c t => c.stop ∉ t) cs ts ∧ s = writeFields cs ts ++ rest := by
  induction cs generalizing s ts with
  | nil =>
      simp only [readFields, Option.some.injEq, Prod.mk.injEq]
      constructor
      · rintro ⟨rfl, rfl⟩
        exact ⟨.nil, rfl⟩
      · rintro ⟨hts, rfl⟩
        cases hts
        exact ⟨rfl, rfl⟩
  | cons c cs ih =>
      simp only [readFields, Option.bind_eq_bind, Option.bind_eq_some_iff, Option.pure_def, Option.some.injEq,
        Prod.mk.injEq, after_eq_some_iff]
      constructor
      · rintro ⟨s', hs', ⟨ts', rest'⟩, hread, rfl, rfl⟩
        obtain ⟨hts, rfl⟩ := ih.mp hread
        refine ⟨.cons (fun h => ?_) hts, ?_⟩
        · simpa using List.mem_takeWhile_imp h
        · rw [writeFields, List.append_assoc, List.append_assoc, ← hs', List.takeWhile_append_dropWhile]
      · rintro ⟨hts, rfl⟩
        cases hts with
        | @cons _ t _ ts ht hts =>
            rw [writeFields, List.append_assoc, List.append_assoc, List.cons_append]
            obtain ⟨htake, hdrop⟩ := cut_at_stop ht (c.more ++ (writeFields cs ts ++ rest))
            exact ⟨_, hdrop, (ts, rest), ih.mpr ⟨hts, rfl⟩, by rw [htake], rfl⟩

variable {f : Form α}

theorem Form.read_eq_some_iff : f.read s = some (ts, rest) ↔ f.Allows ts ∧ s = f.write ts ++ rest := by
  simp only [Form.read, Option.bind_eq_some_iff, after_eq_some_iff, readFields_eq_some_iff, Form.write, Form.Allows]
  constructor
  · rintro ⟨s', rfl, hts, rfl⟩
    exact ⟨hts, (List.append_assoc _ _ _).symm⟩
  · rintro ⟨hts, rfl⟩
    exact ⟨_, List.append_assoc _ _ _, hts, rfl⟩

theorem Form.read_eq_none (h : ¬ f.opening <+: s) : f.read s = none := by
  rw [Form.read, after, if_neg h]
  rfl

/-! ## Many records -/

theorem Form.readRows_spec (n : Nat) (s : List α) :
    (∀ ts ∈ (f.readRows n s).1, f.Allows ts) ∧ s = (f.readRows n s).1.flatMap f.write ++ (f.readRows n s).2 := by
  induction n generalizing s with
  | zero => exact ⟨fun ts h => absurd h List.not_mem_nil, rfl⟩
  | succ n ih =>
      cases hread : f.read s with
      | none =>
          simp only [Form.readRows, hread]
          exact ⟨fun ts h => absurd h List.not_mem_nil, rfl⟩
      | some p =>
          obtain ⟨hts, hs⟩ := Form.read_eq_some_iff.mp hread
          obtain ⟨hall, hrest⟩ := ih p.2
          simp only [Form.readRows, hread, List.forall_mem_cons, List.flatMap_cons, List.append_assoc]
          exact ⟨⟨hts, hall⟩, by rw [← hrest, hs]⟩

theorem Form.readRows_write {tss : List (List (List α))} (hall : ∀ ts ∈ tss, f.Allows ts) (hrest : f.read rest = none)
    {n : Nat} (hn : tss.length ≤ n) : f.readRows n (tss.flatMap f.write ++ rest) = (tss, rest) := by
  induction tss generalizing n with
  | nil =>
      cases n with
      | zero => rfl
      | succ n =>
          rw [List.flatMap_nil, List.nil_append, Form.readRows, hrest]
  | cons ts tss ih =>
      obtain ⟨hts, hall⟩ := List.forall_mem_cons.mp hall
      cases n with
      | zero => exact absurd hn (Nat.not_succ_le_zero _)
      | succ n =>
          have hread : f.read (f.write ts ++ (tss.flatMap f.write ++ rest)) = some (ts, tss.flatMap f.write ++ rest) :=
            Form.read_eq_some_iff.mpr ⟨hts, rfl⟩
          have hrows := ih hall (Nat.le_of_succ_le_succ hn)
          simp only [List.flatMap_cons, List.append_assoc, Form.readRows, hread, hrows]

end

/-! ## Documents -/

/-- A text is read as a document if and only if it is the text of one that its form allows. -/
theorem DocumentForm.read_eq_some_iff {f : DocumentForm α} {s : List α} {ts : List (List α)}
    {tss : List (List (List α))} :
    f.read s = some (ts, tss) ↔ (f.head.Allows ts ∧ ∀ ts ∈ tss, f.row.Allows ts) ∧ s = f.write ts tss := by
  simp only [DocumentForm.read, Option.bind_eq_bind, Option.bind_eq_some_iff, Option.pure_def]
  constructor
  · rintro ⟨⟨ts', s'⟩, hread, htail⟩
    obtain ⟨hts, rfl⟩ := Form.read_eq_some_iff.mp hread
    obtain ⟨hall, hs'⟩ := f.row.readRows_spec s'.length s'
    split at htail
    · rename_i hrest
      obtain ⟨rfl, rfl⟩ := Prod.mk.inj (Option.some.inj htail)
      rw [hrest] at hs'
      exact ⟨⟨hts, hall⟩, by rw [DocumentForm.write, List.append_assoc, ← hs']⟩
    · cases htail
  · rintro ⟨⟨hts, hall⟩, rfl⟩
    have hlen : tss.length ≤ (tss.flatMap f.row.write ++ f.tail).length := by
      have hrows := Form.length_le_flatMap_write f.opened tss
      rw [List.length_append]
      omega
    have hrows := Form.readRows_write hall (Form.read_eq_none f.apart) hlen
    refine ⟨(ts, tss.flatMap f.row.write ++ f.tail), Form.read_eq_some_iff.mpr ⟨hts, ?_⟩, ?_⟩
    · rw [DocumentForm.write, List.append_assoc]
    · simp only [hrows, if_true]

end CompileService.Base
