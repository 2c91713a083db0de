import CompileService.Base.Bytes
import CompileService.Base.LexPath

/-!
# File trees

A file system without links: files and directories at places, each place given by the names that lead to it from
the root. Walking a path enters one component after another, and every place that is left by a component must be a
directory.
-/

namespace CompileService.Base

inductive FileNode where
  | file (contents : List UInt8)
  | dir
deriving DecidableEq, Repr

/-- What lies at each place. The root is a directory, and what has something in it is one. -/
structure FileTree (α : Type) where
  node : List α → Option FileNode
  root : node [] = some .dir
  parent : ∀ place a, node (place ++ [a]) ≠ none → node place = some .dir

namespace FileTree

variable {α : Type}

/-- Where a component leads to; the parent of the root is the root. -/
def next (place : List α) : Comp α → List α
  | .cur => place
  | .up => place.dropLast
  | .name a => place ++ [a]

def walk (t : FileTree α) : List α → List (Comp α) → Option (List α)
  | place, [] => if t.node place = none then none else some place
  | place, c :: cs => if t.node place = some .dir then t.walk (next place c) cs else none

/-- Without links, walking from the root is lexical resolution. -/
theorem walk_resolve {t : FileTree α} {cs : List (Comp α)} {q : List α} (h : t.walk [] cs = some q) :
    LexPath.resolve true cs = ⟨0, q⟩ := by
  have hwalk : ∀ (cs : List (Comp α)) (place : List α), t.walk place cs = some q →
      cs.foldl (LexPath.step true) ⟨0, place⟩ = ⟨0, q⟩ := by
    intro cs
    induction cs with
    | nil =>
        intro place h
        rw [walk] at h
        split at h
        · cases h
        · rw [Option.some.inj h]
          rfl
    | cons c cs ih =>
        intro place h
        rw [walk] at h
        split at h
        · rw [List.foldl_cons, ← ih _ h]
          cases c with
          | cur => rfl
          | up => cases place <;> rfl
          | name a => rfl
        · cases h
  exact hwalk cs [] h

/-- The places that a walk comes through. -/
def visited : List α → List (Comp α) → List (List α)
  | place, [] => [place]
  | place, c :: cs => place :: visited (next place c) cs

variable [DecidableEq α]

/-- The tree that has just the directories on the way to some places. -/
def ofPlaces (places : List (List α)) : FileTree α where
  node := fun place => if place = [] ∨ ∃ q ∈ places, place <+: q then some .dir else none
  root := if_pos (.inl rfl)
  parent := by
    intro place a h
    split at h
    · rename_i hplace
      obtain ⟨q, hq, hpre⟩ := hplace.resolve_left (by simp)
      exact if_pos (.inr ⟨q, hq, (List.prefix_append place [a]).trans hpre⟩)
    · exact absurd rfl h

theorem node_ofPlaces {places : List (List α)} {place : List α} (h : place ∈ places) :
    (ofPlaces places).node place = some .dir := if_pos (.inr ⟨place, h, List.prefix_rfl⟩)

theorem walk_ofPlaces {places : List (List α)} {cs : List (Comp α)} {place : List α}
    (h : ∀ q ∈ visited place cs, q ∈ places) :
    ∃ q, (ofPlaces places).walk place cs = some q ∧ (ofPlaces places).node q = some .dir := by
  induction cs generalizing place with
  | nil =>
      have hnode := node_ofPlaces (h place List.mem_cons_self)
      exact ⟨place, by rw [walk, hnode]; rfl, hnode⟩
  | cons c cs ih =>
      have hnode := node_ofPlaces (h place List.mem_cons_self)
      rw [walk, if_pos hnode]
      exact ih (fun q hq => h q (List.mem_cons_of_mem place hq))

end FileTree

end CompileService.Base
