import Mathlib.Data.List.Nodup
import Mathlib.Data.List.Perm.Subperm
import Mathlib.Data.List.Range
import Mathlib.Logic.Function.Iterate

/-! # Paths to a root

Each point has one parent, and a path goes from a point through its parents up
to the root. A path exists for every point from which the root is reached, there
is only one, and it passes through no point twice.
-/

namespace SuperExe.Lib

variable {α : Type*} {parent : α → α} {root : α}

/-- The points from one up to the root. -/
inductive Path (parent : α → α) (root : α) : α → List α → Prop
  | root : Path parent root root [root]
  | step {x : α} {l : List α} (hx : x ≠ root) (hl : Path parent root (parent x) l) :
      Path parent root x (x :: l)

namespace Path

variable {x y : α} {l l' : List α}

theorem exists_of_iterate {n : Nat} (h : parent^[n] x = root) : ∃ l, Path parent root x l := by
  induction n generalizing x with
  | zero =>
    have hx : x = root := h
    subst hx
    exact ⟨_, .root⟩
  | succ n ih =>
    by_cases hx : x = root
    · subst hx
      exact ⟨_, .root⟩
    · rw [Function.iterate_succ_apply] at h
      rcases ih h with ⟨l, hl⟩
      exact ⟨_, .step hx hl⟩

theorem unique (hl : Path parent root x l) (hl' : Path parent root x l') : l = l' := by
  induction hl generalizing l' with
  | root =>
    cases hl' with
    | root => rfl
    | step hx _ => exact absurd rfl hx
  | step hx _ ih =>
    cases hl' with
    | root => exact absurd rfl hx
    | step _ hl' => rw [ih hl']

theorem root_mem (hl : Path parent root x l) : root ∈ l := by
  induction hl with
  | root => exact List.mem_singleton_self _
  | step _ _ ih => exact List.mem_cons_of_mem _ ih

/-- The path of a point on a path is the rest of that path. -/
theorem suffix_of_mem (hl : Path parent root x l) (hy : y ∈ l) :
    ∃ l', Path parent root y l' ∧ l' <:+ l := by
  induction hl with
  | root =>
    cases List.mem_singleton.mp hy
    exact ⟨_, .root, List.suffix_refl _⟩
  | @step x l hx hl ih =>
    rcases List.mem_cons.mp hy with rfl | hy
    · exact ⟨_, .step hx hl, List.suffix_refl _⟩
    · rcases ih hy with ⟨l', hl', hsuffix⟩
      exact ⟨l', hl', hsuffix.trans (List.suffix_cons _ _)⟩

theorem subset_of_mem (hl : Path parent root x l) (hl' : Path parent root y l') (hy : y ∈ l) :
    l' ⊆ l := by
  rcases hl.suffix_of_mem hy with ⟨l'', hl'', hsuffix⟩
  rw [hl'.unique hl'']
  exact hsuffix.subset

theorem nodup (hl : Path parent root x l) : l.Nodup := by
  induction hl with
  | root => exact List.nodup_singleton _
  | @step x l hx hl ih =>
    refine List.nodup_cons.mpr ⟨?_, ih⟩
    intro hmem
    -- the path of `x` would be shorter than itself
    rcases hl.suffix_of_mem hmem with ⟨l', hl', hsuffix⟩
    have hlength := hsuffix.length_le
    rw [hl'.unique (.step hx hl), List.length_cons] at hlength
    omega

theorem lt_of_mem {parent : Nat → Nat} {root bound x : Nat} {l : List Nat}
    (hparent : ∀ y < bound, y ≠ root → parent y < bound) (hl : Path parent root x l)
    (hx : x < bound) : ∀ y ∈ l, y < bound := by
  induction hl with
  | root =>
    intro y hy
    cases List.mem_singleton.mp hy
    exact hx
  | step hne _ ih =>
    intro y hy
    rcases List.mem_cons.mp hy with rfl | hy
    · exact hx
    · exact ih (hparent _ hx hne) y hy

end Path

theorem length_le_of_nodup {l : List Nat} {bound : Nat} (hnodup : l.Nodup)
    (hlt : ∀ y ∈ l, y < bound) : l.length ≤ bound := by
  have hsub : l ⊆ List.range bound := fun y hy => List.mem_range.mpr (hlt y hy)
  have hle := (List.Nodup.subperm hnodup hsub).length_le
  rwa [List.length_range] at hle

end SuperExe.Lib
