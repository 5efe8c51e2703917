import Mathlib.Tactic.Common
import Mathlib.Data.List.Infix
import Mathlib.Data.Nat.Find

/-! # Searches for an index

What a search over the indices of a sequence returns when it counts upwards from
a start, or downwards from a bound: the first index with a property, and -1 when
there is none. `OccursAt` is the property that most searches look for, one list
standing in another.
-/

namespace SuperExe.Lib

universe u

variable {P Q : Nat → Prop} {start bound : Nat} {r : Int}

/-- `r` is the least index from `start` on with `P`, or -1 when there is
none. -/
def First (P : Nat → Prop) (start : Nat) (r : Int) : Prop :=
  (r = -1 ∧ ∀ i, start ≤ i → ¬ P i) ∨
    ∃ i : Nat, r = i ∧ start ≤ i ∧ P i ∧ ∀ j, start ≤ j → j < i → ¬ P j

/-- `r` is the greatest index below `bound` with `P`, or -1 when there is
none. -/
def Last (P : Nat → Prop) (bound : Nat) (r : Int) : Prop :=
  (r = -1 ∧ ∀ i, i < bound → ¬ P i) ∨
    ∃ i : Nat, r = i ∧ i < bound ∧ P i ∧ ∀ j, i < j → j < bound → ¬ P j

/-- Where there is an index with `P` there is a least one. -/
theorem exists_least {i : Nat} (h : P i) : ∃ k ≤ i, P k ∧ ∀ j < k, ¬ P j := by
  classical
  exact ⟨Nat.find ⟨i, h⟩, Nat.find_min' ⟨i, h⟩ h, Nat.find_spec ⟨i, h⟩,
    fun j hj => Nat.find_min ⟨i, h⟩ hj⟩

namespace First

theorem here (h : P start) : First P start start :=
  Or.inr ⟨start, rfl, Nat.le_refl _, h, fun _ h1 h2 => absurd h2 (by omega)⟩

theorem none (h : ∀ i, start ≤ i → ¬ P i) : First P start (-1) := Or.inl ⟨rfl, h⟩

/-- An index without the property is passed. -/
theorem pass (hstart : ¬ P start) (h : First P (start + 1) r) : First P start r := by
  have hskip : ∀ j, start ≤ j → ¬ start + 1 ≤ j → ¬ P j := by
    intro j h1 h2
    obtain rfl : j = start := by omega
    exact hstart
  rcases h with ⟨hr, hnone⟩ | ⟨i, hr, hi, hP, hleast⟩
  · refine Or.inl ⟨hr, fun j hj => ?_⟩
    by_cases hlt : start + 1 ≤ j
    · exact hnone j hlt
    · exact hskip j hj hlt
  · refine Or.inr ⟨i, hr, by omega, hP, fun j hj hji => ?_⟩
    by_cases hlt : start + 1 ≤ j
    · exact hleast j hlt hji
    · exact hskip j hj hlt

/-- Indices that are all without the property are passed. -/
theorem pass_to {i : Nat} (hle : start ≤ i) (hskip : ∀ j, start ≤ j → j < i → ¬ P j)
    (h : First P i r) : First P start r := by
  induction i, hle using Nat.le_induction with
  | base => exact h
  | succ i hle ih =>
    apply ih
    · intro j h1 h2
      exact hskip j h1 (by omega)
    · exact h.pass (hskip i hle (by omega))

theorem congr (hPQ : ∀ i, start ≤ i → (P i ↔ Q i)) (h : First P start r) : First Q start r := by
  rcases h with ⟨hr, hnone⟩ | ⟨i, hr, hi, hP, hleast⟩
  · exact Or.inl ⟨hr, fun i hi hQ => hnone i hi ((hPQ i hi).mpr hQ)⟩
  · refine Or.inr ⟨i, hr, hi, (hPQ i hi).mp hP, fun j hj hji hQ => ?_⟩
    exact hleast j hj hji ((hPQ j hj).mpr hQ)

/-- There is one least index. -/
theorem unique {r' : Int} (h : First P start r) (h' : First P start r') : r = r' := by
  rcases h with ⟨hr, hnone⟩ | ⟨i, hr, hi, hP, hleast⟩ <;>
    rcases h' with ⟨hr', hnone'⟩ | ⟨i', hr', hi', hP', hleast'⟩
  · rw [hr, hr']
  · exact absurd hP' (hnone i' hi')
  · exact absurd hP (hnone' i hi)
  · have h1 : ¬ i < i' := fun hlt => hleast' i hi hlt hP
    have h2 : ¬ i' < i := fun hlt => hleast i' hi' hlt hP'
    omega

theorem eq_neg_one_iff (h : First P start r) : r = -1 ↔ ∀ i, start ≤ i → ¬ P i := by
  rcases h with ⟨hr, hnone⟩ | ⟨i, hr, hi, hP, -⟩
  · exact ⟨fun _ => hnone, fun _ => hr⟩
  · constructor
    · intro hneg
      omega
    · intro hall
      exact absurd hP (hall i hi)

end First

namespace Last

theorem here (h : P bound) : Last P (bound + 1) bound :=
  Or.inr ⟨bound, rfl, Nat.lt_succ_self _, h, fun _ h1 h2 => absurd h2 (by omega)⟩

theorem none (h : ∀ i, i < bound → ¬ P i) : Last P bound (-1) := Or.inl ⟨rfl, h⟩

/-- Indices from `i` on that are all without the property are passed. -/
theorem pass_to {i : Nat} (hle : i ≤ bound) (hskip : ∀ j, i ≤ j → j < bound → ¬ P j)
    (h : Last P i r) : Last P bound r := by
  rcases h with ⟨hr, hnone⟩ | ⟨k, hr, hk, hP, hgreatest⟩
  · refine Or.inl ⟨hr, fun j hj => ?_⟩
    by_cases hji : j < i
    · exact hnone j hji
    · exact hskip j (by omega) hj
  · refine Or.inr ⟨k, hr, by omega, hP, fun j hkj hj => ?_⟩
    by_cases hji : j < i
    · exact hgreatest j hkj hji
    · exact hskip j (by omega) hj

theorem congr (hPQ : ∀ i, i < bound → (P i ↔ Q i)) (h : Last P bound r) : Last Q bound r := by
  rcases h with ⟨hr, hnone⟩ | ⟨i, hr, hi, hP, hgreatest⟩
  · exact Or.inl ⟨hr, fun i hi hQ => hnone i hi ((hPQ i hi).mpr hQ)⟩
  · refine Or.inr ⟨i, hr, hi, (hPQ i hi).mp hP, fun j hij hj hQ => ?_⟩
    exact hgreatest j hij hj ((hPQ j hj).mpr hQ)

/-- There is one greatest index. -/
theorem unique {r' : Int} (h : Last P bound r) (h' : Last P bound r') : r = r' := by
  rcases h with ⟨hr, hnone⟩ | ⟨i, hr, hi, hP, hgreatest⟩ <;>
    rcases h' with ⟨hr', hnone'⟩ | ⟨i', hr', hi', hP', hgreatest'⟩
  · rw [hr, hr']
  · exact absurd hP' (hnone i' hi')
  · exact absurd hP (hnone' i hi)
  · have h1 : ¬ i < i' := fun hlt => hgreatest i' hlt hi' hP'
    have h2 : ¬ i' < i := fun hlt => hgreatest' i hlt hi hP
    omega

theorem eq_neg_one_iff (h : Last P bound r) : r = -1 ↔ ∀ i, i < bound → ¬ P i := by
  rcases h with ⟨hr, hnone⟩ | ⟨i, hr, hi, hP, -⟩
  · exact ⟨fun _ => hnone, fun _ => hr⟩
  · constructor
    · intro hneg
      omega
    · intro hall
      exact absurd hP (hall i hi)

end Last

/-! ## One list in another -/

section Occurs

variable {α : Type u} {p t : List α} {i : Nat}

/-- `p` stands in `t` at index `i`. -/
def OccursAt (p t : List α) (i : Nat) : Prop := i ≤ t.length ∧ p <+: t.drop i

instance [DecidableEq α] (p t : List α) (i : Nat) : Decidable (OccursAt p t i) :=
  inferInstanceAs (Decidable (i ≤ t.length ∧ p <+: t.drop i))

theorem OccursAt.add_le (h : OccursAt p t i) : i + p.length ≤ t.length := by
  have hlen := h.2.length_le
  have := h.1
  rw [List.length_drop] at hlen
  omega

theorem occursAt_iff (hp : p ≠ []) : OccursAt p t i ↔ p <+: t.drop i := by
  refine ⟨And.right, fun h => ⟨?_, h⟩⟩
  have hlen := h.length_le
  have := List.length_pos_iff.mpr hp
  rw [List.length_drop] at hlen
  omega

theorem occursAt_singleton {a : α} : OccursAt [a] t i ↔ t[i]? = some a := by
  rw [occursAt_iff (List.cons_ne_nil a [])]
  constructor
  · rintro ⟨s, hs⟩
    have hget : (t.drop i)[0]? = t[i + 0]? := List.getElem?_drop
    rw [← hs] at hget
    exact hget.symm
  · intro hget
    obtain ⟨hi, hval⟩ := List.getElem?_eq_some_iff.mp hget
    rw [List.drop_eq_getElem_cons hi, hval]
    exact ⟨_, rfl⟩

/-- What stands in a list stands there when more is added. -/
theorem OccursAt.append (h : OccursAt p t i) (u : List α) : OccursAt p (t ++ u) i := by
  refine ⟨by rw [List.length_append]; exact Nat.le_add_right_of_le h.1, ?_⟩
  rw [List.drop_append_of_le_length h.1]
  exact h.2.trans (List.prefix_append _ _)

/-- An occurrence needs no more of the list than its own end. -/
theorem OccursAt.take (h : OccursAt p t i) : OccursAt p (t.take (i + p.length)) i := by
  refine ⟨by rw [List.length_take]; have := h.add_le; omega, ?_⟩
  obtain ⟨s, hs⟩ := h.2
  rw [List.drop_take, Nat.add_sub_cancel_left, ← hs, List.take_left]

/-- What stands in the front part is there without the rest. -/
theorem OccursAt.front {u : List α} (h : OccursAt p (t ++ u) i) (hle : i + p.length ≤ t.length) :
    OccursAt p t i := by
  have htake := h.take
  rw [List.take_append_of_le_length hle] at htake
  have happend := htake.append (t.drop (i + p.length))
  rwa [List.take_append_drop] at happend

end Occurs

end SuperExe.Lib
