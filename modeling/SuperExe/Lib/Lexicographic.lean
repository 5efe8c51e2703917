import Mathlib.Tactic.Common
import Mathlib.Data.List.Basic

/-! # Lexicographic comparison up to a key

Two lists are compared element by element. Elements with equal keys are passed;
at the first pair with different keys the ranks decide. `shorter` is the sign a
list has against a longer one that starts with it. The comparison is a total
preorder if no rank with another key lies between two ranks with one key.
`agreement` is the number of elements before the first difference.
-/

namespace SuperExe.Lib

universe u v

section Lexicographic

variable {α : Type u} {κ : Type v} (key : α → κ) (rank : α → Nat)

/-- Between two elements of `A` with one key there is none with another key. -/
structure Convex (A : α → Prop) : Prop where
  rank_eq : ∀ {x y}, A x → A y → rank x = rank y → key x = key y
  between : ∀ {x y z}, A x → A y → A z → key x = key y → key z ≠ key x →
    ¬ (rank x < rank z ∧ rank z < rank y)

variable {key rank} {A : α → Prop}

/-- An element below one of a class, and not of the class, is below all of
it. -/
theorem Convex.lt_of_lt_left (hA : Convex key rank A) {x y z : α} (hx : A x) (hy : A y) (hz : A z)
    (hxy : key x = key y) (hne : key z ≠ key x) (hlt : rank z < rank x) : rank z < rank y := by
  have hzy : rank z ≠ rank y := fun h => hne ((hA.rank_eq hz hy h).trans hxy.symm)
  have hbetween := hA.between hy hx hz hxy.symm (fun h => hne (h.trans hxy.symm))
  omega

/-- The same above. -/
theorem Convex.lt_of_lt_right (hA : Convex key rank A) {x y z : α} (hx : A x) (hy : A y) (hz : A z)
    (hxy : key x = key y) (hne : key z ≠ key x) (hlt : rank x < rank z) : rank y < rank z := by
  have hzy : rank z ≠ rank y := fun h => hne ((hA.rank_eq hz hy h).trans hxy.symm)
  have hbetween := hA.between hx hy hz hxy hne
  omega

variable [DecidableEq κ]

/-- The sign of the first list against the second one. -/
def lexSign (key : α → κ) (rank : α → Nat) (shorter : Int) :
    List α → List α → Int
  | [], [] => 0
  | [], _ :: _ => shorter
  | _ :: _, [] => -shorter
  | x :: a, y :: b =>
    if key x = key y then lexSign key rank shorter a b else if rank x < rank y then -1 else 1

variable {shorter : Int} {a b c : List α}

theorem lexSign_eq_zero_iff (hs : shorter ≠ 0) :
    lexSign key rank shorter a b = 0 ↔ a.map key = b.map key := by
  induction a generalizing b with
  | nil =>
    cases b with
    | nil => simp [lexSign]
    | cons y b => simp [lexSign, hs]
  | cons x a ih =>
    cases b with
    | nil => simp [lexSign, hs]
    | cons y b =>
      rw [lexSign, List.map_cons, List.map_cons, List.cons.injEq]
      by_cases hkey : key x = key y
      · rw [if_pos hkey, ih]
        exact (and_iff_right hkey).symm
      · rw [if_neg hkey]
        constructor
        · intro h
          split at h <;> omega
        · rintro ⟨h, -⟩
          exact absurd h hkey

/-- Exchanging the lists changes the sign. -/
theorem lexSign_symm (hA : ∀ {x y}, A x → A y → rank x = rank y → key x = key y)
    (ha : ∀ x ∈ a, A x) (hb : ∀ x ∈ b, A x) :
    lexSign key rank shorter b a = -lexSign key rank shorter a b := by
  induction a generalizing b with
  | nil =>
    cases b with
    | nil => rfl
    | cons y b => rfl
  | cons x a ih =>
    cases b with
    | nil => exact (Int.neg_neg shorter).symm
    | cons y b =>
      have hx := ha x List.mem_cons_self
      have hy := hb y List.mem_cons_self
      rw [lexSign, lexSign]
      by_cases hkey : key x = key y
      · rw [if_pos hkey, if_pos hkey.symm]
        exact ih (fun z hz => ha z (List.mem_cons_of_mem x hz))
          fun z hz => hb z (List.mem_cons_of_mem y hz)
      · have hne : rank x ≠ rank y := fun h => hkey (hA hx hy h)
        rw [if_neg hkey, if_neg fun h => hkey h.symm]
        split <;> split <;> omega

theorem lexSign_trans (hA : Convex key rank A) (hs : shorter = 1 ∨ shorter = -1)
    (ha : ∀ x ∈ a, A x) (hb : ∀ x ∈ b, A x) (hc : ∀ x ∈ c, A x)
    (hab : lexSign key rank shorter a b ≤ 0) (hbc : lexSign key rank shorter b c ≤ 0) :
    lexSign key rank shorter a c ≤ 0 := by
  induction a generalizing b c with
  | nil =>
    cases c with
    | nil => exact Int.le_refl 0
    | cons z c =>
      cases b with
      | nil => exact hbc
      | cons y b => exact hab
  | cons x a ih =>
    cases c with
    | nil =>
      cases b with
      | nil => exact hab
      | cons y b => exact hbc
    | cons z c =>
      cases b with
      | nil =>
        -- the ends would have both signs
        have h1 : -shorter ≤ 0 := hab
        have h2 : shorter ≤ 0 := hbc
        omega
      | cons y b =>
        have hx := ha x List.mem_cons_self
        have hy := hb y List.mem_cons_self
        have hz := hc z List.mem_cons_self
        rw [lexSign] at hab hbc ⊢
        by_cases hxy : key x = key y
        · rw [if_pos hxy] at hab
          by_cases hyz : key y = key z
          · rw [if_pos hyz] at hbc
            rw [if_pos (hxy.trans hyz)]
            exact ih (fun w hw => ha w (List.mem_cons_of_mem x hw))
              (fun w hw => hb w (List.mem_cons_of_mem y hw))
              (fun w hw => hc w (List.mem_cons_of_mem z hw)) hab hbc
          · rw [if_neg hyz] at hbc
            have hlt : rank y < rank z := by
              by_contra hge
              rw [if_neg hge] at hbc
              omega
            have hxz : key x ≠ key z := fun h => hyz (hxy.symm.trans h)
            have := hA.lt_of_lt_right hy hx hz hxy.symm (fun h => hyz h.symm) hlt
            rw [if_neg hxz, if_pos this]
            omega
        · rw [if_neg hxy] at hab
          have hlt : rank x < rank y := by
            by_contra hge
            rw [if_neg hge] at hab
            omega
          by_cases hyz : key y = key z
          · have hxz : key x ≠ key z := fun h => hxy (h.trans hyz.symm)
            have := hA.lt_of_lt_left hy hz hx hyz (fun h => hxy h) hlt
            rw [if_neg hxz, if_pos this]
            omega
          · rw [if_neg hyz] at hbc
            have hlt' : rank y < rank z := by
              by_contra hge
              rw [if_neg hge] at hbc
              omega
            have hxz : key x ≠ key z := fun h =>
              hA.between hx hz hy h (fun h' => hxy h'.symm) ⟨hlt, hlt'⟩
            rw [if_neg hxz, if_pos (by omega)]
            omega

end Lexicographic

/-! ## Before the first difference -/

section Agreement

variable {α : Type u} [DecidableEq α] {a b : List α} {n : Nat}

/-- How many elements two lists have in common from the front. -/
def agreement : List α → List α → Nat
  | x :: a, y :: b => if x = y then agreement a b + 1 else 0
  | _, _ => 0

theorem le_agreement_iff :
    n ≤ agreement a b ↔ n ≤ a.length ∧ n ≤ b.length ∧ a.take n = b.take n := by
  induction a generalizing b n with
  | nil => cases n <;> simp [agreement]
  | cons x a ih =>
    cases b with
    | nil => cases n <;> simp [agreement]
    | cons y b =>
      cases n with
      | zero => simp
      | succ n =>
        rw [agreement, List.take_succ_cons, List.take_succ_cons, List.cons.injEq, List.length_cons,
          List.length_cons, Nat.add_le_add_iff_right, Nat.add_le_add_iff_right]
        by_cases hxy : x = y
        · rw [if_pos hxy, Nat.add_le_add_iff_right, ih, and_iff_right hxy]
        · rw [if_neg hxy]
          exact ⟨fun h => absurd h (Nat.not_succ_le_zero n), fun h => absurd h.2.2.1 hxy⟩

/-- The fronts of two lists are the same up to the first difference, and
everywhere if there is none. -/
theorem take_eq_take_iff_agreement : a.take n = b.take n ↔ a = b ∨ n ≤ agreement a b := by
  rw [le_agreement_iff]
  constructor
  · intro h
    have hlen := congrArg List.length h
    rw [List.length_take, List.length_take] at hlen
    by_cases hn : n ≤ a.length
    · exact Or.inr ⟨hn, by omega, h⟩
    · -- the front is the whole of the one list, and so of the other
      rw [List.take_of_length_le (by omega), List.take_of_length_le (by omega)] at h
      exact Or.inl h
  · rintro (rfl | ⟨-, -, h⟩)
    · rfl
    · exact h

end Agreement

end SuperExe.Lib
