import Mathlib.Data.List.Pairwise
import Mathlib.Order.Bounds.Basic

/-! # Layouts

`roundUp n align` is the least multiple of `align` that is not below `n`. `Stacked`
says that records lie one behind the other between two bounds; it is what a loop
that carries an offset along builds up, one record at a time. From it follow the
bounds of every record (`Stacked.bounds`) and that no two overlap
(`Stacked.pairwise`).
-/

namespace SuperExe.Lib.Layout

/-! ## Multiples -/

/-- The least multiple of `align` that is not below `n`. -/
def roundUp (n align : Nat) : Nat := (n + align - 1) / align * align

variable {n m align : Nat}

theorem dvd_roundUp : align ∣ roundUp n align := Nat.dvd_mul_left _ _

theorem le_roundUp (h : 0 < align) : n ≤ roundUp n align := by
  have hmod := Nat.div_add_mod (n + align - 1) align
  have hlt := Nat.mod_lt (n + align - 1) h
  rw [Nat.mul_comm] at hmod
  rw [roundUp]
  omega

theorem roundUp_le (hle : n ≤ m) (hdvd : align ∣ m) : roundUp n align ≤ m := by
  rcases hdvd with ⟨k, rfl⟩
  rcases Nat.eq_zero_or_pos align with rfl | h
  · rw [roundUp, Nat.mul_zero]
    omega
  · rw [roundUp, Nat.mul_comm]
    refine Nat.mul_le_mul_left _ (Nat.le_of_lt_succ ((Nat.div_lt_iff_lt_mul h).mpr ?_))
    rw [Nat.succ_mul, Nat.mul_comm k]
    omega

theorem isLeast_roundUp (h : 0 < align) :
    IsLeast {m | n ≤ m ∧ align ∣ m} (roundUp n align) := by
  constructor
  · exact ⟨le_roundUp h, dvd_roundUp⟩
  · rintro m ⟨hle, hdvd⟩
    exact roundUp_le hle hdvd

theorem roundUp_eq_self (h : 0 < align) (hdvd : align ∣ n) : roundUp n align = n :=
  Nat.le_antisymm (roundUp_le le_rfl hdvd) (le_roundUp h)

theorem roundUp_lt (h : 0 < align) : roundUp n align < n + align := by
  have hle := Nat.div_mul_le_self (n + align - 1) align
  rw [roundUp]
  omega

/-! ## Records one behind the other -/

universe u

variable {α : Type u} (pos size : α → Nat)

/-- The records lie one behind the other, from the first bound on and up to the
second. -/
inductive Stacked : Nat → List α → Nat → Prop
  | nil (n : Nat) : Stacked n [] n
  | cons {n m k : Nat} {x : α} {xs : List α} (start : n ≤ pos x) (stop : pos x + size x ≤ m)
      (rest : Stacked m xs k) : Stacked n (x :: xs) k

variable {pos size} {xs : List α} {k : Nat}

theorem Stacked.bounds (h : Stacked pos size n xs k) :
    n ≤ k ∧ ∀ x ∈ xs, n ≤ pos x ∧ pos x + size x ≤ k := by
  induction h with
  | nil n => exact ⟨le_rfl, fun x hx => absurd hx List.not_mem_nil⟩
  | cons start stop rest ih =>
    rcases ih with ⟨hle, hall⟩
    refine ⟨by omega, fun x hx => ?_⟩
    rcases List.mem_cons.mp hx with rfl | hx
    · exact ⟨start, stop.trans hle⟩
    · rcases hall x hx with ⟨hn, hk⟩
      exact ⟨by omega, hk⟩

theorem Stacked.pairwise (h : Stacked pos size n xs k) :
    xs.Pairwise fun x y => pos x + size x ≤ pos y := by
  induction h with
  | nil n => exact List.Pairwise.nil
  | cons start stop rest ih =>
    refine List.Pairwise.cons (fun y hy => ?_) ih
    exact stop.trans (rest.bounds.2 y hy).1

end SuperExe.Lib.Layout
