import Mathlib.Data.List.Basic
import Mathlib.Tactic.Ring

/-! # Places in a byte memory

A memory of bytes, the bytes of a place in it and the memory after bytes are put
into a place. What is put is what is read back (`get_put`), and a place that is
apart from it stays as it is (`get_put_of_apart`). Numbers are bytes in
little-endian order.
-/

namespace SuperExe.Lib.Places

/-- The bytes of a place. -/
def get (m : Nat → UInt8) (pos size : Nat) : List UInt8 :=
  (List.range size).map fun i : Nat => m (pos + i)

/-- The memory after bytes are put into a place. -/
def put (m : Nat → UInt8) (pos : Nat) (bs : List UInt8) : Nat → UInt8 := fun i =>
  if pos ≤ i ∧ i < pos + bs.length then bs.getD (i - pos) 0 else m i

variable {m m' : Nat → UInt8} {pos pos' size : Nat} {bs : List UInt8}

@[simp] theorem length_get : (get m pos size).length = size := by
  rw [get, List.length_map, List.length_range]

theorem get_congr (h : ∀ i < size, m (pos + i) = m' (pos' + i)) :
    get m pos size = get m' pos' size :=
  List.map_congr_left fun i hi => h i (List.mem_range.mp hi)

theorem put_of_outside {i : Nat} (h : i < pos ∨ pos + bs.length ≤ i) : put m pos bs i = m i := by
  refine if_neg ?_
  rintro ⟨hle, hlt⟩
  omega

theorem get_put : get (put m pos bs) pos bs.length = bs := by
  apply List.ext_getElem?
  intro i
  by_cases hi : i < bs.length
  · have hin : pos ≤ pos + i ∧ pos + i < pos + bs.length := ⟨by omega, by omega⟩
    rw [get, List.getElem?_map, List.getElem?_range hi, Option.map_some, put, if_pos hin,
      Nat.add_sub_cancel_left, List.getD_eq_getElem?_getD, List.getElem?_eq_getElem hi,
      Option.getD_some]
  · rw [List.getElem?_eq_none (by rw [length_get]; omega), List.getElem?_eq_none (by omega)]

theorem get_put_of_apart (h : pos + size ≤ pos' ∨ pos' + bs.length ≤ pos) :
    get (put m pos' bs) pos size = get m pos size := by
  apply get_congr
  intro i hi
  exact put_of_outside (by omega)

/-- A part of what was put. -/
theorem get_put_take {n : Nat} (h : n ≤ bs.length) : get (put m pos bs) pos n = bs.take n := by
  apply List.ext_getElem?
  intro i
  by_cases hi : i < n
  · have hin : pos ≤ pos + i ∧ pos + i < pos + bs.length := ⟨by omega, by omega⟩
    rw [get, List.getElem?_map, List.getElem?_range hi, Option.map_some, put, if_pos hin,
      Nat.add_sub_cancel_left, List.getElem?_take_of_lt hi, List.getD_eq_getElem?_getD,
      List.getElem?_eq_getElem (show i < bs.length by omega), Option.getD_some]
  · rw [List.getElem?_eq_none (by rw [length_get]; omega),
      List.getElem?_eq_none (by rw [List.length_take]; omega)]

/-! ## Numbers -/

/-- The bytes of a number. -/
def littleEndian (width n : Nat) : List UInt8 :=
  (List.range width).map fun i : Nat => UInt8.ofNat (n / 256 ^ i)

@[simp] theorem length_littleEndian {width n : Nat} : (littleEndian width n).length = width := by
  rw [littleEndian, List.length_map, List.length_range]

theorem take_littleEndian {width width' n : Nat} (h : width ≤ width') :
    (littleEndian width' n).take width = littleEndian width n := by
  rw [littleEndian, ← List.map_take, List.take_range, Nat.min_eq_left h, littleEndian]

/-- The bytes say no more than the number modulo their range. -/
theorem littleEndian_congr {width n n' : Nat} (h : n % 256 ^ width = n' % 256 ^ width) :
    littleEndian width n = littleEndian width n' := by
  refine List.map_congr_left fun i hi => ?_
  have hlt := List.mem_range.mp hi
  apply UInt8.toNat_inj.mp
  rw [UInt8.toNat_ofNat', UInt8.toNat_ofNat']
  have hsplit : 256 ^ width = 256 ^ i * 256 ^ (width - i) := by
    rw [← Nat.pow_add]
    congr 1
    omega
  have hdvd : 256 ∣ 256 ^ (width - i) := dvd_pow_self _ (by omega)
  have hdigit : ∀ k : Nat, k / 256 ^ i % 2 ^ 8 = k % 256 ^ width / 256 ^ i % 2 ^ 8 := by
    intro k
    rw [hsplit, Nat.mod_mul_right_div_self]
    exact (Nat.mod_mod_of_dvd _ hdvd).symm
  rw [hdigit n, hdigit n', h]

end SuperExe.Lib.Places
