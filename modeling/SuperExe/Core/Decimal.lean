import Mathlib.Data.List.GetD
import SuperExe.Core.CString

/-! # Decimal text

`mk_string_itop` of `mk_core/mk_string.c`: a number as decimal digits with a
CRLF behind them, written into a buffer of the caller two digits at a time.
-/

namespace SuperExe.Core

/-- `digits10`. A 64-bit value needs one recursive call at most; `n` counts them. -/
def digits10 : Nat → Nat → Nat
  | n, v =>
    if v < 10 then 1
    else if v < 100 then 2
    else if v < 1000 then 3
    else if v < 1000000000000 then
      if v < 100000000 then
        if v < 1000000 then
          if v < 10000 then 4 else 5 + if v ≥ 100000 then 1 else 0
        else 7 + if v ≥ 10000000 then 1 else 0
      else if v < 10000000000 then 9 + if v ≥ 1000000000 then 1 else 0
      else 11 + if v ≥ 100000000000 then 1 else 0
    else
      match n with
      | 0 => 12
      | n + 1 => 12 + digits10 n (v / 1000000000000)

/-- `dst[pos] = c` -/
def poke (dst : Nat → UInt8) (pos : Nat) (c : UInt8) : Nat → UInt8 :=
  fun x => if x = pos then c else dst x

/-- The `digits` table: the decimal digits of `i / 2`, `00` to `99`. -/
def digitsTable (i : Nat) : UInt8 :=
  if i % 2 = 0 then UInt8.ofNat (48 + i / 2 / 10) else UInt8.ofNat (48 + i / 2 % 10)

/-- The loop of `mk_string_itop`, which runs while two more digits remain: the
rest of the value, `next` and the buffer. A 64-bit value takes at most nine
turns. -/
def itopLoop : Nat → Nat → Nat → (Nat → UInt8) → Nat × Nat × (Nat → UInt8)
  | 0, value, next, dst => (value, next, dst)
  | n + 1, value, next, dst =>
    if value ≥ 100 then
      let i := value % 100 * 2
      itopLoop n (value / 100) (next - 2)
        (poke (poke dst next (digitsTable (i + 1))) (next - 1) (digitsTable i))
    else (value, next, dst)

example : digits10 1 7 = 1 := by simp [digits10]

example (dst : Nat → UInt8) : itopLoop 1 7 0 dst = (7, 0, dst) := by simp [itopLoop]

/-- `mk_string_itop`: the buffer after it and `p->len`. -/
def mkStringItop (value : Nat) (data : Nat → UInt8) : (Nat → UInt8) × Nat :=
  let length := digits10 1 value
  let r := itopLoop 10 value (length - 1) data
  let value := r.1
  let next := r.2.1
  let dst :=
    if value < 10 then poke r.2.2 next (UInt8.ofNat (48 + value))
    else
      let i := value * 2
      poke (poke r.2.2 next (digitsTable (i + 1))) (next - 1) (digitsTable i)
  (poke (poke (poke dst length 13) (length + 1) 10) (length + 2) 0, length + 2)

example : (List.range 8).map (mkStringItop 12345 (fun _ => 0)).1 = bytes "12345\r\n\x00" := by
  decide

/-- The text `printf("%d")` gives for a number. -/
def decimal (n : Int) : Bytes := bytes (toString n)

/-! ## The text -/

section Text

theorem decimal_eq (n : Nat) :
    decimal n = (Nat.toDigits 10 n).map fun c => UInt8.ofNat c.toNat := by
  show bytes (String.ofList (Nat.toDigits 10 n)) = _
  rw [bytes, String.toList_ofList]

theorem digitChar_toNat {d : Nat} (hd : d < 10) : (Nat.digitChar d).toNat = 48 + d := by
  have hall : ∀ i : Fin 10, (Nat.digitChar i).toNat = 48 + i := by decide
  exact hall ⟨d, hd⟩

theorem decimal_of_lt {n : Nat} (hn : n < 10) : decimal n = [UInt8.ofNat (48 + n)] := by
  rw [decimal_eq, Nat.toDigits_of_lt_base hn, List.map_singleton, digitChar_toNat hn]

/-- The last digit comes off. -/
theorem decimal_of_le {n : Nat} (hn : 10 ≤ n) :
    decimal n = decimal (n / 10 : Nat) ++ [UInt8.ofNat (48 + n % 10)] := by
  rw [decimal_eq, decimal_eq, Nat.toDigits_of_base_le (by decide) hn, List.map_append,
    List.map_singleton, digitChar_toNat (Nat.mod_lt n (by decide))]

/-- The last two digits come off, as in the table. -/
theorem decimal_two {n : Nat} (hn : 100 ≤ n) :
    decimal n = decimal (n / 100 : Nat) ++
      [digitsTable (n % 100 * 2), digitsTable (n % 100 * 2 + 1)] := by
  have htens : digitsTable (n % 100 * 2) = UInt8.ofNat (48 + n / 10 % 10) := by
    rw [digitsTable, if_pos (by omega)]
    congr 2
    omega
  have hones : digitsTable (n % 100 * 2 + 1) = UInt8.ofNat (48 + n % 10) := by
    rw [digitsTable, if_neg (by omega)]
    congr 2
    omega
  rw [decimal_of_le (by omega : 10 ≤ n), decimal_of_le (by omega : 10 ≤ n / 10), htens, hones,
    Nat.div_div_eq_div_mul, List.append_assoc, List.singleton_append]

theorem length_decimal_pos (n : Nat) : 0 < (decimal n).length := by
  rw [decimal_eq, List.length_map]
  exact Nat.length_toDigits_pos

theorem length_decimal_le_iff {n k : Nat} (hk : 0 < k) : (decimal n).length ≤ k ↔ n < 10 ^ k := by
  rw [decimal_eq, List.length_map]
  exact Nat.length_toDigits_le_iff (by decide) hk

/-- The number of digits is the one between two powers of ten. -/
theorem length_decimal_eq {n k : Nat} (hlt : n < 10 ^ (k + 1)) (hle : k = 0 ∨ 10 ^ k ≤ n) :
    (decimal n).length = k + 1 := by
  have hup := (length_decimal_le_iff (Nat.succ_pos k)).mpr hlt
  have hlow : ¬ (decimal n).length ≤ k := by
    rcases Nat.eq_zero_or_pos k with rfl | hk
    · exact Nat.not_le.mpr (length_decimal_pos n)
    · rw [length_decimal_le_iff hk]
      exact Nat.not_lt.mpr (hle.resolve_left (Nat.ne_of_gt hk))
  omega

/-- The comparison tree, for a value that it does not divide. -/
theorem digits10_small {v : Nat} (n : Nat) (hv : v < 1000000000000) :
    digits10 n v = (decimal v).length := by
  rw [digits10.eq_def]
  dsimp only
  split
  · exact (length_decimal_eq (k := 0) (by omega) (Or.inl rfl)).symm
  split
  · exact (length_decimal_eq (k := 1) (by omega) (Or.inr (by omega))).symm
  split
  · exact (length_decimal_eq (k := 2) (by omega) (Or.inr (by omega))).symm
  split
  · split
    · split
      · exact (length_decimal_eq (k := 3) (by omega) (Or.inr (by omega))).symm
      · split
        · exact (length_decimal_eq (k := 5) (by omega) (Or.inr (by omega))).symm
        · exact (length_decimal_eq (k := 4) (by omega) (Or.inr (by omega))).symm
    · split
      · exact (length_decimal_eq (k := 7) (by omega) (Or.inr (by omega))).symm
      · exact (length_decimal_eq (k := 6) (by omega) (Or.inr (by omega))).symm
  · split
    · split
      · exact (length_decimal_eq (k := 9) (by omega) (Or.inr (by omega))).symm
      · exact (length_decimal_eq (k := 8) (by omega) (Or.inr (by omega))).symm
    · split
      · exact (length_decimal_eq (k := 11) (by omega) (Or.inr (by omega))).symm
      · exact (length_decimal_eq (k := 10) (by omega) (Or.inr (by omega))).symm

/-- Twelve digits in front are as many as a division by `10 ^ 12` takes away. -/
theorem length_decimal_shift {v : Nat} (hv : 1000000000000 ≤ v) :
    (decimal v).length = 12 + (decimal (v / 1000000000000 : Nat)).length := by
  have hpos := length_decimal_pos (v / 1000000000000)
  rcases Nat.exists_eq_add_of_lt hpos with ⟨k, hk⟩
  rw [Nat.zero_add] at hk
  have hlt := (length_decimal_le_iff (Nat.succ_pos k)).mp (Nat.le_of_eq hk)
  have hle : 10 ^ k ≤ v / 1000000000000 := by
    rcases Nat.eq_zero_or_pos k with rfl | hkpos
    · omega
    · rw [← Nat.not_lt, ← length_decimal_le_iff hkpos, hk]
      omega
  have hpow : (10 : Nat) ^ (12 + k + 1) = 10 ^ (k + 1) * 1000000000000 := by
    rw [show 12 + k + 1 = k + 1 + 12 by omega, Nat.pow_add]
  have hpow' : (10 : Nat) ^ (12 + k) = 10 ^ k * 1000000000000 := by
    rw [Nat.add_comm, Nat.pow_add]
  rw [length_decimal_eq (k := 12 + k) (by rw [hpow]; omega) (Or.inr (by rw [hpow']; omega)), hk]
  omega

/-- `digits10` of a 64-bit value is the number of its digits. -/
theorem digits10_eq {v : Nat} (hv : v < 2 ^ 64) : digits10 1 v = (decimal v).length := by
  by_cases hsmall : v < 1000000000000
  · exact digits10_small 1 hsmall
  · rw [digits10, if_neg (by omega), if_neg (by omega), if_neg (by omega), if_neg hsmall]
    rw [digits10_small 0 (by omega), length_decimal_shift (Nat.not_lt.mp hsmall)]

/-! ## The buffer -/

theorem poke_eq (dst : Nat → UInt8) (pos : Nat) (c : UInt8) : poke dst pos c = writeAt dst pos [c] := by
  funext x
  rw [poke, writeAt, List.length_singleton]
  by_cases hx : x = pos
  · subst hx
    rw [if_pos rfl, if_pos ⟨Nat.le_refl x, Nat.lt_succ_self x⟩, Nat.sub_self]
    rfl
  · rw [if_neg hx, if_neg (by omega)]

/-- What is written in front of bytes that are written. -/
theorem writeAt_writeAt (dst : Nat → UInt8) (pos : Nat) (front back : Bytes) :
    writeAt (writeAt dst (pos + front.length) back) pos front = writeAt dst pos (front ++ back) := by
  funext x
  simp only [writeAt, List.length_append]
  by_cases hfront : pos ≤ x ∧ x < pos + front.length
  · rw [if_pos hfront, if_pos (by omega), List.getD_append _ _ _ _ (by omega)]
  · rw [if_neg hfront]
    by_cases hback : pos + front.length ≤ x ∧ x < pos + front.length + back.length
    · rw [if_pos hback, if_pos (by omega), List.getD_append_right _ _ _ _ (by omega)]
      congr 1
      omega
    · rw [if_neg hback, if_neg (by omega)]

theorem writeAt_append (dst : Nat → UInt8) (pos : Nat) (front back : Bytes) :
    writeAt (writeAt dst pos front) (pos + front.length) back = writeAt dst pos (front ++ back) := by
  funext x
  simp only [writeAt, List.length_append]
  by_cases hback : pos + front.length ≤ x ∧ x < pos + front.length + back.length
  · rw [if_pos hback, if_pos (by omega), List.getD_append_right _ _ _ _ (by omega)]
    congr 1
    omega
  · rw [if_neg hback]
    by_cases hfront : pos ≤ x ∧ x < pos + front.length
    · rw [if_pos hfront, if_pos (by omega), List.getD_append _ _ _ _ (by omega)]
    · rw [if_neg hfront, if_neg (by omega)]

/-- Two digits, the second one first. -/
theorem poke_poke (dst : Nat → UInt8) (next : Nat) (a b : UInt8) :
    poke (poke dst (next + 1) b) next a = writeAt dst next [a, b] := by
  rw [poke_eq, poke_eq]
  exact writeAt_writeAt dst next [a] [b]

/-- The end of `mk_string_itop` for the digits that the loop leaves. -/
def lastDigits (r : Nat × Nat × (Nat → UInt8)) : Nat → UInt8 :=
  if r.1 < 10 then poke r.2.2 r.2.1 (UInt8.ofNat (48 + r.1))
  else poke (poke r.2.2 r.2.1 (digitsTable (r.1 * 2 + 1))) (r.2.1 - 1) (digitsTable (r.1 * 2))

theorem lastDigits_small {value next : Nat} (hvalue : value < 100)
    (hnext : (decimal value).length = next + 1) (dst : Nat → UInt8) :
    lastDigits (value, next, dst) = writeAt dst 0 (decimal value) := by
  rw [lastDigits]
  by_cases hone : value < 10
  · rw [decimal_of_lt hone, List.length_singleton] at hnext
    rw [if_pos hone, decimal_of_lt hone, poke_eq, ← Nat.succ.inj hnext]
  · have htext : decimal value = [digitsTable (value * 2), digitsTable (value * 2 + 1)] := by
      rw [decimal_of_le (Nat.not_lt.mp hone), decimal_of_lt (by omega : value / 10 < 10),
        digitsTable, digitsTable, if_pos (by omega), if_neg (by omega), List.singleton_append,
        Nat.mul_div_cancel value (by decide), show (value * 2 + 1) / 2 = value by omega]
    have hone' : next = 0 + 1 := by
      rw [htext] at hnext
      exact (Nat.succ.inj hnext).symm
    rw [if_neg hone, hone', Nat.add_sub_cancel, poke_poke, htext]

/-- Every turn writes the two last digits of what is left, of which there are `next + 1`;
so `next` does not go below zero. -/
theorem lastDigits_itopLoop {n value next : Nat} (hvalue : value < 100 ^ (n + 1))
    (hnext : (decimal value).length = next + 1) (dst : Nat → UInt8) :
    lastDigits (itopLoop n value next dst) = writeAt dst 0 (decimal value) := by
  induction n generalizing value next dst with
  | zero => exact lastDigits_small hvalue hnext dst
  | succ n ih =>
    rw [itopLoop]
    by_cases hsmall : value < 100
    · rw [if_neg (Nat.not_le.mpr hsmall)]
      exact lastDigits_small hsmall hnext dst
    have hle := Nat.not_lt.mp hsmall
    have htext := decimal_two hle
    rw [htext, List.length_append, List.length_cons, List.length_singleton] at hnext
    rcases Nat.exists_eq_add_of_lt (length_decimal_pos (value / 100)) with ⟨k, hk⟩
    rw [Nat.zero_add] at hk
    have htwo : next = k + 1 + 1 := by omega
    rw [if_pos hle, htwo]
    dsimp only
    rw [Nat.add_sub_cancel, show k + 1 + 1 - 2 = k by omega, poke_poke,
      ih (by rw [Nat.pow_succ] at hvalue; omega) hk, htext, ← hk]
    have hall := writeAt_writeAt dst 0 (decimal (value / 100 : Nat))
      [digitsTable (value % 100 * 2), digitsTable (value % 100 * 2 + 1)]
    rw [Nat.zero_add] at hall
    exact hall

/-- `mk_string_itop` writes the decimal text, CRLF and a NUL, and nothing else. -/
theorem mkStringItop_writes (value : UInt64) (data : Nat → UInt8) :
    mkStringItop value.toNat data =
        (writeAt data 0 (decimal value.toNat ++ [13, 10, 0]), (decimal value.toNat).length + 2) ∧
      digits10 1 value.toNat = (decimal value.toNat).length ∧
      (decimal value.toNat).length + 3 ≤ 23 := by
  have hlt := value.toNat_lt
  have hlength := digits10_eq hlt
  have hmost : (decimal value.toNat).length ≤ 20 := by
    rw [length_decimal_le_iff (by decide)]
    omega
  have hnext : (decimal value.toNat).length = (decimal value.toNat).length - 1 + 1 :=
    (Nat.sub_add_cancel (length_decimal_pos _)).symm
  have hdigits := lastDigits_itopLoop (n := 10) (by omega) hnext data
  refine ⟨?_, hlength, by omega⟩
  rw [lastDigits] at hdigits
  rw [mkStringItop, hlength]
  dsimp only
  rw [hdigits, poke_eq, poke_eq, poke_eq]
  generalize decimal value.toNat = text
  have hcr := writeAt_append data 0 text [13]
  have hlf := writeAt_append data 0 (text ++ [13]) [10]
  have hnul := writeAt_append data 0 (text ++ [13] ++ [10]) [0]
  simp only [Nat.zero_add, List.length_append, List.length_singleton] at hcr hlf hnul
  rw [hcr, hlf, hnul, List.append_assoc, List.append_assoc]
  rfl

end Text

end SuperExe.Core
