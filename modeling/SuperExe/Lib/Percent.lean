import SuperExe.Lib.Chunked

/-! # Percent-decoding

A text with escapes: `%` and two hexadecimal digits stand for one byte, every
other byte for itself. `escapes` lists what follows each `%`, in the order in
which a scan from left to right meets them; what decoding gives is decided by
this list (`percentDecode_isSome_iff`, `zero_mem_percentDecode_iff`).
-/

namespace SuperExe.Lib

/-- The value of two hexadecimal digits. -/
def escapeValue (a b : UInt8) : Option Nat :=
  (hexDigitValue a).bind fun x => (hexDigitValue b).map fun y => x * 16 + y

/-- The decoded text; none when a `%` is not followed by two hexadecimal digits. -/
def percentDecode : List UInt8 → Option (List UInt8)
  | c :: a :: b :: rest =>
    if c = 37 then
      (escapeValue a b).bind fun v => (percentDecode rest).map (UInt8.ofNat v :: ·)
    else (percentDecode (a :: b :: rest)).map (c :: ·)
  | cs => if 37 ∈ cs then none else some cs

/-- The two bytes behind each `%`; none for a `%` at the end of the text that has
fewer than two bytes behind it. -/
def escapes : List UInt8 → List (Option (UInt8 × UInt8))
  | c :: a :: b :: rest =>
    if c = 37 then some (a, b) :: escapes rest else escapes (a :: b :: rest)
  | cs => if 37 ∈ cs then [none] else []

/-- An escape with two hexadecimal digits. -/
def WellFormedEscape (e : Option (UInt8 × UInt8)) : Prop :=
  ∃ a b, e = some (a, b) ∧ (escapeValue a b).isSome

example : percentDecode [97, 37, 52, 49, 37, 52] = none := by decide
example : escapes [97, 37, 52, 49, 37, 52] = [some (52, 49), none] := by decide

/-! ## Digits -/

theorem hexDigitValue_nul : hexDigitValue 0 = none := by decide

theorem hexDigitValue_lt {c : UInt8} {n : Nat} (h : hexDigitValue c = some n) : n < 16 := by
  unfold hexDigitValue at h
  repeat' split at h
  all_goals simp only [UInt8.le_iff_toNat_le, UInt8.reduceToNat, Option.some.injEq, reduceCtorEq] at *
  all_goals omega

/-- `0` is the digit of value zero. -/
theorem hexDigitValue_zero {c : UInt8} (h : hexDigitValue c = some 0) : c = 48 := by
  apply UInt8.toNat_inj.mp
  unfold hexDigitValue at h
  repeat' split at h
  all_goals simp only [UInt8.le_iff_toNat_le, UInt8.reduceToNat, Option.some.injEq, reduceCtorEq] at *
  all_goals omega

theorem escapeValue_eq_some {a b : UInt8} {v : Nat} (h : escapeValue a b = some v) :
    ∃ x y, hexDigitValue a = some x ∧ hexDigitValue b = some y ∧ v = x * 16 + y := by
  rcases Option.bind_eq_some_iff.mp h with ⟨x, hx, hrest⟩
  rcases Option.map_eq_some_iff.mp hrest with ⟨y, hy, hv⟩
  exact ⟨x, y, hx, hy, hv.symm⟩

/-- The only escape for the byte zero is `%00`. -/
theorem ofNat_escapeValue_eq_zero {a b : UInt8} {v : Nat} (h : escapeValue a b = some v) :
    UInt8.ofNat v = 0 ↔ (a, b) = (48, 48) := by
  rcases escapeValue_eq_some h with ⟨x, y, hx, hy, rfl⟩
  have hx16 := hexDigitValue_lt hx
  have hy16 := hexDigitValue_lt hy
  constructor
  · intro hzero
    have hnat := congrArg UInt8.toNat hzero
    rw [UInt8.toNat_ofNat', UInt8.toNat_zero] at hnat
    obtain rfl : x = 0 := by omega
    obtain rfl : y = 0 := by omega
    rw [hexDigitValue_zero hx, hexDigitValue_zero hy]
  · rintro heq
    rcases Prod.mk.inj heq with ⟨rfl, rfl⟩
    have hzero : hexDigitValue 48 = some 0 := by decide
    rw [hzero] at hx hy
    rw [← Option.some.inj hx, ← Option.some.inj hy]
    rfl

/-! ## Texts -/

section Text

variable {s d : List UInt8}

/-- A text can be decoded iff its escapes are well formed. -/
theorem percentDecode_isSome_iff :
    (percentDecode s).isSome ↔ ∀ e ∈ escapes s, WellFormedEscape e := by
  induction s using percentDecode.induct with
  | case1 a b rest ih =>
    have hwell : WellFormedEscape (some (a, b)) ↔ (escapeValue a b).isSome := by
      constructor
      · rintro ⟨x, y, hxy, hsome⟩
        rcases Prod.mk.inj (Option.some.inj hxy) with ⟨rfl, rfl⟩
        exact hsome
      · intro hsome
        exact ⟨a, b, rfl, hsome⟩
    rw [percentDecode, if_pos rfl, escapes, if_pos rfl, List.forall_mem_cons, hwell, ← ih]
    cases escapeValue a b <;> simp
  | case2 c a b rest hc ih =>
    rw [percentDecode, if_neg hc, escapes, if_neg hc, Option.isSome_map, ih]
  | case3 cs hshort hin =>
    rw [percentDecode.eq_2 cs hshort, escapes.eq_2 cs hshort, if_pos hin, if_pos hin]
    refine iff_of_false Bool.false_ne_true ?_
    intro h
    rcases h none List.mem_cons_self with ⟨a, b, hnone, -⟩
    cases hnone
  | case4 cs hshort hin =>
    rw [percentDecode.eq_2 cs hshort, escapes.eq_2 cs hshort, if_neg hin, if_neg hin]
    exact iff_of_true rfl (by simp)

/-- A text without `%` stands for itself. -/
theorem percentDecode_plain (h : 37 ∉ s) : percentDecode s = some s := by
  induction s using percentDecode.induct with
  | case1 a b rest ih => exact absurd List.mem_cons_self h
  | case2 c a b rest hc ih =>
    rw [percentDecode, if_neg hc, ih fun hin => h (List.mem_cons_of_mem c hin)]
    rfl
  | case3 cs hshort hin => exact absurd hin h
  | case4 cs hshort hin => rw [percentDecode.eq_2 cs hshort, if_neg hin]

/-- A decoded text has a NUL where the text has one, or an escape for it. -/
theorem zero_mem_percentDecode_iff (h : percentDecode s = some d) :
    0 ∈ d ↔ 0 ∈ s ∨ some (48, 48) ∈ escapes s := by
  induction s using percentDecode.induct generalizing d with
  | case1 a b rest ih =>
    rw [percentDecode, if_pos rfl] at h
    rcases Option.bind_eq_some_iff.mp h with ⟨v, hv, hrest⟩
    rcases Option.map_eq_some_iff.mp hrest with ⟨d', hd', rfl⟩
    rcases escapeValue_eq_some hv with ⟨x, y, hx, hy, -⟩
    -- neither digit is a NUL
    have ha : a ≠ 0 := by
      rintro rfl
      rw [hexDigitValue_nul] at hx
      cases hx
    have hb : b ≠ 0 := by
      rintro rfl
      rw [hexDigitValue_nul] at hy
      cases hy
    rw [escapes, if_pos rfl, List.mem_cons, List.mem_cons, eq_comm, ofNat_escapeValue_eq_zero hv,
      ih hd']
    simp only [List.mem_cons, Option.some.injEq, ha.symm, hb.symm, false_or, eq_comm,
      show (0 : UInt8) ≠ 37 by decide]
    tauto
  | case2 c a b rest hc ih =>
    rw [percentDecode, if_neg hc] at h
    rcases Option.map_eq_some_iff.mp h with ⟨d', hd', rfl⟩
    rw [escapes, if_neg hc, List.mem_cons, List.mem_cons, ih hd', or_assoc]
  | case3 cs hshort hin =>
    rw [percentDecode.eq_2 cs hshort, if_pos hin] at h
    cases h
  | case4 cs hshort hin =>
    rw [percentDecode.eq_2 cs hshort, if_neg hin] at h
    rw [escapes.eq_2 cs hshort, if_neg hin, Option.some.inj h]
    simp

end Text

end SuperExe.Lib
