import Mathlib.Algebra.Order.Ring.Int
import Mathlib.Data.List.Basic
import Mathlib.Tactic.Common

/-! # The C string functions the server calls

Bytes are read through a reader, a function from positions to bytes; a C string
is a reader with a NUL in it. `strtol` is split into the three scans it makes,
so that what it looked at can be named (`strtolStop`): `strtol_congr` says that
nothing after that position matters.
-/

namespace SuperExe.Core

abbrev Bytes := List UInt8

/-- The bytes of an ASCII literal. -/
def bytes (s : String) : Bytes := s.toList.map fun c => UInt8.ofNat c.toNat

/-- A string literal as a C string: NUL from its end on. -/
def cstr (s : Bytes) : Nat → UInt8 := fun i => s.getD i 0

/-- The bytes of a memory range. -/
def window (p : Nat → UInt8) (len : Nat) : Bytes := (List.range len).map p

/-- Memory after `bs` has been read into it at `pos`. -/
def writeAt (p : Nat → UInt8) (pos : Nat) (bs : Bytes) : Nat → UInt8 :=
  fun i => if pos ≤ i ∧ i < pos + bs.length then bs.getD (i - pos) 0 else p i

/-- `tolower(3)` in the C locale. -/
def tolower (c : UInt8) : UInt8 := if 65 ≤ c ∧ c ≤ 90 then c + 32 else c

/-- `isspace(3)` in the C locale. -/
def isSpace (c : UInt8) : Bool := c == 32 || (9 ≤ c && c ≤ 13)

def isDigit (c : UInt8) : Bool := 48 ≤ c && c ≤ 57

/-- A value assigned to an `int` of 32 bits. -/
def toInt32 (n : Int) : Int := Int.bmod n (2 ^ 32)

theorem toInt32_bounds (x : Int) : -2 ^ 31 ≤ toInt32 x ∧ toInt32 x < 2 ^ 31 := by
  unfold toInt32
  rw [Int.bmod_def]
  split <;> omega

theorem toInt32_eq {x : Int} (hlow : -2 ^ 31 ≤ x) (hhigh : x < 2 ^ 31) : toInt32 x = x := by
  unfold toInt32
  rw [Int.bmod_def]
  split <;> omega

/-- `strncmp(a, b, n) == 0` -/
def strncmpEq (a b : Nat → UInt8) : Nat → Bool
  | 0 => true
  | n + 1 =>
    if a 0 ≠ b 0 then false
    else if a 0 = 0 then true
    else strncmpEq (fun i => a (i + 1)) (fun i => b (i + 1)) n

/-- Equal texts, when the comparison does not meet a NUL in both of them. -/
theorem strncmpEq_get {a b : Nat → UInt8} {n : Nat} (h : strncmpEq a b n = true)
    (hnul : ∀ i < n, a i ≠ 0 ∨ b i ≠ 0) : ∀ i < n, a i = b i := by
  induction n generalizing a b with
  | zero => omega
  | succ n ih =>
    unfold strncmpEq at h
    split at h
    · cases h
    · next heq =>
      have hsame : a 0 = b 0 := not_not.mp heq
      split at h
      · next hzero =>
        rcases hnul 0 (by omega) with h0 | h0
        · exact absurd hzero h0
        · exact absurd (hsame ▸ hzero) h0
      · intro i hi
        cases i with
        | zero => exact hsame
        | succ i =>
          exact ih h (fun j hj => hnul (j + 1) (by omega)) i (by omega)

theorem strncmpEq_congr {a a' b : Nat → UInt8} {n : Nat} (h : ∀ k < n, a k = a' k) :
    strncmpEq a b n = strncmpEq a' b n := by
  induction n generalizing a a' b with
  | zero => rfl
  | succ n ih =>
    unfold strncmpEq
    rw [h 0 (by omega), ih (fun k hk => h (k + 1) (by omega))]

section Window

variable {p q : Nat → UInt8} {n : Nat}

@[simp] theorem length_window (p : Nat → UInt8) (n : Nat) : (window p n).length = n := by
  simp [window]

theorem getElem?_window (p : Nat → UInt8) {n i : Nat} (hi : i < n) : (window p n)[i]? = some (p i) := by
  simp [window, hi]

/-- A range of memory is the list whose bytes it holds. -/
theorem window_eq {bs : Bytes} (hlen : bs.length = n) (hb : ∀ i < n, bs[i]? = some (p i)) :
    window p n = bs := by
  apply List.ext_getElem?
  intro i
  by_cases hi : i < n
  · rw [getElem?_window p hi, hb i hi]
  · rw [List.getElem?_eq_none (by simpa using hi), List.getElem?_eq_none (by omega)]

theorem window_congr (hpq : ∀ i < n, p i = q i) : window p n = window q n := by
  refine window_eq (length_window q n) ?_
  intro i hi
  rw [getElem?_window q hi, hpq i hi]

theorem window_cstr (bs : Bytes) : window (cstr bs) bs.length = bs := by
  refine window_eq rfl ?_
  intro i hi
  simp [cstr, hi]

theorem window_writeAt (p : Nat → UInt8) (n : Nat) (bs : Bytes) :
    window (writeAt p n bs) (n + bs.length) = window p n ++ bs := by
  refine window_eq (by simp) ?_
  intro i hi
  simp only [writeAt]
  by_cases hold : i < n
  · rw [List.getElem?_append_left (by simpa using hold), getElem?_window _ hold,
      if_neg (by omega)]
  · have hnew : i - n < bs.length := by omega
    rw [List.getElem?_append_right (by simpa using hold), length_window, if_pos (by omega)]
    simp [hnew]

theorem drop_window (p : Nat → UInt8) (n m : Nat) :
    (window p n).drop m = window (fun i => p (m + i)) (n - m) := by
  refine (window_eq (by simp) ?_).symm
  intro i hi
  rw [List.getElem?_drop, getElem?_window _ (by omega)]

theorem window_add (p : Nat → UInt8) (n m : Nat) :
    window p (n + m) = window p n ++ window (fun i => p (n + i)) m := by
  simp only [window, List.range_add, List.map_append, List.map_map]
  rfl

end Window

/-! ## strtol -/

/-- The first position from `pos` on whose byte does not satisfy `f`, at most
`n` further. -/
def skipWhile (f : UInt8 → Bool) (rd : Nat → UInt8) : Nat → Nat → Nat
  | 0, pos => pos
  | n + 1, pos => if f (rd pos) then skipWhile f rd n (pos + 1) else pos

example : skipWhile isSpace (fun _ => 0) 1 0 = 0 := by simp [skipWhile, isSpace]

/-- Where the sign or the first digit stands. -/
def strtolSign (rd : Nat → UInt8) (len pos : Nat) : Nat := skipWhile isSpace rd (len - pos) pos

/-- Where the digits start. -/
def strtolDigits (rd : Nat → UInt8) (len pos : Nat) : Nat :=
  let q := strtolSign rd len pos
  if rd q = 43 ∨ rd q = 45 then q + 1 else q

/-- The first byte that is not part of the number: the last one looked at. -/
def strtolStop (rd : Nat → UInt8) (len pos : Nat) : Nat :=
  let q := strtolDigits rd len pos
  skipWhile isDigit rd (len - q) q

/-- `LONG_MAX` and `LONG_MIN` of a build for 64 bits. -/
def longMax : Int := 2 ^ 63 - 1
def longMin : Int := -2 ^ 63

/-- What `strtol(3)` gives back: the value, `*endptr` and whether `errno` is
`ERANGE`. -/
structure Strtol where
  val : Int
  endptr : Nat
  erange : Bool
deriving DecidableEq, Repr

/-- `strtol(rd + pos, &endptr, 10)`. No byte at or after `len` is part of the
string. -/
def strtol (rd : Nat → UInt8) (len pos : Nat) : Strtol :=
  let q := strtolDigits rd len pos
  let stop := strtolStop rd len pos
  if stop = q then { val := 0, endptr := pos, erange := false }
  else
    let n : Int := ((List.range (stop - q)).foldl
      (fun acc i => acc * 10 + ((rd (q + i)).toNat - 48)) 0 : Nat)
    let v := if rd (strtolSign rd len pos) = 45 then -n else n
    if v > longMax then { val := longMax, endptr := stop, erange := true }
    else if v < longMin then { val := longMin, endptr := stop, erange := true }
    else { val := v, endptr := stop, erange := false }

section Scan

variable {f : UInt8 → Bool} {rd rd' : Nat → UInt8} {len len' : Nat}

theorem le_skipWhile (f : UInt8 → Bool) (rd : Nat → UInt8) (n pos : Nat) :
    pos ≤ skipWhile f rd n pos := by
  induction n generalizing pos with
  | zero => exact Nat.le_refl pos
  | succ n ih =>
    unfold skipWhile
    split
    · have := ih (pos + 1)
      omega
    · exact Nat.le_refl pos

/-- Where a scan stops. -/
theorem skipWhile_spec {n pos : Nat} :
    (∀ x, pos ≤ x → x < skipWhile f rd n pos → f (rd x) = true) ∧
      (skipWhile f rd n pos < pos + n → f (rd (skipWhile f rd n pos)) = false) := by
  induction n generalizing pos with
  | zero =>
    unfold skipWhile
    exact ⟨fun x h1 h2 => absurd h2 (Nat.not_lt.mpr h1), fun h => absurd h (Nat.lt_irrefl _)⟩
  | succ n ih =>
    unfold skipWhile
    by_cases hhere : f (rd pos) = true
    · rw [if_pos hhere]
      refine ⟨fun x h1 h2 => ?_, fun h => ih.2 (by omega)⟩
      by_cases hx : x = pos
      · rwa [hx]
      · exact ih.1 x (by omega) h2
    · rw [if_neg hhere]
      refine ⟨fun x h1 h2 => absurd h2 (Nat.not_lt.mpr h1), fun _ => ?_⟩
      exact Bool.eq_false_iff.mpr hhere

/-- A scan over bytes that all satisfy `f` and end in front of one that does
not, or at the end. -/
theorem skipWhile_eq {n pos stop : Nat} (hpos : pos ≤ stop)
    (hn : stop ≤ pos + n) (hall : ∀ x, pos ≤ x → x < stop → f (rd x) = true)
    (hstop : stop = pos + n ∨ f (rd stop) = false) : skipWhile f rd n pos = stop := by
  induction n generalizing pos with
  | zero =>
    unfold skipWhile
    omega
  | succ n ih =>
    unfold skipWhile
    by_cases heq : pos = stop
    · subst heq
      rw [if_neg]
      rw [hstop.resolve_left (by omega)]
      simp
    · rw [if_pos (hall pos (Nat.le_refl _) (by omega))]
      exact ih (by omega) (by omega) (fun x hx => hall x (by omega))
        (hstop.imp_left fun h => by omega)

/-- A scan that stops before `l` is the same for any reader with the same bytes
there, and for any larger bound. -/
theorem skipWhile_congr {l : Nat} (hrd : ∀ x < l, rd x = rd' x) {n n' : Nat} (hn : n ≤ n')
    {pos : Nat} (hpos : l ≤ pos + n) (hstop : skipWhile f rd n pos < l) :
    skipWhile f rd' n' pos = skipWhile f rd n pos := by
  induction n generalizing pos n' with
  | zero =>
    simp only [skipWhile] at hstop
    omega
  | succ n ih =>
    obtain ⟨m, rfl⟩ : ∃ m, n' = m + 1 := ⟨n' - 1, by omega⟩
    have hle := le_skipWhile f rd (n + 1) pos
    have hsame : rd pos = rd' pos := hrd pos (by omega)
    unfold skipWhile at hstop ⊢
    rw [← hsame]
    by_cases hf : f (rd pos) = true
    · rw [if_pos hf] at hstop
      rw [if_pos hf, if_pos hf]
      exact ih (by omega) (by omega) hstop
    · rw [if_neg hf, if_neg hf]

/-- A digit is neither white space nor a sign. -/
theorem isDigit_plain {c : UInt8} (h : isDigit c = true) :
    isSpace c = false ∧ c ≠ 43 ∧ c ≠ 45 := by
  simp only [isDigit, Bool.and_eq_true, decide_eq_true_eq, UInt8.le_iff_toNat_le] at h
  have hlow : 48 ≤ c.toNat := h.1
  refine ⟨?_, ?_, ?_⟩
  · simp only [isSpace, Bool.or_eq_false_iff, beq_eq_false_iff_ne, ne_eq, Bool.and_eq_false_iff,
      decide_eq_false_iff_not, UInt8.le_iff_toNat_le]
    refine ⟨?_, .inr ?_⟩
    · rintro rfl
      exact absurd hlow (by decide)
    · exact fun hle => absurd (Nat.le_trans hlow hle) (by decide)
  all_goals
    rintro rfl
    exact absurd hlow (by decide)

theorem strtolSign_le_digits (rd : Nat → UInt8) (len pos : Nat) :
    strtolSign rd len pos ≤ strtolDigits rd len pos := by
  simp only [strtolDigits]
  split <;> omega

theorem strtolDigits_le_stop (rd : Nat → UInt8) (len pos : Nat) :
    strtolDigits rd len pos ≤ strtolStop rd len pos :=
  le_skipWhile _ _ _ _

/-- A number that ends before `len` has the same parts in any string with the
same bytes before `len`. -/
theorem strtol_parts_congr (hrd : ∀ x < len, rd x = rd' x) (hlen : len ≤ len') {pos : Nat}
    (hstop : strtolStop rd len pos < len) :
    strtolSign rd' len' pos = strtolSign rd len pos ∧
      strtolDigits rd' len' pos = strtolDigits rd len pos ∧
      strtolStop rd' len' pos = strtolStop rd len pos := by
  have hdig := strtolDigits_le_stop rd len pos
  have hsig := strtolSign_le_digits rd len pos
  have hpos : pos ≤ strtolSign rd len pos := le_skipWhile _ _ _ _
  have h1 : strtolSign rd' len' pos = strtolSign rd len pos :=
    skipWhile_congr hrd (by omega) (by omega) (show strtolSign rd len pos < len by omega)
  have hbyte : rd' (strtolSign rd len pos) = rd (strtolSign rd len pos) :=
    (hrd _ (by omega)).symm
  have h2 : strtolDigits rd' len' pos = strtolDigits rd len pos := by
    simp only [strtolDigits, h1, hbyte]
  refine ⟨h1, h2, ?_⟩
  have h3 := skipWhile_congr hrd (show len - strtolDigits rd len pos ≤
    len' - strtolDigits rd len pos by omega) (by omega) hstop
  simp only [strtolStop, h2]
  exact h3

/-- A number that ends before `len` reads the same from any string with the
same bytes before `len`. -/
theorem strtol_congr (hrd : ∀ x < len, rd x = rd' x) (hlen : len ≤ len') {pos : Nat}
    (hstop : strtolStop rd len pos < len) : strtol rd' len' pos = strtol rd len pos := by
  have hdig := strtolDigits_le_stop rd len pos
  have hsig := strtolSign_le_digits rd len pos
  obtain ⟨h1, h2, h3⟩ := strtol_parts_congr hrd hlen hstop
  have hbyte : rd' (strtolSign rd len pos) = rd (strtolSign rd len pos) :=
    (hrd _ (by omega)).symm
  have hfold : ((List.range (strtolStop rd len pos - strtolDigits rd len pos)).foldl
      (fun acc i => acc * 10 + ((rd' (strtolDigits rd len pos + i)).toNat - 48)) 0) =
      ((List.range (strtolStop rd len pos - strtolDigits rd len pos)).foldl
      (fun acc i => acc * 10 + ((rd (strtolDigits rd len pos + i)).toNat - 48)) 0) := by
    apply List.foldl_ext
    intro acc i hi
    have hi' := List.mem_range.mp hi
    rw [hrd _ (by omega)]
  simp only [strtol, h1, h2, h3, hbyte, hfold]

end Scan

end SuperExe.Core
