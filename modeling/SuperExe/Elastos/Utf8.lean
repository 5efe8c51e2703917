import SuperExe.Core.CString
import Mathlib.Data.Nat.Bitwise

/-! # UTF-8 as `elstring.h` and `elstring.cpp` read and write it

A pointer into a string is the list of the bytes from there to the end of the
buffer, so `*p` is its head and `p + n >= pEnd` compares `n` with its length.
The text is a list of code points (`Char`), encoded by `utf8`. What the proofs
about strings use is `ReadsChar`: everything the loops of `elstring.cpp` look
at when they stand at the first byte of a character.
-/

namespace SuperExe.Elastos

open SuperExe.Core

abbrev Char32 := UInt32

/-- `*p`; from `pEnd` on the loops never look, a NUL stands for it. -/
def deref (p : Bytes) : UInt8 := p.headD 0

/-! ## The code -/

def isASCII (c : UInt8) : Bool := c &&& 0x80 == 0

def utf8SequenceLengthNonASCII (b0 : UInt8) : Nat :=
  if b0 &&& 0xC0 != 0xC0 then 0
  else if b0 &&& 0xE0 == 0xC0 then 2
  else if b0 &&& 0xF0 == 0xE0 then 3
  else if b0 &&& 0xF8 == 0xF0 then 4
  else 0

def utf8SequenceLength (b0 : UInt8) : Nat :=
  if isASCII b0 then 1 else utf8SequenceLengthNonASCII b0

def isValidChar (c : Char32) : Bool := !(c > 0x10FFFF || (0xD800 ≤ c && c ≤ 0xDFFF))

def getByteCount (c : Char32) : Nat :=
  if c > 0x10FFFF || (0xD800 ≤ c && c ≤ 0xDFFF) then 0
  else if c < 0x80 then 1
  else if c < 0x800 then 2
  else if c < 0x10000 then 3
  else 4

/-- `kFirstByteMark[bytes]` -/
def firstByteMark : Nat → Char32
  | 2 => 0xC0
  | 3 => 0xE0
  | 4 => 0xF0
  | _ => 0

/-- `(srcChar | kByteMark) & kByteMask` -/
def tailByte (srcChar : Char32) : UInt8 := ((srcChar ||| 0x80) &&& 0xBF).toUInt8

/-- The cases `n`, `n - 1`, .., 1 of the switch, the bytes already written being
`tail`: each case but the last writes one byte before them and falls through. -/
def writeBytes (bytes : Nat) : Nat → Char32 → Bytes → Bytes
  | 0, _, tail => tail
  | 1, srcChar, tail => (srcChar ||| firstByteMark bytes).toUInt8 :: tail
  | n + 2, srcChar, tail => writeBytes bytes (n + 1) (srcChar >>> 6) (tailByte srcChar :: tail)

/-- `WriteUTFBytesToBuffer`: the bytes it puts in the buffer. -/
def writeUTFBytesToBuffer (srcChar : Char32) (bytes : Nat) : Bytes :=
  writeBytes bytes bytes srcChar []

/-- A `char` read into a `Char32`: `char` is signed. -/
def signExtend (b : UInt8) : Char32 :=
  if isASCII b then b.toUInt32 else b.toUInt32 ||| 0xFFFFFF00

/-- The loop of `GetCharInternal` and the two lines after it. The mask is 0
after seven turns, so eight are always enough. -/
def getCharLoop (firstChar : Char32) : Nat → Bytes → Char32 → Char32 → Char32 → Nat → Char32 × Nat
  | 0, _, result, _, _, num => (result, num)
  | fuel + 1, cur, result, mask, ignore, num =>
    if firstChar &&& mask = 0 then
      (result &&& ~~~((ignore ||| mask) <<< UInt32.ofNat (6 * (num - 1))), num)
    else
      getCharLoop firstChar fuel cur.tail ((result <<< 6) + ((deref cur).toUInt32 &&& 0x3F))
        (mask >>> 1) (ignore ||| mask) (num + 1)

example : getCharLoop 0 1 [] 0 0 0 1 = (0, 1) := by simp [getCharLoop]

/-- `GetCharInternal`: the character at `cur` and the number of its bytes. -/
def getCharInternal (cur : Bytes) : Char32 × Nat :=
  if isASCII (deref cur) then (signExtend (deref cur), 1)
  else
    getCharLoop (signExtend (deref cur)) 8 cur.tail (signExtend (deref cur)) 0x40 0xFFFFFF80 1

/-! ## The text -/

/-- The bytes of a text. -/
def utf8 (cs : List Char) : Bytes := cs.flatMap String.utf8EncodeChar

/-- A text that can stand in a C string. -/
def NoNul (cs : List Char) : Prop := ∀ c ∈ cs, c ≠ Char.ofNat 0

instance (cs : List Char) : Decidable (NoNul cs) := List.decidableBAll _ cs

@[simp] theorem utf8_nil : utf8 [] = [] := rfl

@[simp] theorem utf8_cons (c : Char) (cs : List Char) :
    utf8 (c :: cs) = String.utf8EncodeChar c ++ utf8 cs := rfl

@[simp] theorem utf8_append (cs ds : List Char) : utf8 (cs ++ ds) = utf8 cs ++ utf8 ds :=
  List.flatMap_append

theorem NoNul.append {cs ds : List Char} (hc : NoNul cs) (hd : NoNul ds) : NoNul (cs ++ ds) := by
  intro c h
  rcases List.mem_append.mp h with h | h
  · exact hc c h
  · exact hd c h

theorem NoNul.take {cs : List Char} (h : NoNul cs) (n : Nat) : NoNul (cs.take n) :=
  fun c hc => h c (List.mem_of_mem_take hc)

theorem NoNul.drop {cs : List Char} (h : NoNul cs) (n : Nat) : NoNul (cs.drop n) :=
  fun c hc => h c (List.mem_of_mem_drop hc)

/-! ## One character

The bytes of one character by the number of its bytes. A lead byte or a
continuation byte has few enough values to look at all of them; the code point
is put together modulo powers of two. -/

section OneChar

theorem signExtend_two : ∀ n < 32,
    (signExtend (UInt8.ofNat (n + 0xC0))).toNat = 0xFFFFFF00 + (n + 0xC0) ∧
    signExtend (UInt8.ofNat (n + 0xC0)) &&& 0x40 ≠ 0 ∧
    signExtend (UInt8.ofNat (n + 0xC0)) &&& 0x20 = 0 := by
  decide

theorem signExtend_three : ∀ n < 16,
    (signExtend (UInt8.ofNat (n + 0xE0))).toNat = 0xFFFFFF00 + (n + 0xE0) ∧
    signExtend (UInt8.ofNat (n + 0xE0)) &&& 0x40 ≠ 0 ∧
    signExtend (UInt8.ofNat (n + 0xE0)) &&& 0x20 ≠ 0 ∧
    signExtend (UInt8.ofNat (n + 0xE0)) &&& 0x10 = 0 := by
  decide

theorem signExtend_four : ∀ n < 8,
    (signExtend (UInt8.ofNat (n + 0xF0))).toNat = 0xFFFFFF00 + (n + 0xF0) ∧
    signExtend (UInt8.ofNat (n + 0xF0)) &&& 0x40 ≠ 0 ∧
    signExtend (UInt8.ofNat (n + 0xF0)) &&& 0x20 ≠ 0 ∧
    signExtend (UInt8.ofNat (n + 0xF0)) &&& 0x10 ≠ 0 ∧
    signExtend (UInt8.ofNat (n + 0xF0)) &&& 0x08 = 0 := by
  decide

theorem continuation_bits : ∀ n < 64,
    ((UInt8.ofNat (n + 0x80)).toUInt32 &&& 0x3F).toNat = n := by
  decide

/-- One turn of the loop pushes six bits. -/
theorem toNat_push (r x : Char32) :
    ((r <<< 6) + x).toNat = (r.toNat * 64 + x.toNat) % 2 ^ 32 := by
  rw [UInt32.toNat_add, UInt32.toNat_shiftLeft, Nat.shiftLeft_eq]
  simp

theorem toNat_and_mask (r m : Char32) {k : Nat} (h : m.toNat = 2 ^ k - 1) :
    (r &&& m).toNat = r.toNat % 2 ^ k := by
  rw [UInt32.toNat_and, h, Nat.and_two_pow_sub_one_eq_mod]

variable {n x y z : Nat} {p : Bytes}

theorem getCharInternal_one (hn : n < 128) :
    getCharInternal (UInt8.ofNat n :: p) = (UInt32.ofNat n, 1) := by
  have h : ∀ n < 128, isASCII (UInt8.ofNat n) = true ∧
      signExtend (UInt8.ofNat n) = UInt32.ofNat n := by decide
  obtain ⟨h1, h2⟩ := h n hn
  simp only [getCharInternal, deref, List.headD_cons, h1, if_true, h2]

theorem getCharInternal_two (hn : n < 32) (hx : x < 64) :
    getCharInternal (UInt8.ofNat (n + 0xC0) :: UInt8.ofNat (x + 0x80) :: p) =
      (UInt32.ofNat (n * 64 + x), 2) := by
  obtain ⟨hs, m1, m2⟩ := signExtend_two n hn
  have h : ∀ n < 32, isASCII (UInt8.ofNat (n + 0xC0)) = false := by decide
  have e1 : (0x40 : Char32) >>> 1 = 0x20 := by decide
  simp only [getCharInternal, deref, List.headD_cons, h n hn, Bool.false_eq_true, if_false,
    List.tail_cons]
  rw [getCharLoop, if_neg m1, e1, getCharLoop, if_pos m2]
  refine Prod.ext (UInt32.toNat_inj.mp ?_) rfl
  rw [toNat_and_mask _ _ (k := 11) (by decide), toNat_push, deref, List.headD_cons,
    continuation_bits x hx, hs, UInt32.toNat_ofNat']
  omega

theorem getCharInternal_three (hn : n < 16) (hx : x < 64) (hy : y < 64) :
    getCharInternal (UInt8.ofNat (n + 0xE0) :: UInt8.ofNat (x + 0x80) ::
      UInt8.ofNat (y + 0x80) :: p) = (UInt32.ofNat ((n * 64 + x) * 64 + y), 3) := by
  obtain ⟨hs, m1, m2, m3⟩ := signExtend_three n hn
  have h : ∀ n < 16, isASCII (UInt8.ofNat (n + 0xE0)) = false := by decide
  have e1 : (0x40 : Char32) >>> 1 = 0x20 := by decide
  have e2 : (0x20 : Char32) >>> 1 = 0x10 := by decide
  simp only [getCharInternal, deref, List.headD_cons, h n hn, Bool.false_eq_true, if_false,
    List.tail_cons]
  rw [getCharLoop, if_neg m1, e1, getCharLoop, if_neg m2, e2, getCharLoop, if_pos m3]
  refine Prod.ext (UInt32.toNat_inj.mp ?_) rfl
  rw [toNat_and_mask _ _ (k := 16) (by decide), toNat_push, toNat_push]
  simp only [deref, List.headD_cons, List.tail_cons]
  rw [continuation_bits x hx, continuation_bits y hy, hs, UInt32.toNat_ofNat']
  omega

theorem getCharInternal_four (hn : n < 8) (hx : x < 64) (hy : y < 64) (hz : z < 64) :
    getCharInternal (UInt8.ofNat (n + 0xF0) :: UInt8.ofNat (x + 0x80) ::
      UInt8.ofNat (y + 0x80) :: UInt8.ofNat (z + 0x80) :: p) =
      (UInt32.ofNat (((n * 64 + x) * 64 + y) * 64 + z), 4) := by
  obtain ⟨hs, m1, m2, m3, m4⟩ := signExtend_four n hn
  have h : ∀ n < 8, isASCII (UInt8.ofNat (n + 0xF0)) = false := by decide
  have e1 : (0x40 : Char32) >>> 1 = 0x20 := by decide
  have e2 : (0x20 : Char32) >>> 1 = 0x10 := by decide
  have e3 : (0x10 : Char32) >>> 1 = 0x08 := by decide
  simp only [getCharInternal, deref, List.headD_cons, h n hn, Bool.false_eq_true, if_false,
    List.tail_cons]
  rw [getCharLoop, if_neg m1, e1, getCharLoop, if_neg m2, e2, getCharLoop, if_neg m3, e3,
    getCharLoop, if_pos m4]
  refine Prod.ext (UInt32.toNat_inj.mp ?_) rfl
  rw [toNat_and_mask _ _ (k := 21) (by decide), toNat_push, toNat_push, toNat_push]
  simp only [deref, List.headD_cons, List.tail_cons]
  rw [continuation_bits x hx, continuation_bits y hy, continuation_bits z hz, hs,
    UInt32.toNat_ofNat']
  omega

/-- `tailByte` keeps six bits. -/
theorem tailByte_eq (v : Char32) : tailByte v = UInt8.ofNat (v.toNat % 64 + 0x80) := by
  have hbits : (v ||| 0x80) &&& 0xBF = (v &&& 0x3F) ||| 0x80 := by
    apply UInt32.toNat_inj.mp
    have h1 : 0x80 &&& 0xBF = 0x80 := by decide
    have h2 : 0xBF = 0x3F ||| 0x80 := by decide
    have h3 : v.toNat &&& 0x80 ||| 0x80 = 0x80 := by
      apply Nat.eq_of_testBit_eq
      intro i
      rw [Nat.testBit_or, Nat.testBit_and]
      cases v.toNat.testBit i <;> simp
    simp only [UInt32.toNat_and, UInt32.toNat_or, UInt32.reduceToNat]
    rw [Nat.and_or_distrib_right, h1, h2, Nat.and_or_distrib_left, Nat.or_assoc, h3]
  have hlow : (v &&& 0x3F).toNat = v.toNat % 64 := toNat_and_mask v 0x3F (k := 6) (by decide)
  have hv : v &&& 0x3F = UInt32.ofNat (v.toNat % 64) := by
    rw [← hlow, UInt32.ofNat_toNat]
  have hall : ∀ m < 64, (UInt32.ofNat m ||| 0x80).toUInt8 = UInt8.ofNat (m + 0x80) := by decide
  rw [tailByte, hbits, hv]
  exact hall _ (Nat.mod_lt _ (by decide))

/-- The lead byte of a character of two, three or four bytes. -/
theorem leadByte_eq : (∀ n < 32, (UInt32.ofNat n ||| 0xC0).toUInt8 = UInt8.ofNat (n + 0xC0)) ∧
    (∀ n < 16, (UInt32.ofNat n ||| 0xE0).toUInt8 = UInt8.ofNat (n + 0xE0)) ∧
    (∀ n < 8, (UInt32.ofNat n ||| 0xF0).toUInt8 = UInt8.ofNat (n + 0xF0)) := by
  refine ⟨?_, ?_, ?_⟩ <;> decide

theorem toNat_shift_six (v : Char32) : (v >>> 6).toNat = v.toNat / 64 := by
  rw [UInt32.toNat_shiftRight, Nat.shiftRight_eq_div_pow]
  rfl

end OneChar

/-- What the loops of `elstring.cpp` rely on at the first byte of a character
`c`, whatever follows its bytes. -/
structure ReadsChar (c : Char) : Prop where
  ne_nul : c ≠ Char.ofNat 0 → ∀ b ∈ String.utf8EncodeChar c, b ≠ 0
  sequenceLength : ∀ p, utf8SequenceLength (deref (String.utf8EncodeChar c ++ p)) = c.utf8Size
  getChar : ∀ p, getCharInternal (String.utf8EncodeChar c ++ p) = (c.val, c.utf8Size)
  write : writeUTFBytesToBuffer c.val c.utf8Size = String.utf8EncodeChar c

section Sizes

variable {c : Char}

theorem toNat_val_lt (c : Char) : c.val.toNat < 0x110000 := by
  rcases c.valid with h | h
  · exact Nat.lt_trans h (by decide)
  · exact h.2

theorem readsChar_one (h : c.val.toNat ≤ 0x7F) : ReadsChar c := by
  have hsize : c.utf8Size = 1 := by
    rw [Char.utf8Size_eq_one_iff, UInt32.le_iff_toNat_le]
    exact h
  have henc : String.utf8EncodeChar c = [UInt8.ofNat c.val.toNat] := by
    simp only [String.utf8EncodeChar, if_pos h]
  have hall : ∀ n < 128, (n ≠ 0 → UInt8.ofNat n ≠ 0) ∧ utf8SequenceLength (UInt8.ofNat n) = 1 := by
    decide
  obtain ⟨h0, h1⟩ := hall c.val.toNat (by omega)
  refine ⟨?_, ?_, ?_, ?_⟩
  · intro hc b hb
    rw [henc, List.mem_singleton] at hb
    subst hb
    apply h0
    intro hz
    apply hc
    apply Char.ext
    exact UInt32.toNat_inj.mp hz
  · intro p
    rw [henc, hsize]
    exact h1
  · intro p
    rw [henc, hsize, List.singleton_append, getCharInternal_one (by omega), UInt32.ofNat_toNat]
  · rw [henc, hsize]
    simp only [writeUTFBytesToBuffer, writeBytes, firstByteMark, UInt32.or_zero]
    rfl

theorem readsChar_two (h1 : ¬ c.val.toNat ≤ 0x7F) (h2 : c.val.toNat ≤ 0x7FF) : ReadsChar c := by
  have hsize : c.utf8Size = 2 := by
    rw [Char.utf8Size_eq_two_iff, UInt32.lt_iff_toNat_lt, UInt32.le_iff_toNat_le]
    exact ⟨Nat.lt_of_not_le h1, h2⟩
  have henc : String.utf8EncodeChar c = [UInt8.ofNat (c.val.toNat / 64 + 0xC0),
      UInt8.ofNat (c.val.toNat % 64 + 0x80)] := by
    simp only [String.utf8EncodeChar, if_neg h1, if_pos h2]
    rw [Nat.mod_eq_of_lt (show c.val.toNat / 64 < 32 by omega)]
  have hall : ∀ n < 32, UInt8.ofNat (n + 0xC0) ≠ 0 ∧
      utf8SequenceLength (UInt8.ofNat (n + 0xC0)) = 2 := by decide
  have htail : ∀ n < 64, UInt8.ofNat (n + 0x80) ≠ 0 := by decide
  have hn : c.val.toNat / 64 < 32 := by omega
  have hx : c.val.toNat % 64 < 64 := by omega
  refine ⟨?_, ?_, ?_, ?_⟩
  · intro _ b hb
    rw [henc] at hb
    simp only [List.mem_cons, List.not_mem_nil, or_false] at hb
    rcases hb with rfl | rfl
    · exact (hall _ hn).1
    · exact htail _ hx
  · intro p
    rw [henc, hsize]
    exact (hall _ hn).2
  · intro p
    rw [henc, hsize, List.cons_append, List.singleton_append, getCharInternal_two hn hx,
      show c.val.toNat / 64 * 64 + c.val.toNat % 64 = c.val.toNat by omega, UInt32.ofNat_toNat]
  · have hlead : c.val >>> 6 = UInt32.ofNat (c.val.toNat / 64) := by
      rw [← toNat_shift_six, UInt32.ofNat_toNat]
    rw [henc, hsize]
    simp only [writeUTFBytesToBuffer, writeBytes, firstByteMark, tailByte_eq, hlead]
    rw [leadByte_eq.1 _ hn]

theorem readsChar_three (h1 : ¬ c.val.toNat ≤ 0x7F) (h2 : ¬ c.val.toNat ≤ 0x7FF)
    (h3 : c.val.toNat ≤ 0xFFFF) : ReadsChar c := by
  have hsize : c.utf8Size = 3 := by
    rw [Char.utf8Size_eq_three_iff, UInt32.lt_iff_toNat_lt, UInt32.le_iff_toNat_le]
    exact ⟨Nat.lt_of_not_le h2, h3⟩
  have henc : String.utf8EncodeChar c = [UInt8.ofNat (c.val.toNat / 4096 + 0xE0),
      UInt8.ofNat (c.val.toNat / 64 % 64 + 0x80), UInt8.ofNat (c.val.toNat % 64 + 0x80)] := by
    simp only [String.utf8EncodeChar, if_neg h1, if_neg h2, if_pos h3]
    rw [Nat.mod_eq_of_lt (show c.val.toNat / 4096 < 16 by omega)]
  have hall : ∀ n < 16, UInt8.ofNat (n + 0xE0) ≠ 0 ∧
      utf8SequenceLength (UInt8.ofNat (n + 0xE0)) = 3 := by decide
  have htail : ∀ n < 64, UInt8.ofNat (n + 0x80) ≠ 0 := by decide
  have hn : c.val.toNat / 4096 < 16 := by omega
  have hx : c.val.toNat / 64 % 64 < 64 := by omega
  have hy : c.val.toNat % 64 < 64 := by omega
  refine ⟨?_, ?_, ?_, ?_⟩
  · intro _ b hb
    rw [henc] at hb
    simp only [List.mem_cons, List.not_mem_nil, or_false] at hb
    rcases hb with rfl | rfl | rfl
    · exact (hall _ hn).1
    · exact htail _ hx
    · exact htail _ hy
  · intro p
    rw [henc, hsize]
    exact (hall _ hn).2
  · intro p
    rw [henc, hsize, List.cons_append, List.cons_append, List.singleton_append,
      getCharInternal_three hn hx hy,
      show (c.val.toNat / 4096 * 64 + c.val.toNat / 64 % 64) * 64 + c.val.toNat % 64 =
        c.val.toNat by omega, UInt32.ofNat_toNat]
  · have hlead : c.val >>> 6 >>> 6 = UInt32.ofNat (c.val.toNat / 4096) := by
      rw [show c.val.toNat / 4096 = c.val.toNat / 64 / 64 by omega, ← toNat_shift_six,
        ← toNat_shift_six, UInt32.ofNat_toNat]
    rw [henc, hsize]
    simp only [writeUTFBytesToBuffer, writeBytes, firstByteMark, tailByte_eq, toNat_shift_six, hlead]
    rw [leadByte_eq.2.1 _ hn]

theorem readsChar_four (h1 : ¬ c.val.toNat ≤ 0x7F) (h2 : ¬ c.val.toNat ≤ 0x7FF)
    (h3 : ¬ c.val.toNat ≤ 0xFFFF) : ReadsChar c := by
  have hlt := toNat_val_lt c
  have hsize : c.utf8Size = 4 := by
    rw [Char.utf8Size_eq_four_iff, UInt32.lt_iff_toNat_lt]
    exact Nat.lt_of_not_le h3
  have henc : String.utf8EncodeChar c = [UInt8.ofNat (c.val.toNat / 262144 + 0xF0),
      UInt8.ofNat (c.val.toNat / 4096 % 64 + 0x80), UInt8.ofNat (c.val.toNat / 64 % 64 + 0x80),
      UInt8.ofNat (c.val.toNat % 64 + 0x80)] := by
    simp only [String.utf8EncodeChar, if_neg h1, if_neg h2, if_neg h3]
    rw [Nat.mod_eq_of_lt (show c.val.toNat / 262144 < 8 by omega)]
  have hall : ∀ n < 8, UInt8.ofNat (n + 0xF0) ≠ 0 ∧
      utf8SequenceLength (UInt8.ofNat (n + 0xF0)) = 4 := by decide
  have htail : ∀ n < 64, UInt8.ofNat (n + 0x80) ≠ 0 := by decide
  have hn : c.val.toNat / 262144 < 8 := by omega
  have hx : c.val.toNat / 4096 % 64 < 64 := by omega
  have hy : c.val.toNat / 64 % 64 < 64 := by omega
  have hz : c.val.toNat % 64 < 64 := by omega
  refine ⟨?_, ?_, ?_, ?_⟩
  · intro _ b hb
    rw [henc] at hb
    simp only [List.mem_cons, List.not_mem_nil, or_false] at hb
    rcases hb with rfl | rfl | rfl | rfl
    · exact (hall _ hn).1
    · exact htail _ hx
    · exact htail _ hy
    · exact htail _ hz
  · intro p
    rw [henc, hsize]
    exact (hall _ hn).2
  · intro p
    rw [henc, hsize, List.cons_append, List.cons_append, List.cons_append, List.singleton_append,
      getCharInternal_four hn hx hy hz,
      show ((c.val.toNat / 262144 * 64 + c.val.toNat / 4096 % 64) * 64 +
        c.val.toNat / 64 % 64) * 64 + c.val.toNat % 64 = c.val.toNat by omega,
      UInt32.ofNat_toNat]
  · have hlead : c.val >>> 6 >>> 6 >>> 6 = UInt32.ofNat (c.val.toNat / 262144) := by
      rw [show c.val.toNat / 262144 = c.val.toNat / 64 / 64 / 64 by omega, ← toNat_shift_six,
        ← toNat_shift_six, ← toNat_shift_six, UInt32.ofNat_toNat]
    rw [henc, hsize]
    simp only [writeUTFBytesToBuffer, writeBytes, firstByteMark, tailByte_eq, toNat_shift_six, hlead]
    rw [leadByte_eq.2.2 _ hn, show c.val.toNat / 64 / 64 = c.val.toNat / 4096 by omega]

/-- The code reads and writes every character as UTF-8 has it. -/
theorem readsChar (c : Char) : ReadsChar c := by
  by_cases h1 : c.val.toNat ≤ 0x7F
  · exact readsChar_one h1
  · by_cases h2 : c.val.toNat ≤ 0x7FF
    · exact readsChar_two h1 h2
    · by_cases h3 : c.val.toNat ≤ 0xFFFF
      · exact readsChar_three h1 h2 h3
      · exact readsChar_four h1 h2 h3

end Sizes

/-! ## Code points -/

/-- The character a `Char32` is the code point of. -/
def charOf (v : Char32) : Option Char :=
  if h : v.isValidChar then some ⟨v, h⟩ else none

theorem charOf_val (c : Char) : charOf c.val = some c := by
  unfold charOf
  rw [dif_pos c.valid]

theorem charOf_eq_some {v : Char32} {c : Char} : charOf v = some c ↔ c.val = v := by
  constructor
  · intro h
    unfold charOf at h
    split at h
    · cases h
      rfl
    · cases h
  · rintro rfl
    exact charOf_val c

theorem isValidChar_iff (v : Char32) : isValidChar v = true ↔ v.isValidChar := by
  have h : isValidChar v = true ↔
      v.toNat ≤ 0x10FFFF ∧ (v.toNat < 0xD800 ∨ 0xDFFF < v.toNat) := by
    simp [isValidChar, UInt32.lt_iff_toNat_lt, UInt32.le_iff_toNat_le, -not_and]
  rw [h]
  unfold UInt32.isValidChar Nat.isValidChar
  omega

theorem utf8Size_eq_ite (c : Char) :
    c.utf8Size = if c.val < 0x80 then 1 else if c.val < 0x800 then 2
      else if c.val < 0x10000 then 3 else 4 := by
  simp only [UInt32.lt_iff_toNat_lt, UInt32.reduceToNat]
  rcases c.utf8Size_eq with h | h | h | h <;> rw [h]
  · rw [Char.utf8Size_eq_one_iff, UInt32.le_iff_toNat_le] at h
    simp only [UInt32.reduceToNat] at h
    rw [if_pos (by omega)]
  · rw [Char.utf8Size_eq_two_iff, UInt32.lt_iff_toNat_lt, UInt32.le_iff_toNat_le] at h
    simp only [UInt32.reduceToNat] at h
    rw [if_neg (by omega), if_pos (by omega)]
  · rw [Char.utf8Size_eq_three_iff, UInt32.lt_iff_toNat_lt, UInt32.le_iff_toNat_le] at h
    simp only [UInt32.reduceToNat] at h
    rw [if_neg (by omega), if_neg (by omega), if_pos (by omega)]
  · rw [Char.utf8Size_eq_four_iff, UInt32.lt_iff_toNat_lt] at h
    simp only [UInt32.reduceToNat] at h
    rw [if_neg (by omega), if_neg (by omega), if_neg (by omega)]

/-- `GetByteCount` is the size of the encoding, and 0 where there is none. -/
theorem getByteCount_eq (v : Char32) :
    getByteCount v = match charOf v with
      | none => 0
      | some c => c.utf8Size := by
  cases hv : isValidChar v with
  | true =>
    have hval := (isValidChar_iff v).mp hv
    have hchar : charOf v = some ⟨v, hval⟩ := dif_pos hval
    rw [isValidChar, Bool.not_eq_true'] at hv
    rw [hchar, getByteCount, hv, if_neg Bool.false_ne_true]
    exact (utf8Size_eq_ite ⟨v, hval⟩).symm
  | false =>
    have hchar : charOf v = none := by
      apply dif_neg
      rw [← isValidChar_iff, hv]
      exact Bool.false_ne_true
    rw [isValidChar, Bool.not_eq_false'] at hv
    rw [hchar, getByteCount, if_pos hv]

end SuperExe.Elastos
