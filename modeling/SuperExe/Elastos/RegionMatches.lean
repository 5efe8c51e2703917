import SuperExe.Elastos.CompareIgnoreCase
import SuperExe.Elastos.IndexOf

/-! # Matching regions

`RegionMatches` counts the region in characters and hands the same number to
`strncmp`, which counts bytes; it turns both starts into byte offsets with the
characters of this string; and the sums of start and length are of 32 bits. What
it answers is right exactly where the bytes it compares agree as far as the
characters of the region.
-/

namespace SuperExe.Elastos

open SuperExe.Core SuperExe.Lib

namespace ElString

/-! ## The code -/

/-- What `RegionMatches` and `RegionMatchesIgnoreCase` test before they compare,
and then the comparison. -/
def regionWith (compare : ElString → ElString → Option Bool) (s : ElString) (thisStart : Int)
    (otherStr : ElString) (start length : Int) : Option Bool :=
  if s.isNull || otherStr.isNull then some false
  else if deref otherStr.data = 0 ∧ deref s.data = 0 then some true
  else
    let (otherStrLen, otherStr) := otherStr.getLength
    if start < 0 ∨ toInt32 (start + length) > otherStrLen then some false
    else
      let (strLen, s) := s.getLength
      if thisStart < 0 ∨ toInt32 (thisStart + length) > strLen then some false
      else if length = 0 then some true
      else compare s otherStr

/-- The bytes that a `char*` reads. -/
def byteAt (p : Bytes) (i : Nat) : UInt8 := p.getD i 0

/-- `RegionMatches`; `none` is a comparison that starts outside a buffer: before
it where `ToByteIndex` has answered -1, or behind the other one. Both calls of
`ToByteIndex` are those of this string. -/
def regionMatches (s : ElString) (thisStart : Int) (otherStr : ElString) (start length : Int) :
    Option Bool :=
  regionWith (fun s otherStr =>
    let str1 := charIndexToByteIndex s.mString thisStart
    let str2 := charIndexToByteIndex s.mString start
    if str1 < 0 ∨ str2 < 0 ∨ str2 ≥ otherStr.data.length then none
    else
      some (strncmpEq (byteAt (s.data.drop str1.toNat)) (byteAt (otherStr.data.drop str2.toNat))
        (length % 2 ^ 64).toNat)) s thisStart otherStr start length

/-- `RegionMatchesIgnoreCase`; `none` would be a comparison that does not
end. -/
def regionMatchesIgnoreCase (heap : Heap) (upper : Char32 → Char32) (s : ElString) (thisStart : Int)
    (otherStr : ElString) (start length : Int) : Option Bool :=
  regionWith (fun s otherStr =>
    let subStr1 := (s.substring heap thisStart (toInt32 (thisStart + length))).1
    let subStr2 := (otherStr.substring heap start (toInt32 (start + length))).1
    (compareIgnoreCase upper subStr1.mString subStr2.mString).map fun r => r == 0)
    s thisStart otherStr start length

/-! ## The region -/

/-- The regions lie in the two texts and are the same. -/
structure SameRegion (cs ds : List Char) (thisStart start length : Int) : Prop where
  this_nonneg : 0 ≤ thisStart
  nonneg : 0 ≤ start
  this_fits : thisStart + length ≤ cs.length
  fits : start + length ≤ ds.length
  same : slice cs thisStart (thisStart + length) = slice ds start (start + length)

/-- The tests of the code: their sums can wrap. -/
structure Admitted (cs ds : List Char) (thisStart start length : Int) : Prop where
  this_nonneg : 0 ≤ thisStart
  nonneg : 0 ≤ start
  this_fits : toInt32 (thisStart + length) ≤ cs.length
  fits : toInt32 (start + length) ≤ ds.length

/-- Where the other text is compared: behind as many bytes as this text has
before its character `start`. -/
def otherBytes (cs ds : List Char) (start : Int) : Bytes :=
  (cText ds).drop (utf8 (cs.take start.toNat)).length

/-- Both starts are characters of this text and the second place is in the other
one; and the two texts have `length` characters in common from the starts on if
and only if they have `length` bytes in common from the two places on, or are
the same there up to their ends. -/
structure BytesDecide (cs ds : List Char) (thisStart start length : Int) : Prop where
  this_lt : thisStart < cs.length
  lt : start < cs.length
  inside : (utf8 (cs.take start.toNat)).length ≤ (utf8 ds).length
  agree : length.toNat ≤ agreement (cs.drop thisStart.toNat) (ds.drop start.toNat) ↔
    cText (cs.drop thisStart.toNat) = otherBytes cs ds start ∨
      length.toNat ≤ agreement (cText (cs.drop thisStart.toNat)) (otherBytes cs ds start)

section Region

variable {s otherStr : ElString} {cs ds es : List Char} {thisStart start length : Int}

theorem byteAt_succ (b : UInt8) (p : Bytes) : (fun i => byteAt (b :: p) (i + 1)) = byteAt p := rfl

theorem strncmpEq_terminated {p q : Bytes} {n : Nat} (hp : ∀ b ∈ p, b ≠ 0) (hq : ∀ b ∈ q, b ≠ 0) :
    strncmpEq (byteAt (p ++ [0])) (byteAt (q ++ [0])) n = true ↔
      (p ++ [0]).take n = (q ++ [0]).take n := by
  induction n generalizing p q with
  | zero => simp [strncmpEq]
  | succ n ih =>
    rcases p with - | ⟨b, p⟩ <;> rcases q with - | ⟨c, q⟩
    · simp [strncmpEq, byteAt]
    · have hc0 := hq c List.mem_cons_self
      simp [strncmpEq, byteAt, Ne.symm hc0]
    · have hb0 := hp b List.mem_cons_self
      simp [strncmpEq, byteAt, hb0]
    · have hb0 := hp b List.mem_cons_self
      have hrest := @ih p q (fun b' h => hp b' (List.mem_cons_of_mem b h))
        (fun c' h => hq c' (List.mem_cons_of_mem c h))
      have hfirst : ∀ (d : UInt8) (r : Bytes), byteAt (d :: r) 0 = d := fun _ _ => rfl
      rw [List.cons_append, List.cons_append, strncmpEq, byteAt_succ, byteAt_succ, hfirst, hfirst,
        List.take_succ_cons, List.take_succ_cons, List.cons.injEq, ← hrest]
      by_cases hbc : b = c
      · rw [if_neg (not_not.mpr hbc), if_neg hb0]
        exact (and_iff_right hbc).symm
      · rw [if_pos hbc]
        exact ⟨fun h => absurd h Bool.false_ne_true, fun h => absurd h.1 hbc⟩

/-- `strncmp` compares the two places up to `n` bytes or the end. -/
theorem strncmpEq_places (hc : NoNul cs) (hd : NoNul ds)
    (hin : (utf8 (cs.take start.toNat)).length ≤ (utf8 ds).length) (n : Nat) :
    strncmpEq (byteAt (cText (cs.drop thisStart.toNat))) (byteAt (otherBytes cs ds start)) n = true ↔
      cText (cs.drop thisStart.toNat) = otherBytes cs ds start ∨
        n ≤ agreement (cText (cs.drop thisStart.toNat)) (otherBytes cs ds start) := by
  have hrest : otherBytes cs ds start =
      (utf8 ds).drop (utf8 (cs.take start.toNat)).length ++ [0] := by
    rw [otherBytes, cText, List.drop_append_of_le_length hin]
  rw [← take_eq_take_iff_agreement, hrest]
  exact strncmpEq_terminated (ne_nul_of_mem_utf8 (hc.drop _)) fun b hb =>
    ne_nul_of_mem_utf8 hd b (List.mem_of_mem_drop hb)

/-! ### The tests -/

section Tests

variable (hs : s.Holds cs) (ho : otherStr.Holds ds)
  {compare : ElString → ElString → Option Bool}

theorem regionWith_null (h : s.isNull = true ∨ otherStr.isNull = true) :
    regionWith compare s thisStart otherStr start length = some false := by
  rw [regionWith, if_pos (by simpa using h)]

variable (hnull : ¬ (s.isNull = true ∨ otherStr.isNull = true))

theorem Holds.deref_data_iff (hs : s.Holds cs) (h : ¬ s.isNull = true) :
    deref s.data = 0 ↔ cs = [] := by
  rw [← hs.isNullOrEmpty_iff, isNullOrEmpty, Bool.or_eq_true, beq_iff_eq]
  exact (or_iff_right h).symm

include hs ho hnull

theorem regionWith_empty (h : ds = [] ∧ cs = []) :
    regionWith compare s thisStart otherStr start length = some true := by
  rw [not_or] at hnull
  rw [regionWith, if_neg (by simpa using hnull),
    if_pos ⟨(ho.deref_data_iff hnull.2).mpr h.1, (hs.deref_data_iff hnull.1).mpr h.2⟩]

variable (hne : ¬ (ds = [] ∧ cs = []))

include hne

theorem regionWith_tests :
    regionWith compare s thisStart otherStr start length =
      if start < 0 ∨ toInt32 (start + length) > ds.length then some false
      else if thisStart < 0 ∨ toInt32 (thisStart + length) > cs.length then some false
      else if length = 0 then some true
      else compare s.getLength.2 otherStr.getLength.2 := by
  rw [not_or] at hnull
  simp only [regionWith, ho.deref_data_iff hnull.2, hs.deref_data_iff hnull.1, if_neg hne,
    (getLength_spec hs).1, (getLength_spec ho).1]
  rw [if_neg (by simpa using hnull)]

theorem regionWith_refused (h : ¬ Admitted cs ds thisStart start length) :
    regionWith compare s thisStart otherStr start length = some false := by
  rw [regionWith_tests hs ho hnull hne]
  by_cases h1 : start < 0 ∨ toInt32 (start + length) > ds.length
  · rw [if_pos h1]
  · by_cases h2 : thisStart < 0 ∨ toInt32 (thisStart + length) > cs.length
    · rw [if_neg h1, if_pos h2]
    · exact absurd ⟨by omega, by omega, by omega, by omega⟩ h

theorem regionWith_admitted (h : Admitted cs ds thisStart start length) :
    regionWith compare s thisStart otherStr start length =
      if length = 0 then some true else compare s.getLength.2 otherStr.getLength.2 := by
  have h1 := h.nonneg
  have h2 := h.fits
  have h3 := h.this_nonneg
  have h4 := h.this_fits
  rw [regionWith_tests hs ho hnull hne, if_neg (by omega), if_neg (by omega)]

end Tests

/-! ### The comparisons -/

/-- The same region is so many characters that the texts have in common from
the starts on. -/
theorem sameRegion_iff (hthis : 0 ≤ thisStart) (hstart : 0 ≤ start) (hpos : 0 < length) :
    SameRegion cs ds thisStart start length ↔
      length.toNat ≤ agreement (cs.drop thisStart.toNat) (ds.drop start.toNat) := by
  have hpart : ∀ {es : List Char} {i : Int}, 0 ≤ i →
      slice es i (i + length) = (es.drop i.toNat).take length.toNat := by
    intro es i hi
    rw [slice, if_neg (by omega), List.drop_take, show (i + length).toNat - i.toNat = length.toNat by
      omega]
  rw [le_agreement_iff, List.length_drop, List.length_drop]
  constructor
  · intro h
    have h1 := h.this_fits
    have h2 := h.fits
    refine ⟨by omega, by omega, ?_⟩
    rw [← hpart hthis, ← hpart hstart]
    exact h.same
  · rintro ⟨h1, h2, hsame⟩
    refine ⟨hthis, hstart, by omega, by omega, ?_⟩
    rw [hpart hthis, hpart hstart]
    exact hsame

section Compared

variable (hs : s.Holds cs) (ho : otherStr.Holds ds)
  (hnull : ¬ (s.isNull = true ∨ otherStr.isNull = true)) (hne : ¬ (ds = [] ∧ cs = []))
  (h : Admitted cs ds thisStart start length) (hlen : 0 < length) (hlen' : length < 2 ^ 31)

include hs ho hnull hne h hlen

include hlen' in
/-- `RegionMatches` compares as many bytes as the region has characters. -/
theorem regionMatches_bytes (h1 : thisStart < cs.length) (h2 : start < cs.length)
    (hin : (utf8 (cs.take start.toNat)).length ≤ (utf8 ds).length) :
    ∃ r, regionMatches s thisStart otherStr start length = some r ∧
      (r = true ↔ cText (cs.drop thisStart.toNat) = otherBytes cs ds start ∨
        length.toNat ≤ agreement (cText (cs.drop thisStart.toNat)) (otherBytes cs ds start)) := by
  have h3 := h.this_nonneg
  have h4 := h.nonneg
  have hcs : cs ≠ [] := by
    rintro rfl
    simp only [List.length_nil] at h1
    omega
  have hds : otherStr.data = cText ds := by
    rcases ho.buffer with ⟨hnone, -⟩ | hbuf
    · exact absurd (Or.inr (by rw [isNull, hnone]; rfl)) hnull
    · rw [data, hbuf]
      rfl
  have hsize : (length % 2 ^ 64).toNat = length.toNat := by omega
  have hplaces := @strncmpEq_places cs ds thisStart start hs.noNul ho.noNul hin length.toNat
  have hdata : otherStr.getLength.2.data = cText ds := by
    rw [← hds, data, data, getLength_mString]
  rw [regionMatches, regionWith_admitted hs ho hnull hne h, if_neg (by omega)]
  simp only [getLength_mString, toByteIndex_exact hs.hasText, if_pos (And.intro h3 h1),
    if_pos (And.intro h4 h2), (getLength_spec hs).2.1.data_eq hcs, hdata, Int.toNat_natCast,
    drop_cText, hsize, length_cText]
  rw [if_neg (by omega)]
  exact ⟨_, rfl, hplaces⟩

/-- A start behind the last character of this text is no index, and the second
place can lie behind the other text. -/
theorem regionMatches_outside (hout : ¬ (thisStart < cs.length ∧ start < cs.length ∧
    (utf8 (cs.take start.toNat)).length ≤ (utf8 ds).length)) :
    regionMatches s thisStart otherStr start length = none := by
  have hdata : otherStr.getLength.2.data.length = (utf8 ds).length + 1 := by
    rcases ho.buffer with ⟨hnone, -⟩ | hbuf
    · exact absurd (Or.inr (by rw [isNull, hnone]; rfl)) hnull
    · rw [data, getLength_mString, hbuf]
      exact length_cText ds
  rw [regionMatches, regionWith_admitted hs ho hnull hne h, if_neg (by omega)]
  simp only [getLength_mString, toByteIndex_exact hs.hasText, hdata]
  rw [if_pos]
  by_cases h1 : thisStart < cs.length
  · right
    by_cases h2 : 0 ≤ start ∧ start < cs.length
    · right
      have h3 : ¬ (utf8 (cs.take start.toNat)).length ≤ (utf8 ds).length := fun h3 =>
        hout ⟨h1, h2.2, h3⟩
      rw [if_pos h2]
      omega
    · left
      rw [if_neg h2]
      decide
  · left
    rw [if_neg fun h2 => h1 h2.2]
    decide

end Compared

theorem walk_self (upper : Char32 → Char32) (he : NoNul es) {fuel : Nat} (hf : es.length < fuel) :
    ∃ p, walk upper fuel (cText es) (cText es) = some (.stop p p) := by
  induction es generalizing fuel with
  | nil =>
    obtain ⟨fuel, rfl⟩ := Nat.exists_eq_add_of_lt hf
    exact ⟨_, walk_end _ (Or.inl rfl)⟩
  | cons c es ih =>
    rw [List.length_cons] at hf
    obtain ⟨fuel, rfl⟩ : ∃ f, fuel = f + 1 := ⟨fuel - 1, by omega⟩
    rw [walk_cons he he Iff.rfl, if_pos rfl]
    exact ih he.tail (by omega)

/-- A string is not different from itself. -/
theorem compareIgnoreCase_self (upper : Char32 → Char32) (he : NoNul es) :
    compareIgnoreCase upper (some (cText es)) (some (cText es)) = some 0 := by
  have hle := length_le_length_utf8 es
  obtain ⟨p, hp⟩ := walk_self upper he (show es.length < (cText es).length + 1 by
    rw [length_cText]
    omega)
  simp only [compareIgnoreCase, cString_cText he, hp, Int.sub_self]
  split <;> rfl

/-- The texts are short, so the sums of a region inside them do not wrap. -/
theorem SameRegion.unwrapped (hs : s.Holds cs) (ho : otherStr.Holds ds)
    (h : SameRegion cs ds thisStart start length) (hlen : 0 ≤ length) :
    toInt32 (thisStart + length) = thisStart + length ∧ toInt32 (start + length) = start + length := by
  have h1 := h.this_nonneg
  have h2 := h.nonneg
  have h3 := h.this_fits
  have h4 := h.fits
  have hsmall := hs.hasText.length_lt
  have hsmall' := ho.hasText.length_lt
  exact ⟨Int.bmod_eq_of_le (by omega) (by omega), Int.bmod_eq_of_le (by omega) (by omega)⟩

theorem SameRegion.admitted (hs : s.Holds cs) (ho : otherStr.Holds ds)
    (h : SameRegion cs ds thisStart start length) (hlen : 0 ≤ length) :
    Admitted cs ds thisStart start length := by
  obtain ⟨hwrap, hwrap'⟩ := h.unwrapped hs ho hlen
  refine ⟨h.this_nonneg, h.nonneg, ?_, ?_⟩
  · rw [hwrap]
    exact h.this_fits
  · rw [hwrap']
    exact h.fits

/-- With the same regions the comparison ignoring case succeeds: the two parts
have the same bytes, and so the allocator treats them alike. -/
theorem regionMatchesIgnoreCase_same (hs : s.Holds cs) (ho : otherStr.Holds ds)
    (hnull : ¬ (s.isNull = true ∨ otherStr.isNull = true)) (heap : Heap) (upper : Char32 → Char32)
    (h : SameRegion cs ds thisStart start length) (hlen : 0 ≤ length) :
    regionMatchesIgnoreCase heap upper s thisStart otherStr start length = some true := by
  have hthis := h.this_nonneg
  have hstart := h.nonneg
  have hthis_fits := h.this_fits
  have hfits := h.fits
  by_cases hne : ds = [] ∧ cs = []
  · exact regionWith_empty hs ho hnull hne
  · obtain ⟨hwrap, hwrap'⟩ := h.unwrapped hs ho hlen
    rw [regionMatchesIgnoreCase, regionWith_admitted hs ho hnull hne (h.admitted hs ho hlen)]
    by_cases hzero : length = 0
    · rw [if_pos hzero]
    · obtain ⟨-, hs', -⟩ := getLength_spec hs
      obtain ⟨-, ho', -⟩ := getLength_spec ho
      rw [if_neg hzero, hwrap, hwrap', substring_cut hs'.hasText hs'.cacheRight hthis (by omega)
        hthis_fits, substring_cut ho'.hasText ho'.cacheRight hstart (by omega) hfits, h.same]
      have hpart : ∃ es, NoNul es ∧
          (ofAlloc (heap.allocText (slice ds start (start + length)))).mString = some (cText es) := by
        unfold Heap.allocText
        split
        · exact ⟨_, noNul_slice ho.noNul _ _, rfl⟩
        · exact ⟨[], noNul_nil, rfl⟩
      obtain ⟨es, he, hes⟩ := hpart
      simp only [hes, compareIgnoreCase_self upper he]
      rfl

/-! ## The condition -/

/-- What is expected of `RegionMatches`, and of `RegionMatchesIgnoreCase` with
it. -/
structure RegionRight (heap : Heap) (upper : Char32 → Char32) (s : ElString) (cs : List Char)
    (otherStr : ElString) (ds : List Char) (thisStart start length : Int) : Prop where
  exact : ∃ r, regionMatches s thisStart otherStr start length = some r ∧
    (r = true ↔ SameRegion cs ds thisStart start length)
  ignoreCase : regionMatches s thisStart otherStr start length = some true →
    regionMatchesIgnoreCase heap upper s thisStart otherStr start length = some true

/-- When the region is measured right: a string that is NULL is not asked for an
empty region, two empty strings are asked for their only region, and of a region
that passes the tests the bytes agree as far as the characters. -/
structure Measured (s : ElString) (cs : List Char) (otherStr : ElString) (ds : List Char)
    (thisStart start length : Int) : Prop where
  null : s.isNull = true ∨ otherStr.isNull = true → length = 0 → 0 ≤ thisStart → 0 ≤ start →
    ¬ (thisStart ≤ cs.length ∧ start ≤ ds.length)
  empty : ¬ (s.isNull = true ∨ otherStr.isNull = true) → ds = [] ∧ cs = [] →
    thisStart = 0 ∧ start = 0 ∧ length = 0
  bytes : ¬ (s.isNull = true ∨ otherStr.isNull = true) → ¬ (ds = [] ∧ cs = []) → 0 < length →
    Admitted cs ds thisStart start length → BytesDecide cs ds thisStart start length

/-- An empty region is the same everywhere. -/
theorem sameRegion_zero : SameRegion cs ds thisStart start 0 ↔
    0 ≤ thisStart ∧ 0 ≤ start ∧ thisStart ≤ cs.length ∧ start ≤ ds.length := by
  constructor
  · intro h
    have h1 := h.this_fits
    have h2 := h.fits
    exact ⟨h.this_nonneg, h.nonneg, by omega, by omega⟩
  · rintro ⟨h1, h2, h3, h4⟩
    exact ⟨h1, h2, by omega, by omega, by rw [slice_of_le (by omega), slice_of_le (by omega)]⟩

theorem Holds.eq_nil_of_isNull (hs : s.Holds cs) (h : s.isNull = true) : cs = [] :=
  hs.isNullOrEmpty_iff.mp (by rw [isNullOrEmpty, h, Bool.true_or])

section Exact

variable (hs : s.Holds cs) (ho : otherStr.Holds ds)

include hs ho

/-- Ignoring case nothing more is asked. -/
theorem regionRight_iff_exact (heap : Heap) (upper : Char32 → Char32) (hlen : 0 ≤ length) :
    RegionRight heap upper s cs otherStr ds thisStart start length ↔
      ∃ r, regionMatches s thisStart otherStr start length = some r ∧
        (r = true ↔ SameRegion cs ds thisStart start length) := by
  refine ⟨RegionRight.exact, fun h => ⟨h, fun htrue => ?_⟩⟩
  obtain ⟨r, hr, hiff⟩ := h
  rw [hr, Option.some_inj] at htrue
  have hnull : ¬ (s.isNull = true ∨ otherStr.isNull = true) := by
    intro hnull
    rw [regionMatches, regionWith_null hnull, Option.some_inj] at hr
    rw [htrue] at hr
    cases hr
  exact regionMatchesIgnoreCase_same hs ho hnull heap upper (hiff.mp htrue) hlen

omit hs ho in
theorem exact_iff {b : Bool} (hres : regionMatches s thisStart otherStr start length = some b) :
    (∃ r, regionMatches s thisStart otherStr start length = some r ∧
      (r = true ↔ SameRegion cs ds thisStart start length)) ↔
    (b = true ↔ SameRegion cs ds thisStart start length) := by
  rw [hres]
  simp only [Option.some_inj, exists_eq_left']

/-- A NULL string matches nothing. -/
theorem exact_null_iff (hnull : s.isNull = true ∨ otherStr.isNull = true) (hlen : 0 ≤ length) :
    (∃ r, regionMatches s thisStart otherStr start length = some r ∧
      (r = true ↔ SameRegion cs ds thisStart start length)) ↔
    (length = 0 → 0 ≤ thisStart → 0 ≤ start →
      ¬ (thisStart ≤ cs.length ∧ start ≤ ds.length)) := by
  rw [exact_iff (show _ = some false from regionWith_null hnull)]
  simp only [Bool.false_eq_true, false_iff]
  constructor
  · rintro hnot rfl h1 h2 h3
    exact hnot (sameRegion_zero.mpr ⟨h1, h2, h3⟩)
  · intro h hsame
    -- one of the texts is empty, and so is the region
    have h1 := hsame.this_nonneg
    have h2 := hsame.nonneg
    have h3 := hsame.this_fits
    have h4 := hsame.fits
    have hzero : length = 0 := by
      rcases hnull with hn | hn
      · rw [hs.eq_nil_of_isNull hn, List.length_nil] at h3
        omega
      · rw [ho.eq_nil_of_isNull hn, List.length_nil] at h4
        omega
    exact h hzero h1 h2 ⟨by omega, by omega⟩

variable (hnull : ¬ (s.isNull = true ∨ otherStr.isNull = true))

include hnull

/-- Two empty strings match everywhere. -/
theorem exact_empty_iff (hne : ds = [] ∧ cs = []) (hlen : 0 ≤ length) :
    (∃ r, regionMatches s thisStart otherStr start length = some r ∧
      (r = true ↔ SameRegion cs ds thisStart start length)) ↔
    (thisStart = 0 ∧ start = 0 ∧ length = 0) := by
  rw [exact_iff (show _ = some true from regionWith_empty hs ho hnull hne), hne.1, hne.2]
  simp only [true_iff]
  constructor
  · intro h
    have h1 := h.this_nonneg
    have h2 := h.nonneg
    have h3 := h.this_fits
    have h4 := h.fits
    rw [List.length_nil] at h3 h4
    omega
  · rintro ⟨rfl, rfl, rfl⟩
    exact sameRegion_zero.mpr ⟨by omega, by omega, by omega, by omega⟩

variable (hne : ¬ (ds = [] ∧ cs = [])) (hlen : 0 ≤ length)

include hne hlen

/-- What the tests refuse is not inside the texts. -/
theorem exact_refused (h : ¬ Admitted cs ds thisStart start length) :
    ∃ r, regionMatches s thisStart otherStr start length = some r ∧
      (r = true ↔ SameRegion cs ds thisStart start length) := by
  rw [exact_iff (show _ = some false from regionWith_refused hs ho hnull hne h)]
  simp only [Bool.false_eq_true, false_iff]
  exact fun hsame => h (hsame.admitted hs ho hlen)

/-- An empty region that passes the tests is inside. -/
theorem exact_zero (hthis : thisStart < 2 ^ 31) (hstart : start < 2 ^ 31)
    (h : Admitted cs ds thisStart start length) (hzero : length = 0) :
    ∃ r, regionMatches s thisStart otherStr start length = some r ∧
      (r = true ↔ SameRegion cs ds thisStart start length) := by
  have hres : regionMatches s thisStart otherStr start length = some true := by
    rw [regionMatches, regionWith_admitted hs ho hnull hne h, if_pos hzero]
  subst hzero
  have h1 := h.this_nonneg
  have h2 := h.nonneg
  have h3 := h.this_fits
  have h4 := h.fits
  rw [Int.add_zero, toInt32, Int.bmod_eq_of_le (by omega) (by omega)] at h3 h4
  exact (exact_iff hres).mpr ⟨fun _ => sameRegion_zero.mpr ⟨h1, h2, h3, h4⟩, fun _ => rfl⟩

omit hlen in
/-- A region is compared by its first bytes. -/
theorem exact_bytes_iff (h : Admitted cs ds thisStart start length) (hpos : 0 < length)
    (hlen' : length < 2 ^ 31) :
    (∃ r, regionMatches s thisStart otherStr start length = some r ∧
      (r = true ↔ SameRegion cs ds thisStart start length)) ↔
    BytesDecide cs ds thisStart start length := by
  by_cases hin : thisStart < cs.length ∧ start < cs.length ∧
      (utf8 (cs.take start.toNat)).length ≤ (utf8 ds).length
  · obtain ⟨h1, h2, h3⟩ := hin
    obtain ⟨r, hr, hbytes⟩ := regionMatches_bytes hs ho hnull hne h hpos hlen' h1 h2 h3
    rw [exact_iff hr, hbytes, sameRegion_iff h.this_nonneg h.nonneg hpos]
    exact ⟨fun hiff => ⟨h1, h2, h3, hiff.symm⟩, fun hd => hd.agree.symm⟩
  · rw [regionMatches_outside hs ho hnull hne h hpos hin]
    constructor
    · rintro ⟨r, hr, -⟩
      cases hr
    · intro hd
      exact absurd ⟨hd.this_lt, hd.lt, hd.inside⟩ hin

end Exact

theorem regionRight_iff_measured (heap : Heap) (upper : Char32 → Char32) (hs : s.Holds cs)
    (ho : otherStr.Holds ds) (hthis : thisStart < 2 ^ 31) (hstart : start < 2 ^ 31)
    (hlen : 0 ≤ length) (hlen' : length < 2 ^ 31) :
    RegionRight heap upper s cs otherStr ds thisStart start length ↔
      Measured s cs otherStr ds thisStart start length := by
  rw [regionRight_iff_exact hs ho heap upper hlen]
  by_cases hnull : s.isNull = true ∨ otherStr.isNull = true
  · rw [exact_null_iff hs ho hnull hlen]
    exact ⟨fun h => ⟨fun _ => h, fun h => absurd hnull h, fun h => absurd hnull h⟩,
      fun h => h.null hnull⟩
  by_cases hne : ds = [] ∧ cs = []
  · rw [exact_empty_iff hs ho hnull hne hlen]
    exact ⟨fun h => ⟨fun h => absurd h hnull, fun _ _ => h, fun _ h => absurd hne h⟩,
      fun h => h.empty hnull hne⟩
  by_cases hadm : Admitted cs ds thisStart start length
  · rcases Int.lt_or_eq_of_le hlen with hpos | hzero
    · rw [exact_bytes_iff hs ho hnull hne hadm hpos hlen']
      exact ⟨fun h => ⟨fun h => absurd h hnull, fun _ h => absurd h hne, fun _ _ _ _ => h⟩,
        fun h => h.bytes hnull hne hpos hadm⟩
    · refine iff_of_true (exact_zero hs ho hnull hne hlen hthis hstart hadm hzero.symm) ?_
      exact ⟨fun h => absurd h hnull, fun _ h => absurd h hne,
        fun _ _ hpos => absurd hzero (by omega)⟩
  · refine iff_of_true (exact_refused hs ho hnull hne hlen hadm) ?_
    exact ⟨fun h => absurd h hnull, fun _ h => absurd h hne, fun _ _ _ h => absurd h hadm⟩

theorem length_utf8_of_ascii (h : ∀ c ∈ cs, c.utf8Size = 1) : (utf8 cs).length = cs.length := by
  induction cs with
  | nil => rfl
  | cons c cs ih =>
    rw [utf8_cons, List.length_append, String.length_utf8EncodeChar, h c List.mem_cons_self,
      ih fun d hd => h d (List.mem_cons_of_mem c hd), List.length_cons, Nat.add_comm]

/-- The first bytes of an ASCII text are its first characters. -/
theorem take_cText_of_ascii (h : ∀ c ∈ cs, c.utf8Size = 1) {n : Nat} (hn : n ≤ cs.length) :
    (cText cs).take n = utf8 (cs.take n) := by
  have hlen : (utf8 (cs.take n)).length = n := by
    rw [length_utf8_of_ascii fun c hc => h c (List.mem_of_mem_take hc), List.length_take,
      min_eq_left hn]
  have hsplit : cText cs = utf8 (cs.take n) ++ cText (cs.drop n) := by
    rw [cText, cText, ← List.append_assoc, ← utf8_append, List.take_append_drop]
  rw [hsplit, List.take_left' hlen]

/-- For a region inside two ASCII texts `RegionMatches` is right, if `start` is
also a character of this text. -/
theorem regionRight_ascii (heap : Heap) (upper : Char32 → Char32) (hs : s.Holds cs)
    (ho : otherStr.Holds ds) (hnull : ¬ (s.isNull = true ∨ otherStr.isNull = true))
    (hcs : ∀ c ∈ cs, c.utf8Size = 1) (hds : ∀ c ∈ ds, c.utf8Size = 1) (hthis : 0 ≤ thisStart)
    (hstart : 0 ≤ start) (hlen : 0 ≤ length) (hthis_fits : thisStart + length ≤ cs.length)
    (hfits : start + length ≤ ds.length) (hin : length = 0 ∨ start < cs.length) :
    RegionRight heap upper s cs otherStr ds thisStart start length := by
  have hsmall := hs.hasText.length_lt
  have hsmall' := ho.hasText.length_lt
  refine (regionRight_iff_measured heap upper hs ho (by omega) (by omega) hlen (by omega)).mpr
    ⟨fun h => absurd h hnull, ?_, ?_⟩
  · rintro - ⟨rfl, rfl⟩
    rw [List.length_nil] at hthis_fits hfits
    omega
  · intro _ _ hpos _
    have hplace : (utf8 (cs.take start.toNat)).length = start.toNat := by
      rw [length_utf8_of_ascii fun c hc => hcs c (List.mem_of_mem_take hc), List.length_take,
        min_eq_left (by omega)]
    have hplace' : (utf8 (ds.take start.toNat)).length = start.toNat := by
      rw [length_utf8_of_ascii fun c hc => hds c (List.mem_of_mem_take hc), List.length_take,
        min_eq_left (by omega)]
    refine ⟨by omega, by omega, ?_, ?_⟩
    · rw [hplace, length_utf8_of_ascii hds]
      omega
    · -- both sides say that the first `length` characters are the same
      have hfront : length.toNat ≤ (cs.drop thisStart.toNat).length := by
        rw [List.length_drop]
        omega
      have hfront' : length.toNat ≤ (ds.drop start.toNat).length := by
        rw [List.length_drop]
        omega
      have hother : otherBytes cs ds start = cText (ds.drop start.toNat) := by
        rw [otherBytes, hplace, ← hplace', drop_cText, hplace']
      rw [hother, ← take_eq_take_iff_agreement,
        take_cText_of_ascii (fun c hc => hcs c (List.mem_of_mem_drop hc)) hfront,
        take_cText_of_ascii (fun c hc => hds c (List.mem_of_mem_drop hc)) hfront',
        utf8_injective.eq_iff, le_agreement_iff, and_iff_right hfront, and_iff_right hfront']

/-! ### Other regions -/

-- the place in `"éa"` is measured in `"aa"`: the second byte of the `é`
example : regionMatches { mString := some (cText ['a', 'a']), mCharCount := 0 } 1
    { mString := some (cText ['é', 'a']), mCharCount := 0 } 1 1 = some false := by decide

end Region

end ElString

end SuperExe.Elastos
