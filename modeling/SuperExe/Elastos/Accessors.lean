import SuperExe.Elastos.StringRuns
import SuperExe.Lib.Search

/-! # Access by character index

The members of `class String` that take an index count characters, and each has
its own loop over the bytes. `HasText s cs` says that the bytes of `s` are the
text `cs` and nothing about the cached length; every loop is compared with `cs`
as a list.
-/

namespace SuperExe.Elastos

open SuperExe.Core SuperExe.Lib

/-- `INVALID_CHAR` -/
def invalidChar : Char32 := 0x110000

namespace ElString

/-! ## The code -/

/-- The loop of `GetChar`. -/
def charAtLoop (index : Int) : Nat → Bytes → Int → Char32
  | 0, _, _ => invalidChar
  | fuel + 1, p, i =>
    if deref p = 0 then invalidChar
    else
      let byteLength := utf8SequenceLength (deref p)
      if byteLength = 0 ∨ p.length ≤ byteLength then invalidChar
      else if i = index then (getCharInternal p).1
      else charAtLoop index fuel (p.drop byteLength) (i + 1)

def getChar (s : ElString) (index : Int) : Char32 :=
  if s.isNullOrEmpty || index < 0 then invalidChar
  else charAtLoop index s.data.length s.data 0

/-- The loop of `Substring`: `p1` and `p2` as offsets. `p3` is where the
character that `p` has just passed starts. -/
def substringLoop (total : Nat) (start stop : Int) :
    Nat → Bytes → Int → Int → Int → Int → Int × Int
  | 0, _, _, p1, p2, _ => (p1, p2)
  | fuel + 1, p, count, p1, p2, p3 =>
    if deref p = 0 then (p1, p2)
    else
      let charlen := utf8SequenceLength (deref p)
      if charlen = 0 ∨ p.length ≤ charlen then (p1, p2)
      else
        let p := p.drop charlen
        let p1 := if count = start then p3 else p1
        if count = stop then (p1, p3)
        else substringLoop total start stop fuel p (count + 1) p1 p2 ((total : Int) - p.length)

/-- `Substring(Int32, Int32)`: the new string and the object after
`GetLength`. -/
def substring (heap : Heap) (s : ElString) (start stop : Int) : ElString × ElString :=
  if s.isNull then (ofCstr heap none, s)
  else if start < 0 ∨ stop ≤ 0 then (ofCstr heap (some []), s)
  else if s.isNullOrEmpty then (ofCstr heap (some []), s)
  else
    let byteCount := (s.getByteLength : Int)
    let (charCount, s) := s.getLength
    let stop := min charCount stop
    if start ≥ stop then (ofCstr heap (some []), s)
    else if start = 0 ∧ stop = charCount then (ofCstr heap s.mString, s)
    else
      let (p1, p2) :=
        if start = byteCount then (byteCount, byteCount + 1)
        else substringLoop s.data.length start stop s.data.length s.data 0 0 (byteCount + 1) 0
      (ofBytes heap (some (s.data.drop p1.toNat)) (min byteCount p2 - p1), s)

end ElString

/-! ## The text of an object -/

/-- The allocator has memory for a buffer that holds the text. -/
def Heap.Grants (heap : Heap) (cs : List Char) : Prop :=
  heap.sharedBuffer ((utf8 cs).length + 1) = true

/-- What a new buffer for the text is. -/
def Heap.allocText (heap : Heap) (cs : List Char) : Option Bytes :=
  if heap.sharedBuffer ((utf8 cs).length + 1) then some (cText cs) else none

/-- The characters with an index from `start` up to `stop`; none if `start` is
negative. -/
def slice (cs : List Char) (start stop : Int) : List Char :=
  if start < 0 then [] else (cs.take stop.toNat).drop start.toNat

namespace ElString

/-- The bytes of `s` are the text `cs`; its cache can say anything. -/
structure HasText (s : ElString) (cs : List Char) : Prop where
  noNul : NoNul cs
  buffer : s.mString = none ∧ cs = [] ∨ s.mString = some (cText cs)
  small : (utf8 cs).length + 1 < 2 ^ 31

theorem Holds.hasText {s : ElString} {cs : List Char} (h : s.Holds cs) : s.HasText cs :=
  ⟨h.noNul, h.buffer, h.small⟩

/-- The cached length, if it is used, is the number of characters. -/
def CacheRight (s : ElString) (cs : List Char) : Prop :=
  cs ≠ [] → s.isCounted = true → (0x7FFFFFFF &&& s.mCharCount).toNat = cs.length

theorem Holds.cacheRight {s : ElString} {cs : List Char} (h : s.Holds cs) : s.CacheRight cs :=
  fun _ hc => h.counted hc

section HasText

variable {s : ElString} {cs : List Char}

namespace HasText

theorem clearCounted (h : s.HasText cs) : s.clearCounted.Holds cs :=
  ⟨h.noNul, h.buffer, h.small, fun hc => absurd hc (by simp [ElString.clearCounted, isCounted])⟩

theorem data_eq (h : s.HasText cs) (hne : cs ≠ []) : s.data = cText cs :=
  h.clearCounted.data_eq hne

theorem contents_eq (h : s.HasText cs) : s.contents = utf8 cs :=
  h.clearCounted.contents_eq

theorem isNullOrEmpty_iff (h : s.HasText cs) : s.isNullOrEmpty = true ↔ cs = [] :=
  h.clearCounted.isNullOrEmpty_iff

theorem getByteLength_eq (h : s.HasText cs) : s.getByteLength = (utf8 cs).length :=
  h.clearCounted.getByteLength_eq

theorem length_lt (h : s.HasText cs) : cs.length < 2 ^ 31 - 1 := h.clearCounted.length_lt

/-- `GetLength` leaves the bytes alone. -/
theorem getLength_snd (h : s.HasText cs) : s.getLength.2.HasText cs :=
  ⟨h.noNul, by rw [getLength_mString]; exact h.buffer, h.small⟩

/-- `GetLength` is right exactly if the cache is. -/
theorem getLength_iff (h : s.HasText cs) : s.getLength.1 = cs.length ↔ s.CacheRight cs := by
  by_cases hcs : cs = []
  · have : s.getLength = (0, s) := by rw [getLength, if_pos (h.isNullOrEmpty_iff.mpr hcs)]
    rw [this, hcs]
    exact ⟨fun _ hne => absurd rfl hne, fun _ => rfl⟩
  · have hempty : ¬ s.isNullOrEmpty = true := mt h.isNullOrEmpty_iff.mp hcs
    rw [getLength, if_neg hempty]
    by_cases hc : s.isCounted = true
    · rw [if_pos hc]
      constructor
      · intro heq _ _
        exact Int.natCast_inj.mp heq
      · intro hright
        exact congrArg Nat.cast (hright hcs hc)
    · rw [if_neg hc]
      have hle := length_le_length_utf8 cs
      have hcount : countLoop s.data.length s.data 0 = cs.length := by
        rw [h.data_eq hcs, countLoop_cText h.noNul (by rw [length_cText]; omega)]
        omega
      exact ⟨fun _ _ hc' => absurd hc' hc, fun _ => hcount⟩

end HasText

end HasText

/-! ## The loops

Each loop stands at the first byte of the character with index `i`, and what is
left of the text from there is `cs`. -/

section Loops

variable {cs : List Char} {fuel : Nat} {i : Int}

theorem toNat_sub_succ {a i : Int} {n : Nat} (h : (a - i).toNat = n + 1) :
    (a - (i + 1)).toNat = n := by
  omega

/-- The loop of `GetChars` collects the characters from `start` to `stop`. -/
theorem getCharsLoop_slice (hn : NoNul cs) (hf : cs.length < fuel) {start stop : Int}
    (hi : i < stop) (hstop : stop ≤ i + cs.length) (byteLength : Nat) (array : List Char32) :
    (getCharsLoop start stop fuel { p := cText cs, i, byteLength, array }).array =
      array ++ ((cs.take (stop - i).toNat).drop (start - i).toNat).map Char.val := by
  induction cs generalizing fuel i byteLength array with
  | nil =>
    rw [List.length_nil] at hstop
    omega
  | cons c cs ih =>
    rw [List.length_cons] at hf hstop
    obtain ⟨fuel, rfl⟩ : ∃ f, fuel = f + 1 := ⟨fuel - 1, by omega⟩
    obtain ⟨h0, hlen, hchar, hmore, hdrop⟩ := cText_at hn
    obtain ⟨n, hstopN⟩ : ∃ n, (stop - i).toNat = n + 1 := ⟨(stop - i).toNat - 1, by omega⟩
    have hnext := toNat_sub_succ hstopN
    simp only [getCharsLoop, if_neg h0, hlen, hchar, if_neg hmore, hdrop, if_pos hi]
    rw [hstopN, List.take_succ_cons]
    by_cases hstart : i < start
    · obtain ⟨m, hstartN⟩ : ∃ m, (start - i).toNat = m + 1 := ⟨(start - i).toNat - 1, by omega⟩
      rw [if_pos hstart, hstartN, List.drop_succ_cons]
      by_cases hend : i + 1 ≥ stop
      · obtain rfl : n = 0 := by omega
        rw [if_pos hend]
        simp
      · rw [if_neg hend, ih hn.tail (by omega) (by omega) (by omega), hnext, toNat_sub_succ hstartN]
    · have hz : (start - i).toNat = 0 := by omega
      rw [if_neg hstart, hz, List.drop_zero]
      by_cases hend : i + 1 ≥ stop
      · obtain rfl : n = 0 := by omega
        rw [if_pos hend]
        simp
      · have hz' : (start - (i + 1)).toNat = 0 := by omega
        rw [if_neg hend, ih hn.tail (by omega) (by omega) (by omega), hnext, hz', List.drop_zero,
          List.map_cons, List.append_assoc, List.singleton_append]

/-- The loop of `GetChar` finds the character. -/
theorem charAtLoop_spec (hn : NoNul cs) (hf : cs.length < fuel) {index : Int} (hi : i ≤ index) :
    charAtLoop index fuel (cText cs) i =
      (cs[(index - i).toNat]?.map Char.val).getD invalidChar := by
  induction cs generalizing fuel i with
  | nil =>
    obtain ⟨fuel, rfl⟩ : ∃ f, fuel = f + 1 := ⟨fuel - 1, by omega⟩
    simp [charAtLoop, deref]
  | cons c cs ih =>
    rw [List.length_cons] at hf
    obtain ⟨fuel, rfl⟩ : ∃ f, fuel = f + 1 := ⟨fuel - 1, by omega⟩
    obtain ⟨h0, hlen, hchar, hmore, hdrop⟩ := cText_at hn
    simp only [charAtLoop, if_neg h0, hlen, hchar, if_neg hmore, hdrop]
    by_cases heq : i = index
    · have hz : (index - i).toNat = 0 := by omega
      rw [if_pos heq, hz]
      rfl
    · obtain ⟨n, hn'⟩ : ∃ n, (index - i).toNat = n + 1 := ⟨(index - i).toNat - 1, by omega⟩
      rw [if_neg heq, ih hn.tail (by omega) (by omega), hn', toNat_sub_succ hn',
        List.getElem?_cons_succ]

/-- The loop of `CharIndexToByteIndex` counts the bytes before the character;
`done` is the number of those already passed. -/
theorem charIndexLoop_exact (hn : NoNul cs) (hf : cs.length < fuel) {index : Int} (hi : i ≤ index)
    {total done : Nat} (htotal : total = done + (cText cs).length) :
    charIndexLoop total index fuel (cText cs) i =
      if (index - i).toNat < cs.length then
        ((done + (utf8 (cs.take (index - i).toNat)).length : Nat) : Int)
      else -1 := by
  induction cs generalizing fuel i done with
  | nil =>
    obtain ⟨fuel, rfl⟩ : ∃ f, fuel = f + 1 := ⟨fuel - 1, by omega⟩
    simp [charIndexLoop, deref]
  | cons c cs ih =>
    rw [List.length_cons] at hf
    obtain ⟨fuel, rfl⟩ : ∃ f, fuel = f + 1 := ⟨fuel - 1, by omega⟩
    obtain ⟨h0, hlen, hchar, hmore, hdrop⟩ := cText_at hn
    simp only [charIndexLoop, if_neg h0, hlen, if_neg hmore, hdrop]
    by_cases heq : i = index
    · have hz : (index - i).toNat = 0 := by omega
      rw [if_pos heq, hz, if_pos (by simp), htotal]
      simp
    · obtain ⟨n, hn'⟩ : ∃ n, (index - i).toNat = n + 1 := ⟨(index - i).toNat - 1, by omega⟩
      have htotal' : total = (done + c.utf8Size) + (cText cs).length := by
        rw [htotal, cText_cons, List.length_append, String.length_utf8EncodeChar]
        omega
      rw [if_neg heq, ih hn.tail (by omega) (by omega) htotal', hn', toNat_sub_succ hn',
        List.length_cons, List.take_succ_cons, utf8_cons, List.length_append,
        String.length_utf8EncodeChar]
      simp only [Nat.add_lt_add_iff_right, Nat.add_assoc]

/-- The loop of `Substring` finds the first bytes of the characters `start` and
`stop`, if the text has them. -/
theorem substringLoop_spec (hn : NoNul cs) (hf : cs.length < fuel) {start stop : Int}
    (hlt : start < stop) (hi : i ≤ stop) {total done : Nat}
    (htotal : total = done + (cText cs).length) (p1 p2 : Int) :
    substringLoop total start stop fuel (cText cs) i p1 p2 done =
      (if i ≤ start ∧ (start - i).toNat < cs.length then
          ((done + (utf8 (cs.take (start - i).toNat)).length : Nat) : Int) else p1,
        if (stop - i).toNat < cs.length then
          ((done + (utf8 (cs.take (stop - i).toNat)).length : Nat) : Int) else p2) := by
  -- by induction on the characters that are left; `done` bytes have been passed
  induction cs generalizing fuel i done p1 with
  | nil =>
    obtain ⟨fuel, rfl⟩ : ∃ f, fuel = f + 1 := ⟨fuel - 1, by omega⟩
    simp [substringLoop, deref]
  | cons c cs ih =>
    rw [List.length_cons] at hf
    obtain ⟨fuel, rfl⟩ : ∃ f, fuel = f + 1 := ⟨fuel - 1, by omega⟩
    obtain ⟨h0, hlen, hchar, hmore, hdrop⟩ := cText_at hn
    have hsize : (cText (c :: cs)).length = c.utf8Size + (cText cs).length := by
      rw [cText_cons, List.length_append, String.length_utf8EncodeChar]
    have hdone : (total : Int) - (cText cs).length = ((done + c.utf8Size : Nat) : Int) := by
      omega
    simp only [substringLoop, if_neg h0, hlen, if_neg hmore, hdrop]
    by_cases heq : i = stop
    · -- `start` has been passed
      have hz : (stop - i).toNat = 0 := by omega
      rw [if_pos heq, if_neg (show ¬ i = start by omega), if_neg (show ¬ (i ≤ start ∧ _) by omega),
        hz, if_pos (by simp)]
      simp
    · obtain ⟨n, hstop⟩ : ∃ n, (stop - i).toNat = n + 1 := ⟨(stop - i).toNat - 1, by omega⟩
      rw [if_neg heq, hdone, ih hn.tail (by omega) (by omega) (by omega), hstop,
        toNat_sub_succ hstop, List.length_cons, List.take_succ_cons, utf8_cons, List.length_append,
        String.length_utf8EncodeChar]
      simp only [Nat.add_lt_add_iff_right, Nat.add_assoc, Prod.mk.injEq, and_true]
      -- the place of `start` is set here, later, or has been set
      by_cases hstart : i = start
      · have hz : (start - i).toNat = 0 := by omega
        rw [if_pos hstart, if_neg (show ¬ (i + 1 ≤ start ∧ _) by omega), hz,
          if_pos ⟨by omega, by omega⟩]
        simp
      · rw [if_neg hstart]
        by_cases hle : i ≤ start
        · obtain ⟨m, hstartN⟩ : ∃ m, (start - i).toNat = m + 1 := ⟨(start - i).toNat - 1, by omega⟩
          rw [hstartN, toNat_sub_succ hstartN, List.take_succ_cons, utf8_cons, List.length_append,
            String.length_utf8EncodeChar]
          simp only [hle, show i + 1 ≤ start by omega, true_and, Nat.add_lt_add_iff_right]
        · rw [if_neg (show ¬ (i + 1 ≤ start ∧ _) by omega), if_neg (show ¬ (i ≤ start ∧ _) by omega)]

/-- Past `offset` the loop of `Append` counts up to `numOfChars`. -/
theorem rangeLoop_counting (hn : NoNul cs) (hf : cs.length < fuel) {offset numOfChars j : Int}
    (hi : offset < i) (hj : j ≤ numOfChars) {total done : Nat}
    (htotal : total = done + (cText cs).length) (startByte : Int) :
    rangeLoop total offset numOfChars fuel (cText cs) i j startByte =
      (startByte,
        if (numOfChars - j).toNat < cs.length then
          ((done + (utf8 (cs.take (numOfChars - j).toNat)).length : Nat) : Int) else -1) := by
  induction cs generalizing fuel i j done with
  | nil =>
    obtain ⟨fuel, rfl⟩ : ∃ f, fuel = f + 1 := ⟨fuel - 1, by omega⟩
    simp [rangeLoop, deref]
  | cons c cs ih =>
    rw [List.length_cons] at hf
    obtain ⟨fuel, rfl⟩ : ∃ f, fuel = f + 1 := ⟨fuel - 1, by omega⟩
    obtain ⟨h0, hlen, hchar, hmore, hdrop⟩ := cText_at hn
    have hsize : (cText (c :: cs)).length = c.utf8Size + (cText cs).length := by
      rw [cText_cons, List.length_append, String.length_utf8EncodeChar]
    simp only [rangeLoop, if_neg h0, hlen, if_neg hmore, hdrop]
    by_cases heq : j = numOfChars
    · have hz : (numOfChars - j).toNat = 0 := by omega
      rw [if_pos heq, hz, if_pos (by simp), htotal]
      simp
    · obtain ⟨n, hnum⟩ : ∃ n, (numOfChars - j).toNat = n + 1 :=
        ⟨(numOfChars - j).toNat - 1, by omega⟩
      have htotal' : total = (done + c.utf8Size) + (cText cs).length := by omega
      rw [if_neg heq, if_neg (show ¬ i = offset by omega), if_pos (show i ≥ offset by omega),
        ih hn.tail (by omega) (by omega) (by omega) htotal', hnum, toNat_sub_succ hnum,
        List.length_cons, List.take_succ_cons, utf8_cons, List.length_append,
        String.length_utf8EncodeChar]
      simp only [Nat.add_lt_add_iff_right, Nat.add_assoc]

/-- Up to `offset` the loop of `Append` only walks. -/
theorem rangeLoop_exact (hn : NoNul cs) (hf : cs.length < fuel) {offset numOfChars : Int}
    (hi : i ≤ offset) (hnum : 0 < numOfChars) {total done : Nat}
    (htotal : total = done + (cText cs).length) :
    rangeLoop total offset numOfChars fuel (cText cs) i 0 (-1) =
      if (offset - i).toNat < cs.length then
        (((done + (utf8 (cs.take (offset - i).toNat)).length : Nat) : Int),
          if (offset - i).toNat + numOfChars.toNat < cs.length then
            ((done + (utf8 (cs.take ((offset - i).toNat + numOfChars.toNat))).length : Nat) : Int)
          else -1)
      else (-1, -1) := by
  -- by induction on the characters in front of `offset`
  induction cs generalizing fuel i done with
  | nil =>
    obtain ⟨fuel, rfl⟩ : ∃ f, fuel = f + 1 := ⟨fuel - 1, by omega⟩
    simp [rangeLoop, deref]
  | cons c cs ih =>
    rw [List.length_cons] at hf
    obtain ⟨fuel, rfl⟩ : ∃ f, fuel = f + 1 := ⟨fuel - 1, by omega⟩
    obtain ⟨h0, hlen, hchar, hmore, hdrop⟩ := cText_at hn
    have hsize : (cText (c :: cs)).length = c.utf8Size + (cText cs).length := by
      rw [cText_cons, List.length_append, String.length_utf8EncodeChar]
    have htotal' : total = (done + c.utf8Size) + (cText cs).length := by omega
    simp only [rangeLoop, if_neg h0, hlen, if_neg hmore, hdrop, if_neg (show ¬ 0 = numOfChars by omega)]
    by_cases heq : i = offset
    · -- the first of the characters to append
      have hz : (offset - i).toNat = 0 := by omega
      obtain ⟨n, hnumN⟩ : ∃ n, numOfChars.toNat = n + 1 := ⟨numOfChars.toNat - 1, by omega⟩
      have hleft : (numOfChars - (0 + 1)).toNat = n := by omega
      rw [if_pos heq, if_pos (show i ≥ offset by omega),
        rangeLoop_counting hn.tail (by omega) (by omega) (by omega) htotal', hz, hnumN, hleft,
        if_pos (show 0 < (c :: cs).length by simp), Nat.zero_add, List.length_cons,
        List.take_succ_cons, utf8_cons, List.length_append, String.length_utf8EncodeChar,
        show (total : Int) - (cText (c :: cs)).length = ((done + 0 : Nat) : Int) by omega]
      simp only [List.take_zero, utf8_nil, List.length_nil, Nat.add_lt_add_iff_right, Nat.add_assoc]
    · obtain ⟨m, hoff⟩ : ∃ m, (offset - i).toNat = m + 1 := ⟨(offset - i).toNat - 1, by omega⟩
      rw [if_neg heq, if_neg (show ¬ i ≥ offset by omega),
        ih hn.tail (by omega) (by omega) htotal', hoff, toNat_sub_succ hoff, List.length_cons,
        List.take_succ_cons, utf8_cons, List.length_append, String.length_utf8EncodeChar,
        show m + 1 + numOfChars.toNat = m + numOfChars.toNat + 1 by omega, List.take_succ_cons,
        utf8_cons, List.length_append, String.length_utf8EncodeChar]
      simp only [Nat.add_lt_add_iff_right]
      simp only [Nat.add_assoc]

/-- What is left of a text from an index. -/
theorem drop_eq_cons {cs : List Char} {n : Nat} {c : Char} {ds : List Char} (h : cs.drop n = c :: ds) :
    cs[n]? = some c ∧ cs.drop (n + 1) = ds := by
  constructor
  · have hget : (cs.drop n)[0]? = cs[n + 0]? := List.getElem?_drop
    rw [h] at hget
    exact hget.symm
  · rw [← List.drop_drop, h]
    rfl

/-- The loop of `IndexOf` finds the first character from `start` on that passes
the test. -/
theorem indexOfLoop_first {hit : Char32 → Bool} (hn : NoNul cs) (start : Nat) {n : Nat}
    {fuel : Nat} (hf : (cs.drop n).length < fuel) :
    First (fun k => ∃ c, cs[k]? = some c ∧ hit c.val = true) (max n start)
      (indexOfLoop hit start fuel (cText (cs.drop n)) n) := by
  induction fuel generalizing n with
  | zero => omega
  | succ fuel ih =>
    cases hd : cs.drop n with
    | nil =>
      have hlen : cs.length ≤ n := List.drop_eq_nil_iff.mp hd
      simp only [indexOfLoop, cText_nil, deref, List.headD_cons, if_true]
      apply First.none
      rintro k hk ⟨c, hc, -⟩
      rw [List.getElem?_eq_none (by omega)] at hc
      cases hc
    | cons c ds =>
      obtain ⟨hc, hnext⟩ := drop_eq_cons hd
      have hn' : NoNul (c :: ds) := hd ▸ hn.drop n
      obtain ⟨h0, hlen, hchar, hmore, hdrop⟩ := cText_at hn'
      rw [hd, List.length_cons] at hf
      have hrest := ih (n := n + 1) (by rw [hnext]; omega)
      rw [hnext, Nat.cast_add, Nat.cast_one] at hrest
      simp only [indexOfLoop, if_neg h0, hlen, hchar, if_neg hmore, hdrop]
      by_cases hlt : (n : Int) < start
      · rw [if_pos hlt]
        rwa [show max n start = max (n + 1) start by omega]
      · rw [if_neg hlt, show max n start = n by omega]
        rw [show max (n + 1) start = n + 1 by omega] at hrest
        cases hh : hit c.val with
        | true => exact First.here ⟨c, hc, hh⟩
        | false =>
          refine First.pass ?_ hrest
          rintro ⟨c', hc', hhit⟩
          rw [hc] at hc'
          cases hc'
          rw [hh] at hhit
          cases hhit

end Loops

/-! ## The members -/

section Parts

variable {cs : List Char} {start stop : Int}

theorem slice_of_le (h : stop ≤ start) : slice cs start stop = [] := by
  unfold slice
  split
  · rfl
  · apply List.drop_eq_nil_of_le
    rw [List.length_take]
    omega

theorem slice_min : slice cs start (min cs.length stop) = slice cs start stop := by
  unfold slice
  split
  · rfl
  · congr 1
    by_cases h : stop ≤ cs.length
    · rw [min_eq_right h]
    · rw [List.take_of_length_le (by omega), List.take_of_length_le (by omega)]

theorem slice_all : slice cs 0 cs.length = cs := by
  simp [slice]

theorem length_slice (cs : List Char) (start stop : Int) (h0 : 0 ≤ start) (hle : start ≤ stop)
    (hstop : stop ≤ cs.length) :
    (slice cs start stop).length = (stop - start).toNat := by
  rw [slice, if_neg (by omega), List.length_drop, List.length_take]
  omega

/-- A text is what lies before a slice, the slice and what lies behind it. -/
theorem take_slice_drop (cs : List Char) (h0 : 0 ≤ start) (hle : start ≤ stop) :
    cs.take start.toNat ++ slice cs start stop ++ cs.drop stop.toNat = cs := by
  rw [slice, if_neg (by omega)]
  conv_rhs => rw [← List.take_append_drop stop.toNat cs,
    ← List.take_append_drop start.toNat (cs.take stop.toNat)]
  rw [List.take_take, min_eq_left (by omega)]

theorem noNul_slice (hn : NoNul cs) (start stop : Int) : NoNul (slice cs start stop) := by
  unfold slice
  split
  · exact noNul_nil
  · exact (hn.take _).drop _

/-- The bytes up to a later character, less those up to an earlier one. -/
theorem length_utf8_slice (cs : List Char) (start stop : Int) (h0 : 0 ≤ start) (hle : start ≤ stop) :
    (utf8 (cs.take stop.toNat)).length =
      (utf8 (cs.take start.toNat)).length + (utf8 (slice cs start stop)).length := by
  have htake : cs.take stop.toNat = cs.take start.toNat ++ slice cs start stop := by
    rw [slice, if_neg (by omega)]
    conv_lhs => rw [← List.take_append_drop start.toNat (cs.take stop.toNat)]
    rw [List.take_take, min_eq_left (by omega)]
  rw [htake, utf8_append, List.length_append]

theorem length_utf8_take_le (cs : List Char) (n : Nat) : (utf8 (cs.take n)).length ≤ (utf8 cs).length := by
  conv_rhs => rw [← List.take_append_drop n cs]
  rw [utf8_append, List.length_append]
  omega

/-- The bytes from the character with index `n` on. -/
theorem drop_cText (n : Nat) : (cText cs).drop (utf8 (cs.take n)).length = cText (cs.drop n) := by
  have hsplit : cText cs = utf8 (cs.take n) ++ cText (cs.drop n) := by
    rw [cText, cText, ← List.append_assoc, ← utf8_append, List.take_append_drop]
  rw [hsplit, List.drop_left]

/-- The first bytes from there on are those of the slice. -/
theorem take_drop_cText (cs : List Char) (start stop : Int) (h0 : 0 ≤ start) (hle : start ≤ stop) :
    ((cText cs).drop (utf8 (cs.take start.toNat)).length).take (utf8 (slice cs start stop)).length =
      utf8 (slice cs start stop) := by
  have hsplit : cs.drop start.toNat = slice cs start stop ++ cs.drop stop.toNat := by
    have := take_slice_drop cs h0 hle
    rw [List.append_assoc] at this
    conv_lhs => rw [← this]
    by_cases hlen : start.toNat ≤ cs.length
    · rw [List.drop_left' (by rw [List.length_take]; omega)]
    · have hnil : slice cs start stop = [] := by
        rw [slice, if_neg (by omega)]
        apply List.drop_eq_nil_of_le
        rw [List.length_take]
        omega
      rw [hnil, List.drop_eq_nil_of_le (show cs.length ≤ stop.toNat by omega)]
      simp
  rw [drop_cText, hsplit, cText, utf8_append, List.append_assoc, List.take_left]

end Parts

section Members

variable {heap : Heap} {s : ElString} {cs : List Char}

theorem getChars_exact (h : s.HasText cs) (hr : s.CacheRight cs) (start stop : Int) :
    (s.getCharsRange start stop).1 = (slice cs start stop).map Char.val := by
  have hlen := h.getLength_iff.mpr hr
  simp only [getCharsRange, hlen]
  rw [← slice_min]
  by_cases hout : start ≥ min (cs.length : Int) stop ∨ start < 0
  · rw [if_pos hout]
    rcases hout with hge | hneg
    · rw [slice_of_le hge]
      rfl
    · rw [slice, if_pos hneg]
      rfl
  · rw [if_neg hout]
    have hne : cs ≠ [] := by
      rintro rfl
      simp only [List.length_nil] at hout
      omega
    have hle := length_le_length_utf8 cs
    have hloop := @getCharsLoop_slice cs (cText cs).length 0 h.noNul (by rw [length_cText]; omega)
      start (min cs.length stop) (by omega) (by omega) 0 []
    rw [Int.sub_zero, Int.sub_zero, List.nil_append] at hloop
    have hslice : slice cs start (min (cs.length : Int) stop) =
        (cs.take (min (cs.length : Int) stop).toNat).drop start.toNat := by
      rw [slice, if_neg (by omega)]
    have hfull := length_slice cs start (min (cs.length : Int) stop) (by omega) (by omega) (by omega)
    rw [hslice] at hfull ⊢
    rw [h.getLength_snd.data_eq hne, hloop, List.length_map, hfull, Nat.sub_self]
    simp

theorem getChar_exact (h : s.HasText cs) (index : Int) :
    s.getChar index =
      if index < 0 then invalidChar else (cs[index.toNat]?.map Char.val).getD invalidChar := by
  unfold getChar
  by_cases hcs : cs = []
  · have hempty := h.isNullOrEmpty_iff.mpr hcs
    simp [hempty, hcs]
  · have hempty : s.isNullOrEmpty = false := by
      rw [← Bool.not_eq_true]
      exact mt h.isNullOrEmpty_iff.mp hcs
    have hle := length_le_length_utf8 cs
    rw [hempty, Bool.false_or, h.data_eq hcs]
    by_cases hneg : index < 0
    · simp [hneg]
    · rw [decide_eq_false hneg, if_neg Bool.false_ne_true, if_neg hneg,
        charAtLoop_spec h.noNul (by rw [length_cText]; omega) (by omega), Int.sub_zero]

theorem toByteIndex_exact (h : s.HasText cs) (index : Int) :
    charIndexToByteIndex s.mString index =
      if 0 ≤ index ∧ index < cs.length then ((utf8 (cs.take index.toNat)).length : Int) else -1 := by
  rcases h.buffer with ⟨hnone, rfl⟩ | hbuf
  · rw [hnone, if_neg (by simp only [List.length_nil]; omega)]
    rfl
  · rw [hbuf]
    simp only [charIndexToByteIndex]
    by_cases hcs : cs = []
    · subst hcs
      rw [if_pos (Or.inl (by decide)), if_neg (by simp only [List.length_nil]; omega)]
    · have hne : deref (cText cs) ≠ 0 := by
        obtain ⟨c, ds, rfl⟩ := List.exists_cons_of_ne_nil hcs
        exact (cText_at h.noNul).1
      have hle := length_le_length_utf8 cs
      by_cases hneg : index < 0
      · rw [if_pos (Or.inr hneg), if_neg (by omega)]
      · rw [if_neg (not_or.mpr ⟨hne, hneg⟩), cString_cText h.noNul,
          charIndexLoop_exact h.noNul (by rw [length_cText]; omega) (by omega)
            (show (cText cs).length = 0 + (cText cs).length by omega), Int.sub_zero, Nat.zero_add]
        by_cases hlt : index.toNat < cs.length
        · rw [if_pos hlt, if_pos (by omega)]
        · rw [if_neg hlt, if_neg (by omega)]

theorem allocFromUTF8_text {input : Bytes} {numBytes : Int}
    (htake : input.take numBytes.toNat = utf8 cs) (hlen : numBytes = (utf8 cs).length)
    (hpos : 0 < numBytes) : allocFromUTF8 heap input numBytes = heap.allocText cs := by
  have hsize : numBytes.toNat = (utf8 cs).length := by omega
  rw [allocFromUTF8, if_pos hpos, htake, hsize]
  rfl

theorem allocFromUTF8_granted (hmem : heap.Grants cs) {input : Bytes} {numBytes : Int}
    (htake : input.take numBytes.toNat = utf8 cs) (hlen : numBytes = (utf8 cs).length) :
    allocFromUTF8 heap input numBytes = some (cText cs) := by
  by_cases hpos : 0 < numBytes
  · rw [allocFromUTF8_text htake hlen hpos, Heap.allocText,
      if_pos (show heap.sharedBuffer _ = true from hmem)]
  · have hcs : cs = [] := by
      by_contra hne
      have := length_utf8_pos hne
      omega
    rw [allocFromUTF8, if_neg hpos, hcs]
    rfl

theorem ofCstr_empty (heap : Heap) : (ofCstr heap (some [])).Holds [] := by
  have : ofCstr heap (some []) = { mString := some emptyString, mCharCount := 0 } := by
    simp [ofCstr, ofAlloc, allocFromUTF8, strlen]
  rw [this]
  exact holds_empty

/-- A buffer of a text that the allocator grants is small. -/
theorem holds_of_granted (hb : heap.Bounded) (hmem : heap.Grants cs) (hn : NoNul cs) :
    Holds { mString := some (cText cs), mCharCount := 0 } cs :=
  holds_of_buffer hn (hb.lt hmem)

/-- A proper part of the text, cut by `Substring`. -/
theorem substring_cut (h : s.HasText cs) (hr : s.CacheRight cs) {start stop : Int} (h0 : 0 ≤ start)
    (hlt : start < stop) (hstop : stop ≤ cs.length) :
    (s.substring heap start stop).1 = ofAlloc (heap.allocText (slice cs start stop)) := by
  have hlen := h.getLength_iff.mpr hr
  have hne : cs ≠ [] := by
    rintro rfl
    simp only [List.length_nil] at hstop
    omega
  have hempty := mt h.isNullOrEmpty_iff.mp hne
  have hbuf : s.mString = some (cText cs) := by
    rcases h.buffer with ⟨-, hnil⟩ | hbuf
    · exact absurd hnil hne
    · exact hbuf
  have hnotnull : s.isNull = false := by simp [isNull, hbuf]
  have hle := length_le_length_utf8 cs
  simp only [substring, hnotnull, Bool.false_eq_true, if_false, hlen, min_eq_right hstop]
  rw [if_neg (by omega), if_neg hempty, if_neg (by omega)]
  have hpart := length_slice cs start stop h0 (by omega) hstop
  have hpos : (slice cs start stop).length ≤ (utf8 (slice cs start stop)).length :=
    length_le_length_utf8 _
  -- the whole string is copied without a look at its characters
  by_cases hall : start = 0 ∧ stop = cs.length
  · obtain ⟨rfl, rfl⟩ := hall
    rw [slice_all] at hpart hpos ⊢
    have hstr : strlen (cText cs) = (utf8 cs).length := by rw [strlen, takeWhile_cText h.noNul]
    rw [if_pos ⟨rfl, rfl⟩, getLength_mString, hbuf, ofCstr, hstr,
      allocFromUTF8_text (by rw [Int.toNat_natCast, cText, List.take_left]) rfl (by omega)]
  · -- `start` is below the number of characters, so it is not the number of bytes
    have hloop := @substringLoop_spec cs (cText cs).length 0 h.noNul (by rw [length_cText]; omega)
      start stop hlt (by omega) (cText cs).length 0 (by omega) 0 ((utf8 cs).length + 1)
    rw [Nat.cast_zero] at hloop
    rw [if_neg hall, h.getLength_snd.data_eq hne, h.getByteLength_eq,
      if_neg (show ¬ start = ((utf8 cs).length : Int) by omega), hloop]
    simp only [Int.sub_zero, Nat.zero_add, Int.toNat_natCast,
      show (0 ≤ start ∧ start.toNat < cs.length) by omega, if_true, and_self]
    have hcut := length_utf8_slice cs start stop h0 (by omega)
    have hwhole := length_utf8_take_le cs stop.toNat
    have hend : min ((utf8 cs).length : Int)
        (if stop.toNat < cs.length then ((utf8 (cs.take stop.toNat)).length : Int)
          else (utf8 cs).length + 1) = (utf8 (cs.take stop.toNat)).length := by
      split
      · omega
      · rw [List.take_of_length_le (by omega)]
        omega
    have hn : ((utf8 (cs.take stop.toNat)).length : Int) - (utf8 (cs.take start.toNat)).length =
        (utf8 (slice cs start stop)).length := by omega
    rw [hend, hn]
    simp only [ofBytes]
    rw [if_pos (by omega), allocFromUTF8_text
      (by rw [Int.toNat_natCast, take_drop_cText cs start stop h0 (by omega)]) rfl (by omega)]

/-- `Substring` gives the slice. -/
theorem substring_exact (hb : heap.Bounded) (h : s.HasText cs) (hr : s.CacheRight cs)
    {start stop : Int} (hmem : heap.Grants (slice cs start stop)) :
    (s.substring heap start stop).1.Holds (slice cs start stop) := by
  have hlen := h.getLength_iff.mpr hr
  rcases h.buffer with ⟨hnone, rfl⟩ | hbuf
  · have hnil : slice [] start stop = [] := by simp [slice]
    simp only [substring, isNull, hnone, Option.isNone_none, if_true, hnil]
    exact holds_null
  have hnotnull : s.isNull = false := by simp [isNull, hbuf]
  simp only [substring, hnotnull, Bool.false_eq_true, if_false, hlen]
  by_cases hneg : start < 0 ∨ stop ≤ 0
  · have hnil : slice cs start stop = [] := by
      rcases hneg with h1 | h1
      · rw [slice, if_pos h1]
      · unfold slice
        split
        · rfl
        · exact List.drop_eq_nil_of_le (by rw [List.length_take]; omega)
    rw [if_pos hneg, hnil]
    exact ofCstr_empty heap
  by_cases hempty : s.isNullOrEmpty = true
  · obtain rfl : cs = [] := h.isNullOrEmpty_iff.mp hempty
    have hnil : slice [] start stop = [] := by simp [slice]
    rw [if_neg hneg, if_pos hempty, hnil]
    exact ofCstr_empty heap
  have hne : cs ≠ [] := mt h.isNullOrEmpty_iff.mpr hempty
  rw [if_neg hneg, if_neg hempty, ← slice_min]
  rw [← slice_min] at hmem
  by_cases hout : start ≥ min (cs.length : Int) stop
  · rw [if_pos hout, slice_of_le hout]
    exact ofCstr_empty heap
  have hcut := @substring_cut heap s cs h hr start (min (cs.length : Int) stop) (by omega) (by omega)
    (by omega)
  rw [substring, if_neg (by simp [hnotnull]), if_neg (by omega), if_neg hempty] at hcut
  simp only [hlen, show min (cs.length : Int) (min (cs.length : Int) stop) =
    min (cs.length : Int) stop by omega] at hcut
  rw [hcut, Heap.allocText, if_pos (show heap.sharedBuffer _ = true from hmem)]
  exact holds_of_granted hb hmem (noNul_slice h.noNul _ _)

/-- `IndexOf(Char32, Int32)` finds the first of the characters that pass the
test, from `start` on. -/
theorem indexOf_first (h : s.HasText cs) (hit : Char32 → Bool) {target : Char32}
    (hvalid : isValidChar target = true) (start : Int) :
    First (fun k => ∃ c, cs[k]? = some c ∧ hit c.val = true) start.toNat
      (s.indexOf hit target start).1 := by
  have hle := length_le_length_utf8 cs
  simp only [indexOf, hvalid, Bool.not_true, Bool.false_eq_true, if_false, h.getByteLength_eq]
  by_cases hout : max 0 start ≥ ((utf8 cs).length : Int)
  · rw [if_pos hout]
    apply First.none
    rintro k hk ⟨c, hc, -⟩
    rw [List.getElem?_eq_none (by omega)] at hc
    cases hc
  · have hne : cs ≠ [] := by
      rintro rfl
      simp only [utf8_nil, List.length_nil] at hout
      omega
    have hstart : max 0 start = (start.toNat : Int) := by omega
    have hloop := @indexOfLoop_first cs hit h.noNul start.toNat 0 (cText cs).length
      (by rw [List.drop_zero, length_cText]; omega)
    rw [Nat.zero_max, List.drop_zero, Nat.cast_zero] at hloop
    rw [if_neg hout, h.data_eq hne, hstart]
    exact hloop

end Members

end ElString

end SuperExe.Elastos
