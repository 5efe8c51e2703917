import SuperExe.Elastos.Accessors

/-! # Code points in and out

What is appended to a string is read back: an array of code points, without the
values that are none, and a range of the characters of another string. With the
accessors of the last module this is the view of a string as a sequence of code
points. It is exact as long as the cached length is right and a string is not
appended to itself.
-/

namespace SuperExe.Elastos

open SuperExe.Core SuperExe.Lib

namespace ElString

section Append

variable {heap : Heap} {s other : ElString} {cs ds : List Char}

/-- `RealAppend` forgets the count at once. -/
theorem realAppend_clearCounted (s : ElString) (input : Bytes) {n : Nat} (hn : 0 < n) :
    s.realAppend heap input n = s.clearCounted.realAppend heap input n := by
  simp only [realAppend, if_neg (show ¬ ((n : Int) ≤ 0) by omega)]
  rfl

/-- `RealAppend` of a text, with memory. -/
theorem realAppend_granted (h : s.HasText cs) {input : Bytes}
    (htake : input.take (utf8 ds).length = utf8 ds) (hne : ds ≠ [])
    (hmem : heap.Grants (cs ++ ds)) :
    s.realAppend heap input (utf8 ds).length =
      (.noError, { mString := some (cText (cs ++ ds)), mCharCount := 0 }) := by
  have hpos := length_utf8_pos hne
  have hmem' : heap.sharedBuffer ((utf8 cs).length + (utf8 ds).length + 1) = true := by
    rw [← List.length_append, ← utf8_append]
    exact hmem
  rw [realAppend_clearCounted s input hpos, realAppend_eq h.clearCounted input hpos, if_pos hmem',
    htake, cText, utf8_append]

/-- `Append(const char*, Int32)` of a text, with memory. -/
theorem appendBytes_granted (h : s.HasText cs) {input : Bytes} (hn : NoNul ds)
    (htake : input.take (utf8 ds).length = utf8 ds) (hne : ds ≠ [])
    (hmem : heap.Grants (cs ++ ds)) :
    s.appendBytes heap input (utf8 ds).length none =
      (.noError, { mString := some (cText (cs ++ ds)), mCharCount := 0 }) := by
  have hpos := length_utf8_pos hne
  have hstr := le_strlen hn htake
  rw [appendBytes, if_neg (by omega), h.getByteLength_eq]
  by_cases hcs : (utf8 cs).length = 0
  · have hnil : cs = [] := by
      by_contra hcs'
      have := length_utf8_pos hcs'
      omega
    subst hnil
    rw [List.nil_append] at hmem ⊢
    rw [if_pos hcs, setToBytes, allocFromUTF8_granted hmem (by rwa [Int.toNat_natCast]) rfl]
  · rw [if_neg hcs, Option.getD_none, Int.min_eq_right (by omega)]
    exact realAppend_granted h htake hne hmem

/-- The bytes `Append(const String&, Int32, Int32)` takes from the other
string. -/
theorem rangeLoop_slice (ho : other.HasText ds) (hne : ds ≠ []) {offset numOfChars : Int}
    (hnum : 0 < numOfChars) (h0 : 0 ≤ offset) (hlt : offset < ds.length) :
    rangeLoop (cString other.data).length offset numOfChars (cString other.data).length
        (cString other.data) 0 0 (-1) =
      (((utf8 (ds.take offset.toNat)).length : Int),
        if offset.toNat + numOfChars.toNat < ds.length then
          ((utf8 (ds.take (offset.toNat + numOfChars.toNat))).length : Int)
        else -1) := by
  have hle := length_le_length_utf8 ds
  rw [ho.data_eq hne, cString_cText ho.noNul, rangeLoop_exact ho.noNul
    (by rw [length_cText]; omega) h0 hnum
    (show (cText ds).length = 0 + (cText ds).length by omega)]
  simp only [Int.sub_zero, Nat.zero_add]
  rw [if_pos (show offset.toNat < ds.length by omega)]

/-- Without a character at `offset` there is no first byte. -/
theorem rangeLoop_outside (ho : other.HasText ds) (hne : ds ≠ []) {offset numOfChars : Int}
    (hnum : 0 < numOfChars) (hout : offset < 0 ∨ (ds.length : Int) ≤ offset) :
    (rangeLoop (cString other.data).length offset numOfChars (cString other.data).length
      (cString other.data) 0 0 (-1)).1 = -1 := by
  have hle := length_le_length_utf8 ds
  have htotal : (cText ds).length = 0 + (cText ds).length := by omega
  rw [ho.data_eq hne, cString_cText ho.noNul]
  rcases hout with hneg | hge
  · rw [rangeLoop_counting ho.noNul (by rw [length_cText]; omega) hneg (by omega) htotal]
  · rw [rangeLoop_exact ho.noNul (by rw [length_cText]; omega) (by omega) hnum htotal, if_neg]
    omega

/-- The call has something to append, and the other string has the character it
starts with. -/
def RangeStarts (ds : List Char) (offset numOfChars : Int) : Prop :=
  ds ≠ [] ∧ 0 < numOfChars ∧ 0 ≤ offset ∧ offset < ds.length

theorem slice_ne_nil {offset numOfChars : Int} (h : RangeStarts ds offset numOfChars) :
    slice ds offset (offset + numOfChars) ≠ [] := by
  obtain ⟨-, hnum, h0, hlt⟩ := h
  rw [slice, if_neg (by omega)]
  intro hnil
  have := List.drop_eq_nil_iff.mp hnil
  rw [List.length_take] at this
  omega

/-- The slice is what `Append(const String&, Int32, Int32)` hands to
`Append(const char*, Int32)`; without a first character it reports an
error. -/
theorem appendRange_eq (s : ElString) (ho : other.HasText ds) (offset numOfChars : Int)
    (stale : Option Bytes) :
    (RangeStarts ds offset numOfChars →
      s.appendRange heap other offset numOfChars stale =
        s.appendBytes heap ((cText ds).drop (utf8 (ds.take offset.toNat)).length)
          (utf8 (slice ds offset (offset + numOfChars))).length stale) ∧
    (ds = [] ∨ numOfChars ≤ 0 →
      s.appendRange heap other offset numOfChars stale = (.noError, s)) ∧
    (ds ≠ [] → 0 < numOfChars → offset < 0 ∨ (ds.length : Int) ≤ offset →
      s.appendRange heap other offset numOfChars stale = (.invalidArgument, s)) := by
  refine ⟨?_, ?_, ?_⟩
  · rintro ⟨hne, hnum, h0, hlt⟩
    have hloop := rangeLoop_slice ho hne hnum h0 hlt
    have hstr : strlen (cText ds) = (utf8 ds).length := by rw [strlen, takeWhile_cText ho.noNul]
    have hcut := length_utf8_slice ds offset (offset + numOfChars) h0 (by omega)
    have hadd : (offset + numOfChars).toNat = offset.toNat + numOfChars.toNat := by omega
    simp only [appendRange, if_neg (mt ho.isNullOrEmpty_iff.mp hne),
      if_neg (show ¬ numOfChars ≤ 0 by omega), hloop]
    rw [if_neg (by omega), Int.toNat_natCast, ho.data_eq hne]
    congr 1
    -- the end that was found, or the end of the text
    rw [hadd] at hcut
    by_cases hin : offset.toNat + numOfChars.toNat < ds.length
    · rw [if_pos hin, if_neg (by omega)]
      omega
    · rw [List.take_of_length_le (by omega)] at hcut
      rw [if_neg hin, if_pos (by decide), hstr]
      omega
  · rintro (rfl | hnum)
    · rw [appendRange, if_pos (ho.isNullOrEmpty_iff.mpr rfl)]
    · rw [appendRange]
      split_ifs
      · rfl
      · rfl
  · intro hne hnum hout
    have hloop := rangeLoop_outside ho hne hnum hout
    simp only [appendRange, if_neg (mt ho.isNullOrEmpty_iff.mp hne),
      if_neg (show ¬ numOfChars ≤ 0 by omega), hloop]
    rfl

end Append

/-! ## Arrays of code points -/

section Arrays

variable {heap : Heap} {s : ElString} {cs : List Char} {array : List Char32}

/-- The elements of an array that a call with `offset` and `length` is about. -/
def arrayPart (array : List Char32) (offset length : Int) : List Char32 :=
  (array.drop (max 0 offset).toNat).take length.toNat

theorem arrayPart_all (array : List Char32) : arrayPart array 0 array.length = array := by
  simp [arrayPart]

/-- The characters of an array are those of its valid code points. -/
theorem map_val_filterMap (chars : List Char32) :
    (chars.filterMap charOf).map Char.val = chars.filter isValidChar := by
  induction chars with
  | nil => rfl
  | cons v chars ih =>
    cases hv : charOf v with
    | none =>
      have hinvalid : ¬ isValidChar v = true := by
        intro hvalid
        rw [charOf, dif_pos ((isValidChar_iff v).mp hvalid)] at hv
        cases hv
      rw [List.filterMap_cons_none hv, List.filter_cons, if_neg hinvalid, ih]
    | some c =>
      have hval := charOf_eq_some.mp hv
      have hvalid : isValidChar v = true := by
        rw [← hval]
        exact (isValidChar_iff _).mpr c.valid
      rw [List.filterMap_cons_some hv, List.filter_cons, if_pos hvalid, List.map_cons, ih, hval]

/-- `Append(ArrayOf<Char32>)` puts the valid code points behind the text. -/
theorem appendCharsRange_holds (hb : heap.Bounded) (hcounts : heap.byteCounts = true)
    (hbytes : heap.byteArray = true) (h : s.Holds cs) (harr : ∀ v ∈ array, v ≠ 0)
    {offset length : Int} (hmem : heap.Grants (cs ++ (arrayPart array offset length).filterMap charOf)) :
    (s.appendCharsRange heap array offset length).2.Holds
      (cs ++ (arrayPart array offset length).filterMap charOf) := by
  have hpart : (array.drop (max 0 offset).toNat).take
      (min ((array.length : Int) - max 0 offset) length).toNat = arrayPart array offset length := by
    unfold arrayPart
    by_cases hle : length ≤ (array.length : Int) - max 0 offset
    · rw [min_eq_right hle]
    · rw [List.take_of_length_le (by rw [List.length_drop]; omega),
        List.take_of_length_le (by rw [List.length_drop]; omega)]
  have hnz : ∀ v ∈ arrayPart array offset length, v ≠ 0 := fun v hv =>
    harr v (List.mem_of_mem_drop (List.mem_of_mem_take hv))
  simp only [appendCharsRange, hpart, hcounts, hbytes, Bool.not_true, Bool.false_eq_true, if_false]
  split
  · -- past the end of the array
    have hnil : arrayPart array offset length = [] := by
      unfold arrayPart
      rw [List.drop_eq_nil_of_le (by omega), List.take_nil]
    rw [hnil]
    simpa using h
  split
  · have hnil : arrayPart array offset length = [] := by
      rw [← hpart]
      have : (min ((array.length : Int) - max 0 offset) length).toNat = 0 := by omega
      rw [this, List.take_zero]
    rw [hnil]
    simpa using h
  -- what is written are the code points that are characters
  obtain ⟨hcount, hsum, hwritten⟩ := encoded_chars (arrayPart array offset length)
  have hds := noNul_filterMap hnz
  rw [hcount, hsum, hwritten]
  generalize (arrayPart array offset length).filterMap charOf = ds at hmem hds ⊢
  split
  -- nothing to append
  · next hzero =>
    have hnil : ds = [] := by
      by_contra hne
      have := length_utf8_pos hne
      omega
    rw [hnil]
    simpa using h
  · next hzero =>
    have hne : ds ≠ [] := by
      rintro rfl
      exact hzero rfl
    have hnew := holds_of_granted hb hmem (h.noNul.append hds)
    rw [realAppend_granted h.hasText List.take_length hne hmem]
    dsimp only
    split
    · next hnull =>
      have hcs : cs = [] := h.isNullOrEmpty_iff.mp hnull
      subst hcs
      exact hnew.setCounted
    · exact hnew.clearCounted

/-- What `GetChars()` reads back is what was valid of the array, for the
constructors and for `Append`. -/
theorem chars_round_trip (hb : heap.Bounded) (hcounts : heap.byteCounts = true)
    (hbytes : heap.byteArray = true) (harr : ∀ v ∈ array, v ≠ 0) :
    (heap.Grants (array.filterMap charOf) →
      ((ofChars heap array 0).getChars 0).1 = array.filter isValidChar) ∧
    (∀ offset length : Int, heap.Grants ((arrayPart array offset length).filterMap charOf) →
      ((ofCharsRange heap array offset length).getChars 0).1 =
        (arrayPart array offset length).filter isValidChar) ∧
    ∀ (s : ElString) (cs : List Char) (offset length : Int), s.Holds cs →
      heap.Grants (cs ++ (arrayPart array offset length).filterMap charOf) →
        ((s.appendCharsRange heap array offset length).2.getChars 0).1 =
          cs.map Char.val ++ (arrayPart array offset length).filter isValidChar := by
  have happend : ∀ (s : ElString) (cs : List Char) (offset length : Int), s.Holds cs →
      heap.Grants (cs ++ (arrayPart array offset length).filterMap charOf) →
        ((s.appendCharsRange heap array offset length).2.getChars 0).1 =
          cs.map Char.val ++ (arrayPart array offset length).filter isValidChar := by
    intro s cs offset length h hmem
    rw [getChars_spec (appendCharsRange_holds hb hcounts hbytes h harr hmem), List.map_append,
      map_val_filterMap]
  have hrange : ∀ offset length : Int,
      heap.Grants ((arrayPart array offset length).filterMap charOf) →
        ((ofCharsRange heap array offset length).getChars 0).1 =
          (arrayPart array offset length).filter isValidChar :=
    fun offset length hmem => happend _ [] offset length holds_empty hmem
  refine ⟨?_, hrange, happend⟩
  intro hmem
  have hall := hrange 0 array.length
  rw [arrayPart_all] at hall
  exact hall hmem

/-- One character of each length, a surrogate and a value above the last code
point. -/
def sampleChars : List Char32 := [0x41, 0xE9, 0xD800, 0x20AC, 0x110000, 0x1F600, 0x41]

theorem chars_round_trip_sample :
    ((ofChars enoughMemory sampleChars 0).getChars 0).1 = [0x41, 0xE9, 0x20AC, 0x1F600, 0x41] := by
  have hnz : ∀ v ∈ sampleChars, v ≠ 0 := by
    intro v hv
    simp only [sampleChars, List.mem_cons, List.not_mem_nil, or_false] at hv
    rcases hv with rfl | rfl | rfl | rfl | rfl | rfl | rfl <;> decide
  have hmem : enoughMemory.Grants (sampleChars.filterMap charOf) := by
    unfold Heap.Grants
    decide
  rw [(chars_round_trip enoughMemory_bounded rfl rfl hnz).1 hmem]
  decide

end Arrays

/-! ## The accessors -/

section Agree

variable {heap : Heap} {s other : ElString} {cs ds : List Char}

/-- Every accessor agrees with the list of the characters. -/
structure AccessorsAgree (heap : Heap) (s : ElString) (cs : List Char) : Prop where
  getLength : s.getLength.1 = cs.length
  getChar : ∀ index : Int, s.getChar index =
    if index < 0 then invalidChar else (cs[index.toNat]?.map Char.val).getD invalidChar
  getChars : ∀ start stop : Int, (s.getCharsRange start stop).1 = (slice cs start stop).map Char.val
  substring : ∀ start stop : Int, heap.Grants (slice cs start stop) →
    (s.substring heap start stop).1.contents = utf8 (slice cs start stop)
  toByteIndex : ∀ index : Int, charIndexToByteIndex s.mString index =
    if 0 ≤ index ∧ index < cs.length then ((utf8 (cs.take index.toNat)).length : Int) else -1
  indexOf : ∀ (target : Char32) (start : Int),
    First (fun k => ∃ c, cs[k]? = some c ∧ c.val = target) (max start 0).toNat
      (s.indexOf (fun ch => ch == target) target start).1

/-- `Append(other, offset, numOfChars)` appends the slice, or reports that the
offset is no index of `other` and changes nothing. -/
def AppendAgrees (heap : Heap) (s : ElString) (cs : List Char) (other : ElString) (ds : List Char)
    (stale : Option Bytes) : Prop :=
  ∀ offset numOfChars : Int,
    if ds ≠ [] ∧ 0 < numOfChars ∧ (offset < 0 ∨ (ds.length : Int) ≤ offset) then
      s.appendRange heap other offset numOfChars stale = (.invalidArgument, s)
    else
      heap.Grants (cs ++ slice ds offset (offset + numOfChars)) →
        (s.appendRange heap other offset numOfChars stale).1 = .noError ∧
        (s.appendRange heap other offset numOfChars stale).2.contents =
          utf8 (cs ++ slice ds offset (offset + numOfChars))

theorem accessors_agree (hb : heap.Bounded) (h : s.HasText cs) (hr : s.CacheRight cs) :
    AccessorsAgree heap s cs := by
  refine ⟨h.getLength_iff.mpr hr, getChar_exact h, getChars_exact h hr, ?_, toByteIndex_exact h, ?_⟩
  · intro start stop hmem
    exact (substring_exact hb h hr hmem).contents_eq
  · intro target start
    have hmax : (max start 0).toNat = start.toNat := by omega
    rw [hmax]
    cases hvalid : isValidChar target with
    | true =>
      refine (indexOf_first h (fun ch => ch == target) hvalid start).congr ?_
      intro k _
      simp only [beq_iff_eq]
    | false =>
      -- a value that is no code point stands nowhere in a text
      simp only [ElString.indexOf, hvalid, Bool.not_false, if_true]
      apply First.none
      rintro k - ⟨c, -, rfl⟩
      rw [(isValidChar_iff _).mpr c.valid] at hvalid
      cases hvalid

/-- Another string is appended as it should be. -/
theorem append_agrees (hb : heap.Bounded) (h : s.HasText cs) (ho : other.HasText ds)
    {stale : Option Bytes} (hstale : ∀ offset numOfChars, RangeStarts ds offset numOfChars →
      heap.Grants (cs ++ slice ds offset (offset + numOfChars)) → stale = none) :
    AppendAgrees heap s cs other ds stale := by
  intro offset numOfChars
  obtain ⟨hstarts, hnothing, hinvalid⟩ := @appendRange_eq heap other ds s ho offset numOfChars stale
  split
  · next hout => exact hinvalid hout.1 hout.2.1 hout.2.2
  · next hin =>
    intro hmem
    by_cases hrange : RangeStarts ds offset numOfChars
    · have hn := noNul_slice ho.noNul offset (offset + numOfChars)
      rw [hstarts hrange, hstale _ _ hrange hmem, appendBytes_granted h hn
        (take_drop_cText _ _ _ hrange.2.2.1 (by have := hrange.2.1; omega)) (slice_ne_nil hrange) hmem]
      exact ⟨rfl, (holds_of_granted hb hmem (h.noNul.append hn)).contents_eq⟩
    · have hnone : ds = [] ∨ numOfChars ≤ 0 := by
        by_contra hboth
        obtain ⟨hne, hnum⟩ := not_or.mp hboth
        by_cases hout : offset < 0 ∨ (ds.length : Int) ≤ offset
        · exact hin ⟨hne, by omega, hout⟩
        · exact hrange ⟨hne, by omega, by omega, by omega⟩
      have hnil : slice ds offset (offset + numOfChars) = [] := by
        rcases hnone with rfl | hnum
        · simp [slice]
        · exact slice_of_le (by omega)
      rw [hnothing hnone, hnil, List.append_nil]
      exact ⟨rfl, h.contents_eq⟩

/-- A block that has been given back can hold zeros, and then nothing is seen of
what was appended. -/
theorem append_stale (h : s.HasText cs) {es : List Char} (hne : es ≠ []) (hin : es <:+: cs)
    (hmem : heap.Grants (cs ++ es)) :
    ¬ AppendAgrees heap s cs s cs (some (List.replicate (utf8 es).length 0)) := by
  obtain ⟨as, bs, rfl⟩ := hin
  have hpos := List.length_pos_iff.mpr hne
  have hslice : slice (as ++ es ++ bs) as.length (as.length + es.length) = es := by
    have hstop : ((as.length : Int) + es.length).toNat = (as ++ es).length := by
      rw [List.length_append]
      omega
    rw [slice, if_neg (by omega), hstop, List.take_left, Int.toNat_natCast, List.drop_left]
  have hstarts : RangeStarts (as ++ es ++ bs) as.length es.length := by
    refine ⟨by simp [hne], by omega, by omega, ?_⟩
    rw [List.length_append, List.length_append]
    omega
  -- the call that appends this range would have to agree
  intro hall
  have hcall := hall as.length es.length
  obtain ⟨heq, -, -⟩ := @appendRange_eq heap s (as ++ es ++ bs) s h as.length es.length
    (some (List.replicate (utf8 es).length 0))
  rw [if_neg (by have := hstarts.2.2.2; omega), heq hstarts, hslice] at hcall
  have hn : NoNul es := fun c hc => h.noNul c (by simp [hc])
  have hes := length_utf8_pos hne
  have hcs := length_utf8_pos hstarts.1
  have htake := take_drop_cText (as ++ es ++ bs) as.length (as.length + es.length) (by omega)
    (by omega)
  rw [hslice] at htake
  have hstr := le_strlen hn htake
  have hsize : heap.sharedBuffer ((utf8 (as ++ es ++ bs)).length + (utf8 es).length + 1) = true := by
    rw [← List.length_append, ← utf8_append]
    exact hmem
  obtain ⟨-, htext⟩ := hcall hmem
  -- but what stands in the buffer before are zeros, so the text ends with the old string
  rw [appendBytes, if_neg (by omega), h.getByteLength_eq, if_neg (by omega), Option.getD_some,
    Int.min_eq_right (by omega), realAppend_clearCounted s _ hes,
    realAppend_eq h.clearCounted _ hes, if_pos hsize] at htext
  have hzeros : (utf8 (as ++ es ++ bs) ++ (List.replicate (utf8 es).length 0).take (utf8 es).length
      ++ [0]).takeWhile (· != 0) = utf8 (as ++ es ++ bs) := by
    obtain ⟨n, hn'⟩ : ∃ n, (utf8 es).length = n + 1 := ⟨(utf8 es).length - 1, by omega⟩
    rw [hn', List.append_assoc, List.takeWhile_append_of_pos]
    · simp [List.replicate_succ]
    · intro b hb
      simpa using ne_nul_of_mem_utf8 h.noNul b hb
  rw [contents, data, Option.getD_some, hzeros] at htext
  have hlen := congrArg List.length htext
  rw [utf8_append (as ++ es ++ bs) es, List.length_append] at hlen
  omega

/-- The string has one text. -/
theorem HasText.unique (h : s.HasText cs) (h' : s.HasText ds) : cs = ds :=
  utf8_injective (h.contents_eq.symm.trans h'.contents_eq)

/-- A string and what can be done with it by index agree with its text exactly
if its cache is right, and if it is not appended to itself where its buffer can
move. `self` says that `other` is the object itself. -/
theorem accessors_agree_iff (hb : heap.Bounded) (h : s.HasText cs) (ho : other.HasText ds)
    {self : Bool} (hself : self = true → other = s) :
    (AccessorsAgree heap s cs ∧
      ∀ stale, (self = false → stale = none) → AppendAgrees heap s cs other ds stale) ↔
    s.CacheRight cs ∧
      (self = true → ∀ es, es ≠ [] → es <:+: cs → ¬ heap.Grants (cs ++ es)) := by
  constructor
  · rintro ⟨hagree, happend⟩
    refine ⟨h.getLength_iff.mp hagree.getLength, ?_⟩
    intro hs es hne hin hmem
    obtain rfl := hself hs
    obtain rfl := ho.unique h
    refine append_stale h hne hin hmem (happend _ ?_)
    intro hfalse
    rw [hs] at hfalse
    cases hfalse
  · rintro ⟨hr, hmoves⟩
    refine ⟨accessors_agree hb h hr, ?_⟩
    intro stale hstale
    apply append_agrees hb h ho
    intro offset numOfChars hrange hmem
    cases hs : self with
    | false => exact hstale hs
    | true =>
      obtain rfl := hself hs
      obtain rfl := ho.unique h
      refine absurd hmem (hmoves hs _ (slice_ne_nil hrange) ?_)
      have h0 := hrange.2.2.1
      have hnum := hrange.2.1
      exact ⟨_, _, take_slice_drop _ h0 (by omega)⟩

/-- The string after `String s("a"); s.ByteIndexOf('b');`. -/
def missedString : ElString := ((ofCstr enoughMemory (some (bytes "a"))).byteIndexOf 98).2

/-- It still has the text `a`, and says it has 2^31 - 1 characters. -/
theorem accessors_missed_search :
    missedString.HasText ['a'] ∧ missedString.getLength.1 = 2147483647 ∧
    ¬ AccessorsAgree enoughMemory missedString ['a'] := by
  have hlength : missedString.getLength.1 = 2147483647 := by decide
  refine ⟨⟨by decide, Or.inr (by decide), by decide⟩, hlength, fun h => ?_⟩
  rw [h.getLength] at hlength
  exact absurd hlength (by decide)

/-- A string with a right cache, and another one of characters of one to four
bytes. -/
def mixedString : ElString := ofChars enoughMemory [0x41, 0xE9, 0x20AC, 0x1F600] 0

theorem accessors_agree_mixed :
    AccessorsAgree enoughMemory mixedString ['A', 'é', '€', '😀'] := by
  have h : mixedString.HasText ['A', 'é', '€', '😀'] :=
    ⟨by decide, Or.inr (by decide), by decide⟩
  have hother : false = true → mixedString.clearCounted = mixedString := fun hf => by cases hf
  refine ((accessors_agree_iff enoughMemory_bounded h h.clearCounted.hasText hother).mpr
    ⟨?_, fun hf => by cases hf⟩).1
  intro _ _
  decide

end Agree

end ElString

end SuperExe.Elastos
