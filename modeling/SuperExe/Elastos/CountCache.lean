import SuperExe.Elastos.ElString
import SuperExe.Lib.Trace
import Mathlib.Data.List.TakeWhile
import Mathlib.Logic.Function.Basic

/-! # The cached length of a string

`Holds s cs` says that the object `s` holds the text `cs`, and that its cache is
right if it is marked as counted. Each member of the class has one lemma that
says which text the object holds afterwards; the machine at the end runs any
sequence of calls over any number of strings.

`ByteIndexOf` is the exception: it marks the string as counted without having
counted.
-/

namespace SuperExe.Elastos

open SuperExe.Core SuperExe.Lib

/-- No buffer of 2 GiB or more: `malloc` never gives more than `PTRDIFF_MAX`
bytes, and the class keeps sizes in an `Int32`. -/
def Heap.Bounded (heap : Heap) : Prop := ∀ n, 2 ^ 31 ≤ n → heap.sharedBuffer n = false

theorem Heap.Bounded.lt {heap : Heap} (h : heap.Bounded) {n : Nat}
    (hn : heap.sharedBuffer n = true) : n < 2 ^ 31 := by
  by_contra hge
  rw [h n (by omega)] at hn
  exact Bool.false_ne_true hn

/-! ## Text with its NUL -/

/-- UTF-8 text without a NUL. -/
def IsText (b : Bytes) : Prop := ∃ cs, NoNul cs ∧ b = utf8 cs

/-- A text as it lies in a buffer. -/
def cText (cs : List Char) : Bytes := utf8 cs ++ [0]

section CText

variable {c : Char} {cs ds : List Char}

@[simp] theorem cText_nil : cText [] = [0] := rfl

theorem cText_cons (c : Char) (cs : List Char) :
    cText (c :: cs) = String.utf8EncodeChar c ++ cText cs := by
  simp [cText]

@[simp] theorem length_cText (cs : List Char) : (cText cs).length = (utf8 cs).length + 1 := by
  simp [cText]

theorem length_le_length_utf8 (cs : List Char) : cs.length ≤ (utf8 cs).length := by
  induction cs with
  | nil => exact Nat.le_refl 0
  | cons c cs ih =>
    have := c.utf8Size_pos
    rw [utf8_cons, List.length_append, String.length_utf8EncodeChar, List.length_cons]
    omega

theorem length_utf8_pos (h : cs ≠ []) : 0 < (utf8 cs).length := by
  have := length_le_length_utf8 cs
  have := List.length_pos_iff.mpr h
  omega

theorem ne_nul_of_mem_utf8 (h : NoNul cs) : ∀ b ∈ utf8 cs, b ≠ 0 := by
  intro b hb
  obtain ⟨c, hc, hb⟩ := List.mem_flatMap.mp hb
  exact (readsChar c).ne_nul (h c hc) b hb

theorem takeWhile_utf8 (h : NoNul cs) : (utf8 cs).takeWhile (· != 0) = utf8 cs := by
  rw [List.takeWhile_eq_self_iff]
  intro b hb
  simpa using ne_nul_of_mem_utf8 h b hb

theorem takeWhile_cText (h : NoNul cs) : (cText cs).takeWhile (· != 0) = utf8 cs := by
  rw [cText, List.takeWhile_append_of_pos]
  · simp
  · intro b hb
    simpa using ne_nul_of_mem_utf8 h b hb

theorem deref_append {p q : Bytes} (h : p ≠ []) : deref (p ++ q) = deref p := by
  cases p with
  | nil => exact absurd rfl h
  | cons b p => rfl

theorem deref_utf8_ne (h : NoNul cs) (hne : cs ≠ []) : deref (utf8 cs) ≠ 0 := by
  have hpos := length_utf8_pos hne
  have hmem := ne_nul_of_mem_utf8 h
  cases hu : utf8 cs with
  | nil =>
    rw [hu] at hpos
    exact absurd hpos (Nat.lt_irrefl 0)
  | cons b p =>
    rw [hu] at hmem
    exact hmem b List.mem_cons_self

/-- At a character the loops find a byte that is not NUL, the size of the
character, and more bytes after it. -/
theorem cText_at (h : NoNul (c :: cs)) :
    deref (cText (c :: cs)) ≠ 0 ∧ utf8SequenceLength (deref (cText (c :: cs))) = c.utf8Size ∧
    getCharInternal (cText (c :: cs)) = (c.val, c.utf8Size) ∧
    ¬ (c.utf8Size = 0 ∨ (cText (c :: cs)).length ≤ c.utf8Size) ∧
    (cText (c :: cs)).drop c.utf8Size = cText cs := by
  have hpos := c.utf8Size_pos
  refine ⟨?_, ?_, ?_, ?_, ?_⟩
  · have hne := deref_utf8_ne h (List.cons_ne_nil c cs)
    rwa [cText, deref_append]
    intro hnil
    rw [hnil] at hne
    exact hne rfl
  · rw [cText_cons]
    exact (readsChar c).sequenceLength _
  · rw [cText_cons]
    exact (readsChar c).getChar _
  · rw [length_cText, utf8_cons, List.length_append, String.length_utf8EncodeChar]
    omega
  · rw [cText_cons]
    exact List.drop_left' (String.length_utf8EncodeChar c)

theorem noNul_nil : NoNul [] := fun _ h => absurd h List.not_mem_nil

theorem NoNul.tail (h : NoNul (c :: cs)) : NoNul cs := fun d hd => h d (List.mem_cons_of_mem c hd)

/-- A byte string is the encoding of at most one text. -/
theorem utf8_injective : Function.Injective utf8 := by
  intro cs
  induction cs with
  | nil =>
    intro ds h
    cases ds with
    | nil => rfl
    | cons d ds =>
      have := length_utf8_pos (List.cons_ne_nil d ds)
      rw [← h] at this
      exact absurd this (Nat.lt_irrefl 0)
  | cons c cs ih =>
    intro ds h
    cases ds with
    | nil =>
      have := length_utf8_pos (List.cons_ne_nil c cs)
      rw [h] at this
      exact absurd this (Nat.lt_irrefl 0)
    | cons d ds =>
      rw [utf8_cons, utf8_cons] at h
      have hchar : (c.val, c.utf8Size) = (d.val, d.utf8Size) := by
        rw [← (readsChar c).getChar, ← (readsChar d).getChar, h]
      have hcd : c = d := Char.ext (Prod.ext_iff.mp hchar).1
      subst hcd
      rw [ih (List.append_cancel_left h)]

end CText

/-! ## The flag -/

section Flag

variable (s : ElString)

theorem isCounted_setCounted (n : Int) : (s.setCounted n).isCounted = true := by
  have h : ∀ x : UInt32, (x ||| 0x80000000) &&& 0x80000000 = 0x80000000 := by
    intro x
    apply UInt32.toNat_inj.mp
    simp only [UInt32.toNat_and, UInt32.toNat_or]
    apply Nat.eq_of_testBit_eq
    intro i
    rw [Nat.testBit_and, Nat.testBit_or]
    cases x.toNat.testBit i <;> simp
  simp only [ElString.isCounted, ElString.setCounted, h]
  decide

/-- `SetCounted` keeps the low 31 bits. -/
theorem low_setCounted (n : Int) :
    (0x7FFFFFFF &&& (s.setCounted n).mCharCount).toNat = (UInt32.ofInt n).toNat % 2 ^ 31 := by
  have h : ∀ x : UInt32, 0x7FFFFFFF &&& ((0x7FFFFFFF &&& x) ||| 0x80000000) = x &&& 0x7FFFFFFF := by
    intro x
    apply UInt32.toNat_inj.mp
    simp only [UInt32.toNat_and, UInt32.toNat_or, UInt32.reduceToNat]
    rw [Nat.and_or_distrib_left, ← Nat.and_assoc, Nat.and_self, Nat.and_comm]
    exact Nat.or_zero _
  rw [ElString.setCounted]
  simp only [h]
  exact toNat_and_mask _ _ (k := 31) (by decide)

theorem low_setCounted_nat {n : Nat} (h : n < 2 ^ 31) :
    (0x7FFFFFFF &&& (s.setCounted n).mCharCount).toNat = n := by
  rw [low_setCounted]
  have : (UInt32.ofInt (n : Int)).toNat = n := by
    rw [UInt32.ofInt, UInt32.toNat_ofNat']
    omega
  omega

end Flag

/-! ## What an object holds -/

namespace ElString

/-- The bytes of the C string, without its NUL. -/
def contents (s : ElString) : Bytes := s.data.takeWhile (· != 0)

/-- `s` holds the text `cs`, and its cache is right if it is marked as
counted. -/
structure Holds (s : ElString) (cs : List Char) : Prop where
  noNul : NoNul cs
  buffer : s.mString = none ∧ cs = [] ∨ s.mString = some (cText cs)
  small : (utf8 cs).length + 1 < 2 ^ 31
  counted : s.isCounted = true → (0x7FFFFFFF &&& s.mCharCount).toNat = cs.length

namespace Holds

variable {s : ElString} {cs ds : List Char}

theorem data_eq (h : s.Holds cs) (hne : cs ≠ []) : s.data = cText cs := by
  rcases h.buffer with ⟨-, hcs⟩ | hbuf
  · exact absurd hcs hne
  · rw [data, hbuf, Option.getD_some]

theorem contents_eq (h : s.Holds cs) : s.contents = utf8 cs := by
  rcases h.buffer with ⟨hnone, hcs⟩ | hbuf
  · simp [contents, data, hnone, hcs]
  · rw [contents, data, hbuf, Option.getD_some, takeWhile_cText h.noNul]

theorem isNullOrEmpty_iff (h : s.Holds cs) : s.isNullOrEmpty = true ↔ cs = [] := by
  rcases h.buffer with ⟨hnone, hcs⟩ | hbuf
  · simp [isNullOrEmpty, isNull, hnone, hcs]
  · have hd : s.data = cText cs := by rw [data, hbuf, Option.getD_some]
    cases cs with
    | nil => simp [isNullOrEmpty, hd, deref]
    | cons c cs =>
      have := (cText_at h.noNul).1
      simp [isNullOrEmpty, isNull, hbuf, hd, this]

theorem getByteLength_eq (h : s.Holds cs) : s.getByteLength = (utf8 cs).length := by
  by_cases hcs : cs = []
  · rw [getByteLength, if_pos (h.isNullOrEmpty_iff.mpr hcs), hcs]
    rfl
  · rw [getByteLength, if_neg (mt h.isNullOrEmpty_iff.mp hcs), h.data_eq hcs, length_cText]
    rfl

theorem length_lt (h : s.Holds cs) : cs.length < 2 ^ 31 - 1 := by
  have := length_le_length_utf8 cs
  have := h.small
  omega

/-- A string is held independently of a cache that is not in use. -/
theorem clearCounted (h : s.Holds cs) : s.clearCounted.Holds cs :=
  ⟨h.noNul, h.buffer, h.small, fun hc => absurd hc (by simp [ElString.clearCounted, isCounted])⟩

/-- The number of characters makes the cache right, whatever it was. -/
theorem of_setCounted (hn : NoNul cs) (hbuf : s.mString = none ∧ cs = [] ∨ s.mString = some (cText cs))
    (hsmall : (utf8 cs).length + 1 < 2 ^ 31) : (s.setCounted cs.length).Holds cs := by
  refine ⟨hn, hbuf, hsmall, fun _ => low_setCounted_nat s ?_⟩
  have := length_le_length_utf8 cs
  omega

theorem setCounted (h : s.Holds cs) : (s.setCounted cs.length).Holds cs :=
  of_setCounted h.noNul h.buffer h.small

end Holds

/-- `s` holds some text. -/
def Ok (s : ElString) : Prop := ∃ cs, s.Holds cs

theorem holds_null : null.Holds [] :=
  ⟨noNul_nil, Or.inl ⟨rfl, rfl⟩, by decide, fun h => absurd h (by decide)⟩

/-- A fresh buffer, not counted. -/
theorem holds_of_buffer {cs : List Char} (hn : NoNul cs) (hsmall : (utf8 cs).length + 1 < 2 ^ 31) :
    Holds { mString := some (cText cs), mCharCount := 0 } cs :=
  ⟨hn, Or.inr rfl, hsmall, fun h => absurd h (by simp [isCounted])⟩

/-! ## Counting and reading -/

theorem countLoop_cText {cs : List Char} (hn : NoNul cs) {fuel : Nat} (hf : cs.length < fuel)
    (k : Int) : countLoop fuel (cText cs) k = k + cs.length := by
  induction cs generalizing fuel k with
  | nil =>
    obtain ⟨fuel, rfl⟩ : ∃ f, fuel = f + 1 := ⟨fuel - 1, by omega⟩
    simp [countLoop, deref]
  | cons c cs ih =>
    rw [List.length_cons] at hf
    obtain ⟨fuel, rfl⟩ : ∃ f, fuel = f + 1 := ⟨fuel - 1, by omega⟩
    obtain ⟨h0, hlen, -, hmore, hdrop⟩ := cText_at hn
    simp only [countLoop, if_neg h0, hlen, if_neg hmore, hdrop]
    rw [ih hn.tail (by omega), List.length_cons]
    omega

section Reading

variable {s : ElString} {cs : List Char}

/-- `GetLength` counts the characters of the text, and the object is counted
afterwards unless it is empty. -/
theorem getLength_spec (h : s.Holds cs) :
    s.getLength.1 = cs.length ∧ s.getLength.2.Holds cs ∧
      (cs ≠ [] → s.getLength.2.isCounted = true) := by
  by_cases hcs : cs = []
  · have : s.getLength = (0, s) := by rw [getLength, if_pos (h.isNullOrEmpty_iff.mpr hcs)]
    rw [this]
    exact ⟨by simp [hcs], h, fun hne => absurd hcs hne⟩
  · rw [getLength, if_neg (mt h.isNullOrEmpty_iff.mp hcs)]
    by_cases hc : s.isCounted = true
    · rw [if_pos hc]
      exact ⟨by rw [h.counted hc], h, fun _ => hc⟩
    · have hcount : countLoop s.data.length s.data 0 = cs.length := by
        have := length_le_length_utf8 cs
        rw [h.data_eq hcs, countLoop_cText h.noNul (by rw [length_cText]; omega)]
        omega
      rw [if_neg hc]
      simp only [hcount]
      exact ⟨trivial, h.setCounted, fun _ => isCounted_setCounted s _⟩

/-- `GetChars` leaves the object as `GetLength` does. -/
theorem getCharsRange_state (h : s.Holds cs) (start stop : Int) :
    (s.getCharsRange start stop).2 = s.getLength.2 := by
  obtain ⟨hlen, -, hcounted⟩ := getLength_spec h
  simp only [getCharsRange]
  split
  · rfl
  · next hout =>
    have hne : cs ≠ [] := by
      rintro rfl
      rw [hlen] at hout
      simp only [List.length_nil] at hout
      omega
    rw [hcounted hne]
    rfl

theorem getCharsRange_holds (h : s.Holds cs) (start stop : Int) :
    (s.getCharsRange start stop).2.Holds cs := by
  rw [getCharsRange_state h]
  exact (getLength_spec h).2.1

theorem getChars_holds (h : s.Holds cs) (start : Int) : (s.getChars start).2.Holds cs :=
  getCharsRange_holds (getLength_spec h).2.1 start _

/-- From the start of the string the loop collects the characters one by
one. -/
theorem getCharsLoop_cText (hn : NoNul cs) {fuel : Nat} (hf : cs.length < fuel) {i stop : Int}
    (hi : 0 ≤ i) (hstop : i + cs.length = stop) (byteLength : Nat) (array : List Char32) :
    (getCharsLoop 0 stop fuel { p := cText cs, i, byteLength, array }).array =
      array ++ cs.map Char.val := by
  induction cs generalizing fuel i byteLength array with
  | nil =>
    obtain ⟨fuel, rfl⟩ : ∃ f, fuel = f + 1 := ⟨fuel - 1, by omega⟩
    simp [getCharsLoop, deref]
  | cons c cs ih =>
    rw [List.length_cons] at hf hstop
    obtain ⟨fuel, rfl⟩ : ∃ f, fuel = f + 1 := ⟨fuel - 1, by omega⟩
    obtain ⟨h0, -, hchar, hmore, hdrop⟩ := cText_at hn
    have h1 : ¬ i < 0 := by omega
    have h2 : i < stop := by omega
    simp only [getCharsLoop, if_neg h0, if_neg h1, if_pos h2, hchar, if_neg hmore, hdrop]
    by_cases hend : i + 1 ≥ stop
    · have hcs : cs = [] := List.length_eq_zero_iff.mp (by omega)
      rw [if_pos hend, hcs]
      rfl
    · rw [if_neg hend, ih hn.tail (by omega) (by omega) (by omega)]
      simp

/-- `GetChars()` gives the code points of the text. -/
theorem getChars_spec (h : s.Holds cs) : (s.getChars 0).1 = cs.map Char.val := by
  obtain ⟨hlen, hholds, -⟩ := getLength_spec h
  obtain ⟨hlen', hholds', -⟩ := getLength_spec hholds
  simp only [getChars, getCharsRange, hlen, hlen']
  by_cases hcs : cs = []
  · rw [if_pos (Or.inl (by simp [hcs])), hcs]
    rfl
  · have hpos := List.length_pos_iff.mpr hcs
    have hle := length_le_length_utf8 cs
    rw [if_neg (by omega), hholds'.data_eq hcs,
      getCharsLoop_cText h.noNul (by rw [length_cText]; omega) (Int.le_refl 0) (by omega)]
    simp

end Reading

/-! ## Updates -/

section Updates

variable {heap : Heap} {s : ElString} {cs ds : List Char}

theorem allocFromUTF8_spec (hb : heap.Bounded) {input : Bytes} {numBytes : Int}
    (htake : input.take numBytes.toNat = utf8 cs) (hlen : numBytes.toNat ≤ input.length) :
    allocFromUTF8 heap input numBytes = none ∨
      allocFromUTF8 heap input numBytes = some (cText cs) ∧ (utf8 cs).length + 1 < 2 ^ 31 := by
  have hsize : numBytes.toNat = (utf8 cs).length := by
    rw [← htake, List.length_take]
    omega
  unfold allocFromUTF8
  by_cases hpos : numBytes > 0
  · rw [if_pos hpos]
    by_cases hmem : heap.sharedBuffer (numBytes.toNat + 1) = true
    · right
      rw [if_pos hmem, htake]
      refine ⟨rfl, ?_⟩
      rw [← hsize]
      exact hb.lt hmem
    · left
      rw [if_neg hmem]
  · right
    have hcs : cs = [] := by
      by_contra hne
      have := length_utf8_pos hne
      omega
    rw [if_neg hpos, hcs]
    exact ⟨rfl, by decide⟩

theorem ofAlloc_spec {a : Option Bytes} (hn : NoNul cs)
    (h : a = none ∨ a = some (cText cs) ∧ (utf8 cs).length + 1 < 2 ^ 31) : (ofAlloc a).Ok := by
  rcases h with rfl | ⟨rfl, hsmall⟩
  · exact ⟨[], holds_of_buffer (noNul_nil) (by decide)⟩
  · exact ⟨cs, holds_of_buffer hn hsmall⟩

theorem setToBytes_spec (hb : heap.Bounded) {input : Bytes} {numBytes : Int} (hn : NoNul cs)
    (htake : input.take numBytes.toNat = utf8 cs) (hlen : numBytes.toNat ≤ input.length) :
    (s.setToBytes heap input numBytes).2.Ok := by
  unfold setToBytes
  have h := ofAlloc_spec hn (allocFromUTF8_spec hb htake hlen)
  cases ha : allocFromUTF8 heap input numBytes with
  | none =>
    rw [ha] at h
    exact h
  | some newString =>
    rw [ha] at h
    exact h

theorem strlen_utf8 (hn : NoNul cs) : strlen (utf8 cs) = (utf8 cs).length := by
  rw [strlen, takeWhile_utf8 hn]

theorem setToCstr_spec (hb : heap.Bounded) (h : s.Holds cs) {input : Option Bytes}
    (hin : ∀ b, input = some b → IsText b) : (s.setToCstr heap input).2.Ok := by
  cases input with
  | none =>
    refine ⟨[], ?_⟩
    simp only [setToCstr]
    split
    · next hnull =>
      rcases h.buffer with ⟨-, hcs⟩ | hbuf
      · rwa [hcs] at h
      · simp [isNull, hbuf] at hnull
    · have hset := Holds.of_setCounted (s := { s with mString := none }) noNul_nil
        (Or.inl ⟨rfl, rfl⟩) (by decide)
      simpa using hset
  | some b =>
    obtain ⟨ds, hds, rfl⟩ := hin b rfl
    have hspec : (s.setToBytes heap (utf8 ds) (strlen (utf8 ds))).2.Ok :=
      setToBytes_spec hb hds (by simp [strlen_utf8 hds]) (by simp [strlen_utf8 hds])
    simpa [setToCstr, setToBytes] using hspec

/-- A larger buffer starts with the text, or there is no memory. -/
theorem editResize_grow (hb : heap.Bounded) (cs : List Char) {k : Nat} (hk : 0 < k) :
    editResize heap (cText cs) ((utf8 cs).length + k + 1) = none ∨
    editResize heap (cText cs) ((utf8 cs).length + k + 1) =
        some (utf8 cs ++ List.replicate (k + 1) 0) ∧
      (utf8 cs).length + k + 1 < 2 ^ 31 := by
  have hsize : (cText cs).length ≠ (utf8 cs).length + k + 1 := by
    rw [length_cText]
    omega
  rw [editResize, if_neg hsize]
  by_cases hmem : heap.sharedBuffer ((utf8 cs).length + k + 1) = true
  · right
    rw [if_pos hmem, List.take_of_length_le (by rw [length_cText]; omega), length_cText, cText,
      List.append_assoc, List.singleton_append, ← List.replicate_succ]
    refine ⟨?_, hb.lt hmem⟩
    congr 3
    omega
  · left
    rw [if_neg hmem]

/-- `RealAppend` puts the bytes it is given behind the text, or there is no
memory. The object is not counted afterwards. -/
theorem realAppend_eq (h : s.Holds cs) (input : Bytes) {n : Nat} (hn : 0 < n) :
    s.realAppend heap input n =
      if heap.sharedBuffer ((utf8 cs).length + n + 1) then
        (.noError, { mString := some (utf8 cs ++ input.take n ++ [0]), mCharCount := 0 })
      else (.outOfMemory, s.clearCounted) := by
  have h0 : ¬ ((n : Int) ≤ 0) := by omega
  simp only [realAppend, if_neg h0, Int.toNat_natCast]
  rcases h.buffer with ⟨hnone, rfl⟩ | hbuf
  · simp only [clearCounted, isNull, hnone, Option.isNone_none, if_true, utf8_nil, List.length_nil,
      Nat.zero_add]
    by_cases hmem : heap.sharedBuffer (n + 1) = true
    · rw [if_pos hmem, if_pos hmem]
      simp
    · rw [if_neg hmem, if_neg hmem]
  · have hlen' : s.clearCounted.getByteLength = (utf8 cs).length := h.clearCounted.getByteLength_eq
    have hnull : s.clearCounted.isNull = false := by
      simp [isNull, clearCounted, hbuf]
    have hmString : s.clearCounted.mString = some (cText cs) := hbuf
    have hsize : (cText cs).length ≠ (utf8 cs).length + n + 1 := by
      rw [length_cText]
      omega
    simp only [hnull, Bool.false_eq_true, if_false, hmString, hlen', editResize, if_neg hsize]
    by_cases hmem : heap.sharedBuffer ((utf8 cs).length + n + 1) = true
    · have hend : (cText cs ++ List.replicate ((utf8 cs).length + n + 1 - (cText cs).length) 0).drop
          ((utf8 cs).length + n + 1) = [] := by
        apply List.drop_eq_nil_of_le
        rw [List.length_append, List.length_replicate, length_cText]
        omega
      rw [if_pos hmem, if_pos hmem]
      dsimp only
      rw [List.take_of_length_le (show (cText cs).length ≤ (utf8 cs).length + n + 1 by
        rw [length_cText]; omega), hend, List.append_nil]
      simp [cText, clearCounted]
    · rw [if_neg hmem, if_neg hmem]

/-- `RealAppend` of a text: the object holds both texts, or the old one when
there is no memory. -/
theorem realAppend_spec (hb : heap.Bounded) (h : s.Holds cs) {input : Bytes}
    (htake : input.take (utf8 ds).length = utf8 ds) (hne : ds ≠ []) :
    (s.realAppend heap input (utf8 ds).length =
        (.noError, { mString := some (cText (cs ++ ds)), mCharCount := 0 }) ∧
      (utf8 (cs ++ ds)).length + 1 < 2 ^ 31) ∨
    s.realAppend heap input (utf8 ds).length = (.outOfMemory, s.clearCounted) := by
  have hlen : (utf8 (cs ++ ds)).length = (utf8 cs).length + (utf8 ds).length := by
    rw [utf8_append, List.length_append]
  have htext : utf8 cs ++ utf8 ds ++ [0] = cText (cs ++ ds) := by rw [cText, utf8_append]
  rw [realAppend_eq h input (length_utf8_pos hne), htake, htext, hlen]
  by_cases hmem : heap.sharedBuffer ((utf8 cs).length + (utf8 ds).length + 1) = true
  · left
    rw [if_pos hmem]
    exact ⟨rfl, hb.lt hmem⟩
  · right
    rw [if_neg hmem]

theorem realAppend_ok (hb : heap.Bounded) (h : s.Holds cs) (hds : NoNul ds) {input : Bytes}
    (htake : input.take (utf8 ds).length = utf8 ds) :
    (s.realAppend heap input (utf8 ds).length).2.Ok := by
  by_cases hne : ds = []
  · refine ⟨cs, ?_⟩
    simpa [realAppend, hne] using h
  · rcases realAppend_spec hb h htake hne with ⟨heq, hsmall⟩ | heq
    · rw [heq]
      exact ⟨cs ++ ds, holds_of_buffer (h.noNul.append hds) hsmall⟩
    · rw [heq]
      exact ⟨cs, h.clearCounted⟩

/-- The first bytes of a C string that are a text. -/
theorem le_strlen {input : Bytes} (hds : NoNul ds)
    (htake : input.take (utf8 ds).length = utf8 ds) : (utf8 ds).length ≤ strlen input := by
  have hsplit : input = utf8 ds ++ input.drop (utf8 ds).length := by
    conv_lhs => rw [← List.take_append_drop (utf8 ds).length input, htake]
  rw [hsplit, strlen, List.takeWhile_append_of_pos]
  · simp
  · intro b hb
    simpa using ne_nul_of_mem_utf8 hds b hb

theorem appendBytes_ok (hb : heap.Bounded) (h : s.Holds cs) (hds : NoNul ds) {input : Bytes}
    (htake : input.take (utf8 ds).length = utf8 ds) (hlen : (utf8 ds).length ≤ input.length) :
    (s.appendBytes heap input (utf8 ds).length none).2.Ok := by
  have hstr := le_strlen hds htake
  unfold appendBytes
  split_ifs
  · exact ⟨cs, h⟩
  · exact setToBytes_spec hb hds (by simpa using htake) (by simpa using hlen)
  · rw [Option.getD_none, Int.min_eq_right (by omega)]
    exact realAppend_ok hb h hds htake

theorem appendCstr_ok (hb : heap.Bounded) (h : s.Holds cs) {input : Bytes} (hin : IsText input) :
    (s.appendCstr heap input).2.Ok := by
  obtain ⟨ds, hds, rfl⟩ := hin
  rw [appendCstr, strlen_utf8 hds]
  exact appendBytes_ok hb h hds (by simp) (Nat.le_refl _)

theorem appendChar_ok (hb : heap.Bounded) (h : s.Holds cs) {ch : Char32} (hch : ch ≠ 0) :
    (s.appendChar heap ch).2.Ok := by
  simp only [appendChar, Bool.not_eq_true']
  split
  · exact ⟨cs, h⟩
  · next hvalid =>
    have hvalid' : isValidChar ch = true := by simpa using hvalid
    obtain ⟨c, rfl⟩ : ∃ c : Char, c.val = ch := ⟨⟨ch, (isValidChar_iff ch).mp hvalid'⟩, rfl⟩
    have hc : NoNul [c] := by
      intro d hd hz
      rw [List.mem_singleton] at hd
      rw [hd] at hz
      exact hch (congrArg Char.val hz)
    have hbuf : writeUTFBytesToBuffer c.val (getByteCount c.val) = utf8 [c] := by
      rw [getByteCount_eq, charOf_val]
      simpa [utf8] using (readsChar c).write
    rw [hbuf]
    split
    · exact appendBytes_ok hb h hc List.take_length (Nat.le_refl _)
    · exact ⟨cs, h⟩

theorem append_ok (hb : heap.Bounded) (h : s.Holds cs) {other : ElString} (ho : other.Holds ds) :
    (s.append heap other none).2.Ok := by
  simp only [append, h.getByteLength_eq, ho.getByteLength_eq, Option.getD_none]
  split_ifs with h1 h2
  · exact ⟨ds, ho⟩
  · exact ⟨cs, h⟩
  · have hne : ds ≠ [] := by
      rintro rfl
      exact h2 rfl
    apply realAppend_ok hb h ho.noNul
    rw [ho.data_eq hne, cText, List.take_left]

/-! ### Parts of a text -/

/-- `CharIndexToByteIndex` stops between two characters. -/
theorem charIndexLoop_spec (as : List Char) (hn : NoNul cs) {total : Nat}
    (htotal : total = (cText (as ++ cs)).length) (charIndex : Int) (fuel : Nat) (i : Int) :
    charIndexLoop total charIndex fuel (cText cs) i < 0 ∨
    ∃ k, charIndexLoop total charIndex fuel (cText cs) i = (utf8 ((as ++ cs).take k)).length := by
  induction fuel generalizing as cs i with
  | zero => exact Or.inl (by simp [charIndexLoop])
  | succ fuel ih =>
    cases cs with
    | nil => exact Or.inl (by simp [charIndexLoop, deref])
    | cons c cs =>
      obtain ⟨h0, hlen, -, hmore, hdrop⟩ := cText_at hn
      simp only [charIndexLoop, if_neg h0, hlen, if_neg hmore, hdrop]
      by_cases hi : i = charIndex
      · right
        refine ⟨as.length, ?_⟩
        rw [if_pos hi, List.take_left, htotal, length_cText, length_cText, utf8_append,
          List.length_append]
        omega
      · rw [if_neg hi]
        have := ih (as ++ [c]) hn.tail (by rw [htotal]; simp) (i + 1)
        simpa using this

theorem cString_cText (hn : NoNul cs) : cString (cText cs) = cText cs := by
  rw [cString, takeWhile_cText hn, cText]

theorem charIndexToByteIndex_spec (h : s.Holds cs) (charIndex : Int) :
    charIndexToByteIndex s.mString charIndex < 0 ∨
    ∃ k, charIndexToByteIndex s.mString charIndex = (utf8 (cs.take k)).length := by
  rcases h.buffer with ⟨hnone, -⟩ | hbuf
  · exact Or.inl (by simp [charIndexToByteIndex, hnone])
  · rw [hbuf, charIndexToByteIndex]
    split_ifs
    · exact Or.inl (by decide)
    · rw [cString_cText h.noNul]
      exact charIndexLoop_spec [] h.noNul rfl charIndex _ 0

/-- The text from one boundary to the next. -/
theorem appendBytes_part_ok (hb : heap.Bounded) (h : s.Holds cs) (as bs es : List Char)
    (hbs : NoNul bs) {n : Int} (hn : n = (utf8 bs).length) :
    (s.appendBytes heap ((cText (as ++ bs ++ es)).drop (utf8 as).length) n none).2.Ok := by
  have hdrop : (cText (as ++ bs ++ es)).drop (utf8 as).length = utf8 bs ++ cText es := by
    simp [cText]
  rw [hdrop, hn]
  exact appendBytes_ok hb h hbs List.take_left (by simp)

theorem appendFrom_ok (hb : heap.Bounded) (h : s.Holds cs) {other : ElString}
    (ho : other.Holds ds) (charOffset : Int) : (s.appendFrom heap other charOffset none).2.Ok := by
  simp only [appendFrom]
  split_ifs with hempty hneg
  · exact ⟨cs, h⟩
  · exact ⟨cs, h⟩
  · have hne : ds ≠ [] := mt ho.isNullOrEmpty_iff.mpr hempty
    rcases charIndexToByteIndex_spec ho charOffset with hlt | ⟨k, hk⟩
    · exact absurd hlt hneg
    · have hlen : (utf8 ds).length = (utf8 (ds.take k)).length + (utf8 (ds.drop k)).length := by
        rw [← List.length_append, ← utf8_append, List.take_append_drop]
      rw [hk, ho.getByteLength_eq, ho.data_eq hne, Int.min_eq_right (by omega), Int.toNat_natCast]
      have := appendBytes_part_ok hb h (ds.take k) (ds.drop k) []
        (ho.noNul.drop k) (n := ((utf8 ds).length : Int) - (utf8 (ds.take k)).length) (by omega)
      simpa using this

/-- The two ends `Append(const String&, Int32, Int32)` finds lie between
characters. `as` is the text the loop has passed. -/
theorem rangeLoop_spec (as : List Char) (hn : NoNul cs) {total : Nat}
    (htotal : total = (cText (as ++ cs)).length) (offset numOfChars : Int) (fuel : Nat)
    (i j startByte : Int)
    (hstart : startByte < 0 ∨ ∃ k ≤ as.length, startByte = (utf8 ((as ++ cs).take k)).length) :
    (rangeLoop total offset numOfChars fuel (cText cs) i j startByte).1 < 0 ∨
    ∃ k, (rangeLoop total offset numOfChars fuel (cText cs) i j startByte).1 =
        (utf8 ((as ++ cs).take k)).length ∧
      ((rangeLoop total offset numOfChars fuel (cText cs) i j startByte).2 < 0 ∨
      ∃ l ≥ k, (rangeLoop total offset numOfChars fuel (cText cs) i j startByte).2 =
        (utf8 ((as ++ cs).take l)).length) := by
  -- by induction on the turns; `as` are the characters read before
  induction fuel generalizing as cs i j startByte with
  | zero =>
    simp only [rangeLoop]
    rcases hstart with h | ⟨k, -, h⟩
    · exact Or.inl h
    · exact Or.inr ⟨k, h, Or.inl (by decide)⟩
  | succ fuel ih =>
    cases cs with
    | nil =>
      simp only [rangeLoop, cText_nil, deref, List.headD_cons, if_true]
      rcases hstart with h | ⟨k, -, h⟩
      · exact Or.inl h
      · exact Or.inr ⟨k, h, Or.inl (by decide)⟩
    | cons c cs =>
      obtain ⟨h0, hlen, -, hmore, hdrop⟩ := cText_at hn
      have hhere : (total : Int) - (cText (c :: cs)).length =
          (utf8 ((as ++ c :: cs).take as.length)).length := by
        rw [List.take_left, htotal, length_cText, length_cText, utf8_append, List.length_append]
        omega
      simp only [rangeLoop, if_neg h0, hlen, if_neg hmore, hdrop, hhere]
      -- the loop ends when enough characters have been counted
      by_cases hj : j = numOfChars
      · rw [if_pos hj]
        rcases hstart with h | ⟨k, hk, h⟩
        · exact Or.inl h
        · exact Or.inr ⟨k, h, Or.inr ⟨as.length, hk, rfl⟩⟩
      · rw [if_neg hj]
        have := ih (as ++ [c]) hn.tail (by rw [htotal]; simp) (i + 1)
          (if i ≥ offset then j + 1 else j)
          (if i = offset then ((utf8 ((as ++ c :: cs).take as.length)).length : Int)
            else startByte) ?_
        · simpa using this
        · split_ifs
          · exact Or.inr ⟨as.length, by simp, by simp⟩
          · rcases hstart with h | ⟨k, hk, h⟩
            · exact Or.inl h
            · exact Or.inr ⟨k, by simp; omega, by simpa using h⟩

theorem appendRange_ok (hb : heap.Bounded) (h : s.Holds cs) {other : ElString}
    (ho : other.Holds ds) (offset numOfChars : Int) :
    (s.appendRange heap other offset numOfChars none).2.Ok := by
  simp only [appendRange]
  by_cases hempty : other.isNullOrEmpty = true
  · rw [if_pos hempty]
    exact ⟨cs, h⟩
  · have hne : ds ≠ [] := mt ho.isNullOrEmpty_iff.mpr hempty
    rw [if_neg hempty, ho.data_eq hne, cString_cText ho.noNul]
    have hspec := rangeLoop_spec [] ho.noNul rfl offset numOfChars (cText ds).length 0 0 (-1)
      (Or.inl (by decide))
    rw [List.nil_append] at hspec
    generalize rangeLoop (cText ds).length offset numOfChars (cText ds).length (cText ds) 0 0 (-1) =
      r at hspec
    obtain ⟨startByte, endByte⟩ := r
    simp only at hspec ⊢
    -- refused, empty, or a part of the other string, with or without an end
    split_ifs with hzero hneg hend
    · exact ⟨cs, h⟩
    · exact ⟨cs, h⟩
    · -- no end was found: up to the end of the string
      rcases hspec with hlt | ⟨k, hk, -⟩
      · exact absurd hlt hneg
      · have hstr : strlen (cText ds) = (utf8 ds).length := by
          rw [strlen, takeWhile_cText ho.noNul]
        have hlen : (utf8 ds).length = (utf8 (ds.take k)).length + (utf8 (ds.drop k)).length := by
          rw [← List.length_append, ← utf8_append, List.take_append_drop]
        rw [hk, hstr, Int.toNat_natCast]
        have := appendBytes_part_ok hb h (ds.take k) (ds.drop k) []
          (ho.noNul.drop k) (n := ((utf8 ds).length : Int) - (utf8 (ds.take k)).length) (by omega)
        simpa using this
    · rcases hspec with hlt | ⟨k, hk, hlt | ⟨l, hkl, hl⟩⟩
      · exact absurd hlt hneg
      · exact absurd hlt hend
      · have htake : ds.take l = ds.take k ++ (ds.take l).drop k := by
          conv_lhs => rw [← List.take_append_drop k (ds.take l), List.take_take, min_eq_left hkl]
        have hlen : (utf8 (ds.take l)).length =
            (utf8 (ds.take k)).length + (utf8 ((ds.take l).drop k)).length := by
          rw [← List.length_append, ← utf8_append, ← htake]
        have hds : ds.take k ++ (ds.take l).drop k ++ ds.drop l = ds := by
          rw [← htake, List.take_append_drop]
        rw [hk, hl, Int.toNat_natCast]
        have := appendBytes_part_ok hb h (ds.take k) ((ds.take l).drop k)
          (ds.drop l) ((ho.noNul.take l).drop k)
          (n := ((utf8 (ds.take l)).length : Int) - (utf8 (ds.take k)).length) (by omega)
        rwa [hds] at this

/-! ### Arrays of code points -/

/-- The bytes `Append(ArrayOf<Char32>)` writes are the text of the code points
that have one; the others are skipped and not counted. -/
theorem encoded_chars (chars : List Char32) :
    (chars.filter fun c => getByteCount c > 0).length = (chars.filterMap charOf).length ∧
    ((chars.filter fun c => getByteCount c > 0).map getByteCount).sum =
      (utf8 (chars.filterMap charOf)).length ∧
    (chars.filter fun c => getByteCount c > 0).flatMap
      (fun c => writeUTFBytesToBuffer c (getByteCount c)) = utf8 (chars.filterMap charOf) := by
  induction chars with
  | nil => exact ⟨rfl, rfl, rfl⟩
  | cons v chars ih =>
    obtain ⟨h1, h2, h3⟩ := ih
    have hcount := getByteCount_eq v
    cases hv : charOf v with
    | none =>
      rw [hv] at hcount
      have hskip : ¬ (decide (getByteCount v > 0) = true) := by simp [hcount]
      rw [List.filter_cons, if_neg hskip, List.filterMap_cons_none hv]
      exact ⟨h1, h2, h3⟩
    | some c =>
      rw [hv] at hcount
      have hpos := c.utf8Size_pos
      have htake : decide (getByteCount v > 0) = true := by
        rw [decide_eq_true_iff, hcount]
        exact hpos
      have hval := charOf_eq_some.mp hv
      rw [List.filter_cons, if_pos htake, List.filterMap_cons_some hv]
      refine ⟨?_, ?_, ?_⟩
      · rw [List.length_cons, List.length_cons, h1]
      · rw [List.map_cons, List.sum_cons, h2, hcount, utf8_cons, List.length_append,
          String.length_utf8EncodeChar]
      · rw [List.flatMap_cons, h3, hcount, utf8_cons, ← hval, (readsChar c).write]

theorem noNul_filterMap {chars : List Char32} (h : ∀ v ∈ chars, v ≠ 0) :
    NoNul (chars.filterMap charOf) := by
  intro c hc hz
  obtain ⟨v, hv, hcv⟩ := List.mem_filterMap.mp hc
  apply h v hv
  rw [← charOf_eq_some.mp hcv, hz]
  rfl

theorem appendCharsRange_ok (hb : heap.Bounded) (h : s.Holds cs) {array : List Char32}
    (harr : ∀ v ∈ array, v ≠ 0) (offset length : Int) :
    (s.appendCharsRange heap array offset length).2.Ok := by
  simp only [appendCharsRange]
  iterate 3
    split
    · exact ⟨cs, h⟩
  split
  · exact ⟨cs, h⟩
  next h4 =>
  split
  · exact ⟨cs, h⟩
  · generalize hchars : (array.drop (max 0 offset).toNat).take
      (min ((array.length : Int) - max 0 offset) length).toNat = chars at h4 ⊢
    have hnz : ∀ v ∈ chars, v ≠ 0 := by
      intro v hv
      rw [← hchars] at hv
      exact harr v (List.mem_of_mem_drop (List.mem_of_mem_take hv))
    obtain ⟨hcount, hsum, hbytes⟩ := encoded_chars chars
    have hds := noNul_filterMap hnz
    rw [hsum] at h4
    rw [hcount, hsum, hbytes]
    generalize chars.filterMap charOf = ds at h4 hds ⊢
    have hne : ds ≠ [] := by
      rintro rfl
      exact h4 rfl
    rcases realAppend_spec hb h List.take_length hne with ⟨heq, hsmall⟩ | heq
    · have hnew := holds_of_buffer (h.noNul.append hds) hsmall
      rw [heq]
      refine ⟨cs ++ ds, ?_⟩
      dsimp only
      split
      · next hnull =>
        -- the string was empty: the characters appended are all it has
        have hcs : cs = [] := h.isNullOrEmpty_iff.mp hnull
        subst hcs
        exact hnew.setCounted
      · exact hnew.clearCounted
    · rw [heq]
      exact ⟨cs, h.clearCounted⟩

/-! ### Formatted text -/

theorem getLength_mString (s : ElString) : s.getLength.2.mString = s.mString := by
  unfold getLength
  split_ifs <;> rfl

/-- `UnlockBuffer` with the size the text has leaves the text alone. -/
theorem unlockBuffer_ok (h : s.Holds cs) (hbuf : s.mString = some (cText cs)) :
    (s.unlockBuffer heap (utf8 cs).length).2.Ok := by
  obtain ⟨-, hholds, -⟩ := getLength_spec h
  have hnew : s.getLength.2.mString = some (cText cs) := by rw [getLength_mString, hbuf]
  simp only [unlockBuffer]
  split
  · exact ⟨cs, h⟩
  · split
    · have hdata : s.getLength.2.data = cText cs := by rw [data, hnew, Option.getD_some]
      have hsame : editResize heap (cText cs) ((utf8 cs).length + 1) = some (cText cs) := by
        rw [editResize, if_pos (length_cText cs)]
      rw [hdata, hsame]
      refine ⟨cs, ?_⟩
      simp only [cText, List.take_left]
      exact ⟨hholds.noNul, Or.inr rfl, hholds.small, hholds.counted⟩
    · exact ⟨cs, hholds⟩

theorem appendFormat_ok (hb : heap.Bounded) (h : s.Holds cs) {text : Bytes} (htext : IsText text) :
    (s.appendFormat heap text text).2.Ok := by
  obtain ⟨ds, hds, rfl⟩ := htext
  by_cases hlen : (utf8 ds).length = 0
  · refine ⟨cs, ?_⟩
    simpa [appendFormat, hlen] using h.clearCounted
  · have hh := h.clearCounted
    have hold := hh.getByteLength_eq
    have happ : (utf8 (cs ++ ds)).length = (utf8 cs).length + (utf8 ds).length := by
      rw [utf8_append, List.length_append]
    simp only [appendFormat, if_pos hlen, hold, ne_eq]
    -- the buffer grows, or there is no memory and only the cache is cleared
    have hlock : s.clearCounted.lockBuffer heap ((utf8 cs).length + (utf8 ds).length) = none ∨
        (s.clearCounted.lockBuffer heap ((utf8 cs).length + (utf8 ds).length) =
          some { mString := some (utf8 cs ++ List.replicate ((utf8 ds).length + 1) 0),
                 mCharCount := 0 } ∧
          (utf8 cs).length + (utf8 ds).length + 1 < 2 ^ 31) := by
      rcases h.buffer with ⟨hnone, rfl⟩ | hbuf
      · simp only [lockBuffer, clearCounted, hnone]
        by_cases hmem : heap.sharedBuffer ((utf8 []).length + (utf8 ds).length + 1) = true
        · refine Or.inr ⟨?_, hb.lt hmem⟩
          rw [if_pos hmem]
          simp
        · refine Or.inl ?_
          rw [if_neg hmem]
          rfl
      · simp only [lockBuffer, clearCounted, hbuf]
        rcases editResize_grow hb cs (Nat.pos_of_ne_zero hlen) with hnone | ⟨hsome, hsmall⟩
        · exact Or.inl (by rw [hnone]; rfl)
        · exact Or.inr ⟨by rw [hsome]; rfl, hsmall⟩
    rcases hlock with hnone | ⟨hsome, hsmall⟩
    · rw [hnone]
      exact ⟨cs, hh⟩
    · -- the text is written, and `UnlockBuffer` counts it
      have hwritten : ElString.Holds { mString := some (cText (cs ++ ds)), mCharCount := 0 }
          (cs ++ ds) := holds_of_buffer (h.noNul.append hds) (by rw [happ]; exact hsmall)
      have hbuf : (utf8 cs ++ List.replicate ((utf8 ds).length + 1) 0).take (utf8 cs).length ++
          (utf8 ds).take (utf8 ds).length ++ [0] = cText (cs ++ ds) := by
        rw [List.take_left, List.take_length, cText, utf8_append]
      have hrest : (utf8 cs ++ List.replicate ((utf8 ds).length + 1) (0 : UInt8)).drop
          (cText (cs ++ ds)).length = [] := by
        apply List.drop_eq_nil_of_le
        rw [length_cText, happ, List.length_append, List.length_replicate]
        omega
      rw [hsome]
      simp only [data, Option.getD_some, hbuf, hrest, List.append_nil]
      rw [← happ]
      exact unlockBuffer_ok hwritten rfl

end Updates

/-! ## Construction and copies -/

section Copies

variable {heap : Heap} {s : ElString} {cs : List Char}

theorem holds_empty : Holds { mString := some emptyString, mCharCount := 0 } [] :=
  holds_of_buffer noNul_nil (by decide)

theorem ofAlloc_take_ok (hb : heap.Bounded) {input : Bytes} {numBytes : Int}
    (hin : IsText (input.take numBytes.toNat)) (hlen : numBytes.toNat ≤ input.length) :
    (ofAlloc (allocFromUTF8 heap input numBytes)).Ok := by
  obtain ⟨ds, hds, htake⟩ := hin
  exact ofAlloc_spec hds (allocFromUTF8_spec hb htake hlen)

theorem ofCstr_ok (hb : heap.Bounded) {other : Option Bytes}
    (hin : ∀ b, other = some b → IsText b) : (ofCstr heap other).Ok := by
  cases other with
  | none => exact ⟨[], holds_null⟩
  | some b =>
    have htext := hin b rfl
    obtain ⟨ds, hds, rfl⟩ := id htext
    apply ofAlloc_take_ok hb
    · rw [Int.toNat_natCast, strlen_utf8 hds, List.take_length]
      exact htext
    · rw [Int.toNat_natCast, strlen_utf8 hds]

theorem ofBytes_ok (hb : heap.Bounded) {other : Option Bytes} {numBytes : Int}
    (hin : ∀ b, other = some b → numBytes ≤ b.length ∧ IsText (b.take numBytes.toNat)) :
    (ofBytes heap other numBytes).Ok := by
  cases other with
  | none => exact ⟨[], holds_null⟩
  | some b =>
    obtain ⟨hlen, htext⟩ := hin b rfl
    simp only [ofBytes]
    split
    · exact ofAlloc_take_ok hb htext (by omega)
    · exact ⟨[], holds_null⟩

theorem ofCharsRange_ok (hb : heap.Bounded) {array : List Char32} (harr : ∀ v ∈ array, v ≠ 0)
    (offset length : Int) : (ofCharsRange heap array offset length).Ok :=
  appendCharsRange_ok hb holds_empty harr offset length

theorem ofByteArray_ok (hb : heap.Bounded) {array : Bytes} {offset : Int}
    (hin : IsText (array.drop offset.toNat)) : (ofByteArray heap array offset).Ok := by
  unfold ofByteArray
  split
  · next hrange =>
    have hlen : ((array.length : Int) - offset).toNat = (array.drop offset.toNat).length := by
      rw [List.length_drop]
      omega
    apply ofAlloc_take_ok hb
    · rw [hlen, List.take_length]
      exact hin
    · rw [hlen]
  · exact ⟨[], holds_null⟩

theorem ofByteArrayRange_ok (hb : heap.Bounded) {array : Bytes} {offset length : Int}
    (hin : IsText ((array.drop offset.toNat).take length.toNat)) :
    (ofByteArrayRange heap array offset length).Ok := by
  unfold ofByteArrayRange
  split
  · next hrange =>
    apply ofAlloc_take_ok hb hin
    rw [List.length_drop]
    omega
  · exact ⟨[], holds_null⟩

theorem ne_zero_of_mem_chars (h : NoNul cs) : ∀ v ∈ cs.map Char.val, v ≠ 0 := by
  intro v hv hz
  obtain ⟨c, hc, rfl⟩ := List.mem_map.mp hv
  exact h c hc (Char.ext hz)

theorem replace_ok (hb : heap.Bounded) (h : s.Holds cs) (oldChar : Char32) {newChar : Char32}
    (hnew : newChar ≠ 0) :
    (s.replace heap oldChar newChar).1.Ok ∧ (s.replace heap oldChar newChar).2.Ok := by
  have hs := getChars_holds h 0
  refine ⟨?_, cs, hs⟩
  simp only [replace]
  split
  · apply ofCharsRange_ok hb
    intro v hv
    obtain ⟨w, hw, rfl⟩ := List.mem_map.mp hv
    rw [getChars_spec h] at hw
    split_ifs
    · exact hnew
    · exact ne_zero_of_mem_chars h.noNul w hw
  · exact ⟨cs, hs⟩

theorem mapCase_ok (hb : heap.Bounded) (h : s.Holds cs) {conv : Char32 → Char32}
    (hconv : ∀ c, c ≠ 0 → conv c ≠ 0) (offset numOfChars : Int) :
    (mapCase heap conv s offset numOfChars).1.Ok ∧ (mapCase heap conv s offset numOfChars).2.Ok := by
  have hs := getChars_holds h 0
  simp only [mapCase]
  split
  · dsimp only
    refine ⟨ofCstr_ok hb ?_, cs, hs⟩
    intro b hb
    cases hb
    exact ⟨[], noNul_nil, rfl⟩
  · refine ⟨ofCharsRange_ok hb ?_ _ _, cs, hs⟩
    intro v hv
    obtain ⟨i, hi, rfl⟩ := List.mem_mapIdx.mp hv
    have hw : (s.getChars 0).1[i] ≠ 0 := by
      apply ne_zero_of_mem_chars h.noNul
      rw [← getChars_spec h]
      exact List.getElem_mem hi
    split_ifs
    · exact hconv _ hw
    · exact hw

/-- The characters below the first cased one of the tables are never NUL. -/
theorem toLowerChar_ne {u_tolower : Char32 → Char32} (h : ∀ c, c ≠ 0 → u_tolower c ≠ 0)
    (c : Char32) (hc : c ≠ 0) : toLowerChar u_tolower c ≠ 0 := by
  unfold toLowerChar
  split_ifs with h1 h2
  · intro hz
    have := congrArg UInt32.toNat hz
    rw [UInt32.toNat_add] at this
    simp only [UInt32.le_iff_toNat_le, UInt32.reduceToNat] at h1 this
    omega
  · exact hc
  · exact h c hc

theorem toUpperChar_ne {u_toupper : Char32 → Char32} (h : ∀ c, c ≠ 0 → u_toupper c ≠ 0)
    (c : Char32) (hc : c ≠ 0) : toUpperChar u_toupper c ≠ 0 := by
  unfold toUpperChar
  split_ifs with h1 h2
  · intro hz
    have := congrArg UInt32.toNat hz
    rw [UInt32.toNat_sub] at this
    simp only [UInt32.le_iff_toNat_le, UInt32.reduceToNat] at h1 this
    omega
  · exact hc
  · exact h c hc

end Copies

/-! ## Searches -/

section Searches

variable {s : ElString} {cs : List Char}

/-- The loop of `ByteIndexOf` finds a character of the text. -/
theorem byteIndexOfLoop_found (hn : NoNul cs) {target : Char32} (hmem : target ∈ cs.map Char.val)
    {fuel : Nat} (hf : cs.length < fuel) (byteLength : Nat) :
    (byteIndexOfLoop target fuel (cText cs) byteLength).found = true := by
  induction cs generalizing fuel byteLength with
  | nil => exact absurd hmem List.not_mem_nil
  | cons c cs ih =>
    rw [List.length_cons] at hf
    obtain ⟨fuel, rfl⟩ : ∃ f, fuel = f + 1 := ⟨fuel - 1, by omega⟩
    obtain ⟨h0, -, hchar, hmore, hdrop⟩ := cText_at hn
    simp only [byteIndexOfLoop, if_neg h0, hchar, if_neg hmore, hdrop]
    split
    · rfl
    · next hne =>
      rw [List.map_cons, List.mem_cons] at hmem
      rcases hmem with rfl | hmem
      · exact absurd rfl hne
      · exact ih hn.tail hmem (by omega) _

/-- A search that finds its character, or that meets a counted string, leaves
the object alone. -/
theorem byteIndexOf_state (h : s.Holds cs) {target : Char32}
    (hok : isValidChar target = true → cs ≠ [] → s.isCounted = false → target ∈ cs.map Char.val) :
    (s.byteIndexOf target).2 = s := by
  simp only [byteIndexOf, Bool.not_eq_true']
  split
  · rfl
  · next hvalid =>
    split
    · rfl
    · next hempty =>
      have hne : cs ≠ [] := mt h.isNullOrEmpty_iff.mpr hempty
      cases hc : s.isCounted with
      | true =>
        simp only [Bool.not_true, Bool.and_false, Bool.false_eq_true, if_false]
        split <;> rfl
      | false =>
        have hle := length_le_length_utf8 cs
        have hfound := byteIndexOfLoop_found h.noNul (hok (by simpa using hvalid) hne hc)
          (show cs.length < (cText cs).length by rw [length_cText]; omega) 0
        rw [h.data_eq hne, if_pos hfound]

/-- A search for a character the text does not have ends at the NUL, with the
size of the last character. -/
theorem byteIndexOfLoop_missed (hn : NoNul cs) {target : Char32} (hmem : target ∉ cs.map Char.val)
    {fuel : Nat} (hf : cs.length < fuel) (byteLength : Nat) (hlen : cs ≠ [] ∨ 1 ≤ byteLength) :
    (byteIndexOfLoop target fuel (cText cs) byteLength).found = false ∧
    (byteIndexOfLoop target fuel (cText cs) byteLength).p.length ≤
      (byteIndexOfLoop target fuel (cText cs) byteLength).byteLength := by
  induction cs generalizing fuel byteLength with
  | nil =>
    obtain ⟨fuel, rfl⟩ : ∃ f, fuel = f + 1 := ⟨fuel - 1, by omega⟩
    have h1 : 1 ≤ byteLength := hlen.resolve_left fun h => h rfl
    simpa [byteIndexOfLoop, deref] using h1
  | cons c cs ih =>
    rw [List.length_cons] at hf
    obtain ⟨fuel, rfl⟩ : ∃ f, fuel = f + 1 := ⟨fuel - 1, by omega⟩
    obtain ⟨h0, -, hchar, hmore, hdrop⟩ := cText_at hn
    rw [List.map_cons, List.mem_cons, not_or] at hmem
    have hne : ¬ c.val = target := fun h => hmem.1 h.symm
    simp only [byteIndexOfLoop, if_neg h0, hchar, if_neg hmore, hdrop, if_neg hne]
    exact ih hn.tail hmem.2 (by omega) _ (Or.inr c.utf8Size_pos)

/-- Such a search marks a string that is not counted as counted, with all 31
bits of the count set. -/
theorem byteIndexOf_missed (h : s.Holds cs) {target : Char32} (hvalid : isValidChar target = true)
    (hne : cs ≠ []) (hc : s.isCounted = false) (hmem : target ∉ cs.map Char.val) :
    (s.byteIndexOf target).2 = s.setCounted (-1) := by
  have hle := length_le_length_utf8 cs
  obtain ⟨h1, h2⟩ := byteIndexOfLoop_missed h.noNul hmem
    (show cs.length < (cText cs).length by rw [length_cText]; omega) 0 (Or.inl hne)
  simp only [byteIndexOf, hvalid, Bool.not_true, Bool.false_eq_true, if_false,
    if_neg (mt h.isNullOrEmpty_iff.mp hne), h.data_eq hne, h1, h2, hc, decide_true, Bool.not_false,
    Bool.and_self, if_true]
  rfl

theorem indexOf_state (hit : Char32 → Bool) (s : ElString) (target : Char32) (start : Int) :
    (s.indexOf hit target start).2 = s := by
  simp only [indexOf]
  split_ifs <;> rfl

theorem lastIndexOfFrom_ok (h : s.Holds cs) (hit : Char32 → Bool) (target : Char32) (start : Int) :
    (s.lastIndexOfFrom hit target start).2.Ok := by
  simp only [lastIndexOfFrom]
  split_ifs
  · exact ⟨cs, h⟩
  · exact ⟨cs, h⟩
  · exact ⟨cs, getCharsRange_holds h _ _⟩

theorem lastIndexOf_ok (h : s.Holds cs) (hit : Char32 → Bool) (target : Char32) :
    (s.lastIndexOf hit target).2.Ok :=
  lastIndexOfFrom_ok (getLength_spec h).2.1 hit target _

theorem lastIndexOfString_ok (h : s.Holds cs) {subString : ElString} {ds : List Char}
    (hsub : subString.Holds ds) (same : Char32 → Char32 → Bool) (start : Int) :
    (lastIndexOfString same s subString start).2.1.Ok ∧
      (lastIndexOfString same s subString start).2.2.Ok := by
  simp only [lastIndexOfString]
  split_ifs
  · exact ⟨⟨cs, h⟩, ds, hsub⟩
  all_goals exact ⟨⟨cs, getChars_holds h 0⟩, ds, getChars_holds hsub 0⟩

end Searches

end ElString

end SuperExe.Elastos
