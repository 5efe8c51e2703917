import SuperExe.Elastos.Accessors
import SuperExe.Lib.Lexicographic

/-! # Comparison ignoring case

`CompareIgnoreCase` and `InsensitiveStartWith` walk two strings with one loop.
It looks at the first string only to choose between bytes and characters, and
it gives the difference of the characters themselves where their upper cases
differ. Over an alphabet the comparison is a total preorder exactly if nothing
of that shows: the alphabet is ASCII or has no ASCII, and the classes of
characters with one upper case are of one size and lie apart.
-/

namespace SuperExe.Elastos

open SuperExe.Core SuperExe.Lib

namespace ElString

/-! ## The code -/

/-- A `char` as an `Int32`. -/
def charInt (b : UInt8) : Int := if isASCII b then b.toNat else (b.toNat : Int) - 256

/-- How the loop ends: with a difference to return, or with one string at its
end. -/
inductive Walk where
  | differ (difference : Int)
  | stop (p1 p2 : Bytes)

/-- The loop of `CompareIgnoreCase` and `InsensitiveStartWith`, with
`ToUpperCase`. -/
def walk (upper : Char32 → Char32) : Nat → Bytes → Bytes → Option Walk
  | 0, _, _ => none
  | fuel + 1, p1, p2 =>
    if 1 < p1.length ∧ 1 < p2.length then
      if isASCII (deref p1) then
        if deref p1 ≠ deref p2 ∧ upper (signExtend (deref p1)) ≠ upper (signExtend (deref p2)) then
          some (.differ (charInt (deref p1) - charInt (deref p2)))
        else walk upper fuel p1.tail p2.tail
      else
        let (ch1, len1) := getCharInternal p1
        let (ch2, len2) := getCharInternal p2
        if ch1 ≠ ch2 ∧ upper ch1 ≠ upper ch2 then some (.differ (toInt32 (ch1 - ch2).toNat))
        else walk upper fuel (p1.drop len1) (p2.drop len2)
    else some (.stop p1 p2)

/-- `CompareIgnoreCase`. One pointer to the same text twice needs no loop in the
source; the loop ends with 0 there as well. -/
def compareIgnoreCase (upper : Char32 → Char32) (string other : Option Bytes) : Option Int :=
  match string, other with
  | none, none => some 0
  | none, some _ => some (-2)
  | some _, none => some 2
  | some string, some other =>
    if deref string = 0 ∧ deref other = 0 then some 0
    else
      match walk upper ((cString string).length + 1) (cString string) (cString other) with
      | none => none
      | some (.differ difference) => some difference
      | some (.stop p1 p2) => some (charInt (deref p1) - charInt (deref p2))

/-- `InsensitiveStartWith` -/
def insensitiveStartWith (upper : Char32 → Char32) (string subString : Option Bytes) : Option Bool :=
  match string, subString with
  | some string, some subString =>
    if deref subString = 0 then some true
    else
      let strLength := strlen string
      let subLength := strlen subString
      if strLength = 0 ∨ subLength = 0 ∨ strLength < subLength then some false
      else
        match walk upper ((cString string).length + 1) (cString string) (cString subString) with
        | none => none
        | some (.differ _) => some false
        | some (.stop _ _) => some true
  | _, _ => some false

/-! ## One character -/

section OneChar

variable {upper : Char32 → Char32} {x y : Char} {a b : List Char}

/-- A first byte is ASCII exactly if the character has one byte. -/
theorem isASCII_iff (hn : NoNul (x :: a)) :
    isASCII (deref (cText (x :: a))) = true ↔ x.utf8Size = 1 := by
  have hlen := (cText_at hn).2.1
  unfold utf8SequenceLength at hlen
  constructor
  · intro h
    rw [if_pos h] at hlen
    exact hlen.symm
  · intro h
    by_contra hascii
    rw [if_neg hascii, h, utf8SequenceLengthNonASCII] at hlen
    split_ifs at hlen <;> omega

/-- An ASCII character is its byte. -/
theorem deref_of_size_one (hn : NoNul (x :: a)) (h : x.utf8Size = 1) :
    signExtend (deref (cText (x :: a))) = x.val ∧
      charInt (deref (cText (x :: a))) = x.val.toNat ∧ (cText (x :: a)).tail = cText a := by
  have hascii := (isASCII_iff hn).mpr h
  obtain ⟨-, -, hchar, -, hdrop⟩ := cText_at hn
  rw [getCharInternal, if_pos hascii] at hchar
  have hval := (Prod.ext_iff.mp hchar).1
  refine ⟨hval, ?_, ?_⟩
  · rw [charInt, if_pos hascii]
    dsimp only at hval
    rw [← hval, signExtend, if_pos hascii, UInt8.toNat_toUInt32]
  · rw [h, List.drop_one] at hdrop
    exact hdrop

/-- A byte that is not ASCII is a negative `char`. -/
theorem charInt_neg {c : UInt8} (h : ¬ isASCII c = true) : charInt c < 0 := by
  have := c.toNat_lt
  rw [charInt, if_neg h]
  omega

/-- The difference of two code points is a 32-bit number. -/
theorem toInt32_sub (x y : Char) :
    toInt32 (x.val - y.val).toNat = (x.val.toNat : Int) - y.val.toNat := by
  have hx := toNat_val_lt x
  have hy := toNat_val_lt y
  have hsub : (x.val - y.val).toNat = (2 ^ 32 - y.val.toNat + x.val.toNat) % 2 ^ 32 :=
    UInt32.toNat_sub x.val y.val
  rw [hsub, toInt32, Int.bmod_def]
  omega

/-- A turn of the loop at two characters that are both ASCII or both not. -/
theorem walk_cons (ha : NoNul (x :: a)) (hb : NoNul (y :: b))
    (hkind : x.utf8Size = 1 ↔ y.utf8Size = 1) (fuel : Nat) :
    walk upper (fuel + 1) (cText (x :: a)) (cText (y :: b)) =
      if upper x.val = upper y.val then walk upper fuel (cText a) (cText b)
      else some (.differ ((x.val.toNat : Int) - y.val.toNat)) := by
  have hlong : 1 < (cText (x :: a)).length ∧ 1 < (cText (y :: b)).length := by
    have h1 := length_utf8_pos (List.cons_ne_nil x a)
    have h2 := length_utf8_pos (List.cons_ne_nil y b)
    rw [length_cText, length_cText]
    omega
  rw [walk, if_pos hlong]
  by_cases hx : x.utf8Size = 1
  · obtain ⟨hx1, hx2, hx3⟩ := deref_of_size_one ha hx
    obtain ⟨hy1, hy2, hy3⟩ := deref_of_size_one hb (hkind.mp hx)
    rw [if_pos ((isASCII_iff ha).mpr hx), hx1, hx2, hx3, hy1, hy2, hy3]
    by_cases hupper : upper x.val = upper y.val
    · rw [if_neg fun h => h.2 hupper, if_pos hupper]
    · rw [if_neg hupper, if_pos]
      refine ⟨fun h => hupper ?_, hupper⟩
      rw [← hx1, ← hy1, h]
  · obtain ⟨-, -, hchar, -, hdrop⟩ := cText_at ha
    obtain ⟨-, -, hchar', -, hdrop'⟩ := cText_at hb
    rw [if_neg (mt (isASCII_iff ha).mp hx)]
    simp only [hchar, hchar', hdrop, hdrop', toInt32_sub]
    by_cases hupper : upper x.val = upper y.val
    · rw [if_neg fun h => h.2 hupper, if_pos hupper]
    · rw [if_neg hupper, if_pos ⟨fun h => hupper (by rw [h]), hupper⟩]

theorem walk_end (fuel : Nat) (h : a = [] ∨ b = []) :
    walk upper (fuel + 1) (cText a) (cText b) = some (.stop (cText a) (cText b)) := by
  rw [walk, if_neg]
  rintro ⟨h1, h2⟩
  rcases h with rfl | rfl
  · exact Nat.lt_irrefl _ h1
  · exact Nat.lt_irrefl _ h2

end OneChar

/-! ## Two texts over an alphabet -/

/-- The characters of the texts that are compared. -/
structure Alphabet where
  mem : Char → Prop
  noNul : ¬ mem (Char.ofNat 0)

/-- A text over the alphabet that fits in a string. -/
structure Alphabet.Text (A : Alphabet) (cs : List Char) : Prop where
  mem : ∀ c ∈ cs, A.mem c
  small : (utf8 cs).length + 1 < 2 ^ 31

/-- All characters are ASCII, or none is. -/
def Alphabet.OneKind (A : Alphabet) : Prop :=
  (∀ c, A.mem c → c.utf8Size = 1) ∨ ∀ c, A.mem c → c.utf8Size ≠ 1

/-- The code point decides where upper cases differ. -/
def rank (c : Char) : Nat := c.val.toNat

section Texts

variable {A : Alphabet} {upper : Char32 → Char32} {a b : List Char}

theorem Alphabet.Text.noNul (h : A.Text a) : NoNul a := by
  intro c hc hz
  rw [hz] at hc
  exact A.noNul (h.mem _ hc)

theorem Alphabet.Text.tail {x : Char} (h : A.Text (x :: a)) : A.Text a := by
  refine ⟨fun c hc => h.mem c (List.mem_cons_of_mem x hc), ?_⟩
  have := h.small
  rw [utf8_cons, List.length_append] at this
  omega

/-- Two characters of one kind. -/
theorem Alphabet.OneKind.iff (h : A.OneKind) {x y : Char} (hx : A.mem x) (hy : A.mem y) :
    x.utf8Size = 1 ↔ y.utf8Size = 1 := by
  rcases h with h | h
  · exact ⟨fun _ => h y hy, fun _ => h x hx⟩
  · exact ⟨fun hx' => absurd hx' (h x hx), fun hy' => absurd hy' (h y hy)⟩

/-- A text of one character. -/
theorem Alphabet.text_singleton {x : Char} (hx : A.mem x) : A.Text [x] := by
  refine ⟨fun c hc => ?_, ?_⟩
  · rw [List.mem_singleton] at hc
    rwa [hc]
  · have := x.utf8Size_le_four
    rw [utf8_cons, List.length_append, String.length_utf8EncodeChar, utf8_nil, List.length_nil]
    omega

/-- The sign that `*p1 - *p2` gives a text against a longer one: a byte that is
not ASCII is below the NUL. -/
def endSign (A : Alphabet) [Decidable (∀ c, A.mem c → c.utf8Size = 1)] : Int :=
  if ∀ c, A.mem c → c.utf8Size = 1 then -1 else 1

theorem sign_charInt_cons (hA : A.OneKind) [Decidable (∀ c, A.mem c → c.utf8Size = 1)] {x : Char}
    (h : A.Text (x :: a)) : (charInt (deref (cText (x :: a)))).sign = -endSign A := by
  have hx := h.mem x List.mem_cons_self
  unfold endSign
  by_cases hall : ∀ c, A.mem c → c.utf8Size = 1
  · have hval := (deref_of_size_one h.noNul (hall x hx)).2.1
    have hne : x.val.toNat ≠ 0 := by
      intro hz
      apply h.noNul x List.mem_cons_self
      apply Char.ext
      exact UInt32.toNat_inj.mp hz
    rw [if_pos hall, hval, Int.sign_eq_one_of_pos (by omega)]
    rfl
  · have hascii : ¬ isASCII (deref (cText (x :: a))) = true :=
      mt (isASCII_iff h.noNul).mp (hA.resolve_left hall x hx)
    rw [if_neg hall, Int.sign_eq_neg_one_of_neg (charInt_neg hascii)]

theorem charInt_nul : charInt (deref (cText [])) = 0 := by decide

/-- What `CompareIgnoreCase` returns when its loop ends like this. -/
def Walk.difference : Walk → Int
  | .differ difference => difference
  | .stop p1 p2 => charInt (deref p1) - charInt (deref p2)

/-- The loop ends, and the sign of the result is that of the lexicographic
comparison. -/
theorem walk_sign (hA : A.OneKind) [Decidable (∀ c, A.mem c → c.utf8Size = 1)] (ha : A.Text a)
    (hb : A.Text b) {fuel : Nat} (hf : a.length < fuel) :
    ∃ w, walk upper fuel (cText a) (cText b) = some w ∧
      w.difference.sign = lexSign (fun c => upper c.val) rank (endSign A) a b := by
  induction a generalizing b fuel with
  | nil =>
    obtain ⟨fuel, rfl⟩ : ∃ f, fuel = f + 1 := ⟨fuel - 1, by omega⟩
    refine ⟨_, walk_end fuel (Or.inl rfl), ?_⟩
    cases b with
    | nil => exact congrArg Int.sign (Int.sub_self _)
    | cons y b =>
      rw [Walk.difference, charInt_nul, Int.zero_sub, Int.sign_neg, sign_charInt_cons hA hb,
        Int.neg_neg]
      rfl
  | cons x a ih =>
    rw [List.length_cons] at hf
    obtain ⟨fuel, rfl⟩ : ∃ f, fuel = f + 1 := ⟨fuel - 1, by omega⟩
    cases b with
    | nil =>
      refine ⟨_, walk_end fuel (Or.inr rfl), ?_⟩
      rw [Walk.difference, charInt_nul, Int.sub_zero, sign_charInt_cons hA ha]
      rfl
    | cons y b =>
      have hkind := hA.iff (ha.mem x List.mem_cons_self) (hb.mem y List.mem_cons_self)
      rw [walk_cons ha.noNul hb.noNul hkind, lexSign]
      by_cases hupper : upper x.val = upper y.val
      · rw [if_pos hupper, if_pos hupper]
        exact ih ha.tail hb.tail (by omega)
      · have hne : rank x ≠ rank y := by
          intro h
          exact hupper (congrArg upper (UInt32.toNat_inj.mp h))
        rw [if_neg hupper, if_neg hupper]
        refine ⟨_, rfl, ?_⟩
        simp only [Walk.difference]
        unfold rank at hne ⊢
        split
        · exact Int.sign_eq_neg_one_of_neg (by omega)
        · exact Int.sign_eq_one_of_pos (by omega)

end Texts

section Order

variable (u_toupper : Char32 → Char32)

/-- `CompareIgnoreCase` of two texts. -/
def compareTexts (a b : List Char) : Option Int :=
  compareIgnoreCase (toUpperChar u_toupper) (some (cText a)) (some (cText b))

/-- `StartWithIgnoreCase` of two texts. -/
def startsWith (a b : List Char) : Option Bool :=
  insensitiveStartWith (toUpperChar u_toupper) (some (cText a)) (some (cText b))

/-- The code points of a text in upper case. -/
def upperCase (a : List Char) : List Char32 := a.map fun c => toUpperChar u_toupper c.val

/-- What is expected of the two functions on the texts over an alphabet. -/
structure OrderRight (A : Alphabet) : Prop where
  ends : ∀ {a b}, A.Text a → A.Text b → ∃ r, compareTexts u_toupper a b = some r
  zero : ∀ {a b}, A.Text a → A.Text b →
    (compareTexts u_toupper a b = some 0 ↔ upperCase u_toupper a = upperCase u_toupper b)
  opposite : ∀ {a b r r'}, A.Text a → A.Text b → compareTexts u_toupper a b = some r →
    compareTexts u_toupper b a = some r' → r'.sign = -r.sign
  trans : ∀ {a b c r r' r''}, A.Text a → A.Text b → A.Text c →
    compareTexts u_toupper a b = some r → compareTexts u_toupper b c = some r' →
    compareTexts u_toupper a c = some r'' → r ≤ 0 → r' ≤ 0 → r'' ≤ 0
  startsWith : ∀ {a b}, A.Text a → A.Text b →
    ∃ r, startsWith u_toupper a b = some r ∧
      (r = true ↔ upperCase u_toupper b <+: upperCase u_toupper a)

/-- The alphabet is ASCII or has no ASCII; characters with one upper case have
the same number of bytes, and no character with another upper case lies between
them. -/
structure Separable (A : Alphabet) : Prop where
  oneKind : A.OneKind
  size : ∀ {x y}, A.mem x → A.mem y → toUpperChar u_toupper x.val = toUpperChar u_toupper y.val →
    x.utf8Size = y.utf8Size
  between : ∀ {x y z}, A.mem x → A.mem y → A.mem z →
    toUpperChar u_toupper x.val = toUpperChar u_toupper y.val →
    toUpperChar u_toupper z.val ≠ toUpperChar u_toupper x.val → ¬ (x < z ∧ z < y)

/-- What two texts alone ask of their characters: one kind, and one size where the
upper case is one. -/
structure Sized (A : Alphabet) : Prop where
  oneKind : A.OneKind
  size : ∀ {x y}, A.mem x → A.mem y → toUpperChar u_toupper x.val = toUpperChar u_toupper y.val →
    x.utf8Size = y.utf8Size

end Order

section Order

variable {u_toupper : Char32 → Char32} {A : Alphabet} {a b : List Char}

theorem Separable.sized (h : Separable u_toupper A) : Sized u_toupper A := ⟨h.oneKind, h.size⟩

theorem Separable.convex (h : Separable u_toupper A) :
    Convex (fun c => toUpperChar u_toupper c.val) rank A.mem := by
  refine ⟨fun _ _ heq => ?_, fun hx hy hz hxy hne => h.between hx hy hz hxy hne⟩
  exact congrArg (toUpperChar u_toupper) (UInt32.toNat_inj.mp heq)

theorem cString_text (h : A.Text a) : cString (cText a) = cText a := cString_cText h.noNul

theorem deref_cText_eq_zero (h : A.Text a) : deref (cText a) = 0 ↔ a = [] := by
  cases a with
  | nil => simp [deref]
  | cons x a => simp [(cText_at h.noNul).1]

/-- The comparison returns, with the sign of the lexicographic comparison. -/
theorem compareTexts_sign (hA : A.OneKind) [Decidable (∀ c, A.mem c → c.utf8Size = 1)]
    (ha : A.Text a) (hb : A.Text b) :
    ∃ r, compareTexts u_toupper a b = some r ∧
      r.sign = lexSign (fun c => toUpperChar u_toupper c.val) rank (endSign A) a b := by
  have hlen := length_le_length_utf8 a
  obtain ⟨w, hw, hsign⟩ := @walk_sign A (toUpperChar u_toupper) a b hA _ ha hb
    ((cText a).length + 1) (by rw [length_cText]; omega)
  simp only [compareTexts, compareIgnoreCase, deref_cText_eq_zero ha, deref_cText_eq_zero hb,
    cString_text ha, cString_text hb, hw]
  by_cases hempty : a = [] ∧ b = []
  · obtain ⟨rfl, rfl⟩ := hempty
    exact ⟨0, by rw [if_pos ⟨rfl, rfl⟩], rfl⟩
  · rw [if_neg hempty]
    refine ⟨w.difference, ?_, hsign⟩
    cases w with
    | differ difference => rfl
    | stop p1 p2 => rfl

/-- How far two texts go together. -/
theorem walk_startsWith (hA : Sized u_toupper A) (ha : A.Text a) (hb : A.Text b)
    (hlen : (utf8 b).length ≤ (utf8 a).length) {fuel : Nat} (hf : a.length < fuel) :
    (∃ d, walk (toUpperChar u_toupper) fuel (cText a) (cText b) = some (.differ d) ∧
      ¬ upperCase u_toupper b <+: upperCase u_toupper a) ∨
    ∃ p1 p2, walk (toUpperChar u_toupper) fuel (cText a) (cText b) = some (.stop p1 p2) ∧
      upperCase u_toupper b <+: upperCase u_toupper a := by
  induction a generalizing b fuel with
  | nil =>
    -- no bytes are left for a second text
    obtain ⟨fuel, rfl⟩ : ∃ f, fuel = f + 1 := ⟨fuel - 1, by omega⟩
    obtain rfl : b = [] := by
      by_contra hne
      have := length_utf8_pos hne
      rw [utf8_nil, List.length_nil] at hlen
      omega
    exact Or.inr ⟨_, _, walk_end fuel (Or.inl rfl), List.nil_prefix⟩
  | cons x a ih =>
    rw [List.length_cons] at hf
    obtain ⟨fuel, rfl⟩ : ∃ f, fuel = f + 1 := ⟨fuel - 1, by omega⟩
    cases b with
    | nil => exact Or.inr ⟨_, _, walk_end fuel (Or.inr rfl), List.nil_prefix⟩
    | cons y b =>
      have hx := ha.mem x List.mem_cons_self
      have hy := hb.mem y List.mem_cons_self
      rw [walk_cons ha.noNul hb.noNul (hA.oneKind.iff hx hy), upperCase, upperCase, List.map_cons,
        List.map_cons, List.cons_prefix_cons]
      by_cases hupper : toUpperChar u_toupper x.val = toUpperChar u_toupper y.val
      · have hsize := hA.size hx hy hupper
        simp only [utf8_cons, List.length_append, String.length_utf8EncodeChar] at hlen
        rw [if_pos hupper]
        rcases ih ha.tail hb.tail (by omega) (show a.length < fuel by omega) with
          ⟨d, hd, hno⟩ | ⟨p1, p2, hp, hyes⟩
        · exact Or.inl ⟨d, hd, fun h => hno h.2⟩
        · exact Or.inr ⟨p1, p2, hp, hupper.symm, hyes⟩
      · rw [if_neg hupper]
        exact Or.inl ⟨_, rfl, fun h => hupper h.1.symm⟩

theorem length_of_upperCase_eq (hA : Sized u_toupper A) {c : List Char} (ha : A.Text a)
    (hc : A.Text c) (heq : upperCase u_toupper a = upperCase u_toupper c) :
    (utf8 a).length = (utf8 c).length := by
  induction a generalizing c with
  | nil =>
    cases c with
    | nil => rfl
    | cons z c => cases heq
  | cons x a ih =>
    cases c with
    | nil => cases heq
    | cons z c =>
      rw [upperCase, upperCase, List.map_cons, List.map_cons, List.cons.injEq] at heq
      simp only [utf8_cons, List.length_append, String.length_utf8EncodeChar]
      rw [hA.size (ha.mem x List.mem_cons_self) (hc.mem z List.mem_cons_self) heq.1,
        ih ha.tail hc.tail heq.2]

theorem Alphabet.Text.take (h : A.Text a) (n : Nat) : A.Text (a.take n) := by
  refine ⟨fun c hc => h.mem c (List.mem_of_mem_take hc), ?_⟩
  have := h.small
  have := length_utf8_take_le a n
  omega

/-- The second text is a front of the first one only if it has no more
bytes. -/
theorem length_of_upperCase_prefix (hA : Sized u_toupper A) (ha : A.Text a) (hb : A.Text b)
    (h : upperCase u_toupper b <+: upperCase u_toupper a) : (utf8 b).length ≤ (utf8 a).length := by
  have htake := List.prefix_iff_eq_take.mp h
  have hfront : upperCase u_toupper b = upperCase u_toupper (a.take b.length) := by
    rw [htake]
    simp only [upperCase, List.length_map, List.map_take]
  rw [length_of_upperCase_eq hA hb (ha.take _) hfront]
  exact length_utf8_take_le a _

theorem startsWith_spec (hA : Sized u_toupper A) (ha : A.Text a) (hb : A.Text b) :
    ∃ r, startsWith u_toupper a b = some r ∧
      (r = true ↔ upperCase u_toupper b <+: upperCase u_toupper a) := by
  have hstra : strlen (cText a) = (utf8 a).length := by rw [strlen, takeWhile_cText ha.noNul]
  have hstrb : strlen (cText b) = (utf8 b).length := by rw [strlen, takeWhile_cText hb.noNul]
  simp only [startsWith, insensitiveStartWith, deref_cText_eq_zero hb, hstra, hstrb,
    cString_text ha, cString_text hb]
  by_cases hempty : b = []
  · rw [if_pos hempty, hempty]
    exact ⟨true, rfl, fun _ => List.nil_prefix, fun _ => rfl⟩
  · have hpos := length_utf8_pos hempty
    rw [if_neg hempty]
    by_cases hshort : (utf8 a).length = 0 ∨ (utf8 b).length = 0 ∨ (utf8 a).length < (utf8 b).length
    · rw [if_pos hshort]
      refine ⟨false, rfl, fun h => absurd h Bool.false_ne_true, fun h => ?_⟩
      have := length_of_upperCase_prefix hA ha hb h
      omega
    · have hlen := length_le_length_utf8 a
      rw [if_neg hshort]
      rcases walk_startsWith hA ha hb (by omega)
        (show a.length < (cText a).length + 1 by rw [length_cText]; omega) with
        ⟨d, hd, hno⟩ | ⟨p1, p2, hp, hyes⟩
      · rw [hd]
        exact ⟨false, rfl, fun h => absurd h Bool.false_ne_true, fun h => absurd h hno⟩
      · rw [hp]
        exact ⟨true, rfl, fun _ => hyes, fun _ => rfl⟩

/-! ## Where the order breaks -/

/-- After the first byte of a character come continuation bytes. -/
theorem encode_tail (y : Char) : ∀ c ∈ (String.utf8EncodeChar y).tail,
    ∃ m < 64, c = UInt8.ofNat (m + 0x80) := by
  intro c hc
  have hmod : ∀ n, n % 64 < 64 := fun n => Nat.mod_lt n (by decide)
  unfold String.utf8EncodeChar at hc
  simp only at hc
  split_ifs at hc
  all_goals simp only [List.tail_cons, List.mem_cons, List.not_mem_nil, or_false] at hc
  · exact ⟨_, hmod _, hc⟩
  · rcases hc with hc | hc <;> exact ⟨_, hmod _, hc⟩
  · rcases hc with hc | hc | hc <;> exact ⟨_, hmod _, hc⟩

theorem isASCII_continuation {c : UInt8} (h : ∃ m < 64, c = UInt8.ofNat (m + 0x80)) :
    ¬ isASCII c = true := by
  have htail : ∀ n < 64, isASCII (UInt8.ofNat (n + 0x80)) = false := by decide
  obtain ⟨m, hm, rfl⟩ := h
  rw [htail m hm]
  exact Bool.false_ne_true

/-- The second byte of a longer character is not ASCII. -/
theorem encode_second {y : Char} (hy : y.utf8Size ≠ 1) (p : Bytes) :
    ¬ isASCII (deref ((String.utf8EncodeChar y ++ p).tail)) = true := by
  have hlen := String.length_utf8EncodeChar y
  have hpos := y.utf8Size_pos
  apply isASCII_continuation
  apply encode_tail y
  cases hu : String.utf8EncodeChar y with
  | nil =>
    rw [hu, List.length_nil] at hlen
    omega
  | cons b u =>
    cases u with
    | nil =>
      rw [hu, List.length_singleton] at hlen
      omega
    | cons c u => exact List.mem_cons_self

theorem compareTexts_eq (ha : A.Text a) (hb : A.Text b) (hne : a ≠ []) {w : Walk}
    (hw : walk (toUpperChar u_toupper) ((cText a).length + 1) (cText a) (cText b) = some w) :
    compareTexts u_toupper a b = some w.difference := by
  simp only [compareTexts, compareIgnoreCase, deref_cText_eq_zero ha, cString_text ha,
    cString_text hb, hw, hne, false_and, if_false]
  cases w with
  | differ difference => rfl
  | stop p1 p2 => rfl

theorem long_singleton (x : Char) : 1 < (cText [x]).length := by
  have := length_utf8_pos (List.cons_ne_nil x [])
  rw [length_cText]
  omega

/-- An ASCII character is above every other one: the first byte of that one, and
the byte after it, count as negative. -/
theorem compareTexts_ascii {x y : Char} (hx : A.mem x) (hy : A.mem y) (hx1 : x.utf8Size = 1)
    (hy1 : y.utf8Size ≠ 1) : ∃ r, compareTexts u_toupper [x] [y] = some r ∧ 0 < r := by
  have htx := A.text_singleton hx
  have hty := A.text_singleton hy
  obtain ⟨-, hxint, hxtail⟩ := deref_of_size_one htx.noNul hx1
  have hlead := charInt_neg (mt (isASCII_iff hty.noNul).mp hy1)
  have hsecond := charInt_neg (encode_second hy1 (cText []))
  rw [← cText_cons] at hsecond
  have hlong := And.intro (long_singleton x) (long_singleton y)
  by_cases hdiffer : deref (cText [x]) ≠ deref (cText [y]) ∧
      toUpperChar u_toupper (signExtend (deref (cText [x]))) ≠
        toUpperChar u_toupper (signExtend (deref (cText [y])))
  · refine ⟨_, compareTexts_eq htx hty (List.cons_ne_nil x []) (by
      rw [walk, if_pos hlong, if_pos ((isASCII_iff htx.noNul).mpr hx1), if_pos hdiffer]), ?_⟩
    rw [Walk.difference, hxint]
    omega
  · have hnil : walk (toUpperChar u_toupper) (cText [x]).length (cText []) (cText [y]).tail =
        some (.stop (cText []) (cText [y]).tail) := by
      obtain ⟨n, hn⟩ : ∃ n, (cText [x]).length = n + 1 := ⟨(cText [x]).length - 1, by omega⟩
      rw [hn, walk, if_neg fun h => absurd h.1 (by decide)]
    refine ⟨_, compareTexts_eq htx hty (List.cons_ne_nil x []) (by
      rw [walk, if_pos hlong, if_pos ((isASCII_iff htx.noNul).mpr hx1), if_neg hdiffer, hxtail,
        hnil]), ?_⟩
    rw [Walk.difference, charInt_nul]
    omega

/-- In the other order the characters are decoded, and their difference is
returned. -/
theorem compareTexts_decoded {x y : Char} (hx : A.mem x) (hy : A.mem y) (hx1 : x.utf8Size = 1)
    (hy1 : y.utf8Size ≠ 1)
    (hupper : toUpperChar u_toupper y.val ≠ toUpperChar u_toupper x.val) :
    ∃ r, compareTexts u_toupper [y] [x] = some r ∧ 0 < r := by
  have htx := A.text_singleton hx
  have hty := A.text_singleton hy
  obtain ⟨-, -, hchar, -, -⟩ := cText_at htx.noNul
  obtain ⟨-, -, hchar', -, -⟩ := cText_at hty.noNul
  have hne : y.val ≠ x.val := fun h => hupper (congrArg _ h)
  have hwalk : walk (toUpperChar u_toupper) ((cText [y]).length + 1) (cText [y]) (cText [x]) =
      some (.differ (toInt32 (y.val - x.val).toNat)) := by
    rw [walk, if_pos ⟨long_singleton y, long_singleton x⟩,
      if_neg (mt (isASCII_iff hty.noNul).mp hy1)]
    simp only [hchar, hchar', ne_eq, hne, hupper, not_false_eq_true, and_self, if_true]
  refine ⟨_, compareTexts_eq hty htx (List.cons_ne_nil y []) hwalk, ?_⟩
  rw [Walk.difference, toInt32_sub]
  have hlast : (0x7F : UInt32).toNat = 127 := rfl
  rw [ne_eq, Char.utf8Size_eq_one_iff, UInt32.le_iff_toNat_le] at hy1
  rw [Char.utf8Size_eq_one_iff, UInt32.le_iff_toNat_le] at hx1
  omega

/-- Where the order is right, characters with one upper case have one size: a
longer text never passes as the start of a shorter one. -/
theorem OrderRight.size_le (h : OrderRight u_toupper A) {x y : Char} (hx : A.mem x) (hy : A.mem y)
    (hupper : toUpperChar u_toupper x.val = toUpperChar u_toupper y.val) :
    y.utf8Size ≤ x.utf8Size := by
  by_contra hlt
  have htx := A.text_singleton hx
  have hty := A.text_singleton hy
  obtain ⟨r, hr, hiff⟩ := h.startsWith htx hty
  have hstrx : strlen (cText [x]) = x.utf8Size := by
    rw [strlen, takeWhile_cText htx.noNul]
    simp
  have hstry : strlen (cText [y]) = y.utf8Size := by
    rw [strlen, takeWhile_cText hty.noNul]
    simp
  have hfalse : ElString.startsWith u_toupper [x] [y] = some false := by
    simp only [ElString.startsWith, insensitiveStartWith, deref_cText_eq_zero hty, hstrx, hstry]
    rw [if_neg (List.cons_ne_nil y []), if_pos (Or.inr (Or.inr (by omega)))]
  rw [hfalse] at hr
  cases hr
  have hprefix : upperCase u_toupper [y] <+: upperCase u_toupper [x] := by
    simp only [upperCase, List.map_cons, List.map_nil, hupper]
    exact List.prefix_rfl
  exact absurd (hiff.mpr hprefix) Bool.false_ne_true

theorem OrderRight.oneKind (h : OrderRight u_toupper A) : A.OneKind := by
  by_contra hmixed
  simp only [Alphabet.OneKind, not_or, not_forall, not_not] at hmixed
  obtain ⟨⟨y, hy, hy1⟩, x, hx, hx1⟩ := hmixed
  have hupper : toUpperChar u_toupper y.val ≠ toUpperChar u_toupper x.val := by
    intro heq
    have h1 := h.size_le hx hy heq.symm
    have h2 := y.utf8Size_pos
    omega
  obtain ⟨r, hr, hpos⟩ := @compareTexts_ascii u_toupper A x y hx hy hx1 hy1
  obtain ⟨r', hr', hpos'⟩ := compareTexts_decoded hx hy hx1 hy1 hupper
  have hsign := h.opposite (A.text_singleton hx) (A.text_singleton hy) hr hr'
  rw [Int.sign_eq_one_of_pos hpos, Int.sign_eq_one_of_pos hpos'] at hsign
  exact absurd hsign (by decide)

theorem OrderRight.separable (h : OrderRight u_toupper A) : Separable u_toupper A := by
  classical
  have hkind := h.oneKind
  refine ⟨hkind, ?_, ?_⟩
  · intro x y hx hy hupper
    exact Nat.le_antisymm (h.size_le hy hx hupper.symm) (h.size_le hx hy hupper)
  · intro x y z hx hy hz hxy hne hbetween
    -- y ≤ x and x ≤ z, but z < y
    obtain ⟨hxz, hzy⟩ := hbetween
    have htx := A.text_singleton hx
    have hty := A.text_singleton hy
    have htz := A.text_singleton hz
    obtain ⟨r, hr, hsign⟩ := @compareTexts_sign u_toupper A [y] [x] hkind _ hty htx
    obtain ⟨r', hr', hsign'⟩ := @compareTexts_sign u_toupper A [x] [z] hkind _ htx htz
    obtain ⟨r'', hr'', hsign''⟩ := @compareTexts_sign u_toupper A [y] [z] hkind _ hty htz
    rw [lexSign, if_pos hxy.symm, lexSign] at hsign
    rw [lexSign, if_neg fun heq => hne heq.symm, if_pos (show rank x < rank z from hxz)] at hsign'
    rw [lexSign, if_neg fun heq => hne (heq.symm.trans hxy.symm),
      if_neg (show ¬ rank y < rank z from Nat.lt_asymm hzy)] at hsign''
    have hle := h.trans hty htx htz hr hr' hr'' (by rw [Int.sign_eq_zero_iff_zero] at hsign; omega)
      (by have := Int.neg_of_sign_eq_neg_one hsign'; omega)
    have := Int.pos_of_sign_eq_one hsign''
    omega

/-- For two texts the order of the classes does not matter: where they are sized, the
comparison is zero for one upper case, its sign is the opposite the other way round,
and `StartWithIgnoreCase` finds the fronts. -/
theorem Sized.pair (hA : Sized u_toupper A) (ha : A.Text a) (hb : A.Text b) :
    ∃ r r', compareTexts u_toupper a b = some r ∧ compareTexts u_toupper b a = some r' ∧
      (r = 0 ↔ upperCase u_toupper a = upperCase u_toupper b) ∧ r'.sign = -r.sign ∧
      ∃ s, startsWith u_toupper a b = some s ∧
        (s = true ↔ upperCase u_toupper b <+: upperCase u_toupper a) := by
  classical
  obtain ⟨r, hr, hsign⟩ := @compareTexts_sign u_toupper A a b hA.oneKind _ ha hb
  obtain ⟨r', hr', hsign'⟩ := @compareTexts_sign u_toupper A b a hA.oneKind _ hb ha
  refine ⟨r, r', hr, hr', ?_, ?_, startsWith_spec hA ha hb⟩
  · have hend : endSign A ≠ 0 := by
      unfold endSign
      split <;> decide
    rw [← Int.sign_eq_zero_iff_zero, hsign]
    exact lexSign_eq_zero_iff hend
  · rw [hsign, hsign']
    exact lexSign_symm (fun _ _ heq => congrArg _ (UInt32.toNat_inj.mp heq)) ha.mem hb.mem

/-- ASCII in any mix of cases. -/
theorem Alphabet.sized_of_ascii (h : ∀ c, A.mem c → c.utf8Size = 1) : Sized u_toupper A :=
  ⟨Or.inl h, fun hx hy _ => (h _ hx).trans (h _ hy).symm⟩

/-- Over an alphabet, `CompareIgnoreCase` is the total preorder of the upper
cases and `StartWithIgnoreCase` agrees with it exactly if the alphabet is
separable. -/
theorem orderRight_iff : OrderRight u_toupper A ↔ Separable u_toupper A := by
  classical
  refine ⟨OrderRight.separable, fun h => ⟨?_, ?_, ?_, ?_, fun ha hb => startsWith_spec h.sized ha hb⟩⟩
  · intro a b ha hb
    obtain ⟨r, -, hr, -⟩ := h.sized.pair ha hb
    exact ⟨r, hr⟩
  · intro a b ha hb
    obtain ⟨r, -, hr, -, hzero, -⟩ := h.sized.pair ha hb
    rw [hr, Option.some_inj]
    exact hzero
  · intro a b r r' ha hb hr hr'
    obtain ⟨s, s', hs, hs', -, hopposite, -⟩ := h.sized.pair ha hb
    rw [hs, Option.some_inj] at hr
    rw [hs', Option.some_inj] at hr'
    rw [← hr, ← hr', hopposite]
  · -- the classes lie apart
    have hsign : ∀ {a b : List Char}, A.Text a → A.Text b → ∀ {r},
        compareTexts u_toupper a b = some r →
        r.sign = lexSign (fun c => toUpperChar u_toupper c.val) rank (endSign A) a b := by
      intro a b ha hb r hr
      obtain ⟨r', hr', hsign⟩ := @compareTexts_sign u_toupper A a b h.oneKind _ ha hb
      rw [hr] at hr'
      cases hr'
      exact hsign
    have hend : endSign A = 1 ∨ endSign A = -1 := by
      unfold endSign
      split
      · exact Or.inr rfl
      · exact Or.inl rfl
    intro a b c r r' r'' ha hb hc hr hr' hr'' hle hle'
    have htrans := lexSign_trans h.convex hend ha.mem hb.mem hc.mem
    rw [← hsign ha hb hr, ← hsign hb hc hr', ← hsign ha hc hr'', Int.sign_nonpos_iff,
      Int.sign_nonpos_iff, Int.sign_nonpos_iff] at htrans
    exact htrans hle hle'

/-- All characters that can stand in a string. -/
def allChars : Alphabet := { mem := fun c => c ≠ Char.ofNat 0, noNul := fun h => h rfl }

/-- `"a"` is above `"é"` and `"é"` is above `"a"`. -/
theorem compare_both_above :
    compareTexts id ['a'] ['é'] = some 158 ∧ compareTexts id ['é'] ['a'] = some 136 ∧
    ¬ OrderRight id allChars := by
  have h1 : compareTexts id ['a'] ['é'] = some 158 := by decide
  have h2 : compareTexts id ['é'] ['a'] = some 136 := by decide
  refine ⟨h1, h2, fun h => ?_⟩
  have hsign := h.opposite (Alphabet.text_singleton (A := allChars) (by decide : 'a' ≠ Char.ofNat 0))
    (Alphabet.text_singleton (A := allChars) (by decide : 'é' ≠ Char.ofNat 0)) h1 h2
  exact absurd hsign (by decide)

end Order

end ElString

end SuperExe.Elastos
