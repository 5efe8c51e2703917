import SuperExe.Elastos.CompareIgnoreCase
import SuperExe.Elastos.IndexOf

/-! # Searching ignoring case

`InsensitiveIndexOf` measures the pattern in bytes while it compares characters,
and its comparison of the rest overwrites the size with which the search goes on
behind the first character. Both only work where all characters have one size.
As long as characters with one upper case have one size and the cursors stay on
boundaries, a turn of the search is described by `verifyChars`, which says where
it goes on.
-/

namespace SuperExe.Elastos

open SuperExe.Core SuperExe.Lib

namespace ElString

/-! ## The code -/

/-- The `for` loop of `InsensitiveIndexOf` over the text. -/
def firstFoldLoop (upper : Char32 → Char32) (string subString : Bytes)
    (byteLength subByteLength : Nat) : Nat → Nat → Int → Option FirstChar
  | 0, _, _ => none
  | fuel + 1, i, charStart =>
    if i < byteLength then
      let p := string.drop i
      if isASCII (deref p) then
        if p.length ≤ 1 then some (.ret (-1))
        else if deref p = deref subString ∨
            upper (signExtend (deref p)) = upper (signExtend (deref subString)) then
          if 1 = subByteLength then some (.ret charStart) else some (.found i charStart 1)
        else
          firstFoldLoop upper string subString byteLength subByteLength fuel (i + 1) (charStart + 1)
      else
        let (ch1, charlen1) := getCharInternal p
        if charlen1 = 0 ∨ p.length ≤ charlen1 then some (.ret (-1))
        else
          let (ch2, charlen2) := getCharInternal subString
          if charlen2 = 0 ∨ subByteLength < charlen2 then some (.ret (-1))
          else if ch1 = ch2 ∨ upper ch1 = upper ch2 then
            if charlen1 = subByteLength then some (.ret charStart)
            else some (.found i charStart charlen1)
          else
            firstFoldLoop upper string subString byteLength subByteLength fuel (i + charlen1)
              (charStart + 1)
    else some .missed

/-- How the comparison ends: it gives up the search, or it leaves `o2` and
`charlen1`. -/
inductive Verify where
  | ret (result : Int)
  | stop (o2 charlen1 : Nat)

/-- The comparison of `InsensitiveIndexOf` from `o1` and `o2` on. `charlen1` is
the variable the search goes on with. -/
def verifyLoop (upper : Char32 → Char32) (string subString : Bytes) (subByteLength : Nat) :
    Nat → Nat → Nat → Nat → Option Verify
  | 0, _, _, _ => none
  | fuel + 1, o1, o2, charlen1 =>
    if o2 < subByteLength then
      let p := string.drop o1
      let q := subString.drop o2
      if isASCII (deref p) then
        if p.length ≤ 1 then some (.stop o2 charlen1)
        else if deref p ≠ deref q ∧ upper (signExtend (deref p)) ≠ upper (signExtend (deref q)) then
          some (.stop o2 charlen1)
        else verifyLoop upper string subString subByteLength fuel (o1 + 1) (o2 + 1) charlen1
      else
        let (ch1, charlen1) := getCharInternal p
        if charlen1 = 0 ∨ p.length ≤ charlen1 then some (.ret (-1))
        else
          let (ch2, charlen2) := getCharInternal q
          if charlen2 = 0 ∨ subByteLength < o2 + charlen2 then some (.ret (-1))
          else if ch1 ≠ ch2 ∧ upper ch1 ≠ upper ch2 then some (.stop o2 charlen1)
          else
            verifyLoop upper string subString subByteLength fuel (o1 + charlen1) (o2 + charlen1)
              charlen1
    else some (.stop o2 charlen1)

/-- The outer loop of `InsensitiveIndexOf`. -/
def insensitiveLoop (upper : Char32 → Char32) (string subString : Bytes)
    (byteLength subByteLength : Nat) : Nat → Nat → Int → Option Int
  | 0, _, _ => none
  | fuel + 1, byteStart, charStart =>
    if toInt32 (subByteLength + byteStart) ≤ byteLength then
      match firstFoldLoop upper string subString byteLength subByteLength (byteLength + 1) byteStart
          charStart with
      | none => none
      | some (.ret result) => some result
      | some .missed => some (-1)
      | some (.found i charStart charlen1) =>
        if toInt32 (subByteLength + i) > byteLength then some (-1)
        else
          match verifyLoop upper string subString subByteLength (subByteLength + 1) i 0 charlen1 with
          | none => none
          | some (.ret result) => some result
          | some (.stop o2 charlen1) =>
            if o2 = subByteLength then some charStart
            else
              insensitiveLoop upper string subString byteLength subByteLength fuel (i + charlen1)
                (charStart + 1)
    else some (-1)

/-- `InsensitiveIndexOf`; `none` would be a search that does not end. -/
def insensitiveIndexOf (upper : Char32 → Char32) (string subString : Option Bytes)
    (startChar : Int) : Option Int :=
  match string, subString with
  | some string, some subString =>
    if deref subString = 0 then some 0
    else
      let startChar := max 0 startChar
      let byteLength := strlen string
      let subByteLength := strlen subString
      if subByteLength > byteLength then some (-1)
      else
        let byteStart := charIndexToByteIndex (some string) startChar
        if byteStart < 0 ∨ toInt32 (subByteLength + byteStart) > byteLength then some (-1)
        else
          insensitiveLoop upper (cString string) (cString subString) byteLength subByteLength
            (byteLength + 1) byteStart.toNat startChar
  | _, _ => some (-1)

/-- `ContainsIgnoreCase` -/
def containsIgnoreCase (upper : Char32 → Char32) (string subString : Option Bytes) : Option Bool :=
  (insensitiveIndexOf upper string subString 0).map fun index => index != -1

/-! ## At the boundaries -/

/-- What the pattern's first byte is compared with when the character of the text
is ASCII and this one is not. -/
def leadChar (d : Char) : Char32 := signExtend (deref (String.utf8EncodeChar d))

/-- What the loops take for a match: one upper case, and an ASCII character only
with an ASCII one. -/
def Meets (upper : Char32 → Char32) (c d : Char) : Prop :=
  upper c.val = upper d.val ∧ (c.utf8Size = 1 → d.utf8Size = 1)

instance (upper : Char32 → Char32) (c d : Char) : Decidable (Meets upper c d) :=
  inferInstanceAs (Decidable (_ ∧ _))

/-- The comparison of a text with the rest of the pattern, by characters:
whether the pattern is there, and the `charlen1` that is left. -/
def verifyChars (upper : Char32 → Char32) : List Char → List Char → Nat → Bool × Nat
  | _, [], charlen1 => (true, charlen1)
  | [], _ :: _, charlen1 => (false, charlen1)
  | c :: cs, d :: ds, charlen1 =>
    let charlen1 := if c.utf8Size = 1 then charlen1 else c.utf8Size
    if Meets upper c d then verifyChars upper cs ds charlen1 else (false, charlen1)

/-- The pairs of characters a comparison looks at, up to the first two that do
not match. -/
def compared (upper : Char32 → Char32) : List Char → List Char → List (Char × Char)
  | c :: cs, d :: ds => (c, d) :: if Meets upper c d then compared upper cs ds else []
  | _, _ => []

/-- Characters that match have the same number of bytes. -/
def SameSizes (upper : Char32 → Char32) (pairs : List (Char × Char)) : Prop :=
  ∀ p ∈ pairs, Meets upper p.1 p.2 → p.1.utf8Size = p.2.utf8Size

/-- The characters of the text that are not ASCII. -/
def longer (pairs : List (Char × Char)) : List Char :=
  (pairs.map Prod.fst).filter fun c => c.utf8Size ≠ 1

/-- The last character looked at that is not ASCII, if there is one, has so many
bytes. -/
def LastSize (pairs : List (Char × Char)) (size : Nat) : Prop :=
  ∀ c ∈ (longer pairs).getLast?, c.utf8Size = size

/-- No ASCII character of the text is like the first byte of a longer character of
the pattern. -/
def LeadsApart (upper : Char32 → Char32) (cs ds : List Char) : Prop :=
  ∀ c ∈ cs, ∀ d ∈ ds, c.utf8Size = 1 → d.utf8Size ≠ 1 → upper c.val ≠ upper (leadChar d)

/-- Where the pattern stands once both are mapped. -/
def FoldedAt (upper : Char32 → Char32) (ds cs : List Char) (i : Nat) : Prop :=
  OccursAt (ds.map fun c => upper c.val) (cs.map fun c => upper c.val) i

instance (upper : Char32 → Char32) (ds cs : List Char) (i : Nat) :
    Decidable (FoldedAt upper ds cs i) :=
  inferInstanceAs (Decidable (OccursAt _ _ i))

/-- The number of bytes before the character with index `n`. -/
def offset (cs : List Char) (n : Nat) : Nat := (utf8 (cs.take n)).length

/-- Whether the bytes of the pattern fit behind the character, as the search asks
it: the sum can wrap. -/
def Room (cs ds : List Char) (m : Nat) : Prop :=
  toInt32 ((utf8 ds).length + offset cs m) ≤ (utf8 cs).length

instance (upper : Char32 → Char32) (pairs : List (Char × Char)) :
    Decidable (SameSizes upper pairs) :=
  inferInstanceAs (Decidable (∀ p ∈ pairs, _))

-- the instances go through the lists: `Char` also has one that goes through all characters

instance (pairs : List (Char × Char)) (size : Nat) : Decidable (LastSize pairs size) :=
  Option.decidableForallMem (longer pairs).getLast?

instance (upper : Char32 → Char32) (cs ds : List Char) : Decidable (LeadsApart upper cs ds) :=
  @List.decidableBAll Char _ (fun _ => List.decidableBAll _ ds) cs

instance (cs ds : List Char) (m : Nat) : Decidable (Room cs ds m) :=
  inferInstanceAs (Decidable (_ ≤ _))

section Boundaries

variable {upper : Char32 → Char32} {cs ds es : List Char} {c d : Char}

theorem verifyChars_nil (upper : Char32 → Char32) (cs : List Char) (charlen1 : Nat) :
    verifyChars upper cs [] charlen1 = (true, charlen1) := by
  cases cs <;> rfl

theorem meets_self : Meets upper c c := ⟨rfl, fun h => h⟩

@[simp] theorem offset_zero (cs : List Char) : offset cs 0 = 0 := by simp [offset]

theorem offset_succ {n : Nat} (h : cs[n]? = some c) : offset cs (n + 1) = offset cs n + c.utf8Size := by
  rw [offset, offset, List.take_add_one, h, utf8_append, List.length_append]
  simp

theorem offset_le (cs : List Char) (n : Nat) : offset cs n ≤ (utf8 cs).length :=
  length_utf8_take_le cs n

theorem offset_mono {n i : Nat} (h : n ≤ i) : offset cs n ≤ offset cs i := by
  have htake : cs.take n = (cs.take i).take n := by rw [List.take_take, min_eq_left h]
  have hle := length_utf8_take_le (cs.take i) n
  rwa [← htake] at hle

theorem offset_of_le {n : Nat} (h : cs.length ≤ n) : offset cs n = (utf8 cs).length := by
  rw [offset, List.take_of_length_le h]

theorem drop_offset (cs : List Char) (n : Nat) : (cText cs).drop (offset cs n) = cText (cs.drop n) :=
  drop_cText n

theorem leadChar_eq (d : Char) (ds : List Char) :
    signExtend (deref (cText (d :: ds))) = leadChar d := by
  have hne : String.utf8EncodeChar d ≠ [] := by
    intro h
    have hlen := String.length_utf8EncodeChar d
    have hpos := d.utf8Size_pos
    rw [h, List.length_nil] at hlen
    omega
  obtain ⟨b, bs, hb⟩ := List.exists_cons_of_ne_nil hne
  rw [leadChar, cText_cons, hb]
  rfl

/-- What two characters look like to the two branches of the loops: ASCII bytes
are compared as they are. -/
theorem byte_match (hc : NoNul (c :: cs)) (hd : NoNul (d :: ds)) (hc1 : c.utf8Size = 1)
    (hlead : d.utf8Size ≠ 1 → upper c.val ≠ upper (leadChar d)) :
    (deref (cText (c :: cs)) = deref (cText (d :: ds)) ∨
      upper (signExtend (deref (cText (c :: cs)))) = upper (signExtend (deref (cText (d :: ds))))) ↔
    Meets upper c d := by
  obtain ⟨hval, -, -⟩ := deref_of_size_one hc hc1
  by_cases hd1 : d.utf8Size = 1
  · obtain ⟨hval', -, -⟩ := deref_of_size_one hd hd1
    rw [hval, hval']
    constructor
    · rintro (h | h)
      · exact ⟨by rw [← hval, ← hval', h], fun _ => hd1⟩
      · exact ⟨h, fun _ => hd1⟩
    · exact fun h => Or.inr h.1
  · -- the first byte of a longer character is not ASCII
    rw [hval, leadChar_eq]
    constructor
    · rintro (h | h)
      · exact absurd ((isASCII_iff hd).mp (h ▸ (isASCII_iff hc).mpr hc1)) hd1
      · exact absurd h (hlead hd1)
    · exact fun h => absurd (h.2 hc1) hd1

theorem char_match (hc1 : c.utf8Size ≠ 1) :
    (c.val = d.val ∨ upper c.val = upper d.val) ↔ Meets upper c d := by
  constructor
  · rintro (h | h)
    · exact ⟨congrArg upper h, fun h1 => absurd h1 hc1⟩
    · exact ⟨h, fun h1 => absurd h1 hc1⟩
  · exact fun h => Or.inr h.1

/-- The search for the first character, at a boundary. -/
theorem firstFoldLoop_at (hn : NoNul cs) (hd : NoNul (d :: ds)) (hleads : LeadsApart upper cs (d :: ds))
    {n : Nat} (hc : cs.drop n = c :: es) (fuel : Nat) (charStart : Int) :
    firstFoldLoop upper (cText cs) (cText (d :: ds)) (utf8 cs).length (utf8 (d :: ds)).length
        (fuel + 1) (offset cs n) charStart =
      if Meets upper c d then
        if c.utf8Size = (utf8 (d :: ds)).length then some (.ret charStart)
        else some (.found (offset cs n) charStart c.utf8Size)
      else
        firstFoldLoop upper (cText cs) (cText (d :: ds)) (utf8 cs).length (utf8 (d :: ds)).length
          fuel (offset cs (n + 1)) (charStart + 1) := by
  obtain ⟨hget, -⟩ := drop_eq_cons hc
  have hn' : NoNul (c :: es) := hc ▸ hn.drop n
  obtain ⟨-, -, hchar, hmore, -⟩ := cText_at hn'
  obtain ⟨-, -, hchar', -, -⟩ := cText_at hd
  have hstep := offset_succ hget
  have hpos := c.utf8Size_pos
  have hin : offset cs n < (utf8 cs).length := by
    have := offset_le cs (n + 1)
    omega
  have hfits : ¬ (d.utf8Size = 0 ∨ (utf8 (d :: ds)).length < d.utf8Size) := by
    have := d.utf8Size_pos
    rw [utf8_cons, List.length_append, String.length_utf8EncodeChar]
    omega
  rw [firstFoldLoop, if_pos hin]
  simp only [drop_offset, hc]
  by_cases hc1 : c.utf8Size = 1
  · have hbyte := byte_match hn' hd hc1
      (hleads c (List.mem_of_getElem? hget) d List.mem_cons_self hc1)
    rw [if_pos ((isASCII_iff hn').mpr hc1)]
    rw [hc1] at hmore hstep ⊢
    rw [if_neg (by omega), hstep]
    simp only [hbyte]
  · rw [if_neg (mt (isASCII_iff hn').mp hc1), hstep]
    simp only [hchar, hchar', if_neg hmore, if_neg hfits, char_match hc1]

/-! ### One comparison -/

theorem mem_zip_of_mem_compared {p : Char × Char} (h : p ∈ compared upper cs ds) :
    p ∈ cs.zip ds := by
  induction cs generalizing ds with
  | nil => cases h
  | cons c cs ih =>
    cases ds with
    | nil => cases h
    | cons d ds =>
      rw [compared] at h
      rw [List.zip_cons_cons]
      rcases List.mem_cons.mp h with rfl | h
      · exact List.mem_cons_self
      · split at h
        · exact List.mem_cons_of_mem _ (ih h)
        · cases h

/-- Of two characters that match the comparison goes on to the next ones. -/
theorem SameSizes.rest (h : SameSizes upper (compared upper (c :: cs) (d :: ds)))
    (hmeets : Meets upper c d) : SameSizes upper (compared upper cs ds) := by
  rw [compared, if_pos hmeets] at h
  exact fun p hp => h p (List.mem_cons_of_mem _ hp)

theorem SameSizes.first (h : SameSizes upper (compared upper (c :: cs) (d :: ds)))
    (hmeets : Meets upper c d) : c.utf8Size = d.utf8Size := by
  rw [compared] at h
  exact h (c, d) List.mem_cons_self hmeets

/-- The comparison of the rest, at a boundary of both, as long as what matches has
one size. -/
theorem verifyLoop_at (hn : NoNul cs) (hd : NoNul ds) (hleads : LeadsApart upper cs ds) {m k : Nat}
    (hsame : SameSizes upper (compared upper (cs.drop m) (ds.drop k)))
    (hk : k ≤ ds.length) {fuel : Nat} (hf : ds.length - k < fuel) (charlen1 : Nat) :
    ∃ o2, verifyLoop upper (cText cs) (cText ds) (utf8 ds).length fuel (offset cs m) (offset ds k)
        charlen1 = some (.stop o2 (verifyChars upper (cs.drop m) (ds.drop k) charlen1).2) ∧
      (o2 = (utf8 ds).length ↔
        (verifyChars upper (cs.drop m) (ds.drop k) charlen1).1 = true) := by
  induction fuel generalizing m k charlen1 with
  | zero => omega
  | succ fuel ih =>
    cases hdk : ds.drop k with
    | nil =>
      have hlen : ds.length ≤ k := List.drop_eq_nil_iff.mp hdk
      rw [verifyLoop, offset_of_le hlen, if_neg (Nat.lt_irrefl _), verifyChars_nil]
      exact ⟨_, rfl, fun _ => rfl, fun _ => rfl⟩
    | cons d ds' =>
      obtain ⟨hgetd, hnextd⟩ := drop_eq_cons hdk
      have hd' : NoNul (d :: ds') := hdk ▸ hd.drop k
      obtain ⟨-, -, hchar', -, -⟩ := cText_at hd'
      have hstepd := offset_succ hgetd
      have hdpos := d.utf8Size_pos
      have hdle := offset_le ds (k + 1)
      have hkin : k < ds.length := (List.getElem?_eq_some_iff.mp hgetd).1
      have hin : offset ds k < (utf8 ds).length := by omega
      rw [verifyLoop, if_pos hin]
      simp only [drop_offset, hdk]
      cases hcm : cs.drop m with
      | nil =>
        -- the text is at its NUL
        refine ⟨offset ds k, ?_, ?_⟩
        · rw [cText_nil, if_pos (by decide), if_pos (by decide)]
          rfl
        · simp only [verifyChars, Bool.false_eq_true, iff_false]
          omega
      | cons c cs' =>
        obtain ⟨hgetc, hnextc⟩ := drop_eq_cons hcm
        have hn' : NoNul (c :: cs') := hcm ▸ hn.drop m
        obtain ⟨-, -, hchar, hmore, -⟩ := cText_at hn'
        have hstepc := offset_succ hgetc
        have hlead := hleads c (List.mem_of_getElem? hgetc) d (List.mem_of_getElem? hgetd)
        rw [hdk, hcm] at hsame
        have hrest : Meets upper c d → _ := fun hmeets => @ih (m + 1) (k + 1) (by
          rw [hnextc, hnextd]
          exact hsame.rest hmeets) (by omega) (by omega)
        rw [hnextc, hnextd] at hrest
        rw [verifyChars]
        by_cases hc1 : c.utf8Size = 1
        · have hbyte := byte_match hn' hd' hc1 (hlead hc1)
          rw [if_pos ((isASCII_iff hn').mpr hc1)]
          rw [hc1] at hmore hstepc
          rw [if_neg (by omega), if_pos hc1]
          by_cases hmeets : Meets upper c d
          · have hone := hsame.first hmeets
            rw [hc1] at hone
            rw [← hone] at hstepd
            rw [if_neg (not_and_or.mpr (by
              rcases hbyte.mpr hmeets with h | h
              · exact Or.inl (not_not.mpr h)
              · exact Or.inr (not_not.mpr h))), ← hstepc, ← hstepd, if_pos hmeets]
            exact hrest hmeets charlen1
          · have hboth := not_or.mp (mt hbyte.mp hmeets)
            rw [if_pos hboth, if_neg hmeets]
            refine ⟨_, rfl, ?_⟩
            simp only [Bool.false_eq_true, iff_false]
            omega
        · have hfits : ¬ (d.utf8Size = 0 ∨ (utf8 ds).length < offset ds k + d.utf8Size) := by omega
          rw [if_neg (mt (isASCII_iff hn').mp hc1), if_neg hc1]
          simp only [hchar, hchar', if_neg hmore, if_neg hfits]
          by_cases hmeets : Meets upper c d
          · rw [← hsame.first hmeets] at hstepd
            rw [if_neg fun h => h.2 hmeets.1, if_pos hmeets, ← hstepc, ← hstepd]
            exact hrest hmeets _
          · have hboth := not_or.mp (mt (char_match hc1).mp hmeets)
            rw [if_pos hboth, if_neg hmeets]
            refine ⟨_, rfl, ?_⟩
            simp only [Bool.false_eq_true, iff_false]
            omega

/-- Where the comparison succeeds the pattern stands. -/
theorem prefix_of_verifyChars {charlen1 : Nat} (h : (verifyChars upper cs ds charlen1).1 = true) :
    (ds.map fun c => upper c.val) <+: cs.map fun c => upper c.val := by
  induction ds generalizing cs charlen1 with
  | nil => exact List.nil_prefix
  | cons d ds ih =>
    cases cs with
    | nil => cases h
    | cons c cs =>
      rw [verifyChars] at h
      rw [List.map_cons, List.map_cons, List.cons_prefix_cons]
      split at h
      · next hmeets => exact ⟨hmeets.1.symm, ih h⟩
      · cases h

/-- It succeeds where the pattern stands with characters of the same sizes. -/
theorem verifyChars_of_front (charlen1 : Nat)
    (h : (ds.map fun c => upper c.val) <+: cs.map fun c => upper c.val)
    (hsizes : ∀ p ∈ cs.zip ds, p.1.utf8Size = p.2.utf8Size) :
    (verifyChars upper cs ds charlen1).1 = true := by
  induction ds generalizing cs charlen1 with
  | nil => rw [verifyChars_nil]
  | cons d ds ih =>
    cases cs with
    | nil => exact absurd h.length_le (by simp)
    | cons c cs =>
      rw [List.map_cons, List.map_cons, List.cons_prefix_cons] at h
      rw [List.zip_cons_cons] at hsizes
      have hsize := hsizes (c, d) List.mem_cons_self
      rw [verifyChars, if_pos ⟨h.1.symm, fun h1 => hsize ▸ h1⟩]
      exact ih _ h.2 fun p hp => hsizes p (List.mem_cons_of_mem _ hp)

/-- The comparison leaves the size of the last character that is not ASCII. -/
theorem verifyChars_snd (charlen1 : Nat) :
    (verifyChars upper cs ds charlen1).2 =
      ((longer (compared upper cs ds)).getLast?).elim charlen1 Char.utf8Size := by
  induction ds generalizing cs charlen1 with
  | nil =>
    rw [verifyChars_nil]
    cases cs <;> rfl
  | cons d ds ih =>
    cases cs with
    | nil => rfl
    | cons c cs =>
      have hsplit : ∀ pairs, longer ((c, d) :: pairs) =
          if c.utf8Size = 1 then longer pairs else c :: longer pairs := by
        intro pairs
        simp only [longer, List.map_cons, List.filter_cons, decide_not, Bool.not_eq_true',
          decide_eq_false_iff_not, ite_not]
      rw [verifyChars, compared, hsplit]
      by_cases hmeets : Meets upper c d
      · rw [if_pos hmeets, if_pos hmeets, ih]
        by_cases hc1 : c.utf8Size = 1
        · rw [if_pos hc1, if_pos hc1]
        · rw [if_neg hc1, if_neg hc1, List.getLast?_cons]
          cases (longer (compared upper cs ds)).getLast? <;> rfl
      · rw [if_neg hmeets, if_neg hmeets]
        by_cases hc1 : c.utf8Size = 1
        · rw [if_pos hc1, if_pos hc1]
          rfl
        · rw [if_neg hc1, if_neg hc1]
          rfl

theorem LastSize.verifyChars_snd {size : Nat} (h : LastSize (compared upper cs ds) size) :
    (verifyChars upper cs ds size).2 = size := by
  rw [ElString.verifyChars_snd]
  cases hlast : (longer (compared upper cs ds)).getLast? with
  | none => rfl
  | some c => exact h c hlast

/-! ### Occurrences -/

theorem foldedAt_iff (hne : ds ≠ []) {i : Nat} :
    FoldedAt upper ds cs i ↔
      (ds.map fun c => upper c.val) <+: (cs.drop i).map fun c => upper c.val := by
  rw [FoldedAt, occursAt_iff (by simpa using hne), List.map_drop]

/-- A match starts with a character that matches the first one. -/
theorem FoldedAt.first {i : Nat} (h : FoldedAt upper (d :: ds) cs i) :
    ∃ c, cs[i]? = some c ∧ upper c.val = upper d.val := by
  rw [foldedAt_iff (List.cons_ne_nil d ds)] at h
  cases hc : cs.drop i with
  | nil =>
    rw [hc] at h
    exact absurd h.length_le (by simp)
  | cons c es =>
    rw [hc, List.map_cons, List.map_cons, List.cons_prefix_cons] at h
    exact ⟨c, (drop_eq_cons hc).1, h.1.symm⟩

/-- Texts that match with characters of the same sizes take the same number of
bytes. -/
theorem length_of_folded_prefix (hsizes : ∀ p ∈ cs.zip ds, p.1.utf8Size = p.2.utf8Size)
    (h : (ds.map fun c => upper c.val) <+: cs.map fun c => upper c.val) :
    (utf8 ds).length ≤ (utf8 cs).length := by
  induction ds generalizing cs with
  | nil => exact Nat.zero_le _
  | cons d ds ih =>
    cases cs with
    | nil => exact absurd h.length_le (by simp)
    | cons c cs =>
      rw [List.map_cons, List.map_cons, List.cons_prefix_cons] at h
      rw [List.zip_cons_cons] at hsizes
      have hsize := hsizes (c, d) List.mem_cons_self
      have hrest := ih (fun p hp => hsizes p (List.mem_cons_of_mem _ hp)) h.2
      dsimp only at hsize
      simp only [utf8_cons, List.length_append, String.length_utf8EncodeChar]
      omega

/-- An occurrence has room for the bytes of the pattern. -/
theorem offset_of_foldedAt (hne : ds ≠ []) {n i : Nat}
    (hsizes : ∀ p ∈ (cs.drop i).zip ds, p.1.utf8Size = p.2.utf8Size)
    (h : FoldedAt upper ds cs i) (hle : n ≤ i) :
    offset cs n + (utf8 ds).length ≤ (utf8 cs).length := by
  have hbytes := length_of_folded_prefix hsizes ((foldedAt_iff hne).mp h)
  have hsplit : (utf8 cs).length = offset cs i + (utf8 (cs.drop i)).length := by
    rw [offset, ← List.length_append, ← utf8_append, List.take_append_drop]
  have hmono := @offset_mono cs _ _ hle
  omega

theorem room_of_le (hcs : (utf8 cs).length < 2 ^ 31) {m : Nat}
    (h : offset cs m + (utf8 ds).length ≤ (utf8 cs).length) : Room cs ds m := by
  rw [Room, ← Nat.cast_add, toInt32_eq (by omega) (by omega)]
  omega

/-! ### One turn -/

/-- The `for` loop finds the first character of the pattern from `n` on. The
character cursor counts on from whatever it was. -/
theorem firstFoldLoop_spec (hn : NoNul cs) (hd : NoNul (d :: ds))
    (hleads : LeadsApart upper cs (d :: ds)) (n : Nat) {fuel : Nat} (hf : (cs.drop n).length < fuel)
    (charStart : Int) :
    (firstFoldLoop upper (cText cs) (cText (d :: ds)) (utf8 cs).length (utf8 (d :: ds)).length fuel
        (offset cs n) charStart = some .missed ∧
      ∀ i c, n ≤ i → cs[i]? = some c → ¬ Meets upper c d) ∨
    ∃ m c, n ≤ m ∧ cs[m]? = some c ∧ Meets upper c d ∧
      (∀ i c, n ≤ i → i < m → cs[i]? = some c → ¬ Meets upper c d) ∧
      firstFoldLoop upper (cText cs) (cText (d :: ds)) (utf8 cs).length (utf8 (d :: ds)).length fuel
          (offset cs n) charStart =
        if c.utf8Size = (utf8 (d :: ds)).length then some (.ret (charStart + (m - n : Nat)))
        else some (.found (offset cs m) (charStart + (m - n : Nat)) c.utf8Size) := by
  induction fuel generalizing n charStart with
  | zero => omega
  | succ fuel ih =>
    -- by induction on the turns, from the character with index `n` on
    cases hc : cs.drop n with
    | nil =>
      have hlen : cs.length ≤ n := List.drop_eq_nil_iff.mp hc
      left
      rw [firstFoldLoop, offset_of_le hlen, if_neg (Nat.lt_irrefl _)]
      refine ⟨rfl, fun i c hi hget => ?_⟩
      rw [List.getElem?_eq_none (by omega)] at hget
      cases hget
    | cons c es =>
      obtain ⟨hget, hnext⟩ := drop_eq_cons hc
      rw [hc, List.length_cons] at hf
      rw [firstFoldLoop_at hn hd hleads hc]
      -- it matches, or the loop goes on behind it
      by_cases hmeets : Meets upper c d
      · right
        rw [if_pos hmeets]
        refine ⟨n, c, Nat.le_refl n, hget, hmeets, fun i _ h1 h2 => absurd h2 (by omega), ?_⟩
        rw [Nat.sub_self, Nat.cast_zero, Int.add_zero]
      · have hskip : ∀ i c', n ≤ i → ¬ n + 1 ≤ i → cs[i]? = some c' → ¬ Meets upper c' d := by
          intro i c' h1 h2 hget'
          obtain rfl : i = n := by omega
          rw [hget] at hget'
          cases hget'
          exact hmeets
        rw [if_neg hmeets]
        rcases ih (n + 1) (by rw [hnext]; omega) (charStart + 1) with
          ⟨hloop, hnone⟩ | ⟨m, c', hm, hgetm, hmeetsm, hleast, hloop⟩
        · left
          refine ⟨hloop, fun i c' hi => ?_⟩
          by_cases hlt : n + 1 ≤ i
          · exact hnone i c' hlt
          · exact hskip i c' hi hlt
        · right
          refine ⟨m, c', by omega, hgetm, hmeetsm, fun i c'' hi him => ?_, ?_⟩
          · by_cases hlt : n + 1 ≤ i
            · exact hleast i c'' hlt him
            · exact hskip i c'' hi hlt
          · rw [hloop, show charStart + 1 + ((m - (n + 1) : Nat) : Int) =
              charStart + ((m - n : Nat) : Int) by omega]

/-- A turn of the search, once the `for` loop has found the first character of
the pattern at `m`: the comparison succeeds, or there is no room for the pattern,
or the search goes on where the comparison leaves it. -/
theorem insensitiveLoop_found (hn : NoNul cs) (hd : NoNul (d :: ds))
    (hleads : LeadsApart upper cs (d :: ds)) (hcs : (utf8 cs).length < 2 ^ 31) {byteStart : Nat}
    (hfit : toInt32 ((utf8 (d :: ds)).length + byteStart) ≤ (utf8 cs).length) {m : Nat}
    (hsame : Room cs (d :: ds) m → SameSizes upper (compared upper (cs.drop m) (d :: ds)))
    (hget : cs[m]? = some c) (hmeets : Meets upper c d) {charStart charStart' : Int}
    (hloop : firstFoldLoop upper (cText cs) (cText (d :: ds)) (utf8 cs).length
        (utf8 (d :: ds)).length ((utf8 cs).length + 1) byteStart charStart =
      if c.utf8Size = (utf8 (d :: ds)).length then some (.ret charStart')
      else some (.found (offset cs m) charStart' c.utf8Size)) (fuel : Nat) :
    FoldedAt upper (d :: ds) cs m ∧
      insensitiveLoop upper (cText cs) (cText (d :: ds)) (utf8 cs).length (utf8 (d :: ds)).length
        (fuel + 1) byteStart charStart = some charStart' ∨
    ¬ Room cs (d :: ds) m ∧
      insensitiveLoop upper (cText cs) (cText (d :: ds)) (utf8 cs).length (utf8 (d :: ds)).length
        (fuel + 1) byteStart charStart = some (-1) ∨
    (Room cs (d :: ds) m ∧ (verifyChars upper (cs.drop m) (d :: ds) c.utf8Size).1 = false) ∧
      insensitiveLoop upper (cText cs) (cText (d :: ds)) (utf8 cs).length (utf8 (d :: ds)).length
          (fuel + 1) byteStart charStart =
        insensitiveLoop upper (cText cs) (cText (d :: ds)) (utf8 cs).length (utf8 (d :: ds)).length
          fuel (offset cs m + (verifyChars upper (cs.drop m) (d :: ds) c.utf8Size).2)
          (charStart' + 1) := by
  have hne := List.cons_ne_nil d ds
  obtain ⟨hlt, hval⟩ := List.getElem?_eq_some_iff.mp hget
  have hdrop : cs.drop m = c :: cs.drop (m + 1) := by rw [← hval, List.drop_eq_getElem_cons hlt]
  rw [insensitiveLoop, if_pos hfit, hloop]
  by_cases hsingle : c.utf8Size = (utf8 (d :: ds)).length
  · -- the pattern is this one character
    have hroom : Room cs (d :: ds) m := by
      refine room_of_le hcs ?_
      rw [← hsingle, ← offset_succ hget]
      exact offset_le cs (m + 1)
    have hsize := (hdrop ▸ hsame hroom).first hmeets
    have hnil : ds = [] := by
      by_contra hne'
      have := length_utf8_pos hne'
      rw [utf8_cons, List.length_append, String.length_utf8EncodeChar] at hsingle
      omega
    left
    rw [if_pos hsingle]
    refine ⟨?_, rfl⟩
    rw [foldedAt_iff hne, hnil, hdrop, List.map_cons, List.map_cons, hmeets.1]
    exact ⟨_, rfl⟩
  · rw [if_neg hsingle]
    dsimp only
    -- the comparison is made only if the pattern fits
    by_cases hroom : Room cs (d :: ds) m
    · obtain ⟨o2, ho2, hiff⟩ := @verifyLoop_at upper cs (d :: ds) hn hd hleads m 0 (hsame hroom)
        (Nat.zero_le _) ((utf8 (d :: ds)).length + 1)
        (by have := length_le_length_utf8 (d :: ds); omega) c.utf8Size
      rw [List.drop_zero] at hiff ho2
      rw [offset_zero] at ho2
      rw [if_neg (not_lt.mpr hroom), ho2]
      dsimp only
      -- and by characters it has the same answer
      cases hverify : (verifyChars upper (cs.drop m) (d :: ds) c.utf8Size).1 with
      | true =>
        left
        rw [if_pos (hiff.mpr hverify)]
        exact ⟨(foldedAt_iff hne).mpr (prefix_of_verifyChars hverify), rfl⟩
      | false =>
        right
        right
        rw [if_neg fun h => by rw [hiff.mp h] at hverify; cases hverify]
        exact ⟨⟨hroom, rfl⟩, rfl⟩
    · right
      left
      rw [if_pos (not_le.mp hroom)]
      exact ⟨hroom, rfl⟩

end Boundaries

/-! ## In step -/

/-- The pattern stands nowhere from `start` up to `m`. -/
def Clear (upper : Char32 → Char32) (cs ds : List Char) (start m : Nat) : Prop :=
  ∀ i < m, start ≤ i → ¬ FoldedAt upper ds cs i

instance (upper : Char32 → Char32) (cs ds : List Char) (start m : Nat) :
    Decidable (Clear upper cs ds start m) :=
  inferInstanceAs (Decidable (∀ i < m, _))

/-- Where the first character of the pattern matches, the comparison there keeps
the sizes: characters that match have one size, and the last one looked at that is
not ASCII has as many bytes as the first. -/
def Steady (upper : Char32 → Char32) (cs ds : List Char) (m : Nat) : Prop :=
  ∀ c ∈ cs[m]?, ∀ d ∈ ds.head?, Meets upper c d →
    SameSizes upper (compared upper (cs.drop m) ds) ∧
      LastSize (compared upper (cs.drop m) ds) c.utf8Size

instance (upper : Char32 → Char32) (cs ds : List Char) (m : Nat) :
    Decidable (Steady upper cs ds m) :=
  @Option.decidableForallMem Char _ (fun _ => Option.decidableForallMem ds.head?) cs[m]?

/-- The search of one call stays in step with the characters of the text: where
the pattern stands first, every character has as many bytes as the one it
matches; and wherever there is room before that, a comparison keeps the sizes. -/
structure InStep (upper : Char32 → Char32) (cs ds : List Char) (start : Nat) : Prop where
  leads : LeadsApart upper cs ds
  occurs : ∀ m < cs.length, start ≤ m → Clear upper cs ds start m → FoldedAt upper ds cs m →
    ∀ p ∈ (cs.drop m).zip ds, p.1.utf8Size = p.2.utf8Size
  fails : ∀ m < cs.length, start ≤ m → Clear upper cs ds start (m + 1) → Room cs ds m →
    Steady upper cs ds m

instance (upper : Char32 → Char32) (cs ds : List Char) (start : Nat) :
    Decidable (InStep upper cs ds start) :=
  decidable_of_iff
    (LeadsApart upper cs ds ∧
      (∀ m < cs.length, start ≤ m → Clear upper cs ds start m → FoldedAt upper ds cs m →
        ∀ p ∈ (cs.drop m).zip ds, p.1.utf8Size = p.2.utf8Size) ∧
      ∀ m < cs.length, start ≤ m → Clear upper cs ds start (m + 1) → Room cs ds m →
        Steady upper cs ds m)
    ⟨fun ⟨h1, h2, h3⟩ => ⟨h1, h2, h3⟩, fun h => ⟨h.leads, h.occurs, h.fails⟩⟩

section InStep

variable {upper : Char32 → Char32} {cs ds : List Char} {d : Char} {start n : Nat}

theorem FoldedAt.lt {i : Nat} (hne : ds ≠ []) (h : FoldedAt upper ds cs i) : i < cs.length := by
  have hle := OccursAt.add_le h
  have hpos := List.length_pos_iff.mpr hne
  rw [List.length_map, List.length_map] at hle
  omega

theorem Clear.succ (h : Clear upper cs ds start n) (hnot : ¬ FoldedAt upper ds cs n) :
    Clear upper cs ds start (n + 1) := by
  intro i hi hsi
  rcases Nat.lt_succ_iff_lt_or_eq.mp hi with hlt | rfl
  · exact h i hlt hsi
  · exact hnot

/-- In a call that is in step an occurrence has a first one before it, with characters of
the sizes of the pattern. -/
theorem InStep.exists_first (h : InStep upper cs (d :: ds) start) (hle : start ≤ n)
    (hclear : Clear upper cs (d :: ds) start n) {i : Nat} (hi : n ≤ i)
    (hat : FoldedAt upper (d :: ds) cs i) :
    ∃ k c, n ≤ k ∧ k ≤ i ∧ FoldedAt upper (d :: ds) cs k ∧
      (∀ p ∈ (cs.drop k).zip (d :: ds), p.1.utf8Size = p.2.utf8Size) ∧
      cs[k]? = some c ∧ Meets upper c d := by
  have hne := List.cons_ne_nil d ds
  obtain ⟨k, hki, ⟨hk, hatk⟩, hleast⟩ :=
    exists_least (P := fun k => start ≤ k ∧ FoldedAt upper (d :: ds) cs k) ⟨hle.trans hi, hat⟩
  have hnk : n ≤ k := by
    by_contra hlt
    exact hclear k (by omega) hk hatk
  have hsizes := h.occurs k (hatk.lt hne) hk (fun j hj hsj hatj => hleast j hj ⟨hsj, hatj⟩) hatk
  obtain ⟨c, hget, hupper⟩ := hatk.first
  refine ⟨k, c, hnk, hki, hatk, hsizes, hget, hupper, fun hc1 => ?_⟩
  obtain ⟨hlt, hval⟩ := List.getElem?_eq_some_iff.mp hget
  rw [List.drop_eq_getElem_cons hlt, hval, List.zip_cons_cons] at hsizes
  have hsize := hsizes (c, d) List.mem_cons_self
  exact hsize ▸ hc1

/-- Where the test refuses, the pattern occurs no more. -/
theorem InStep.not_foldedAt (h : InStep upper cs (d :: ds) start) (hcs : (utf8 cs).length < 2 ^ 31)
    (hle : start ≤ n) (hclear : Clear upper cs (d :: ds) start n)
    (hroom : ¬ Room cs (d :: ds) n) {i : Nat} (hi : n ≤ i) : ¬ FoldedAt upper (d :: ds) cs i := by
  intro hat
  obtain ⟨k, c, hnk, -, hatk, hsizes, -⟩ := h.exists_first hle hclear hi hat
  exact hroom (room_of_le hcs (offset_of_foldedAt (List.cons_ne_nil d ds) hsizes hatk hnk))

/-- What is compared has one size, whether the comparison succeeds or not. -/
theorem InStep.sameSizes (h : InStep upper cs (d :: ds) start) {c : Char} (hget : cs[n]? = some c)
    (hmeets : Meets upper c d) (hle : start ≤ n)
    (hclear : Clear upper cs (d :: ds) start n)
    (hroom : Room cs (d :: ds) n) : SameSizes upper (compared upper (cs.drop n) (d :: ds)) := by
  have hlt := (List.getElem?_eq_some_iff.mp hget).1
  by_cases hat : FoldedAt upper (d :: ds) cs n
  · intro p hp _
    exact h.occurs n hlt hle hclear hat p (mem_zip_of_mem_compared hp)
  · exact (h.fails n hlt hle (hclear.succ hat) hroom c hget d rfl hmeets).1

/-- A search that is in step finds the first occurrence. The induction is on the
turns; each begins at the boundary behind the last character that matched. -/
theorem insensitiveLoop_first (hn : NoNul cs) (hd : NoNul (d :: ds))
    (hstep : InStep upper cs (d :: ds) start) (hcs : (utf8 cs).length < 2 ^ 31) (hle : start ≤ n)
    (hclear : Clear upper cs (d :: ds) start n) {fuel : Nat}
    (hf : (cs.drop n).length < fuel) :
    ∃ r, insensitiveLoop upper (cText cs) (cText (d :: ds)) (utf8 cs).length (utf8 (d :: ds)).length
        fuel (offset cs n) n = some r ∧ First (FoldedAt upper (d :: ds) cs) n r := by
  induction fuel generalizing n with
  | zero => omega
  | succ fuel ih =>
    by_cases hroom : Room cs (d :: ds) n
    · have hfit : toInt32 ((utf8 (d :: ds)).length + offset cs n) ≤ (utf8 cs).length := hroom
      have hbytes := length_le_length_utf8 cs
      rcases firstFoldLoop_spec hn hd hstep.leads n
        (show (cs.drop n).length < (utf8 cs).length + 1 by rw [List.length_drop]; omega) (n : Int) with
        ⟨hloop, hmissed⟩ | ⟨m, c, hm, hget, hmeets, hleast, hloop⟩
      · refine ⟨-1, by rw [insensitiveLoop, if_pos hfit, hloop], First.none fun i hi hat => ?_⟩
        obtain ⟨k, c, hnk, -, -, -, hget, hmeets⟩ := hstep.exists_first hle hclear hi hat
        exact hmissed k c hnk hget hmeets
      · have hskip : ∀ i, n ≤ i → i < m → ¬ FoldedAt upper (d :: ds) cs i := by
          intro i h1 h2 hat
          obtain ⟨k, c', hnk, hki, -, -, hget', hmeets'⟩ := hstep.exists_first hle hclear h1 hat
          exact hleast k c' hnk (by omega) hget' hmeets'
        have hclear' : Clear upper cs (d :: ds) start m := by
          intro i him hsi
          by_cases hin : i < n
          · exact hclear i hin hsi
          · exact hskip i (by omega) him
        have hsm : start ≤ m := hle.trans hm
        have hcount : (n : Int) + ((m - n : Nat) : Int) = m := by omega
        rw [hcount] at hloop
        rcases insensitiveLoop_found hn hd hstep.leads hcs hfit
          (hstep.sameSizes hget hmeets hsm hclear') hget hmeets hloop fuel with
          ⟨hat, hres⟩ | ⟨hnoRoom, hres⟩ | ⟨⟨hroom', hverify⟩, hres⟩
        · exact ⟨m, hres, First.pass_to hm hskip (First.here hat)⟩
        · refine ⟨-1, hres, First.pass_to hm hskip (First.none fun i hi => ?_)⟩
          exact hstep.not_foldedAt hcs hsm hclear' hnoRoom hi
        · have hlt := (List.getElem?_eq_some_iff.mp hget).1
          have hnot : ¬ FoldedAt upper (d :: ds) cs m := by
            intro hat
            have hsizes := hstep.occurs m hlt hsm hclear' hat
            have hprefix := (foldedAt_iff (List.cons_ne_nil d ds)).mp hat
            rw [verifyChars_of_front _ hprefix hsizes] at hverify
            cases hverify
          have hnext := hclear'.succ hnot
          -- the size that is left is that of the first character
          have hlast := (hstep.fails m hlt hsm hnext hroom' c hget d rfl hmeets).2
          rw [hlast.verifyChars_snd, ← offset_succ hget] at hres
          obtain ⟨r, hr, hfirst⟩ := ih (n := m + 1) (by omega) hnext (by
            rw [List.length_drop] at hf ⊢
            omega)
          rw [Nat.cast_add, Nat.cast_one] at hr
          exact ⟨r, hres.trans hr, First.pass_to hm hskip (First.pass hnot hfirst)⟩
    · have hfit : ¬ toInt32 ((utf8 (d :: ds)).length + offset cs n) ≤ (utf8 cs).length := hroom
      refine ⟨-1, by rw [insensitiveLoop, if_neg hfit], First.none fun i hi => ?_⟩
      exact hstep.not_foldedAt hcs hle hclear hroom hi

end InStep

end ElString

end SuperExe.Elastos
