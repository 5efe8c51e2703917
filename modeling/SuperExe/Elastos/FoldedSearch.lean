import SuperExe.Elastos.InsensitiveIndexOf

/-! # Where the search ignoring case is exact

A call of `IndexOfIgnoreCase` or `ContainsIgnoreCase` is right if its search
stays in step with the characters. Over an alphabet all calls are right, for
every mapping of the characters, exactly if all characters have one size. For
two sizes there is a text on which the cursors go apart: an ASCII character can
be jumped over, and a longer character can be entered in the middle.
-/

namespace SuperExe.Elastos

open SuperExe.Core SuperExe.Lib

namespace ElString

/-- What is expected of one call of the search, and of `ContainsIgnoreCase`, which
is the call from the start. -/
structure CallRight (u_toupper : Char32 → Char32) (cs ds : List Char) (start : Int) : Prop where
  search : ∃ r,
    insensitiveIndexOf (toUpperChar u_toupper) (some (cText cs)) (some (cText ds)) start = some r ∧
    First (OccursAt (upperCase u_toupper ds) (upperCase u_toupper cs)) (max start 0).toNat r
  contains : start = 0 → ∃ r,
    containsIgnoreCase (toUpperChar u_toupper) (some (cText cs)) (some (cText ds)) = some r ∧
    (r = true ↔ ∃ i, OccursAt (upperCase u_toupper ds) (upperCase u_toupper cs) i)

/-- What is expected of the search on the texts over an alphabet, for any
mapping. -/
structure SearchRight (A : Alphabet) : Prop where
  search : ∀ (u_toupper : Char32 → Char32) {cs ds : List Char} (start : Int), A.Text cs → A.Text ds →
    ds ≠ [] → ∃ r,
      insensitiveIndexOf (toUpperChar u_toupper) (some (cText cs)) (some (cText ds)) start = some r ∧
      First (OccursAt (upperCase u_toupper ds) (upperCase u_toupper cs)) (max start 0).toNat r
  contains : ∀ (u_toupper : Char32 → Char32) {cs ds : List Char}, A.Text cs → A.Text ds →
    ds ≠ [] → ∃ r,
      containsIgnoreCase (toUpperChar u_toupper) (some (cText cs)) (some (cText ds)) = some r ∧
      (r = true ↔ ∃ i, OccursAt (upperCase u_toupper ds) (upperCase u_toupper cs) i)

/-- All characters have the same number of bytes. -/
def Alphabet.OneSize (A : Alphabet) : Prop := ∀ x y, A.mem x → A.mem y → x.utf8Size = y.utf8Size

section Exact

variable {A : Alphabet} {u_toupper : Char32 → Char32} {cs ds : List Char}

theorem strlen_text {a : List Char} (h : A.Text a) : strlen (cText a) = (utf8 a).length :=
  strlen_cText h.noNul

/-- A text as a string object. -/
theorem Alphabet.Text.hasText {a : List Char} (h : A.Text a) :
    HasText { mString := some (cText a), mCharCount := 0 } a :=
  ⟨h.noNul, Or.inr rfl, h.small⟩

/-- What is left to do behind the argument checks. -/
theorem insensitiveIndexOf_eq {upper : Char32 → Char32} (hcs : A.Text cs) (hds : A.Text ds)
    (hne : ds ≠ []) (start : Int) :
    insensitiveIndexOf upper (some (cText cs)) (some (cText ds)) start =
      if (utf8 ds).length > (utf8 cs).length ∨ ¬ (max start 0).toNat < cs.length ∨
          toInt32 ((utf8 ds).length + offset cs (max start 0).toNat) > (utf8 cs).length then
        some (-1)
      else
        insensitiveLoop upper (cText cs) (cText ds) (utf8 cs).length (utf8 ds).length
          ((utf8 cs).length + 1) (offset cs (max start 0).toNat) ((max start 0).toNat : Int) := by
  have hmax : max 0 start = ((max start 0).toNat : Int) := by omega
  have hbytes := toByteIndex_exact hcs.hasText ((max start 0).toNat : Int)
  simp only [insensitiveIndexOf, if_neg (deref_cText_ne hds.noNul hne), strlen_text hcs,
    strlen_text hds, cString_text hcs, cString_text hds, hmax, hbytes]
  generalize (max start 0).toNat = k
  rw [Int.toNat_natCast]
  by_cases hlong : (utf8 ds).length > (utf8 cs).length
  · rw [if_pos hlong, if_pos (Or.inl hlong)]
  · rw [if_neg hlong]
    by_cases hk : k < cs.length
    · have hk' : (0 : Int) ≤ k ∧ (k : Int) < cs.length := by omega
      have hiff : ((utf8 ds).length > (utf8 cs).length ∨ ¬ k < cs.length ∨
          toInt32 ((utf8 ds).length + offset cs k) > (utf8 cs).length) ↔
          (((utf8 (cs.take k)).length : Int) < 0 ∨
          toInt32 ((utf8 ds).length + ((utf8 (cs.take k)).length : Int)) > (utf8 cs).length) := by
        unfold offset
        constructor
        · rintro (h | h | h)
          · exact absurd h hlong
          · exact absurd hk h
          · exact Or.inr h
        · rintro (h | h)
          · omega
          · exact Or.inr (Or.inr h)
      simp only [if_pos hk', hiff, Int.toNat_natCast]
      rfl
    · have hk' : ¬ ((0 : Int) ≤ k ∧ (k : Int) < cs.length) := by omega
      simp only [if_neg hk']
      rw [if_pos (Or.inl (by decide)), if_pos (Or.inr (Or.inl hk))]

/-- A call that is in step finds the first occurrence. -/
theorem insensitiveIndexOf_first (start : Int) (hcs : A.Text cs) (hds : A.Text ds) (hne : ds ≠ [])
    (hstep : InStep (toUpperChar u_toupper) cs ds (max start 0).toNat) :
    ∃ r, insensitiveIndexOf (toUpperChar u_toupper) (some (cText cs)) (some (cText ds)) start =
        some r ∧
      First (OccursAt (upperCase u_toupper ds) (upperCase u_toupper cs)) (max start 0).toNat r := by
  obtain ⟨d, es, rfl⟩ := List.exists_cons_of_ne_nil hne
  have h1 := hcs.small
  have h2 := hds.small
  rw [insensitiveIndexOf_eq hcs hds hne]
  generalize (max start 0).toNat = k at hstep
  have hclear : Clear (toUpperChar u_toupper) cs (d :: es) k k := fun i h1 h2 => absurd h2 (by omega)
  by_cases hout : (utf8 (d :: es)).length > (utf8 cs).length ∨ ¬ k < cs.length ∨
      toInt32 ((utf8 (d :: es)).length + offset cs k) > (utf8 cs).length
  · rw [if_pos hout]
    refine ⟨-1, rfl, First.none fun i hi hat => ?_⟩
    obtain ⟨j, c, hkj, -, hatj, hsizes, -⟩ := hstep.exists_first (Nat.le_refl k) hclear hi hat
    have hroom := offset_of_foldedAt hne hsizes hatj hkj
    have hlt := hatj.lt hne
    rcases hout with hlong | hk | hover
    · omega
    · omega
    · have hle := offset_le cs k
      have := lt_of_toInt32 (show (utf8 (d :: es)).length < 2 ^ 31 by omega)
        (show offset cs k < 2 ^ 31 by omega) (show (utf8 cs).length < 2 ^ 31 by omega) hover
      omega
  · have hle := length_le_length_utf8 cs
    rw [if_neg hout]
    exact insensitiveLoop_first hcs.noNul hds.noNul hstep (by omega) (Nat.le_refl k) hclear
      (by rw [List.length_drop]; omega)

theorem InStep.callRight {start : Int}
    (hstep : InStep (toUpperChar u_toupper) cs ds (max start 0).toNat) (hcs : A.Text cs)
    (hds : A.Text ds) (hne : ds ≠ []) :
    CallRight u_toupper cs ds start := by
  have hsearch := insensitiveIndexOf_first start hcs hds hne hstep
  refine ⟨hsearch, ?_⟩
  rintro rfl
  obtain ⟨r, hr, hfirst⟩ := hsearch
  refine ⟨r != -1, by rw [containsIgnoreCase, hr]; rfl, ?_⟩
  rw [bne_iff_ne, ne_eq, hfirst.eq_neg_one_iff]
  constructor
  · intro h
    by_contra hnone
    exact h fun i _ hat => hnone ⟨i, hat⟩
  · rintro ⟨i, hat⟩ h
    exact h i (Nat.zero_le i) hat

theorem le_leadChar {d : Char} (hd1 : d.utf8Size ≠ 1) : 0xFFFFFF00 ≤ (leadChar d).toNat := by
  have hd : NoNul [d] := by
    intro c hc hz
    rw [List.mem_singleton.mp hc] at hz
    exact hd1 (hz ▸ by decide)
  rw [← leadChar_eq d [], signExtend, if_neg (mt (isASCII_iff hd).mp hd1), UInt32.toNat_or]
  exact Nat.right_le_or

/-- Where `ToUpperCase` leaves what is no code point as it is, no ASCII character is
like the first byte of a longer one. -/
theorem leadsApart_of_codePoints (h : ∀ v : Char32, 0x110000 ≤ v.toNat → u_toupper v = v) :
    LeadsApart (toUpperChar u_toupper) cs ds := by
  intro c _ d _ hc1 hd1 heq
  have hlead := le_leadChar hd1
  have hascii := (Char.utf8Size_eq_one_iff.mp hc1 : c.val ≤ 127)
  have hle : c.val.toNat ≤ 127 := UInt32.le_iff_toNat_le.mp hascii
  -- the one stays below 128, the other is far above
  have hupper : (toUpperChar u_toupper c.val).toNat ≤ 127 := by
    rw [toUpperChar]
    split
    · next hlower =>
      rw [UInt32.toNat_sub_of_le _ _ (UInt32.le_trans (by decide) hlower.1)]
      omega
    · rw [if_pos (UInt32.lt_iff_toNat_lt.mpr (show c.val.toNat < 181 by omega))]
      exact hle
  have hsame : toUpperChar u_toupper (leadChar d) = leadChar d := by
    rw [toUpperChar, if_neg, if_neg, h _ (by omega)]
    · intro hlt
      have := UInt32.lt_iff_toNat_lt.mp hlt
      exact absurd this (show ¬ (leadChar d).toNat < 181 by omega)
    · rintro ⟨-, hlt⟩
      have := UInt32.le_iff_toNat_le.mp hlt
      exact absurd this (show ¬ (leadChar d).toNat ≤ 122 by omega)
  rw [heq, hsame] at hupper
  omega

/-- `é` and `É` have one upper case. -/
def upperOfAcute (v : Char32) : Char32 := if v = 0xE9 then 0xC9 else v

/-- A call is right if its search stays in step. -/
theorem callRight_of_inStep (u_toupper : Char32 → Char32) (start : Int) (hcs : A.Text cs)
    (hds : A.Text ds) (hne : ds ≠ [])
    (hstep : InStep (toUpperChar u_toupper) cs ds (max start 0).toNat) :
    CallRight u_toupper cs ds start :=
  hstep.callRight hcs hds hne

theorem callRight_acute : CallRight upperOfAcute ['a', 'b', 'a', 'é', 'a'] ['A', 'É'] 0 := by
  have hcs : allChars.Text ['a', 'b', 'a', 'é', 'a'] :=
    ⟨show NoNul ['a', 'b', 'a', 'é', 'a'] by decide, by decide⟩
  have hds : allChars.Text ['A', 'É'] := ⟨show NoNul ['A', 'É'] by decide, by decide⟩
  have hleads : LeadsApart (toUpperChar upperOfAcute) ['a', 'b', 'a', 'é', 'a'] ['A', 'É'] := by
    refine leadsApart_of_codePoints fun v hv => if_neg ?_
    rintro rfl
    exact absurd hv (by decide)
  -- the comparison with `ab` fails on ASCII characters, the one with `aé` succeeds
  exact callRight_of_inStep upperOfAcute 0 hcs hds (List.cons_ne_nil _ _)
    ⟨hleads, by decide, by decide⟩

-- characters of two sizes, and no comparison that goes beyond the first one
example : InStep (toUpperChar id) ['é', 'a'] ['a'] 0 := by decide

example : InStep (toUpperChar upperOfAcute) ['a', 'a', 'é', 'a', 'a', 'a'] ['É'] 0 := by
  decide

/-- With one size every search is in step. -/
theorem Alphabet.OneSize.inStep (hA : A.OneSize) (hcs : A.Text cs) (hds : A.Text ds)
    (upper : Char32 → Char32) (start : Nat) : InStep upper cs ds start := by
  have hsize : ∀ c ∈ cs, ∀ d ∈ ds, c.utf8Size = d.utf8Size := fun c hc d hd =>
    hA c d (hcs.mem c hc) (hds.mem d hd)
  have hzip : ∀ m, ∀ p ∈ (cs.drop m).zip ds, p.1.utf8Size = p.2.utf8Size := by
    intro m p hp
    obtain ⟨hc, hd⟩ := List.of_mem_zip hp
    exact hsize _ (List.mem_of_mem_drop hc) _ hd
  refine ⟨fun c hc d hd hc1 hd1 => absurd (hsize c hc d hd ▸ hc1) hd1, fun m _ _ _ _ => hzip m, ?_⟩
  intro m _ _ _ _ c hc d _ _
  refine ⟨fun p hp _ => hzip m p (mem_zip_of_mem_compared hp), fun x hx => ?_⟩
  have hmem := List.mem_of_mem_filter (List.mem_of_mem_getLast? hx)
  obtain ⟨p, hp, rfl⟩ := List.mem_map.mp hmem
  have hcs' := (List.of_mem_zip (mem_zip_of_mem_compared hp)).1
  exact hA _ _ (hcs.mem _ (List.mem_of_mem_drop hcs')) (hcs.mem c (List.mem_of_getElem? hc))

theorem Alphabet.OneSize.searchRight (hA : A.OneSize) : SearchRight A := by
  have hcall : ∀ (u_toupper : Char32 → Char32) {cs ds : List Char} (start : Int), A.Text cs →
      A.Text ds → ds ≠ [] → CallRight u_toupper cs ds start := fun u_toupper _ _ start hcs hds hne =>
    (hA.inStep hcs hds _ _).callRight hcs hds hne
  exact ⟨fun u_toupper _ _ start hcs hds hne => (hcall u_toupper start hcs hds hne).search,
    fun u_toupper _ _ hcs hds hne => (hcall u_toupper 0 hcs hds hne).contains rfl⟩

end Exact

/-! ## Two sizes -/

section TwoSizes

variable {A : Alphabet} {x y : Char} {cs ds : List Char}

/-- No pair of characters lets the cursors leave the boundaries. -/
structure Aligned (upper : Char32 → Char32) (cs ds : List Char) : Prop where
  kind : ∀ c ∈ cs, ∀ d ∈ ds, c.utf8Size = 1 → d.utf8Size = 1
  size : ∀ c ∈ cs, ∀ d ∈ ds, upper c.val = upper d.val → c.utf8Size = d.utf8Size

namespace Aligned

variable {upper : Char32 → Char32} (hal : Aligned upper cs ds)

include hal

theorem leads : LeadsApart upper cs ds := fun c hc d hd hc1 hd1 => absurd (hal.kind c hc d hd hc1) hd1

theorem sameSizes (m : Nat) : SameSizes upper (compared upper (cs.drop m) ds) := by
  intro p hp hmeets
  obtain ⟨hc, hd⟩ := List.of_mem_zip (mem_zip_of_mem_compared hp)
  exact hal.size p.1 (List.mem_of_mem_drop hc) p.2 hd hmeets.1

theorem meets {c d : Char} (hc : c ∈ cs) (hd : d ∈ ds) (h : upper c.val = upper d.val) :
    Meets upper c d := ⟨h, hal.kind c hc d hd⟩

/-- Where the pattern stands the characters have its sizes. -/
theorem zip_sizes (hne : ds ≠ []) {i : Nat} (hat : FoldedAt upper ds cs i) :
    ∀ p ∈ (cs.drop i).zip ds, p.1.utf8Size = p.2.utf8Size := by
  intro p hp
  obtain ⟨hc, hd⟩ := List.of_mem_zip hp
  obtain ⟨j, hj⟩ := List.mem_iff_getElem?.mp hp
  obtain ⟨c, d, hgetc, hgetd, rfl⟩ : ∃ c d, (cs.drop i)[j]? = some c ∧ ds[j]? = some d ∧
      (c, d) = p := by
    rw [List.getElem?_zip_eq_some] at hj
    exact ⟨p.1, p.2, hj.1, hj.2, rfl⟩
  obtain ⟨t, ht⟩ := (foldedAt_iff hne).mp hat
  have hget := congrArg (fun l : List Char32 => l[j]?) ht
  have hlt : j < (ds.map fun c => upper c.val).length := by
    rw [List.length_map]
    exact (List.getElem?_eq_some_iff.mp hgetd).1
  simp only [List.getElem?_append_left hlt, List.getElem?_map, hgetc, hgetd, Option.map_some,
    Option.some_inj] at hget
  exact hal.size c (List.mem_of_mem_drop hc) d hd hget.symm

end Aligned

/-- Upper case with the identity of ICU: only `a` to `z` change. -/
theorem toUpperChar_id (v : Char32) :
    (toUpperChar id v).toNat = if 97 ≤ v.toNat ∧ v.toNat ≤ 122 then v.toNat - 32 else v.toNat := by
  have hle : 97 ≤ v ∧ v ≤ 122 ↔ 97 ≤ v.toNat ∧ v.toNat ≤ 122 := by
    rw [UInt32.le_iff_toNat_le, UInt32.le_iff_toNat_le]
    rfl
  unfold toUpperChar
  by_cases h : 97 ≤ v ∧ v ≤ 122
  · rw [if_pos h, if_pos (hle.mp h), UInt32.toNat_sub_of_le v 32 (by
      rw [UInt32.le_iff_toNat_le]
      have := (hle.mp h).1
      show 32 ≤ v.toNat
      omega)]
    rfl
  · rw [if_neg h, if_neg (mt hle.mpr h)]
    split <;> rfl

theorem utf8Size_eq_one_iff (c : Char) : c.utf8Size = 1 ↔ c.val.toNat ≤ 127 := by
  rw [Char.utf8Size_eq_one_iff, UInt32.le_iff_toNat_le]
  rfl

/-- It keeps the number of bytes. -/
theorem utf8Size_of_toUpperChar_id (h : toUpperChar id x.val = toUpperChar id y.val) :
    x.utf8Size = y.utf8Size := by
  have hval := congrArg UInt32.toNat h
  rw [toUpperChar_id, toUpperChar_id] at hval
  by_cases hx : x.utf8Size = 1
  · rw [hx]
    rw [utf8Size_eq_one_iff] at hx
    refine ((utf8Size_eq_one_iff y).mpr ?_).symm
    split_ifs at hval <;> omega
  · rw [utf8Size_eq_one_iff] at hx
    have hsame : x.val.toNat = y.val.toNat := by
      split_ifs at hval <;> omega
    rw [show x = y from Char.ext (UInt32.toNat_inj.mp hsame)]

/-- What stands where the pattern stands. -/
theorem FoldedAt.get {upper : Char32 → Char32} (hne : ds ≠ []) {i j : Nat}
    (h : FoldedAt upper ds cs i) {d : Char} (hd : ds[j]? = some d) :
    ∃ c, cs[i + j]? = some c ∧ upper c.val = upper d.val := by
  obtain ⟨t, ht⟩ := (foldedAt_iff hne).mp h
  have hlt : j < (ds.map fun c => upper c.val).length := by
    rw [List.length_map]
    exact (List.getElem?_eq_some_iff.mp hd).1
  have hget := congrArg (fun l : List Char32 => l[j]?) ht
  simp only [List.getElem?_append_left hlt, List.getElem?_map, hd, List.getElem?_drop,
    Option.map_some] at hget
  obtain ⟨c, hc, heq⟩ := Option.map_eq_some_iff.mp hget.symm
  exact ⟨c, hc, heq⟩

theorem length_utf8_replicate (n : Nat) (c : Char) :
    (utf8 (List.replicate n c)).length = n * c.utf8Size := by
  induction n with
  | zero => simp
  | succ n ih =>
    rw [List.replicate_succ, utf8_cons, List.length_append, String.length_utf8EncodeChar, ih,
      Nat.succ_mul, Nat.add_comm]

theorem verifyChars_replicate {upper : Char32 → Char32} (hx : x.utf8Size = 1) (n charlen1 : Nat) :
    verifyChars upper (List.replicate n x ++ cs) (List.replicate n x ++ ds) charlen1 =
      verifyChars upper cs ds charlen1 := by
  induction n with
  | zero => rfl
  | succ n ih =>
    rw [List.replicate_succ, List.cons_append, List.cons_append, verifyChars, if_pos meets_self,
      if_pos hx]
    exact ih

/-- The `for` loop at a character that matches. -/
theorem firstFoldLoop_here {upper : Char32 → Char32} {c d : Char} (hn : NoNul cs)
    (hd : NoNul (d :: ds)) (hal : Aligned upper cs (d :: ds)) {n : Nat} (hget : cs[n]? = some c)
    (hupper : upper c.val = upper d.val) (fuel : Nat) (charStart : Int) :
    firstFoldLoop upper (cText cs) (cText (d :: ds)) (utf8 cs).length (utf8 (d :: ds)).length
        (fuel + 1) (offset cs n) charStart =
      if c.utf8Size = (utf8 (d :: ds)).length then some (.ret charStart)
      else some (.found (offset cs n) charStart c.utf8Size) := by
  obtain ⟨hlt, hval⟩ := List.getElem?_eq_some_iff.mp hget
  have hdrop : cs.drop n = c :: cs.drop (n + 1) := by rw [← hval, List.drop_eq_getElem_cons hlt]
  rw [firstFoldLoop_at hn hd hal.leads hdrop,
    if_pos (hal.meets (List.mem_of_getElem? hget) List.mem_cons_self hupper)]

/-- The `for` loop at one that does not. -/
theorem firstFoldLoop_next {upper : Char32 → Char32} {c d : Char} (hn : NoNul cs)
    (hd : NoNul (d :: ds)) (hal : Aligned upper cs (d :: ds)) {n : Nat} (hget : cs[n]? = some c)
    (hupper : upper c.val ≠ upper d.val) (fuel : Nat) (charStart : Int) :
    firstFoldLoop upper (cText cs) (cText (d :: ds)) (utf8 cs).length (utf8 (d :: ds)).length
        (fuel + 1) (offset cs n) charStart =
      firstFoldLoop upper (cText cs) (cText (d :: ds)) (utf8 cs).length (utf8 (d :: ds)).length
        fuel (offset cs (n + 1)) (charStart + 1) := by
  obtain ⟨hlt, hval⟩ := List.getElem?_eq_some_iff.mp hget
  have hdrop : cs.drop n = c :: cs.drop (n + 1) := by rw [← hval, List.drop_eq_getElem_cons hlt]
  rw [firstFoldLoop_at hn hd hal.leads hdrop, if_neg fun h => hupper h.1]

/-- The search from the start of the text, when there is room for the pattern. -/
theorem insensitiveIndexOf_zero {upper : Char32 → Char32} (hcs : A.Text cs) (hds : A.Text ds)
    (hne : ds ≠ []) (hfit : (utf8 ds).length ≤ (utf8 cs).length) :
    insensitiveIndexOf upper (some (cText cs)) (some (cText ds)) 0 =
      insensitiveLoop upper (cText cs) (cText ds) (utf8 cs).length (utf8 ds).length
        ((utf8 cs).length + 1) 0 0 := by
  have hpos := length_utf8_pos hne
  have hsmall := hds.small
  have hcount : 0 < cs.length := by
    rcases cs with - | ⟨c, cs⟩
    · exact absurd hfit (by rw [show utf8 [] = [] from rfl, List.length_nil]; omega)
    · exact Nat.succ_pos _
  rw [insensitiveIndexOf_eq hcs hds hne]
  simp only [show (max (0 : Int) 0).toNat = 0 from rfl, offset_zero, Nat.cast_zero, Int.add_zero]
  rw [if_neg]
  rintro (h | h | h)
  · omega
  · exact h hcount
  · rw [toInt32_eq (by omega) (by omega)] at h
    omega

section Turn

variable {upper : Char32 → Char32} {c d : Char} {byteStart m : Nat} {charStart charStart' : Int}
  (hcs : A.Text cs) (hds : A.Text (d :: ds)) (hal : Aligned upper cs (d :: ds))
  (hfit : (utf8 (d :: ds)).length + byteStart ≤ (utf8 cs).length) (hget : cs[m]? = some c)
  (hupper : upper c.val = upper d.val)
  (hloop : firstFoldLoop upper (cText cs) (cText (d :: ds)) (utf8 cs).length
      (utf8 (d :: ds)).length ((utf8 cs).length + 1) byteStart charStart =
    if c.utf8Size = (utf8 (d :: ds)).length then some (.ret charStart')
    else some (.found (offset cs m) charStart' c.utf8Size))

include hcs hds hal hfit hget hupper hloop

/-- The last turn of the search. -/
theorem insensitiveLoop_there (hat : FoldedAt upper (d :: ds) cs m) {fuel : Nat} (hf : 0 < fuel) :
    insensitiveLoop upper (cText cs) (cText (d :: ds)) (utf8 cs).length (utf8 (d :: ds)).length
      fuel byteStart charStart = some charStart' := by
  obtain ⟨fuel, rfl⟩ := Nat.exists_eq_add_of_le' hf
  have hsmall := hcs.small
  have hfit' : toInt32 ((utf8 (d :: ds)).length + byteStart) ≤ (utf8 cs).length := by
    rw [← Nat.cast_add, toInt32_eq (by omega) (by omega)]
    omega
  have hne := List.cons_ne_nil d ds
  have hsizes := hal.zip_sizes hne hat
  have hmeets := hal.meets (List.mem_of_getElem? hget) List.mem_cons_self hupper
  rcases insensitiveLoop_found hcs.noNul hds.noNul hal.leads (Nat.lt_of_succ_lt hsmall) hfit'
    (fun _ => hal.sameSizes m) hget hmeets hloop fuel with
    ⟨-, hres⟩ | ⟨hnoRoom, -⟩ | ⟨⟨-, hverify⟩, -⟩
  · exact hres
  · exact absurd (room_of_le (Nat.lt_of_succ_lt hsmall)
      (offset_of_foldedAt hne hsizes hat (Nat.le_refl m))) hnoRoom
  · rw [verifyChars_of_front _ ((foldedAt_iff hne).mp hat) hsizes] at hverify
    cases hverify

/-- A turn of the search before it. -/
theorem insensitiveLoop_over (hnot : ¬ FoldedAt upper (d :: ds) cs m) {i : Nat} (hi : m ≤ i)
    (hocc : FoldedAt upper (d :: ds) cs i) (fuel : Nat) :
    insensitiveLoop upper (cText cs) (cText (d :: ds)) (utf8 cs).length (utf8 (d :: ds)).length
        (fuel + 1) byteStart charStart =
      insensitiveLoop upper (cText cs) (cText (d :: ds)) (utf8 cs).length (utf8 (d :: ds)).length
        fuel (offset cs m + (verifyChars upper (cs.drop m) (d :: ds) c.utf8Size).2)
        (charStart' + 1) := by
  have hsmall := hcs.small
  have hfit' : toInt32 ((utf8 (d :: ds)).length + byteStart) ≤ (utf8 cs).length := by
    rw [← Nat.cast_add, toInt32_eq (by omega) (by omega)]
    omega
  have hne := List.cons_ne_nil d ds
  have hmeets := hal.meets (List.mem_of_getElem? hget) List.mem_cons_self hupper
  rcases insensitiveLoop_found hcs.noNul hds.noNul hal.leads (Nat.lt_of_succ_lt hsmall) hfit'
    (fun _ => hal.sameSizes m) hget hmeets hloop fuel with
    ⟨hat, -⟩ | ⟨hnoRoom, -⟩ | ⟨-, hres⟩
  · exact absurd hat hnot
  · exact absurd (room_of_le (Nat.lt_of_succ_lt hsmall)
      (offset_of_foldedAt hne (hal.zip_sizes hne hocc) hocc hi)) hnoRoom
  · exact hres

end Turn

/-! ### An ASCII character and a longer one -/

/-- `q` ASCII characters, a character of `q` bytes and `q + 1` ASCII characters
again. -/
def jumpText (x y : Char) : List Char :=
  List.replicate y.utf8Size x ++ y :: List.replicate (y.utf8Size + 1) x

/-- `q + 1` ASCII characters. -/
def jumpPattern (x y : Char) : List Char := x :: List.replicate y.utf8Size x

section Jump

variable (hx : A.mem x) (hy : A.mem y) (hx1 : x.utf8Size = 1)

theorem mem_jumpText {c : Char} (hc : c ∈ jumpText x y) : c = x ∨ c = y := by
  simp only [jumpText, List.mem_append, List.mem_cons, List.mem_replicate] at hc
  rcases hc with ⟨-, rfl⟩ | rfl | ⟨-, rfl⟩
  · exact Or.inl rfl
  · exact Or.inr rfl
  · exact Or.inl rfl

theorem mem_jumpPattern {c : Char} (hc : c ∈ jumpPattern x y) : c = x := by
  simp only [jumpPattern, List.mem_cons, List.mem_replicate] at hc
  rcases hc with rfl | ⟨-, rfl⟩
  · rfl
  · rfl

include hx1 in
theorem length_jumpText : (utf8 (jumpText x y)).length = 3 * y.utf8Size + 1 := by
  rw [jumpText, utf8_append, List.length_append, utf8_cons, List.length_append,
    String.length_utf8EncodeChar, length_utf8_replicate, length_utf8_replicate, hx1]
  omega

include hx1 in
theorem length_jumpPattern : (utf8 (jumpPattern x y)).length = y.utf8Size + 1 := by
  rw [jumpPattern, utf8_cons, List.length_append, String.length_utf8EncodeChar,
    length_utf8_replicate, hx1]
  omega

include hx hy hx1 in
theorem text_jumpText : A.Text (jumpText x y) := by
  have hlen := length_jumpText (y := y) hx1
  have := y.utf8Size_le_four
  refine ⟨fun c hc => ?_, by omega⟩
  rcases mem_jumpText hc with rfl | rfl
  · exact hx
  · exact hy

include hx hx1 in
theorem text_jumpPattern : A.Text (jumpPattern x y) := by
  have hlen := length_jumpPattern (y := y) hx1
  have := y.utf8Size_le_four
  exact ⟨fun c hc => by rw [mem_jumpPattern hc]; exact hx, by omega⟩

include hx1 in
theorem aligned_jump : Aligned (toUpperChar id) (jumpText x y) (jumpPattern x y) :=
  ⟨fun c _ d hd _ => by rw [mem_jumpPattern hd, hx1], fun _ _ _ _ h => utf8Size_of_toUpperChar_id h⟩

theorem getElem?_jumpText : (jumpText x y)[0]? = some x ∧ (jumpText x y)[y.utf8Size]? = some y ∧
    (jumpText x y)[y.utf8Size + 1]? = some x := by
  have hypos := y.utf8Size_pos
  refine ⟨?_, ?_, ?_⟩
  · rw [jumpText, List.getElem?_append_left (by rw [List.length_replicate]; omega),
      List.getElem?_replicate, if_pos hypos]
  · rw [jumpText, List.getElem?_append_right (by rw [List.length_replicate]),
      List.length_replicate, Nat.sub_self]
    rfl
  · rw [jumpText, List.getElem?_append_right (by rw [List.length_replicate]; omega),
      List.length_replicate, Nat.add_sub_cancel_left, List.getElem?_cons_succ,
      List.getElem?_replicate, if_pos (by omega)]

/-- The pattern stands behind the long character. -/
theorem foldedAt_jump :
    FoldedAt (toUpperChar id) (jumpPattern x y) (jumpText x y) (y.utf8Size + 1) := by
  have hdrop : (jumpText x y).drop (y.utf8Size + 1) = jumpPattern x y := by
    have hlen : (List.replicate y.utf8Size x ++ [y]).length = y.utf8Size + 1 := by simp
    rw [jumpText, List.append_cons, List.drop_left' hlen]
    rfl
  rw [foldedAt_iff (show jumpPattern x y ≠ [] from List.cons_ne_nil _ _), hdrop]

/-- It stands nowhere over it. -/
theorem not_foldedAt_jump (hupper : toUpperChar id y.val ≠ toUpperChar id x.val) {i : Nat}
    (hi : i ≤ y.utf8Size) : ¬ FoldedAt (toUpperChar id) (jumpPattern x y) (jumpText x y) i := by
  intro hat
  have hpattern : (jumpPattern x y)[y.utf8Size - i]? = some x := by
    rw [jumpPattern, ← List.replicate_succ, List.getElem?_replicate, if_pos (by omega)]
  obtain ⟨c, hc, heq⟩ := hat.get (List.cons_ne_nil _ _) hpattern
  rw [Nat.add_sub_cancel' hi, getElem?_jumpText.2.1] at hc
  cases hc
  exact hupper heq

include hx1 in
theorem offset_jumpText : offset (jumpText x y) y.utf8Size = y.utf8Size := by
  rw [offset, jumpText, List.take_left' (by rw [List.length_replicate]), length_utf8_replicate, hx1,
    Nat.mul_one]

include hx1 in
/-- The comparison leaves the size of the long character. -/
theorem verifyChars_jump (hy1 : y.utf8Size ≠ 1)
    (hupper : toUpperChar id y.val ≠ toUpperChar id x.val) :
    (verifyChars (toUpperChar id) (jumpText x y) (jumpPattern x y) 1).2 = y.utf8Size := by
  have hsplit : jumpPattern x y = List.replicate y.utf8Size x ++ [x] := by
    rw [jumpPattern, ← List.replicate_succ, List.replicate_succ']
  rw [hsplit, jumpText, verifyChars_replicate hx1, verifyChars, if_neg hy1,
    if_neg fun h => hupper h.1]

include hx hy hx1 in
/-- From the first character, with the size of the one that did not match, the
search jumps right behind the ASCII characters and has counted one. -/
theorem search_jumps (hy1 : y.utf8Size ≠ 1) : ¬ SearchRight A := by
  intro hright
  have hyq := y.utf8Size_le_four
  have hypos := y.utf8Size_pos
  have hupper : toUpperChar id y.val ≠ toUpperChar id x.val := fun h =>
    hy1 ((utf8Size_of_toUpperChar_id h).trans hx1)
  have hcslen := length_jumpText (y := y) hx1
  have hdslen := length_jumpPattern (y := y) hx1
  have hcs : A.Text (jumpText x y) := text_jumpText hx hy hx1
  have hds : A.Text (jumpPattern x y) := text_jumpPattern hx hx1
  have hal := aligned_jump (y := y) hx1
  have hne : jumpPattern x y ≠ [] := List.cons_ne_nil _ _
  obtain ⟨hget0, hgety, hgetx⟩ := @getElem?_jumpText x y
  have hocc := @foldedAt_jump x y
  have hover := @not_foldedAt_jump x y hupper
  have hbytes := offset_jumpText (y := y) hx1
  have hleft := verifyChars_jump hx1 hy1 hupper
  have hnul := hcs.noNul
  have hnul' := hds.noNul
  obtain ⟨r, hr, hres⟩ := hright.search id 0 hcs hds hne
  rw [insensitiveIndexOf_zero hcs hds hne (by omega)] at hr
  obtain ⟨fuel, hfuel⟩ : ∃ fuel, (utf8 (jumpText x y)).length = fuel + 1 :=
    ⟨3 * y.utf8Size, hcslen⟩
  obtain ⟨ds, hpat⟩ : ∃ ds, jumpPattern x y = x :: ds := ⟨_, rfl⟩
  rw [hpat] at hr hres hal hocc hover hleft hnul' hds hdslen
  have hloop0 := firstFoldLoop_here hnul hnul' hal hget0 rfl (utf8 (jumpText x y)).length 0
  have hloop1 := firstFoldLoop_next hnul hnul' hal hgety hupper (utf8 (jumpText x y)).length (0 + 1)
  have hloop2 := firstFoldLoop_here hnul hnul' hal hgetx rfl fuel (0 + 1 + 1)
  rw [← hfuel] at hloop2
  rw [offset_zero] at hloop0
  -- the first turn stops over the long character, the second behind it
  rw [insensitiveLoop_over hcs hds hal (by omega) hget0 rfl hloop0 (hover (Nat.zero_le _))
      (Nat.zero_le _) hocc, offset_zero, Nat.zero_add, List.drop_zero, hx1, hleft, ← hbytes,
    insensitiveLoop_there hcs hds hal (by omega) hgetx rfl (hloop1.trans hloop2) hocc (by omega)] at hr
  cases hr
  rcases hres with ⟨h, -⟩ | ⟨i, h, -, hat, -⟩
  · omega
  · exact hover (show i ≤ y.utf8Size by omega) hat

end Jump

/-- A continuation byte is decoded alone, to the six bits it carries. -/
theorem getCharInternal_continuation {m : Nat} (hm : m < 64) (p : Bytes) :
    getCharInternal (UInt8.ofNat (m + 0x80) :: p) = (UInt32.ofNat m, 1) := by
  have hbit : ∀ n < 64, signExtend (UInt8.ofNat (n + 0x80)) &&& 0x40 = 0 := by decide
  have hlow : ∀ n < 64, signExtend (UInt8.ofNat (n + 0x80)) &&&
      ~~~((0xFFFFFF80 ||| 0x40) <<< UInt32.ofNat (6 * (1 - 1))) = UInt32.ofNat n := by decide
  have hbyte : deref (UInt8.ofNat (m + 0x80) :: p) = UInt8.ofNat (m + 0x80) := rfl
  rw [getCharInternal, hbyte, if_neg (isASCII_continuation ⟨m, hm, rfl⟩), List.tail_cons,
    getCharLoop, if_pos (hbit m hm), hlow m hm]

/-- The bytes inside a character, up to the next one. -/
theorem drop_inside {i : Nat} (hi : 0 < i) (hiy : i < y.utf8Size) :
    ∃ m < 64, ∃ p, (cText (y :: cs)).drop i = UInt8.ofNat (m + 0x80) :: p ∧
      1 < (UInt8.ofNat (m + 0x80) :: p).length := by
  have hlen := String.length_utf8EncodeChar y
  have hlt : i - 1 < (String.utf8EncodeChar y).tail.length := by
    rw [List.length_tail]
    omega
  obtain ⟨m, hm, hget⟩ := encode_tail y _ (List.getElem_mem hlt)
  have hin : i < (String.utf8EncodeChar y ++ cText cs).length := by
    rw [List.length_append]
    omega
  have hmore : 0 < (cText cs).length := by
    rw [length_cText]
    omega
  have hval : (String.utf8EncodeChar y ++ cText cs)[i] = UInt8.ofNat (m + 0x80) := by
    rw [← hget, List.getElem_append_left (by omega), List.getElem_tail]
    congr 1
    omega
  refine ⟨m, hm, _, by rw [cText_cons, List.drop_eq_getElem_cons hin, hval], ?_⟩
  rw [List.length_cons, List.length_drop, List.length_append]
  omega

/-- Inside a character the `for` loop goes on byte by byte. -/
theorem firstFoldLoop_inside (hy1 : y.utf8Size ≠ 1) (hd : NoNul (y :: ds)) {i : Nat} (hi : 0 < i)
    (hiy : i ≤ y.utf8Size) (fuel : Nat) (charStart : Int) :
    firstFoldLoop (toUpperChar id) (cText (y :: cs)) (cText (y :: ds)) (utf8 (y :: cs)).length
        (utf8 (y :: ds)).length (fuel + (y.utf8Size - i)) i charStart =
      firstFoldLoop (toUpperChar id) (cText (y :: cs)) (cText (y :: ds)) (utf8 (y :: cs)).length
        (utf8 (y :: ds)).length fuel y.utf8Size (charStart + ((y.utf8Size - i : Nat) : Int)) := by
  induction k : y.utf8Size - i generalizing i charStart with
  | zero =>
    obtain rfl : i = y.utf8Size := by omega
    rw [Nat.cast_zero, Int.add_zero]
    rfl
  | succ n ih =>
    obtain ⟨m, hm, p, hdrop, hlong⟩ := @drop_inside y cs i hi (by omega)
    obtain ⟨-, -, hchar', -, -⟩ := cText_at hd
    have hin : i < (utf8 (y :: cs)).length := by
      rw [utf8_cons, List.length_append, String.length_utf8EncodeChar]
      omega
    have hfits : ¬ (y.utf8Size = 0 ∨ (utf8 (y :: ds)).length < y.utf8Size) := by
      rw [utf8_cons, List.length_append, String.length_utf8EncodeChar]
      omega
    have hshort : ¬ ((1 : Nat) = 0 ∨ (UInt8.ofNat (m + 0x80) :: p).length ≤ 1) := by omega
    have hbig : ¬ y.val.toNat ≤ 127 := mt (utf8Size_eq_one_iff y).mpr hy1
    have hmval : (UInt32.ofNat m).toNat = m := UInt32.toNat_ofNat_of_lt' (by
      show m < 2 ^ 32
      omega)
    have hfold : ¬ (UInt32.ofNat m = y.val ∨ toUpperChar id (UInt32.ofNat m) = toUpperChar id y.val) := by
      rintro (h | h)
      · rw [← h, hmval] at hbig
        omega
      · have hval := congrArg UInt32.toNat h
        rw [toUpperChar_id, toUpperChar_id, hmval] at hval
        split_ifs at hval <;> omega
    rw [show fuel + (n + 1) = fuel + n + 1 from rfl, firstFoldLoop, if_pos hin]
    simp only [hdrop]
    rw [if_neg (show ¬ isASCII (deref (UInt8.ofNat (m + 0x80) :: p)) = true from
      isASCII_continuation ⟨m, hm, rfl⟩)]
    simp only [getCharInternal_continuation hm, hchar', if_neg hshort, if_neg hfits, if_neg hfold]
    rw [ih (by omega) (by omega) (charStart + 1) (by omega)]
    congr 1
    omega

/-- Two long characters, the second twice, after the second. -/
def enterText (x y : Char) : List Char := [y, x, y, y]

section Enter

variable (hx : A.mem x) (hy : A.mem y)

theorem not_foldedAt_enter (hupper : toUpperChar id x.val ≠ toUpperChar id y.val) :
    ¬ FoldedAt (toUpperChar id) [y, y] (enterText x y) 0 := by
  intro hat
  obtain ⟨c, hc, heq⟩ := @FoldedAt.get (enterText x y) [y, y] _ (List.cons_ne_nil _ _) 0 1 hat y rfl
  cases hc
  exact hupper heq

theorem foldedAt_enter : FoldedAt (toUpperChar id) [y, y] (enterText x y) 2 :=
  (foldedAt_iff (List.cons_ne_nil _ _)).mpr (List.prefix_refl _)

include hx hy in
/-- The size of the one that did not match leads into the middle of the first
character, and each of its remaining bytes counts as a character. -/
theorem search_enters (hx1 : x.utf8Size ≠ 1) (hlt : x.utf8Size < y.utf8Size) : ¬ SearchRight A := by
  intro hright
  have hyq := y.utf8Size_le_four
  have hxpos := x.utf8Size_pos
  have hy1 : y.utf8Size ≠ 1 := by omega
  have hupper : toUpperChar id x.val ≠ toUpperChar id y.val := fun h =>
    absurd (utf8Size_of_toUpperChar_id h) (by omega)
  have hcslen : (utf8 (enterText x y)).length = 3 * y.utf8Size + x.utf8Size := by
    simp only [enterText, utf8_cons, utf8_nil, List.length_append, String.length_utf8EncodeChar,
      List.length_nil]
    omega
  have hdslen : (utf8 [y, y]).length = 2 * y.utf8Size := by
    simp only [utf8_cons, utf8_nil, List.length_append, String.length_utf8EncodeChar,
      List.length_nil]
    omega
  have hmem : ∀ c ∈ enterText x y, A.mem c ∧ c.utf8Size ≠ 1 := by
    intro c hc
    simp only [enterText, List.mem_cons, List.not_mem_nil, or_false] at hc
    rcases hc with rfl | rfl | rfl | rfl
    · exact ⟨hy, hy1⟩
    · exact ⟨hx, hx1⟩
    · exact ⟨hy, hy1⟩
    · exact ⟨hy, hy1⟩
  have hcs : A.Text (enterText x y) := ⟨fun c hc => (hmem c hc).1, by omega⟩
  have hds : A.Text [y, y] := ⟨fun c hc => by
    simp only [List.mem_cons, List.not_mem_nil, or_false, or_self] at hc
    rw [hc]
    exact hy, by omega⟩
  have hal : Aligned (toUpperChar id) (enterText x y) [y, y] :=
    ⟨fun c hc _ _ h => absurd h (hmem c hc).2, fun _ _ _ _ h => utf8Size_of_toUpperChar_id h⟩
  have hne : [y, y] ≠ [] := List.cons_ne_nil _ _
  have hnul := hcs.noNul
  have hnul' := hds.noNul
  have hocc := @foldedAt_enter x y
  have hget0 : (enterText x y)[0]? = some y := rfl
  have hget1 : (enterText x y)[1]? = some x := rfl
  have hget2 : (enterText x y)[2]? = some y := rfl
  have hnext : offset (enterText x y) 1 = y.utf8Size := by
    rw [offset_succ hget0, offset_zero, Nat.zero_add]
  have hleft : (verifyChars (toUpperChar id) (enterText x y) [y, y] y.utf8Size).2 = x.utf8Size := by
    have hnot : ¬ Meets (toUpperChar id) x y := fun h => hupper h.1
    simp only [enterText, verifyChars, if_pos meets_self, if_neg hx1, if_neg hnot]
  obtain ⟨r, hr, hres⟩ := hright.search id 0 hcs hds hne
  rw [insensitiveIndexOf_zero hcs hds hne (by omega)] at hr
  have hloop0 := firstFoldLoop_here hnul hnul' hal hget0 rfl (utf8 (enterText x y)).length 0
  rw [offset_zero] at hloop0
  -- from the middle of the first character over the second one to the third
  obtain ⟨fuel, hfuel⟩ : ∃ fuel, (utf8 (enterText x y)).length + 1 =
      fuel + 1 + 1 + (y.utf8Size - x.utf8Size) := ⟨(utf8 (enterText x y)).length + 1 - 2 -
    (y.utf8Size - x.utf8Size), by omega⟩
  have hinside := @firstFoldLoop_inside y [x, y, y] [y] hy1 hnul' x.utf8Size hxpos (by omega)
    (fuel + 1 + 1) (0 + 1)
  have hskip := firstFoldLoop_next hnul hnul' hal hget1 hupper (fuel + 1)
    (0 + 1 + ((y.utf8Size - x.utf8Size : Nat) : Int))
  have hfound := firstFoldLoop_here hnul hnul' hal hget2 rfl fuel
    (0 + 1 + ((y.utf8Size - x.utf8Size : Nat) : Int) + 1)
  rw [← hfuel] at hinside
  rw [hnext] at hskip
  rw [insensitiveLoop_over hcs hds hal (by omega) hget0 rfl hloop0 (not_foldedAt_enter hupper)
      (Nat.zero_le _) hocc, offset_zero, Nat.zero_add, List.drop_zero, hleft,
    insensitiveLoop_there hcs hds hal (by omega) hget2 rfl (hinside.trans (hskip.trans hfound)) hocc
      (by omega)] at hr
  cases hr
  rcases hres with ⟨h, -⟩ | ⟨i, h, -, hat, -⟩
  · omega
  · have hlen := OccursAt.add_le hat
    simp only [upperCase, enterText, List.length_map, List.length_cons, List.length_nil] at hlen
    omega

end Enter

/-! ## The condition -/

/-- Over an alphabet the search ignoring case is right for every mapping exactly
if all characters have one size. -/
theorem searchRight_iff : SearchRight A ↔ A.OneSize := by
  constructor
  · intro hright x y hx hy
    by_contra hne
    by_cases hx1 : x.utf8Size = 1
    · exact search_jumps hx hy hx1 (fun hy1 => hne (hx1.trans hy1.symm)) hright
    · by_cases hy1 : y.utf8Size = 1
      · exact search_jumps hy hx hy1 hx1 hright
      · rcases Nat.lt_or_gt_of_ne hne with hlt | hlt
        · exact search_enters hx hy hx1 hlt hright
        · exact search_enters hy hx hy1 hlt hright
  · exact Alphabet.OneSize.searchRight

/-- In `"aaéaaa"` the search for `"aaa"` answers 2: it has jumped over the second
`a`. -/
theorem search_jumped :
    insensitiveIndexOf (toUpperChar id) (some (cText ['a', 'a', 'é', 'a', 'a', 'a']))
      (some (cText ['a', 'a', 'a'])) 0 = some 2 ∧
    ¬ CallRight id ['a', 'a', 'é', 'a', 'a', 'a'] ['a', 'a', 'a'] 0 := by
  have hr : insensitiveIndexOf (toUpperChar id) (some (cText ['a', 'a', 'é', 'a', 'a', 'a']))
      (some (cText ['a', 'a', 'a'])) 0 = some 2 := by decide
  refine ⟨hr, fun h => ?_⟩
  obtain ⟨r, hr', hfirst⟩ := h.search
  rw [hr] at hr'
  cases hr'
  rcases hfirst with ⟨hneg, -⟩ | ⟨i, hi, -, hat, -⟩
  · exact absurd hneg (by decide)
  · obtain rfl : i = 2 := by omega
    obtain ⟨d, hd, heq⟩ := @FoldedAt.get ['a', 'a', 'é', 'a', 'a', 'a'] ['a', 'a', 'a'] _
      (List.cons_ne_nil _ _) 2 0 hat 'a' rfl
    cases hd
    exact absurd heq (by decide)

end TwoSizes

end ElString

end SuperExe.Elastos
