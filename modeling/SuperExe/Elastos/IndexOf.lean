import SuperExe.Elastos.Accessors

/-! # Searching a string in a string

`SensitiveIndexOf` looks for the first character of the pattern and compares the
rest byte by byte. It keeps a byte cursor and a character cursor; what the
proofs use is that both always stand at the same boundary of the text. The sums
of byte counts are 32-bit sums: one that wraps only keeps the search from
stopping early.
-/

namespace SuperExe.Elastos

open SuperExe.Core SuperExe.Lib

namespace ElString

/-! ## The code -/

/-- The first `n` bytes at `p` and at `q` are the same. -/
def agree : Nat → Bytes → Bytes → Bool
  | 0, _, _ => true
  | n + 1, p, q => deref p == deref q && agree n p.tail q.tail

/-- How the `for` loop over the text ends. -/
inductive FirstChar where
  | ret (result : Int)
  | found (i : Nat) (charStart : Int) (charlen1 : Nat)
  | missed

/-- The `for` loop of `SensitiveIndexOf`: the first character of the pattern
from byte `i` on. -/
def firstCharLoop (string subString : Bytes) (byteLength subByteLength : Nat) :
    Nat → Nat → Int → Option FirstChar
  | 0, _, _ => none
  | fuel + 1, i, charStart =>
    if i < byteLength then
      let p := string.drop i
      if isASCII (deref p) then
        if p.length ≤ 1 then some (.ret (-1))
        else if deref p = deref subString then
          if 1 = subByteLength then some (.ret charStart) else some (.found i charStart 1)
        else firstCharLoop string subString byteLength subByteLength fuel (i + 1) (charStart + 1)
      else
        let charlen1 := utf8SequenceLength (deref p)
        if charlen1 = 0 ∨ p.length ≤ charlen1 then some (.ret (-1))
        else if agree charlen1 p subString then
          if charlen1 = subByteLength then some (.ret charStart)
          else some (.found i charStart charlen1)
        else
          firstCharLoop string subString byteLength subByteLength fuel (i + charlen1) (charStart + 1)
    else some .missed

/-- The outer loop of `SensitiveIndexOf`. -/
def sensitiveLoop (string subString : Bytes) (byteLength subByteLength : Nat) :
    Nat → Nat → Int → Option Int
  | 0, _, _ => none
  | fuel + 1, byteStart, charStart =>
    if toInt32 (subByteLength + byteStart) ≤ byteLength then
      match firstCharLoop string subString byteLength subByteLength (byteLength + 1) byteStart
          charStart with
      | none => none
      | some (.ret result) => some result
      | some .missed => some (-1)
      | some (.found i charStart charlen1) =>
        if toInt32 (subByteLength + i) > byteLength then some (-1)
        -- `++o2` and `++o1` come before the comparison: it starts at the second byte
        else if agree (subByteLength - 1) (string.drop (i + 1)) subString.tail then some charStart
        else
          sensitiveLoop string subString byteLength subByteLength fuel (i + charlen1) (charStart + 1)
    else some (-1)

/-- `SensitiveIndexOf`; `none` would be a search that does not end. -/
def sensitiveIndexOf (string subString : Option Bytes) (startChar : Int) : Option Int :=
  match string, subString with
  | some string, some subString =>
    if deref subString = 0 then some 0
    else
      let startChar := max 0 startChar
      let byteLength := strlen string
      let subByteLength := strlen subString
      if startChar ≥ byteLength ∨ subByteLength > byteLength then some (-1)
      else
        let byteStart := charIndexToByteIndex (some string) startChar
        if byteStart < 0 ∨ toInt32 (subByteLength + byteStart) > byteLength then some (-1)
        else
          sensitiveLoop (cString string) (cString subString) byteLength subByteLength
            (byteLength + 1) byteStart.toNat startChar
  | _, _ => some (-1)

/-- `IndexOf(const String&, Int32)` -/
def indexOfString (s subString : ElString) (start : Int) : Option Int :=
  sensitiveIndexOf s.mString subString.mString start

/-! ## Bytes and characters -/

section Bytes

variable {c d : Char} {cs ds : List Char} {p q u : Bytes} {n i : Nat}

/-- Bytes that are not NUL agree exactly if they stand at the front. -/
theorem agree_iff (hu : ∀ b ∈ u, b ≠ 0) : agree u.length (u ++ p) q = true ↔ u <+: q := by
  induction u generalizing q with
  | nil => simp [agree]
  | cons b u ih =>
    have hb := hu b List.mem_cons_self
    have ih' := ih (q := q.tail) fun b' hb' => hu b' (List.mem_cons_of_mem b hb')
    cases q with
    | nil => simp [agree, deref, hb]
    | cons b' q =>
      rw [List.tail_cons] at ih'
      simp only [List.length_cons, List.cons_append, agree, deref, List.headD_cons, List.tail_cons,
        Bool.and_eq_true, beq_iff_eq, ih', List.cons_prefix_cons]

theorem agree_symm (n : Nat) (p q : Bytes) : agree n p q = agree n q p := by
  induction n generalizing p q with
  | zero => rfl
  | succ n ih =>
    rw [agree, agree, ih]
    congr 1
    rw [Bool.eq_iff_iff, beq_iff_eq, beq_iff_eq]
    exact eq_comm

/-- A character stands at the front of a text only as its first character. -/
theorem encode_prefix_iff (hc : c ≠ Char.ofNat 0) :
    String.utf8EncodeChar c <+: cText cs ↔ ∃ ds, cs = c :: ds := by
  constructor
  · rintro ⟨t, ht⟩
    cases cs with
    | nil =>
      -- the bytes of a character are not NUL
      have hlen := congrArg List.length ht
      have hpos := c.utf8Size_pos
      rw [List.length_append, String.length_utf8EncodeChar, cText_nil, List.length_singleton] at hlen
      have ht' : t = [] := List.length_eq_zero_iff.mp (by omega)
      rw [ht', List.append_nil, cText_nil] at ht
      exact absurd rfl ((readsChar c).ne_nul hc 0 (by rw [ht]; exact List.mem_singleton_self 0))
    | cons d ds =>
      have hchar : (c.val, c.utf8Size) = (d.val, d.utf8Size) := by
        rw [← (readsChar c).getChar t, ht, cText_cons, (readsChar d).getChar]
      have hcd : c = d := Char.ext (Prod.ext_iff.mp hchar).1
      exact ⟨ds, by rw [hcd]⟩
  · rintro ⟨ds, rfl⟩
    rw [cText_cons]
    exact List.prefix_append _ _

/-- The bytes of a text stand at the front of another one only as its first
characters. -/
theorem utf8_prefix_iff (hn : NoNul ds) : utf8 ds <+: cText cs ↔ ds <+: cs := by
  induction ds generalizing cs with
  | nil => simp
  | cons d ds ih =>
    have hd := hn d List.mem_cons_self
    constructor
    · intro h
      obtain ⟨es, rfl⟩ := (encode_prefix_iff hd).mp ((List.prefix_append _ _).trans h)
      rw [utf8_cons, cText_cons, List.prefix_append_right_inj] at h
      rw [List.prefix_cons_inj]
      exact (ih hn.tail).mp h
    · rintro ⟨es, rfl⟩
      rw [cText, utf8_append, List.append_assoc]
      exact List.prefix_append _ _

/-- The first byte of an ASCII character is all of it. -/
theorem utf8Size_of_isASCII (hn : NoNul (c :: cs)) (h : isASCII (deref (cText (c :: cs))) = true) :
    c.utf8Size = 1 := by
  rw [← (cText_at hn).2.1, utf8SequenceLength, if_pos h]

theorem strlen_cText (hn : NoNul cs) : strlen (cText cs) = (utf8 cs).length := by
  rw [strlen, takeWhile_cText hn]

theorem deref_cText_ne (hn : NoNul cs) (hne : cs ≠ []) : deref (cText cs) ≠ 0 := by
  obtain ⟨c, ds, rfl⟩ := List.exists_cons_of_ne_nil hne
  exact (cText_at hn).1

/-- An occurrence takes its bytes. -/
theorem length_utf8_of_occursAt (h : OccursAt ds cs i) (hle : n ≤ i) :
    (utf8 (cs.take n)).length + (utf8 ds).length ≤ (utf8 cs).length := by
  obtain ⟨-, es, hes⟩ := h
  have hsplit : cs = cs.take i ++ (ds ++ es) := by rw [hes, List.take_append_drop]
  have htake : cs.take n = (cs.take i).take n := by rw [List.take_take, min_eq_left hle]
  have h1 := length_utf8_take_le (cs.take i) n
  rw [← htake] at h1
  have h2 := congrArg (fun l => (utf8 l).length) hsplit
  simp only [utf8_append, List.length_append] at h2
  omega

/-- A 32-bit sum that is too large is too large. -/
theorem lt_of_toInt32 {a b : Nat} (ha : a < 2 ^ 31) (hb : b < 2 ^ 31) {k : Nat} (hk : k < 2 ^ 31)
    (h : toInt32 (a + b) > k) : k < a + b := by
  by_contra hle
  rw [toInt32, Int.bmod_eq_of_le (by omega) (by omega)] at h
  omega

end Bytes

/-! ## The search -/

section Search

variable {cs ds : List Char} {d : Char}

/-- At a character the `for` loop stops if it is the first one of the pattern,
and goes on behind it if not. -/
theorem firstCharLoop_at (hn : NoNul cs) (subByteLength fuel : Nat) {n : Nat} {c : Char}
    {es : List Char} (hc : cs.drop n = c :: es) (charStart : Int) :
    firstCharLoop (cText cs) (cText (d :: ds)) (utf8 cs).length subByteLength (fuel + 1)
        (utf8 (cs.take n)).length charStart =
      if c = d then
        if c.utf8Size = subByteLength then some (.ret charStart)
        else some (.found (utf8 (cs.take n)).length charStart c.utf8Size)
      else
        firstCharLoop (cText cs) (cText (d :: ds)) (utf8 cs).length subByteLength fuel
          (utf8 (cs.take (n + 1))).length (charStart + 1) := by
  obtain ⟨hget, hnext⟩ := drop_eq_cons hc
  have hn' : NoNul (c :: es) := hc ▸ hn.drop n
  obtain ⟨h0, hlen, -, hmore, -⟩ := cText_at hn'
  have hcne : c ≠ Char.ofNat 0 := hn' c List.mem_cons_self
  -- the bytes of the two characters agree exactly if they are one character
  have hagree : agree c.utf8Size (cText (c :: es)) (cText (d :: ds)) = true ↔ c = d := by
    rw [cText_cons, ← String.length_utf8EncodeChar c, agree_iff ((readsChar c).ne_nul hcne),
      encode_prefix_iff hcne]
    simp only [List.cons.injEq, exists_and_left, exists_eq', and_true]
    exact eq_comm
  have htake : cs.take (n + 1) = cs.take n ++ [c] := by
    rw [List.take_add_one, hget]
    rfl
  have hstep : (utf8 (cs.take (n + 1))).length = (utf8 (cs.take n)).length + c.utf8Size := by
    rw [htake, utf8_append, List.length_append, utf8_cons, utf8_nil, List.append_nil,
      String.length_utf8EncodeChar]
  have hpos := c.utf8Size_pos
  have hin : (utf8 (cs.take n)).length < (utf8 cs).length := by
    have := length_utf8_take_le cs (n + 1)
    omega
  rw [firstCharLoop, if_pos hin]
  simp only [drop_cText, hc, hlen]
  by_cases hascii : isASCII (deref (cText (c :: es))) = true
  · have hone := utf8Size_of_isASCII hn' hascii
    rw [hone] at hmore hagree hstep
    have hbyte : deref (cText (c :: es)) = deref (cText (d :: ds)) ↔ c = d := by
      rw [← hagree]
      simp [agree]
    rw [if_pos hascii, if_neg (by omega), hone, hstep]
    simp only [hbyte]
  · rw [if_neg hascii, if_neg hmore, hstep]
    simp only [hagree]

/-- The `for` loop finds the first character of the pattern from `n` on. -/
theorem firstCharLoop_spec (hn : NoNul cs) (hd : NoNul (d :: ds)) (subByteLength : Nat) (n : Nat)
    {fuel : Nat} (hf : (cs.drop n).length < fuel) :
    (firstCharLoop (cText cs) (cText (d :: ds)) (utf8 cs).length subByteLength fuel
        (utf8 (cs.take n)).length n = some .missed ∧ ∀ i, n ≤ i → cs[i]? ≠ some d) ∨
    ∃ m, n ≤ m ∧ cs[m]? = some d ∧ (∀ i, n ≤ i → i < m → cs[i]? ≠ some d) ∧
      firstCharLoop (cText cs) (cText (d :: ds)) (utf8 cs).length subByteLength fuel
          (utf8 (cs.take n)).length n =
        if d.utf8Size = subByteLength then some (.ret m)
        else some (.found (utf8 (cs.take m)).length m d.utf8Size) := by
  induction fuel generalizing n with
  | zero => omega
  | succ fuel ih =>
    -- by induction on the turns, from the character with index `n` on
    cases hc : cs.drop n with
    | nil =>
      have hlen : cs.length ≤ n := List.drop_eq_nil_iff.mp hc
      left
      rw [List.take_of_length_le hlen, firstCharLoop, if_neg (Nat.lt_irrefl _)]
      refine ⟨rfl, fun i hi => ?_⟩
      rw [List.getElem?_eq_none (by omega)]
      exact Option.some_ne_none d |>.symm
    | cons c es =>
      obtain ⟨hget, hnext⟩ := drop_eq_cons hc
      rw [hc, List.length_cons] at hf
      rw [firstCharLoop_at hn subByteLength fuel hc]
      -- it is the one, or the loop goes on behind it
      by_cases heq : c = d
      · right
        subst heq
        rw [if_pos rfl]
        exact ⟨n, Nat.le_refl n, hget, fun i h1 h2 => absurd h2 (by omega), rfl⟩
      · have hhere : cs[n]? ≠ some d := by
          rw [hget]
          exact fun h => heq (Option.some_inj.mp h)
        have hskip : ∀ i, n ≤ i → ¬ n + 1 ≤ i → cs[i]? ≠ some d := by
          intro i h1 h2
          obtain rfl : i = n := by omega
          exact hhere
        rw [if_neg heq]
        have hrest := ih (n + 1) (by rw [hnext]; omega)
        rw [Nat.cast_add, Nat.cast_one] at hrest
        rcases hrest with ⟨hloop, hnone⟩ | ⟨m, hm, hgetm, hleast, hloop⟩
        · left
          refine ⟨hloop, fun i hi => ?_⟩
          by_cases hlt : n + 1 ≤ i
          · exact hnone i hlt
          · exact hskip i hi hlt
        · right
          refine ⟨m, by omega, hgetm, fun i hi him => ?_, hloop⟩
          by_cases hlt : n + 1 ≤ i
          · exact hleast i hlt him
          · exact hskip i hi hlt

/-- The comparison of the rest, once the first character has been found. -/
theorem agree_rest (hd : NoNul (d :: ds)) (p : Bytes) :
    agree ((utf8 (d :: ds)).length - 1) p (cText (d :: ds)).tail = true ↔
      (utf8 (d :: ds)).tail <+: p := by
  have hnz := ne_nul_of_mem_utf8 hd
  have hpos := length_utf8_pos (List.cons_ne_nil d ds)
  obtain ⟨b, u, hu⟩ := List.exists_cons_of_length_pos hpos
  rw [hu] at hnz
  rw [cText, hu, List.cons_append, List.tail_cons, List.tail_cons, List.length_cons, Nat.add_sub_cancel,
    agree_symm, agree_iff fun b' hb' => hnz b' (List.mem_cons_of_mem b hb')]

/-- A pattern stands at `m` exactly if its first character does and the
comparison of the rest succeeds. -/
theorem occursAt_iff_agree (hd : NoNul (d :: ds)) {m : Nat} (hget : cs[m]? = some d) :
    OccursAt (d :: ds) cs m ↔
      agree ((utf8 (d :: ds)).length - 1) ((cText cs).drop ((utf8 (cs.take m)).length + 1))
        (cText (d :: ds)).tail = true := by
  obtain ⟨hm, hval⟩ := List.getElem?_eq_some_iff.mp hget
  have hdrop : cs.drop m = d :: cs.drop (m + 1) := by
    rw [← hval]
    exact List.drop_eq_getElem_cons hm
  have hdpos := d.utf8Size_pos
  obtain ⟨b, u, hu⟩ : ∃ b u, String.utf8EncodeChar d = b :: u := by
    apply List.exists_cons_of_length_pos
    rw [String.length_utf8EncodeChar]
    exact hdpos
  have hbyte : (cText cs).drop (utf8 (cs.take m)).length = b :: (u ++ cText (cs.drop (m + 1))) := by
    rw [drop_cText, hdrop, cText_cons, hu, List.cons_append]
  have hrest : (cText cs).drop ((utf8 (cs.take m)).length + 1) =
      u ++ cText (cs.drop (m + 1)) := by
    rw [← List.drop_drop, hbyte]
    rfl
  rw [occursAt_iff (List.cons_ne_nil d ds), ← utf8_prefix_iff hd, ← drop_cText, agree_rest hd,
    hbyte, hrest, utf8_cons, hu, List.cons_append, List.cons_prefix_cons, List.tail_cons]
  exact and_iff_right rfl

/-- The outer loop, from a boundary of the text. -/
theorem sensitiveLoop_first (hn : NoNul cs) (hd : NoNul (d :: ds)) (hcs : (utf8 cs).length < 2 ^ 31)
    (hds : (utf8 (d :: ds)).length < 2 ^ 31) (n : Nat) {fuel : Nat} (hf : (cs.drop n).length < fuel) :
    ∃ r, sensitiveLoop (cText cs) (cText (d :: ds)) (utf8 cs).length (utf8 (d :: ds)).length fuel
        (utf8 (cs.take n)).length n = some r ∧ First (OccursAt (d :: ds) cs) n r := by
  induction fuel generalizing n with
  | zero => omega
  | succ fuel ih =>
    have hsmall : ∀ m, (utf8 (cs.take m)).length < 2 ^ 31 := fun m =>
      Nat.lt_of_le_of_lt (length_utf8_take_le cs m) hcs
    -- where the bytes of the pattern do not fit it does not occur
    have hroom : ∀ m, toInt32 ((utf8 (d :: ds)).length + (utf8 (cs.take m)).length) >
        (utf8 cs).length → ∀ i, m ≤ i → ¬ OccursAt (d :: ds) cs i := by
      intro m hm i hi hocc
      have h1 := lt_of_toInt32 hds (hsmall m) hcs hm
      have h2 := length_utf8_of_occursAt hocc hi
      omega
    have hfirst : ∀ i, cs[i]? ≠ some d → ¬ OccursAt (d :: ds) cs i := by
      rintro i hi ⟨-, es, hes⟩
      apply hi
      have hget : (cs.drop i)[0]? = cs[i + 0]? := List.getElem?_drop
      rw [← hes] at hget
      exact hget.symm
    rw [sensitiveLoop]
    by_cases hfit : toInt32 ((utf8 (d :: ds)).length + (utf8 (cs.take n)).length) ≤ (utf8 cs).length
    · rw [if_pos hfit]
      have hle := length_le_length_utf8 cs
      rcases firstCharLoop_spec hn hd (utf8 (d :: ds)).length n
        (show (cs.drop n).length < (utf8 cs).length + 1 by rw [List.length_drop]; omega) with
        ⟨hloop, hnone⟩ | ⟨m, hm, hget, hleast, hloop⟩
      · rw [hloop]
        exact ⟨-1, rfl, First.none fun i hi => hfirst i (hnone i hi)⟩
      · have hskip : ∀ i, n ≤ i → i < m → ¬ OccursAt (d :: ds) cs i := fun i h1 h2 =>
          hfirst i (hleast i h1 h2)
        have hocc := @occursAt_iff_agree cs ds d hd m hget
        rw [hloop]
        by_cases hsingle : d.utf8Size = (utf8 (d :: ds)).length
        · -- the pattern is this one character
          have hnil : ds = [] := by
            by_contra hne
            have := length_utf8_pos hne
            rw [utf8_cons, List.length_append, String.length_utf8EncodeChar] at hsingle
            omega
          rw [if_pos hsingle]
          refine ⟨m, rfl, First.pass_to hm hskip (First.here ?_)⟩
          obtain ⟨hlt, hval⟩ := List.getElem?_eq_some_iff.mp hget
          rw [occursAt_iff (List.cons_ne_nil d ds), hnil, List.drop_eq_getElem_cons hlt, hval]
          exact ⟨_, rfl⟩
        · rw [if_neg hsingle]
          dsimp only
          split
          · next hover =>
            exact ⟨-1, rfl, First.pass_to hm hskip (First.none (hroom m hover))⟩
          · split
            · next hagree => exact ⟨m, rfl, First.pass_to hm hskip (First.here (hocc.mpr hagree))⟩
            · next hagree =>
              obtain ⟨hlt, hval⟩ := List.getElem?_eq_some_iff.mp hget
              have hstep : (utf8 (cs.take m)).length + d.utf8Size =
                  (utf8 (cs.take (m + 1))).length := by
                rw [List.take_add_one, hget, utf8_append, List.length_append]
                simp
              have hlen : (cs.drop (m + 1)).length < fuel := by
                rw [List.length_drop] at hf ⊢
                omega
              obtain ⟨r, hr, hres⟩ := ih (m + 1) hlen
              rw [Nat.cast_add, Nat.cast_one] at hr
              rw [hstep]
              exact ⟨r, hr, First.pass_to hm hskip (First.pass (mt hocc.mp hagree) hres)⟩
    · rw [if_neg hfit]
      exact ⟨-1, rfl, First.none (hroom n (by omega))⟩

/-- `IndexOf(pattern, start)` ends with the first index from `start` on at which
the pattern occurs. -/
theorem indexOfString_first {s pattern : ElString} (h : s.HasText cs) (hp : pattern.HasText ds)
    (hne : ds ≠ []) (start : Int) :
    ∃ r, s.indexOfString pattern start = some r ∧ First (OccursAt ds cs) (max start 0).toNat r := by
  obtain ⟨d, es, rfl⟩ := List.exists_cons_of_ne_nil hne
  have hpbuf : pattern.mString = some (cText (d :: es)) :=
    hp.buffer.resolve_left fun hnull => hne hnull.2
  have hmax : max 0 start = ((max start 0).toNat : Int) := by omega
  -- an occurrence begins inside the text
  have hbound : ∀ i, OccursAt (d :: es) cs i → i < cs.length := by
    intro i hocc
    have := hocc.add_le
    rw [List.length_cons] at this
    omega
  have hnone : ∀ k, cs.length ≤ k → First (OccursAt (d :: es) cs) k (-1) := by
    intro k hk
    apply First.none
    intro i hi hocc
    have := hbound i hocc
    omega
  -- the null string has no characters
  rcases h.buffer with ⟨hnull, rfl⟩ | hbuf
  · refine ⟨-1, ?_, hnone _ (Nat.zero_le _)⟩
    rw [indexOfString, hnull]
    rfl
  · have hle := length_le_length_utf8 cs
    have hsmall := h.small
    have hpsmall := hp.small
    have hbytes := toByteIndex_exact h ((max start 0).toNat : Int)
    rw [indexOfString, hpbuf]
    rw [hbuf] at hbytes ⊢
    simp only [sensitiveIndexOf, if_neg (deref_cText_ne hp.noNul hne), strlen_cText h.noNul,
      strlen_cText hp.noNul, cString_cText h.noNul, cString_cText hp.noNul, hmax, hbytes]
    generalize (max start 0).toNat = k
    rw [Int.toNat_natCast]
    -- the code compares the start with the number of bytes
    by_cases hout : (k : Int) ≥ (utf8 cs).length ∨ (utf8 (d :: es)).length > (utf8 cs).length
    · rw [if_pos hout]
      refine ⟨-1, rfl, First.none fun i hi hocc => ?_⟩
      have h1 := hbound i hocc
      have h2 := length_utf8_of_occursAt hocc (Nat.zero_le i)
      omega
    · rw [if_neg hout]
      -- behind the last character `ToByteIndex` has no answer
      by_cases hk : k < cs.length
      · have hk' : (0 : Int) ≤ k ∧ (k : Int) < cs.length := by omega
        rw [if_pos hk', Int.toNat_natCast]
        split
        · next hover =>
          refine ⟨-1, rfl, First.none fun i hi hocc => ?_⟩
          have hfit := length_utf8_of_occursAt hocc hi
          have hcut := length_utf8_take_le cs k
          rcases hover with hneg | hover
          · omega
          · have := lt_of_toInt32 (show (utf8 (d :: es)).length < 2 ^ 31 by omega)
              (show (utf8 (cs.take k)).length < 2 ^ 31 by omega)
              (show (utf8 cs).length < 2 ^ 31 by omega) hover
            omega
        · exact sensitiveLoop_first h.noNul hp.noNul (by omega) (by omega) k
            (by rw [List.length_drop]; omega)
      · have hk' : ¬ ((0 : Int) ≤ k ∧ (k : Int) < cs.length) := by omega
        simp only [if_neg hk']
        rw [if_pos (Or.inl (by decide))]
        exact ⟨-1, rfl, hnone k (by omega)⟩

theorem indexOfString_first_overlap :
    First (OccursAt ['a', 'é', 'a'] ['a', 'a', 'é', 'a', 'é', 'a']) 2 3 := by
  have h : (ofCstr enoughMemory (some (utf8 ['a', 'a', 'é', 'a', 'é', 'a']))).HasText
      ['a', 'a', 'é', 'a', 'é', 'a'] := ⟨by decide, Or.inr (by decide), by decide⟩
  have hp : (ofCstr enoughMemory (some (utf8 ['a', 'é', 'a']))).HasText ['a', 'é', 'a'] :=
    ⟨by decide, Or.inr (by decide), by decide⟩
  obtain ⟨r, hr, hfirst⟩ := indexOfString_first h hp (by decide) 2
  have heval : (ofCstr enoughMemory (some (utf8 ['a', 'a', 'é', 'a', 'é', 'a']))).indexOfString
      (ofCstr enoughMemory (some (utf8 ['a', 'é', 'a']))) 2 = some 3 := by decide
  rw [heval] at hr
  cases hr
  exact hfirst

end Search

end ElString

end SuperExe.Elastos
