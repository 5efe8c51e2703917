import SuperExe.Elastos.Accessors

/-! # Searching backwards

`LastIndexOf` and `LastIndexOfIgnoreCase` work on the two arrays of `GetChars`.
With `key` as the view of a character that the comparison looks at, both are one
search for a list in a list: a backward scan for the first character, and a
comparison of the rest from there. An access outside an array would make the
result `none`.
-/

namespace SuperExe.Elastos

open SuperExe.Core SuperExe.Lib

namespace ElString

/-- What a comparison looks at: the character or its upper case. -/
def fold (u_toupper : Char32 → Char32) (ignoreCase : Bool) (ch : Char32) : Char32 :=
  if ignoreCase then toUpperChar u_toupper ch else ch

theorem same_iff (u_toupper : Char32 → Char32) (ignoreCase : Bool) (a b : Char32) :
    same u_toupper ignoreCase a b = true ↔
      fold u_toupper ignoreCase a = fold u_toupper ignoreCase b := by
  cases ignoreCase with
  | false => simp [same, fold]
  | true =>
    simp only [same, fold, Bool.true_and, Bool.or_eq_true, beq_iff_eq, if_true]
    constructor
    · rintro (rfl | h)
      · rfl
      · exact h
    · exact Or.inr

/-! ## The loops -/

section Loops

variable {same : Char32 → Char32 → Bool} {key : Char32 → Char32} {chars subChars : List Char32}

/-- The scan finds the last of the first `n` elements that pass the test. -/
theorem lastHit_last (hit : Char32 → Bool) {n : Nat} (hn : n ≤ chars.length) :
    ∃ r, lastHit hit chars n = some r ∧
      Last (fun i => ∃ ch, chars[i]? = some ch ∧ hit ch = true) n r := by
  induction n with
  | zero => exact ⟨-1, rfl, Last.none fun i hi => absurd hi (Nat.not_lt_zero i)⟩
  | succ n ih =>
    have hget : chars[n]? = some chars[n] := List.getElem?_eq_getElem hn
    rw [lastHit, hget]
    dsimp only
    by_cases hhit : hit chars[n] = true
    · rw [if_pos hhit]
      exact ⟨n, rfl, Last.here ⟨_, hget, hhit⟩⟩
    · rw [if_neg hhit]
      obtain ⟨r, hr, hlast⟩ := ih (by omega)
      refine ⟨r, hr, Last.pass_to (Nat.le_succ n) ?_ hlast⟩
      rintro j h1 h2 ⟨ch, hch, hpass⟩
      obtain rfl : j = n := by omega
      rw [hget] at hch
      cases hch
      exact hhit hpass

/-- The comparison stays inside both arrays, and comes to the end of the pattern
exactly if its rest stands at `o1`. -/
theorem compareLoop_spec (hkey : ∀ a b, same a b = true ↔ key a = key b) {fuel o1 o2 : Nat}
    (hf : subChars.length - o2 < fuel) (ho2 : o2 ≤ subChars.length)
    (ho1 : o1 + (subChars.length - o2) ≤ chars.length) :
    ∃ k, compareLoop same chars subChars fuel o1 o2 = some k ∧
      (k = subChars.length ↔ (subChars.drop o2).map key <+: (chars.drop o1).map key) := by
  induction fuel generalizing o1 o2 with
  | zero => omega
  | succ fuel ih =>
    rw [compareLoop]
    by_cases hlt : o2 < subChars.length
    · have h1 : chars[o1]? = some chars[o1] := List.getElem?_eq_getElem (by omega)
      have h2 : subChars[o2]? = some subChars[o2] := List.getElem?_eq_getElem hlt
      rw [if_pos hlt, h1, h2, List.drop_eq_getElem_cons hlt,
        List.drop_eq_getElem_cons (show o1 < chars.length by omega), List.map_cons, List.map_cons,
        List.cons_prefix_cons]
      dsimp only
      by_cases hsame : same chars[o1] subChars[o2] = true
      · obtain ⟨k, hk, hiff⟩ := @ih (o1 + 1) (o2 + 1) (by omega) (by omega) (by omega)
        rw [if_pos hsame]
        refine ⟨k, hk, ?_⟩
        rw [hiff]
        exact (and_iff_right ((hkey _ _).mp hsame).symm).symm
      · rw [if_neg hsame]
        refine ⟨o2, rfl, ?_⟩
        constructor
        · intro heq
          omega
        · rintro ⟨heq, -⟩
          exact absurd ((hkey _ _).mpr heq.symm) hsame
    · rw [if_neg hlt, List.drop_eq_nil_of_le (by omega)]
      refine ⟨o2, rfl, ?_⟩
      constructor
      · intro _
        exact List.nil_prefix
      · intro _
        omega

/-- The backward search, from a start at which the pattern still fits. -/
theorem lastMatch_last (hkey : ∀ a b, same a b = true ↔ key a = key b) {firstChar : Char32}
    {rest : List Char32} (hsub : subChars = firstChar :: rest) {fuel n : Nat} (hf : n < fuel)
    (hn : n + subChars.length ≤ chars.length + 1) :
    ∃ r, lastMatch same chars subChars firstChar fuel ((n : Int) - 1) = some r ∧
      Last (OccursAt (subChars.map key) (chars.map key)) n r := by
  have hlen : subChars.length = rest.length + 1 := by rw [hsub, List.length_cons]
  induction fuel generalizing n with
  | zero => omega
  | succ fuel ih =>
    have hn' : ((n : Int) - 1 + 1).toNat = n := by omega
    obtain ⟨index, hindex, hlast⟩ := @lastHit_last chars (fun ch => same ch firstChar) n (by omega)
    -- the pattern only stands where its first character does
    have hocc : ∀ j, OccursAt (subChars.map key) (chars.map key) j ↔
        ∃ ch, chars[j]? = some ch ∧ same ch firstChar = true ∧
          rest.map key <+: (chars.drop (j + 1)).map key := by
      intro j
      rw [occursAt_iff (by rw [hsub]; exact List.cons_ne_nil _ _), ← List.map_drop, hsub,
        List.map_cons]
      constructor
      · intro h
        cases hd : chars.drop j with
        | nil =>
          rw [hd] at h
          exact absurd h.length_le (by simp)
        | cons ch es =>
          rw [hd, List.map_cons, List.cons_prefix_cons] at h
          have hget : (chars.drop j)[0]? = chars[j + 0]? := List.getElem?_drop
          rw [hd] at hget
          have hnext : chars.drop (j + 1) = es := by
            rw [← List.drop_drop, hd]
            rfl
          exact ⟨ch, hget.symm, (hkey _ _).mpr h.1.symm, by rw [hnext]; exact h.2⟩
      · rintro ⟨ch, hget, hsame, hrest⟩
        obtain ⟨hj, hval⟩ := List.getElem?_eq_some_iff.mp hget
        rw [List.drop_eq_getElem_cons hj, hval, List.map_cons, List.cons_prefix_cons]
        exact ⟨((hkey _ _).mp hsame).symm, hrest⟩
    rw [lastMatch, hn', hindex]
    dsimp only
    rcases hlast with ⟨rfl, hnone⟩ | ⟨i, rfl, hi, hfirst, hgreatest⟩
    · rw [if_pos rfl]
      refine ⟨-1, rfl, Last.none fun j hj hat => ?_⟩
      obtain ⟨ch, hget, hsame, -⟩ := (hocc j).mp hat
      exact hnone j hj ⟨ch, hget, hsame⟩
    · have hskip : ∀ j, i + 1 ≤ j → j < n → ¬ OccursAt (subChars.map key) (chars.map key) j := by
        intro j h1 h2 hat
        obtain ⟨ch, hget, hsame, -⟩ := (hocc j).mp hat
        exact hgreatest j (by omega) h2 ⟨ch, hget, hsame⟩
      obtain ⟨k, hk, hiff⟩ := @compareLoop_spec same key chars subChars hkey subChars.length (i + 1) 1
        (by omega) (by omega) (by omega)
      have htail : subChars.drop 1 = rest := by rw [hsub]; rfl
      rw [htail] at hiff
      obtain ⟨ch, hget, hsame⟩ := hfirst
      rw [if_neg (by omega), Int.toNat_natCast, hk]
      dsimp only
      by_cases hend : k = subChars.length
      · rw [if_pos hend]
        exact ⟨i, rfl, Last.pass_to hi hskip (Last.here ((hocc i).mpr ⟨ch, hget, hsame, hiff.mp hend⟩))⟩
      · rw [if_neg hend]
        obtain ⟨r, hr, hlast⟩ := @ih i (by omega) (by omega)
        refine ⟨r, hr, Last.pass_to (show i ≤ n by omega) ?_ hlast⟩
        intro j h1 h2 hat
        by_cases hij : j = i
        · subst hij
          obtain ⟨-, -, -, hrest⟩ := (hocc j).mp hat
          exact hend (hiff.mpr hrest)
        · exact hskip j (by omega) h2 hat

/-- A search in the two arrays finds the last index up to `start` at which the
pattern occurs. -/
theorem lastIndexOfChars_last (hkey : ∀ a b, same a b = true ↔ key a = key b) {start : Int}
    (hstart : 0 ≤ start) :
    ∃ r, lastIndexOfChars same chars subChars start = some r ∧
      Last (OccursAt (subChars.map key) (chars.map key)) (start.toNat + 1) r := by
  have hroom : ∀ j, OccursAt (subChars.map key) (chars.map key) j →
      j + subChars.length ≤ chars.length := by
    intro j hat
    have := hat.add_le
    rwa [List.length_map, List.length_map] at this
  simp only [lastIndexOfChars]
  by_cases hfit : (subChars.length : Int) ≤ chars.length ∧ start ≥ 0
  · rw [if_pos hfit]
    cases hsub : subChars with
    | nil =>
      -- the empty pattern stands everywhere up to the end
      rw [if_neg (by simp)]
      refine ⟨_, rfl, Or.inr ⟨min start.toNat chars.length, by omega, by omega, ?_, ?_⟩⟩
      · exact ⟨by rw [List.length_map]; omega, List.nil_prefix⟩
      · rintro j h1 h2 ⟨hlen, -⟩
        rw [List.length_map] at hlen
        omega
    | cons firstChar rest =>
      rw [← hsub]
      have hlen : subChars.length = rest.length + 1 := by rw [hsub, List.length_cons]
      have hget : subChars[0]? = some firstChar := by rw [hsub]; rfl
      rw [if_pos (by omega), hget]
      obtain ⟨r, hr, hlast⟩ := @lastMatch_last same key chars subChars hkey firstChar rest hsub
        (chars.length + 1) ((min start (chars.length - subChars.length)).toNat + 1) (by omega)
        (by omega)
      have hmin : min (min start ((chars.length : Int) - subChars.length)) ((chars.length : Int) - 1) =
          (((min start (chars.length - subChars.length)).toNat + 1 : Nat) : Int) - 1 := by omega
      rw [hmin]
      refine ⟨r, hr, Last.pass_to (by omega) ?_ hlast⟩
      intro j h1 h2 hat
      have := hroom j hat
      omega
  · rw [if_neg hfit]
    refine ⟨-1, rfl, Last.none fun j _ hat => ?_⟩
    have := hroom j hat
    omega

end Loops

/-! ## The members -/

/-- What `LastIndexOf` is asked for: another string or a character. -/
inductive Pattern where
  | string (subString : ElString)
  | char (target : Char32)

/-- The code points of a valid pattern. -/
def Pattern.Is : Pattern → List Char32 → Prop
  | .string subString, points =>
    ∃ ds, subString.isNull = false ∧ subString.Holds ds ∧ points = ds.map Char.val
  | .char target, points => isValidChar target = true ∧ points = [target]

section Members

variable (u_toupper : Char32 → Char32)

/-- `LastIndexOf(pattern, start)` and `LastIndexOfIgnoreCase(pattern, start)` -/
def Pattern.lastIndexOf (ignoreCase : Bool) (s : ElString) (start : Int) : Pattern → Option Int
  | .string subString => (s.lastIndexOfString (same u_toupper ignoreCase) subString start).1
  | .char target =>
    (s.lastIndexOfFrom (fun ch => same u_toupper ignoreCase ch target) target start).1

/-- All accesses are inside the arrays, and the result is the last index up to
`start` at which the pattern occurs. -/
def LastIndexRight (ignoreCase : Bool) (s : ElString) (cs : List Char) (pattern : Pattern)
    (points : List Char32) (start : Int) : Prop :=
  ∃ r, pattern.lastIndexOf u_toupper ignoreCase s start = some r ∧
    Last (OccursAt (points.map (fold u_toupper ignoreCase))
      ((cs.map Char.val).map (fold u_toupper ignoreCase))) (start.toNat + 1) r

end Members

section Members

variable {u_toupper : Char32 → Char32} {s : ElString} {cs : List Char} {start : Int}

/-- A string pattern is found for every start. -/
theorem lastIndexOf_string (h : s.Holds cs) (hnull : s.isNull = false) {subString : ElString}
    {points : List Char32} (hp : (Pattern.string subString).Is points) (h0 : 0 ≤ start)
    (ignoreCase : Bool) :
    LastIndexRight u_toupper ignoreCase s cs (.string subString) points start := by
  obtain ⟨ds, hsubnull, hsub, rfl⟩ := hp
  obtain ⟨r, hr, hlast⟩ := @lastIndexOfChars_last (same u_toupper ignoreCase)
    (fold u_toupper ignoreCase) (cs.map Char.val) (ds.map Char.val) (same_iff u_toupper ignoreCase)
    start h0
  refine ⟨r, ?_, hlast⟩
  simp only [Pattern.lastIndexOf, lastIndexOfString, hnull, hsubnull, Bool.or_self,
    Bool.false_eq_true, if_false, getChars_spec h, getChars_spec hsub]
  exact hr

/-- A character is looked for among the characters up to `start`, as far as
`start + 1` is a number. -/
theorem lastIndexOf_char (h : s.Holds cs) (hnull : s.isNull = false) {target : Char32}
    (hvalid : isValidChar target = true) (h0 : 0 ≤ start) (ignoreCase : Bool) :
    ∃ r, (Pattern.char target).lastIndexOf u_toupper ignoreCase s start = some r ∧
      Last (OccursAt ([target].map (fold u_toupper ignoreCase))
        ((cs.map Char.val).map (fold u_toupper ignoreCase))) (toInt32 (start + 1)).toNat r := by
  have hchars := getChars_exact h.hasText h.cacheRight 0 (toInt32 (start + 1))
  simp only [Pattern.lastIndexOf, lastIndexOfFrom, hnull, hvalid, Bool.not_true, Bool.false_eq_true,
    if_false, max_eq_right h0, hchars]
  generalize toInt32 (start + 1) = stop
  have hslice : slice cs 0 stop = cs.take stop.toNat := by simp [slice]
  rw [hslice]
  obtain ⟨r, hr, hlast⟩ := @lastHit_last ((cs.take stop.toNat).map Char.val)
    (fun ch => same u_toupper ignoreCase ch target) _ (Nat.le_refl _)
  have hlen : ((cs.take stop.toNat).map Char.val).length = min stop.toNat cs.length := by
    rw [List.length_map, List.length_take]
  rw [hlen] at hlast
  refine ⟨r, hr, Last.pass_to (min_le_left _ _) ?_ (hlast.congr ?_)⟩
  · intro j h1 h2 hat
    have := hat.add_le
    rw [List.length_map, List.length_map, List.length_map, List.length_singleton] at this
    omega
  · intro i hi
    rw [List.map_singleton, occursAt_singleton, List.getElem?_map, List.getElem?_map,
      List.getElem?_map, List.getElem?_take_of_lt (by omega)]
    cases cs[i]? with
    | none => simp
    | some c => simp [same_iff]

/-- `LastIndexOf` and `LastIndexOfIgnoreCase` are right exactly if a character
that occurs is not looked for from the largest of all starts: `start + 1` then
becomes negative, and there are no characters to look at. -/
theorem last_index_iff (h : s.Holds cs) (hnull : s.isNull = false) {pattern : Pattern}
    {points : List Char32} (hp : pattern.Is points) (h0 : 0 ≤ start) (h1 : start < 2 ^ 31) :
    (∀ ignoreCase, LastIndexRight u_toupper ignoreCase s cs pattern points start) ↔
      ∀ target, pattern = .char target → start = 2 ^ 31 - 1 →
        fold u_toupper true target ∉ (cs.map Char.val).map (fold u_toupper true) := by
  -- only the search for a character adds one to the start
  cases pattern with
  | string subString =>
    constructor
    · intro _ target heq
      cases heq
    · intro _
      exact lastIndexOf_string h hnull hp h0
  | char target =>
    obtain ⟨hvalid, rfl⟩ := hp
    have hcall := @lastIndexOf_char u_toupper s cs start h hnull target hvalid h0
    by_cases hmax : start = 2 ^ 31 - 1
    · -- no characters are looked at, and -1 is right if there was none to find
      have hwrap : (toInt32 (start + 1)).toNat = 0 := by
        rw [hmax]
        decide
      have hnone : ∀ ignoreCase,
          (Pattern.char target).lastIndexOf u_toupper ignoreCase s start = some (-1) := by
        intro ignoreCase
        obtain ⟨r, hr, hlast⟩ := hcall ignoreCase
        rw [hwrap] at hlast
        rw [hr, hlast.eq_neg_one_iff.mpr fun i hi => absurd hi (Nat.not_lt_zero i)]
      have hocc : ∀ ignoreCase, LastIndexRight u_toupper ignoreCase s cs (.char target) [target] start ↔
          fold u_toupper ignoreCase target ∉ (cs.map Char.val).map (fold u_toupper ignoreCase) := by
        intro ignoreCase
        have hlt := h.length_lt
        unfold LastIndexRight
        rw [hnone ignoreCase, List.map_singleton]
        constructor
        · rintro ⟨r, hr, hlast⟩ hmem
          cases hr
          obtain ⟨i, hi, hval⟩ := List.getElem_of_mem hmem
          have hi' := hi
          rw [List.length_map, List.length_map] at hi'
          refine hlast.eq_neg_one_iff.mp rfl i (by omega) ?_
          rw [occursAt_singleton, List.getElem?_eq_getElem hi, hval]
        · intro hmem
          refine ⟨-1, rfl, Last.none fun i _ hat => hmem ?_⟩
          exact List.mem_of_getElem? (occursAt_singleton.mp hat)
      constructor
      · rintro hall target' ⟨⟩ -
        exact (hocc true).mp (hall true)
      · intro hcond ignoreCase
        have hfold := hcond target rfl hmax
        refine (hocc ignoreCase).mpr ?_
        cases ignoreCase with
        | true => exact hfold
        | false =>
          intro hmem
          apply hfold
          obtain ⟨ch, hch, heq⟩ := List.mem_map.mp hmem
          obtain rfl : ch = target := heq
          exact List.mem_map_of_mem hch
    · have hnext : (toInt32 (start + 1)).toNat = start.toNat + 1 := by
        rw [toInt32, Int.bmod_eq_of_le (by omega) (by omega)]
        omega
      constructor
      · intro _ _ _ heq
        exact absurd heq hmax
      · intro _ ignoreCase
        have hres := hcall ignoreCase
        rwa [hnext] at hres

/-- `String("a").LastIndexOf('a', 0x7FFFFFFF)` -/
theorem last_index_max :
    ((ofCstr enoughMemory (some (bytes "a"))).lastIndexOfFrom (fun ch => ch == 97) 97
      (2 ^ 31 - 1)).1 = some (-1) ∧
    ¬ LastIndexRight id false (ofCstr enoughMemory (some (bytes "a"))) ['a'] (.char 97) [97]
      (2 ^ 31 - 1) := by
  have heval : (Pattern.char 97).lastIndexOf id false (ofCstr enoughMemory (some (bytes "a")))
      (2 ^ 31 - 1) = some (-1) := by decide
  refine ⟨by decide, ?_⟩
  rintro ⟨r, hr, hlast⟩
  rw [heval] at hr
  cases hr
  refine hlast.eq_neg_one_iff.mp rfl 0 (by decide) ⟨by decide, ?_⟩
  exact ⟨[], rfl⟩

theorem last_index_string :
    LastIndexRight id true
      (ofCstr enoughMemory (some (utf8 ['é', 'a', 'é', 'a']))) ['é', 'a', 'é', 'a']
      (.string (ofCstr enoughMemory (some (utf8 ['é', 'a'])))) ['é'.val, 'a'.val] (2 ^ 31 - 1) := by
  have h : (ofCstr enoughMemory (some (utf8 ['é', 'a', 'é', 'a']))).Holds ['é', 'a', 'é', 'a'] :=
    ⟨by decide, Or.inr (by decide), by decide, by decide⟩
  have hp : (Pattern.string (ofCstr enoughMemory (some (utf8 ['é', 'a'])))).Is
      ['é'.val, 'a'.val] :=
    ⟨['é', 'a'], by decide, ⟨by decide, Or.inr (by decide), by decide, by decide⟩, rfl⟩
  exact (last_index_iff h (by decide) hp (by decide) (by decide)).mpr (fun _ heq => by cases heq) true

end Members

end ElString

end SuperExe.Elastos
