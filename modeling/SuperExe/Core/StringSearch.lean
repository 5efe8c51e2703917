import Mathlib.Data.List.TakeWhile
import SuperExe.Core.CString
import SuperExe.Lib.Search

/-! # Searching a string

`_mk_string_search` takes a length that bounds where a match starts; the
comparison itself only ends with the NUL of the pattern. Inside the slice the
answer is right unless a part of the pattern is left over at its end, or a NUL
lies before the match.
-/

namespace SuperExe.Core

open SuperExe.Lib

/-! ## The code -/

/-- `toupper(3)` in the C locale. -/
def toupper (c : UInt8) : UInt8 := if 97 ≤ c ∧ c ≤ 122 then c - 32 else c

/-- `MK_STR_SENSITIVE` and `MK_STR_INSENSITIVE` -/
inductive Sensitivity where
  | strSensitive
  | strInsensitive

namespace Sensitivity

/-- What the loops compare of a byte. -/
def key : Sensitivity → UInt8 → UInt8
  | .strSensitive, c => c
  | .strInsensitive, c => toupper c

/-- What `strstr` and `strcasestr` compare. -/
def fastKey : Sensitivity → UInt8 → UInt8
  | .strSensitive, c => c
  | .strInsensitive, c => tolower c

end Sensitivity

/-- Where `search` first stands in a text, by the keys of the bytes. -/
def strstrBy (key : UInt8 → UInt8) (search : Bytes) : Bytes → Option Nat
  | [] => if search = [] then some 0 else none
  | c :: cs =>
    if search.map key <+: (c :: cs).map key then some 0
    else (strstrBy key search cs).map (· + 1)

/-- The `while` loop from `q` on: whether it comes to the end of `search`;
`none` if it reads behind the buffer. -/
def matchHere (key : UInt8 → UInt8) : Bytes → Bytes → Option Bool
  | _, [] => some true
  | [], _ :: _ => none
  | q :: qs, s :: ss => if key q = key s then matchHere key qs ss else some false

/-- The `do` loop with `len - i` turns left; `p` is what lies before the
pointer. -/
def searchLoop (key : UInt8 → UInt8) (search : Bytes) : Nat → Bytes → Nat → Option Int
  | 0, _, _ => some (-1)
  | turns + 1, string, p =>
    match matchHere key string search with
    | none => none
    | some true => some (p : Int)
    | some false =>
      if turns = 0 ∨ string.headD 0 = 0 then some (-1)
      else searchLoop key search turns string.tail (p + 1)

/-- `_mk_string_search`: `string` is the memory from the pointer to the end of
the buffer, `search` a C string without its NUL; `none` if a read leaves the
buffer. -/
def mkStringSearchBase (string search : Bytes) (sensitive : Sensitivity) (len : Int) : Option Int :=
  if len ≤ 0 then
    if 0 ∈ string then
      match strstrBy sensitive.fastKey search (string.takeWhile (· != 0)) with
      | some p => some (p : Int)
      | none => some (-1)
    else none
  else searchLoop sensitive.key search len.toNat string 0

/-- `mk_string_search` -/
def mkStringSearch (haystack needle : Bytes) (sensitive : Sensitivity) : Option Int :=
  mkStringSearchBase haystack needle sensitive (-1)

/-- `mk_string_search_n` -/
def mkStringSearchN (haystack needle : Bytes) (sensitive : Sensitivity) (len : Int) : Option Int :=
  mkStringSearchBase haystack needle sensitive len

/-! ## Keys -/

/-- `search` stands in `text` at `i`, by the keys. -/
def StandsAt (sensitive : Sensitivity) (search text : Bytes) (i : Nat) : Prop :=
  OccursAt (search.map sensitive.key) (text.map sensitive.key) i

instance (sensitive : Sensitivity) (search text : Bytes) (i : Nat) :
    Decidable (StandsAt sensitive search text i) :=
  inferInstanceAs (Decidable (OccursAt (search.map sensitive.key) (text.map sensitive.key) i))

section Keys

theorem toupper_toNat (c : UInt8) :
    (toupper c).toNat = if 97 ≤ c.toNat ∧ c.toNat ≤ 122 then c.toNat - 32 else c.toNat := by
  have hle : 97 ≤ c ∧ c ≤ 122 ↔ 97 ≤ c.toNat ∧ c.toNat ≤ 122 := by
    rw [UInt8.le_iff_toNat_le, UInt8.le_iff_toNat_le]
    rfl
  unfold toupper
  by_cases h : 97 ≤ c ∧ c ≤ 122
  · rw [if_pos h, if_pos (hle.mp h), UInt8.toNat_sub_of_le c 32 (by
      rw [UInt8.le_iff_toNat_le]
      have := (hle.mp h).1
      show 32 ≤ c.toNat
      omega)]
    rfl
  · rw [if_neg h, if_neg (mt hle.mpr h)]

theorem tolower_toNat (c : UInt8) :
    (tolower c).toNat = if 65 ≤ c.toNat ∧ c.toNat ≤ 90 then c.toNat + 32 else c.toNat := by
  have hle : 65 ≤ c ∧ c ≤ 90 ↔ 65 ≤ c.toNat ∧ c.toNat ≤ 90 := by
    rw [UInt8.le_iff_toNat_le, UInt8.le_iff_toNat_le]
    rfl
  unfold tolower
  by_cases h : 65 ≤ c ∧ c ≤ 90
  · have hbound := (hle.mp h).2
    rw [if_pos h, if_pos (hle.mp h), UInt8.toNat_add]
    show (c.toNat + 32) % 256 = _
    omega
  · rw [if_neg h, if_neg (mt hle.mpr h)]

/-- Letters that are the same in upper case are the same in lower case. -/
theorem tolower_eq_iff (c d : UInt8) : tolower c = tolower d ↔ toupper c = toupper d := by
  have hc := tolower_toNat c
  have hd := tolower_toNat d
  have hc' := toupper_toNat c
  have hd' := toupper_toNat d
  constructor
  · intro h
    have hval := congrArg UInt8.toNat h
    apply UInt8.toNat_inj.mp
    split_ifs at hc hd hc' hd' <;> omega
  · intro h
    have hval := congrArg UInt8.toNat h
    apply UInt8.toNat_inj.mp
    split_ifs at hc hd hc' hd' <;> omega

theorem Sensitivity.fastKey_eq_iff (sensitive : Sensitivity) (c d : UInt8) :
    sensitive.fastKey c = sensitive.fastKey d ↔ sensitive.key c = sensitive.key d := by
  cases sensitive with
  | strSensitive => exact Iff.rfl
  | strInsensitive => exact tolower_eq_iff c d

/-- Only a NUL looks like a NUL. -/
theorem Sensitivity.key_eq_zero_iff (sensitive : Sensitivity) (c : UInt8) :
    sensitive.key c = sensitive.key 0 ↔ c = 0 := by
  cases sensitive with
  | strSensitive => exact Iff.rfl
  | strInsensitive =>
    have hc := toupper_toNat c
    constructor
    · intro h
      have hval : (toupper c).toNat = 0 := congrArg UInt8.toNat h
      apply UInt8.toNat_inj.mp
      show c.toNat = 0
      split_ifs at hc <;> omega
    · rintro rfl
      rfl

/-- Two functions that tell the same bytes apart find the same prefixes. -/
theorem map_prefix_congr {f g : UInt8 → UInt8} (h : ∀ c d, f c = f d ↔ g c = g d) (s t : Bytes) :
    s.map f <+: t.map f ↔ s.map g <+: t.map g := by
  induction s generalizing t with
  | nil => simp
  | cons c s ih =>
    cases t with
    | nil => simp
    | cons d t =>
      rw [List.map_cons, List.map_cons, List.map_cons, List.map_cons, List.cons_prefix_cons,
        List.cons_prefix_cons, h, ih]

end Keys

/-! ## The loops -/

section Loops

variable {key : UInt8 → UInt8} {search slice rest : Bytes} {i j : Nat}

/-- How the comparison ends. -/
theorem matchHere_eq (key : UInt8 → UInt8) (string search : Bytes) :
    matchHere key string search =
      if search.map key <+: string.map key then some true
      else if string.map key <+: search.map key then none
      else some false := by
  induction string generalizing search with
  | nil =>
    cases search with
    | nil => simp [matchHere]
    | cons s ss => simp [matchHere]
  | cons q qs ih =>
    cases search with
    | nil => simp [matchHere]
    | cons s ss =>
      simp only [matchHere, List.map_cons, List.cons_prefix_cons, ih]
      by_cases h : key q = key s
      · simp only [h, true_and, if_true]
      · rw [if_neg h, if_neg fun hp => h hp.1.symm, if_neg fun hp => h hp.1]

/-- What is left of the slice at `i` is a part of `search`: there the comparison
leaves the slice. -/
def Overruns (key : UInt8 → UInt8) (search slice : Bytes) (i : Nat) : Prop :=
  i < slice.length ∧ (slice.drop i).map key <+: search.map key

/-- Away from such a position the comparison only sees the slice. -/
theorem matchHere_slice (hi : i < slice.length) (hnot : ¬ Overruns key search slice i) (rest : Bytes) :
    matchHere key (slice.drop i ++ rest) search =
      some (decide (search.map key <+: (slice.drop i).map key)) := by
  have hnot' : ¬ (slice.drop i).map key <+: search.map key := fun h => hnot ⟨hi, h⟩
  rw [matchHere_eq, List.map_append]
  by_cases h : search.map key <+: (slice.drop i).map key
  · rw [if_pos (h.trans (List.prefix_append _ _)), decide_eq_true h]
  · have h1 : ¬ search.map key <+: (slice.drop i).map key ++ rest.map key := by
      intro hp
      rcases List.prefix_or_prefix_of_prefix hp (List.prefix_append _ (rest.map key)) with hs | hs
      · exact h hs
      · exact hnot' hs
    have h2 : ¬ (slice.drop i).map key ++ rest.map key <+: search.map key := fun hp =>
      hnot' ((List.prefix_append _ _).trans hp)
    rw [if_neg h1, if_neg h2, decide_eq_false h]

/-- It lies behind every occurrence. -/
theorem Overruns.le (h : Overruns key search slice i)
    (hj : OccursAt (search.map key) (slice.map key) j) : j ≤ i := by
  have h1 := h.2.length_le
  have h2 := hj.add_le
  simp only [List.length_map, List.length_drop] at h1 h2
  omega

theorem occursAt_map : OccursAt (search.map key) (slice.map key) i ↔
    i ≤ slice.length ∧ search.map key <+: (slice.drop i).map key := by
  rw [OccursAt, List.length_map, List.map_drop]

/-- No NUL lies before the first occurrence, and where a part of `search` is left
over at the end of the slice, an occurrence has come before. -/
structure Settled (key : UInt8 → UInt8) (search slice : Bytes) : Prop where
  nul : ∀ i, OccursAt (search.map key) (slice.map key) i →
    (∀ j < i, ¬ OccursAt (search.map key) (slice.map key) j) → 0 ∉ slice.take i
  past : ∀ i, Overruns key search slice i → 0 ∉ slice.take i →
    ∃ j, OccursAt (search.map key) (slice.map key) j

theorem not_mem_take_succ (hi : i < slice.length) :
    0 ∉ slice.take (i + 1) ↔ 0 ∉ slice.take i ∧ slice[i] ≠ 0 := by
  rw [List.take_succ_eq_append_getElem hi, List.mem_append, not_or, List.mem_singleton]
  exact and_congr Iff.rfl ne_comm

/-- The loop from `i` on. -/
theorem searchLoop_first (h : Settled key search slice) {turns : Nat}
    (hturns : i + turns = slice.length) (hi : i < slice.length)
    (hpast : ∀ j < i, ¬ OccursAt (search.map key) (slice.map key) j) (hnul : 0 ∉ slice.take i)
    (rest : Bytes) :
    ∃ r, searchLoop key search turns (slice.drop i ++ rest) i = some r ∧
      First (OccursAt (search.map key) (slice.map key)) i r := by
  induction turns generalizing i with
  | zero => omega
  | succ turns ih =>
    by_cases hocc : OccursAt (search.map key) (slice.map key) i
    · refine ⟨i, ?_, First.here hocc⟩
      have hpre := (occursAt_map.mp hocc).2.trans (List.prefix_append _ (rest.map key))
      rw [searchLoop, matchHere_eq, List.map_append, if_pos hpre]
    · have hover : ¬ Overruns key search slice i := by
        intro hover
        obtain ⟨j, hj⟩ := h.past i hover hnul
        rcases Nat.lt_or_eq_of_le (hover.le hj) with hlt | rfl
        · exact hpast j hlt hj
        · exact hocc hj
      have hno : ¬ search.map key <+: (slice.drop i).map key := fun hp =>
        hocc (occursAt_map.mpr ⟨by omega, hp⟩)
      have hdrop : slice.drop i = slice[i] :: slice.drop (i + 1) := List.drop_eq_getElem_cons hi
      rw [searchLoop, matchHere_slice hi hover, decide_eq_false hno]
      simp only [hdrop, List.cons_append, List.headD_cons, List.tail_cons]
      by_cases hlast : turns = 0
      · refine ⟨-1, by rw [if_pos (Or.inl hlast)], First.none fun k hk hat => hocc ?_⟩
        -- behind the last byte only the empty pattern stands
        rcases Nat.lt_or_eq_of_le hk with hlt | rfl
        · have hlen := hat.add_le
          simp only [List.length_map] at hlen
          obtain rfl : search = [] := List.length_eq_zero_iff.mp (by omega)
          exact occursAt_map.mpr ⟨by omega, List.nil_prefix⟩
        · exact hat
      · have hpast' : ∀ j < i + 1, ¬ OccursAt (search.map key) (slice.map key) j := by
          intro j hj
          rcases Nat.lt_or_eq_of_le (Nat.le_of_lt_succ hj) with hlt | rfl
          · exact hpast j hlt
          · exact hocc
        by_cases hzero : slice[i] = 0
        · refine ⟨-1, by rw [if_pos (Or.inr hzero)], First.none fun k _ hat => ?_⟩
          obtain ⟨k', -, hat', hleast⟩ := exists_least hat
          have hlt : i < k' := by
            by_contra hle
            exact hpast' k' (by omega) hat'
          refine h.nul k' hat' hleast ?_
          rw [← hzero]
          exact List.mem_take_iff_getElem.mpr ⟨i, by omega, rfl⟩
        · rw [if_neg (not_or.mpr ⟨hlast, hzero⟩)]
          obtain ⟨r, hr, hfirst⟩ := ih (i := i + 1) (by omega) (by omega) hpast'
            ((not_mem_take_succ hi).mpr ⟨hnul, hzero⟩)
          exact ⟨r, hr, First.pass hocc hfirst⟩

/-- A turn that does not find `search`. -/
theorem searchLoop_miss {turns : Nat} (hi : i < slice.length)
    (h : matchHere key (slice.drop i ++ rest) search = some false) :
    searchLoop key search (turns + 1) (slice.drop i ++ rest) i =
      if turns = 0 ∨ slice[i] = 0 then some (-1)
      else searchLoop key search turns (slice.drop (i + 1) ++ rest) (i + 1) := by
  rw [searchLoop, h]
  simp only [List.drop_eq_getElem_cons hi, List.cons_append, List.headD_cons, List.tail_cons]

/-- What the loop finds stands behind no NUL. -/
theorem searchLoop_nul {turns k : Nat} (hturns : i + turns = slice.length)
    (hnul : 0 ∉ slice.take i) (h : searchLoop key search turns (slice.drop i ++ rest) i = some (k : Int)) :
    0 ∉ slice.take k := by
  induction turns generalizing i with
  | zero =>
    rw [searchLoop, Option.some_inj] at h
    omega
  | succ turns ih =>
    cases hm : matchHere key (slice.drop i ++ rest) search with
    | none =>
      rw [searchLoop, hm] at h
      cases h
    | some found =>
      cases found with
      | true =>
        rw [searchLoop, hm, Option.some_inj] at h
        obtain rfl : i = k := by omega
        exact hnul
      | false =>
        have hi : i < slice.length := by omega
        rw [searchLoop_miss hi hm] at h
        by_cases hstop : turns = 0 ∨ slice[i] = 0
        · rw [if_pos hstop, Option.some_inj] at h
          omega
        · rw [if_neg hstop] at h
          exact ih (by omega) ((not_mem_take_succ hi).mpr ⟨hnul, (not_or.mp hstop).2⟩) h

/-- The loop does not miss a place where `search` stands, be it over the end of
the slice. -/
theorem searchLoop_ne_neg_one {turns : Nat} (hturns : i + turns = slice.length) (hij : i ≤ j)
    (hj : j < slice.length) (hnul : 0 ∉ slice.take j)
    (hat : search.map key <+: (slice.drop j ++ rest).map key) :
    searchLoop key search turns (slice.drop i ++ rest) i ≠ some (-1) := by
  induction turns generalizing i with
  | zero => omega
  | succ turns ih =>
    cases hm : matchHere key (slice.drop i ++ rest) search with
    | none =>
      rw [searchLoop, hm]
      exact (Option.some_ne_none _).symm
    | some found =>
      cases found with
      | true =>
        rw [searchLoop, hm, ne_eq, Option.some_inj]
        exact fun h => by omega
      | false =>
        have hlt : i < j := by
          rcases Nat.lt_or_eq_of_le hij with hlt | rfl
          · exact hlt
          · rw [matchHere_eq, if_pos hat] at hm
            cases hm
        have hi : i < slice.length := by omega
        have hstop : ¬ (turns = 0 ∨ slice[i] = 0) := by
          rintro (hlast | hzero)
          · omega
          · apply hnul
            rw [← hzero]
            exact List.mem_take_iff_getElem.mpr ⟨i, by omega, rfl⟩
        rw [searchLoop_miss hi hm, if_neg hstop]
        exact ih (by omega) hlt

/-- Whatever lies behind the slice, the loop is right exactly if nothing is left
over. -/
theorem searchLoop_iff (hne : slice ≠ []) :
    (∀ rest, ∃ r, searchLoop key search slice.length (slice ++ rest) 0 = some r ∧
      First (OccursAt (search.map key) (slice.map key)) 0 r) ↔ Settled key search slice := by
  have hpos := List.length_pos_iff.mpr hne
  constructor
  · intro h
    refine ⟨fun i hat hleast => ?_, fun i hover hnul => ?_⟩
    · obtain ⟨r, hr, hfirst⟩ := h []
      have hri := hfirst.unique (Or.inr ⟨i, rfl, Nat.zero_le i, hat, fun j _ hj => hleast j hj⟩)
      rw [hri] at hr
      exact searchLoop_nul (i := 0) (by omega) List.not_mem_nil hr
    · -- the rest of the pattern can follow the slice
      by_contra hnone
      obtain ⟨r, hr, hfirst⟩ := h (search.drop (slice.length - i))
      have hneg := hfirst.eq_neg_one_iff.mpr fun j _ hj => hnone ⟨j, hj⟩
      rw [hneg] at hr
      refine searchLoop_ne_neg_one (i := 0) (j := i) (by omega) (Nat.zero_le i) hover.1 hnul ?_ hr
      obtain ⟨s, hs⟩ := hover.2
      have hlen : ((slice.drop i).map key).length = slice.length - i := by
        rw [List.length_map, List.length_drop]
      have htail : (search.drop (slice.length - i)).map key = s := by
        rw [List.map_drop, ← hlen, ← hs, List.drop_left]
      rw [List.map_append, htail, hs]
  · intro h rest
    exact searchLoop_first (i := 0) h (by omega) hpos (fun j hj => absurd hj (by omega))
      List.not_mem_nil rest

end Loops

/-! ## The fast path -/

section Fast

variable {key : UInt8 → UInt8} {search text slice : Bytes} {i : Nat}

theorem occursAt_map_cons {c : UInt8} :
    OccursAt (search.map key) ((c :: text).map key) (i + 1) ↔
      OccursAt (search.map key) (text.map key) i := by
  rw [OccursAt, OccursAt, List.map_cons, List.drop_succ_cons, List.length_cons,
    Nat.add_le_add_iff_right]

/-- `strstr` finds the first place. -/
theorem strstrBy_first (key : UInt8 → UInt8) (search text : Bytes) :
    First (OccursAt (search.map key) (text.map key)) 0
      (match strstrBy key search text with
      | some p => (p : Int)
      | none => -1) := by
  induction text with
  | nil =>
    rw [strstrBy]
    by_cases hs : search = []
    · rw [if_pos hs, hs]
      exact First.here ⟨Nat.le_refl 0, List.nil_prefix⟩
    · rw [if_neg hs]
      refine First.none fun i _ hat => hs ?_
      have hlen := hat.add_le
      rw [List.length_map, List.map_nil, List.length_nil] at hlen
      exact List.length_eq_zero_iff.mp (by omega)
  | cons c text ih =>
    rw [strstrBy]
    -- here, or further on
    by_cases hs : search.map key <+: (c :: text).map key
    · rw [if_pos hs]
      exact First.here ⟨Nat.zero_le _, hs⟩
    · rw [if_neg hs]
      refine First.pass (fun hat => hs hat.2) ?_
      rcases ih with ⟨hr, hnone⟩ | ⟨k, hr, -, hat, hleast⟩
      · cases hf : strstrBy key search text with
        | none =>
          refine First.none fun i hi hat => ?_
          obtain ⟨n, rfl⟩ := Nat.exists_eq_add_of_le' hi
          exact hnone n (Nat.zero_le n) (occursAt_map_cons.mp hat)
        | some p =>
          rw [hf] at hr
          dsimp only at hr
          omega
      · cases hf : strstrBy key search text with
        | none =>
          rw [hf] at hr
          dsimp only at hr
          omega
        | some p =>
          rw [hf] at hr
          dsimp only at hr
          obtain rfl : p = k := by omega
          refine Or.inr ⟨p + 1, rfl, by omega, occursAt_map_cons.mpr hat, fun j hj hlt => ?_⟩
          obtain ⟨n, rfl⟩ := Nat.exists_eq_add_of_le' hj
          exact fun hat' => hleast n (Nat.zero_le n) (by omega) (occursAt_map_cons.mp hat')

/-- The keys of the fast path find the same places. -/
theorem strstrBy_fastKey (mode : Sensitivity) (search text : Bytes) :
    strstrBy mode.fastKey search text = strstrBy mode.key search text := by
  induction text with
  | nil => rfl
  | cons c text ih => simp only [strstrBy, map_prefix_congr mode.fastKey_eq_iff, ih]

/-- Behind no NUL an occurrence is in the C string that starts the slice. -/
theorem occursAt_takeWhile {mode : Sensitivity} (hsearch : 0 ∉ search)
    (h : OccursAt (search.map mode.key) (slice.map mode.key) i) (hnul : 0 ∉ slice.take i) :
    OccursAt (search.map mode.key) ((slice.takeWhile (· != 0)).map mode.key) i := by
  have hend := h.take
  rw [List.length_map, ← List.map_take] at hend
  have hclean : ∀ c ∈ slice.take (i + search.length), (c != 0) = true := by
    intro c hc
    rw [bne_iff_ne]
    rintro rfl
    rw [List.take_add, List.mem_append] at hc
    rcases hc with hc | hc
    · exact hnul hc
    · have hkey := List.mem_map_of_mem (f := mode.key) hc
      obtain ⟨s, hs⟩ := (occursAt_map.mp h).2
      have hlen : (search.map mode.key).length = search.length := List.length_map _
      rw [List.map_take, ← hs, ← hlen, List.take_left] at hkey
      obtain ⟨d, hd, heq⟩ := List.mem_map.mp hkey
      rw [mode.key_eq_zero_iff] at heq
      rw [heq] at hd
      exact hsearch hd
  have hsplit : slice.takeWhile (· != 0) = slice.take (i + search.length) ++
      (slice.drop (i + search.length)).takeWhile (· != 0) := by
    conv_lhs => rw [← List.take_append_drop (i + search.length) slice]
    exact List.takeWhile_append_of_pos hclean
  rw [hsplit, List.map_append]
  exact hend.append _

/-- The fast path searches what lies before the first NUL. -/
theorem mkStringSearch_contents (mode : Sensitivity) (search slice : Bytes) :
    ∃ r, mkStringSearch (slice ++ [0]) search mode = some r ∧
      First (StandsAt mode search (slice.takeWhile (· != 0))) 0 r := by
  have hcontents : (slice ++ [0]).takeWhile (· != 0) = slice.takeWhile (· != 0) := by
    rw [List.takeWhile_append]
    split
    · next hall =>
      rw [List.takeWhile_cons, if_neg (by decide), List.append_nil]
      exact ((List.takeWhile_prefix _).eq_of_length hall).symm
    · rfl
  refine ⟨_, ?_, strstrBy_first mode.key search (slice.takeWhile (· != 0))⟩
  rw [mkStringSearch, mkStringSearchBase, if_pos (by decide), if_pos (by simp), hcontents,
    strstrBy_fastKey]
  cases strstrBy mode.key search (slice.takeWhile (· != 0)) <;> rfl

/-- Searching the slice copied out gives the same. -/
theorem mkStringSearch_copy {mode : Sensitivity} (h : Settled mode.key search slice)
    (hsearch : 0 ∉ search) :
    ∃ r, mkStringSearch (slice ++ [0]) search mode = some r ∧
      First (OccursAt (search.map mode.key) (slice.map mode.key)) 0 r := by
  obtain ⟨r, hres, hfast⟩ := mkStringSearch_contents mode search slice
  refine ⟨r, hres, ?_⟩
  have hsub : ∀ i, OccursAt (search.map mode.key) ((slice.takeWhile (· != 0)).map mode.key) i →
      OccursAt (search.map mode.key) (slice.map mode.key) i := by
    intro i hat
    have := hat.append ((slice.dropWhile (· != 0)).map mode.key)
    rwa [← List.map_append, List.takeWhile_append_dropWhile] at this
  have hleast : ∀ {i}, OccursAt (search.map mode.key) (slice.map mode.key) i →
      ∃ k ≤ i, OccursAt (search.map mode.key) ((slice.takeWhile (· != 0)).map mode.key) k := by
    intro i hat
    obtain ⟨k, hk, hat', hfirst⟩ := exists_least hat
    exact ⟨k, hk, occursAt_takeWhile hsearch hat' (h.nul k hat' hfirst)⟩
  rcases hfast with ⟨rfl, hnone⟩ | ⟨k, rfl, -, hat, hmin⟩
  · refine First.none fun i _ hat => ?_
    obtain ⟨k, -, hat'⟩ := hleast hat
    exact hnone k (Nat.zero_le k) hat'
  · refine Or.inr ⟨k, rfl, Nat.zero_le k, hsub k hat, fun j _ hj hat' => ?_⟩
    obtain ⟨m, hm, hat''⟩ := hleast hat'
    exact hmin m (Nat.zero_le m) (by omega) hat''

end Fast

/-! ## C strings -/

section Strings

variable {mode : Sensitivity} {search text : Bytes}

theorem key_zero_not_mem (h : 0 ∉ search) : mode.key 0 ∉ search.map mode.key := by
  intro hmem
  obtain ⟨c, hc, heq⟩ := List.mem_map.mp hmem
  rw [mode.key_eq_zero_iff] at heq
  rw [heq] at hc
  exact h hc

/-- At the NUL of the text the comparison ends. -/
theorem matchHere_terminated (hsearch : 0 ∉ search) (text : Bytes) :
    matchHere mode.key (text ++ [0]) search =
      some (decide (search.map mode.key <+: text.map mode.key)) := by
  have hnul : mode.key 0 ∉ search.map mode.key := key_zero_not_mem hsearch
  have hout : ¬ (text ++ [0]).map mode.key <+: search.map mode.key := by
    intro h
    apply hnul
    apply h.subset
    rw [List.map_append]
    exact List.mem_append_right _ List.mem_cons_self
  have hin : search.map mode.key <+: (text ++ [0]).map mode.key ↔
      search.map mode.key <+: text.map mode.key := by
    rw [List.map_append, List.map_singleton, List.prefix_concat_iff]
    refine or_iff_right fun h => hnul ?_
    rw [h]
    exact List.mem_append_right _ List.mem_cons_self
  rw [matchHere_eq]
  by_cases h : search.map mode.key <+: text.map mode.key
  · rw [if_pos (hin.mpr h), decide_eq_true h]
  · rw [if_neg (mt hin.mp h), if_neg hout, decide_eq_false h]

/-- `strstr` and `strcasestr` of two C strings. -/
theorem mkStringSearch_first (htext : 0 ∉ text) (search : Bytes) (mode : Sensitivity) :
    ∃ r, mkStringSearch (text ++ [0]) search mode = some r ∧
      First (StandsAt mode search text) 0 r := by
  have hall : text.takeWhile (· != 0) = text := by
    refine List.takeWhile_eq_self_iff.mpr fun c hc => ?_
    rw [bne_iff_ne]
    rintro rfl
    exact htext hc
  have h := mkStringSearch_contents mode search text
  rwa [hall] at h

/-- In a C string a bounded search only finds where a start is below the
bound. -/
theorem searchLoop_terminated (hsearch : 0 ∉ search) (htext : 0 ∉ text) (turns p : Nat) :
    ∃ r, searchLoop mode.key search turns (text ++ [0]) p = some r ∧
      (0 ≤ r ↔ ∃ q < turns, StandsAt mode search text q) := by
  induction turns generalizing text p with
  | zero => exact ⟨-1, rfl, fun h => absurd h (by decide), fun ⟨q, hq, _⟩ => absurd hq (by omega)⟩
  | succ turns ih =>
    rw [searchLoop, matchHere_terminated hsearch]
    by_cases hhere : search.map mode.key <+: text.map mode.key
    · rw [decide_eq_true hhere]
      exact ⟨p, rfl, fun _ => ⟨0, Nat.succ_pos _, Nat.zero_le _, hhere⟩, fun _ => Int.natCast_nonneg p⟩
    · rw [decide_eq_false hhere]
      dsimp only
      have hstart : ¬ StandsAt mode search text 0 := fun h => hhere h.2
      rcases text with - | ⟨c, text⟩
      · -- only the NUL is left
        rw [List.nil_append, List.headD_cons, if_pos (Or.inr rfl)]
        refine ⟨-1, rfl, fun h => absurd h (by decide), fun ⟨q, _, hat⟩ => ?_⟩
        obtain rfl : q = 0 := Nat.le_zero.mp hat.1
        exact absurd hat hstart
      · rw [List.mem_cons, not_or] at htext
        rw [List.cons_append, List.headD_cons, List.tail_cons]
        by_cases hlast : turns = 0
        · rw [if_pos (Or.inl hlast)]
          refine ⟨-1, rfl, fun h => absurd h (by decide), fun ⟨q, hq, hat⟩ => ?_⟩
          obtain rfl : q = 0 := by omega
          exact absurd hat hstart
        · rw [if_neg (not_or.mpr ⟨hlast, Ne.symm htext.1⟩)]
          obtain ⟨r, hr, hiff⟩ := ih htext.2 (p + 1)
          refine ⟨r, hr, hiff.trans ⟨?_, ?_⟩⟩
          · rintro ⟨q, hq, hat⟩
            exact ⟨q + 1, by omega, occursAt_map_cons.mpr hat⟩
          · rintro ⟨q, hq, hat⟩
            obtain ⟨q, rfl⟩ : ∃ m, q = m + 1 := by
              rcases q with - | q
              · exact absurd hat hstart
              · exact ⟨q, rfl⟩
            exact ⟨q, by omega, occursAt_map_cons.mp hat⟩

end Strings

end SuperExe.Core
