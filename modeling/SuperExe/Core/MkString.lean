import SuperExe.Core.CString
import Mathlib.Data.List.DropRight
import Mathlib.Data.List.GetD

/-! # Copies of strings

`mk_string_copy_substr`, which the configuration readers cut their lines with, and
`mk_string_trim`, which takes the white space off the parts.
-/

namespace SuperExe.Core

/-- `mk_string_copy_substr`: the bytes of the new string. -/
def mkStringCopySubstr (string : Bytes) (posInit posEnd : Int) : Option Bytes :=
  if posInit > posEnd then none
  else some ((string.drop posInit.toNat).take (posEnd - posInit).toNat)

/-- The loop of `mk_string_trim` that moves `right` back, to the start at most. -/
def moveBack (buf : Bytes) : Nat → Nat
  | 0 => 0
  | right + 1 => if isSpace (buf.getD (right + 1) 0) then moveBack buf right else right + 1

/-- `mk_string_trim` of a string without its NUL. -/
def mkStringTrim (str : Bytes) : Bytes :=
  if str = [] then str
  else
    let left := (str.takeWhile isSpace).length
    let right := str.length - 1
    if right < left then []
    else (str.drop left).take (moveBack str right - left + 1)

section Trim

variable {str : Bytes}

/-- From a position on that is no white space, `right` moves back over the white space. -/
theorem take_moveBack {left right : Nat} (hleft : left ≤ right) (hright : right < str.length)
    (hstop : isSpace (str.getD left 0) = false) :
    (str.drop left).take (moveBack str right - left + 1) =
      ((str.take (right + 1)).drop left).rdropWhile isSpace := by
  induction right with
  | zero =>
    obtain rfl : left = 0 := Nat.le_zero.mp hleft
    cases str with
    | nil => cases hright
    | cons c str =>
      have hc : ¬ isSpace c = true := by simpa using hstop
      simp [moveBack, List.rdropWhile_singleton, hc]
  | succ right ih =>
    have htake : str.take (right + 1 + 1) = str.take (right + 1) ++ [str[right + 1]] :=
      (List.take_append_getElem hright).symm
    have hdrop : (str.take (right + 1 + 1)).drop left =
        (str.take (right + 1)).drop left ++ [str[right + 1]] := by
      rw [htake, List.drop_append_of_le_length]
      rw [List.length_take]
      omega
    rw [moveBack, List.getD_eq_getElem _ _ hright]
    by_cases hspace : isSpace str[right + 1] = true
    · have hne : left ≠ right + 1 := by
        rintro rfl
        rw [List.getD_eq_getElem _ _ hright, hspace] at hstop
        cases hstop
      rw [if_pos hspace, hdrop, List.rdropWhile_concat_pos _ _ _ hspace]
      exact ih (by omega) (by omega)
    · rw [if_neg hspace, hdrop, List.rdropWhile_concat_neg _ _ _ hspace, ← hdrop, List.drop_take]
      congr 1
      omega

/-- The white space at both ends is taken off. -/
theorem mkStringTrim_eq (str : Bytes) :
    mkStringTrim str = (str.dropWhile isSpace).rdropWhile isSpace := by
  rw [mkStringTrim]
  split
  · next h =>
    rw [h]
    rfl
  next hne =>
  have hsplit : str.takeWhile isSpace ++ str.dropWhile isSpace = str :=
    List.takeWhile_append_dropWhile
  have hlength := congrArg List.length hsplit
  rw [List.length_append] at hlength
  have hpos := List.length_pos_iff.mpr hne
  have hdrop : str.drop (str.takeWhile isSpace).length = str.dropWhile isSpace := by
    have h : (str.takeWhile isSpace ++ str.dropWhile isSpace).drop
        (str.takeWhile isSpace).length = str.dropWhile isSpace := List.drop_left
    rwa [hsplit] at h
  dsimp only
  cases hrest : str.dropWhile isSpace with
  | nil =>
    rw [hrest, List.length_nil] at hlength
    rw [if_pos (by omega)]
    rfl
  | cons c rest =>
    rw [hrest, List.length_cons] at hlength
    have hc : isSpace c = false := by
      have hhead := List.head?_dropWhile_not isSpace str
      rw [hrest] at hhead
      simpa using hhead
    have hstop : isSpace (str.getD (str.takeWhile isSpace).length 0) = false := by
      rw [List.getD_eq_getElem?_getD, ← List.head?_drop, hdrop, hrest]
      exact hc
    rw [if_neg (by omega), take_moveBack (by omega) (by omega) hstop, Nat.sub_add_cancel hpos,
      List.take_length, hdrop, hrest]

/-- There is no white space at the ends. -/
def Bare (v : Bytes) : Prop :=
  ∀ c, v.head? = some c ∨ v.getLast? = some c → isSpace c = false

theorem bare_mkStringTrim (str : Bytes) : Bare (mkStringTrim str) := by
  rw [mkStringTrim_eq]
  intro c hc
  rcases hc with hc | hc
  · -- the first byte stays the first when the end is cut off
    have hfront := List.rdropWhile_prefix isSpace (l := str.dropWhile isSpace)
    have hhead := List.head?_dropWhile_not isSpace str
    cases hrest : str.dropWhile isSpace with
    | nil =>
      rw [hrest] at hc
      cases hc
    | cons d rest =>
      rw [hrest] at hc hfront hhead
      rcases hfront with ⟨t, ht⟩
      cases hcut : (d :: rest).rdropWhile isSpace with
      | nil =>
        rw [hcut] at hc
        cases hc
      | cons e cut =>
        rw [hcut] at hc ht
        cases hc
        rw [List.cons_append, List.cons.injEq] at ht
        rw [ht.1]
        simpa using hhead
  · rcases List.getLast?_eq_some_iff.mp hc with ⟨front, hfront⟩
    have hne : (str.dropWhile isSpace).rdropWhile isSpace ≠ [] := by
      rw [hfront]
      exact List.append_ne_nil_of_right_ne_nil _ (List.cons_ne_nil _ _)
    have hlast := List.rdropWhile_last_not isSpace _ hne
    have heq : ((str.dropWhile isSpace).rdropWhile isSpace).getLast hne = c := by
      rw [List.getLast?_eq_some_getLast hne] at hc
      exact Option.some_inj.mp hc
    rw [heq] at hlast
    exact Bool.eq_false_iff.mpr hlast

/-- A text between white space comes out. -/
theorem mkStringTrim_pad {b v d : Bytes} (hb : ∀ c ∈ b, isSpace c = true)
    (hd : ∀ c ∈ d, isSpace c = true) (hv : Bare v) : mkStringTrim (b ++ v ++ d) = v := by
  rw [mkStringTrim_eq, List.append_assoc, List.dropWhile_append_of_pos hb, List.rdropWhile]
  cases v with
  | nil =>
    have hall : d.dropWhile isSpace = [] := List.dropWhile_eq_nil_iff.mpr hd
    rw [List.nil_append, hall]
    rfl
  | cons c v =>
    have hc : ¬ isSpace c = true := by
      rw [hv c (Or.inl rfl)]
      exact Bool.false_ne_true
    have hrev : ∀ e ∈ d.reverse, isSpace e = true := fun e he => hd e (List.mem_reverse.mp he)
    rw [List.cons_append, List.dropWhile_cons_of_neg hc, ← List.cons_append, List.reverse_append,
      List.dropWhile_append_of_pos hrev]
    cases hv' : (c :: v).reverse with
    | nil => cases List.reverse_eq_nil_iff.mp hv'
    | cons e w =>
      have hlast : (c :: v).getLast? = some e := by
        rw [← List.head?_reverse, hv']
        rfl
      have he : ¬ isSpace e = true := by
        rw [hv e (Or.inr hlast)]
        exact Bool.false_ne_true
      rw [List.dropWhile_cons_of_neg he, ← hv', List.reverse_reverse]

/-- What is taken off. -/
theorem exists_mkStringTrim (u : Bytes) : ∃ b d, (∀ c ∈ b, isSpace c = true) ∧
    (∀ c ∈ d, isSpace c = true) ∧ b ++ mkStringTrim u ++ d = u := by
  refine ⟨u.takeWhile isSpace, (u.dropWhile isSpace).rtakeWhile isSpace,
    fun c hc => List.mem_takeWhile_imp hc, fun c hc => List.mem_rtakeWhile_imp hc, ?_⟩
  rw [mkStringTrim_eq, List.append_assoc, List.rdropWhile_append_rtakeWhile,
    List.takeWhile_append_dropWhile]

theorem length_mkStringTrim_le (u : Bytes) : (mkStringTrim u).length ≤ u.length := by
  rcases exists_mkStringTrim u with ⟨b, d, -, -, h⟩
  have hlen := congrArg List.length h
  rw [List.length_append, List.length_append] at hlen
  omega

/-- White space around a text makes no difference. -/
theorem mkStringTrim_spaces {b d : Bytes} (hb : ∀ c ∈ b, isSpace c = true)
    (hd : ∀ c ∈ d, isSpace c = true) (u : Bytes) : mkStringTrim (b ++ u ++ d) = mkStringTrim u := by
  rcases exists_mkStringTrim u with ⟨b', d', hb', hd', h⟩
  have hsplit : b ++ u ++ d = (b ++ b') ++ mkStringTrim u ++ (d' ++ d) := by
    calc b ++ u ++ d = b ++ (b' ++ mkStringTrim u ++ d') ++ d := by rw [h]
      _ = (b ++ b') ++ mkStringTrim u ++ (d' ++ d) := by simp only [List.append_assoc]
  rw [hsplit]
  refine mkStringTrim_pad (fun c hc => ?_) (fun c hc => ?_) (bare_mkStringTrim u)
  · exact (List.mem_append.mp hc).elim (hb c) (hb' c)
  · exact (List.mem_append.mp hc).elim (hd' c) (hd c)

end Trim

end SuperExe.Core
