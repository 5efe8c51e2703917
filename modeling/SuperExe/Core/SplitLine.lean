import SuperExe.Core.MkString
import Mathlib.Data.List.TakeWhile

/-! # Splitting a line

`mk_string_split_line` cuts a line at its spaces. Its positions are `int`s and
`unsigned int`s of 32 bits: it gives the words of every line that is shorter than `2^31`
bytes (`mkStringSplitLine_words`). A read behind the line has no result (`none`).
-/

namespace SuperExe.Core.SplitLine

/-! ## The code -/

/-- `memchr(3)` for the memory from the pointer to the end of the buffer. -/
def memchr (mem : Bytes) (c : UInt8) (n : Nat) : Option (Option Nat) :=
  match (mem.take n).findIdx? (· = c) with
  | some p => some (some p)
  | none => if n ≤ mem.length then some none else none

/-- `mk_string_char_search`, of the rest of a line and its NUL. -/
def mkStringCharSearch (mem : Bytes) (c : UInt8) (len : Int) : Option Int := do
  let len := if len < 0 then toInt32 (mem.length - 1) else len
  -- a length that is still negative is a huge `size_t`
  match ← memchr mem c (len % 2 ^ 64).toNat with
  | some p => some (toInt32 p)
  | none => some (-1)

/-- `struct mk_string_line` -/
structure MkStringLine where
  val : Option Bytes
  len : Int
deriving DecidableEq, Repr

/-- The `while` loop of `mk_string_split_line` with `turns` turns left. -/
def splitLoop (line : Bytes) : Nat → UInt32 → Option (List MkStringLine)
  | 0, _ => none
  | turns + 1, i =>
    let len := UInt32.ofNat line.length
    if i < len then do
      let pos ← mkStringCharSearch ((line ++ [0]).drop i.toNat) 32 (toInt32 (len - i).toNat)
      if 0 ≤ pos ∧ UInt32.ofInt pos + i < len then
        let stop := toInt32 (UInt32.ofInt pos + i).toNat
        if i = UInt32.ofInt stop then splitLoop line turns (i + 1)
        else do
          let rest ← splitLoop line turns (UInt32.ofInt (toInt32 (stop + 1)))
          some (⟨mkStringCopySubstr line (toInt32 i.toNat) stop,
            toInt32 (UInt32.ofInt stop - i).toNat⟩ :: rest)
      else do
        let stop := toInt32 len.toNat
        let rest ← splitLoop line turns (UInt32.ofInt (toInt32 (stop + 1)))
        some (⟨mkStringCopySubstr line (toInt32 i.toNat) stop, toInt32 (len - i).toNat⟩ :: rest)
    else some []

/-- `mk_string_split_line` of a line without its NUL. -/
def mkStringSplitLine (line : Bytes) : Option (List MkStringLine) :=
  splitLoop line (line.length + 2) 0

/-! ## Words -/

/-- The parts between the spaces that are not empty. -/
def words (line : Bytes) : List Bytes := (line.splitOn 32).filter (· ≠ [])

def node (word : Bytes) : MkStringLine := ⟨some word, word.length⟩

section Words

theorem words_nil : words [] = [] := by
  decide

theorem words_space (rest : Bytes) : words (32 :: rest) = words rest := by
  have h := List.splitOn_append_cons_self_of_not_mem (a := (32 : UInt8)) List.not_mem_nil rest
  rw [List.nil_append] at h
  rw [words, h, List.filter_cons_of_neg (by decide), words]

theorem words_word {word : Bytes} (hne : word ≠ []) (hword : 32 ∉ word) (rest : Bytes) :
    words (word ++ 32 :: rest) = word :: words rest := by
  rw [words, List.splitOn_append_cons_self_of_not_mem hword,
    List.filter_cons_of_pos (by simpa using hne), words]

theorem words_last {word : Bytes} (hne : word ≠ []) (hword : 32 ∉ word) : words word = [word] := by
  rw [words, List.splitOn_eq_singleton hword, List.filter_cons_of_pos (by simpa using hne),
    List.filter_nil]

end Words

/-! ## The loop -/

section Loop

variable {line rest : Bytes}

/-- The first `c` of a text that is searched to its end. -/
theorem mkStringCharSearch_text {c : UInt8} (hlength : rest.length < 2 ^ 31) :
    mkStringCharSearch (rest ++ [0]) c rest.length =
      some ((rest.findIdx? (· = c)).elim (-1) fun p => (p : Int)) := by
  have hsize : ((rest.length : Int) % 2 ^ 64).toNat = rest.length := by omega
  have htake : (rest ++ [0]).take rest.length = rest := List.take_left
  have hmem : rest.length ≤ (rest ++ [0]).length := by
    rw [List.length_append]
    omega
  rw [mkStringCharSearch, if_neg (by omega), hsize, memchr, htake]
  cases hfind : rest.findIdx? fun x => decide (x = c) with
  | none =>
    rw [if_pos hmem]
    rfl
  | some p =>
    have hp := (List.findIdx?_eq_some_iff_getElem.mp hfind).1
    show some (toInt32 p) = some (p : Int)
    rw [toInt32_eq (by omega) (by omega)]

/-- The text before the first `c`, and behind it. -/
theorem text_eq_of_findIdx {c : UInt8} {p : Nat} (hfind : rest.findIdx? (· = c) = some p) :
    p < rest.length ∧ c ∉ rest.take p ∧ rest = rest.take p ++ c :: rest.drop (p + 1) := by
  rcases List.findIdx?_eq_some_iff_getElem.mp hfind with ⟨hp, hfound, hbefore⟩
  refine ⟨hp, fun hmem => ?_, ?_⟩
  · rcases List.mem_take_iff_getElem.mp hmem with ⟨j, hj, heq⟩
    exact hbefore j (by omega) (decide_eq_true heq)
  · have hdrop := List.drop_eq_getElem_cons hp
    rw [of_decide_eq_true hfound] at hdrop
    rw [← hdrop, List.take_append_drop]

theorem toNat_ofNat_lt {n : Nat} (hn : n < 2 ^ 32) : (UInt32.ofNat n).toNat = n := by
  rw [UInt32.toNat_ofNat']
  exact Nat.mod_eq_of_lt hn

theorem ofInt_natCast (n : Nat) : UInt32.ofInt (n : Int) = UInt32.ofNat n := by
  show UInt32.ofNat ((n : Int) % 2 ^ 32).toNat = UInt32.ofNat n
  rw [← UInt32.toNat_inj, UInt32.toNat_ofNat', UInt32.toNat_ofNat']
  omega

theorem toInt32_natCast {n : Nat} (hn : n < 2 ^ 31) : toInt32 n = n :=
  toInt32_eq (by omega) (by omega)

/-- `i = end + 1` -/
theorem ofInt_toInt32_succ (n : Nat) : UInt32.ofInt (toInt32 ((n : Int) + 1)) = UInt32.ofNat (n + 1) := by
  rw [UInt32.ofInt, ← UInt32.toNat_inj, UInt32.toNat_ofNat', UInt32.toNat_ofNat', toInt32, Int.bmod_def]
  split <;> omega

theorem mkStringCopySubstr_eq (k n : Nat) :
    mkStringCopySubstr line (k : Int) ((k + n : Nat) : Int) = some ((line.drop k).take n) := by
  rw [mkStringCopySubstr, if_neg (by omega), Int.toNat_natCast]
  congr 2
  omega

/-- From a position on, the loop gives the words that are left. -/
theorem splitLoop_words (hlength : line.length < 2 ^ 31) {turns k : Nat} (hk : k ≤ line.length + 1)
    (hturns : line.length + 2 ≤ turns + k) :
    splitLoop line turns (UInt32.ofNat k) = some ((words (line.drop k)).map node) := by
  induction turns generalizing k with
  | zero => omega
  | succ turns ih =>
    have hi : (UInt32.ofNat k).toNat = k := toNat_ofNat_lt (by omega)
    have hlen : (UInt32.ofNat line.length).toNat = line.length := toNat_ofNat_lt (by omega)
    rw [splitLoop]
    dsimp only
    by_cases hend : k < line.length
    swap
    · rw [if_neg (by rw [UInt32.lt_iff_toNat_lt, hi, hlen]; exact hend),
        List.drop_eq_nil_of_le (Nat.not_lt.mp hend), words_nil]
      rfl
    have hmem : (line ++ [0]).drop k = line.drop k ++ [0] :=
      List.drop_append_of_le_length (Nat.le_of_lt hend)
    have hrest : (line.drop k).length = line.length - k := List.length_drop
    have hsub : (UInt32.ofNat line.length - UInt32.ofNat k).toNat = line.length - k := by
      rw [UInt32.toNat_sub_of_le _ _ (UInt32.le_iff_toNat_le.mpr (by omega)), hi, hlen]
    have hcast : ((line.length - k : Nat) : Int) = ((line.drop k).length : Int) := by rw [hrest]
    rw [if_pos (by rw [UInt32.lt_iff_toNat_lt, hi, hlen]; exact hend), hi, hmem, hsub,
      toInt32_natCast (by omega), hcast, mkStringCharSearch_text (by omega), Option.bind_eq_bind,
      Option.bind_some]
    cases hfind : (line.drop k).findIdx? fun x => decide (x = 32) with
    | none =>
      -- the last word; `i` goes behind the NUL
      have hword : 32 ∉ line.drop k := fun hmem =>
        Bool.false_ne_true ((List.findIdx?_eq_none_iff.mp hfind 32 hmem).symm.trans (by decide))
      have hne : line.drop k ≠ [] := List.ne_nil_of_length_pos (by omega)
      have hnext : UInt32.ofInt (toInt32 (toInt32 ((UInt32.ofNat line.length).toNat : Int) + 1)) =
          UInt32.ofNat (line.length + 1) := by
        rw [hlen, toInt32_natCast hlength, ofInt_toInt32_succ]
      have hcopy : mkStringCopySubstr line (toInt32 k) (toInt32 line.length) =
          some (line.drop k) := by
        have hcopy := @mkStringCopySubstr_eq line k (line.length - k)
        rw [Nat.add_sub_cancel' (Nat.le_of_lt hend), List.take_of_length_le (by omega)] at hcopy
        rw [toInt32_natCast hlength, toInt32_natCast (by omega), hcopy]
      rw [Option.elim_none, if_neg fun h => absurd h.1 (by decide), hnext,
        ih (by omega) (by omega), List.drop_eq_nil_of_le (Nat.le_succ _), words_nil, hlen, hcopy,
        words_last hne hword]
      simp only [List.map_nil, List.map_cons, node, hrest]
      rfl
    | some p =>
      rcases text_eq_of_findIdx hfind with ⟨hp, hword, htext⟩
      have hpos : (UInt32.ofInt (p : Int) + UInt32.ofNat k).toNat = k + p := by
        rw [ofInt_natCast, UInt32.toNat_add, hi, toNat_ofNat_lt (by omega), Nat.mod_eq_of_lt (by omega),
          Nat.add_comm]
      have hand : 0 ≤ (p : Int) ∧ UInt32.ofInt (p : Int) + UInt32.ofNat k < UInt32.ofNat line.length := by
        rw [UInt32.lt_iff_toNat_lt, hpos, hlen]
        omega
      have hdrop : (line.drop k).drop (p + 1) = line.drop (k + p + 1) := by
        rw [List.drop_drop]
        rfl
      rw [hdrop] at htext
      rw [Option.elim_some, if_pos hand, hpos, toInt32_natCast (by omega), ofInt_natCast]
      by_cases hzero : p = 0
      · -- a space
        subst hzero
        have hsucc : UInt32.ofNat k + 1 = UInt32.ofNat (k + 1) := by
          rw [← UInt32.toNat_inj, UInt32.toNat_add, hi, UInt32.toNat_one, toNat_ofNat_lt (by omega)]
          exact Nat.mod_eq_of_lt (by omega)
        rw [List.take_zero, List.nil_append, Nat.add_zero] at htext
        rw [Nat.add_zero, if_pos rfl, hsucc, ih (by omega) (by omega), htext, words_space]
      · have hne : UInt32.ofNat k ≠ UInt32.ofNat (k + p) := by
          rw [ne_eq, ← UInt32.toNat_inj, hi, toNat_ofNat_lt (by omega)]
          omega
        have hwidth : (UInt32.ofNat (k + p) - UInt32.ofNat k).toNat = p := by
          have hle : UInt32.ofNat k ≤ UInt32.ofNat (k + p) := by
            rw [UInt32.le_iff_toNat_le, hi, toNat_ofNat_lt (by omega)]
            omega
          rw [UInt32.toNat_sub_of_le _ _ hle, hi, toNat_ofNat_lt (by omega)]
          omega
        have hwordne : (line.drop k).take p ≠ [] := by
          refine List.ne_nil_of_length_pos ?_
          rw [List.length_take]
          omega
        have hnode : node ((line.drop k).take p) = ⟨some ((line.drop k).take p), p⟩ := by
          rw [node, List.length_take, Nat.min_eq_left (Nat.le_of_lt hp)]
        rw [if_neg hne, ofInt_toInt32_succ, ih (by omega) (by omega), hwidth, toInt32_natCast (by omega),
          toInt32_natCast (by omega), mkStringCopySubstr_eq, ← hnode]
        have hwords := words_word hwordne hword (line.drop (k + p + 1))
        rw [← htext] at hwords
        rw [hwords]
        rfl

/-- `mk_string_split_line` gives the words of a line of less than `2 ^ 31` bytes. -/
theorem mkStringSplitLine_words (line : Bytes) (hlength : line.length < 2 ^ 31) :
    mkStringSplitLine line = some ((words line).map node) := by
  have hturns : line.length + 2 ≤ line.length + 2 + 0 := Nat.le_refl _
  have h := splitLoop_words hlength (Nat.zero_le _) hturns
  rw [List.drop_zero] at h
  exact h

theorem mkStringSplitLine_words_two :
    mkStringSplitLine [32, 97, 32, 32, 98, 99, 32] = some [⟨some [97], 1⟩, ⟨some [98, 99], 2⟩] :=
  (mkStringSplitLine_words [32, 97, 32, 32, 98, 99, 32] (by decide)).trans (by decide)

/-- The length of a longer line is a negative `int`, and `memchr` searches behind it. -/
theorem mkStringSplitLine_long (hlength : line.length = 2 ^ 31) (hline : 32 ∉ line) :
    mkStringSplitLine line = none := by
  have hlen : (UInt32.ofNat line.length).toNat = 2 ^ 31 := by
    rw [hlength]
    rfl
  have hlt : (0 : UInt32) < UInt32.ofNat line.length := by
    rw [UInt32.lt_iff_toNat_lt, hlen]
    decide
  have hint : toInt32 ((UInt32.ofNat line.length - 0).toNat : Int) = -2 ^ 31 := by
    rw [UInt32.sub_zero, hlen]
    decide
  have hmem : (line ++ [0]).length = 2 ^ 31 + 1 := by
    rw [List.length_append, hlength]
    rfl
  have hstrlen : toInt32 (((line ++ [0]).length : Int) - 1) = -2 ^ 31 := by
    rw [hmem]
    decide
  have hfind : (line ++ [0]).findIdx? (fun x => decide (x = 32)) = none := by
    rw [List.findIdx?_eq_none_iff]
    intro c hc
    refine decide_eq_false fun heq => ?_
    rcases List.mem_append.mp hc with hc | hc
    · exact hline (heq ▸ hc)
    · rw [List.mem_singleton.mp hc] at heq
      exact absurd heq (by decide)
  have hmemchr : memchr (line ++ [0]) 32 ((-2 ^ 31 : Int) % 2 ^ 64).toNat = none := by
    have hhuge : ((-2 ^ 31 : Int) % 2 ^ 64).toNat = 18446744071562067968 := by decide
    rw [hhuge, memchr, List.take_of_length_le (by rw [hmem]; decide), hfind]
    dsimp only
    rw [if_neg (by rw [hmem]; decide)]
  have hsearch : mkStringCharSearch (line ++ [0]) 32 (-2 ^ 31) = none := by
    rw [mkStringCharSearch, if_pos (by decide), hstrlen, hmemchr]
    rfl
  rw [mkStringSplitLine, splitLoop]
  dsimp only
  rw [if_pos hlt, hint, UInt32.toNat_zero, List.drop_zero, hsearch]
  rfl

/-- A line of `2 ^ 31` letters. -/
theorem long_line_overruns :
    ¬ ∀ line : Bytes, 0 ∉ line → mkStringSplitLine line = some ((words line).map node) := by
  intro h
  have hno : ∀ c : UInt8, c ≠ 97 → c ∉ List.replicate (2 ^ 31) (97 : UInt8) :=
    fun c hc hmem => hc (List.eq_of_mem_replicate hmem)
  have hline := h _ (hno 0 (by decide))
  rw [mkStringSplitLine_long List.length_replicate (hno 32 (by decide))] at hline
  cases hline

end Loop

end SuperExe.Core.SplitLine
