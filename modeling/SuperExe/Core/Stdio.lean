import SuperExe.Core.CString

/-! # Reading a file by lines

`fgets` reads up to a line break, or as much as its buffer takes: a longer line
comes in pieces.
-/

namespace SuperExe.Core

/-- What `fgets` reads of the rest of a file into a buffer of `n + 1` bytes. -/
def fgets : Nat → Bytes → Bytes
  | 0, _ => []
  | _ + 1, [] => []
  | n + 1, c :: cs => if c = 10 then [c] else c :: fgets n cs

/-- `while (fgets(line, n + 1, f))` with `turns` turns left. -/
def fgetsLoop (n : Nat) : Nat → Bytes → List Bytes
  | 0, _ => []
  | turns + 1, file =>
    if file = [] then []
    else fgets n file :: fgetsLoop n turns (file.drop (fgets n file).length)

example : fgets 3 [97, 10, 98] = [97, 10] := by simp [fgets]

example : fgetsLoop 3 2 [97, 10] = [[97, 10]] := by simp [fgetsLoop, fgets]

/-- The lines of a file as `fgets` gives them. -/
def fgetsAll (n : Nat) (file : Bytes) : List Bytes := fgetsLoop n file.length file

section Fgets

variable {n turns : Nat} {line rest file : Bytes}

/-- A line that fits is read with its line break. -/
theorem fgets_line (hline : 10 ∉ line) (hfits : line.length < n) :
    fgets n (line ++ 10 :: rest) = line ++ [10] := by
  induction line generalizing n with
  | nil =>
    cases n with
    | zero => cases hfits
    | succ n => rfl
  | cons c line ih =>
    cases n with
    | zero => cases hfits
    | succ n =>
      rw [List.mem_cons, not_or] at hline
      rw [List.cons_append, fgets, if_neg (Ne.symm hline.1),
        ih hline.2 (Nat.lt_of_succ_lt_succ hfits), List.cons_append]

/-- Where there is no line break, `fgets` goes on. -/
theorem fgets_append (hline : 10 ∉ line) (m : Nat) (rest : Bytes) :
    fgets (line.length + m) (line ++ rest) = line ++ fgets m rest := by
  induction line with
  | nil =>
    rw [List.length_nil, Nat.zero_add]
    rfl
  | cons c line ih =>
    rw [List.mem_cons, not_or] at hline
    rw [List.length_cons, Nat.add_right_comm, List.cons_append, fgets, if_neg (Ne.symm hline.1),
      ih hline.2, List.cons_append]

theorem fgets_front (n : Nat) (file : Bytes) : fgets n file <+: file := by
  induction file generalizing n with
  | nil => cases n <;> exact List.prefix_refl _
  | cons c cs ih =>
    cases n with
    | zero => exact List.nil_prefix
    | succ n =>
      rw [fgets]
      split
      · exact ⟨cs, rfl⟩
      · exact (List.prefix_cons_inj c).mpr (ih n)

theorem length_fgets_le (n : Nat) (file : Bytes) : (fgets n file).length ≤ n := by
  induction file generalizing n with
  | nil => cases n <;> exact Nat.zero_le _
  | cons c cs ih =>
    cases n with
    | zero => exact Nat.le_refl _
    | succ n =>
      rw [fgets]
      split
      · exact Nat.succ_le_succ (Nat.zero_le n)
      · exact Nat.succ_le_succ (ih n)

theorem fgetsLoop_nil (n turns : Nat) : fgetsLoop n turns [] = [] := by
  cases turns <;> rfl

theorem fgets_ne_nil (hn : 0 < n) (hfile : file ≠ []) : fgets n file ≠ [] := by
  cases n with
  | zero => cases hn
  | succ n =>
    cases file with
    | nil => exact (hfile rfl).elim
    | cons c cs =>
      rw [fgets]
      split <;> exact List.cons_ne_nil _ _

/-- More turns than bytes change nothing. -/
theorem fgetsLoop_eq (hn : 0 < n) (hturns : file.length ≤ turns) :
    fgetsLoop n turns file = fgetsAll n file := by
  unfold fgetsAll
  induction turns using Nat.strong_induction_on generalizing file with
  | _ turns ih =>
    by_cases hfile : file = []
    · subst hfile
      rw [fgetsLoop_nil, fgetsLoop_nil]
    · have hpos := List.length_pos_iff.mpr (fgets_ne_nil hn hfile)
      have hle := (fgets_front n file).length_le
      cases turns with
      | zero => omega
      | succ turns =>
        cases hlen : file.length with
        | zero => omega
        | succ m =>
          have hrest : (file.drop (fgets n file).length).length ≤ m := by
            rw [List.length_drop]
            omega
          rw [fgetsLoop, fgetsLoop, if_neg hfile, if_neg hfile,
            ih turns (Nat.lt_succ_self _) (by omega)]
          congr 1
          rcases Nat.lt_or_ge m (turns + 1) with hlt | hge
          · exact (ih m hlt hrest).symm
          · obtain rfl : m = turns := by omega
            exact (ih m (Nat.lt_succ_self _) hrest).symm

/-- The first line and the rest of the file. -/
theorem fgetsAll_cons (hn : 0 < n) (hfile : file ≠ []) :
    fgetsAll n file = fgets n file :: fgetsAll n (file.drop (fgets n file).length) := by
  have hpos := List.length_pos_iff.mpr (fgets_ne_nil hn hfile)
  have hle := (fgets_front n file).length_le
  cases hlen : file.length with
  | zero => omega
  | succ m =>
    rw [fgetsAll, hlen, fgetsLoop, if_neg hfile, fgetsLoop_eq hn (by
      rw [List.length_drop]
      omega)]

/-- Each part of a file is one, not empty, and fits into the buffer. -/
theorem of_mem_fgetsAll {buf : Bytes} (hn : 0 < n) (hbuf : buf ∈ fgetsAll n file) :
    buf ≠ [] ∧ buf ⊆ file ∧ buf.length ≤ n := by
  induction hlen : file.length using Nat.strong_induction_on generalizing file with
  | _ m ih =>
    by_cases hfile : file = []
    · subst hfile
      cases hbuf
    · rw [fgetsAll_cons hn hfile, List.mem_cons] at hbuf
      rcases hbuf with rfl | hbuf
      · exact ⟨fgets_ne_nil hn hfile, (fgets_front n file).subset, length_fgets_le n file⟩
      · have hpos := List.length_pos_iff.mpr (fgets_ne_nil hn hfile)
        have hle := (fgets_front n file).length_le
        have hshort : (file.drop (fgets n file).length).length < m := by
          rw [List.length_drop]
          omega
        rcases ih _ hshort hbuf rfl with ⟨hne, hsub, hfits⟩
        exact ⟨hne, fun c hc => List.mem_of_mem_drop (hsub hc), hfits⟩

/-- A file of lines that fit is read line by line. -/
theorem fgetsAll_line (hline : 10 ∉ line) (hfits : line.length < n) :
    fgetsAll n (line ++ 10 :: rest) = (line ++ [10]) :: fgetsAll n rest := by
  have hsplit : line ++ 10 :: rest = (line ++ [10]) ++ rest := by simp
  rw [fgetsAll_cons (by omega) (by simp), fgets_line hline hfits]
  congr 2
  rw [hsplit, List.drop_left]

/-- A line that is longer gives up its first part. -/
theorem fgetsAll_full (hne : line ≠ []) (hline : 10 ∉ line) (rest : Bytes) :
    fgetsAll line.length (line ++ rest) = line :: fgetsAll line.length rest := by
  have hfull : fgets line.length (line ++ rest) = line := by
    have h := fgets_append hline 0 rest
    rwa [fgets, List.append_nil] at h
  rw [fgetsAll_cons (List.length_pos_iff.mpr hne) (List.append_ne_nil_of_left_ne_nil hne _),
    hfull, List.drop_left]

/-- What a line comes in does not depend on what follows it. -/
theorem fgetsAll_append (hn : 0 < n) (hline : 10 ∉ line) (rest : Bytes) :
    fgetsAll n (line ++ 10 :: rest) = fgetsAll n (line ++ [10]) ++ fgetsAll n rest := by
  induction hlen : line.length using Nat.strong_induction_on generalizing line with
  | _ m ih =>
    rcases Nat.lt_or_ge m n with hfits | hlong
    · have hnil : fgetsAll n ([] : Bytes) = [] := rfl
      rw [fgetsAll_line hline (by omega), fgetsAll_line hline (by omega), hnil]
      rfl
    · -- the buffer is full before the line ends
      have hfront : (line.take n).length = n := by
        rw [List.length_take]
        omega
      have hsplit : ∀ t, line ++ t = line.take n ++ (line.drop n ++ t) := fun t => by
        rw [← List.append_assoc, List.take_append_drop]
      have hne : line.take n ≠ [] := by
        rw [← List.length_pos_iff]
        omega
      have hno : 10 ∉ line.take n := fun h => hline (List.mem_of_mem_take h)
      have hfull : ∀ t, fgetsAll n (line.take n ++ t) = line.take n :: fgetsAll n t := fun t => by
        have h := fgetsAll_full hne hno t
        rwa [hfront] at h
      have hrest : 10 ∉ line.drop n := fun h => hline (List.mem_of_mem_drop h)
      have hshort : (line.drop n).length < m := by
        rw [List.length_drop]
        omega
      rw [hsplit, hsplit, hfull, hfull, ih _ hshort hrest rfl, List.cons_append]

end Fgets

end SuperExe.Core
