import Mathlib.Data.List.Basic
import Mathlib.Data.List.Infix

/-! # Lines

A text is cut into lines wherever two given symbols `cr lf` stand next to each
other. `lines` cuts at every such place, `Unbroken` says that there is none in a
text; `lines_append` and `lines_unbroken` compute the lines of a text that was
put together from parts.
-/

namespace SuperExe.Lib

universe u

variable {α : Type u} (cr lf : α)

/-- `cr lf` does not occur in the text. -/
def Unbroken (l : List α) : Prop := ¬ [cr, lf] <:+: l

variable [DecidableEq α]

instance (l : List α) : Decidable (Unbroken cr lf l) := inferInstanceAs (Decidable (¬ _))

/-- The lines of a text, without their ends. What stands behind the last end is
a line too, in most cases an empty one. -/
def lines : List α → List (List α)
  | [] => [[]]
  | [c] => [[c]]
  | c :: d :: rest =>
    if c = cr ∧ d = lf then [] :: lines rest
    else (lines (d :: rest)).modifyHead (c :: ·)

variable {cr lf}

theorem lines_ne_nil (l : List α) : lines cr lf l ≠ [] := by
  induction l using lines.induct cr lf with
  | case1 => simp [lines]
  | case2 c => simp [lines]
  | case3 c d rest h ih => simp [lines, h]
  | case4 c d rest h ih =>
    rw [lines, if_neg h]
    exact List.modifyHead_eq_nil_iff.not.mpr ih

/-- A symbol that does not start an end of a line belongs to the first line. -/
theorem lines_cons {c : α} {l : List α} (h : ¬ [cr, lf] <+: c :: l) :
    lines cr lf (c :: l) = (lines cr lf l).modifyHead (c :: ·) := by
  cases l with
  | nil => simp [lines]
  | cons d rest =>
    have hne : ¬ (c = cr ∧ d = lf) := by
      rintro ⟨rfl, rfl⟩
      exact h ⟨rest, rfl⟩
    rw [lines, if_neg hne]

@[simp] theorem lines_end (l : List α) : lines cr lf (cr :: lf :: l) = [] :: lines cr lf l := by
  simp [lines]

/-- The end of a line cuts a text in two. -/
theorem lines_append (hne : cr ≠ lf) (l m : List α) :
    lines cr lf (l ++ cr :: lf :: m) = lines cr lf l ++ lines cr lf m := by
  induction l using lines.induct cr lf with
  | case1 => simp [lines]
  | case2 c =>
    have hc : ¬ [cr, lf] <+: c :: cr :: lf :: m := by
      rintro ⟨t, ht⟩
      simp only [List.cons_append, List.cons.injEq] at ht
      exact hne ht.2.1.symm
    rw [List.singleton_append, lines_cons hc, lines_end]
    simp [lines]
  | case3 c d rest h ih =>
    rcases h with ⟨rfl, rfl⟩
    rw [List.cons_append, List.cons_append, lines_end, lines_end, ih, List.cons_append]
  | case4 c d rest h ih =>
    rw [List.cons_append, List.cons_append, lines, if_neg h, lines, if_neg h,
      ← List.cons_append, ih]
    cases hlines : lines cr lf (d :: rest) with
    | nil => exact (lines_ne_nil _ hlines).elim
    | cons x xs => rfl

/-- A text without an end of a line is one line. -/
theorem lines_unbroken {l : List α} (h : Unbroken cr lf l) : lines cr lf l = [l] := by
  induction l with
  | nil => rfl
  | cons c l ih =>
    have htail : Unbroken cr lf l := fun hin => h (hin.trans (List.suffix_cons c l).isInfix)
    have hhead : ¬ [cr, lf] <+: c :: l := fun hpre => h hpre.isInfix
    rw [lines_cons hhead, ih htail]
    rfl

/-- A row is its own line. -/
theorem lines_row (hne : cr ≠ lf) {l : List α} (h : Unbroken cr lf l) (m : List α) :
    lines cr lf (l ++ cr :: lf :: m) = l :: lines cr lf m := by
  rw [lines_append hne, lines_unbroken h, List.singleton_append]

/-- Rows are read back as they were written. -/
theorem lines_rows (hne : cr ≠ lf) {rows : List (List α)} (h : ∀ row ∈ rows, Unbroken cr lf row)
    (m : List α) :
    lines cr lf ((rows.flatMap fun row => row ++ [cr, lf]) ++ m) = rows ++ lines cr lf m := by
  induction rows with
  | nil => rfl
  | cons row rows ih =>
    rw [List.flatMap_cons, List.append_assoc, List.append_assoc, List.cons_append, List.singleton_append,
      lines_row hne (h row List.mem_cons_self), ih fun r hr => h r (List.mem_cons_of_mem _ hr),
      List.cons_append]

/-- A text without `cr` in front of another one belongs to the first line. -/
theorem lines_head {p : List α} (hp : cr ∉ p) (l : List α) :
    lines cr lf (p ++ l) = (lines cr lf l).modifyHead (p ++ ·) := by
  induction p with
  | nil =>
    rw [List.nil_append]
    cases lines cr lf l <;> rfl
  | cons c p ih =>
    have hc : ¬ [cr, lf] <+: c :: (p ++ l) := by
      rintro ⟨t, ht⟩
      simp only [List.cons_append, List.cons.injEq] at ht
      exact hp (by simp [ht.1])
    rw [List.cons_append, lines_cons hc, ih fun hin => hp (List.mem_cons_of_mem c hin)]
    cases lines cr lf l <;> rfl

/-- The first line of a text is the start of the text, and has no end of a line
in it. -/
theorem lines_first (l : List α) :
    ∃ first rest, lines cr lf l = first :: rest ∧ first <+: l ∧ Unbroken cr lf first := by
  induction l with
  | nil =>
    refine ⟨[], [], rfl, List.prefix_rfl, ?_⟩
    intro hin
    simp at hin
  | cons c l ih =>
    by_cases hend : [cr, lf] <+: c :: l
    · rcases hend with ⟨t, ht⟩
      rw [← ht, List.cons_append, List.singleton_append, lines_end]
      refine ⟨[], lines cr lf t, rfl, List.nil_prefix, ?_⟩
      intro hin
      simp at hin
    · rcases ih with ⟨first, rest, hlines, hpre, hfirst⟩
      refine ⟨c :: first, rest, ?_, List.cons_prefix_cons.mpr ⟨rfl, hpre⟩, ?_⟩
      · rw [lines_cons hend, hlines]
        rfl
      · intro hin
        rcases List.infix_cons_iff.mp hin with hstart | hin
        · exact hend (hstart.trans (List.cons_prefix_cons.mpr ⟨rfl, hpre⟩))
        · exact hfirst hin

omit [DecidableEq α] in
/-- An end of a line in two texts put together stands in one of them or across
the seam. -/
theorem unbroken_append {l m : List α} (hl : Unbroken cr lf l) (hm : Unbroken cr lf m)
    (hseam : l.getLast? = some cr → m.head? ≠ some lf) : Unbroken cr lf (l ++ m) := by
  induction l with
  | nil => exact hm
  | cons c l ih =>
    intro hin
    rcases List.infix_cons_iff.mp hin with hstart | hin
    · cases l with
      | nil =>
        rcases hstart with ⟨t, ht⟩
        simp only [List.cons_append, List.nil_append, List.cons.injEq] at ht
        rcases ht with ⟨rfl, rfl⟩
        exact hseam rfl rfl
      | cons d l =>
        rcases hstart with ⟨t, ht⟩
        simp only [List.cons_append, List.nil_append, List.cons.injEq] at ht
        rcases ht with ⟨rfl, rfl, -⟩
        exact hl ⟨[], l, rfl⟩
    · refine ih (fun h => hl (h.trans (List.suffix_cons c l).isInfix)) ?_ hin
      intro hlast
      refine hseam ?_
      cases l with
      | nil => cases hlast
      | cons d l => rwa [List.getLast?_cons_cons]

omit [DecidableEq α] in
theorem unbroken_of_not_mem {l : List α} (h : cr ∉ l) : Unbroken cr lf l := by
  intro hin
  exact h (hin.subset List.mem_cons_self)

omit [DecidableEq α] in
/-- A part of an unbroken text is unbroken. -/
theorem Unbroken.of_infix {l m : List α} (h : Unbroken cr lf m) (hin : l <:+: m) :
    Unbroken cr lf l :=
  fun hbroken => h (hbroken.trans hin)

end SuperExe.Lib
