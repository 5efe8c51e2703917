import Mathlib.Data.List.Basic
import Mathlib.Data.List.Infix

/-! # Path texts

A path is a text cut into segments by a separator. Empty segments and the
segment `.` mean nothing; `..` goes back one segment. `resolve` follows a path
textually, without a file system, and `Below` is the order it gives: the second
path is the first one or lies under it.

The rule the developments use is `below_append`: a text that is appended to a
directory stays below it as long as `..` does not occur in it.
-/

namespace SuperExe.Lib

universe u

variable {α : Type u} [DecidableEq α] (slash dot : α)

/-! ## Segments -/

/-- The segments of a path that mean something. -/
def segments (p : List α) : List (List α) :=
  (p.splitOn slash).filter fun s => s ≠ [] ∧ s ≠ [dot]

theorem segments_append_slash (p q : List α) :
    segments slash dot (p ++ slash :: q) = segments slash dot p ++ segments slash dot q := by
  rw [segments, List.splitOn_append_cons_self, List.filter_append]
  rfl

@[simp] theorem segments_nil : segments slash dot ([] : List α) = [] := by
  simp [segments]

omit [DecidableEq α] in
/-- A part of a text put together with separators is a part of the text. -/
theorem infix_intercalate {x s : List α} {ls : List (List α)} (h : s ∈ ls) :
    s <:+: x.intercalate ls := by
  induction ls with
  | nil => cases h
  | cons l ls ih =>
    cases ls with
    | nil =>
      obtain rfl : s = l := by simpa using h
      simp
    | cons l' ls =>
      rw [List.intercalate_cons_cons]
      rcases List.mem_cons.mp h with rfl | hin
      · rw [List.append_assoc]
        exact (List.prefix_append s _).isInfix
      · exact (ih hin).trans (List.suffix_append _ _).isInfix

/-- A segment stands in the path. -/
theorem infix_of_mem_segments {p s : List α} (h : s ∈ segments slash dot p) : s <:+: p := by
  have hsplit : s ∈ p.splitOn slash := List.mem_of_mem_filter h
  have hinfix := infix_intercalate (x := [slash]) hsplit
  rwa [List.intercalate_splitOn] at hinfix

/-! ## Resolution -/

/-- One segment further. `..` cancels the last segment; an absolute path has
nothing above its root, a relative one keeps what leads out of it. -/
def climb (absolute : Bool) (stack : List (List α)) (s : List α) : List (List α) :=
  if s = [dot, dot] then
    match stack.getLast? with
    | none => if absolute then [] else [s]
    | some t => if t = [dot, dot] then stack ++ [s] else stack.dropLast
  else stack ++ [s]

/-- Whether the path is absolute, and the segments it leads through in the end. -/
def resolve (p : List α) : Bool × List (List α) :=
  let absolute : Bool := p.head? = some slash
  (absolute, (segments slash dot p).foldl (climb dot absolute) [])

/-- Without `..` every segment is one step down. -/
theorem foldl_climb (absolute : Bool) (stack ss : List (List α)) (h : [dot, dot] ∉ ss) :
    ss.foldl (climb dot absolute) stack = stack ++ ss := by
  induction ss generalizing stack with
  | nil => simp
  | cons s ss ih =>
    rw [List.mem_cons, not_or] at h
    have hdown : climb dot absolute stack s = stack ++ [s] := if_neg (Ne.symm h.1)
    rw [List.foldl_cons, hdown, ih _ h.2, List.append_assoc]
    rfl

/-- `p` is the directory `root` or lies below it. -/
def Below (root p : List α) : Prop :=
  (resolve slash dot root).1 = (resolve slash dot p).1 ∧
    (resolve slash dot root).2 <+: (resolve slash dot p).2

/-- What is appended to a directory stays below it. -/
theorem below_append {root q : List α} (h : ¬ [dot, dot] <:+: q) :
    Below slash dot (root ++ [slash]) (root ++ slash :: q) := by
  have hhead : (root ++ [slash]).head? = (root ++ slash :: q).head? := by
    cases root <;> rfl
  have hsegs : [dot, dot] ∉ segments slash dot q := fun hin =>
    h (infix_of_mem_segments slash dot hin)
  refine ⟨by simp only [resolve, hhead], ?_⟩
  simp only [resolve, hhead, segments_append_slash, segments_nil, List.append_nil,
    List.foldl_append]
  rw [foldl_climb _ _ _ _ hsegs]
  exact List.prefix_append _ _

end SuperExe.Lib
