import Mathlib.Algebra.Order.Group.Multiset
import Mathlib.Data.Multiset.UnionInter
import Mathlib.Logic.Function.Basic

/-! # Memory in pieces

A piece is a multiset of cells, an address with its content each. A memory has a piece
if the addresses are different and the contents are there. What is written to a cell
of a piece changes nothing of the rest: `Has.set` is the only rule about it, and pieces
are put in order with `ac_rfl`.
-/

namespace SuperExe.Lib.PointsTo

universe u v

variable {α : Type u} {β : Type v}

abbrev Piece (α : Type u) (β : Type v) := Multiset (α × β)

abbrev cell (x : α) (a : β) : Piece α β := {(x, a)}

structure Has (m : α → β) (M : Piece α β) : Prop where
  nodup : (M.map Prod.fst).Nodup
  value : ∀ c ∈ M, m c.1 = c.2

variable {m : α → β} {M N : Piece α β} {x y : α} {a b : β}

theorem mem_cell (x : α) (a : β) : (x, a) ∈ cell x a := Multiset.mem_singleton_self _

theorem map_cell (x : α) (a : β) : (cell x a).map Prod.fst = {x} := Multiset.map_singleton ..

theorem Has.get (h : Has m (cell x a + M)) : m x = a :=
  h.value (x, a) (Multiset.mem_add.mpr (.inl (mem_cell x a)))

theorem Has.left (h : Has m (M + N)) : Has m M where
  nodup := by
    have hnodup := h.nodup
    rw [Multiset.map_add] at hnodup
    exact (Multiset.nodup_add.mp hnodup).1
  value c hc := h.value c (Multiset.mem_add.mpr (.inl hc))

/-- Different parts of a piece have no address in common. -/
theorem Has.apart (h : Has m (M + N)) {c d : α × β} (hc : c ∈ M) (hd : d ∈ N) : c.1 ≠ d.1 := by
  intro heq
  have hnodup := h.nodup
  rw [Multiset.map_add] at hnodup
  have hdisj := (Multiset.nodup_add.mp hnodup).2.2
  exact Multiset.disjoint_left.mp hdisj (Multiset.mem_map_of_mem _ hc)
    (heq ▸ Multiset.mem_map_of_mem _ hd)

theorem Has.set [DecidableEq α] (h : Has m (cell x a + M)) (b : β) :
    Has (Function.update m x b) (cell x b + M) where
  nodup := by
    have hnodup := h.nodup
    rw [Multiset.map_add, map_cell] at hnodup ⊢
    exact hnodup
  value c hc := by
    rcases Multiset.mem_add.mp hc with hc | hc
    · rw [Multiset.mem_singleton.mp hc]
      exact Function.update_self x b m
    · have hne : x ≠ c.1 := h.apart (mem_cell x a) hc
      rw [Function.update_of_ne hne.symm]
      exact h.value c (Multiset.mem_add.mpr (.inr hc))

end SuperExe.Lib.PointsTo
