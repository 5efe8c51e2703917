import Mathlib.Algebra.Order.Ring.Int
import Mathlib.Data.List.Nodup
import Mathlib.Logic.Function.Basic

/-! # Cells that count their references

A store has cells with values, and a value may refer to an object that counts
its references. `assign` takes a value from one cell to another and keeps the
counts; `together` is what a list of assignments is for, made at once. Made one
after the other they come to the same exactly if no value is overwritten by
another one before it is read (`Clear`).
-/

namespace SuperExe.Lib.Cells

universe u v w

variable {A : Type u} {V : Type v} {O : Type w}

/-- The values of the cells, the counts of the objects, the objects whose count
came down to zero, and the assignments that were made: target and source. -/
@[ext] structure Store (A : Type u) (V : Type v) (O : Type w) where
  cell : A → V
  count : O → Int
  freed : List O
  log : List (A × A)

/-- No value is overwritten by another one before it is read. -/
def Clear (s : Store A V O) (ms : List (A × A)) : Prop :=
  ms.Pairwise fun m m' => m'.2 = m.1 → s.cell m'.2 = s.cell m.2

section Assign

variable [DecidableEq A] [DecidableEq O] (object : V → Option O)

/-- A reference more. -/
def addRef (s : Store A V O) : Option O → Store A V O
  | none => s
  | some o => { s with count := Function.update s.count o (s.count o + 1) }

/-- A reference less; the last one frees the object. -/
def release (s : Store A V O) : Option O → Store A V O
  | none => s
  | some o =>
    { s with
      count := Function.update s.count o (s.count o - 1)
      freed := if s.count o - 1 = 0 then s.freed ++ [o] else s.freed }

/-- The value of the second cell for the first: its object is referred to before
the one of the old value is released. -/
def assign (s : Store A V O) (m : A × A) : Store A V O :=
  let t := release (addRef s (object (s.cell m.2))) (object (s.cell m.1))
  { t with cell := Function.update s.cell m.1 (s.cell m.2), log := s.log ++ [m] }

/-- Some assignments in their order. -/
def assigns (s : Store A V O) (ms : List (A × A)) : Store A V O := ms.foldl (assign object) s

/-- How many of the values refer to an object. -/
def held (vs : List V) (o : O) : Nat := vs.countP fun v => object v = some o

/-- The assignments at once. -/
def together (s : Store A V O) (ms : List (A × A)) (p : A) : V :=
  match ms.find? fun m => m.1 = p with
  | some m => s.cell m.2
  | none => s.cell p

/-- The references that are left of an object after the assignments up to the
`n`-th. -/
def leftAfter (s : Store A V O) (ms : List (A × A)) (n : Nat) (o : O) : Int :=
  s.count o + held object ((ms.take (n + 1)).map fun m => s.cell m.2) o -
    held object ((ms.take (n + 1)).map fun m => s.cell m.1) o

/-- An object that loses its last reference to one of the assignments is in none
of the cells afterwards. -/
def Spared (s : Store A V O) (ms : List (A × A)) (cells : List A) : Prop :=
  ∀ n m, ms[n]? = some m → ∀ o, object (s.cell m.1) = some o → leftAfter object s ms n o = 0 →
    ∀ p ∈ cells, object (together s ms p) ≠ some o

end Assign

section Step

variable [DecidableEq A] [DecidableEq O] {object : V → Option O} {s : Store A V O} {m : A × A}

@[simp] theorem assign_cell (s : Store A V O) (m : A × A) :
    (assign object s m).cell = Function.update s.cell m.1 (s.cell m.2) := rfl

@[simp] theorem assign_log (s : Store A V O) (m : A × A) :
    (assign object s m).log = s.log ++ [m] := rfl

theorem held_cons (v : V) (vs : List V) (o : O) :
    held object (v :: vs) o = held object vs o + if object v = some o then 1 else 0 := by
  rw [held, List.countP_cons, held]
  by_cases h : object v = some o <;> simp [h]

theorem held_append (vs ws : List V) (o : O) :
    held object (vs ++ ws) o = held object vs o + held object ws o :=
  List.countP_append

theorem held_pos {vs : List V} {o : O} {v : V} (hv : v ∈ vs) (ho : object v = some o) :
    0 < held object vs o :=
  List.countP_pos_iff.mpr ⟨v, hv, decide_eq_true ho⟩

omit [DecidableEq A] in
theorem addRef_count (s : Store A V O) (r : Option O) (o : O) :
    (addRef s r).count o = s.count o + if r = some o then 1 else 0 := by
  cases r with
  | none => simp [addRef]
  | some o' =>
    by_cases h : o' = o
    · subst h
      simp [addRef]
    · simp [addRef, h, Function.update_of_ne (Ne.symm h)]

omit [DecidableEq A] in
theorem release_count (s : Store A V O) (r : Option O) (o : O) :
    (release s r).count o = s.count o - if r = some o then 1 else 0 := by
  cases r with
  | none => simp [release]
  | some o' =>
    by_cases h : o' = o
    · subst h
      simp [release]
    · simp [release, h, Function.update_of_ne (Ne.symm h)]

omit [DecidableEq A] in
theorem mem_freed_release (s : Store A V O) (r : Option O) (o : O) :
    o ∈ (release s r).freed ↔ o ∈ s.freed ∨ r = some o ∧ (release s r).count o = 0 := by
  cases r with
  | none => simp [release]
  | some o' =>
    by_cases hzero : s.count o' - 1 = 0
    · by_cases h : o = o'
      · subst h
        simp [release, hzero]
      · simp [release, hzero, h, Ne.symm h]
    · by_cases h : o = o'
      · subst h
        simp [release, hzero]
      · simp [release, hzero, Ne.symm h]

/-- The counts follow the values. -/
theorem assign_count (s : Store A V O) (m : A × A) (o : O) :
    (assign object s m).count o = s.count o + (if object (s.cell m.2) = some o then 1 else 0) -
      if object (s.cell m.1) = some o then 1 else 0 := by
  show (release (addRef s (object (s.cell m.2))) (object (s.cell m.1))).count o = _
  rw [release_count, addRef_count]

theorem mem_freed_assign (s : Store A V O) (m : A × A) (o : O) :
    o ∈ (assign object s m).freed ↔
      o ∈ s.freed ∨ object (s.cell m.1) = some o ∧ (assign object s m).count o = 0 := by
  have hfreed : (addRef s (object (s.cell m.2))).freed = s.freed := by
    cases object (s.cell m.2) <;> rfl
  have h := mem_freed_release (addRef s (object (s.cell m.2))) (object (s.cell m.1)) o
  rw [hfreed] at h
  exact h

/-- What the count of an object has over its references in some cells stays. -/
theorem assign_balance {cells : List A} (hcells : cells.Nodup) (hm : m.1 ∈ cells) (s : Store A V O)
    (o : O) :
    (assign object s m).count o - held object (cells.map (assign object s m).cell) o =
      s.count o - held object (cells.map s.cell) o := by
  rcases List.append_of_mem hm with ⟨l, r, rfl⟩
  have hnot := List.nodup_append.mp hcells
  have hl : l.map (assign object s m).cell = l.map s.cell := by
    refine List.map_congr_left fun p hp => Function.update_of_ne ?_ _ _
    exact hnot.2.2 p hp m.1 List.mem_cons_self
  have hr : r.map (assign object s m).cell = r.map s.cell := by
    refine List.map_congr_left fun p hp => Function.update_of_ne ?_ _ _
    rintro rfl
    exact (List.nodup_cons.mp hnot.2.1).1 hp
  rw [assign_count, List.map_append, List.map_append, List.map_cons, List.map_cons, hl, hr,
    held_append, held_append, held_cons, held_cons, assign_cell, Function.update_self]
  push_cast
  omega

end Step

section Run

variable [DecidableEq A] [DecidableEq O] {object : V → Option O} {s : Store A V O}
  {ms : List (A × A)} {cells : List A}

@[simp] theorem assigns_nil (s : Store A V O) : assigns object s [] = s := rfl

@[simp] theorem assigns_cons (s : Store A V O) (m : A × A) (ms : List (A × A)) :
    assigns object s (m :: ms) = assigns object (assign object s m) ms := rfl

theorem assigns_log (s : Store A V O) (ms : List (A × A)) :
    (assigns object s ms).log = s.log ++ ms := by
  induction ms generalizing s with
  | nil => exact (List.append_nil _).symm
  | cons m ms ih => rw [assigns_cons, ih, assign_log, List.append_assoc, List.singleton_append]

/-- Only the targets change. -/
theorem assigns_frame {p : A} (hp : p ∉ ms.map Prod.fst) (s : Store A V O) :
    (assigns object s ms).cell p = s.cell p := by
  induction ms generalizing s with
  | nil => rfl
  | cons m ms ih =>
    rw [List.map_cons, List.mem_cons, not_or] at hp
    rw [assigns_cons, ih hp.2, assign_cell, Function.update_of_ne hp.1]

theorem assigns_balance (hcells : cells.Nodup) (htargets : ∀ m ∈ ms, m.1 ∈ cells)
    (s : Store A V O) (o : O) :
    (assigns object s ms).count o - held object (cells.map (assigns object s ms).cell) o =
      s.count o - held object (cells.map s.cell) o := by
  induction ms generalizing s with
  | nil => rfl
  | cons m ms ih =>
    rw [List.forall_mem_cons] at htargets
    rw [assigns_cons, ih htargets.2, assign_balance hcells htargets.1]

/-- A source that is no target is read as it was. -/
theorem assigns_source {m : A × A} (hm : m ∈ ms) (hnodup : (ms.map Prod.fst).Nodup)
    (hsource : m.2 ∉ ms.map Prod.fst) (s : Store A V O) :
    (assigns object s ms).cell m.1 = s.cell m.2 := by
  induction ms generalizing s with
  | nil => cases hm
  | cons m' ms ih =>
    rw [List.map_cons, List.nodup_cons] at hnodup
    rw [List.map_cons, List.mem_cons, not_or] at hsource
    rw [assigns_cons]
    rcases List.mem_cons.mp hm with rfl | hlater
    · rw [assigns_frame hnodup.1, assign_cell, Function.update_self]
    · rw [ih hlater hnodup.2 hsource.2, assign_cell, Function.update_of_ne hsource.1]

/-- After the first of some clear assignments the sources of the others are as
they were. -/
theorem Clear.source {m m' : A × A} (h : Clear s (m :: ms)) (hm' : m' ∈ ms) :
    (assign object s m).cell m'.2 = s.cell m'.2 := by
  rw [assign_cell]
  by_cases heq : m'.2 = m.1
  · rw [heq, Function.update_self, ← (List.pairwise_cons.mp h).1 m' hm' heq, heq]
  · exact Function.update_of_ne heq _ _

theorem Clear.tail {m : A × A} (h : Clear s (m :: ms)) : Clear (assign object s m) ms := by
  refine List.Pairwise.imp_of_mem ?_ (List.pairwise_cons.mp h).2
  intro m₁ m₂ h₁ h₂ hclear heq
  rw [h.source h₁, h.source h₂]
  exact hclear heq

theorem clear_cons_of_tail {m : A × A}
    (hfirst : ∀ m' ∈ ms, m'.2 = m.1 → s.cell m'.2 = s.cell m.2)
    (h : Clear (assign object s m) ms) : Clear s (m :: ms) := by
  have hsource : ∀ m' ∈ ms, (assign object s m).cell m'.2 = s.cell m'.2 := by
    intro m' hm'
    rw [assign_cell]
    by_cases heq : m'.2 = m.1
    · rw [heq, Function.update_self, ← hfirst m' hm' heq, heq]
    · exact Function.update_of_ne heq _ _
  refine List.pairwise_cons.mpr ⟨hfirst, List.Pairwise.imp_of_mem ?_ h⟩
  intro m₁ m₂ h₁ h₂ hclear heq
  rw [← hsource m₁ h₁, ← hsource m₂ h₂]
  exact hclear heq

/-- One after the other the assignments give every target the value its source
had, exactly if they are clear. -/
theorem assigns_sources_iff (hnodup : (ms.map Prod.fst).Nodup) (s : Store A V O) :
    (∀ m ∈ ms, (assigns object s ms).cell m.1 = s.cell m.2) ↔ Clear s ms := by
  induction ms generalizing s with
  | nil => exact ⟨fun _ => List.Pairwise.nil, fun _ m hm => by cases hm⟩
  | cons m ms ih =>
    rw [List.map_cons, List.nodup_cons] at hnodup
    constructor
    · intro h
      rw [List.forall_mem_cons] at h
      have hfirst : ∀ m' ∈ ms, m'.2 = m.1 → s.cell m'.2 = s.cell m.2 := by
        intro m' hm' heq
        -- the target of `m` is not written again, so `m'` reads what `m` has put there
        have hread := @assigns_source A V O _ _ object ms m' hm' hnodup.2 (heq ▸ hnodup.1)
          (assign object s m)
        rw [← h.2 m' hm', assigns_cons, hread, heq, assign_cell, Function.update_self]
      refine @clear_cons_of_tail A V O _ _ object s ms m hfirst ((ih hnodup.2 _).mp fun m' hm' => ?_)
      have hsource : (assign object s m).cell m'.2 = s.cell m'.2 := by
        rw [assign_cell]
        by_cases heq : m'.2 = m.1
        · rw [heq, Function.update_self, ← hfirst m' hm' heq, heq]
        · exact Function.update_of_ne heq _ _
      rw [hsource]
      exact h.2 m' hm'
    · intro h
      rw [List.forall_mem_cons, assigns_cons]
      constructor
      · rw [assigns_frame hnodup.1, assign_cell, Function.update_self]
      · intro m' hm'
        rw [(ih hnodup.2 _).mpr h.tail m' hm', h.source hm']

omit [DecidableEq O] in
theorem together_of_mem {m : A × A} (hnodup : (ms.map Prod.fst).Nodup) (hm : m ∈ ms)
    (s : Store A V O) : together s ms m.1 = s.cell m.2 := by
  have hfind : ms.find? (fun m' => m'.1 = m.1) = some m := by
    induction ms with
    | nil => cases hm
    | cons m' ms ih =>
      rw [List.map_cons, List.nodup_cons] at hnodup
      rw [List.find?_cons]
      rcases List.mem_cons.mp hm with rfl | hlater
      · rw [decide_eq_true rfl]
      · have hne : m'.1 ≠ m.1 := fun heq => hnodup.1 (heq ▸ List.mem_map_of_mem hlater)
        rw [decide_eq_false hne, ih hnodup.2 hlater]
  rw [together, hfind]

omit [DecidableEq O] in
theorem together_of_not_mem {p : A} (hp : p ∉ ms.map Prod.fst) (s : Store A V O) :
    together s ms p = s.cell p := by
  have hfind : ms.find? (fun m' => m'.1 = p) = none := by
    refine List.find?_eq_none.mpr fun m hm => ?_
    rw [decide_eq_true_eq]
    rintro rfl
    exact hp (List.mem_map_of_mem hm)
  rw [together, hfind]

/-- One after the other they come to the same as at once, exactly if they are
clear. -/
theorem assigns_eq_together_iff (hnodup : (ms.map Prod.fst).Nodup) (s : Store A V O) :
    (assigns object s ms).cell = together s ms ↔ Clear s ms := by
  rw [← @assigns_sources_iff A V O _ _ object ms hnodup]
  constructor
  · intro h m hm
    rw [h, together_of_mem hnodup hm]
  · intro h
    funext p
    by_cases hp : p ∈ ms.map Prod.fst
    · rcases List.mem_map.mp hp with ⟨m, hm, rfl⟩
      rw [h m hm, together_of_mem hnodup hm]
    · rw [assigns_frame hp, together_of_not_mem hp]

/-- The first assignment is done, the others are left. -/
theorem leftAfter_succ {m : A × A} (hnodup : ((m :: ms).map Prod.fst).Nodup) (h : Clear s (m :: ms))
    (n : Nat) (o : O) :
    leftAfter object s (m :: ms) (n + 1) o = leftAfter object (assign object s m) ms n o := by
  rw [List.map_cons, List.nodup_cons] at hnodup
  have hsources : (ms.take (n + 1)).map (fun m' => (assign object s m).cell m'.2) =
      (ms.take (n + 1)).map fun m' => s.cell m'.2 :=
    List.map_congr_left fun m' hm' => h.source (List.mem_of_mem_take hm')
  have htargets : (ms.take (n + 1)).map (fun m' => (assign object s m).cell m'.1) =
      (ms.take (n + 1)).map fun m' => s.cell m'.1 := by
    refine List.map_congr_left fun m' hm' => ?_
    refine Function.update_of_ne (fun heq => hnodup.1 ?_) _ _
    exact heq ▸ List.mem_map_of_mem (List.mem_of_mem_take hm')
  rw [leftAfter, leftAfter, hsources, htargets, assign_count, List.take_succ_cons, List.map_cons,
    List.map_cons, held_cons, held_cons]
  push_cast
  omega

/-- Which objects the assignments free. -/
theorem mem_freed_assigns (hnodup : (ms.map Prod.fst).Nodup) (h : Clear s ms) (o : O) :
    o ∈ (assigns object s ms).freed ↔ o ∈ s.freed ∨
      ∃ n m, ms[n]? = some m ∧ object (s.cell m.1) = some o ∧ leftAfter object s ms n o = 0 := by
  induction ms generalizing s with
  | nil =>
    constructor
    · exact Or.inl
    · rintro (hold | ⟨n, m, hm, -⟩)
      · exact hold
      · cases hm
  | cons m ms ih =>
    have hnodup' := hnodup
    rw [List.map_cons, List.nodup_cons] at hnodup'
    have hhere : leftAfter object s (m :: ms) 0 o = (assign object s m).count o := by
      rw [leftAfter, assign_count, List.take_succ_cons, List.take_zero, List.map_cons, List.map_cons,
        held_cons, held_cons]
      simp [held]
    have htarget {n : Nat} {m' : A × A} (hm' : ms[n]? = some m') :
        (assign object s m).cell m'.1 = s.cell m'.1 := by
      refine Function.update_of_ne (fun heq => hnodup'.1 ?_) _ _
      exact heq ▸ List.mem_map_of_mem (List.mem_of_getElem? hm')
    rw [assigns_cons, ih hnodup'.2 h.tail, mem_freed_assign, ← hhere, or_assoc]
    refine or_congr Iff.rfl ?_
    constructor
    · rintro (⟨hold, hzero⟩ | ⟨n, m', hm', hold, hzero⟩)
      · exact ⟨0, m, rfl, hold, hzero⟩
      · rw [htarget hm'] at hold
        rw [← leftAfter_succ hnodup h] at hzero
        exact ⟨n + 1, m', hm', hold, hzero⟩
    · rintro ⟨n, m', hm', hold, hzero⟩
      cases n with
      | zero =>
        obtain rfl : m = m' := Option.some_inj.mp hm'
        exact Or.inl ⟨hold, hzero⟩
      | succ n =>
        have hm'' : ms[n]? = some m' := hm'
        rw [leftAfter_succ hnodup h] at hzero
        exact Or.inr ⟨n, m', hm'', by rw [htarget hm'', hold], hzero⟩

/-- No object that is in one of the cells afterwards is freed. -/
theorem assigns_spared_iff (hnodup : (ms.map Prod.fst).Nodup) (h : Clear s ms) (hfreed : s.freed = [])
    (cells : List A) :
    (∀ o ∈ (assigns object s ms).freed, ∀ p ∈ cells,
      object ((assigns object s ms).cell p) ≠ some o) ↔ Spared object s ms cells := by
  rw [(assigns_eq_together_iff hnodup s).mpr h]
  constructor
  · intro hall n m hm o hold hzero
    refine hall o ((mem_freed_assigns hnodup h o).mpr (Or.inr ⟨n, m, hm, hold, hzero⟩))
  · intro hspared o ho
    rcases (mem_freed_assigns hnodup h o).mp ho with hbefore | ⟨n, m, hm, hold, hzero⟩
    · rw [hfreed] at hbefore
      cases hbefore
    · exact hspared n m hm o hold hzero

/-- The count after some of the assignments. -/
theorem count_take (hnodup : (ms.map Prod.fst).Nodup) (h : Clear s ms) (n : Nat) (hn : n < ms.length)
    (o : O) : (assigns object s (ms.take (n + 1))).count o = leftAfter object s ms n o := by
  induction ms generalizing s n with
  | nil => cases hn
  | cons m ms ih =>
    have hnodup' := hnodup
    rw [List.map_cons, List.nodup_cons] at hnodup'
    rw [List.take_succ_cons, assigns_cons]
    cases n with
    | zero =>
      rw [List.take_zero, assigns_nil, leftAfter, assign_count, List.take_succ_cons, List.take_zero,
        List.map_cons, List.map_cons, held_cons, held_cons]
      simp [held]
    | succ n =>
      rw [leftAfter_succ hnodup h]
      exact ih hnodup'.2 h.tail n (Nat.lt_of_succ_lt_succ hn)

/-- Nothing that stays is freed where every reference in the cells is counted. -/
theorem spared_of_counted (hnodup : (ms.map Prod.fst).Nodup) (h : Clear s ms) (hcells : cells.Nodup)
    (htargets : ∀ m ∈ ms, m.1 ∈ cells) (hsources : ∀ m ∈ ms, m.2 ∈ cells)
    (hcounted : ∀ o, (held object (cells.map s.cell) o : Int) ≤ s.count o) :
    Spared object s ms cells := by
  intro n m hm o hold hzero p hp hstored
  have hn : n < ms.length := by
    by_contra hge
    rw [List.getElem?_eq_none (by omega)] at hm
    cases hm
  have htake : ∀ m' ∈ ms.take (n + 1), m' ∈ ms := fun m' hm' => List.mem_of_mem_take hm'
  have hnodup' : ((ms.take (n + 1)).map Prod.fst).Nodup := by
    rw [List.map_take]
    exact hnodup.sublist (List.take_sublist _ _)
  have hclear' : Clear s (ms.take (n + 1)) := h.sublist (List.take_sublist _ _)
  have hbalance := @assigns_balance A V O _ _ object _ cells hcells
    (fun m' hm' => htargets m' (htake m' hm')) s o
  rw [count_take hnodup h n hn, hzero] at hbalance
  -- at this moment the object is in one of the cells still
  have hnow : ∃ q ∈ cells, object ((assigns object s (ms.take (n + 1))).cell q) = some o := by
    rw [(assigns_eq_together_iff hnodup' s).mpr hclear']
    by_cases hlater : ∃ m' ∈ ms, m'.1 = p ∧ m' ∉ ms.take (n + 1)
    · rcases hlater with ⟨m', hm', rfl, hnot⟩
      rw [together_of_mem hnodup hm'] at hstored
      refine ⟨m'.2, hsources m' hm', ?_⟩
      by_cases hover : m'.2 ∈ (ms.take (n + 1)).map Prod.fst
      · rcases List.mem_map.mp hover with ⟨m₀, hm₀, heq⟩
        rw [← heq, together_of_mem hnodup' hm₀]
        have hpair : ∀ m₁ ∈ ms.take (n + 1), ∀ m₂ ∈ ms.drop (n + 1),
            m₂.2 = m₁.1 → s.cell m₂.2 = s.cell m₁.2 := by
          have hall := h
          rw [Clear, ← List.take_append_drop (n + 1) ms, List.pairwise_append] at hall
          exact hall.2.2
        have hdrop : m' ∈ ms.drop (n + 1) := by
          rw [← List.take_append_drop (n + 1) ms, List.mem_append] at hm'
          exact hm'.resolve_left hnot
        rw [← hpair m₀ hm₀ m' hdrop heq.symm]
        exact hstored
      · rw [together_of_not_mem hover]
        exact hstored
    · refine ⟨p, hp, ?_⟩
      by_cases hdone : p ∈ (ms.take (n + 1)).map Prod.fst
      · rcases List.mem_map.mp hdone with ⟨m', hm', rfl⟩
        rw [together_of_mem hnodup' hm']
        rwa [together_of_mem hnodup (htake m' hm')] at hstored
      · have hnever : p ∉ ms.map Prod.fst := by
          intro hmem
          rcases List.mem_map.mp hmem with ⟨m', hm', rfl⟩
          exact hlater ⟨m', hm', rfl, fun hin => hdone (List.mem_map_of_mem hin)⟩
        rw [together_of_not_mem hdone]
        rwa [together_of_not_mem hnever] at hstored
  rcases hnow with ⟨q, hq, ho⟩
  have hpos := held_pos (List.mem_map_of_mem (f := (assigns object s (ms.take (n + 1))).cell) hq) ho
  have hcount := hcounted o
  omega

end Run

end SuperExe.Lib.Cells
