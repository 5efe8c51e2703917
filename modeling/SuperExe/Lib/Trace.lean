import Mathlib.Data.List.Basic

/-! # Runs of an event-driven machine

A machine handles one event at a time. Everything here is about a whole run:
the states it passes through, the steps it takes, and the two rules the
developments below use — an invariant carried along a run whose steps all meet
a guard, and the exactness rule, which says that the guard is also necessary
when a step outside it breaks the property at once.
-/

namespace SuperExe.Lib

universe u v

/-- A deterministic machine: one state after each event. -/
structure Machine (σ : Type u) (ε : Type v) where
  step : σ → ε → σ

namespace Machine

variable {σ : Type u} {ε : Type v} (M : Machine σ ε)

/-- The state a run ends in. -/
def run (s : σ) : List ε → σ
  | [] => s
  | e :: es => run (M.step s e) es

/-- Every step of the run is taken from a state in which `G` allows it. -/
def AllSteps (G : σ → ε → Prop) (s : σ) : List ε → Prop
  | [] => True
  | e :: es => G s e ∧ AllSteps G (M.step s e) es

/-- Every state of the run, the first and the last included, satisfies `P`. -/
def AllStates (P : σ → Prop) (s : σ) : List ε → Prop
  | [] => P s
  | e :: es => P s ∧ AllStates P (M.step s e) es

instance decAllSteps (G : σ → ε → Prop) [∀ s e, Decidable (G s e)] (s : σ) :
    (es : List ε) → Decidable (M.AllSteps G s es)
  | [] => .isTrue trivial
  | e :: es =>
    have := decAllSteps G (M.step s e) es
    inferInstanceAs (Decidable (G s e ∧ M.AllSteps G (M.step s e) es))

@[simp] theorem run_nil (s : σ) : M.run s [] = s := rfl

@[simp] theorem run_cons (s : σ) (e : ε) (es : List ε) :
    M.run s (e :: es) = M.run (M.step s e) es := rfl

theorem run_append (s : σ) (es fs : List ε) :
    M.run s (es ++ fs) = M.run (M.run s es) fs := by
  induction es generalizing s with
  | nil => rfl
  | cons e es ih => exact ih (M.step s e)

/-- A run of `n + 1` events is a run of `n` events and one more step. -/
theorem run_concat (s : σ) (es : List ε) (e : ε) :
    M.run s (es ++ [e]) = M.step (M.run s es) e := by
  rw [run_append]
  rfl

variable {M}

theorem AllStates.first {P : σ → Prop} {s : σ} {es : List ε} (h : M.AllStates P s es) :
    P s := by
  cases es with
  | nil => exact h
  | cons e es => exact h.1

theorem AllStates.last {P : σ → Prop} {s : σ} {es : List ε} (h : M.AllStates P s es) :
    P (M.run s es) := by
  induction es generalizing s with
  | nil => exact h
  | cons e es ih => exact ih h.2

theorem AllStates.mono {P Q : σ → Prop} (hPQ : ∀ s, P s → Q s) {s : σ} {es : List ε}
    (h : M.AllStates P s es) : M.AllStates Q s es := by
  induction es generalizing s with
  | nil => exact hPQ s h
  | cons e es ih => exact ⟨hPQ s h.1, ih h.2⟩

theorem AllSteps.mono {G H : σ → ε → Prop} (hGH : ∀ s e, G s e → H s e) {s : σ}
    {es : List ε} (h : M.AllSteps G s es) : M.AllSteps H s es := by
  induction es generalizing s with
  | nil => trivial
  | cons e es ih => exact ⟨hGH s e h.1, ih h.2⟩

theorem AllSteps.and {G H : σ → ε → Prop} {s : σ} {es : List ε} (hG : M.AllSteps G s es)
    (hH : M.AllSteps H s es) : M.AllSteps (fun s e => G s e ∧ H s e) s es := by
  induction es generalizing s with
  | nil => trivial
  | cons e es ih => exact ⟨⟨hG.1, hH.1⟩, ih hG.2 hH.2⟩

/-- A guard on the events alone. -/
theorem allSteps_of_forall_mem (M : Machine σ ε) {G : σ → ε → Prop} (s : σ) {es : List ε}
    (h : ∀ e ∈ es, ∀ s, G s e) : M.AllSteps G s es := by
  induction es generalizing s with
  | nil => trivial
  | cons e es ih =>
    exact ⟨h e (by simp) s, ih (M.step s e) fun e' he' => h e' (List.mem_cons_of_mem e he')⟩

variable (M)

/-- The invariant rule: an invariant that every guarded step preserves holds
in every state of a run whose steps are all guarded. -/
theorem allStates_of_allSteps {I : σ → Prop} {G : σ → ε → Prop}
    (hstep : ∀ s e, I s → G s e → I (M.step s e)) {s : σ} (hs : I s) {es : List ε}
    (hG : M.AllSteps G s es) : M.AllStates I s es := by
  induction es generalizing s with
  | nil => exact hs
  | cons e es ih => exact ⟨hs, ih (hstep s e hs hG.1) hG.2⟩

/-- What every guarded step does from an invariant state, every step of a run
does. -/
theorem allSteps_of_invariant {I : σ → Prop} {G Q : σ → ε → Prop}
    (hstep : ∀ s e, I s → G s e → I (M.step s e)) (hQ : ∀ s e, I s → G s e → Q s e) {s : σ}
    (hs : I s) {es : List ε} (hG : M.AllSteps G s es) : M.AllSteps Q s es := by
  induction es generalizing s with
  | nil => trivial
  | cons e es ih => exact ⟨hQ s e hs hG.1, ih (hstep s e hs hG.1) hG.2⟩

/-- A property of the steps and a guard that is as strong as it, where an invariant holds
that guarded steps keep, hold of the same runs. -/
theorem allSteps_iff_of_invariant {I : σ → Prop} {G Q : σ → ε → Prop}
    (hstep : ∀ s e, I s → G s e → I (M.step s e)) (hiff : ∀ s e, I s → (Q s e ↔ G s e)) {s : σ}
    (hs : I s) (es : List ε) : M.AllSteps Q s es ↔ M.AllSteps G s es := by
  induction es generalizing s with
  | nil => exact Iff.rfl
  | cons e es ih =>
    rw [AllSteps, AllSteps, hiff s e hs]
    exact and_congr_right fun hg => ih (hstep s e hs hg)

/-- The exactness rule: let the environment promise `K` for every step. If the
steps `G` allows preserve `I`, `I` implies `P`, and a step that `G` forbids
leads from `I` out of `P`, then the runs that stay in `P` are exactly the runs
whose steps `G` all allows. -/
theorem allStates_iff_allSteps_of_env {I P : σ → Prop} {K G : σ → ε → Prop}
    (hIP : ∀ s, I s → P s)
    (hstep : ∀ s e, I s → K s e → G s e → I (M.step s e))
    (hbad : ∀ s e, I s → K s e → ¬ G s e → ¬ P (M.step s e)) {s : σ} (hs : I s)
    {es : List ε} (hK : M.AllSteps K s es) : M.AllStates P s es ↔ M.AllSteps G s es := by
  induction es generalizing s with
  | nil => exact ⟨fun _ => trivial, fun _ => hIP s hs⟩
  | cons e es ih =>
    obtain ⟨hk, hK⟩ := hK
    constructor
    · intro h
      have hg : G s e := by
        by_contra hng
        exact hbad s e hs hk hng h.2.first
      exact ⟨hg, (ih (hstep s e hs hk hg) hK).mp h.2⟩
    · intro h
      exact ⟨hIP s hs, (ih (hstep s e hs hk h.1) hK).mpr h.2⟩

theorem allSteps_true (s : σ) (es : List ε) : M.AllSteps (fun _ _ => True) s es := by
  induction es generalizing s with
  | nil => trivial
  | cons e es ih => exact ⟨trivial, ih _⟩

/-- The exactness rule without an environment. -/
theorem allStates_iff_allSteps {I P : σ → Prop} {G : σ → ε → Prop}
    (hIP : ∀ s, I s → P s)
    (hstep : ∀ s e, I s → G s e → I (M.step s e))
    (hbad : ∀ s e, I s → ¬ G s e → ¬ P (M.step s e)) {s : σ} (hs : I s)
    (es : List ε) : M.AllStates P s es ↔ M.AllSteps G s es :=
  M.allStates_iff_allSteps_of_env hIP (fun s e h _ => hstep s e h) (fun s e h _ => hbad s e h)
    hs (M.allSteps_true s es)

end Machine

end SuperExe.Lib
