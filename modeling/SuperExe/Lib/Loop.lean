import Mathlib.Tactic.Common

/-! # Loops that always end

A loop is a body that either goes on from a new state or halts with a value, and
a rank that falls with every turn. `run` is the value and the state it ends in;
it is computed with as much fuel as the rank gives, so it evaluates, and the two
equations `run_next` and `run_halt` are all that proofs need.

`resume` is about a loop that is entered a second time with more input: if every
turn of the first run can be replayed from the second loop's point of view, the
second loop does not notice that the first one has already done part of the
work.
-/

namespace SuperExe.Lib

universe u v

/-- What one turn of a loop does. -/
inductive Outcome (σ : Type u) (ρ : Type v) where
  | next (s : σ)
  | halt (r : ρ) (s : σ)

/-- The state a turn leaves, whether the loop goes on or not. -/
def Outcome.state {σ : Type u} {ρ : Type v} : Outcome σ ρ → σ
  | .next s => s
  | .halt _ s => s

structure Loop (σ : Type u) (ρ : Type v) where
  body : σ → Outcome σ ρ
  rank : σ → Nat
  falls : ∀ {s s'}, body s = .next s' → rank s' < rank s

namespace Loop

variable {σ : Type u} {ρ : Type v} (M : Loop σ ρ)

/-- At most `n` turns; `none` when that was not enough. -/
def turns : Nat → σ → Option (ρ × σ)
  | 0, _ => none
  | n + 1, s =>
    match M.body s with
    | .next s' => turns n s'
    | .halt r s' => some (r, s')

theorem turns_isSome {n : Nat} {s : σ} (h : M.rank s < n) : ∃ x, M.turns n s = some x := by
  induction n generalizing s with
  | zero => omega
  | succ n ih =>
    cases hb : M.body s with
    | halt r s' => exact ⟨(r, s'), by simp [turns, hb]⟩
    | next s' =>
      have hlt := M.falls hb
      obtain ⟨x, hx⟩ := ih (show M.rank s' < n by omega)
      exact ⟨x, by simp [turns, hb, hx]⟩

/-- The value and the state the loop ends in. -/
def run (s : σ) : ρ × σ :=
  match h : M.turns (M.rank s + 1) s with
  | some x => x
  | none => absurd h (by
      obtain ⟨x, hx⟩ := M.turns_isSome (Nat.lt_succ_self (M.rank s))
      simp [hx])

theorem turns_eq_run {n : Nat} {s : σ} (h : M.rank s < n) : M.turns n s = some (M.run s) := by
  have hrun : ∀ s, M.turns (M.rank s + 1) s = some (M.run s) := by
    intro s
    unfold run
    split
    · next x hx => exact hx
    · next hx =>
      obtain ⟨x, hx'⟩ := M.turns_isSome (Nat.lt_succ_self (M.rank s))
      simp [hx'] at hx
  have hmono : ∀ n s x, M.turns n s = some x → M.turns (n + 1) s = some x := by
    intro n
    induction n with
    | zero => simp [turns]
    | succ n ih =>
      intro s x hx
      unfold turns at hx ⊢
      cases hb : M.body s with
      | halt r s' => simpa [hb] using hx
      | next s' =>
        simp only [hb] at hx ⊢
        exact ih s' x hx
  have hadd : ∀ k, M.turns (M.rank s + 1 + k) s = some (M.run s) := by
    intro k
    induction k with
    | zero => exact hrun s
    | succ k ih => exact hmono _ s _ ih
  have := hadd (n - (M.rank s + 1))
  rwa [show M.rank s + 1 + (n - (M.rank s + 1)) = n by omega] at this

variable {M}

theorem run_next {s s' : σ} (h : M.body s = .next s') : M.run s = M.run s' := by
  have hlt := M.falls h
  have h1 := M.turns_eq_run (Nat.lt_succ_self (M.rank s))
  have h2 : M.turns (M.rank s + 1) s = M.turns (M.rank s) s' := by
    simp [turns, h]
  rw [h2, M.turns_eq_run hlt] at h1
  exact (Option.some.inj h1).symm

theorem run_halt {s s' : σ} {r : ρ} (h : M.body s = .halt r s') : M.run s = (r, s') := by
  have h1 := M.turns_eq_run (Nat.lt_succ_self (M.rank s))
  simpa [turns, h] using h1.symm

/-- Two states with the same turn have the same run. -/
theorem run_congr {s s' : σ} (h : M.body s = M.body s') : M.run s = M.run s' := by
  cases hb : M.body s' with
  | next t => rw [run_next (h.trans hb), run_next hb]
  | halt r t => rw [run_halt (h.trans hb), run_halt hb]

/-- Induction along a run: the last turn, or one turn before a run. -/
theorem run_induction {P : σ → Prop}
    (halt : ∀ s r s', M.body s = .halt r s' → P s)
    (next : ∀ s s', M.body s = .next s' → P s' → P s) (s : σ) : P s := by
  induction hn : M.rank s using Nat.strongRecOn generalizing s with
  | ind n ih =>
    cases hb : M.body s with
    | halt r s' => exact halt s r s' hb
    | next s' =>
      have hlt := M.falls hb
      exact next s s' hb (ih _ (hn ▸ hlt) s' rfl)

/-- An invariant of the turns holds where the run ends. -/
theorem run_invariant {I : σ → Prop} {Q : ρ → σ → Prop}
    (next : ∀ s s', I s → M.body s = .next s' → I s')
    (halt : ∀ s r s', I s → M.body s = .halt r s' → Q r s') {s : σ} (h : I s) :
    Q (M.run s).1 (M.run s).2 := by
  revert h
  refine run_induction (M := M) (P := fun s => I s → Q (M.run s).1 (M.run s).2) ?_ ?_ s
  · intro s r s' hb hI
    rw [run_halt hb]
    exact halt s r s' hI hb
  · intro s s' hb ih hI
    rw [run_next hb]
    exact ih (next s s' hI hb)

/-- Two runs of one loop: what relates the states and is kept by every turn relates
the ends, and the answers are the same. -/
theorem run_related {R : σ → σ → Prop}
    (next : ∀ s t s', R s t → M.body s = .next s' → ∃ t', M.body t = .next t' ∧ R s' t')
    (halt : ∀ s t r s', R s t → M.body s = .halt r s' → ∃ t', M.body t = .halt r t' ∧ R s' t')
    {s t : σ} (h : R s t) : (M.run t).1 = (M.run s).1 ∧ R (M.run s).2 (M.run t).2 := by
  revert t
  refine run_induction (M := M)
    (P := fun s => ∀ {t}, R s t → (M.run t).1 = (M.run s).1 ∧ R (M.run s).2 (M.run t).2) ?_ ?_ s
  · intro s r s' hb t h
    rcases halt s t r s' h hb with ⟨t', hb', h'⟩
    rw [run_halt hb, run_halt hb']
    exact ⟨rfl, h'⟩
  · intro s s' hb ih t h
    rcases next s t s' h hb with ⟨t', hb', h'⟩
    rw [run_next hb, run_next hb']
    exact ih h'

/-- A second loop takes over where the first one has stopped: if it can replay
every turn of the first, it ends as if it had started there. `C` is what the
turns need to know. -/
theorem resume {N : Loop σ ρ} {C : σ → Prop} {r : ρ} {e : σ}
    (next : ∀ s s', C s → M.body s = .next s' → M.run s' = (r, e) → N.run s = N.run s' ∧ C s')
    (halt : ∀ s, C s → M.body s = .halt r e → N.run s = N.run e) {s : σ} (hs : C s)
    (h : M.run s = (r, e)) : N.run s = N.run e := by
  revert hs h
  refine run_induction (M := M) (P := fun s => C s → M.run s = (r, e) → N.run s = N.run e) ?_ ?_ s
  · intro s r' s' hb hC h
    rw [run_halt hb] at h
    cases h
    exact halt s hC hb
  · intro s s' hb ih hC h
    rw [run_next hb] at h
    obtain ⟨heq, hC'⟩ := next s s' hC hb h
    exact heq.trans (ih hC' h)

variable (M)

/-- `P` holds in every state from which one of the first `n` turns starts. -/
def alongTurns (P : σ → Prop) : Nat → σ → Prop
  | 0, _ => True
  | n + 1, s =>
    P s ∧ match M.body s with
      | .next s' => alongTurns P n s'
      | .halt _ _ => True

/-- `P` holds in every state a turn of the run starts from. -/
def Along (P : σ → Prop) (s : σ) : Prop := M.alongTurns P (M.rank s + 1) s

instance decAlongTurns (P : σ → Prop) [DecidablePred P] :
    ∀ n s, Decidable (M.alongTurns P n s)
  | 0, _ => .isTrue trivial
  | n + 1, s =>
    have : Decidable (match M.body s with
        | .next s' => M.alongTurns P n s'
        | .halt _ _ => True) :=
      match M.body s with
      | .next s' => decAlongTurns P n s'
      | .halt _ _ => .isTrue trivial
    inferInstanceAs (Decidable (_ ∧ _))

instance decAlong (P : σ → Prop) [DecidablePred P] (s : σ) : Decidable (M.Along P s) :=
  M.decAlongTurns P _ s

variable {M} {P : σ → Prop}

theorem Along.here {s : σ} (h : M.Along P s) : P s := h.1

theorem alongTurns_of_le {n m : Nat} (hnm : n ≤ m) {s : σ} (h : M.alongTurns P m s) :
    M.alongTurns P n s := by
  induction n generalizing m s with
  | zero => trivial
  | succ n ih =>
    obtain ⟨m, rfl⟩ : ∃ k, m = k + 1 := ⟨m - 1, by omega⟩
    unfold alongTurns at h ⊢
    refine ⟨h.1, ?_⟩
    cases hb : M.body s with
    | halt r s' => trivial
    | next s' =>
      have h2 := h.2
      simp only [hb] at h2
      exact ih (by omega) h2

theorem Along.tail {s s' : σ} (h : M.Along P s) (hb : M.body s = .next s') : M.Along P s' := by
  have hlt := M.falls hb
  have h2 := h.2
  simp only [hb] at h2
  exact alongTurns_of_le (by omega) h2

/-- The rank gives enough turns. -/
theorem alongTurns_of_rank {n m : Nat} {s : σ} (hn : M.rank s < n) (h : M.alongTurns P n s) :
    M.alongTurns P m s := by
  induction n generalizing m s with
  | zero => omega
  | succ n ih =>
    cases m with
    | zero => trivial
    | succ m =>
      unfold alongTurns at h ⊢
      refine ⟨h.1, ?_⟩
      cases hb : M.body s with
      | halt r s' => trivial
      | next s' =>
        have hlt := M.falls hb
        have h2 := h.2
        simp only [hb] at h2
        exact ih (by omega) h2

theorem Along.intro {s : σ} (h : P s) (hnext : ∀ s', M.body s = .next s' → M.Along P s') :
    M.Along P s := by
  refine ⟨h, ?_⟩
  cases hb : M.body s with
  | halt r s' => trivial
  | next s' => exact alongTurns_of_rank (Nat.lt_succ_self _) (hnext s' hb)

/-- What holds along a run holds along a related one. -/
theorem Along.related {Q : σ → Prop} {R : σ → σ → Prop} (here : ∀ s t, R s t → P s → Q t)
    (next : ∀ s t t', R s t → M.body t = .next t' → ∃ s', M.body s = .next s' ∧ R s' t')
    {s t : σ} (hst : R s t) (h : M.Along P s) : M.Along Q t := by
  revert s
  refine run_induction (M := M) (P := fun t => ∀ {s}, R s t → M.Along P s → M.Along Q t) ?_ ?_ t
  · intro t r e hb s hst h
    refine Along.intro (here s t hst h.here) ?_
    intro t' hb'
    rw [hb] at hb'
    cases hb'
  · intro t t' hb ih s hst h
    refine Along.intro (here s t hst h.here) ?_
    intro t₁ hb₁
    rw [hb] at hb₁
    cases hb₁
    obtain ⟨s', hs', hst'⟩ := next s t t' hst hb
    exact ih hst' (h.tail hs')

end Loop

end SuperExe.Lib
