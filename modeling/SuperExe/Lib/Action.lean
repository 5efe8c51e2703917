import Mathlib.Algebra.Group.Basic

/-! # Calls that leave a count changed

A call works on a state, and may not come back. What calls do to a count of the state
adds up: a call that opens something and a rest that closes it again leave the count as
it was, whichever way through the rest was taken (`Charges.bracket`).
-/

namespace SuperExe.Lib

universe u v w

/-- A call on a state: its answer and the state after it, if it comes back. -/
def Action (σ : Type u) (α : Type v) := σ → Option (α × σ)

namespace Action

variable {σ : Type u} {α β : Type v}

def bind (f : Action σ α) (g : α → Action σ β) : Action σ β := fun s =>
  (f s).bind fun r => g r.1 r.2

instance : Monad (Action σ) where
  pure a := fun s => some (a, s)
  bind := bind

/-- What a function reads of the state. -/
def gets (f : σ → α) : Action σ α := fun s => some (f s, s)

/-- The call changes the state and answers nothing. -/
def modify (f : σ → σ) : Action σ PUnit := fun s => some (⟨⟩, f s)

/-- The call never comes back. -/
def stuck : Action σ α := fun _ => none

@[simp] theorem pure_run (a : α) (s : σ) : (pure a : Action σ α) s = some (a, s) := rfl

@[simp] theorem bind_run (f : Action σ α) (g : α → Action σ β) (s : σ) :
    (f >>= g) s = (f s).bind fun r => g r.1 r.2 := rfl

@[simp] theorem gets_run (f : σ → α) (s : σ) : gets f s = some (f s, s) := rfl

@[simp] theorem modify_run (f : σ → σ) (s : σ) : modify f s = some (⟨⟩, f s) := rfl

@[simp] theorem stuck_run (s : σ) : (stuck : Action σ α) s = none := rfl

/-! ## Counts -/

section Charges

variable {G : Type w} [AddCommGroup G] (I : σ → Prop) (count : σ → G)

/-- When the call comes back from a state with the invariant, it has kept the invariant, and
the count has changed by `d`. -/
def Charges (f : Action σ α) (d : G) : Prop :=
  ∀ s a s', I s → f s = some (a, s') → I s' ∧ count s' = count s + d

/-- When the call comes back, the count is what it was. -/
def Keeps (f : Action σ α) : Prop := Charges I count f 0

variable {I} {count} {f : Action σ α} {g : α → Action σ β} {d e : G}

theorem Keeps.eq (h : Keeps I count f) {s s' : σ} {a : α} (hs : I s) (hrun : f s = some (a, s')) :
    count s' = count s := by
  rw [(h s a s' hs hrun).2, add_zero]

theorem keeps_pure (a : α) : Keeps I count (pure a : Action σ α) := by
  intro s b s' hs hrun
  cases hrun
  exact ⟨hs, (add_zero _).symm⟩

theorem keeps_gets (f : σ → α) : Keeps I count (gets f) := by
  intro s b s' hs hrun
  cases hrun
  exact ⟨hs, (add_zero _).symm⟩

theorem charges_modify {f : σ → σ} (hinv : ∀ s, I s → I (f s))
    (hcount : ∀ s, count (f s) = count s + d) : Charges I count (modify f) d := by
  intro s a s' hs hrun
  cases hrun
  exact ⟨hinv s hs, hcount s⟩

theorem charges_stuck : Charges I count (stuck : Action σ α) d := fun _ _ _ _ hrun => by cases hrun

/-- What two calls change adds up. -/
theorem Charges.bind (hf : Charges I count f d) (hg : ∀ a, Charges I count (g a) e) :
    Charges I count (f >>= g) (d + e) := by
  intro s b s'' hs hrun
  rw [bind_run, Option.bind_eq_some_iff] at hrun
  rcases hrun with ⟨⟨a, s'⟩, hfirst, hrest⟩
  rcases hf s a s' hs hfirst with ⟨hs', hd⟩
  rcases hg a s' b s'' hs' hrest with ⟨hs'', he⟩
  refine ⟨hs'', ?_⟩
  rw [he, hd, add_assoc]

/-- A step that keeps the count leaves it to the rest. -/
theorem Keeps.bind (hf : Keeps I count f) (hg : ∀ a, Charges I count (g a) e) :
    Charges I count (f >>= g) e := by
  have h := Charges.bind hf hg
  rwa [zero_add] at h

/-- What the first step opens, the rest closes on every way it takes. -/
theorem Charges.bracket (hf : Charges I count f d) (hg : ∀ a, Charges I count (g a) (-d)) :
    Keeps I count (f >>= g) := by
  have h := Charges.bind hf hg
  rwa [add_neg_cancel] at h

theorem charges_ite {p : Prop} [Decidable p] {f g : Action σ α} (hf : Charges I count f d)
    (hg : Charges I count g d) : Charges I count (if p then f else g) d := by
  split
  · exact hf
  · exact hg

/-- The count where every state has the invariant, and the invariant by itself. -/
theorem Charges.of_inv (hcount : Charges (fun _ => True) count f d)
    (hinv : ∀ s a s', I s → f s = some (a, s') → I s') : Charges I count f d := by
  intro s a s' hs hrun
  exact ⟨hinv s a s' hs hrun, (hcount s a s' trivial hrun).2⟩

end Charges

end Action

end SuperExe.Lib
