import Mathlib.Data.List.Basic

/-! # Tables of computed values

A table of a few slots remembers values of a partial function. One key stands for
a slot that was never used. `Sound` says that every other slot holds the value
of its key; it does not matter which slot a new value goes to.
-/

namespace SuperExe.Lib.Memo

universe u v w

variable {κ : Type u} {ν : Type v} {ι : Type w}

/-- A slot: its key, its value and what is counted about it. -/
structure Slot (κ : Type u) (ν : Type v) (ι : Type w) where
  key : κ
  value : ν
  info : ι
deriving DecidableEq, Repr

/-- Every used slot holds the value of its key. -/
def Sound (f : κ → Option ν) (unused : κ) (slots : List (Slot κ ν ι)) : Prop :=
  ∀ slot ∈ slots, slot.key ≠ unused → f slot.key = some slot.value

section Rules

variable {f : κ → Option ν} {unused : κ} {slots : List (Slot κ ν ι)}

theorem sound_unused (slot : Slot κ ν ι) (h : slot.key = unused) (n : Nat) :
    Sound f unused (List.replicate n slot) := by
  intro slot' hmem hne
  rw [List.eq_of_mem_replicate hmem] at hne
  exact (hne h).elim

/-- What is found is the value. -/
theorem Sound.found (h : Sound f unused slots) {i : Nat} {slot : Slot κ ν ι}
    (hslot : slots[i]? = some slot) (hne : slot.key ≠ unused) : f slot.key = some slot.value :=
  h slot (List.mem_of_getElem? hslot) hne

/-- A slot takes the value of another key. -/
theorem Sound.set (h : Sound f unused slots) (i : Nat) {slot : Slot κ ν ι}
    (hslot : slot.key ≠ unused → f slot.key = some slot.value) : Sound f unused (slots.set i slot) := by
  intro slot' hmem hne
  rcases List.mem_or_eq_of_mem_set hmem with hold | rfl
  · exact h slot' hold hne
  · exact hslot hne

/-- What is counted does not matter. -/
theorem Sound.touch (h : Sound f unused slots) {i : Nat} {slot : Slot κ ν ι}
    (hslot : slots[i]? = some slot) (info : ι) :
    Sound f unused (slots.set i { slot with info }) := by
  refine h.set i fun hne => ?_
  have hfound := h.found hslot hne
  exact hfound

end Rules

end SuperExe.Lib.Memo
