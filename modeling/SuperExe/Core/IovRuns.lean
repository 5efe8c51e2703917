import SuperExe.Core.Iov
import SuperExe.Lib.Trace

/-! # The books of an iov

`total_len` over whole sequences of `mk_iov_add`, `mk_iov_set_entry` and
`mk_iov_consume`. The contents are right in every run. `total_len` is right exactly as
long as each `mk_iov_consume` ends in the first entry that is not empty, or takes all
there is, and each `mk_iov_set_entry` fills an empty entry below `iov_idx`:
`iov_accounting_iff`.
-/

namespace SuperExe.Core

open SuperExe.Lib

variable {β : Type}

/-- `mk_iov_set_entry`. A store at `iov_idx` or above is not seen: the `mk_iov_add` that
gets there stores its own entry. -/
def mkIovSetEntry (iov : MkIov β) (buf : β) (off len idx : Nat) : MkIov β :=
  { iov with
    io := iov.io.set idx { iovBase := buf, iovOff := off, iovLen := len }
    totalLen := iov.totalLen + len }

/-! ## The machine -/

inductive IovCall (β : Type) where
  | add (buf : β) (off len : Nat)
  | setEntry (buf : β) (off len idx : Nat)
  | consume (bytes : Nat)
deriving DecidableEq, Repr

def iovMachine : Machine (MkIov β) (IovCall β) where
  step iov
    | .add buf off len => mkIovAdd iov buf off len
    | .setEntry buf off len idx => mkIovSetEntry iov buf off len idx
    | .consume bytes => mkIovConsume iov bytes

/-- There is room for the entry, and no more is consumed than is held. -/
def InBounds (iov : MkIov β) : IovCall β → Prop
  | .add _ _ _ => iov.io.length < iov.size
  | .setEntry _ _ _ idx => idx < iov.size
  | .consume bytes => bytes ≤ iov.len

/-- A `mk_iov_consume` drops what it is asked to from the front. -/
def ConsumesFront (iov : MkIov β) : IovCall β → Prop
  | .consume bytes => ∀ mem, (mkIovConsume iov bytes).bytes mem = (iov.bytes mem).drop bytes
  | _ => True

/-- The length of the first entry that is not empty. -/
def firstLen : List (IoVec β) → Nat
  | [] => 0
  | e :: es => if e.iovLen = 0 then firstLen es else e.iovLen

/-- The call changes `total_len` by what it changes the contents. -/
def Balanced (iov : MkIov β) : IovCall β → Prop
  | .add _ _ _ => True
  | .setEntry _ _ len idx =>
    (∀ e, iov.io[idx]? = some e → e.iovLen = 0) ∧ (iov.io.length ≤ idx → len = 0)
  | .consume bytes => bytes = iov.len ∨ bytes ≤ firstLen iov.io

instance (iov : MkIov β) : (call : IovCall β) → Decidable (InBounds iov call)
  | .add _ _ _ => inferInstanceAs (Decidable (_ < _))
  | .setEntry _ _ _ _ => inferInstanceAs (Decidable (_ < _))
  | .consume _ => inferInstanceAs (Decidable (_ ≤ _))

instance (iov : MkIov β) : (call : IovCall β) → Decidable (Balanced iov call)
  | .add _ _ _ => .isTrue trivial
  | .setEntry _ _ _ idx =>
    inferInstanceAs (Decidable ((∀ e ∈ iov.io[idx]?, e.iovLen = 0) ∧ (_ → _)))
  | .consume _ => inferInstanceAs (Decidable (_ ∨ _))

/-! ## One call -/

theorem entriesLen_set {es : List (IoVec β)} {idx : Nat} {d : IoVec β} (h : es[idx]? = some d)
    (e : IoVec β) : entriesLen (es.set idx e) + d.iovLen = entriesLen es + e.iovLen := by
  induction es generalizing idx with
  | nil => cases h
  | cons x es ih =>
    cases idx with
    | zero =>
      cases h
      simp only [List.set_cons_zero, entriesLen_cons]
      omega
    | succ idx =>
      have htail : entriesLen (es.set idx e) + d.iovLen = entriesLen es + e.iovLen := ih h
      simp only [List.set_cons_succ, entriesLen_cons]
      omega

theorem mkIovAdd_len (iov : MkIov β) (buf : β) (off len : Nat) :
    (mkIovAdd iov buf off len).len = iov.len + len := by
  simp [mkIovAdd, MkIov.len, entriesLen]

/-- The loop gives back all of `bytes` when no entry with something in it lies before
its end. -/
theorem consumeEntries_rest_eq (es : List (IoVec β)) (k : Nat) (hk : k ≤ entriesLen es) :
    (consumeEntries es k).2 = k ↔ k ≤ firstLen es := by
  induction es generalizing k with
  | nil =>
    simp only [consumeEntries, firstLen, true_iff]
    exact hk
  | cons e es ih =>
    rw [entriesLen_cons] at hk
    unfold consumeEntries firstLen
    rcases Nat.lt_trichotomy k e.iovLen with hlt | heq | hgt
    · rw [if_pos hlt, if_neg (by omega)]
      exact ⟨fun _ => Nat.le_of_lt hlt, fun _ => rfl⟩
    · rw [if_neg (by omega), if_pos heq]
      refine ⟨fun _ => ?_, fun _ => rfl⟩
      split
      · omega
      · exact Nat.le_of_eq heq
    · rw [if_neg (by omega), if_neg (by omega)]
      by_cases hzero : e.iovLen = 0
      · rw [if_pos hzero, hzero, Nat.sub_zero]
        exact ih k (by omega)
      · rw [if_neg hzero]
        have hle := consumeEntries_rest_le es (k - e.iovLen)
        simp only
        omega

theorem mkIovConsume_ok_iff {iov : MkIov β} (h : iov.Ok) {k : Nat} (hk : k ≤ iov.len) :
    (mkIovConsume iov k).Ok ↔ k = iov.len ∨ k ≤ firstLen iov.io := by
  have htotal := h.total
  have hlen := mkIovConsume_len (Nat.le_of_eq htotal.symm) hk
  have hrest := consumeEntries_rest_eq iov.io k hk
  have hle := consumeEntries_rest_le iov.io k
  constructor
  · intro hok
    have hok := hok.total
    rw [hlen] at hok
    unfold mkIovConsume at hok
    by_cases hall : iov.totalLen = k
    · exact .inl (hall.symm.trans htotal)
    · rw [if_neg hall] at hok
      simp only at hok
      exact .inr (hrest.mp (by omega))
  · intro hor
    constructor
    rw [hlen]
    unfold mkIovConsume
    by_cases hall : iov.totalLen = k
    · rw [if_pos hall]
      simp only
      omega
    · rw [if_neg hall]
      have hk : (consumeEntries iov.io k).2 = k := hrest.mpr (hor.resolve_left (by omega))
      simp only [hk]
      omega

theorem mkIovSetEntry_ok_iff {iov : MkIov β} (h : iov.Ok) (buf : β) (off len idx : Nat) :
    (mkIovSetEntry iov buf off len idx).Ok ↔
      (∀ e, iov.io[idx]? = some e → e.iovLen = 0) ∧ (iov.io.length ≤ idx → len = 0) := by
  have htotal : iov.totalLen = entriesLen iov.io := h.total
  have hok : (mkIovSetEntry iov buf off len idx).Ok ↔ iov.totalLen + len =
      entriesLen (iov.io.set idx { iovBase := buf, iovOff := off, iovLen := len }) :=
    ⟨fun hok => hok.total, fun heq => ⟨heq⟩⟩
  rw [hok]
  cases hget : iov.io[idx]? with
  | none =>
    -- the entry is stored where `writev` does not look
    have hout := List.getElem?_eq_none_iff.mp hget
    rw [List.set_eq_of_length_le hout]
    constructor
    · intro heq
      refine ⟨?_, fun _ => by omega⟩
      rintro e ⟨⟩
    · rintro ⟨-, hzero⟩
      have hzero := hzero hout
      omega
  | some d =>
    have hset : _ = entriesLen iov.io + len :=
      entriesLen_set hget { iovBase := buf, iovOff := off, iovLen := len }
    have hin := (List.getElem?_eq_some_iff.mp hget).1
    constructor
    · intro heq
      refine ⟨?_, fun hout => by omega⟩
      rintro e ⟨⟩
      omega
    · rintro ⟨hzero, -⟩
      have hzero := hzero d rfl
      omega

/-! ## Whole runs -/

/-- `total_len` is never below what is held. -/
theorem mkIov_bound_step (iov : MkIov β) (call : IovCall β) (h : iov.len ≤ iov.totalLen)
    (hin : InBounds iov call) :
    (iovMachine.step iov call).len ≤ (iovMachine.step iov call).totalLen := by
  cases call with
  | add buf off len =>
    have hlen := mkIovAdd_len iov buf off len
    simp only [iovMachine, hlen]
    exact Nat.add_le_add_right h len
  | consume k => exact mkIovConsume_bound h hin
  | setEntry buf off len idx =>
    simp only [iovMachine, mkIovSetEntry, MkIov.len]
    have h : entriesLen iov.io ≤ iov.totalLen := h
    cases hget : iov.io[idx]? with
    | none =>
      rw [List.set_eq_of_length_le (List.getElem?_eq_none_iff.mp hget)]
      omega
    | some d =>
      have hset : _ = entriesLen iov.io + len :=
        entriesLen_set hget { iovBase := buf, iovOff := off, iovLen := len }
      omega

theorem mkIov_ok_step {iov : MkIov β} {call : IovCall β} (h : iov.Ok) (hin : InBounds iov call) :
    (iovMachine.step iov call).Ok ↔ Balanced iov call := by
  cases call with
  | add buf off len => exact ⟨fun _ => trivial, fun _ => h.add buf off len⟩
  | setEntry buf off len idx => exact mkIovSetEntry_ok_iff h buf off len idx
  | consume k => exact mkIovConsume_ok_iff h hin

/-- In every run the contents are right; `total_len` is the length of the contents in
every state exactly when every call is balanced. -/
theorem iov_accounting_iff (null : β) (n offset : Nat) (calls : List (IovCall β))
    (h : iovMachine.AllSteps InBounds (mkIovInit null n offset) calls) :
    iovMachine.AllSteps ConsumesFront (mkIovInit null n offset) calls ∧
      (iovMachine.AllStates MkIov.Ok (mkIovInit null n offset) calls ↔
        iovMachine.AllSteps Balanced (mkIovInit null n offset) calls) := by
  have hinit := mkIovInit_ok null n offset
  constructor
  · refine iovMachine.allSteps_of_invariant (I := fun iov => iov.len ≤ iov.totalLen)
      mkIov_bound_step ?_ (Nat.le_of_eq hinit.total.symm) h
    intro iov call hbound hin
    cases call with
    | consume k => exact fun mem => mkIovConsume_bytes mem hbound hin
    | add => trivial
    | setEntry => trivial
  · exact iovMachine.allStates_iff_allSteps_of_env (K := InBounds) (G := Balanced) (fun _ hok => hok)
      (fun _ _ hok hin hbal => (mkIov_ok_step hok hin).mpr hbal)
      (fun _ _ hok hin hbad hok' => hbad ((mkIov_ok_step hok hin).mp hok')) hinit h

/-- Two slots, of which one is filled when half of what follows it has been sent. -/
def slotCalls : List (IovCall Unit) :=
  [.add () 0 3, .setEntry () 10 2 1, .consume 1, .setEntry () 20 4 0, .consume 4, .consume 4]

theorem iov_accounting_slotCalls :
    (iovMachine.AllSteps InBounds (mkIovInit () 4 2) slotCalls ∧
        iovMachine.AllSteps Balanced (mkIovInit () 4 2) slotCalls) ∧
      iovMachine.AllSteps ConsumesFront (mkIovInit () 4 2) slotCalls ∧
        iovMachine.AllStates MkIov.Ok (mkIovInit () 4 2) slotCalls := by
  have hin : iovMachine.AllSteps InBounds (mkIovInit () 4 2) slotCalls := by decide
  have hbal : iovMachine.AllSteps Balanced (mkIovInit () 4 2) slotCalls := by decide
  rcases iov_accounting_iff () 4 2 slotCalls hin with ⟨hfront, hok⟩
  exact ⟨⟨hin, hbal⟩, hfront, hok.mpr hbal⟩

/-- Four bytes of two entries, of three and of five bytes: four are left, and
`total_len` is seven. -/
theorem iov_accounting_across :
    ¬ ∀ calls : List (IovCall Unit), iovMachine.AllSteps InBounds (mkIovInit () 2 0) calls →
      iovMachine.AllStates MkIov.Ok (mkIovInit () 2 0) calls := by
  intro h
  have hok := (h [.add () 0 3, .add () 0 5, .consume 4] (by decide)).last.total
  revert hok
  decide

end SuperExe.Core
