import SuperExe.Elastos.ArrayCopy

/-! # Which elements a copy touches

The destination is never left: an offset whose bytes wrap to a small number
leaves a negative number of elements. The length of the source is not looked at.
-/

namespace SuperExe.Elastos

open SuperExe.Core SuperExe.Lib.Cells

universe v w

section Bounds

variable {V : Type v} {O : Type w} [DecidableEq O] {T : ElementType V O} {dst src : ArrayOf}
  {offset srcOffset count : Int} {s : Store Int V O}

/-- The call answers a negative number and changes nothing, or it reads elements
of the source, writes elements of the destination and answers how many; an
element that is copied to itself is not touched. -/
def StaysInside (T : ElementType V O) (dst : ArrayOf) (offset : Int) (src : ArrayOf)
    (srcOffset : Int) (s : Store Int V O) (outcome : Outcome V O) : Prop :=
  ∃ result s', outcome = .returned result s' ∧
    (result < 0 ∧ s' = s ∨
      (∀ m ∈ s'.log, m.1 ∈ cells T dst ∧ m.2 ∈ cells T src) ∧
        (result = s'.log.length ∨ (dst.mBuf = src.mBuf ∧ offset = srcOffset) ∧ s' = s))

/-- The `assert` of `PlainCopy` holds or is not compiled. -/
def AssertHolds (T : ElementType V O) (ndebug : Bool) (dst : ArrayOf) (offset : Int) (src : ArrayOf)
    (srcOffset count : Int) : Prop :=
  ndebug = true ∨ T.kind = .classPointer ∨
    src.mBuf ≠ 0 ∧ 0 ≤ srcOffset ∧ 0 ≤ copyCount T dst offset count

/-- Nothing is left to copy, the elements are copied to themselves, or the source
range is in the source. -/
def SourceInside (T : ElementType V O) (dst : ArrayOf) (offset : Int) (src : ArrayOf)
    (srcOffset count : Int) : Prop :=
  copyCount T dst offset count ≤ 0 ∨ (dst.mBuf = src.mBuf ∧ offset = srcOffset) ∨
    0 ≤ srcOffset ∧ srcOffset + copyCount T dst offset count ≤ src.length T

/-- Without it the program ends. -/
theorem quintetObjectCopyOp_aborted {ndebug : Bool}
    (hrefused : ¬ refused T dst offset src.mBuf srcOffset count)
    (hassert : ¬ AssertHolds T ndebug dst offset src srcOffset count) :
    quintetObjectCopyOp T ndebug dst offset src.mBuf srcOffset count s = .aborted := by
  rw [AssertHolds, not_or, not_or] at hassert
  rcases hassert with ⟨hdebug, hkind, hargs⟩
  have hplain : plainCopy T ndebug dst.mBuf offset src.mBuf srcOffset
      (copyCount T dst offset count) s = .aborted := by
    refine if_pos ⟨hdebug, ?_⟩
    rintro ⟨-, -, hsrc, hoff, hcount⟩
    exact hargs ⟨hsrc, hoff, hcount⟩
  rw [quintetObjectCopyOp, if_neg hrefused]
  cases hcase : T.kind with
  | classPointer => exact (hkind hcase).elim
  | plain => exact hplain
  | autoPtr => exact hplain
  | string => exact hplain

omit [DecidableEq O] in
theorem length_moves : (moves T dst offset src srcOffset count).length =
    (copyCount T dst offset count).toNat := by
  simp only [moves]
  split <;> simp [pairs]

omit [DecidableEq O] in
/-- The destination is never left. -/
theorem target_mem (hoff : 0 ≤ offset) {m : Int × Int}
    (hm : m ∈ moves T dst offset src srcOffset count) : m.1 ∈ cells T dst := by
  rcases mem_moves.mp hm with ⟨i, hi, rfl⟩
  have hle : copyCount T dst offset count ≤ dst.length T - offset := Int.min_le_right _ _
  refine mem_cells.mpr ⟨(offset + i).toNat, by omega, ?_⟩
  rw [Int.toNat_of_nonneg (by omega)]

omit [DecidableEq O] in
/-- The source is not left exactly if its range is inside. -/
theorem sources_mem_iff (hpos : 0 < copyCount T dst offset count) :
    (∀ m ∈ moves T dst offset src srcOffset count, m.2 ∈ cells T src) ↔
      0 ≤ srcOffset ∧ srcOffset + copyCount T dst offset count ≤ src.length T := by
  constructor
  · intro h
    have hfirst := h _ (mem_moves.mpr ⟨0, by omega, rfl⟩)
    have hlast := h _ (mem_moves.mpr ⟨(copyCount T dst offset count).toNat - 1, by omega, rfl⟩)
    rcases mem_cells.mp hfirst with ⟨i, hi, hfirst⟩
    rcases mem_cells.mp hlast with ⟨j, hj, hlast⟩
    have heq := addr_inj hfirst
    have heq' := addr_inj hlast
    omega
  · rintro ⟨hlow, hhigh⟩ m hm
    rcases mem_moves.mp hm with ⟨i, hi, rfl⟩
    refine mem_cells.mpr ⟨(srcOffset + i).toNat, by omega, ?_⟩
    rw [Int.toNat_of_nonneg (by omega)]

/-- For all arrays, all offsets and counts of 32 bits and every kind of element:
the call stays inside exactly if it is refused, or the `assert` holds and the
source range is inside. -/
theorem copy_inside_iff (T : ElementType V O) (ndebug : Bool) (dst : ArrayOf) (offset : Int32)
    (src : ArrayOf) (srcOffset count : Int32) (cell : Int → V) (refs : O → Int) :
    StaysInside T dst offset.toInt src srcOffset.toInt (start cell refs)
        (copy T ndebug dst offset src srcOffset count (start cell refs)) ↔
      refused T dst offset.toInt src.mBuf srcOffset.toInt count.toInt ∨
        AssertHolds T ndebug dst offset.toInt src srcOffset.toInt count.toInt ∧
        SourceInside T dst offset.toInt src srcOffset.toInt count.toInt := by
  unfold copy
  generalize offset.toInt = offset
  generalize srcOffset.toInt = srcOffset
  generalize count.toInt = count
  -- a call that is refused touches nothing
  by_cases hrefused : refused T dst offset src.mBuf srcOffset count
  · rw [quintetObjectCopyOp, if_pos hrefused]
    constructor
    · intro _
      exact Or.inl hrefused
    · intro _
      exact ⟨-1, _, rfl, Or.inl ⟨by decide, rfl⟩⟩
  -- in a debug build the assertions can stop it
  by_cases hassert : AssertHolds T ndebug dst offset src srcOffset count
  · have hoff : 0 ≤ offset := by
      by_contra hneg
      exact hrefused (Or.inr (Or.inr (Or.inr (Or.inl (by omega)))))
    -- behind both only the place of the source decides
    have hiff : refused T dst offset src.mBuf srcOffset count ∨
        AssertHolds T ndebug dst offset src srcOffset count ∧
          SourceInside T dst offset src srcOffset count ↔
        SourceInside T dst offset src srcOffset count := by
      constructor
      · rintro (h | ⟨-, h⟩)
        · exact (hrefused h).elim
        · exact h
      · exact fun h => Or.inr ⟨hassert, h⟩
    rw [hiff, quintetObjectCopyOp_eq ndebug _ hrefused hassert]
    -- a copy onto itself moves nothing either
    by_cases hsame : dst.mBuf = src.mBuf ∧ offset = srcOffset
    · rw [if_pos hsame]
      constructor
      · intro _
        exact Or.inr (Or.inl hsame)
      · intro _
        refine ⟨_, _, rfl, Or.inr ⟨fun m hm => ?_, Or.inr ⟨hsame, rfl⟩⟩⟩
        cases hm
    · rw [if_neg hsame]
      have hlog : (assigns (counted T) (start cell refs)
          (moves T dst offset src srcOffset count)).log =
          moves T dst offset src srcOffset count := assigns_log _ _
      -- the moves are there only if the count is positive
      by_cases hpos : 0 < copyCount T dst offset count
      · constructor
        · rintro ⟨result, s', hout, hinside⟩
          cases hout
          rcases hinside with ⟨hneg, -⟩ | ⟨hall, -⟩
          · omega
          · rw [hlog] at hall
            exact Or.inr (Or.inr ((sources_mem_iff hpos).mp fun m hm => (hall m hm).2))
        · rintro (hnone | h | hrange)
          · omega
          · exact (hsame h).elim
          · refine ⟨_, _, rfl, Or.inr ⟨?_, Or.inl ?_⟩⟩
            · rw [hlog]
              intro m hm
              exact ⟨target_mem hoff hm, (sources_mem_iff hpos).mpr hrange m hm⟩
            · rw [hlog, length_moves]
              omega
      · -- there is no room behind the offset, or its bytes have wrapped
        have hnone : moves T dst offset src srcOffset count = [] := moves_of_nonpos (by omega)
        constructor
        · intro _
          exact Or.inl (by omega)
        · intro _
          rw [hnone, assigns_nil]
          by_cases hzero : copyCount T dst offset count = 0
          · refine ⟨_, _, rfl, Or.inr ⟨fun m hm => (List.not_mem_nil hm).elim, Or.inl ?_⟩⟩
            rw [hzero]
            rfl
          · exact ⟨_, _, rfl, Or.inl ⟨by omega, rfl⟩⟩
  · rw [quintetObjectCopyOp_aborted hrefused hassert]
    constructor
    · rintro ⟨result, s', hout, -⟩
      cases hout
    · rintro (h | ⟨h, -⟩)
      · exact (hrefused h).elim
      · exact (hassert h).elim

end Bounds

/-- Three elements are asked of an array of two. -/
theorem copy_reads_behind :
    ¬ StaysInside pointerType threeElements 0 lastElements 0 (start Int.toNat fun _ => 3)
      (copy pointerType true threeElements 0 lastElements 0 3 (start Int.toNat fun _ => 3)) := by
  rintro ⟨result, s', hout, hinside⟩
  have hrefused : ¬ refused pointerType threeElements 0 104 0 3 := by decide
  have hcopy := @quintetObjectCopyOp_eq Nat Nat _ pointerType threeElements lastElements 0 0 3 true
    (start Int.toNat fun _ => 3) hrefused (Or.inl rfl)
  rw [if_neg (by decide)] at hcopy
  have hsame := hcopy.symm.trans hout
  cases hsame
  rcases hinside with ⟨hneg, -⟩ | ⟨hall, -⟩
  · exact absurd hneg (by decide)
  · rw [assigns_log] at hall
    have hin : (108, 112) ∈ moves pointerType threeElements 0 lastElements 0 3 := by decide
    exact absurd (hall _ (List.mem_append_right _ hin)).2 (by decide)

end SuperExe.Elastos
