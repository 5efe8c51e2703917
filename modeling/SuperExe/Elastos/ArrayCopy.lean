import Mathlib.Data.List.Dedup
import SuperExe.Core.CString
import SuperExe.Lib.CountedCells

/-! # Copying between arrays

`ArrayOf::Copy` is meant to equal `System.Copy` of Java. It looks for an overlap
by the first addresses of the two arrays, so one of arrays that lie in one
another is not seen, and a copy of nothing is refused.
-/

namespace SuperExe.Elastos

open SuperExe.Core SuperExe.Lib.Cells

universe v w

/-! ## The code -/

/-- `CarQuintet`: the address of the first element, `0` for `NULL`, and the
bytes. -/
structure ArrayOf where
  mBuf : Int
  mSize : Int
  mBuf_nonneg : 0 ≤ mBuf
  mSize_nonneg : 0 ≤ mSize
  mSize_lt : mSize < 2 ^ 31
  null : mBuf = 0 → mSize = 0

/-- What the overloads of `QuintetObjectCopyOp` and the wrappers tell apart:
values that are stored only, pointers to a class with `AddRef` and `Release`,
`AutoPtr` and `String`. -/
inductive ElementKind where
  | plain
  | classPointer
  | autoPtr
  | string
deriving DecidableEq, Repr

/-- Whether the check of the offset compares bytes. -/
def ElementKind.checksBytes : ElementKind → Bool
  | .plain | .classPointer => true
  | .autoPtr | .string => false

/-- `T`: its kind, `sizeof(T)`, and the object that a value refers to. -/
structure ElementType (V : Type v) (O : Type w) where
  kind : ElementKind
  size : Nat
  size_pos : 0 < size
  object : V → Option O

section Code

variable {V : Type v} {O : Type w} [DecidableEq O] (T : ElementType V O)

/-- The object that an assignment of the elements counts. -/
def counted : V → Option O :=
  if T.kind = .plain then fun _ => none else T.object

/-- The address `p + i`. -/
def addr (p i : Int) : Int := p + i * T.size

/-- `GetLength` -/
def ArrayOf.length (a : ArrayOf) : Int := if a.mBuf = 0 then 0 else a.mSize / T.size

/-- `*dst++ = *src++` for `n` elements. -/
def copyUp (dst src : Int) : Nat → Store Int V O → Store Int V O
  | 0, s => s
  | n + 1, s => copyUp (addr T dst 1) (addr T src 1) n (assign (counted T) s (dst, src))

/-- `*(dst + i) = *(src + i)` for `i` from `n - 1` down to `0`. -/
def copyDown (dst src : Int) : Nat → Store Int V O → Store Int V O
  | 0, s => s
  | n + 1, s => copyDown dst src n (assign (counted T) s (addr T dst n, addr T src n))

/-- What a call comes to: an `assert` that does not hold, or a result. -/
inductive Outcome (V : Type v) (O : Type w) where
  | aborted
  | returned (result : Int) (s : Store Int V O)

/-- `isOverlap` -/
def isOverlap (dst dstOffset src srcOffset copyCount : Int) : Prop :=
  dst = src ∧ srcOffset < dstOffset ∧ dstOffset < toInt32 (srcOffset + copyCount)

instance (dst dstOffset src srcOffset copyCount : Int) :
    Decidable (isOverlap dst dstOffset src srcOffset copyCount) :=
  inferInstanceAs (Decidable (_ ∧ _))

/-- `CopyFunc` -/
def copyFunc (dstArray : ArrayOf) (dstOffset src srcOffset count : Int) (s : Store Int V O) :
    Outcome V O :=
  let dst := dstArray.mBuf
  let copyCount := min count (dstArray.length T - dstOffset)
  if dst = src ∧ dstOffset = srcOffset ∨ copyCount = 0 then .returned copyCount s
  else if isOverlap dst dstOffset src srcOffset copyCount then
    .returned copyCount
      (copyDown T (addr T dst dstOffset) (addr T src srcOffset) copyCount.toNat s)
  else
    .returned copyCount
      (copyUp T (addr T dst dstOffset) (addr T src srcOffset) copyCount.toNat s)

/-- `PlainCopy`; with `NDEBUG` its `assert` does nothing. -/
def plainCopy (ndebug : Bool) (dst dstOffset src srcOffset copyCount : Int) (s : Store Int V O) :
    Outcome V O :=
  if ¬ ndebug ∧ ¬ (dst ≠ 0 ∧ 0 ≤ dstOffset ∧ src ≠ 0 ∧ 0 ≤ srcOffset ∧ 0 ≤ copyCount) then
    .aborted
  else if dst = src ∧ dstOffset = srcOffset ∨ copyCount = 0 then .returned copyCount s
  else if copyCount = 1 then
    .returned copyCount (assign (counted T) s (addr T dst dstOffset, addr T src srcOffset))
  else if isOverlap dst dstOffset src srcOffset copyCount then
    .returned copyCount
      (copyDown T (addr T dst dstOffset) (addr T src srcOffset) copyCount.toNat s)
  else
    .returned copyCount
      (copyUp T (addr T dst dstOffset) (addr T src srcOffset) copyCount.toNat s)

/-- The checks of the overloads. -/
def refused (dst : ArrayOf) (offset src srcOffset count : Int) : Prop :=
  dst.mBuf = 0 ∨ addr T src srcOffset = 0 ∨ count ≤ 0 ∨ offset < 0 ∨
    if T.kind.checksBytes then dst.mSize < toInt32 (offset * T.size) else dst.length T < offset

instance (dst : ArrayOf) (offset src srcOffset count : Int) :
    Decidable (refused T dst offset src srcOffset count) :=
  inferInstanceAs (Decidable (dst.mBuf = 0 ∨ addr T src srcOffset = 0 ∨ count ≤ 0 ∨ offset < 0 ∨
    if T.kind.checksBytes then dst.mSize < toInt32 (offset * T.size) else dst.length T < offset))

/-- `QuintetObjectCopyOp::operator()`, the three overloads with `CopyOpWrapper`
and `CopyOpImpl`. -/
def quintetObjectCopyOp (ndebug : Bool) (dst : ArrayOf) (offset src srcOffset count : Int)
    (s : Store Int V O) : Outcome V O :=
  if refused T dst offset src srcOffset count then .returned (-1) s
  else
    match T.kind with
    | .classPointer => copyFunc T dst offset src srcOffset count s
    | .plain | .autoPtr | .string =>
      plainCopy T ndebug dst.mBuf offset src srcOffset (min count (dst.length T - offset)) s

/-- `Copy(Int32 offset, const ArrayOf<T> *pSrc, Int32 srcOffset, Int32 count)`;
the other forms put `0` and the length of the source for what they leave out. -/
def copy (ndebug : Bool) (dst : ArrayOf) (offset : Int32) (pSrc : ArrayOf) (srcOffset count : Int32)
    (s : Store Int V O) : Outcome V O :=
  quintetObjectCopyOp T ndebug dst offset.toInt pSrc.mBuf srcOffset.toInt count.toInt s

/-- `Copy(const ArrayOf<T> *pSrc)`; `same` is `this == pSrc`. -/
def copyAll (ndebug same : Bool) (dst pSrc : ArrayOf) (s : Store Int V O) : Outcome V O :=
  if same then .returned (dst.length T) s
  else quintetObjectCopyOp T ndebug dst 0 pSrc.mBuf 0 (pSrc.length T) s

/-- The memory before a call. -/
def start (cell : Int → V) (count : O → Int) : Store Int V O :=
  { cell, count, freed := [], log := [] }

end Code

/-! ## What it should do -/

section Spec

variable {V : Type v} {O : Type w} [DecidableEq O] (T : ElementType V O)

/-- The addresses of the elements. -/
def cells (a : ArrayOf) : List Int := (List.range (a.length T).toNat).map fun i : Nat => addr T a.mBuf i

/-- The offset is in the destination and the source range in the source. -/
structure InRange (dst : ArrayOf) (offset : Int) (src : ArrayOf) (srcOffset count : Int) : Prop where
  offset_nonneg : 0 ≤ offset
  offset_le : offset ≤ dst.length T
  srcOffset_nonneg : 0 ≤ srcOffset
  count_nonneg : 0 ≤ count
  source : srcOffset + count ≤ src.length T

/-- How many elements there is room for. -/
def copyCount (dst : ArrayOf) (offset count : Int) : Int := min count (dst.length T - offset)

/-- `System.arraycopy`, with as many elements as there is room for; the counts
follow the elements, and no object that is in one of the arrays afterwards is
freed. -/
structure ArrayCopied (dst : ArrayOf) (offset : Int) (src : ArrayOf) (srcOffset count : Int)
    (s : Store Int V O) (result : Int) (s' : Store Int V O) : Prop where
  result_eq : result = copyCount T dst offset count
  copied : ∀ i : Nat, (i : Int) < copyCount T dst offset count →
    s'.cell (addr T dst.mBuf (offset + i)) = s.cell (addr T src.mBuf (srcOffset + i))
  others : ∀ p, (∀ i : Nat, (i : Int) < copyCount T dst offset count →
    p ≠ addr T dst.mBuf (offset + i)) → s'.cell p = s.cell p
  counts : ∀ o, s'.count o - s.count o =
    held (counted T) ((cells T dst).map s'.cell) o - held (counted T) ((cells T dst).map s.cell) o
  kept : ∀ o ∈ s'.freed, ∀ p ∈ cells T dst ++ cells T src, counted T (s'.cell p) ≠ some o

/-- The call comes to that. -/
def CopiesRight (dst : ArrayOf) (offset : Int) (src : ArrayOf) (srcOffset count : Int)
    (s : Store Int V O) (outcome : Outcome V O) : Prop :=
  ∃ result s', outcome = .returned result s' ∧
    ArrayCopied T dst offset src srcOffset count s result s'

/-- Targets and sources of the elements, from the first on. -/
def pairs (dst : ArrayOf) (offset : Int) (src : ArrayOf) (srcOffset : Int) (n : Nat) :
    List (Int × Int) :=
  (List.range n).map fun i : Nat => (addr T dst.mBuf (offset + i), addr T src.mBuf (srcOffset + i))

/-- In the order the loops take them. -/
def moves (dst : ArrayOf) (offset : Int) (src : ArrayOf) (srcOffset count : Int) :
    List (Int × Int) :=
  let n := copyCount T dst offset count
  let ps := pairs T dst offset src srcOffset n.toNat
  if isOverlap dst.mBuf offset src.mBuf srcOffset n then ps.reverse else ps

end Spec

/-! ## The loops -/

section Loops

variable {V : Type v} {O : Type w} [DecidableEq O] {T : ElementType V O} {dst src : ArrayOf}
  {offset srcOffset count : Int}

omit [DecidableEq O] in
theorem addr_addr (p i j : Int) : addr T (addr T p i) j = addr T p (i + j) := by
  rw [addr, addr, addr, Int.add_mul, Int.add_assoc]

omit [DecidableEq O] in
theorem addr_inj {p i j : Int} (h : addr T p i = addr T p j) : i = j := by
  have hpos : (T.size : Int) ≠ 0 := by
    have := T.size_pos
    omega
  exact Int.eq_of_mul_eq_mul_right hpos (Int.add_left_cancel h)

theorem copyUp_eq (dst src : ArrayOf) (offset srcOffset : Int) (n : Nat) (s : Store Int V O) :
    copyUp T (addr T dst.mBuf offset) (addr T src.mBuf srcOffset) n s =
      assigns (counted T) s (pairs T dst offset src srcOffset n) := by
  induction n generalizing offset srcOffset s with
  | zero => rfl
  | succ n ih =>
    rw [copyUp, addr_addr, addr_addr, ih, pairs, pairs, List.range_succ_eq_map, List.map_cons,
      assigns_cons, List.map_map]
    congr 1
    · simp
    · refine List.map_congr_left fun i _ => ?_
      show (addr T dst.mBuf (offset + 1 + i), addr T src.mBuf (srcOffset + 1 + i)) =
        (addr T dst.mBuf (offset + (i + 1 : Nat)), addr T src.mBuf (srcOffset + (i + 1 : Nat)))
      have hnat : ((i + 1 : Nat) : Int) = 1 + i := by omega
      rw [hnat, add_assoc, add_assoc]

theorem copyDown_eq (dst src : ArrayOf) (offset srcOffset : Int) (n : Nat) (s : Store Int V O) :
    copyDown T (addr T dst.mBuf offset) (addr T src.mBuf srcOffset) n s =
      assigns (counted T) s (pairs T dst offset src srcOffset n).reverse := by
  induction n generalizing s with
  | zero => rfl
  | succ n ih =>
    rw [copyDown, ih, addr_addr, addr_addr, pairs, pairs, List.range_succ, List.map_append,
      List.reverse_append]
    rfl

omit [DecidableEq O] in
theorem moves_of_nonpos (h : copyCount T dst offset count ≤ 0) :
    moves T dst offset src srcOffset count = [] := by
  have hnone : pairs T dst offset src srcOffset (copyCount T dst offset count).toNat = [] := by
    rw [Int.toNat_of_nonpos h]
    rfl
  simp only [moves, hnone, List.reverse_nil, ite_self]

omit [DecidableEq O] in
theorem moves_of_one (h : copyCount T dst offset count = 1) :
    moves T dst offset src srcOffset count =
      [(addr T dst.mBuf offset, addr T src.mBuf srcOffset)] := by
  have hone : pairs T dst offset src srcOffset (copyCount T dst offset count).toNat =
      [(addr T dst.mBuf offset, addr T src.mBuf srcOffset)] := by
    rw [h]
    simp [pairs]
  simp only [moves, hone, List.reverse_singleton, ite_self]

/-- Both loops make the assignments in their order. -/
theorem loops_eq (s : Store Int V O) :
    (if isOverlap dst.mBuf offset src.mBuf srcOffset (copyCount T dst offset count) then
      copyDown T (addr T dst.mBuf offset) (addr T src.mBuf srcOffset)
        (copyCount T dst offset count).toNat s
    else
      copyUp T (addr T dst.mBuf offset) (addr T src.mBuf srcOffset)
        (copyCount T dst offset count).toNat s) =
      assigns (counted T) s (moves T dst offset src srcOffset count) := by
  unfold moves
  by_cases h : isOverlap dst.mBuf offset src.mBuf srcOffset (copyCount T dst offset count)
  · rw [if_pos h, copyDown_eq, if_pos h]
  · rw [if_neg h, copyUp_eq, if_neg h]

/-- What is done where nothing is refused. -/
theorem quintetObjectCopyOp_eq (ndebug : Bool) (s : Store Int V O)
    (hrefused : ¬ refused T dst offset src.mBuf srcOffset count)
    (hassert : ndebug = true ∨ T.kind = .classPointer ∨
      src.mBuf ≠ 0 ∧ 0 ≤ srcOffset ∧ 0 ≤ copyCount T dst offset count) :
    quintetObjectCopyOp T ndebug dst offset src.mBuf srcOffset count s =
      .returned (copyCount T dst offset count)
        (if dst.mBuf = src.mBuf ∧ offset = srcOffset then s
        else assigns (counted T) s (moves T dst offset src srcOffset count)) := by
  -- both loops make the same moves, in the order that the overlap needs
  have hloops := @loops_eq V O _ T dst src offset srcOffset count s
  have hif {p : Prop} [Decidable p] (r : Int) (a b : Store Int V O) :
      (if p then Outcome.returned r a else Outcome.returned r b) =
        Outcome.returned r (if p then a else b) := by
    split <;> rfl
  have hnone (h : copyCount T dst offset count = 0) :
      assigns (counted T) s (moves T dst offset src srcOffset count) = s := by
    rw [moves_of_nonpos (by omega), assigns_nil]
  rw [quintetObjectCopyOp, if_neg hrefused]
  -- the three kinds of elements that share the text of `PlainCopy`
  have hplain : T.kind ≠ .classPointer →
      plainCopy T ndebug dst.mBuf offset src.mBuf srcOffset (min count (dst.length T - offset)) s =
      .returned (copyCount T dst offset count)
        (if dst.mBuf = src.mBuf ∧ offset = srcOffset then s
        else assigns (counted T) s (moves T dst offset src srcOffset count)) := by
    intro hkind
    have hfine : ¬ (¬ ndebug = true ∧ ¬ (dst.mBuf ≠ 0 ∧ 0 ≤ offset ∧ src.mBuf ≠ 0 ∧ 0 ≤ srcOffset ∧
        0 ≤ copyCount T dst offset count)) := by
      rintro ⟨hdebug, hfails⟩
      rcases hassert with h | h | ⟨hsrc, hoff, hcount⟩
      · exact hdebug h
      · exact hkind h
      · refine hfails ⟨fun h => hrefused (Or.inl h), ?_, hsrc, hoff, hcount⟩
        by_contra hneg
        exact hrefused (Or.inr (Or.inr (Or.inr (Or.inl (by omega)))))
    show plainCopy T ndebug dst.mBuf offset src.mBuf srcOffset (copyCount T dst offset count) s = _
    rw [plainCopy, if_neg hfine]
    by_cases hsame : dst.mBuf = src.mBuf ∧ offset = srcOffset
    · rw [if_pos (Or.inl hsame), if_pos hsame]
    · rw [if_neg hsame]
      by_cases hzero : copyCount T dst offset count = 0
      · rw [if_pos (Or.inr hzero), hnone hzero]
      · rw [if_neg (not_or.mpr ⟨hsame, hzero⟩)]
        by_cases hone : copyCount T dst offset count = 1
        · rw [if_pos hone, moves_of_one hone, assigns_cons, assigns_nil]
        · rw [if_neg hone, hif, hloops]
  -- class pointers go another way, without the assertions
  cases hkind : T.kind with
  | classPointer =>
    have hfunc : copyFunc T dst offset src.mBuf srcOffset count s =
        if dst.mBuf = src.mBuf ∧ offset = srcOffset ∨ copyCount T dst offset count = 0 then
          .returned (copyCount T dst offset count) s
        else if isOverlap dst.mBuf offset src.mBuf srcOffset (copyCount T dst offset count) then
          .returned (copyCount T dst offset count)
            (copyDown T (addr T dst.mBuf offset) (addr T src.mBuf srcOffset)
              (copyCount T dst offset count).toNat s)
        else
          .returned (copyCount T dst offset count)
            (copyUp T (addr T dst.mBuf offset) (addr T src.mBuf srcOffset)
              (copyCount T dst offset count).toNat s) := rfl
    show copyFunc T dst offset src.mBuf srcOffset count s = _
    rw [hfunc]
    by_cases hsame : dst.mBuf = src.mBuf ∧ offset = srcOffset
    · rw [if_pos (Or.inl hsame), if_pos hsame]
    · rw [if_neg hsame]
      by_cases hzero : copyCount T dst offset count = 0
      · rw [if_pos (Or.inr hzero), hnone hzero]
      · rw [if_neg (not_or.mpr ⟨hsame, hzero⟩), hif, hloops]
  | plain => exact hplain (by rw [hkind]; decide)
  | autoPtr => exact hplain (by rw [hkind]; decide)
  | string => exact hplain (by rw [hkind]; decide)

omit [DecidableEq O] in
theorem mem_moves {m : Int × Int} : m ∈ moves T dst offset src srcOffset count ↔
    ∃ i : Nat, (i : Int) < copyCount T dst offset count ∧
      m = (addr T dst.mBuf (offset + i), addr T src.mBuf (srcOffset + i)) := by
  have hpairs : m ∈ pairs T dst offset src srcOffset (copyCount T dst offset count).toNat ↔
      ∃ i : Nat, (i : Int) < copyCount T dst offset count ∧
        m = (addr T dst.mBuf (offset + i), addr T src.mBuf (srcOffset + i)) := by
    rw [pairs, List.mem_map]
    constructor
    · rintro ⟨i, hi, rfl⟩
      rw [List.mem_range] at hi
      exact ⟨i, by omega, rfl⟩
    · rintro ⟨i, hi, rfl⟩
      exact ⟨i, List.mem_range.mpr (by omega), rfl⟩
  rw [← hpairs]
  simp only [moves]
  split
  · exact List.mem_reverse
  · exact Iff.rfl

omit [DecidableEq O] in
/-- Every target is written once. -/
theorem moves_nodup (T : ElementType V O) (dst : ArrayOf) (offset : Int) (src : ArrayOf)
    (srcOffset count : Int) : ((moves T dst offset src srcOffset count).map Prod.fst).Nodup := by
  have hpairs : ((pairs T dst offset src srcOffset (copyCount T dst offset count).toNat).map
      Prod.fst).Nodup := by
    rw [pairs, List.map_map]
    refine List.Nodup.map_on ?_ List.nodup_range
    intro i _ j _ h
    have heq := addr_inj (T := T) h
    omega
  simp only [moves]
  split
  · rw [List.map_reverse]
    exact List.nodup_reverse.mpr hpairs
  · exact hpairs

omit [DecidableEq O] in
theorem mem_cells {a : ArrayOf} {p : Int} :
    p ∈ cells T a ↔ ∃ i : Nat, (i : Int) < a.length T ∧ p = addr T a.mBuf i := by
  rw [cells, List.mem_map]
  constructor
  · rintro ⟨i, hi, rfl⟩
    rw [List.mem_range] at hi
    exact ⟨i, by omega, rfl⟩
  · rintro ⟨i, hi, rfl⟩
    exact ⟨i, List.mem_range.mpr (by omega), rfl⟩

omit [DecidableEq O] in
theorem cells_nodup (T : ElementType V O) (a : ArrayOf) : (cells T a).Nodup := by
  refine List.Nodup.map_on ?_ List.nodup_range
  intro i _ j _ h
  have heq := addr_inj (T := T) h
  omega

omit [DecidableEq O] in
/-- The elements lie in the bytes. -/
theorem length_bounds (T : ElementType V O) (a : ArrayOf) :
    0 ≤ a.length T ∧ a.length T * T.size ≤ a.mSize ∧ a.length T ≤ a.mSize := by
  have hsize : (0 : Int) < T.size := by
    have := T.size_pos
    omega
  unfold ArrayOf.length
  have hnonneg := a.mSize_nonneg
  split
  · omega
  · refine ⟨Int.ediv_nonneg hnonneg (by omega), Int.ediv_mul_le _ (by omega), ?_⟩
    exact Int.ediv_le_self _ hnonneg

omit [DecidableEq O] in
theorem buf_pos {a : ArrayOf} (h : 0 < a.length T) : 0 < a.mBuf := by
  have hnonneg := a.mBuf_nonneg
  unfold ArrayOf.length at h
  split at h
  · omega
  · omega

omit [DecidableEq O] in
/-- With one first address the direction is right. -/
theorem clear_of_same {s : Store Int V O} (hbase : dst.mBuf = src.mBuf)
    (hsmall : toInt32 (srcOffset + copyCount T dst offset count) =
      srcOffset + copyCount T dst offset count) :
    Clear s (moves T dst offset src srcOffset count) := by
  have hpair : (pairs T dst offset src srcOffset (copyCount T dst offset count).toNat).Pairwise
      fun m m' => ∃ i j : Nat, i < j ∧ (j : Int) < copyCount T dst offset count ∧
        m = (addr T dst.mBuf (offset + i), addr T src.mBuf (srcOffset + i)) ∧
        m' = (addr T dst.mBuf (offset + j), addr T src.mBuf (srcOffset + j)) := by
    rw [pairs, List.pairwise_map]
    refine List.Pairwise.imp_of_mem ?_ List.pairwise_lt_range
    intro i j _ hj hlt
    rw [List.mem_range] at hj
    exact ⟨i, j, hlt, by omega, rfl, rfl⟩
  by_cases h : isOverlap dst.mBuf offset src.mBuf srcOffset (copyCount T dst offset count)
  · -- downwards: what was read lies above what is written
    rw [Clear, moves, if_pos h, List.pairwise_reverse]
    refine hpair.imp ?_
    rintro m m' ⟨i, j, hij, -, rfl, rfl⟩ heq
    rw [hbase] at heq
    have hsum := addr_inj heq
    have hlow := h.2.1
    omega
  · rw [Clear, moves, if_neg h]
    refine hpair.imp ?_
    rintro m m' ⟨i, j, hij, hj, rfl, rfl⟩ heq
    rw [hbase] at heq
    have hsum := addr_inj heq
    refine (h ⟨hbase, by omega, ?_⟩).elim
    rw [hsmall]
    omega

end Loops

/-! ## The result -/

section Result

variable {V : Type v} {O : Type w} [DecidableEq O] {T : ElementType V O} {dst src : ArrayOf}
  {offset srcOffset count : Int} {s : Store Int V O}

/-- Something is copied, into an array that is there; where the arrays do not
begin at one address, no element of the source is overwritten by another value
before it is read; and an element that loses its last reference is in none of
the arrays afterwards. -/
structure CopyKept (T : ElementType V O) (dst : ArrayOf) (offset : Int) (src : ArrayOf)
    (srcOffset count : Int) (s : Store Int V O) : Prop where
  positive : 0 < count
  buffer : dst.mBuf ≠ 0
  clear : dst.mBuf = src.mBuf ∨ Clear s (moves T dst offset src srcOffset count)
  spared : dst.mBuf = src.mBuf ∧ offset = srcOffset ∨
    Spared (counted T) s (moves T dst offset src srcOffset count) (cells T dst ++ cells T src)

omit [DecidableEq O] in
theorem InRange.not_refused (h : InRange T dst offset src srcOffset count) (hcount : 0 < count)
    (hbuf : dst.mBuf ≠ 0) : ¬ refused T dst offset src.mBuf srcOffset count := by
  rcases length_bounds T dst with ⟨hnonneg, hbytes, hlen⟩
  have hsrc : 0 < src.mBuf := buf_pos (T := T) (by
    have := h.source
    have := h.srcOffset_nonneg
    omega)
  have haddr : 0 ≤ srcOffset * T.size := Int.mul_nonneg h.srcOffset_nonneg (by omega)
  rintro (hd | hs | hc | ho | hcheck)
  · exact hbuf hd
  · unfold addr at hs
    omega
  · omega
  · have := h.offset_nonneg
    omega
  · split at hcheck
    · -- the bytes in front of the offset are bytes of the array
      have hle : offset * T.size ≤ dst.length T * T.size :=
        Int.mul_le_mul_of_nonneg_right h.offset_le (by omega)
      have hpos : 0 ≤ offset * T.size := Int.mul_nonneg h.offset_nonneg (by omega)
      have hlt := dst.mSize_lt
      rw [toInt32_eq (by omega) (by omega)] at hcheck
      omega
    · have := h.offset_le
      omega

omit [DecidableEq O] in
theorem InRange.copyCount_bounds (h : InRange T dst offset src srcOffset count) :
    0 ≤ copyCount T dst offset count ∧ copyCount T dst offset count ≤ count ∧
      offset + copyCount T dst offset count ≤ dst.length T := by
  have := h.offset_le
  have := h.count_nonneg
  unfold copyCount
  omega

omit [DecidableEq O] in
theorem InRange.clear_of_same (h : InRange T dst offset src srcOffset count)
    (hbase : dst.mBuf = src.mBuf) :
    Clear s (moves T dst offset src srcOffset count) := by
  rcases h.copyCount_bounds with ⟨hnonneg, hle, -⟩
  rcases length_bounds T src with ⟨-, -, hlen⟩
  have hlt := src.mSize_lt
  have hsource := h.source
  have hoff := h.srcOffset_nonneg
  exact Elastos.clear_of_same hbase (toInt32_eq (by omega) (by omega))

/-- Clear moves copy, and the counts follow. -/
theorem InRange.copied_iff (h : InRange T dst offset src srcOffset count) (hfreed : s.freed = []) :
    ArrayCopied T dst offset src srcOffset count s (copyCount T dst offset count)
        (assigns (counted T) s (moves T dst offset src srcOffset count)) ↔
      Clear s (moves T dst offset src srcOffset count) ∧
        Spared (counted T) s (moves T dst offset src srcOffset count)
          (cells T dst ++ cells T src) := by
  have hnodup := moves_nodup T dst offset src srcOffset count
  rcases h.copyCount_bounds with ⟨hnonneg, -, hend⟩
  have hcopied : (∀ i : Nat, (i : Int) < copyCount T dst offset count →
      (assigns (counted T) s (moves T dst offset src srcOffset count)).cell
        (addr T dst.mBuf (offset + i)) = s.cell (addr T src.mBuf (srcOffset + i))) ↔
      Clear s (moves T dst offset src srcOffset count) := by
    rw [← @assigns_sources_iff _ _ _ _ _ (counted T) _ hnodup]
    constructor
    · intro hall m hm
      rcases mem_moves.mp hm with ⟨i, hi, rfl⟩
      exact hall i hi
    · intro hall i hi
      exact hall _ (mem_moves.mpr ⟨i, hi, rfl⟩)
  constructor
  · intro hright
    have hclear := hcopied.mp hright.copied
    exact ⟨hclear, (assigns_spared_iff hnodup hclear hfreed _).mp hright.kept⟩
  · rintro ⟨hclear, hspared⟩
    refine ⟨rfl, hcopied.mpr hclear, ?_, ?_, (assigns_spared_iff hnodup hclear hfreed _).mpr hspared⟩
    · intro p hp
      refine assigns_frame (fun hmem => ?_) s
      rcases List.mem_map.mp hmem with ⟨m, hm, rfl⟩
      rcases mem_moves.mp hm with ⟨i, hi, rfl⟩
      exact hp i hi rfl
    · intro o
      have htargets : ∀ m ∈ moves T dst offset src srcOffset count, m.1 ∈ cells T dst := by
        intro m hm
        rcases mem_moves.mp hm with ⟨i, hi, rfl⟩
        have hoff := h.offset_nonneg
        refine mem_cells.mpr ⟨(offset + i).toNat, by omega, ?_⟩
        rw [Int.toNat_of_nonneg (by omega)]
      have hbalance := @assigns_balance _ _ _ _ _ (counted T) _ _ (cells_nodup T dst) htargets s o
      omega

/-- Nothing changes where an element is copied to itself. -/
theorem copied_same (hfreed : s.freed = []) (hbase : dst.mBuf = src.mBuf)
    (hoff : offset = srcOffset) :
    ArrayCopied T dst offset src srcOffset count s (copyCount T dst offset count) s where
  result_eq := rfl
  copied := by
    intro i _
    rw [hbase, hoff]
  others := fun _ _ => rfl
  counts := fun o => by omega
  kept := by
    intro o ho
    rw [hfreed] at ho
    cases ho

/-- Every reference in the arrays is counted. -/
def AllCounted (T : ElementType V O) (dst src : ArrayOf) (s : Store Int V O) : Prop :=
  ∀ o, (held (counted T) ((cells T dst ++ cells T src).dedup.map s.cell) o : Int) ≤ s.count o

/-- Then nothing that stays loses its last reference. -/
theorem InRange.spared (h : InRange T dst offset src srcOffset count)
    (hclear : Clear s (moves T dst offset src srcOffset count)) (hcounted : AllCounted T dst src s) :
    Spared (counted T) s (moves T dst offset src srcOffset count) (cells T dst ++ cells T src) := by
  rcases h.copyCount_bounds with ⟨hnonneg, hle, hend⟩
  have hoff := h.offset_nonneg
  have hsrcOff := h.srcOffset_nonneg
  have hsource := h.source
  have hin : ∀ m ∈ moves T dst offset src srcOffset count,
      m.1 ∈ cells T dst ∧ m.2 ∈ cells T src := by
    intro m hm
    rcases mem_moves.mp hm with ⟨i, hi, rfl⟩
    constructor
    · refine mem_cells.mpr ⟨(offset + i).toNat, by omega, ?_⟩
      rw [Int.toNat_of_nonneg (by omega)]
    · refine mem_cells.mpr ⟨(srcOffset + i).toNat, by omega, ?_⟩
      rw [Int.toNat_of_nonneg (by omega)]
  have hspared := @spared_of_counted _ _ _ _ _ (counted T) s _ (cells T dst ++ cells T src).dedup
    (moves_nodup T dst offset src srcOffset count) hclear (List.nodup_dedup _)
    (fun m hm => List.mem_dedup.mpr (List.mem_append_left _ (hin m hm).1))
    (fun m hm => List.mem_dedup.mpr (List.mem_append_right _ (hin m hm).2)) hcounted
  intro n m hm o hold hzero p hp
  exact hspared n m hm o hold hzero p (List.mem_dedup.mpr hp)

/-- For all arrays, ranges that are in them, and memory: the call is
`System.arraycopy` exactly under this condition, and the condition on the
references is met where all are counted; an array is copied to itself always. -/
theorem copy_iff (T : ElementType V O) (ndebug : Bool) (dst : ArrayOf) (offset : Int32)
    (src : ArrayOf) (srcOffset count : Int32) (cell : Int → V) (refs : O → Int)
    (h : InRange T dst offset.toInt src srcOffset.toInt count.toInt) :
    (CopiesRight T dst offset.toInt src srcOffset.toInt count.toInt (start cell refs)
        (copy T ndebug dst offset src srcOffset count (start cell refs)) ↔
      CopyKept T dst offset.toInt src srcOffset.toInt count.toInt (start cell refs)) ∧
    CopiesRight T dst 0 dst 0 (dst.length T) (start cell refs)
      (copyAll T ndebug true dst dst (start cell refs)) := by
  have hfreed : (start cell refs : Store Int V O).freed = [] := rfl
  constructor
  · rcases h.copyCount_bounds with ⟨hnonneg, hle, hend⟩
    unfold copy
    by_cases hgo : 0 < count.toInt ∧ dst.mBuf ≠ 0
    · have hsrc : src.mBuf ≠ 0 := by
        have hpos := buf_pos (T := T) (a := src) (by
          have := h.source
          have := h.srcOffset_nonneg
          omega)
        omega
      rw [quintetObjectCopyOp_eq ndebug _ (h.not_refused hgo.1 hgo.2)
        (Or.inr (Or.inr ⟨hsrc, h.srcOffset_nonneg, hnonneg⟩))]
      -- the same elements at the same place need no copying
      by_cases hsame : dst.mBuf = src.mBuf ∧ offset.toInt = srcOffset.toInt
      · rw [if_pos hsame]
        constructor
        · intro _
          exact ⟨hgo.1, hgo.2, Or.inl hsame.1, Or.inl hsame⟩
        · intro _
          exact ⟨_, _, rfl, copied_same hfreed hsame.1 hsame.2⟩
      · rw [if_neg hsame]
        constructor
        · rintro ⟨result, s', hout, hright⟩
          cases hout
          rcases (h.copied_iff hfreed).mp hright with ⟨hclear, hspared⟩
          exact ⟨hgo.1, hgo.2, Or.inr hclear, Or.inr hspared⟩
        · rintro ⟨-, -, hclear, hspared⟩
          -- in one array the loops take the order that overwrites no source before it is read
          have hclear' : Clear (start cell refs)
              (moves T dst offset.toInt src srcOffset.toInt count.toInt) := by
            rcases hclear with hbase | hclear
            · exact h.clear_of_same hbase
            · exact hclear
          exact ⟨_, _, rfl, (h.copied_iff hfreed).mpr ⟨hclear', hspared.resolve_left hsame⟩⟩
    · -- a copy of nothing, or into no buffer, is refused
      have hrefused : refused T dst offset.toInt src.mBuf srcOffset.toInt count.toInt := by
        by_cases hbuf : dst.mBuf = 0
        · exact Or.inl hbuf
        · exact Or.inr (Or.inr (Or.inl (not_lt.mp fun hpos => hgo ⟨hpos, hbuf⟩)))
      rw [quintetObjectCopyOp, if_pos hrefused]
      constructor
      · rintro ⟨result, s', hout, hright⟩
        cases hout
        -- a copy of all of an array has the length of the array
        have hresult := hright.result_eq
        omega
      · rintro ⟨hpos, hbuf, -, -⟩
        exact (hgo ⟨hpos, hbuf⟩).elim
  · have hlen := (length_bounds T dst).1
    have hresult : copyCount T dst 0 (dst.length T) = dst.length T := by
      unfold copyCount
      omega
    refine ⟨dst.length T, start cell refs, rfl, ?_⟩
    have hself := @copied_same V O _ T dst dst 0 0 (dst.length T) (start cell refs) hfreed rfl rfl
    rwa [hresult] at hself

end Result

/-! ## Three pointers -/

section Example

/-- Pointers of four bytes to objects with a number. -/
def pointerType : ElementType Nat Nat where
  kind := .classPointer
  size := 4
  size_pos := by decide
  object := some

/-- Three elements at `100`. -/
def threeElements : ArrayOf := ⟨100, 12, by decide, by decide, by decide, by decide⟩

/-- The last two of them. -/
def lastElements : ArrayOf := ⟨104, 8, by decide, by decide, by decide, by decide⟩

/-- Within one array two elements go up by one. -/
theorem copy_iff_up :
    CopiesRight pointerType threeElements 1 threeElements 0 2 (start Int.toNat fun _ => 3)
      (copy pointerType false threeElements 1 threeElements 0 2 (start Int.toNat fun _ => 3)) := by
  have h : InRange pointerType threeElements 1 threeElements 0 2 :=
    ⟨by decide, by decide, by decide, by decide, by decide⟩
  have hcounted : AllCounted pointerType threeElements threeElements
      (start Int.toNat fun _ => 3) := by
    intro o
    have hle : held (counted pointerType) ((cells pointerType threeElements ++
        cells pointerType threeElements).dedup.map Int.toNat) o ≤ 3 :=
      Nat.le_trans List.countP_le_length (by decide)
    show (held _ _ o : Int) ≤ 3
    exact_mod_cast hle
  refine (copy_iff pointerType false threeElements 1 threeElements 0 2 Int.toNat (fun _ => 3) h).1.mpr
    ⟨by decide, by decide, Or.inl rfl, Or.inr ?_⟩
  exact h.spared (h.clear_of_same rfl) hcounted

/-- A copy of nothing is refused; and where the destination lies in the source,
the first element is copied into both places. -/
theorem copy_refused_and_smeared :
    ¬ CopiesRight pointerType threeElements 0 threeElements 0 0 (start Int.toNat fun _ => 3)
      (copy pointerType false threeElements 0 threeElements 0 0 (start Int.toNat fun _ => 3)) ∧
    ¬ CopiesRight pointerType lastElements 0 threeElements 0 2 (start Int.toNat fun _ => 3)
      (copy pointerType false lastElements 0 threeElements 0 2 (start Int.toNat fun _ => 3)) := by
  constructor
  · rintro ⟨result, s', hout, hright⟩
    have hrefused : refused pointerType threeElements 0 100 0 0 := by decide
    have hcopy : copy pointerType false threeElements 0 threeElements 0 0
        (start Int.toNat fun _ => 3) = .returned (-1) (start Int.toNat fun _ => 3) := by
      rw [copy, quintetObjectCopyOp]
      exact if_pos hrefused
    rw [hcopy] at hout
    cases hout
    exact absurd hright.result_eq (by decide)
  · rintro ⟨result, s', hout, hright⟩
    have h : InRange pointerType lastElements 0 threeElements 0 2 :=
      ⟨by decide, by decide, by decide, by decide, by decide⟩
    have hcopy := @quintetObjectCopyOp_eq Nat Nat _ pointerType lastElements threeElements 0 0 2 false
      (start Int.toNat fun _ => 3) (h.not_refused (by decide) (by decide)) (Or.inr (Or.inl rfl))
    rw [if_neg (by decide)] at hcopy
    have hsame := hcopy.symm.trans hout
    cases hsame
    have hclear := ((h.copied_iff rfl).mp hright).1
    have hmoves : moves pointerType lastElements 0 threeElements 0 2 = [(104, 100), (108, 104)] := by
      decide
    rw [hmoves] at hclear
    exact absurd ((List.pairwise_cons.mp hclear).1 (108, 104) List.mem_cons_self rfl) (by decide)

end Example

end SuperExe.Elastos
