import SuperExe.Core.CString

/-! # The end of a CGI header

`getearliestbreak`, which the CGI and the FastCGI plugin share: the header part
of a script's output ends at the first CRLFCRLF or LFLF. `headerEnd` is the
position after it. It does not depend on what follows (`headerEnd_append`), and
it is found as soon as it is there (`headerEnd_of_append`).
-/

namespace SuperExe.Plugins

open SuperExe.Core

/-- `memmem(3)`: where the needle is first found. -/
def memmem (needle : Bytes) : Bytes → Option Nat
  | [] => if needle = [] then some 0 else none
  | b :: bs => if needle.isPrefixOf (b :: bs) then some 0 else (memmem needle bs).map (· + 1)

/-- `MK_IOV_CRLFCRLF` and `MK_IOV_LFLF` -/
def crlfcrlf : Bytes := [13, 10, 13, 10]
def lflf : Bytes := [10, 10]

/-- `getearliestbreak`: the position it returns, and `advance`. -/
def getearliestbreak (buf : Bytes) : Option (Nat × Nat) :=
  match memmem crlfcrlf buf, memmem lflf buf with
  | none, none => none
  | none, some lfend => some (lfend, 2)
  | some crend, none => some (crend, 4)
  | some crend, some lfend => if lfend < crend then some (lfend, 2) else some (crend, 4)

/-- Where the header part ends. -/
def headerEnd (buf : Bytes) : Option Nat := (getearliestbreak buf).map fun x => x.1 + x.2

section Memmem

variable {needle buf more : Bytes} {i : Nat}

theorem memmem_eq_some :
    memmem needle buf = some i ↔
      needle <+: buf.drop i ∧ i ≤ buf.length ∧ ∀ j < i, ¬ needle <+: buf.drop j := by
  induction buf generalizing i with
  | nil =>
    simp only [memmem, List.drop_nil, List.length_nil, Nat.le_zero, List.prefix_nil]
    constructor
    · intro h
      split at h
      · next hn =>
        cases h
        exact ⟨hn, rfl, fun j hj => absurd hj (Nat.not_lt_zero j)⟩
      · cases h
    · rintro ⟨hn, rfl, -⟩
      rw [if_pos hn]
  | cons b bs ih =>
    simp only [memmem, List.isPrefixOf_iff_prefix]
    -- here, or further on
    by_cases hp : needle <+: b :: bs
    · rw [if_pos hp]
      constructor
      · intro h
        cases h
        exact ⟨hp, Nat.zero_le _, fun j hj => absurd hj (Nat.not_lt_zero j)⟩
      · rintro ⟨-, -, hmin⟩
        cases i with
        | zero => rfl
        | succ i => exact absurd hp (hmin 0 (Nat.succ_pos i))
    · rw [if_neg hp, Option.map_eq_some_iff]
      constructor
      · rintro ⟨k, hk, rfl⟩
        obtain ⟨h1, h2, h3⟩ := ih.mp hk
        refine ⟨h1, Nat.succ_le_succ h2, ?_⟩
        intro j hj
        cases j with
        | zero => exact hp
        | succ j => exact h3 j (Nat.lt_of_succ_lt_succ hj)
      · rintro ⟨h1, h2, h3⟩
        cases i with
        | zero => exact absurd h1 hp
        | succ i =>
          exact ⟨i, ih.mpr ⟨h1, Nat.le_of_succ_le_succ h2,
            fun j hj => h3 (j + 1) (Nat.succ_lt_succ hj)⟩, rfl⟩

theorem memmem_eq_none : memmem needle buf = none ↔ ∀ j ≤ buf.length, ¬ needle <+: buf.drop j := by
  constructor
  · intro h j hj hp
    -- the least occurrence up to `j`
    induction j using Nat.strongRecOn with
    | ind j ih =>
      by_cases hmin : ∀ k < j, ¬ needle <+: buf.drop k
      · rw [memmem_eq_some.mpr ⟨hp, hj, hmin⟩] at h
        cases h
      · push Not at hmin
        obtain ⟨k, hk, hpk⟩ := hmin
        exact ih k hk (by omega) hpk
  · intro h
    cases hm : memmem needle buf with
    | none => rfl
    | some i =>
      obtain ⟨h1, h2, -⟩ := memmem_eq_some.mp hm
      exact absurd h1 (h i h2)

/-- An occurrence in a string is one in every longer string. -/
theorem occurs_append (h : needle <+: buf.drop i) (hi : i ≤ buf.length) :
    needle <+: (buf ++ more).drop i := by
  rw [List.drop_append_of_le_length hi]
  exact h.trans (List.prefix_append _ _)

/-- An occurrence that ends in the first part is one there. -/
theorem occurs_of_append (h : needle <+: (buf ++ more).drop i) (hi : i + needle.length ≤ buf.length) :
    needle <+: buf.drop i := by
  rw [List.drop_append_of_le_length (by omega)] at h
  exact List.prefix_of_prefix_length_le h (List.prefix_append _ _) (by rw [List.length_drop]; omega)

theorem length_le_of_occurs (h : needle <+: buf.drop i) (hi : i ≤ buf.length) :
    i + needle.length ≤ buf.length := by
  have := h.length_le
  rw [List.length_drop] at this
  omega

end Memmem

section HeaderEnd

variable {buf more : Bytes} {e : Nat}

/-- The two breaks never start within one byte of each other. -/
theorem breaks_apart {c l : Nat} (hc : crlfcrlf <+: buf.drop c) (hl : lflf <+: buf.drop l) :
    l ≠ c ∧ l ≠ c + 1 := by
  obtain ⟨t, ht⟩ := hc
  obtain ⟨u, hu⟩ := hl
  have hbyte : ∀ k, (buf.drop c)[k]? = buf[c + k]? := fun k => List.getElem?_drop
  have hbyte' : ∀ k, (buf.drop l)[k]? = buf[l + k]? := fun k => List.getElem?_drop
  have hc0 := hbyte 0
  have hc2 := hbyte 2
  have hl0 := hbyte' 0
  have hl1 := hbyte' 1
  rw [← ht] at hc0 hc2
  rw [← hu] at hl0 hl1
  simp only [crlfcrlf, lflf, List.cons_append, List.getElem?_cons_zero, List.getElem?_cons_succ] at hc0 hc2 hl0 hl1
  constructor
  · rintro rfl
    rw [← hc0] at hl0
    cases hl0
  · rintro rfl
    rw [show c + 1 + 1 = c + 2 from rfl, ← hc2] at hl1
    cases hl1

/-- A break of `adv` bytes starts at `i`. -/
def BreakAt (buf : Bytes) (i adv : Nat) : Prop :=
  adv = 2 ∧ lflf <+: buf.drop i ∨ adv = 4 ∧ crlfcrlf <+: buf.drop i

theorem BreakAt.length_le {i adv : Nat} (h : BreakAt buf i adv) (hi : i ≤ buf.length) :
    i + adv ≤ buf.length := by
  rcases h with ⟨rfl, h⟩ | ⟨rfl, h⟩
  · exact length_le_of_occurs h hi
  · exact length_le_of_occurs h hi

theorem BreakAt.append {i adv : Nat} (h : BreakAt buf i adv) (hi : i ≤ buf.length) :
    BreakAt (buf ++ more) i adv := by
  rcases h with ⟨hadv, h⟩ | ⟨hadv, h⟩
  · exact Or.inl ⟨hadv, occurs_append h hi⟩
  · exact Or.inr ⟨hadv, occurs_append h hi⟩

theorem BreakAt.of_append {i adv : Nat} (h : BreakAt (buf ++ more) i adv)
    (hi : i + adv ≤ buf.length) : BreakAt buf i adv := by
  rcases h with ⟨rfl, h⟩ | ⟨rfl, h⟩
  · exact Or.inl ⟨rfl, occurs_of_append h hi⟩
  · exact Or.inr ⟨rfl, occurs_of_append h hi⟩

/-- `getearliestbreak` finds the first break of either kind. -/
theorem getearliestbreak_eq_some {i adv : Nat} :
    getearliestbreak buf = some (i, adv) ↔
      BreakAt buf i adv ∧ i ≤ buf.length ∧ ∀ j < i, ∀ a, ¬ BreakAt buf j a := by
  -- the two searches, each with its first place
  have hc := @memmem_eq_some crlfcrlf buf
  have hl := @memmem_eq_some lflf buf
  have hnc := @memmem_eq_none crlfcrlf buf
  have hnl := @memmem_eq_none lflf buf
  constructor
  · intro h
    -- neither, one or both of them are found; of two the earlier one is taken
    unfold getearliestbreak at h
    split at h
    · cases h
    · next h1 h2 =>
      cases h
      obtain ⟨g1, g2, g3⟩ := hl.mp h2
      refine ⟨Or.inl ⟨rfl, g1⟩, g2, ?_⟩
      rintro j hj a (⟨-, hb⟩ | ⟨-, hb⟩)
      · exact g3 j hj hb
      · exact hnc.mp h1 j (by omega) hb
    · next h1 h2 =>
      cases h
      obtain ⟨g1, g2, g3⟩ := hc.mp h1
      refine ⟨Or.inr ⟨rfl, g1⟩, g2, ?_⟩
      rintro j hj a (⟨-, hb⟩ | ⟨-, hb⟩)
      · exact hnl.mp h2 j (by omega) hb
      · exact g3 j hj hb
    · next c l h1 h2 =>
      obtain ⟨f1, f2, f3⟩ := hc.mp h1
      obtain ⟨g1, g2, g3⟩ := hl.mp h2
      split at h
      · next hlt =>
        cases h
        refine ⟨Or.inl ⟨rfl, g1⟩, g2, ?_⟩
        rintro j hj a (⟨-, hb⟩ | ⟨-, hb⟩)
        · exact g3 j hj hb
        · exact f3 j (by omega) hb
      · next hge =>
        cases h
        refine ⟨Or.inr ⟨rfl, f1⟩, f2, ?_⟩
        rintro j hj a (⟨-, hb⟩ | ⟨-, hb⟩)
        · exact g3 j (by omega) hb
        · exact f3 j hj hb
  · rintro ⟨hb, hi, hmin⟩
    -- where one is the earliest, the other search cannot have found an earlier place
    rcases hb with ⟨rfl, hb⟩ | ⟨rfl, hb⟩
    · have h2 : memmem lflf buf = some i :=
        hl.mpr ⟨hb, hi, fun j hj hp => hmin j hj 2 (Or.inl ⟨rfl, hp⟩)⟩
      unfold getearliestbreak
      cases h1 : memmem crlfcrlf buf with
      | none => simp [h2]
      | some c =>
        obtain ⟨f1, -, -⟩ := hc.mp h1
        have hci : ¬ c < i := fun hlt => hmin c hlt 4 (Or.inr ⟨rfl, f1⟩)
        have hne := (breaks_apart f1 hb).1
        simp only [h2]
        rw [if_pos (by omega)]
    · have h1 : memmem crlfcrlf buf = some i :=
        hc.mpr ⟨hb, hi, fun j hj hp => hmin j hj 4 (Or.inr ⟨rfl, hp⟩)⟩
      unfold getearliestbreak
      cases h2 : memmem lflf buf with
      | none => simp [h1]
      | some l =>
        obtain ⟨g1, -, -⟩ := hl.mp h2
        have hli : ¬ l < i := fun hlt => hmin l hlt 2 (Or.inl ⟨rfl, g1⟩)
        simp only [h1]
        rw [if_neg hli]

theorem headerEnd_eq_some :
    headerEnd buf = some e ↔ ∃ i adv, e = i + adv ∧ BreakAt buf i adv ∧ i ≤ buf.length ∧
      ∀ j < i, ∀ a, ¬ BreakAt buf j a := by
  simp only [headerEnd, Option.map_eq_some_iff, Prod.exists, getearliestbreak_eq_some]
  constructor
  · rintro ⟨i, adv, h, rfl⟩
    exact ⟨i, adv, rfl, h⟩
  · rintro ⟨i, adv, rfl, h⟩
    exact ⟨i, adv, h, rfl⟩

theorem headerEnd_le (h : headerEnd buf = some e) : e ≤ buf.length := by
  obtain ⟨i, adv, rfl, hb, hi, -⟩ := headerEnd_eq_some.mp h
  exact hb.length_le hi

theorem headerEnd_pos (h : headerEnd buf = some e) : 2 ≤ e := by
  obtain ⟨i, adv, rfl, hb, -, -⟩ := headerEnd_eq_some.mp h
  rcases hb with ⟨rfl, -⟩ | ⟨rfl, -⟩ <;> omega

/-- The end of the header does not depend on what follows it. -/
theorem headerEnd_append (h : headerEnd buf = some e) : headerEnd (buf ++ more) = some e := by
  obtain ⟨i, adv, rfl, hb, hi, hmin⟩ := headerEnd_eq_some.mp h
  refine headerEnd_eq_some.mpr ⟨i, adv, rfl, hb.append hi, by rw [List.length_append]; omega, ?_⟩
  intro j hj a hja
  have hlen := hb.length_le hi
  by_cases hin : j + a ≤ buf.length
  · exact hmin j hj a (hja.of_append hin)
  · -- a CRLFCRLF that reaches beyond the LFLF would start one byte before it
    rcases hja with ⟨rfl, hp⟩ | ⟨rfl, hp⟩
    · rcases hb with ⟨rfl, -⟩ | ⟨rfl, -⟩ <;> omega
    · rcases hb with ⟨rfl, hb⟩ | ⟨rfl, -⟩
      · have := (breaks_apart hp (occurs_append hb hi)).2
        omega
      · omega

/-- The end of the header is found as soon as it is there. -/
theorem headerEnd_of_append (h : headerEnd (buf ++ more) = some e) (he : e ≤ buf.length) :
    headerEnd buf = some e := by
  obtain ⟨i, adv, rfl, hb, -, hmin⟩ := headerEnd_eq_some.mp h
  refine headerEnd_eq_some.mpr ⟨i, adv, rfl, hb.of_append he, by omega, ?_⟩
  intro j hj a hja
  exact hmin j hj a (hja.append (by omega))

end HeaderEnd

end SuperExe.Plugins
