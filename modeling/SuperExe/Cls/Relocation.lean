import SuperExe.Cls.Moves

/-! # The relocation of a flattened module

In a flattened module every record has its own place, and no descriptor, table
or entry is missing. `DoRelocCLS` relocates such a module completely if and only
if every name is there and no type descriptor that is nested in another one, and
no type of a method, has a nested type itself: the code adds the base to the
`mNestedType` of the descriptor embedded in a record and does not go on to the
descriptor it points to.
-/

namespace SuperExe.Cls

open SuperExe.Lib

/-- The field is reached from the module at `base`. -/
def Reached (m : Mem) (base : UInt32) (i : Item) : Prop :=
  ∃ depth, i ∈ items m base depth .clsModule base

def Item.Apart (i j : Item) : Prop := i.size ≤ j.addr - i.addr ∧ j.size ≤ i.addr - j.addr

/-- A flattened module of `size` bytes. -/
structure Flattened (m : Mem) (base : UInt32) (size : Nat) : Prop where
  apart : ∀ depth, (items m base depth .clsModule base).Pairwise Item.Apart
  inside : ∀ i, Reached m base i → (i.addr - base).toNat + i.size.toNat ≤ size
  links : ∀ i, Reached m base i → i.role = .link → m.read32 i.addr ≠ 0

/-- Every pointer that is reached is an address afterwards, `NULL` stays `NULL`,
and no other byte has changed. The pointer to a table without entries is left
open. -/
structure Complete (m : Mem) (base : UInt32) (m' : Mem) : Prop where
  pointers : ∀ i, Reached m base i → i.IsPointer →
    m'.read32 i.addr = if m.read32 i.addr = 0 then 0 else m.read32 i.addr + base
  others : ∀ a, (∀ i, Reached m base i → i.IsPointer ∨ i.role = .empty → ¬ a - i.addr < 4) →
    m' a = m a

/-- Every name is there, and no nested type has a nested type. -/
def Movable (m : Mem) (base : UInt32) : Prop :=
  ∀ i, Reached m base i →
    (i.role = .name → m.read32 i.addr ≠ 0) ∧ (i.role = .deep → m.read32 i.addr = 0)

variable {m : Mem} {base p : UInt32} {i j : Item} {size depth : Nat} {kind : Kind}

/-! ## Depths -/

theorem declItems_mono {sub sub' : Kind → UInt32 → List Item}
    (h : ∀ k q, ∀ i ∈ sub k q, i ∈ sub' k q) {d : Decl}
    (hi : i ∈ declItems m base sub kind p d) : i ∈ declItems m base sub' kind p d := by
  cases d with
  | name off => exact hi
  | text off => exact hi
  | textIf tag off => exact hi
  | indexes count off => exact hi
  | names count off => exact hi
  | desc off k =>
    rcases List.mem_cons.mp hi with rfl | hi
    · exact List.mem_cons_self ..
    · exact List.mem_cons_of_mem _ (h _ _ _ hi)
  | nested off =>
    rcases List.mem_cons.mp hi with rfl | hi
    · exact List.mem_cons_self ..
    · refine List.mem_cons_of_mem _ ?_
      split at hi
      · cases hi
      · rename_i hnull
        rw [if_neg hnull]
        exact h _ _ _ hi
  | table count off k =>
    rcases List.mem_cons.mp hi with rfl | hi
    · exact List.mem_cons_self ..
    · refine List.mem_cons_of_mem _ ?_
      split at hi
      · rename_i hzero
        rw [if_pos hzero]
        exact hi
      · rename_i hzero
        rw [if_neg hzero]
        rcases List.mem_cons.mp hi with rfl | hi
        · exact List.mem_cons_self ..
        · obtain ⟨n, hn, hi⟩ := List.mem_flatMap.mp hi
          refine List.mem_cons_of_mem _ (List.mem_flatMap.mpr ⟨n, hn, ?_⟩)
          rcases List.mem_cons.mp hi with rfl | hi
          · exact List.mem_cons_self ..
          · exact List.mem_cons_of_mem _ (h _ _ _ hi)

theorem items_succ (hi : i ∈ items m base depth kind p) :
    i ∈ items m base (depth + 1) kind p := by
  induction depth generalizing kind p i with
  | zero => cases hi
  | succ depth ih =>
    obtain ⟨d, hd, hi⟩ := List.mem_flatMap.mp hi
    exact List.mem_flatMap.mpr ⟨d, hd, declItems_mono (fun _ _ _ => ih) hi⟩

theorem items_add (n : Nat) (hi : i ∈ items m base depth kind p) :
    i ∈ items m base (depth + n) kind p := by
  induction n with
  | zero => exact hi
  | succ n ih => exact items_succ ih

/-! ## After the relocation -/

theorem addr_access : (i.access m base).addr = i.addr := by
  rcases i with ⟨a, role⟩
  cases role with
  | optional =>
    simp only [Item.access]
    split
    · rfl
    · rfl
  | _ => rfl

theorem size_access : (i.access m base).size = i.size := by
  rcases i with ⟨a, role⟩
  cases role with
  | optional =>
    simp only [Item.access]
    split
    · rfl
    · rfl
  | _ => rfl

theorem Flattened.pairwise (hflat : Flattened m base size) (depth : Nat) :
    ((items m base depth .clsModule base).map (Item.access m base)).Pairwise Access.Apart := by
  rw [List.pairwise_map]
  refine (hflat.apart depth).imp ?_
  intro i j hij
  unfold Access.Apart
  rw [addr_access, addr_access, size_access, size_access]
  exact hij

/-- The memory after `DoRelocCLS`. -/
def relocated (m : Mem) (base : UInt32) : Mem := ((doRelocCLS base).run m).2

theorem Flattened.relocated_eq (hflat : Flattened m base size) (depth : Nat) :
    relocated m base =
      applyAll ((items m base (depth + 5) .clsModule base).map (Item.access m base)) m :=
  moves_clsModule (hflat.pairwise _) m fun _ _ _ _ => rfl

theorem Flattened.read_stored (hflat : Flattened m base size) (hi : Reached m base i)
    {v : UInt32} (haccess : i.access m base = .store i.addr v) :
    (relocated m base).read32 i.addr = v := by
  obtain ⟨depth, hi⟩ := hi
  rw [hflat.relocated_eq depth]
  refine applyAll_store (hflat.pairwise _) ?_
  rw [← haccess]
  exact List.mem_map_of_mem (items_add 5 hi)

theorem Flattened.read_kept (hflat : Flattened m base size) (hi : Reached m base i)
    (haccess : i.access m base = .read i.addr 4) :
    (relocated m base).read32 i.addr = m.read32 i.addr := by
  obtain ⟨depth, hi⟩ := hi
  rw [hflat.relocated_eq depth]
  have hmem := List.mem_map_of_mem (f := Item.access m base) (items_add 5 hi)
  rw [haccess] at hmem
  apply read32_congr
  intro b hb
  exact applyAll_read (hflat.pairwise _) hmem hb

/-- Only pointers, and the tables without entries, are written. -/
theorem Flattened.kept (hflat : Flattened m base size) {a : UInt32}
    (ha : ∀ i, Reached m base i → i.IsPointer ∨ i.role = .empty → ¬ a - i.addr < 4) :
    relocated m base a = m a := by
  rw [hflat.relocated_eq 0]
  apply applyAll_of_not_covers
  intro b v hbv hcov
  obtain ⟨i, hi, haccess⟩ := List.mem_map.mp hbv
  have haddr : i.addr = b := by
    have h := congrArg Access.addr haccess
    rwa [addr_access] at h
  subst haddr
  refine ha i ⟨_, hi⟩ ?_ hcov
  rcases i with ⟨a, role⟩
  cases role with
  | scalar size => cases haccess
  | empty => exact Or.inr rfl
  | _ => exact Or.inl trivial

/-! ## Completeness -/

theorem complete_of_movable (hflat : Flattened m base size) (hmov : Movable m base) :
    Complete m base (relocated m base) where
  pointers := by
    intro i hi hptr
    obtain ⟨hname, hdeep⟩ := hmov i hi
    have hlink := hflat.links i hi
    rcases i with ⟨a, role⟩
    dsimp only at hname hdeep hlink ⊢
    cases role with
    | scalar size => cases hptr
    | empty => cases hptr
    | name =>
      rw [if_neg (hname rfl)]
      exact hflat.read_stored hi rfl
    | link =>
      rw [if_neg (hlink rfl)]
      exact hflat.read_stored hi rfl
    | deep =>
      rw [if_pos (hdeep rfl)]
      exact (hflat.read_kept hi rfl).trans (hdeep rfl)
    | optional =>
      split
      · rename_i hnull
        exact (hflat.read_kept hi (if_pos hnull)).trans hnull
      · rename_i hnull
        exact hflat.read_stored hi (if_neg hnull)
  others := fun _ ha => hflat.kept ha

theorem movable_of_complete (hflat : Flattened m base size) (hbase : base ≠ 0)
    (hcomp : Complete m base (relocated m base)) : Movable m base := by
  intro i hi
  have hptr := hcomp.pointers i hi
  rcases i with ⟨a, role⟩
  dsimp only at hptr ⊢
  constructor
  · rintro rfl hnull
    -- a missing name becomes the address of the module
    have hstored := hflat.read_stored hi (i := ⟨a, .name⟩) rfl
    rw [hptr trivial, if_pos hnull, target, hnull, zero_add] at hstored
    exact hbase hstored.symm
  · rintro rfl
    have hkept := hflat.read_kept hi (i := ⟨a, .deep⟩) rfl
    rw [hptr trivial] at hkept
    by_contra hnull
    rw [if_neg hnull] at hkept
    exact hbase (add_eq_left.mp hkept)

end SuperExe.Cls
