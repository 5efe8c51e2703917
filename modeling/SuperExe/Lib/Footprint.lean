import Mathlib.Data.List.Pairwise
import Mathlib.Data.UInt

/-! # Footprints

A byte memory with 32-bit addresses, and programs over it whose footprint is
known beforehand: the list of the places a program reads and of the words it
stores, in its order. `Effect m₀ l c` says that `l` is the footprint of `c` on
every memory that holds there what `m₀` holds, as long as the places of `l` do
not overlap; the rules below follow the shape of the program. What the memory
holds afterwards is then read off the list.
-/

namespace SuperExe.Lib

/-- A memory of bytes. -/
abbrev Mem := UInt32 → UInt8

namespace Mem

/-- The 16-bit number at `a`, in little-endian order. -/
def read16 (m : Mem) (a : UInt32) : Nat := (m a).toNat + 256 * (m (a + 1)).toNat

/-- The 32-bit word at `a`. -/
def read32 (m : Mem) (a : UInt32) : UInt32 :=
  UInt32.ofNat ((m a).toNat + 256 * ((m (a + 1)).toNat +
    256 * ((m (a + 2)).toNat + 256 * (m (a + 3)).toNat)))

def write32 (m : Mem) (a v : UInt32) : Mem :=
  fun x => if x - a < 4 then UInt8.ofNat (v.toNat / 256 ^ (x - a).toNat) else m x

end Mem

/-! ## Places -/

/-- A place in memory: bytes that are read, or a word that is stored. -/
inductive Access where
  | read (addr size : UInt32)
  | store (addr value : UInt32)

namespace Access

def addr : Access → UInt32
  | read a _ => a
  | store a _ => a

def size : Access → UInt32
  | read _ n => n
  | store _ _ => 4

def Covers (x : Access) (a : UInt32) : Prop := a - x.addr < x.size

/-- The two places have no byte in common. -/
def Apart (x y : Access) : Prop := x.size ≤ y.addr - x.addr ∧ y.size ≤ x.addr - y.addr

def apply (m : Mem) : Access → Mem
  | read _ _ => m
  | store a v => m.write32 a v

end Access

open Access

variable {m m₀ : Mem} {l l₁ l₂ : List Access} {x y : Access} {a v : UInt32}

theorem Access.Apart.not_covers (h : x.Apart y) (ha : x.Covers a) : ¬ y.Covers a := by
  obtain ⟨h₁, h₂⟩ := h
  unfold Covers at *
  rw [UInt32.le_iff_toNat_le, UInt32.toNat_sub] at h₁ h₂
  rw [UInt32.lt_iff_toNat_lt, UInt32.toNat_sub] at *
  have hx := x.addr.toNat_lt
  have hy := y.addr.toNat_lt
  have hz := a.toNat_lt
  omega

instance : Std.Symm Apart := ⟨fun _ _ h => ⟨h.2, h.1⟩⟩

/-- The memory with the words of the list stored. -/
def applyAll (l : List Access) (m : Mem) : Mem := l.foldl apply m

theorem apply_of_not_covers (h : ∀ b w, x = store b w → ¬ x.Covers a) : x.apply m a = m a := by
  cases x with
  | read b n => rfl
  | store b w => exact if_neg (h b w rfl)

/-- A byte that no word is stored over stays. -/
theorem applyAll_of_not_covers (h : ∀ b w, store b w ∈ l → ¬ (store b w).Covers a) :
    applyAll l m a = m a := by
  induction l generalizing m with
  | nil => rfl
  | cons x l ih =>
    have hx : x.apply m a = m a := by
      apply apply_of_not_covers
      rintro b w rfl
      exact h b w (by simp)
    have hrest := ih (m := x.apply m) fun b w hbw => h b w (List.mem_cons_of_mem x hbw)
    exact hrest.trans hx

theorem applyAll_append : applyAll (l₁ ++ l₂) m = applyAll l₂ (applyAll l₁ m) :=
  List.foldl_append

/-! ## Words -/

theorem read32_congr {m' : Mem} (h : ∀ b, b - a < 4 → m b = m' b) : m.read32 a = m'.read32 a := by
  have h₀ : m a = m' a := h a (by rw [sub_self]; decide)
  have hk : ∀ k : UInt32, k < 4 → m (a + k) = m' (a + k) := by
    intro k hk
    exact h (a + k) (by rwa [add_sub_cancel_left])
  unfold Mem.read32
  rw [h₀, hk 1 (by decide), hk 2 (by decide), hk 3 (by decide)]

theorem read16_congr {m' : Mem} (h : ∀ b, b - a < 2 → m b = m' b) : m.read16 a = m'.read16 a := by
  have h₀ : m a = m' a := h a (by rw [sub_self]; decide)
  have h₁ : m (a + 1) = m' (a + 1) := h (a + 1) (by rw [add_sub_cancel_left]; decide)
  unfold Mem.read16
  rw [h₀, h₁]

theorem read32_write32 : (m.write32 a v).read32 a = v := by
  have hk : ∀ k : UInt32, k < 4 →
      ((m.write32 a v) (a + k)).toNat = v.toNat / 256 ^ k.toNat % 256 := by
    intro k hk
    rw [Mem.write32, add_sub_cancel_left, if_pos hk, UInt8.toNat_ofNat']
  have h₀ := hk 0 (by decide)
  rw [add_zero] at h₀
  have hlt := v.toNat_lt
  apply UInt32.toNat_inj.mp
  rw [Mem.read32, h₀, hk 1 (by decide), hk 2 (by decide), hk 3 (by decide), UInt32.toNat_ofNat']
  simp only [UInt32.toNat_zero, UInt32.toNat_one, UInt32.reduceToNat]
  omega

/-- A stored word stands there at the end. -/
theorem applyAll_store (hl : l.Pairwise Apart) (h : store a v ∈ l) :
    (applyAll l m).read32 a = v := by
  induction l generalizing m with
  | nil => cases h
  | cons x l ih =>
    obtain ⟨hx, hl⟩ := List.pairwise_cons.mp hl
    rcases List.mem_cons.mp h with rfl | h
    · have hkept : (applyAll l (m.write32 a v)).read32 a = (m.write32 a v).read32 a := by
        apply read32_congr
        intro b hb
        apply applyAll_of_not_covers
        intro c w hcw
        exact (hx _ hcw).not_covers hb
      exact hkept.trans read32_write32
    · exact ih hl h

/-- What is only read is not changed. -/
theorem applyAll_read {n : UInt32} (hl : l.Pairwise Apart) (h : read a n ∈ l) {b : UInt32}
    (hb : b - a < n) : applyAll l m b = m b := by
  apply applyAll_of_not_covers
  intro c w hcw
  have hne : read a n ≠ store c w := by simp
  exact (hl.forall h hcw hne).not_covers hb

/-! ## Programs -/

/-- The two memories hold the same at the places of the list. -/
def Agree (l : List Access) (m m₀ : Mem) : Prop := ∀ x ∈ l, ∀ a, x.Covers a → m a = m₀ a

/-- The program reads and stores what the list says. -/
def Effect (m₀ : Mem) (l : List Access) (c : StateM Mem Unit) : Prop :=
  l.Pairwise Apart → ∀ m, Agree l m m₀ → (c.run m).2 = applyAll l m

def load8 (a : UInt32) : StateM Mem UInt8 := do return (← get) a

def load16 (a : UInt32) : StateM Mem Nat := do return (← get).read16 a

def load32 (a : UInt32) : StateM Mem UInt32 := do return (← get).read32 a

def store32 (a v : UInt32) : StateM Mem Unit := modify fun m => m.write32 a v

theorem Agree.of_append_left (h : Agree (l₁ ++ l₂) m m₀) : Agree l₁ m m₀ :=
  fun x hx => h x (List.mem_append_left l₂ hx)

/-- What the first places hold does not touch the others. -/
theorem Agree.applyAll (h : Agree (l₁ ++ l₂) m m₀) (hl : (l₁ ++ l₂).Pairwise Apart) :
    Agree l₂ (applyAll l₁ m) m₀ := by
  intro x hx a ha
  rw [← h x (List.mem_append_right l₁ hx) a ha]
  apply applyAll_of_not_covers
  intro b w hbw hcov
  exact ((List.pairwise_append.mp hl).2.2 _ hbw x hx).not_covers hcov ha

section Rules

variable {c c₁ c₂ : StateM Mem Unit} {f : UInt32 → StateM Mem Unit}

theorem effect_reads (h : ∀ x ∈ l, ∀ b w, x ≠ store b w) : Effect m₀ l (pure ()) := by
  intro _ m _
  funext a
  refine (applyAll_of_not_covers ?_).symm
  intro b w hbw
  exact absurd rfl (h _ hbw b w)

theorem Effect.seq (h₁ : Effect m₀ l₁ c₁) (h₂ : Effect m₀ l₂ c₂) :
    Effect m₀ (l₁ ++ l₂) (do c₁; c₂) := by
  intro hl m hm
  have hrun : (StateT.run (do c₁; c₂) m).2 = (c₂.run (c₁.run m).2).2 := rfl
  obtain ⟨hl₁, hl₂, -⟩ := List.pairwise_append.mp hl
  rw [hrun, h₁ hl₁ m hm.of_append_left, h₂ hl₂ _ (hm.applyAll hl), applyAll_append]

/-- Places that the program leaves alone may stand in its footprint. -/
theorem Effect.skip (h₁ : Effect m₀ l₁ (pure ())) (h₂ : Effect m₀ l₂ c) :
    Effect m₀ (l₁ ++ l₂) c := h₁.seq h₂

theorem Effect.forM {α : Type} {xs : List α} {body : α → StateM Mem Unit} {places : α → List Access}
    (h : ∀ x ∈ xs, Effect m₀ (places x) (body x)) :
    Effect m₀ (xs.flatMap places) (xs.forM body) := by
  induction xs with
  | nil => exact effect_reads (by simp)
  | cons x xs ih =>
    rw [List.flatMap_cons]
    exact (h x (by simp)).seq (ih fun y hy => h y (List.mem_cons_of_mem x hy))

theorem effect_load16 {f : Nat → StateM Mem Unit} (h : Effect m₀ l (f (m₀.read16 a))) :
    Effect m₀ (read a 2 :: l) (load16 a >>= f) := by
  intro hl m hm
  have hread : m.read16 a = m₀.read16 a :=
    read16_congr fun b hb => hm (read a 2) (List.mem_cons_self ..) b hb
  have hrun : ((load16 a >>= f).run m).2 = ((f (m.read16 a)).run m).2 := rfl
  rw [hrun, hread]
  exact h (List.pairwise_cons.mp hl).2 m fun x hx => hm x (List.mem_cons_of_mem _ hx)

theorem effect_load8 {f : UInt8 → StateM Mem Unit} (h : Effect m₀ l (f (m₀ a))) :
    Effect m₀ (read a 1 :: l) (load8 a >>= f) := by
  intro hl m hm
  have hread : m a = m₀ a := hm _ (List.mem_cons_self ..) a (by
    unfold Covers
    rw [Access.addr, sub_self]
    exact (by decide : (0 : UInt32) < 1))
  have hrun : ((load8 a >>= f).run m).2 = ((f (m a)).run m).2 := rfl
  rw [hrun, hread]
  exact h (List.pairwise_cons.mp hl).2 m fun x hx => hm x (List.mem_cons_of_mem _ hx)

/-- A word of the footprint may be read first. -/
theorem effect_load32 (hx : x ∈ l) (ha : x.addr = a) (hsize : x.size = 4)
    (h : Effect m₀ l (f (m₀.read32 a))) : Effect m₀ l (load32 a >>= f) := by
  intro hl m hm
  have hread : m.read32 a = m₀.read32 a := by
    apply read32_congr
    intro b hb
    apply hm x hx b
    unfold Covers
    rwa [ha, hsize]
  have hrun : ((load32 a >>= f).run m).2 = ((f (m.read32 a)).run m).2 := rfl
  rw [hrun, hread]
  exact h hl m hm

theorem effect_store : Effect m₀ [store a v] (store32 a v) := fun _ _ _ => rfl

end Rules

end SuperExe.Lib
