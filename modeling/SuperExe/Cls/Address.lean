import SuperExe.Cls.Relocation
import Mathlib.Tactic.Abel

/-! # Reading a module through the address helpers

The reflection reads a module through the helpers of `reflection/adjustaddr.h`.
`CClsModule` gives them the base 0 for a module that has been relocated into
memory of its own, and the address of the module for one that is read where it
was loaded, with offsets in its pointers. A query goes from the module through
tables and records; both modules answer it alike if the copy is relocated
completely.
-/

namespace SuperExe.Cls

open SuperExe.Lib Decl

/-! ## `adjustaddr.h` -/

section Helpers

/-- An entry of the table at `dir`. -/
def getAddr (base : UInt32) (m : Mem) (dir : UInt32) (index : Nat) : UInt32 :=
  m.read32 (dir + base + 4 * UInt32.ofNat index) + base

/-- A pointer, unless it is `NULL`. -/
def adjustAddr (base p : UInt32) : UInt32 := if p ≠ 0 then p + base else p

def getClassDirAddr := getAddr
def getInterfaceDirAddr := getAddr
def getStructDirAddr := getAddr
def getEnumDirAddr := getAddr
def getAliasDirAddr := getAddr
def getArrayDirAddr := getAddr
def getConstDirAddr := getAddr
def getMethodDescAddr := getAddr
def getParamDescAddr := getAddr
def getStructElementAddr := getAddr
def getEnumElementAddr := getAddr
def getCIFAddr := getAddr
def getLibNameAddr := getAddr

def adjustNameAddr := adjustAddr
def adjustIndexsAddr := adjustAddr
def adjustClassDescAddr := adjustAddr
def adjustInterfaceDescAddr := adjustAddr
def adjustMethodDescAddr := adjustAddr
def adjustParamDescAddr := adjustAddr
def adjustStructDescAddr := adjustAddr
def adjustEnumDescAddr := adjustAddr
def adjustTypeAddr := adjustAddr
def adjustNestedTypeAddr := adjustAddr

end Helpers

/-- The helpers that read a table. -/
inductive Getter where
  | classDir | interfaceDir | structDir | enumDir | aliasDir | arrayDir | constDir
  | methodDesc | paramDesc | structElement | enumElement | cif | libName

def Getter.run : Getter → UInt32 → Mem → UInt32 → Nat → UInt32
  | .classDir => getClassDirAddr
  | .interfaceDir => getInterfaceDirAddr
  | .structDir => getStructDirAddr
  | .enumDir => getEnumDirAddr
  | .aliasDir => getAliasDirAddr
  | .arrayDir => getArrayDirAddr
  | .constDir => getConstDirAddr
  | .methodDesc => getMethodDescAddr
  | .paramDesc => getParamDescAddr
  | .structElement => getStructElementAddr
  | .enumElement => getEnumElementAddr
  | .cif => getCIFAddr
  | .libName => getLibNameAddr

/-- The helpers that adjust a pointer. -/
inductive Adjuster where
  | name | indexs | classDesc | interfaceDesc | methodDesc | paramDesc | structDesc | enumDesc
  | type | nestedType

def Adjuster.run : Adjuster → UInt32 → UInt32 → UInt32
  | .name => adjustNameAddr
  | .indexs => adjustIndexsAddr
  | .classDesc => adjustClassDescAddr
  | .interfaceDesc => adjustInterfaceDescAddr
  | .methodDesc => adjustMethodDescAddr
  | .paramDesc => adjustParamDescAddr
  | .structDesc => adjustStructDescAddr
  | .enumDesc => adjustEnumDescAddr
  | .type => adjustTypeAddr
  | .nestedType => adjustNestedTypeAddr

theorem Getter.run_eq (h : Getter) : h.run = getAddr := by
  cases h <;> rfl

theorem Adjuster.run_eq (h : Adjuster) : h.run = adjustAddr := by
  cases h <;> rfl

/-! ## Queries -/

/-- One use of a helper: on the table, or on the pointer, at an offset of a
record. -/
inductive Step where
  | get (h : Getter) (off : UInt32) (index : Nat)
  | adjust (h : Adjuster) (off : UInt32)

def Step.run (base : UInt32) (m : Mem) (p : UInt32) : Step → UInt32
  | get h off index => h.run base m (m.read32 (p + off)) index
  | adjust h off => h.run base (m.read32 (p + off))

/-- What a query finds, from the record at `p`. -/
def answer (base : UInt32) (m : Mem) (p : UInt32) : List Step → UInt32
  | [] => p
  | s :: q => answer base m (s.run base m p) q

/-- The step reads this field of a record at `p`, within the bounds the record
gives, and finds a record of the kind if it finds one. -/
inductive Leads (m : Mem) (p : UInt32) : Decl → Step → Option Kind → Prop where
  | name (h : Adjuster) (off : UInt32) : Leads m p (name off) (.adjust h off) none
  | text (h : Adjuster) (off : UInt32) : Leads m p (text off) (.adjust h off) none
  | textIf (h : Adjuster) {tag : UInt32} (off : UInt32) (ht : m (p + tag) = typeString) :
    Leads m p (textIf tag off) (.adjust h off) none
  | indexes (h : Adjuster) {count : UInt32} (off : UInt32) (hc : m.read16 (p + count) ≠ 0) :
    Leads m p (indexes count off) (.adjust h off) none
  | desc (h : Adjuster) (off : UInt32) (k : Kind) :
    Leads m p (desc off k) (.adjust h off) (some k)
  | table (h : Getter) {count : UInt32} (off : UInt32) (k : Kind) {index : Nat}
    (hi : index < m.read16 (p + count)) : Leads m p (table count off k) (.get h off index) (some k)
  | names (h : Getter) {count : UInt32} (off : UInt32) {index : Nat}
    (hi : index < m.read16 (p + count)) : Leads m p (names count off) (.get h off index) none
  | nested (h : Adjuster) (off : UInt32) :
    Leads m p (nested off) (.adjust h (off + TypeDescriptor.mNestedType)) (some .typeDesc)

/-- The queries from a record of a kind at `p`: a query goes on from a record
that has been found. -/
inductive Query (base : UInt32) (m : Mem) : Kind → UInt32 → List Step → Prop where
  | nil (kind : Kind) (p : UInt32) : Query base m kind p []
  | last {kind : Kind} {p : UInt32} {d : Decl} {s : Step} {k : Option Kind}
    (hd : d ∈ decls kind) (hs : Leads m p d s k) : Query base m kind p [s]
  | cons {kind k : Kind} {p : UInt32} {d : Decl} {s : Step} {q : List Step}
    (hd : d ∈ decls kind) (hs : Leads m p d s (some k)) (hfound : s.run base m p ≠ 0)
    (hq : Query base m k (s.run base m p) q) : Query base m kind p (s :: q)

/-- `mBase` of `CClsModule` -/
def mBase (allocedClsMod : Bool) (clsMod : UInt32) : UInt32 :=
  if allocedClsMod then 0 else clsMod

/-- Both are `NULL`, or the same place of the two modules. -/
def SamePlace (inPlace copy x y : UInt32) : Prop := (x = 0 ∧ y = 0) ∨ y - copy = x - inPlace

/-- The relocated module `m'` at `copy` answers every query as the module in
place does, and holds the same data beside its pointers. -/
structure SameAnswers (mA : Mem) (inPlace : UInt32) (m : Mem) (copy : UInt32) (size : Nat)
    (m' : Mem) : Prop where
  places : ∀ q, Query (mBase false inPlace) mA .clsModule inPlace q →
    SamePlace inPlace copy (answer (mBase false inPlace) mA inPlace q)
      (answer (mBase true copy) m' copy q)
  data : ∀ off : UInt32, off.toNat < size →
    (∀ i, Reached m copy i → i.IsPointer ∨ i.role = .empty → ¬ copy + off - i.addr < 4) →
    m' (copy + off) = mA (inPlace + off)

/-! ## The same answers -/

section Same

variable {mA m : Mem} {A B a p : UInt32} {size : Nat} {kind : Kind}

/-- The block of `size` bytes at `B` is a copy of the one at `A`. -/
def Copied (mA : Mem) (A : UInt32) (m : Mem) (B : UInt32) (size : Nat) : Prop :=
  ∀ off : UInt32, off.toNat < size → mA (A + off) = m (B + off)

theorem Copied.byte (hcopy : Copied mA A m B size) {k : UInt32}
    (hin : (a - B).toNat + k.toNat < size) : mA (a - B + A + k) = m (a + k) := by
  have hoff := hcopy (a - B + k) (by
    rw [UInt32.toNat_add]
    exact Nat.lt_of_le_of_lt (Nat.mod_le _ _) hin)
  have hA : A + (a - B + k) = a - B + A + k := by abel
  have hB : B + (a - B + k) = a + k := by abel
  rwa [hA, hB] at hoff

theorem Copied.read32 (hcopy : Copied mA A m B size) (hin : (a - B).toNat + 4 ≤ size) :
    mA.read32 (a - B + A) = m.read32 a := by
  have hk : ∀ k : UInt32, k.toNat < 4 → mA (a - B + A + k) = m (a + k) :=
    fun k hk => hcopy.byte (by omega)
  have h₀ := hk 0 (by decide)
  rw [add_zero, add_zero] at h₀
  unfold Mem.read32
  rw [h₀, hk 1 (by decide), hk 2 (by decide), hk 3 (by decide)]

theorem Copied.read16 (hcopy : Copied mA A m B size) (hin : (a - B).toNat + 2 ≤ size) :
    mA.read16 (a - B + A) = m.read16 a := by
  have hk : ∀ k : UInt32, k.toNat < 2 → mA (a - B + A + k) = m (a + k) :=
    fun k hk => hcopy.byte (by omega)
  have h₀ := hk 0 (by decide)
  rw [add_zero, add_zero] at h₀
  unfold Mem.read16
  rw [h₀, hk 1 (by decide)]

/-- Everything that is reached from the record is reached from the module. -/
def Inside (m : Mem) (base : UInt32) (kind : Kind) (p : UInt32) : Prop :=
  ∀ depth, ∀ i ∈ items m base depth kind p, Reached m base i

theorem Inside.field (hin : Inside m B kind p) {d : Decl} (hd : d ∈ decls kind) (depth : Nat)
    {i : Item} (hi : i ∈ declItems m B (items m B depth) kind p d) : Reached m B i :=
  hin (depth + 1) i (List.mem_flatMap.mpr ⟨d, hd, hi⟩)

theorem mem_table {sub : Kind → UInt32 → List Item} {count off : UInt32} {k : Kind} {index : Nat}
    (hi : index < m.read16 (p + count)) :
    ⟨p + off, .link⟩ ∈ declItems m B sub kind p (table count off k) ∧
      ⟨entryAddr m B (p + off) index, .link⟩ ∈ declItems m B sub kind p (table count off k) ∧
      ∀ i ∈ sub k (target m B (entryAddr m B (p + off) index)),
        i ∈ declItems m B sub kind p (table count off k) := by
  have hzero : m.read16 (p + count) ≠ 0 := by omega
  have hentry : ∀ i ∈ (⟨entryAddr m B (p + off) index, .link⟩ : Item) ::
        sub k (target m B (entryAddr m B (p + off) index)),
      i ∈ declItems m B sub kind p (table count off k) := by
    intro i hmem
    rw [declItems, if_neg hzero]
    exact List.mem_cons_of_mem _ (List.mem_cons_of_mem _
      (List.mem_flatMap.mpr ⟨index, List.mem_range.mpr hi, hmem⟩))
  refine ⟨?_, hentry _ (List.mem_cons_self ..), fun i hmem => hentry i (List.mem_cons_of_mem _ hmem)⟩
  rw [declItems, if_neg hzero]
  exact List.mem_cons_of_mem _ (List.mem_cons_self ..)

theorem mem_names {sub : Kind → UInt32 → List Item} {count off : UInt32} {index : Nat}
    (hi : index < m.read16 (p + count)) :
    ⟨p + off, .link⟩ ∈ declItems m B sub kind p (names count off) ∧
      ⟨entryAddr m B (p + off) index, .name⟩ ∈ declItems m B sub kind p (names count off) := by
  have hzero : m.read16 (p + count) ≠ 0 := by omega
  rw [declItems, if_neg hzero]
  constructor
  · exact List.mem_cons_of_mem _ (List.mem_cons_self ..)
  · exact List.mem_cons_of_mem _ (List.mem_cons_of_mem _
      (List.mem_map.mpr ⟨index, List.mem_range.mpr hi, rfl⟩))

/-- A pointer of the copy, and how a step reads it in both modules. -/
structure Finds (mA : Mem) (A : UInt32) (m : Mem) (B : UInt32) (p : UInt32) (s : Step)
    (k : Option Kind) (i : Item) : Prop where
  reached : Reached m B i
  pointer : i.IsPointer
  inPlace : s.run A mA (p - B + A) = adjustAddr A (m.read32 i.addr)
  copy : s.run 0 (relocated m B) p = (relocated m B).read32 i.addr
  next : ∀ k', k = some k' → m.read32 i.addr ≠ 0 → Inside m B k' (target m B i.addr)

/-- The two answers of a step. -/
theorem Finds.places {s : Step} {k : Option Kind} {i : Item} (hfind : Finds mA A m B p s k i)
    (hcomp : Complete m B (relocated m B)) :
    (s.run A mA (p - B + A) = 0 ∧ s.run 0 (relocated m B) p = 0) ∨
      (s.run A mA (p - B + A) = m.read32 i.addr + A ∧
        s.run 0 (relocated m B) p = target m B i.addr ∧ m.read32 i.addr ≠ 0) := by
  rw [hfind.inPlace, hfind.copy, hcomp.pointers i hfind.reached hfind.pointer]
  by_cases hnull : m.read32 i.addr = 0
  · refine Or.inl ⟨?_, if_pos hnull⟩
    simp [adjustAddr, hnull]
  · exact Or.inr ⟨if_pos hnull, if_neg hnull, hnull⟩

variable (hflat : Flattened m B size) (hcopy : Copied mA A m B size)

include hflat hcopy

theorem read32_inPlace {off : UInt32} {role : Role} (hsize : (⟨p + off, role⟩ : Item).size = 4)
    (hi : Reached m B ⟨p + off, role⟩) : mA.read32 (p - B + A + off) = m.read32 (p + off) := by
  have hin := hflat.inside _ hi
  rw [hsize] at hin
  have hoff : p - B + A + off = p + off - B + A := by abel
  rw [hoff]
  exact hcopy.read32 hin

theorem read16_inPlace {off : UInt32} (hi : Reached m B ⟨p + off, .scalar 2⟩) :
    mA.read16 (p - B + A + off) = m.read16 (p + off) := by
  have hin := hflat.inside _ hi
  have hsize : (⟨p + off, .scalar 2⟩ : Item).size = 2 := rfl
  rw [hsize] at hin
  have hoff : p - B + A + off = p + off - B + A := by abel
  rw [hoff]
  exact hcopy.read16 hin

theorem byte_inPlace {off : UInt32} (hi : Reached m B ⟨p + off, .scalar 1⟩) :
    mA (p - B + A + off) = m (p + off) := by
  have hin := hflat.inside _ hi
  have hsize : (⟨p + off, .scalar 1⟩ : Item).size = 1 := rfl
  rw [hsize, UInt32.toNat_one] at hin
  dsimp only at hin
  have hbyte := hcopy.byte (a := p + off) (k := 0) (by rw [UInt32.toNat_zero]; omega)
  rw [add_zero, add_zero] at hbyte
  rw [← hbyte]
  congr 1
  abel

/-- A helper on a pointer of a record. -/
theorem finds_adjust (h : Adjuster) {off : UInt32} (role : Role) {k : Option Kind}
    (hsize : (⟨p + off, role⟩ : Item).size = 4) (hptr : (⟨p + off, role⟩ : Item).IsPointer)
    (hi : Reached m B ⟨p + off, role⟩)
    (hnext : ∀ k', k = some k' → m.read32 (p + off) ≠ 0 → Inside m B k' (target m B (p + off))) :
    Finds mA A m B p (.adjust h off) k ⟨p + off, role⟩ where
  reached := hi
  pointer := hptr
  inPlace := by
    rw [Step.run, h.run_eq, read32_inPlace hflat hcopy hsize hi]
  copy := by
    rw [Step.run, h.run_eq, adjustAddr, add_zero, ite_self]
  next := hnext

/-- A helper on an entry of a table. -/
theorem finds_get (h : Getter) {off : UInt32} {index : Nat} (role : Role) {k : Option Kind}
    (hsize : (⟨entryAddr m B (p + off) index, role⟩ : Item).size = 4)
    (hptr : (⟨entryAddr m B (p + off) index, role⟩ : Item).IsPointer)
    (hlink : Reached m B ⟨p + off, .link⟩)
    (hi : Reached m B ⟨entryAddr m B (p + off) index, role⟩)
    (hnull : m.read32 (entryAddr m B (p + off) index) ≠ 0)
    (hnext : ∀ k', k = some k' →
      Inside m B k' (target m B (entryAddr m B (p + off) index))) :
    Finds mA A m B p (.get h off index) k ⟨entryAddr m B (p + off) index, role⟩ where
  reached := hi
  pointer := hptr
  inPlace := by
    have haddr : m.read32 (p + off) + A + 4 * UInt32.ofNat index =
        entryAddr m B (p + off) index - B + A := by
      rw [entryAddr, target]
      abel
    have hin := hflat.inside _ hi
    rw [hsize] at hin
    rw [Step.run, h.run_eq, getAddr, read32_inPlace hflat hcopy rfl hlink, haddr,
      hcopy.read32 hin, adjustAddr, if_pos hnull]
  copy := by
    have htable : (relocated m B).read32 (p + off) = target m B (p + off) :=
      hflat.read_stored hlink rfl
    rw [Step.run, h.run_eq, getAddr, htable, add_zero, add_zero]
    rfl
  next := fun k' hk _ => hnext k' hk

/-- Every step of a query finds a pointer of the module. -/
theorem finds (hmov : Movable m B) (hin : Inside m B kind p) {d : Decl} (hd : d ∈ decls kind)
    {s : Step} {k : Option Kind} (hs : Leads mA (p - B + A) d s k) :
    ∃ i, Finds mA A m B p s k i := by
  -- by the way the getter leads; each of them reads a field that the layout names
  cases hs with
  | name h off =>
    exact ⟨_, finds_adjust hflat hcopy h .name rfl trivial
      (hin.field hd 0 (List.mem_singleton_self _)) (by simp)⟩
  | text h off =>
    exact ⟨_, finds_adjust hflat hcopy h .optional rfl trivial
      (hin.field hd 0 (List.mem_singleton_self _)) (by simp)⟩
  | textIf h off ht =>
    rw [byte_inPlace hflat hcopy (hin.field hd 0 (List.mem_cons_self ..))] at ht
    refine ⟨_, finds_adjust hflat hcopy h .optional rfl trivial (hin.field hd 0 ?_) (by simp)⟩
    simp [declItems, ht]
  | indexes h off hc =>
    rw [read16_inPlace hflat hcopy (hin.field hd 0 (List.mem_cons_self ..))] at hc
    refine ⟨_, finds_adjust hflat hcopy h .link rfl trivial (hin.field hd 0 ?_) (by simp)⟩
    simp [declItems, hc]
  | desc h off k =>
    refine ⟨_, finds_adjust hflat hcopy h .link rfl trivial
      (hin.field hd 0 (List.mem_cons_self ..)) ?_⟩
    intro k' hk _ depth i hi
    cases hk
    exact hin.field hd depth (List.mem_cons_of_mem _ hi)
  | table h off k hi =>
    rw [read16_inPlace hflat hcopy (hin.field hd 0 (List.mem_cons_self ..))] at hi
    obtain ⟨hlink, hentry, -⟩ := mem_table hi
    have hreach := hin.field hd 0 hentry
    refine ⟨_, finds_get hflat hcopy h .link rfl trivial (hin.field hd 0 hlink) hreach
      (hflat.links _ hreach rfl) ?_⟩
    intro k' hk depth i hmem
    cases hk
    exact hin.field hd depth ((mem_table hi).2.2 i hmem)
  | names h off hi =>
    rw [read16_inPlace hflat hcopy (hin.field hd 0 (List.mem_cons_self ..))] at hi
    obtain ⟨hlink, hentry⟩ := mem_names hi
    have hreach := hin.field hd 0 hentry
    exact ⟨_, finds_get hflat hcopy h .name rfl trivial (hin.field hd 0 hlink) hreach
      ((hmov _ hreach).1 rfl) (by simp)⟩
  | nested h off =>
    have hassoc : p + off + TypeDescriptor.mNestedType = p + (off + TypeDescriptor.mNestedType) :=
      add_assoc ..
    have hfield := hin.field hd 0 (List.mem_cons_self ..)
    have hnext : ∀ k', some Kind.typeDesc = some k' →
        m.read32 (p + (off + TypeDescriptor.mNestedType)) ≠ 0 →
        Inside m B k' (target m B (p + (off + TypeDescriptor.mNestedType))) := by
      intro k' hk hnull depth i hi
      cases hk
      refine hin.field hd depth (List.mem_cons_of_mem _ ?_)
      rw [hassoc, if_neg hnull]
      exact hi
    rw [hassoc] at hfield
    split at hfield
    · exact ⟨_, finds_adjust hflat hcopy h .deep rfl trivial hfield hnext⟩
    · exact ⟨_, finds_adjust hflat hcopy h .optional rfl trivial hfield hnext⟩

theorem same_places (hmov : Movable m B) {pA : UInt32} {q : List Step} (hq : Query A mA kind pA q)
    (hp : pA = p - B + A) (hin : Inside m B kind p) :
    SamePlace A B (answer A mA pA q) (answer 0 (relocated m B) p q) := by
  have hcomp := complete_of_movable hflat hmov
  induction hq generalizing p with
  | nil kind pA =>
    subst hp
    right
    simp only [answer]
    abel
  | last hd hs =>
    subst hp
    obtain ⟨i, hfind⟩ := finds hflat hcopy hmov hin hd hs
    rcases hfind.places hcomp with ⟨hx, hy⟩ | ⟨hx, hy, -⟩
    · exact Or.inl ⟨hx, hy⟩
    · right
      simp only [answer]
      rw [hx, hy, target]
      abel
  | cons hd hs hfound hq ih =>
    subst hp
    obtain ⟨i, hfind⟩ := finds hflat hcopy hmov hin hd hs
    rcases hfind.places hcomp with ⟨hx, -⟩ | ⟨hx, hy, hnull⟩
    · exact absurd hx hfound
    · simp only [answer]
      rw [hy]
      refine ih ?_ (hfind.next _ rfl hnull)
      rw [hx, target]
      abel

end Same

/-- Let the module in place at `A` be copied to `B`. The copy is relocated
completely, and both are read alike, if and only if no name is missing and no
nested type has a nested type. -/
theorem doRelocCLS_complete_iff (mA m : Mem) (A B : UInt32) (size : Nat) (hB : B ≠ 0)
    (hflat : Flattened m B size) (hcopy : Copied mA A m B size) :
    (Complete m B (relocated m B) ∧ SameAnswers mA A m B size (relocated m B)) ↔ Movable m B := by
  constructor
  · rintro ⟨hcomp, -⟩
    exact movable_of_complete hflat hB hcomp
  · intro hmov
    refine ⟨complete_of_movable hflat hmov, ?_, ?_⟩
    · intro q hq
      refine same_places hflat hcopy hmov hq ?_ fun depth i hi => ⟨depth, hi⟩
      simp
    · intro off hoff hpointers
      rw [hflat.kept hpointers]
      exact (hcopy off hoff).symm

/-! ## A module with one alias -/

instance (i j : Item) : Decidable (i.Apart j) := inferInstanceAs (Decidable (_ ∧ _))

/-- The memory with an image at `base`. -/
def load (image : List UInt8) (base : UInt32) : Mem := fun x => image.getD (x - base).toNat 0

theorem copied_load (image : List UInt8) (A B : UInt32) (size : Nat) :
    Copied (load image A) A (load image B) B size := by
  intro off _
  rw [load, load, add_sub_cancel_left, add_sub_cancel_left]

/-- The module, a table with one entry, the alias at 136, the type descriptor
nested in its type at 172, another one at 192 and a name. The word at 188 is the
nested type of the descriptor at 172. -/
def aliasImage (inner : UInt8) : List UInt8 :=
  List.replicate 60 0 ++ [212, 0, 0, 0] ++ List.replicate 16 0 ++ [1, 0] ++ List.replicate 30 0 ++
    [132, 0, 0, 0] ++ List.replicate 16 0 ++ [136, 0, 0, 0] ++ [212, 0, 0, 0] ++
    List.replicate 20 0 ++ [172, 0, 0, 0] ++ List.replicate 24 0 ++ [inner, 0, 0, 0] ++
    List.replicate 20 0 ++ [65, 0]

theorem aliasImage_counts {inner : UInt8} (hinner : inner = 0 ∨ inner = 192) :
    ∀ count ∈ [CLSModule.mDefinedInterfaceCount, CLSModule.mFileCount, CLSModule.mClassCount,
        CLSModule.mInterfaceCount, CLSModule.mArrayCount, CLSModule.mStructCount,
        CLSModule.mEnumCount, CLSModule.mConstCount, CLSModule.mLibraryCount],
      (load (aliasImage inner) 4096).read16 (4096 + count) = 0 := by
  -- not decided as it stands: a `∀` over `UInt32` would be tried for every word
  simp only [List.forall_mem_cons, List.not_mem_nil, false_imp_iff, implies_true, and_true]
  rcases hinner with rfl | rfl
  · decide
  · decide

theorem aliasImage_links {inner : UInt8} (hinner : inner = 0 ∨ inner = 192) :
    (load (aliasImage inner) 4096).read16 (4096 + CLSModule.mAliasCount) = 1 ∧
      entryAddr (load (aliasImage inner) 4096) 4096 (4096 + CLSModule.mAliasDirs) 0 = 4228 ∧
      target (load (aliasImage inner) 4096) 4096 4228 = 4232 ∧
      target (load (aliasImage inner) 4096) 4096
        (4232 + AliasDirEntry.mType + TypeDescriptor.mNestedType) = 4268 := by
  rcases hinner with rfl | rfl
  · decide
  · decide

/-- Nothing lies deeper than the second nested descriptor. -/
theorem aliasImage_depth {inner : UInt8} (hinner : inner = 0 ∨ inner = 192) (n : Nat) :
    items (load (aliasImage inner) 4096) 4096 (n + 5) .clsModule 4096 =
      items (load (aliasImage inner) 4096) 4096 5 .clsModule 4096 := by
  have hcounts := aliasImage_counts hinner
  simp only [List.forall_mem_cons] at hcounts
  obtain ⟨h₁, h₂, h₃, h₄, h₅, h₆, h₇, h₈, h₉, -⟩ := hcounts
  obtain ⟨hone, htable, hentry, hnested⟩ := aliasImage_links hinner
  have htypes : ∀ n, items (load (aliasImage inner) 4096) 4096 (n + 3) .typeDesc 4268 =
      items (load (aliasImage inner) 4096) 4096 3 .typeDesc 4268 := by
    intro n
    rcases hinner with rfl | rfl
    · have hnull : (load (aliasImage 0) 4096).read32
          (4268 + 0 + TypeDescriptor.mNestedType) = 0 := by decide
      simp only [items, decls, declItems, List.flatMap_cons, List.flatMap_nil, hnull, if_true]
    · have hdeep : target (load (aliasImage 192) 4096) 4096
          (4268 + 0 + TypeDescriptor.mNestedType) = 4288 := by decide
      have hnull : (load (aliasImage 192) 4096).read32
          (4288 + 0 + TypeDescriptor.mNestedType) = 0 := by decide
      simp only [items, decls, declItems, List.flatMap_cons, List.flatMap_nil, hdeep, hnull, if_true]
  rw [items, items.eq_def _ _ 5]
  simp only [decls, declItems, List.flatMap_cons, List.flatMap_nil, h₁, h₂, h₃, h₄, h₅, h₆, h₇, h₈,
    h₉, hone, List.range_one, htable, hentry, if_true]
  rw [items, items.eq_def _ _ 4]
  simp only [decls, declItems, List.flatMap_cons, List.flatMap_nil, hnested, htypes]

theorem aliasImage_reached {inner : UInt8} (hinner : inner = 0 ∨ inner = 192) {i : Item}
    (hi : Reached (load (aliasImage inner) 4096) 4096 i) :
    i ∈ items (load (aliasImage inner) 4096) 4096 5 .clsModule 4096 := by
  obtain ⟨depth, hi⟩ := hi
  rw [← aliasImage_depth hinner depth]
  exact items_add 5 hi

theorem aliasImage_flattened {inner : UInt8} (hinner : inner = 0 ∨ inner = 192) :
    Flattened (load (aliasImage inner) 4096) 4096 214 where
  apart := by
    have hsmall : ∀ depth ≤ 5,
        (items (load (aliasImage inner) 4096) 4096 depth .clsModule 4096).Pairwise Item.Apart := by
      rcases hinner with rfl | rfl
      · decide
      · decide
    intro depth
    by_cases hdepth : depth ≤ 5
    · exact hsmall depth hdepth
    · obtain ⟨n, rfl⟩ : ∃ n, depth = n + 5 := ⟨depth - 5, by omega⟩
      rw [aliasImage_depth hinner]
      exact hsmall 5 (Nat.le_refl 5)
  inside := by
    have hall : ∀ i ∈ items (load (aliasImage inner) 4096) 4096 5 .clsModule 4096,
        (i.addr - 4096).toNat + i.size.toNat ≤ 214 := by
      rcases hinner with rfl | rfl
      · decide
      · decide
    exact fun i hi => hall i (aliasImage_reached hinner hi)
  links := by
    have hall : ∀ i ∈ items (load (aliasImage inner) 4096) 4096 5 .clsModule 4096,
        i.role = .link → (load (aliasImage inner) 4096).read32 i.addr ≠ 0 := by
      rcases hinner with rfl | rfl
      · decide
      · decide
    exact fun i hi => hall i (aliasImage_reached hinner hi)

/-- An alias of a type that is nested once: the copy at 4096 is relocated, and
is read as the module at 8192. -/
theorem doRelocCLS_nested_once :
    Complete (load (aliasImage 0) 4096) 4096 (relocated (load (aliasImage 0) 4096) 4096) ∧
      SameAnswers (load (aliasImage 0) 8192) 8192 (load (aliasImage 0) 4096) 4096 214
        (relocated (load (aliasImage 0) 4096) 4096) := by
  have hall : ∀ i ∈ items (load (aliasImage 0) 4096) 4096 5 .clsModule 4096,
      (i.role = .name → (load (aliasImage 0) 4096).read32 i.addr ≠ 0) ∧
        (i.role = .deep → (load (aliasImage 0) 4096).read32 i.addr = 0) := by
    decide
  exact (doRelocCLS_complete_iff _ _ 8192 4096 214 (by decide) (aliasImage_flattened (Or.inl rfl))
    (copied_load _ _ _ _)).mpr fun i hi => hall i (aliasImage_reached (Or.inl rfl) hi)

/-- An alias of a type that is nested twice: the pointer at 188 is left as an
offset. -/
theorem doRelocCLS_nested_twice :
    ¬ ∀ (mA m : Mem) (A B : UInt32) (size : Nat), B ≠ 0 → Flattened m B size →
      Copied mA A m B size →
      Complete m B (relocated m B) ∧ SameAnswers mA A m B size (relocated m B) := by
  intro h
  have hflat : Flattened (load (aliasImage 192) 4096) 4096 214 :=
    aliasImage_flattened (Or.inr rfl)
  obtain ⟨hcomp, -⟩ := h (load (aliasImage 192) 8192) _ 8192 4096 214 (by decide) hflat
    (copied_load _ _ _ _)
  have hdeep : ⟨4284, .deep⟩ ∈ items (load (aliasImage 192) 4096) 4096 5 .clsModule 4096 := by
    decide
  have hnull := (movable_of_complete hflat (by decide) hcomp _ ⟨5, hdeep⟩).2 rfl
  have hread : (load (aliasImage 192) 4096).read32 4284 = 192 := by decide
  rw [hread] at hnull
  cases hnull

end SuperExe.Cls
