import SuperExe.Reflection.InterfaceList
import Mathlib.Data.UInt
import Mathlib.Tactic.IntervalCases

/-! # Numbers of methods

The interfaces of a module hang together by their parents, up to the interface 0.
The number of an interface's first method is the number of methods that its
proper ancestors have, behind the four slots that every table starts with; both
lists, that of a class and that of an interface, agree on it.
-/

namespace SuperExe.Reflection.VTable

open SuperExe.Lib

/-- Every interface has a parent in the module, but for the interface 0, which all
parents lead to. -/
structure Hierarchy (M : ClsModule) : Prop where
  parent_lt : ∀ x < M.mInterfaceCount.toNat, x ≠ 0 → M.parent x < M.mInterfaceCount.toNat
  reaches : ∀ x < M.mInterfaceCount.toNat, ∃ n, M.parent^[n] x = 0

/-- An interface with its ancestors, from itself up to the root. -/
abbrev Ancestors (M : ClsModule) : Nat → List Nat → Prop := Path M.parent 0

/-- The number of the first method, for the ancestors of an interface. -/
def firstNo (M : ClsModule) (ancestors : List Nat) : Nat :=
  4 + (ancestors.tail.map M.methodCount).sum

section Climb

variable {M : ClsModule} {x : Nat} {l : List Nat}

theorem Hierarchy.exists_ancestors (hM : Hierarchy M) (hx : x < M.mInterfaceCount.toNat) :
    ∃ l, Ancestors M x l := by
  rcases hM.reaches x hx with ⟨n, hn⟩
  exact Path.exists_of_iterate hn

theorem Hierarchy.lt_of_mem (hM : Hierarchy M) (hl : Ancestors M x l)
    (hx : x < M.mInterfaceCount.toNat) : ∀ y ∈ l, y < M.mInterfaceCount.toNat :=
  Path.lt_of_mem hM.parent_lt hl hx

theorem climb_of_length_le (hl : Ancestors M x l) {n : Nat} (hn : l.length ≤ n) :
    climb M n x = some l := by
  induction hl generalizing n with
  | root =>
    cases n with
    | zero => cases hn
    | succ n => rfl
  | @step x l hx hl ih =>
    cases n with
    | zero => cases hn
    | succ n =>
      have hrest := ih (n := n) (by simpa using hn)
      simp [climb, hx, hrest]

/-- `indexList` has room for the ancestors. -/
theorem Hierarchy.climb_eq (hM : Hierarchy M) (hl : Ancestors M x l)
    (hx : x < M.mInterfaceCount.toNat) : climb M M.mInterfaceCount.toNat x = some l :=
  climb_of_length_le hl (length_le_of_nodup hl.nodup (hM.lt_of_mem hl hx))

/-- The number after the methods of an interface is the first number of its
children. -/
theorem firstNo_cons (hl : Ancestors M x l) (y : Nat) :
    firstNo M (y :: l) = firstNo M l + M.methodCount x := by
  cases hl with
  | root => simp [firstNo]
  | step _ _ =>
    simp only [firstNo, List.tail_cons, List.map_cons, List.sum_cons]
    omega

end Climb

/-! ## The entries of a class -/

section Listing

variable {M : ClsModule}

/-- The entry is the interface's own, with the right number. -/
structure Numbered (M : ClsModule) (e : IFIndexEntry) : Prop where
  lt : e.mIndex < M.mInterfaceCount.toNat
  desc : e.mDesc = (M.mInterfaceDirs e.mIndex).mDesc
  name : e.mName = (M.mInterfaceDirs e.mIndex).mName
  nameSpace : e.mNameSpace = (M.mInterfaceDirs e.mIndex).mNameSpace
  beginNo : ∀ l, Ancestors M e.mIndex l → e.mBeginNo = UInt32.ofNat (firstNo M l)

theorem numbered_newEntry {x : Nat} {l : List Nat} (hx : x < M.mInterfaceCount.toNat)
    (hl : Ancestors M x l) (normal callback : Bool) :
    Numbered M (newEntry M x (UInt32.ofNat (firstNo M l)) normal callback) where
  lt := hx
  desc := rfl
  name := rfl
  nameSpace := rfl
  beginNo l' hl' := by
    rw [hl.unique hl']
    rfl

theorem Numbered.methodCount {e : IFIndexEntry} (he : Numbered M e) :
    (e.methodCount M).toNat = M.methodCount e.mIndex := by
  rw [IFIndexEntry.methodCount, he.desc]
  rfl

theorem Numbered.toUInt32 {e : IFIndexEntry} (he : Numbered M e) :
    (e.methodCount M).toUInt32 = UInt32.ofNat (M.methodCount e.mIndex) := by
  rw [← he.methodCount, ← UInt32.toNat_inj, UInt16.toNat_toUInt32, UInt32.toNat_ofNat_of_lt']
  exact lt_of_lt_of_le (e.methodCount M).toNat_lt (by decide)

/-- The number after the last method of an entry. -/
theorem Numbered.next {e : IFIndexEntry} (he : Numbered M e) {l : List Nat}
    (hl : Ancestors M e.mIndex l) :
    e.mBeginNo + (e.methodCount M).toUInt32 =
      UInt32.ofNat (firstNo M l + M.methodCount e.mIndex) := by
  rw [he.beginNo l hl, he.toUInt32, UInt32.ofNat_add]

theorem numbered_markEntry {e : IFIndexEntry} (he : Numbered M e) (isCallBack : Bool) :
    Numbered M (markEntry isCallBack e) := by
  unfold markEntry
  split
  · exact { he with }
  · exact { he with }

@[simp] theorem markEntry_mIndex (isCallBack : Bool) (e : IFIndexEntry) :
    (markEntry isCallBack e).mIndex = e.mIndex := by
  unfold markEntry
  split <;> rfl

/-- Ancestors are listed once, and not behind their descendants. -/
structure TopDown (M : ClsModule) (l : List Nat) : Prop where
  nodup : l.Nodup
  lt : ∀ x ∈ l, x < M.mInterfaceCount.toNat
  closed : ∀ x ∈ l, ∀ a, Ancestors M x a → a ⊆ l
  order : l.Pairwise fun x y => ∀ a, Ancestors M x a → y ∉ a

theorem TopDown.length_le {l : List Nat} (h : TopDown M l) : l.length ≤ M.mInterfaceCount.toNat :=
  length_le_of_nodup h.nodup h.lt

theorem TopDown.head {x : Nat} {l : List Nat} (hM : Hierarchy M) (h : TopDown M (x :: l)) :
    x = 0 := by
  rcases hM.exists_ancestors (h.lt x List.mem_cons_self) with ⟨a, ha⟩
  have hroot := h.closed x List.mem_cons_self a ha ha.root_mem
  rcases List.mem_cons.mp hroot with hx | hl
  · exact hx.symm
  · exact absurd ha.root_mem (List.rel_of_pairwise_cons h.order hl a ha)

/-- An interface is listed after its parent. -/
theorem TopDown.push {x : Nat} {l a : List Nat} (h : TopDown M l) (ha : Ancestors M x a)
    (hlt : x < M.mInterfaceCount.toNat) (hx : x ∉ l) (htail : a.tail ⊆ l) :
    TopDown M (l ++ [x]) where
  nodup := List.nodup_append.mpr ⟨h.nodup, List.nodup_singleton x, by
    rintro y hy z hz rfl
    rw [List.mem_singleton] at hz
    exact hx (hz ▸ hy)⟩
  lt y hy := by
    rcases List.mem_append.mp hy with hy | hy
    · exact h.lt y hy
    · rw [List.mem_singleton.mp hy]
      exact hlt
  closed y hy b hb := by
    rcases List.mem_append.mp hy with hy | hy
    · exact List.Subset.trans (h.closed y hy b hb) (List.subset_append_left _ _)
    · cases List.mem_singleton.mp hy
      rw [hb.unique ha]
      intro z hz
      cases ha with
      | root => exact List.mem_append_right _ hz
      | step _ _ =>
        rcases List.mem_cons.mp hz with rfl | hz
        · exact List.mem_append_right _ (List.mem_singleton_self _)
        · exact List.mem_append_left _ (htail hz)
  order := by
    refine List.pairwise_append.mpr ⟨h.order, List.pairwise_singleton _ _, ?_⟩
    intro y hy z hz b hb hzb
    cases List.mem_singleton.mp hz
    exact hx (h.closed y hy b hb hzb)

/-- The list of a class, when `normal` and `callback` are the interfaces listed so
far. -/
structure Listed (M : ClsModule) (normal callback : Nat → Prop) (s : Listing) : Prop where
  topDown : TopDown M (s.allIFList.map (·.mIndex))
  numbered : ∀ e ∈ s.allIFList, Numbered M e
  listed : ∀ x, x ∈ s.allIFList.map (·.mIndex) ↔ normal x ∨ callback x
  normal_iff : ∀ e ∈ s.allIFList, e.normal = true ↔ normal e.mIndex
  callback_iff : ∀ e ∈ s.allIFList, e.callback = true ↔ callback e.mIndex
  mIFCount : s.mIFCount = s.allIFList.countP (·.normal)
  mCBIFCount : s.mCBIFCount = s.allIFList.countP (·.callback)
  start : s.allIFList = [] → s.beginNo = METHOD_START_NO

theorem findInterface_eq_some {isCallBack : Bool} {x : Nat} {l l' : List IFIndexEntry}
    {e : IFIndexEntry} (h : findInterface isCallBack x l = some (e, l')) :
    ∃ l₁ l₂, l = l₁ ++ e :: l₂ ∧ e.mIndex = x ∧ l' = l₁ ++ markEntry isCallBack e :: l₂ := by
  induction l generalizing l' with
  | nil => cases h
  | cons a l ih =>
    rw [findInterface] at h
    split at h
    · cases h
      exact ⟨[], l, rfl, ‹_›, rfl⟩
    · rcases Option.map_eq_some_iff.mp h with ⟨⟨e', rest⟩, hrest, heq⟩
      injection heq with he hl'
      subst he hl'
      rcases ih hrest with ⟨l₁, l₂, hl, hx, hrest⟩
      exact ⟨a :: l₁, l₂, by rw [hl]; rfl, hx, by rw [hrest]; rfl⟩

theorem findInterface_eq_none {isCallBack : Bool} {x : Nat} {l : List IFIndexEntry}
    (h : findInterface isCallBack x l = none) : x ∉ l.map (·.mIndex) := by
  induction l with
  | nil => exact List.not_mem_nil
  | cons a l ih =>
    rw [findInterface] at h
    split at h
    · cases h
    · rw [Option.map_eq_none_iff] at h
      rw [List.map_cons, List.mem_cons, not_or]
      exact ⟨fun hx => ‹¬ _› hx.symm, ih h⟩

/-- One more interface. -/
def addTo (p : Nat → Prop) (here : Prop) (x : Nat) : Nat → Prop := fun y => p y ∨ (here ∧ y = x)

variable {normal callback : Nat → Prop} {s : Listing}

theorem Listed.mark (h : Listed M normal callback s) (isCallBack : Bool) {e : IFIndexEntry}
    {l₁ l₂ : List IFIndexEntry} (hs : s.allIFList = l₁ ++ e :: l₂) (beginNo : UInt32) :
    Listed M (addTo normal (isCallBack = false) e.mIndex) (addTo callback (isCallBack = true) e.mIndex)
      { allIFList := l₁ ++ markEntry isCallBack e :: l₂
        beginNo := beginNo
        mIFCount := if ¬ isCallBack ∧ ¬ e.normal then s.mIFCount + 1 else s.mIFCount
        mCBIFCount := if isCallBack ∧ ¬ e.callback then s.mCBIFCount + 1 else s.mCBIFCount } := by
  have hmap : (l₁ ++ markEntry isCallBack e :: l₂).map (·.mIndex) =
      s.allIFList.map (·.mIndex) := by
    rw [hs]
    simp
  have he : e ∈ s.allIFList := by
    rw [hs]
    simp
  -- an entry is the marked one, or an old one with another index
  have hmem : ∀ e', e' ∈ l₁ ++ markEntry isCallBack e :: l₂ →
      e' = markEntry isCallBack e ∨ (e' ∈ s.allIFList ∧ e'.mIndex ≠ e.mIndex) := by
    have hnodup := h.topDown.nodup
    rw [hs, List.map_append, List.map_cons, List.nodup_middle, List.nodup_cons,
      ← List.map_append] at hnodup
    intro e' he'
    by_cases hmark : e' = markEntry isCallBack e
    · exact .inl hmark
    · have hrest : e' ∈ l₁ ++ l₂ := by simpa [hmark] using he'
      refine .inr ⟨?_, ?_⟩
      · rw [hs]
        rcases List.mem_append.mp hrest with hl | hl
        · exact List.mem_append_left _ hl
        · exact List.mem_append_right _ (List.mem_cons_of_mem _ hl)
      · intro heq
        exact hnodup.1 (heq ▸ List.mem_map_of_mem hrest)
  -- the index is in the list already, so nothing has to be added
  have hlisted := (h.listed e.mIndex).mp (List.mem_map_of_mem he)
  constructor
  · dsimp only
    rw [hmap]
    exact h.topDown
  · intro e' he'
    rcases hmem e' he' with rfl | ⟨he', -⟩
    · exact numbered_markEntry (h.numbered e he) _
    · exact h.numbered e' he'
  · intro x
    dsimp only
    rw [hmap, h.listed x]
    unfold addTo
    cases isCallBack <;> grind
  · intro e' he'
    rcases hmem e' he' with rfl | ⟨he', hne⟩
    · have hnormal := h.normal_iff e he
      cases isCallBack <;> simp [addTo, markEntry, hnormal]
    · rw [h.normal_iff e' he']
      simp [addTo, hne]
  · intro e' he'
    rcases hmem e' he' with rfl | ⟨he', hne⟩
    · have hcallback := h.callback_iff e he
      cases isCallBack <;> simp [addTo, markEntry, hcallback]
    · rw [h.callback_iff e' he']
      simp [addTo, hne]
  · dsimp only
    rw [h.mIFCount, hs]
    cases isCallBack <;> cases hn : e.normal <;>
      simp [markEntry, hn]
    omega
  · dsimp only
    rw [h.mCBIFCount, hs]
    cases isCallBack <;> cases hc : e.callback <;>
      simp [markEntry, hc]
    omega
  · intro hnil
    simp at hnil

theorem Listed.push (h : Listed M normal callback s) (isCallBack : Bool) {x : Nat} {a : List Nat}
    (ha : Ancestors M x a) (hlt : x < M.mInterfaceCount.toNat)
    (hx : x ∉ s.allIFList.map (·.mIndex)) (htail : a.tail ⊆ s.allIFList.map (·.mIndex))
    (hbegin : s.beginNo = UInt32.ofNat (firstNo M a)) (beginNo : UInt32) :
    Listed M (addTo normal (isCallBack = false) x) (addTo callback (isCallBack = true) x)
      { allIFList := s.allIFList ++ [newEntry M x s.beginNo (!isCallBack) isCallBack]
        beginNo := beginNo
        mIFCount := if isCallBack then s.mIFCount else s.mIFCount + 1
        mCBIFCount := if isCallBack then s.mCBIFCount + 1 else s.mCBIFCount } := by
  -- the entry is new, so no property of the old ones speaks of it
  have hnot : ¬ normal x ∧ ¬ callback x := not_or.mp fun hor => hx ((h.listed x).mpr hor)
  have hold : ∀ e ∈ s.allIFList, e.mIndex ≠ x := fun e he heq => hx (heq ▸ List.mem_map_of_mem he)
  constructor
  · dsimp only
    rw [List.map_append]
    exact h.topDown.push ha hlt hx htail
  · intro e he
    rcases List.mem_append.mp he with he | he
    · exact h.numbered e he
    · cases List.mem_singleton.mp he
      rw [hbegin]
      exact numbered_newEntry hlt ha _ _
  · intro y
    dsimp only
    rw [List.map_append, List.mem_append, h.listed y]
    unfold addTo
    cases isCallBack <;> simp [newEntry] <;> tauto
  · intro e he
    rcases List.mem_append.mp he with he | he
    · rw [h.normal_iff e he]
      simp [addTo, hold e he]
    · cases List.mem_singleton.mp he
      cases isCallBack <;> simp [addTo, newEntry, hnot.1]
  · intro e he
    rcases List.mem_append.mp he with he | he
    · rw [h.callback_iff e he]
      simp [addTo, hold e he]
    · cases List.mem_singleton.mp he
      cases isCallBack <;> simp [addTo, newEntry, hnot.2]
  · dsimp only
    rw [h.mIFCount, List.countP_append]
    cases isCallBack <;> simp [newEntry]
  · dsimp only
    rw [h.mCBIFCount, List.countP_append]
    cases isCallBack <;> simp [newEntry]
  · intro hnil
    simp at hnil

/-- What listing an interface does. `beginNo` is its number, unless it is listed
already. -/
theorem listInterface_listed (h : Listed M normal callback s) (isCallBack : Bool) {x : Nat}
    {a : List Nat} (ha : Ancestors M x a) (hlt : x < M.mInterfaceCount.toNat)
    (htail : a.tail ⊆ s.allIFList.map (·.mIndex))
    (hbegin : x ∉ s.allIFList.map (·.mIndex) → s.beginNo = UInt32.ofNat (firstNo M a)) :
    ∃ s', listInterface M isCallBack s x = some s' ∧
      Listed M (addTo normal (isCallBack = false) x) (addTo callback (isCallBack = true) x) s' ∧
      s'.beginNo = UInt32.ofNat (firstNo M a + M.methodCount x) := by
  cases hfind : findInterface isCallBack x s.allIFList with
  | some found =>
    rcases found with ⟨e, l⟩
    rcases findInterface_eq_some hfind with ⟨l₁, l₂, hs, rfl, rfl⟩
    have he : e ∈ s.allIFList := by
      rw [hs]
      simp
    refine ⟨_, ?_, h.mark isCallBack hs _, (h.numbered e he).next ha⟩
    rw [listInterface, hfind]
  | none =>
    have hx := findInterface_eq_none hfind
    have hroom : s.allIFList.length < M.mInterfaceCount.toNat := by
      have hle := (h.topDown.push ha hlt hx htail).length_le
      rw [List.length_append, List.length_map] at hle
      exact hle
    have hnew := numbered_newEntry hlt ha (!isCallBack) isCallBack
    rw [← hbegin hx] at hnew
    refine ⟨_, ?_, h.push isCallBack ha hlt hx htail (hbegin hx) _, hnew.next ha⟩
    simp only [listInterface, hfind, write, if_pos hroom]
    rfl

/-- An interface with all its ancestors, from the root on. -/
theorem listInterfaces_listed (hM : Hierarchy M) (h : Listed M normal callback s)
    (isCallBack : Bool) {x : Nat} {a : List Nat} (ha : Ancestors M x a)
    (hlt : x < M.mInterfaceCount.toNat) :
    ∃ s', a.reverse.foldlM (listInterface M isCallBack) s = some s' ∧
      Listed M (fun y => normal y ∨ (isCallBack = false ∧ y ∈ a))
        (fun y => callback y ∨ (isCallBack = true ∧ y ∈ a)) s' ∧
      s'.beginNo = UInt32.ofNat (firstNo M a + M.methodCount x) := by
  -- along the path: the parent has left its next number in `beginNo`
  induction ha generalizing s with
  | root =>
    have hbegin : 0 ∉ s.allIFList.map (·.mIndex) →
        s.beginNo = UInt32.ofNat (firstNo M [0]) := by
      intro hroot
      rw [h.start]
      · rfl
      · cases hs : s.allIFList with
        | nil => rfl
        | cons e l =>
          have htop := h.topDown
          rw [hs] at htop hroot
          have hhead : e.mIndex = 0 := TopDown.head hM htop
          rw [List.map_cons, hhead] at hroot
          exact absurd List.mem_cons_self hroot
    rcases listInterface_listed h isCallBack .root hlt (List.nil_subset _) hbegin with
      ⟨s', hs', hlisted, hnext⟩
    refine ⟨s', ?_, ?_, hnext⟩
    · simp [hs']
    · simpa only [List.mem_singleton] using! hlisted
  | @step x a hx ha ih =>
    rcases ih h (hM.parent_lt x hlt hx) with ⟨s₁, hs₁, hlisted₁, hnext₁⟩
    have htail : (x :: a).tail ⊆ s₁.allIFList.map (·.mIndex) := by
      intro y hy
      rw [hlisted₁.listed y]
      cases isCallBack
      · exact .inl (.inr ⟨rfl, hy⟩)
      · exact .inr (.inr ⟨rfl, hy⟩)
    have hbegin : s₁.beginNo = UInt32.ofNat (firstNo M (x :: a)) := by
      rw [hnext₁, firstNo_cons ha x]
    rcases listInterface_listed hlisted₁ isCallBack (.step hx ha) hlt htail fun _ => hbegin with
      ⟨s', hs', hlisted, hnext⟩
    refine ⟨s', ?_, ?_, hnext⟩
    · simp [hs₁, hs']
    · have hset : ∀ (p : Nat → Prop) (here : Prop),
          addTo (fun y => p y ∨ (here ∧ y ∈ a)) here x =
            fun y => p y ∨ (here ∧ y ∈ x :: a) := by
        intro p here
        funext y
        simp only [addTo, List.mem_cons, eq_iff_iff]
        tauto
      rw [hset, hset] at hlisted
      exact hlisted

/-- The interfaces that some of the class interfaces bring with them. -/
def Brought (M : ClsModule) (isCallBack : Bool) (cifs : List ClassInterface) (y : Nat) : Prop :=
  ∃ cif ∈ cifs, cif.callback = isCallBack ∧ ∃ a, Ancestors M cif.mIndex.toNat a ∧ y ∈ a

theorem brought_append_singleton (isCallBack : Bool) (cifs : List ClassInterface)
    (cif : ClassInterface) {a : List Nat} (ha : Ancestors M cif.mIndex.toNat a) (y : Nat) :
    Brought M isCallBack (cifs ++ [cif]) y ↔
      Brought M isCallBack cifs y ∨ (cif.callback = isCallBack ∧ y ∈ a) := by
  constructor
  · rintro ⟨c, hc, hcallback, b, hb, hy⟩
    rcases List.mem_append.mp hc with hc | hc
    · exact .inl ⟨c, hc, hcallback, b, hb, hy⟩
    · cases List.mem_singleton.mp hc
      rw [hb.unique ha] at hy
      exact .inr ⟨hcallback, hy⟩
  · rintro (⟨c, hc, hrest⟩ | ⟨hcallback, hy⟩)
    · exact ⟨c, List.mem_append_left _ hc, hrest⟩
    · exact ⟨cif, by simp, hcallback, a, ha, hy⟩

/-- The first loop of `CClassInfo::CreateIFList`. -/
theorem listClass_listed (hM : Hierarchy M) {done cifs : List ClassInterface}
    (hlt : ∀ cif ∈ cifs, cif.mIndex.toNat < M.mInterfaceCount.toNat)
    (h : Listed M (Brought M false done) (Brought M true done) s) :
    ∃ s', cifs.foldlM (listClassInterface M) s = some s' ∧
      Listed M (Brought M false (done ++ cifs)) (Brought M true (done ++ cifs)) s' := by
  induction cifs generalizing done s with
  | nil =>
    rw [List.append_nil]
    exact ⟨s, rfl, h⟩
  | cons cif cifs ih =>
    have hcif := hlt cif List.mem_cons_self
    rcases hM.exists_ancestors hcif with ⟨a, ha⟩
    rcases listInterfaces_listed hM h cif.callback ha hcif with ⟨s₁, hs₁, hlisted, -⟩
    have hset : ∀ isCallBack,
        (fun y => Brought M isCallBack done y ∨ (cif.callback = isCallBack ∧ y ∈ a)) =
          Brought M isCallBack (done ++ [cif]) := by
      intro isCallBack
      funext y
      exact propext (brought_append_singleton isCallBack done cif ha y).symm
    rw [hset, hset] at hlisted
    rcases ih (fun c hc => hlt c (List.mem_cons_of_mem _ hc)) hlisted with ⟨s', hs', hlisted'⟩
    refine ⟨s', ?_, ?_⟩
    · have hfirst : listClassInterface M s cif = some s₁ := by
        rw [listClassInterface, hM.climb_eq ha hcif]
        exact hs₁
      simp [hfirst, hs']
    · simpa using hlisted'

theorem listed_nil : Listed M (Brought M false []) (Brought M true [])
    { allIFList := [], beginNo := METHOD_START_NO, mIFCount := 0, mCBIFCount := 0 } := by
  have hnone : ∀ isCallBack y, ¬ Brought M isCallBack [] y := by
    rintro isCallBack y ⟨cif, hcif, -⟩
    cases hcif
  constructor
  · constructor <;> simp
  · simp
  · simp [hnone]
  · simp
  · simp
  · rfl
  · rfl
  · intro _
    rfl

end Listing

/-! ## Counts and copies -/

section Filling

variable {M : ClsModule}

/-- The number of methods of the entries. -/
def methods (M : ClsModule) (l : List IFIndexEntry) : UInt32 :=
  (l.map fun e => (e.methodCount M).toUInt32).sum

@[simp] theorem methods_nil : methods M [] = 0 := rfl

@[simp] theorem methods_cons (e : IFIndexEntry) (l : List IFIndexEntry) :
    methods M (e :: l) = (e.methodCount M).toUInt32 + methods M l := rfl

theorem write_eq {α : Type} {capacity : Nat} {l : List α} (h : l.length < capacity) (x : α) :
    write capacity l x = some (l ++ [x]) := if_pos h

/-- The entries of an array that has room for them. -/
theorem fillEntry_eq {mIFCount mCBIFCount i : Nat} {f : Filling} {e : IFIndexEntry}
    (hnormal : e.normal = true → f.mIFList.length < mIFCount)
    (hcallback : i ≠ 0 → e.callback = true → f.mCBIFList.length < mCBIFCount) :
    fillEntry M mIFCount mCBIFCount f i e = some
      { mIFList := f.mIFList ++ [e].filter (·.normal)
        mCBIFList := f.mCBIFList ++ [e].filter fun e => i ≠ 0 ∧ e.callback
        mMethodCount := f.mMethodCount + methods M ([e].filter (·.normal))
        mCBMethodCount :=
          f.mCBMethodCount + methods M ([e].filter fun e => i ≠ 0 ∧ e.callback) } := by
  have hcb : i ≠ 0 → e.callback = true → mCBIFCount ≠ 0 := by
    intro hi hc
    have := hcallback hi hc
    omega
  by_cases hi : i = 0
  · cases hn : e.normal
    · simp [fillEntry, hn, hi]
    · simp [fillEntry, hn, hi, write_eq (hnormal hn)]
  · cases hn : e.normal <;> cases hc : e.callback
    · simp [fillEntry, hn, hc]
    · simp [fillEntry, hn, hc, hi, hcb hi hc, write_eq (hcallback hi hc)]
    · simp [fillEntry, hn, hc, write_eq (hnormal hn)]
    · simp [fillEntry, hn, hc, hi, hcb hi hc, write_eq (hnormal hn), write_eq (hcallback hi hc)]

theorem methods_append (l l' : List IFIndexEntry) :
    methods M (l ++ l') = methods M l + methods M l' := by
  induction l with
  | nil => simp
  | cons e l ih => rw [List.cons_append, methods_cons, methods_cons, ih, UInt32.add_assoc]

theorem filter_cons_eq_append {α : Type} (p : α → Bool) (x : α) (l : List α) :
    (x :: l).filter p = [x].filter p ++ l.filter p := by
  rw [← List.filter_append]
  rfl

/-- The second loop, after the first entry. -/
theorem fillEntries_eq {mIFCount mCBIFCount i : Nat} (hi : i ≠ 0) {l : List IFIndexEntry}
    {f : Filling} (hnormal : (f.mIFList ++ l.filter (·.normal)).length ≤ mIFCount)
    (hcallback : (f.mCBIFList ++ l.filter (·.callback)).length ≤ mCBIFCount) :
    fillEntries M mIFCount mCBIFCount f i l = some
      { mIFList := f.mIFList ++ l.filter (·.normal)
        mCBIFList := f.mCBIFList ++ l.filter (·.callback)
        mMethodCount := f.mMethodCount + methods M (l.filter (·.normal))
        mCBMethodCount := f.mCBMethodCount + methods M (l.filter (·.callback)) } := by
  induction l generalizing f i with
  | nil => simp [fillEntries]
  | cons e l ih =>
    have hroom : e.normal = true → f.mIFList.length < mIFCount := by
      intro he
      simp only [List.length_append, List.filter_cons, he, if_true, List.length_cons] at hnormal
      omega
    have hcbroom : i ≠ 0 → e.callback = true → f.mCBIFList.length < mCBIFCount := by
      intro _ he
      simp only [List.length_append, List.filter_cons, he, if_true, List.length_cons] at hcallback
      omega
    have hcond : (fun e : IFIndexEntry => decide (i ≠ 0 ∧ e.callback = true)) = (·.callback) := by
      funext e
      simp [hi]
    rw [filter_cons_eq_append, ← List.append_assoc] at hnormal hcallback
    rw [fillEntries, fillEntry_eq hroom hcbroom, hcond]
    refine (ih (Nat.succ_ne_zero i) hnormal hcallback).trans ?_
    rw [filter_cons_eq_append (·.normal) e l, filter_cons_eq_append (·.callback) e l]
    simp only [methods_append, List.append_assoc, UInt32.add_assoc]

/-- The second loop: the first entry is the root, which is not listed as a callback
interface. -/
theorem fillEntries_start {mIFCount mCBIFCount : Nat} {l : List IFIndexEntry}
    (hnormal : (l.filter (·.normal)).length ≤ mIFCount)
    (hcallback : (l.tail.filter (·.callback)).length ≤ mCBIFCount) :
    fillEntries M mIFCount mCBIFCount
        { mIFList := [], mCBIFList := [], mMethodCount := 0, mCBMethodCount := 0 } 0 l = some
      { mIFList := l.filter (·.normal)
        mCBIFList := l.tail.filter (·.callback)
        mMethodCount := methods M (l.filter (·.normal))
        mCBMethodCount := methods M (l.tail.filter (·.callback)) } := by
  cases l with
  | nil => rfl
  | cons e l =>
    have hroom : e.normal = true → 0 < mIFCount := by
      intro he
      simp only [List.filter_cons, he, if_true, List.length_cons] at hnormal
      omega
    rw [fillEntries, fillEntry_eq hroom fun h => absurd rfl h]
    have hnone : ([e].filter fun e : IFIndexEntry => decide ((0 : Nat) ≠ 0 ∧ e.callback = true)) =
        [] := by
      simp
    rw [hnone]
    rw [filter_cons_eq_append] at hnormal
    refine (fillEntries_eq (Nat.succ_ne_zero 0) hnormal hcallback).trans ?_
    rw [filter_cons_eq_append (·.normal) e l]
    simp [methods_append]

/-! ## The methods of a list -/

/-- The number of a method of an entry. -/
def methodIndex (e : IFIndexEntry) (j : Nat) : UInt32 :=
  MK_METHOD_INDEX e.mIndex.toUInt32 (e.mBeginNo + j.toUInt32)

/-- The elements that stand for the methods of an entry. -/
def elements (M : ClsModule) (e : IFIndexEntry) : List ObjElement :=
  (List.range (e.methodCount M).toNat).map fun j =>
    { mIndex := methodIndex e j
      mDesc := (e.mDesc, j)
      mName := ((M.interfaceDesc e.mDesc).mMethods j).mName
      mSignature := ((M.interfaceDesc e.mDesc).mMethods j).mSignature }

/-- The methods of an entry, with their numbers. -/
def numbers (M : ClsModule) (e : IFIndexEntry) : List ((Nat × Nat) × UInt32) :=
  (elements M e).map fun el => (el.mDesc, el.mIndex)

theorem numbers_eq (e : IFIndexEntry) :
    numbers M e =
      (List.range' 0 (e.methodCount M).toNat).map fun j => ((e.mDesc, j), methodIndex e j) := by
  simp [numbers, elements, List.range_eq_range']

theorem fillCBMethods_eq {capacity n j : Nat} {e : IFIndexEntry} {s : List CBMethodDesc × UInt32}
    (hroom : s.1.length + n ≤ capacity) :
    ∃ l eventNum, fillCBMethods capacity e n j s = some (s.1 ++ l, eventNum) ∧
      l.map (fun d => (d.mDesc, d.mIndex)) =
        (List.range' j n).map fun j => ((e.mDesc, j), methodIndex e j) := by
  induction n generalizing j s with
  | zero => exact ⟨[], s.2, by simp [fillCBMethods], rfl⟩
  | succ n ih =>
    rcases s with ⟨l, eventNum⟩
    dsimp only at hroom
    have hstep : fillCBMethods capacity e (n + 1) j (l, eventNum) =
        fillCBMethods capacity e n (j + 1)
          (l ++ [⟨(e.mDesc, j), methodIndex e j, eventNum⟩], eventNum + 1) := by
      rw [fillCBMethods, write_eq (by omega)]
      rfl
    have hroom' : (l ++ [CBMethodDesc.mk (e.mDesc, j) (methodIndex e j) eventNum]).length + n ≤
        capacity := by
      rw [List.length_append, List.length_singleton]
      omega
    rcases ih (j := j + 1) (s := (_, eventNum + 1)) hroom' with ⟨l', eventNum', hl', hmap⟩
    refine ⟨⟨(e.mDesc, j), methodIndex e j, eventNum⟩ :: l', eventNum', ?_, ?_⟩
    · rw [hstep]
      refine hl'.trans ?_
      simp
    · rw [List.map_cons, hmap, List.range'_succ, List.map_cons]

/-- The third loop. -/
theorem fillCBInterfaces_eq {capacity : Nat} {es : List IFIndexEntry}
    {s : List CBMethodDesc × UInt32}
    (hroom : s.1.length + (es.map fun e => (e.methodCount M).toNat).sum ≤ capacity) :
    ∃ l eventNum, es.foldlM (fillCBInterface M capacity) s = some (s.1 ++ l, eventNum) ∧
      l.map (fun d => (d.mDesc, d.mIndex)) = es.flatMap (numbers M) := by
  induction es generalizing s with
  | nil => exact ⟨[], s.2, by simp, rfl⟩
  | cons e es ih =>
    rw [List.map_cons, List.sum_cons] at hroom
    have hfit : s.1.length + (e.methodCount M).toNat ≤ capacity := by omega
    rcases fillCBMethods_eq (j := 0) (e := e) hfit with ⟨l₁, eventNum₁, hl₁, hmap₁⟩
    have hlength : l₁.length = (e.methodCount M).toNat := by
      have := congrArg List.length hmap₁
      simpa using this
    rcases ih (s := (s.1 ++ l₁, eventNum₁ + 2)) (by simp [hlength]; omega) with
      ⟨l₂, eventNum₂, hl₂, hmap₂⟩
    refine ⟨l₁ ++ l₂, eventNum₂, ?_, ?_⟩
    · have hfirst : fillCBInterface M capacity s e = some (s.1 ++ l₁, eventNum₁ + 2) := by
        rw [fillCBInterface, hl₁]
        rfl
      rw [List.foldlM_cons, hfirst]
      refine hl₂.trans ?_
      rw [List.append_assoc]
    · rw [List.map_append, hmap₁, hmap₂, List.flatMap_cons, numbers_eq]

theorem initMethods_eq {put : Nat → Bool} {mTotalCount n j : Nat} {e : IFIndexEntry}
    {l l' : List ObjElement} (h : initMethods M put mTotalCount e n j l = .ok l') :
    l' = l ++ (List.range' j n).map fun j =>
      { mIndex := methodIndex e j
        mDesc := (e.mDesc, j)
        mName := ((M.interfaceDesc e.mDesc).mMethods j).mName
        mSignature := ((M.interfaceDesc e.mDesc).mMethods j).mSignature } := by
  induction n generalizing j l with
  | zero =>
    cases h
    simp
  | succ n ih =>
    rw [initMethods] at h
    split at h
    · cases h
    · dsimp only at h
      split at h
      · rw [ih h, List.range'_succ, List.map_cons, List.append_assoc]
        rfl
      · cases h

theorem initMethods_ok {mTotalCount n j : Nat} {e : IFIndexEntry} {l : List ObjElement}
    (hroom : l.length + n ≤ mTotalCount) :
    ∃ l', initMethods M (fun _ => true) mTotalCount e n j l = .ok l' := by
  induction n generalizing j l with
  | zero => exact ⟨l, rfl⟩
  | succ n ih =>
    have hne : l.length ≠ mTotalCount := by omega
    rw [initMethods, if_neg hne]
    refine ih ?_
    simp
    omega

theorem initElemList_eq {alloc : Bool} {put : Nat → Bool} {mTotalCount : UInt32}
    {es : List IFIndexEntry} {l : List ObjElement}
    (h : initElemList M alloc put mTotalCount es = .ok l) : l = es.flatMap (elements M) := by
  have hfold : ∀ (es : List IFIndexEntry) (l₀ : List ObjElement),
      es.foldlM (fun l e => initMethods M put mTotalCount.toNat e (e.methodCount M).toNat 0 l) l₀ =
          .ok l →
        l = l₀ ++ es.flatMap (elements M) := by
    intro es
    induction es with
    | nil =>
      intro l₀ h
      cases h
      simp
    | cons e es ih =>
      intro l₀ h
      rw [List.foldlM_cons] at h
      cases hfirst : initMethods M put mTotalCount.toNat e (e.methodCount M).toNat 0 l₀ with
      | error err =>
        rw [hfirst] at h
        cases h
      | ok l₁ =>
        rw [hfirst] at h
        rw [ih l₁ h, initMethods_eq hfirst, List.flatMap_cons, List.append_assoc, elements,
          List.range_eq_range']
  rw [initElemList] at h
  split at h
  · cases h
  · split at h
    · cases h
    · simpa using hfold es [] h

theorem initElemList_ok {mTotalCount : UInt32} {es : List IFIndexEntry} (hne : mTotalCount ≠ 0)
    (htotal : (es.map fun e => (e.methodCount M).toNat).sum ≤ mTotalCount.toNat) :
    ∃ l, initElemList M true (fun _ => true) mTotalCount es = .ok l := by
  have hfold : ∀ (es : List IFIndexEntry) (l₀ : List ObjElement),
      l₀.length + (es.map fun e => (e.methodCount M).toNat).sum ≤ mTotalCount.toNat →
        ∃ l, es.foldlM (fun l e =>
          initMethods M (fun _ => true) mTotalCount.toNat e (e.methodCount M).toNat 0 l) l₀ =
            .ok l := by
    intro es
    induction es with
    | nil => exact fun l₀ _ => ⟨l₀, rfl⟩
    | cons e es ih =>
      intro l₀ hroom
      rw [List.map_cons, List.sum_cons] at hroom
      have hfit : l₀.length + (e.methodCount M).toNat ≤ mTotalCount.toNat := by omega
      rcases initMethods_ok (M := M) (j := 0) (e := e) hfit with ⟨l₁, hl₁⟩
      rw [List.foldlM_cons, hl₁]
      refine ih l₁ ?_
      rw [initMethods_eq hl₁, List.length_append, List.length_map, List.length_range']
      omega
  rw [initElemList, if_neg hne]
  exact hfold es [] (by simpa using htotal)

end Filling

/-! ## The lists of a module -/

section Lists

variable {M : ClsModule}

/-- A list of interfaces: the interfaces of `p`, once each and parents first, with
the numbers of their methods. `total` is the number of all methods. -/
structure Lists (M : ClsModule) (p : Nat → Prop) (total : UInt32) (l : List IFIndexEntry) :
    Prop where
  nodup : (l.map (·.mIndex)).Nodup
  mem_iff : ∀ x, x ∈ l.map (·.mIndex) ↔ p x
  parentsFirst : (l.map (·.mIndex)).Pairwise fun x y => ∀ a, Ancestors M x a → y ∉ a
  entry : ∀ e ∈ l, e.mDesc = (M.mInterfaceDirs e.mIndex).mDesc ∧
    e.mName = (M.mInterfaceDirs e.mIndex).mName ∧
    e.mNameSpace = (M.mInterfaceDirs e.mIndex).mNameSpace
  beginNo : ∀ e ∈ l, ∀ a, Ancestors M e.mIndex a →
    e.mBeginNo.toNat = 4 + (a.tail.map M.methodCount).sum
  count : total.toNat = (l.map fun e => M.methodCount e.mIndex).sum
  /-- `CEntryList::InitElemList` numbers the methods in the order of the entries -/
  elements : ∀ alloc put els, initElemList M alloc put total l = .ok els →
    els = l.flatMap (VTable.elements M)
  numbers : total ≠ 0 → ∃ els, initElemList M true (fun _ => true) total l = .ok els

theorem sum_methodCount_le (l : List Nat) : (l.map M.methodCount).sum ≤ l.length * 65535 := by
  induction l with
  | nil => simp
  | cons x l ih =>
    have hx : M.methodCount x < 65536 := (M.desc x).mMethodCount.toNat_lt
    rw [List.map_cons, List.sum_cons, List.length_cons]
    omega

theorem sum_methodCount_lt {l : List Nat} (hl : l.length ≤ M.mInterfaceCount.toNat) :
    4 + (l.map M.methodCount).sum < 2 ^ 32 := by
  have hcount : M.mInterfaceCount.toNat < 65536 := M.mInterfaceCount.toNat_lt
  have hsum := sum_methodCount_le (M := M) l
  omega

theorem Hierarchy.firstNo_lt (hM : Hierarchy M) {x : Nat} {a : List Nat} (ha : Ancestors M x a)
    (hx : x < M.mInterfaceCount.toNat) : firstNo M a < 2 ^ 32 := by
  refine sum_methodCount_lt ?_
  have hle := length_le_of_nodup ha.nodup (hM.lt_of_mem ha hx)
  rw [List.length_tail]
  omega

theorem methods_eq_ofNat {l : List IFIndexEntry} (hl : ∀ e ∈ l, Numbered M e) :
    methods M l = UInt32.ofNat (l.map fun e => M.methodCount e.mIndex).sum := by
  induction l with
  | nil => rfl
  | cons e l ih =>
    rw [methods_cons, ih fun e he => hl e (List.mem_cons_of_mem _ he),
      (hl e List.mem_cons_self).toUInt32, List.map_cons, List.sum_cons, UInt32.ofNat_add]

theorem sum_eq_of_numbered {l : List IFIndexEntry} (hl : ∀ e ∈ l, Numbered M e) :
    (l.map fun e => (e.methodCount M).toNat).sum = (l.map fun e => M.methodCount e.mIndex).sum := by
  congr 1
  exact List.map_congr_left fun e he => (hl e he).methodCount

/-- A part of a list that is numbered. -/
theorem lists_of_sublist (hM : Hierarchy M) {p : Nat → Prop} {all l : List IFIndexEntry}
    (htop : TopDown M (all.map (·.mIndex))) (hall : ∀ e ∈ all, Numbered M e)
    (hl : l.Sublist all) (hp : ∀ x, x ∈ l.map (·.mIndex) ↔ p x) :
    Lists M p (methods M l) l := by
  have hsub : (l.map (·.mIndex)).Sublist (all.map (·.mIndex)) := hl.map _
  have hnum : ∀ e ∈ l, Numbered M e := fun e he => hall e (hl.subset he)
  have htotal : (methods M l).toNat = (l.map fun e => M.methodCount e.mIndex).sum := by
    have hlen : (l.map (·.mIndex)).length ≤ M.mInterfaceCount.toNat :=
      hsub.length_le.trans htop.length_le
    have hlt := sum_methodCount_lt (M := M) hlen
    rw [List.map_map] at hlt
    rw [methods_eq_ofNat hnum]
    exact UInt32.toNat_ofNat_of_lt' (by
      have : UInt32.size = 2 ^ 32 := rfl
      simp only [Function.comp_def] at hlt
      omega)
  constructor
  · exact htop.nodup.sublist hsub
  · exact hp
  · exact htop.order.sublist hsub
  · exact fun e he => ⟨(hnum e he).desc, (hnum e he).name, (hnum e he).nameSpace⟩
  · intro e he a ha
    rw [(hnum e he).beginNo a ha]
    exact UInt32.toNat_ofNat_of_lt' (hM.firstNo_lt ha (hnum e he).lt)
  · exact htotal
  · exact fun alloc put els h => initElemList_eq h
  · intro hne
    exact initElemList_ok hne (by rw [sum_eq_of_numbered hnum, htotal])

/-- Two lists number the methods of an interface alike. -/
theorem Lists.elements_eq (hM : Hierarchy M) {p q : Nat → Prop} {m n : UInt32}
    {l l' : List IFIndexEntry} (hl : Lists M p m l) (hl' : Lists M q n l') {e e' : IFIndexEntry}
    (he : e ∈ l) (he' : e' ∈ l') (heq : e'.mIndex = e.mIndex)
    (hlt : e.mIndex < M.mInterfaceCount.toNat) : VTable.elements M e' = VTable.elements M e := by
  rcases hM.exists_ancestors hlt with ⟨a, ha⟩
  have hbegin : e'.mBeginNo = e.mBeginNo := by
    rw [← UInt32.toNat_inj, hl.beginNo e he a ha, hl'.beginNo e' he' a (heq ▸ ha)]
  have hdesc : e'.mDesc = e.mDesc := by
    rw [(hl.entry e he).1, (hl'.entry e' he').1, heq]
  simp only [VTable.elements, methodIndex, IFIndexEntry.methodCount, hbegin, hdesc, heq]

/-! ## Classes -/

/-- What `CClassInfo::CreateIFList` leaves behind. The root is not a callback
interface. -/
structure ClassLists (M : ClsModule) (desc : ClassDescriptor) (info : CClassInfo)
    (ifs cbs : List IFIndexEntry) : Prop where
  mIFList : info.mIFList = some ifs
  mCBIFList : info.mCBIFList.getD [] = cbs
  mIFCount : info.mIFCount = ifs.length
  mCBIFCount : info.mCBIFCount = cbs.length
  interfaces : Lists M (Brought M false desc.mInterfaces) info.mMethodCount ifs
  callbacks : Lists M (fun x => x ≠ 0 ∧ Brought M true desc.mInterfaces x) info.mCBMethodCount cbs
  mCBMethodDesc : ∃ l, info.mCBMethodDesc = some l ∧
    l.map (fun d => (d.mDesc, d.mIndex)) = cbs.flatMap (VTable.numbers M)

variable {desc : ClassDescriptor} {s : Listing} {normal callback : Nat → Prop}

theorem Listed.mem_normal (h : Listed M normal callback s) (x : Nat) :
    x ∈ (s.allIFList.filter (·.normal)).map (·.mIndex) ↔ normal x := by
  constructor
  · intro hx
    rcases List.mem_map.mp hx with ⟨e, he, rfl⟩
    rcases List.mem_filter.mp he with ⟨he, hn⟩
    exact (h.normal_iff e he).mp hn
  · intro hx
    rcases List.mem_map.mp ((h.listed x).mpr (.inl hx)) with ⟨e, he, rfl⟩
    exact List.mem_map_of_mem (List.mem_filter.mpr ⟨he, (h.normal_iff e he).mpr hx⟩)

theorem Listed.head (hM : Hierarchy M) (h : Listed M normal callback s) {e : IFIndexEntry}
    {l : List IFIndexEntry} (hs : s.allIFList = e :: l) :
    e.mIndex = 0 ∧ ∀ e' ∈ l, e'.mIndex ≠ 0 := by
  have htop := h.topDown
  rw [hs] at htop
  have hzero : e.mIndex = 0 := TopDown.head hM htop
  refine ⟨hzero, ?_⟩
  intro e' he' hzero'
  have hnodup := htop.nodup
  rw [List.map_cons, List.nodup_cons, hzero, ← hzero'] at hnodup
  exact hnodup.1 (List.mem_map_of_mem he')

theorem Listed.mem_callback (hM : Hierarchy M) (h : Listed M normal callback s) (x : Nat) :
    x ∈ (s.allIFList.tail.filter (·.callback)).map (·.mIndex) ↔ x ≠ 0 ∧ callback x := by
  constructor
  · intro hx
    rcases List.mem_map.mp hx with ⟨e, he, rfl⟩
    rcases List.mem_filter.mp he with ⟨he, hc⟩
    refine ⟨?_, (h.callback_iff e (List.mem_of_mem_tail he)).mp hc⟩
    cases hs : s.allIFList with
    | nil =>
      rw [hs] at he
      cases he
    | cons a l =>
      rw [hs] at he
      exact (h.head hM hs).2 e he
  · rintro ⟨hne, hx⟩
    rcases List.mem_map.mp ((h.listed x).mpr (.inr hx)) with ⟨e, he, rfl⟩
    have hc := (h.callback_iff e he).mpr hx
    cases hs : s.allIFList with
    | nil =>
      rw [hs] at he
      cases he
    | cons a l =>
      rw [hs] at he
      rcases List.mem_cons.mp he with rfl | he
      · exact absurd (h.head hM hs).1 hne
      · exact List.mem_map_of_mem (List.mem_filter.mpr ⟨he, hc⟩)

/-- One of the callback interfaces that have been counted is the root. -/
theorem Listed.cbCount (hM : Hierarchy M) (h : Listed M normal callback s)
    (hroot : ∀ x, callback x → callback 0) :
    (s.allIFList.tail.filter (·.callback)).length = s.mCBIFCount - 1 := by
  rw [h.mCBIFCount, List.countP_eq_length_filter]
  cases hs : s.allIFList with
  | nil => rfl
  | cons e l =>
    rw [List.tail_cons]
    have hzero := (h.head hM hs).1
    have hmem : e ∈ s.allIFList := by
      rw [hs]
      exact List.mem_cons_self
    cases hc : e.callback with
    | true => rw [List.filter_cons_of_pos hc, List.length_cons, Nat.add_sub_cancel]
    | false =>
      have hnone : l.filter (·.callback) = [] := by
        rw [List.filter_eq_nil_iff]
        intro e' he' hc'
        have hmem' : e' ∈ s.allIFList := by
          rw [hs]
          exact List.mem_cons_of_mem _ he'
        have hcallback := hroot _ ((h.callback_iff e' hmem').mp hc')
        rw [← hzero, ← h.callback_iff e hmem, hc] at hcallback
        cases hcallback
      rw [List.filter_cons_of_neg (by simp [hc]), hnone]
      rfl

theorem brought_root {isCallBack : Bool} {cifs : List ClassInterface} {x : Nat}
    (h : Brought M isCallBack cifs x) : Brought M isCallBack cifs 0 := by
  rcases h with ⟨cif, hcif, hcallback, a, ha, -⟩
  exact ⟨cif, hcif, hcallback, a, ha, ha.root_mem⟩

theorem createIFList_class (hM : Hierarchy M)
    (hdesc : ∀ cif ∈ desc.mInterfaces, cif.mIndex.toNat < M.mInterfaceCount.toNat)
    (alloc : Nat → Bool) :
    ∃ r, CClassInfo.empty.createIFList M desc alloc = some r ∧
      ((∀ k, alloc k = true) → r.1 = .NOERROR) ∧ (r.1 ≠ .NOERROR → r.2 = .empty) ∧
      (r.1 = .NOERROR → ∃ ifs cbs, ClassLists M desc r.2 ifs cbs) := by
  rcases listClass_listed hM hdesc listed_nil with ⟨s, hs, hlisted⟩
  rw [List.nil_append] at hlisted
  have hcount := hlisted.mIFCount
  rw [List.countP_eq_length_filter] at hcount
  have hcbCount := hlisted.cbCount hM fun _ h => brought_root h
  -- the two lists are parts of the list that was built, in its order
  have hifs := lists_of_sublist hM hlisted.topDown hlisted.numbered List.filter_sublist
    (hlisted.mem_normal)
  have hcbs := lists_of_sublist hM hlisted.topDown hlisted.numbered
    (List.filter_sublist.trans (List.tail_sublist _)) (hlisted.mem_callback hM)
  have hfill := fillEntries_start (M := M) hcount.ge hcbCount.le
  have hroom : (([], 1) : List CBMethodDesc × UInt32).1.length +
      ((s.allIFList.tail.filter (·.callback)).map fun e => (e.methodCount M).toNat).sum ≤
        (methods M (s.allIFList.tail.filter (·.callback))).toNat := by
    rw [hcbs.count, sum_eq_of_numbered]
    · simp
    · intro e he
      exact hlisted.numbered e (List.mem_of_mem_tail (List.mem_of_mem_filter he))
  -- which has room for all callback methods
  rcases fillCBInterfaces_eq hroom with ⟨cbm, eventNum, hcbm, hnumbers⟩
  have hfresh : ¬ CClassInfo.empty.mIFList.isSome = true := Bool.false_ne_true
  rw [CClassInfo.createIFList, if_neg hfresh, hs]
  dsimp only [Option.bind_eq_bind, Option.bind_some]
  -- each of the three allocations can fail, and then nothing is kept
  by_cases h₀ : alloc 0 = true
  swap
  · rw [if_pos h₀]
    exact ⟨_, rfl, fun h => absurd (h 0) h₀, fun _ => rfl, nofun⟩
  rw [if_neg (not_not.mpr h₀)]
  by_cases h₁ : s.mCBIFCount ≠ 0 ∧ ¬ alloc 1 = true
  · rw [if_pos h₁]
    exact ⟨_, rfl, fun h => absurd (h 1) h₁.2, fun _ => rfl, nofun⟩
  rw [if_neg h₁, hfill]
  dsimp only [Option.bind_some]
  by_cases h₂ : alloc 2 = true
  swap
  · rw [if_pos h₂]
    exact ⟨_, rfl, fun h => absurd (h 2) h₂, fun _ => rfl, nofun⟩
  rw [if_neg (not_not.mpr h₂), hcbm]
  refine ⟨_, rfl, fun _ => rfl, fun h => absurd rfl h, fun _ =>
    ⟨s.allIFList.filter (·.normal), s.allIFList.tail.filter (·.callback), ?_⟩⟩
  refine
    { mIFList := rfl
      mCBIFList := ?_
      mIFCount := hcount
      mCBIFCount := hcbCount.symm
      interfaces := hifs
      callbacks := hcbs
      mCBMethodDesc := ⟨_, rfl, hnumbers⟩ }
  dsimp only
  by_cases hcb : s.mCBIFCount = 0
  · have hnil := hcbCount
    rw [hcb] at hnil
    rw [List.eq_nil_of_length_eq_zero hnil, if_neg (not_not.mpr hcb)]
    rfl
  · rw [if_pos hcb]
    rfl

/-! ## Interfaces -/

theorem numberEntries_eq {capacity x : Nat} {a : List Nat} {l : List IFIndexEntry}
    (ha : Ancestors M x a) (hx : x < M.mInterfaceCount.toNat) (hroom : l.length < capacity) :
    ∃ e, numberEntries M capacity (l, UInt32.ofNat (firstNo M a)) x =
        some (l ++ [e], UInt32.ofNat (firstNo M a + M.methodCount x)) ∧
      e.mIndex = x ∧ Numbered M e := by
  have hnumbered := numbered_newEntry hx ha false false
  refine ⟨_, ?_, rfl, hnumbered⟩
  simp only [numberEntries, write_eq hroom, Option.bind_eq_bind, Option.bind_some]
  exact congrArg (fun n => some (l ++ [_], n)) (hnumbered.next ha)

/-- The entries of an interface and its ancestors, from the root on. -/
theorem numberAncestors_eq (hM : Hierarchy M) {capacity x : Nat} {a : List Nat}
    (ha : Ancestors M x a) (hx : x < M.mInterfaceCount.toNat) (hroom : a.length ≤ capacity) :
    ∃ l, a.reverse.foldlM (numberEntries M capacity) ([], METHOD_START_NO) =
        some (l, UInt32.ofNat (firstNo M a + M.methodCount x)) ∧
      l.map (·.mIndex) = a.reverse ∧ TopDown M a.reverse ∧ ∀ e ∈ l, Numbered M e := by
  -- from the root down, each interface behind its parents
  induction ha with
  | root =>
    rcases numberEntries_eq (l := []) .root hx hroom with ⟨e, he, hindex, hnumbered⟩
    refine ⟨[e], ?_, ?_, ?_, ?_⟩
    · refine Eq.trans ?_ he
      simp [METHOD_START_NO, firstNo]
    · rw [List.map_singleton, hindex]
      rfl
    · refine TopDown.push (l := []) ?_ .root hx List.not_mem_nil (List.nil_subset _)
      constructor <;> simp
    · intro e' he'
      cases List.mem_singleton.mp he'
      exact hnumbered
  | @step x a hne ha ih =>
    rw [List.length_cons] at hroom
    rcases ih (hM.parent_lt x hx hne) (by omega) with ⟨l, hl, hmap, htop, hnumbered⟩
    have hlength : l.length < capacity := by
      have := congrArg List.length hmap
      rw [List.length_map, List.length_reverse] at this
      omega
    rcases numberEntries_eq (l := l) (.step hne ha) hx hlength with ⟨e, he, hindex, hentry⟩
    rw [firstNo_cons ha] at he
    refine ⟨l ++ [e], ?_, ?_, ?_, ?_⟩
    · rw [List.reverse_cons, List.foldlM_append, hl, firstNo_cons ha]
      refine Eq.trans ?_ he
      simp
    · rw [List.map_append, hmap, List.reverse_cons, List.map_singleton, hindex]
    · rw [List.reverse_cons]
      refine htop.push (.step hne ha) hx ?_ ?_
      · rw [List.mem_reverse]
        exact (List.nodup_cons.mp (Path.step hne ha).nodup).1
      · intro y hy
        exact List.mem_reverse.mpr hy
    · intro e' he'
      rcases List.mem_append.mp he' with he' | he'
      · exact hnumbered e' he'
      · cases List.mem_singleton.mp he'
        exact hentry

theorem foldl_methods (n : UInt32) (l : List IFIndexEntry) :
    l.foldl (fun n e => n + (e.methodCount M).toUInt32) n = n + methods M l := by
  induction l generalizing n with
  | nil => simp
  | cons e l ih => rw [List.foldl_cons, ih, methods_cons, UInt32.add_assoc]

theorem createIFList_interface (hM : Hierarchy M) {this : CInterfaceInfo}
    (hthis : this.mIndex < M.mInterfaceCount.toNat) (hnone : this.mIFList = none) (alloc : Bool) :
    ∃ r, this.createIFList M alloc = some r ∧ (alloc = true → r.1 = .NOERROR) ∧
      (r.1 = .NOERROR → ∃ l, r.2.mIFList = some l ∧ r.2.mIFCount = l.length ∧
        Lists M (fun x => ∃ a, Ancestors M this.mIndex a ∧ x ∈ a) r.2.mMethodCount l) := by
  rcases hM.exists_ancestors hthis with ⟨a, ha⟩
  have hfresh : ¬ this.mIFList.isSome = true := by
    rw [hnone]
    exact Bool.false_ne_true
  rw [CInterfaceInfo.createIFList, if_neg hfresh, hM.climb_eq ha hthis]
  dsimp only [Option.bind_eq_bind, Option.bind_some]
  cases alloc with
  | false => exact ⟨_, rfl, nofun, nofun⟩
  | true =>
    rcases numberAncestors_eq hM ha hthis le_rfl with ⟨l, hl, hmap, htop, hnumbered⟩
    rw [if_neg (not_not.mpr rfl), hl]
    dsimp only [Option.bind_some]
    refine ⟨_, rfl, fun _ => rfl, fun _ => ⟨l, rfl, ?_, ?_⟩⟩
    · have := congrArg List.length hmap
      rw [List.length_map, List.length_reverse] at this
      exact this.symm
    · rw [← hmap] at htop
      dsimp only
      rw [foldl_methods, UInt32.zero_add]
      refine lists_of_sublist hM htop hnumbered (List.Sublist.refl l) ?_
      intro x
      rw [hmap, List.mem_reverse]
      constructor
      · exact fun hx => ⟨a, ha, hx⟩
      · rintro ⟨b, hb, hx⟩
        rw [hb.unique ha] at hx
        exact hx

end Lists

/-- The lists of a class and of an interface give a method the same number. -/
theorem vtable_numbers_agree (M : ClsModule) (hM : Hierarchy M) (desc : ClassDescriptor)
    (hdesc : ∀ cif ∈ desc.mInterfaces, cif.mIndex.toNat < M.mInterfaceCount.toNat)
    (alloc : Nat → Bool) :
    ∃ r, CClassInfo.empty.createIFList M desc alloc = some r ∧
      ((∀ k, alloc k = true) → r.1 = .NOERROR) ∧ (r.1 ≠ .NOERROR → r.2 = .empty) ∧
      (r.1 = .NOERROR → ∃ ifs cbs, ClassLists M desc r.2 ifs cbs ∧
        ∀ this : CInterfaceInfo, this.mIndex < M.mInterfaceCount.toNat → this.mIFList = none →
          ∀ ok, ∃ q, this.createIFList M ok = some q ∧ (ok = true → q.1 = .NOERROR) ∧
            (q.1 = .NOERROR → ∃ l, q.2.mIFList = some l ∧ q.2.mIFCount = l.length ∧
              Lists M (fun x => ∃ a, Ancestors M this.mIndex a ∧ x ∈ a) q.2.mMethodCount l ∧
              ∀ e ∈ ifs ++ cbs, ∀ e' ∈ l, e'.mIndex = e.mIndex → elements M e' = elements M e)) := by
  rcases createIFList_class hM hdesc alloc with ⟨r, hr, hok, hfail, hlists⟩
  refine ⟨r, hr, hok, hfail, ?_⟩
  intro hnoerror
  rcases hlists hnoerror with ⟨ifs, cbs, hclass⟩
  refine ⟨ifs, cbs, hclass, ?_⟩
  intro this hthis hnone ok
  rcases createIFList_interface hM hthis hnone ok with ⟨q, hq, hqok, hqlists⟩
  refine ⟨q, hq, hqok, ?_⟩
  intro hqnoerror
  rcases hqlists hqnoerror with ⟨l, hl, hcount, hinterface⟩
  refine ⟨l, hl, hcount, hinterface, ?_⟩
  intro e he e' he' heq
  have hlt : e.mIndex < M.mInterfaceCount.toNat := by
    rcases (hinterface.mem_iff e'.mIndex).mp (List.mem_map_of_mem he') with ⟨a, ha, hmem⟩
    rw [← heq]
    exact hM.lt_of_mem ha hthis _ hmem
  rcases List.mem_append.mp he with he | he
  · exact hclass.interfaces.elements_eq hM hinterface he he' heq hlt
  · exact hclass.callbacks.elements_eq hM hinterface he he' heq hlt

/-- Three interfaces, each the parent of the next. -/
def threeInterfaces : ClsModule where
  mInterfaceCount := 3
  mInterfaceDirs index := { mName := "I", mNameSpace := "", mDesc := index }
  interfaceDesc index :=
    { mMethodCount := UInt16.ofNat (index + 2)
      mParentIndex := UInt16.ofNat (index - 1)
      mMethods := fun _ => { mName := "f", mSignature := "()E" } }

theorem vtable_numbers_agree_threeInterfaces :
    ∃ r ifs cbs,
      CClassInfo.empty.createIFList threeInterfaces { mInterfaces := [⟨2, false⟩, ⟨1, true⟩] }
          (fun _ => true) = some r ∧
        ClassLists threeInterfaces { mInterfaces := [⟨2, false⟩, ⟨1, true⟩] } r.2 ifs cbs := by
  have hcount : threeInterfaces.mInterfaceCount.toNat = 3 := rfl
  have hM : Hierarchy threeInterfaces := by
    constructor
    · intro x hx hne
      rw [hcount] at hx ⊢
      interval_cases x <;> decide
    · intro x hx
      rw [hcount] at hx
      refine ⟨2, ?_⟩
      interval_cases x <;> decide
  rcases vtable_numbers_agree threeInterfaces hM { mInterfaces := [⟨2, false⟩, ⟨1, true⟩] }
    (by decide) (fun _ => true) with ⟨r, hr, hok, -, hlists⟩
  rcases hlists (hok fun _ => rfl) with ⟨ifs, cbs, hclass, -⟩
  exact ⟨r, ifs, cbs, hr, hclass⟩

end SuperExe.Reflection.VTable
