import SuperExe.Reflection.EntryIndex
import SuperExe.Reflection.HashTableMap

/-! # Entries by their name

A `CEntryList` puts its entries in `mHTIndexs`, each under a key that is built from its
namespace and name, or from the name and signature of a method. `AcquireObjByName` looks
the name up there (`name_lookup_iff`).
-/

namespace SuperExe.Reflection.Entries

open SuperExe.Core SuperExe.Lib
open StructInfo (toNat_ofNat_of_lt)

/-! ## The lists with their tables -/

/-- The load factor of the hash tables is `3/4`, in floating point or with a shift. -/
structure LoadPlatform extends Platform where
  load : ∀ c, 0 < c → c < 2 ^ 29 → 2 * c / 3 ≤ threshold c

structure NameState where
  list : State
  mHTIndexs : HashTable UInt32

/-- What the environment decides of a call: whether there is memory for the elements,
which allocations of the `n`-th `Put` succeed, and what `CObjInfoList` answers. None of
its functions answers that something does not exist. -/
structure NameEnv where
  alloc : Bool
  put : Nat → HashTable.Alloc
  acquired : ECode
  answer : acquired ≠ .E_DOES_NOT_EXIST

structure NameCall where
  env : NameEnv
  name : CStr

section Lists

variable (L : Args) (P : Platform)

/-- `HashTable`, with the capacity that it has by default. -/
def NameState.new : NameState := ⟨State.new, HashTable.new P UInt32 11⟩

/-- The entries are stored and put one after the other. -/
def fillNames (alloc : Nat → HashTable.Alloc) :
    List Entry → Nat → List ObjElement → HashTable UInt32 →
      Option (ECode × List ObjElement × HashTable UInt32)
  | [], _, elems, h => some (.NOERROR, elems, h)
  | r :: rest, n, elems, h =>
    if L.isMethodList ∧ n = L.mTotalCount.toNat then some (.E_INVALID_ARGUMENT, elems, h)
    else if n < elems.length then do
      let (done, h) ← h.put P .string (some r.strKey.bytes) (some (UInt32.ofNat n)) (alloc n)
      if done then fillNames alloc rest (n + 1) (elems.set n r.element) h
      else some (.E_OUT_OF_MEMORY, elems.set n r.element, h)
    else none

/-- `CEntryList::InitElemList` with the hash table. -/
def initNames (env : NameEnv) (s : NameState) : Option (ECode × NameState) :=
  if L.mTotalCount = 0 then some (.E_DOES_NOT_EXIST, s)
  else if s.list.mObjElement.isSome then some (.NOERROR, s)
  else if env.alloc = false ∨ 2 ^ 32 ≤ sizeofObjElement * L.mTotalCount.toNat then
    some (.E_OUT_OF_MEMORY, s)
  else
    let fresh := List.replicate L.mTotalCount.toNat ObjElement.zero
    if L.isListed = false then some (.E_INVALID_OPERATION, { s with list := ⟨some fresh⟩ })
    else do
      let entries ← L.entries?
      let r ← fillNames L P env.put entries 0 fresh s.mHTIndexs
      some (r.1, ⟨⟨some r.2.1⟩, r.2.2⟩)

/-- `CEntryList::AcquireObjByName` -/
def acquireObjByName (env : NameEnv) (s : NameState) (name : CStr) :
    Option (Except ECode Obj × NameState) := do
  let (ec, s) ← initNames L P env s
  if ec ≠ .NOERROR then some (.error ec, s)
  else
    match ← s.mHTIndexs.get P .string (some name.bytes) with
    | none => some (.error .E_DOES_NOT_EXIST, s)
    | some index => do
      let r ← acquireObjByIndex L ⟨env.alloc, fun _ => true, env.acquired⟩ s.list index
      some (r.1, { s with list := r.2 })

/-- The name of the class object that `CClassInfo::AcquireConstructorList` asks the module
for. -/
def constructorKey (classDir : DirEntry) : CStr :=
  let clsName := classDir.mName ++ ⟨[67, 108, 97, 115, 115, 79, 98, 106, 101, 99, 116], by decide⟩
  match classDir.mNameSpace with
  | some ns => if ns.bytes = [] then clsName else ns ++ CStr.dot ++ clsName
  | none => clsName

/-- Calls on one list. -/
def byName : Machine NameState NameCall where
  step s c := ((acquireObjByName L P c.env s c.name).map Prod.snd).getD s

end Lists

/-! ## Full names -/

/-- The namespace, if it is there and not empty, and the name. -/
def fullName (mNameSpace : Option CStr) (mName : CStr) : CStr :=
  match mNameSpace with
  | some ns => if ns.bytes = [] then mName else ns ++ CStr.dot ++ mName
  | none => mName

namespace Args

variable (L : Args)

/-- The directory entry of an entry. -/
def dirOf (k : Nat) : Option DirEntry :=
  match L.mType with
  | .Aspect => do
    let index ← L.mDesc.mAspectIndexes[k]?
    L.mClsMod.mClassDirs[index.toNat]?
  | .Aggregatee => do
    let index ← L.mDesc.mAggrIndexes[k]?
    L.mClsMod.mClassDirs[index.toNat]?
  | .Class => L.mClsMod.mClassDirs[k]?
  | .Interface => L.mClsMod.mInterfaceDirs[k]?
  | .Struct => L.mClsMod.mStructDirs[k]?
  | .Enum => L.mClsMod.mEnumDirs[k]?
  | .Constant => L.mClsMod.mConstDirs[k]?
  | .TypeAliase => (L.aliases[k]?).map Prod.fst
  | .ClassInterface => (L.mIFList[k]?).map fun e => ⟨e.mName, e.mNameSpace⟩
  | _ => none

/-- The full name of an entry; of a method, its name and signature. -/
def fullNameAt (k : Nat) : Option CStr :=
  if L.isMethodList then (L.entries[k]?).map (·.strKey)
  else (L.dirOf k).map fun d => fullName d.mNameSpace d.mName

/-- The key that a list makes of a directory entry. -/
def keyOf (d : DirEntry) : CStr :=
  match L.mType with
  | .Class | .Interface | .Enum => dirKey d.mNameSpace d.mName
  | .ClassInterface => interfaceKey d.mNameSpace d.mName
  | _ => d.mName

/-- The key is the full name: in a list of classes, interfaces or enumerations, there is
no namespace that is empty; in one of class interfaces, always; in all others, there is no
namespace that is not empty. -/
def KeyRight (d : DirEntry) : Prop :=
  match L.mType with
  | .Class | .Interface | .Enum => ∀ ns, d.mNameSpace = some ns → ns.bytes ≠ []
  | .ClassInterface => True
  | _ => ∀ ns, d.mNameSpace = some ns → ns.bytes = []

end Args

/-- A list of one of the types that are used, with pairwise different full names. -/
structure NameList extends CEntryList where
  listed : toArgs.isListed = true
  distinct : ∀ (j k : Nat) (name : CStr), toArgs.fullNameAt j = some name →
    toArgs.fullNameAt k = some name → j = k

/-- The entry of that name is given, and for any other name it is said that there is
none. -/
def NameAnswers (P : Platform) (L : Args) (s : NameState) (c : NameCall) : Prop :=
  (∀ k, L.fullNameAt k = some c.name →
      ∃ o s', acquireObjByName L P c.env s c.name = some (.ok o, s') ∧ L.objectAt k = some o) ∧
    ((∀ k, L.fullNameAt k ≠ some c.name) →
      ∃ s', acquireObjByName L P c.env s c.name = some (.error .E_DOES_NOT_EXIST, s'))

/-- The position leads to its own entry: a list of methods takes a position from `2 ^ 16`
on for the number of a method, and callback methods have no objects. -/
def Leads (L : Args) (k : Nat) : Prop :=
  L.isMethodList = true → L.mType ≠ .CBMethod ∧
    (2 ^ 16 ≤ k → (L.entries.map (·.element.mIndex))[k]? = some (UInt32.ofNat k) ∧
      ∀ j < k, (L.entries.map (·.element.mIndex))[j]? ≠ some (UInt32.ofNat k))

/-- If there are entries: `InitElemList` has the memory it needs; if the name is that of an
entry, its key is right, no later entry has the same key, its position leads to it, and
its object is kept or given by `CObjInfoList`; and if it is not, no entry has it as its
key. -/
def NameCareful (P : Platform) (L : Args) (s : NameState) (c : NameCall) : Prop :=
  L.mTotalCount ≠ 0 →
    (∃ s', initNames L P c.env s = some (.NOERROR, s')) ∧
      (∀ k, L.fullNameAt k = some c.name →
        (∀ d, L.dirOf k = some d → L.KeyRight d) ∧
          (∀ j, k < j → (L.entries.map (·.strKey))[j]? ≠ some c.name) ∧ Leads L k ∧
            (c.env.acquired = .NOERROR ∨ ∃ e : ObjElement,
              (elements L s.list)[k]? = some e ∧ e.mObject.isSome = true)) ∧
      ((∀ k, L.fullNameAt k ≠ some c.name) → c.name ∉ L.entries.map (·.strKey))

/-! ## Keys -/

section Keys

theorem interfaceKey_eq (mNameSpace : Option CStr) (mName : CStr) :
    interfaceKey mNameSpace mName = fullName mNameSpace mName := by
  cases mNameSpace with
  | none => rfl
  | some ns =>
    by_cases h : ns.bytes = []
    · rw [interfaceKey, fullName, if_neg (not_not.mpr h), if_pos h]
    · rw [interfaceKey, fullName, if_pos h, if_neg h]

theorem dotted_ne (ns name : CStr) : ns ++ CStr.dot ++ name ≠ name := by
  intro h
  have hlength := congrArg (fun s : CStr => s.bytes.length) h
  have happend : (ns ++ CStr.dot ++ name).bytes = ns.bytes ++ [46] ++ name.bytes := rfl
  simp only [happend, List.length_append, List.length_singleton] at hlength
  omega

/-- The last loop makes the full name its key, but for a namespace that is there and
empty. -/
theorem dirKey_eq_iff (mNameSpace : Option CStr) (mName : CStr) :
    dirKey mNameSpace mName = fullName mNameSpace mName ↔
      ∀ ns, mNameSpace = some ns → ns.bytes ≠ [] := by
  cases mNameSpace with
  | none => exact iff_of_true rfl fun ns h => by cases h
  | some ns =>
    rw [dirKey, fullName]
    by_cases h : ns.bytes = []
    · rw [if_pos h]
      exact iff_of_false (dotted_ne ns mName) fun hall => hall ns rfl h
    · rw [if_neg h]
      refine iff_of_true rfl fun ns' heq => ?_
      cases heq
      exact h

/-- A key that is the name alone. -/
theorem name_eq_iff (mNameSpace : Option CStr) (mName : CStr) :
    mName = fullName mNameSpace mName ↔ ∀ ns, mNameSpace = some ns → ns.bytes = [] := by
  cases mNameSpace with
  | none => exact iff_of_true rfl fun ns h => by cases h
  | some ns =>
    rw [fullName]
    by_cases h : ns.bytes = []
    · rw [if_pos h]
      refine iff_of_true rfl fun ns' heq => ?_
      cases heq
      exact h
    · rw [if_neg h]
      exact iff_of_false (fun heq => dotted_ne ns mName heq.symm) fun hall => h (hall ns rfl)

theorem keyRight_iff (L : Args) (d : DirEntry) :
    L.KeyRight d ↔ L.keyOf d = fullName d.mNameSpace d.mName := by
  rw [Args.KeyRight, Args.keyOf]
  generalize L.mType = type
  cases type with
  | Class | Interface | Enum => exact (dirKey_eq_iff _ _).symm
  | ClassInterface => exact iff_of_true trivial (interfaceKey_eq _ _)
  | _ => exact (name_eq_iff _ _).symm

/-- The class object is looked for by its full name. -/
theorem constructorKey_eq (classDir : DirEntry) :
    constructorKey classDir = fullName classDir.mNameSpace (classDir.mName ++
      ⟨[67, 108, 97, 115, 115, 79, 98, 106, 101, 99, 116], by decide⟩) := rfl

end Keys

section Entries

variable {L : CEntryList}

theorem isMethodList_iff : L.isMethodList = true ↔
    L.mType = .Method ∨ L.mType = .Constructor ∨ L.mType = .CBMethod := by
  rw [Args.isMethodList, decide_eq_true_eq]

/-- The entries of the last loop, one by one. -/
theorem entries_getElem_dir (h : L.isDirList = true) {k : Nat} (hk : k < L.mTotalCount.toNat) :
    L.entries[k]? = L.dirEntryAt k := by
  rcases mapM_isSome (f := L.dirEntryAt) (l := List.range L.mTotalCount.toNat) fun i hi =>
    dirEntryAt_isSome h (List.mem_range.mp hi) with ⟨r, hr, hmap⟩
  have hentries : L.entries = r := by
    rw [Args.entries, Args.entries?]
    rw [Args.isDirList] at h
    generalize L.mType = type at *
    cases type with
    | _ =>
      first
        | exact congrArg (fun l => l.getD []) hr
        | cases h
  have hat := congrArg (fun l => l[k]?) hmap
  simp only [List.getElem?_map, List.getElem?_range hk, Option.map_some] at hat
  rw [hentries]
  rcases Option.map_eq_some_iff.mp hat with ⟨x, hx, heq⟩
  rw [hx, heq]

theorem keyOf_eq (L : Args) : L.keyOf = match L.mType with
    | .Class | .Interface | .Enum => fun d => dirKey d.mNameSpace d.mName
    | .ClassInterface => fun d => interfaceKey d.mNameSpace d.mName
    | _ => fun d => d.mName := by
  funext d
  rw [Args.keyOf]
  generalize L.mType = type
  cases type <;> rfl

theorem dirEntryAt_eq (h : L.isDirList = true) (k : Nat) :
    (L.dirEntryAt k).map (·.strKey) = (L.dirOf k).map L.keyOf := by
  have hlookup : ∀ (l : List UInt16) (dirs : List DirEntry),
      (do
        let index ← l[k]?
        let classDir ← dirs[index.toNat]?
        some (Args.dirEntry k classDir.mName none) : Option Entry).map (·.strKey) =
      (do
        let index ← l[k]?
        dirs[index.toNat]? : Option DirEntry).map (·.mName) := by
    intro l dirs
    cases l[k]? with
    | none => rfl
    | some index =>
      simp only [Option.bind_eq_bind, Option.bind_some]
      cases dirs[index.toNat]? <;> rfl
  have hplain : ∀ (dirs : List DirEntry) (ns : DirEntry → Option CStr),
      ((dirs[k]?).map fun d => Args.dirEntry k d.mName (ns d)).map (·.strKey) =
        (dirs[k]?).map fun d => dirKey (ns d) d.mName := by
    intro dirs ns
    cases dirs[k]? <;> rfl
  rw [Args.isDirList] at h
  rw [Args.dirEntryAt, Args.dirOf, keyOf_eq]
  generalize L.mType = type at *
  cases type with
  | Aspect => exact hlookup _ _
  | Aggregatee => exact hlookup _ _
  | Class | Interface | Enum => exact hplain _ (·.mNameSpace)
  | Struct | Constant => exact hplain _ fun _ => none
  | _ => cases h

/-- The key of an entry is the one that is made of its directory entry. -/
theorem strKey_eq (hlisted : L.isListed = true) (hmethod : L.isMethodList ≠ true) {k : Nat}
    (hk : k < L.mTotalCount.toNat) :
    ∃ (r : Entry) (d : DirEntry), L.entries[k]? = some r ∧ L.dirOf k = some d ∧
      r.strKey = L.keyOf d := by
  rcases exists_entry hlisted hk with ⟨r, hr⟩
  suffices hall : (L.entries[k]?).map (·.strKey) = (L.dirOf k).map L.keyOf by
    rw [hr, Option.map_some] at hall
    rcases Option.map_eq_some_iff.mp hall.symm with ⟨d, hd, heq⟩
    exact ⟨r, d, hr, hd, heq.symm⟩
  by_cases hdir : L.isDirList = true
  · rw [entries_getElem_dir hdir hk, dirEntryAt_eq hdir]
  · rw [Args.entries, Args.entries?, Args.dirOf, keyOf_eq]
    rw [Args.isDirList] at hdir
    rw [Args.isListed] at hlisted
    rw [Args.isMethodList] at hmethod
    generalize L.mType = type at *
    cases type with
    | TypeAliase | ClassInterface =>
      simp only [Option.getD_some, List.getElem?_map, Option.map_map]
      rfl
    | _ =>
      first
        | exact absurd rfl hdir
        | exact absurd hlisted Bool.false_ne_true
        | exact absurd rfl hmethod

/-- Where the full name is that of a directory entry, there is one for every entry. -/
theorem fullNameAt_dir (hlisted : L.isListed = true) (hmethod : L.isMethodList ≠ true) {k : Nat}
    {name : CStr} : L.fullNameAt k = some name ↔ ∃ (r : Entry) (d : DirEntry),
      L.entries[k]? = some r ∧ L.dirOf k = some d ∧ r.strKey = L.keyOf d ∧
        fullName d.mNameSpace d.mName = name := by
  rw [Args.fullNameAt, if_neg hmethod]
  constructor
  · intro h
    rcases Option.map_eq_some_iff.mp h with ⟨d, hd, hname⟩
    have hk : k < L.mTotalCount.toNat := by
      have hcounted := L.counted
      have hlt : ∀ {l : List DirEntry} {x : DirEntry}, l[k]? = some x → k < l.length :=
        fun h => (List.getElem?_eq_some_iff.mp h).1
      have hlookup : ∀ {l : List UInt16} {dirs : List DirEntry},
          (do
            let index ← l[k]?
            dirs[index.toNat]?) = some d → k < l.length := by
        intro l dirs h
        rcases Option.bind_eq_some_iff.mp h with ⟨index, hindex, -⟩
        exact (List.getElem?_eq_some_iff.mp hindex).1
      have hmap : ∀ {α : Type} {l : List α} {f : α → DirEntry}, (l[k]?).map f = some d →
          k < l.length := by
        intro α l f h
        rcases Option.map_eq_some_iff.mp h with ⟨x, hx, -⟩
        exact (List.getElem?_eq_some_iff.mp hx).1
      rw [Args.dirOf] at hd
      rw [Args.Counted] at hcounted
      generalize L.mType = type at *
      cases type with
      | Aspect | Aggregatee => exact hcounted.1 ▸ hlookup hd
      | TypeAliase | ClassInterface => exact hcounted.1 ▸ hmap hd
      | Class | Interface | Struct | Enum | Constant => exact hcounted ▸ hlt hd
      | _ => cases hd
    rcases strKey_eq hlisted hmethod hk with ⟨r, d', hr, hd', hkey⟩
    rw [hd] at hd'
    cases hd'
    exact ⟨r, d, hr, hd, hkey, hname⟩
  · rintro ⟨r, d, -, hd, -, rfl⟩
    rw [hd, Option.map_some]

theorem lt_of_fullNameAt (hlisted : L.isListed = true) {k : Nat} {name : CStr}
    (h : L.fullNameAt k = some name) : ∃ r : Entry, L.entries[k]? = some r ∧
      k < L.mTotalCount.toNat := by
  have hlt : ∀ {r : Entry}, L.entries[k]? = some r → k < L.mTotalCount.toNat := fun hr =>
    (entries_spec hlisted).2 ▸ (List.getElem?_eq_some_iff.mp hr).1
  by_cases hmethod : L.isMethodList = true
  · rw [Args.fullNameAt, if_pos hmethod] at h
    rcases Option.map_eq_some_iff.mp h with ⟨r, hr, -⟩
    exact ⟨r, hr, hlt hr⟩
  · rcases (fullNameAt_dir hlisted hmethod).mp h with ⟨r, d, hr, -⟩
    exact ⟨r, hr, hlt hr⟩

/-- The key of an entry is its full name exactly when it is right. -/
theorem strKey_eq_fullName_iff (hlisted : L.isListed = true) {k : Nat} {name : CStr}
    (h : L.fullNameAt k = some name) :
    (L.entries.map (·.strKey))[k]? = some name ↔ ∀ d, L.dirOf k = some d → L.KeyRight d := by
  rw [List.getElem?_map]
  by_cases hmethod : L.isMethodList = true
  · have hkey := h
    rw [Args.fullNameAt, if_pos hmethod] at hkey
    refine iff_of_true hkey fun d hd => ?_
    rw [Args.dirOf] at hd
    rw [Args.isMethodList] at hmethod
    generalize L.mType = type at *
    cases type with
    | Method | Constructor | CBMethod => cases hd
    | _ => cases hmethod
  · rcases (fullNameAt_dir hlisted hmethod).mp h with ⟨r, d, hr, hd, hkey, hname⟩
    rw [hr, Option.map_some, Option.some_inj, hkey, ← hname, ← keyRight_iff]
    constructor
    · intro hright d' hd'
      rw [hd] at hd'
      cases hd'
      exact hright
    · exact fun hall => hall d hd

/-- The directory entry of an info object. -/
def dirOfObj (M : CLSModule) : Obj → Option DirEntry
  | .classInfo index => M.mClassDirs[index]?
  | .interfaceInfo index => M.mInterfaceDirs[index]?
  | .structInfo index => M.mStructDirs[index]?
  | .enumInfo index => M.mEnumDirs[index]?
  | .typeAliasInfo index => M.mAliasDirs[index]?
  | .constantInfo index => M.mConstDirs[index]?
  | _ => none

theorem dirOf_of_objectAt (hlisted : L.isListed = true) (hmethod : L.isMethodList ≠ true) {k : Nat}
    {r : Entry} (hr : L.entries[k]? = some r) {o : Obj} (ho : L.objectAt k = some o) :
    L.dirOf k = dirOfObj L.mClsMod o := by
  have hcounted := L.counted
  -- in a list of indexes the object is the class with that index
  have hlookup : ∀ {l : List UInt16},
      (do
        let adjIndex ← l[k]?
        let _ ← L.mClsMod.mClassDirs[adjIndex.toNat]?
        some (.ok (.classInfo adjIndex.toNat)) : Option (Except ECode Obj)) = some (.ok o) →
      (do
        let index ← l[k]?
        L.mClsMod.mClassDirs[index.toNat]?) = dirOfObj L.mClsMod o := by
    intro l h
    simp only [Option.bind_eq_bind, Option.bind_eq_some_iff, Option.some_inj, Except.ok.injEq] at h
    rcases h with ⟨index, hindex, d, -, rfl⟩
    rw [hindex]
    rfl
  -- in a list of directories it is the one at the position
  have hplain : ∀ {dirs : List DirEntry} {x : Obj},
      (dirs[k]?).map (fun _ => (.ok x : Except ECode Obj)) = some (.ok o) → o = x := by
    intro dirs x h
    rcases Option.map_eq_some_iff.mp h with ⟨d, -, heq⟩
    exact (Except.ok.inj heq).symm
  rw [objectAt_eq_some_iff hr, request] at ho
  rw [Args.entries, Args.entries?] at hr
  rw [Args.Counted] at hcounted
  rw [Args.dirOf]
  rw [Args.isListed] at hlisted
  rw [Args.isMethodList] at hmethod
  generalize L.mType = type at *
  -- by the type of the list, as `request` and `dirOf` go
  cases type with
  | Aspect | Aggregatee => exact hlookup ho
  | Class | Interface | Struct | Enum | Constant => rw [hplain ho, dirOfObj]
  | ClassInterface =>
    dsimp only [Option.getD_some] at hr ho ⊢
    rw [List.getElem?_map] at hr
    rcases Option.map_eq_some_iff.mp hr with ⟨e, he, rfl⟩
    rcases Option.map_eq_some_iff.mp ho with ⟨d, -, heq⟩
    rw [he, Option.map_some, ← Except.ok.inj heq]
    exact (hcounted.2 e (List.mem_of_getElem? he)).symm
  | TypeAliase =>
    dsimp only [Option.getD_some] at hr ho ⊢
    rw [List.getElem?_map] at hr
    rcases Option.map_eq_some_iff.mp hr with ⟨d, hd, rfl⟩
    rcases Option.map_eq_some_iff.mp ho with ⟨d', -, heq⟩
    have hzip := List.mem_zipIdx (List.mem_of_mem_filter (List.mem_of_getElem? hd))
    have hlt := hzip.2.1
    have hsmall := hcounted.2
    rw [Nat.zero_add] at hlt
    have hnumber : (Args.aliasEntry d).element.mIndex.toNat = d.2 :=
      toNat_ofNat_of_lt (by omega)
    rw [hd, Option.map_some, ← Except.ok.inj heq, dirOfObj, hnumber, hzip.2.2]
    simp only [Nat.sub_zero, List.getElem?_eq_getElem hlt]
  | _ =>
    first
      | exact absurd rfl hmethod
      | exact absurd hlisted Bool.false_ne_true

/-- The key of a method is that of its descriptor. -/
theorem strKey_of_method (hmethod : L.isMethodList = true) {r : Entry} (hr : r ∈ L.entries)
    {desc : Nat × Nat} (hdesc : r.element.mDesc = some desc) :
    ((L.mClsMod.interfaceDesc desc.1)[desc.2]?).map (fun m => m.mName ++ m.mSignature) =
      some r.strKey := by
  rw [Args.entries, Args.entries?] at hr
  rw [Args.isMethodList] at hmethod
  generalize L.mType = type at *
  cases type with
  | Method | Constructor | CBMethod =>
    rcases List.mem_flatMap.mp hr with ⟨e, -, h⟩
    rcases List.mem_map.mp h with ⟨m, hm, rfl⟩
    cases hdesc
    have hzip := List.mem_zipIdx hm
    have hlt := hzip.2.1
    rw [Nat.zero_add] at hlt
    rw [List.getElem?_eq_getElem hlt, Option.map_some, Args.methodEntry, hzip.2.2]
    simp only [Nat.sub_zero]
  | _ => cases hmethod

/-- Entries with the same object have the same full name. -/
theorem fullNameAt_of_objectAt (hlisted : L.isListed = true) (hcb : L.mType ≠ .CBMethod)
    {j k : Nat} (hj : j < L.mTotalCount.toNat) (hk : k < L.mTotalCount.toNat) {o : Obj}
    (hoj : L.objectAt j = some o) (hok : L.objectAt k = some o) :
    L.fullNameAt j = L.fullNameAt k := by
  rcases exists_entry hlisted hj with ⟨r, hr⟩
  rcases exists_entry hlisted hk with ⟨r', hr'⟩
  by_cases hmethod : L.isMethodList = true
  swap
  · rw [Args.fullNameAt, Args.fullNameAt, if_neg hmethod, if_neg hmethod,
      dirOf_of_objectAt hlisted hmethod hr hoj, dirOf_of_objectAt hlisted hmethod hr' hok]
  have h : L.mType = .Method ∨ L.mType = .Constructor := by
    rcases isMethodList_iff.mp hmethod with h | h | h
    · exact Or.inl h
    · exact Or.inr h
    · exact absurd h hcb
  have hmem := List.mem_of_getElem? hr
  have hmem' := List.mem_of_getElem? hr'
  rcases Option.isSome_iff_exists.mp (method_mDesc hmethod hmem) with ⟨desc, hdesc⟩
  rcases Option.isSome_iff_exists.mp (method_mDesc hmethod hmem') with ⟨desc', hdesc'⟩
  rw [objectAt_eq_some_iff hr, request_method h, hdesc, Option.elim_some, Option.some_inj,
    Except.ok.injEq] at hoj
  rw [objectAt_eq_some_iff hr', request_method h, hdesc', Option.elim_some, Option.some_inj,
    Except.ok.injEq, ← hoj, methodObj_inj] at hok
  have hkey := strKey_of_method hmethod hmem hdesc
  have hkey' := strKey_of_method hmethod hmem' hdesc'
  rw [hok.1, hkey] at hkey'
  rw [Args.fullNameAt, Args.fullNameAt, if_pos hmethod, if_pos hmethod, hr, hr', Option.map_some,
    Option.map_some, hkey']

end Entries

/-! ## The table -/

/-- The last position of a key. -/
def Last (keys : List CStr) (name : CStr) (k : Nat) : Prop :=
  keys[k]? = some name ∧ ∀ j, k < j → keys[j]? ≠ some name

theorem Last.unique {keys : List CStr} {name : CStr} {j k : Nat} (hj : Last keys name j)
    (hk : Last keys name k) : j = k := by
  rcases Nat.lt_trichotomy j k with h | h | h
  · exact absurd hk.1 (hj.2 k h)
  · exact h
  · exact absurd hj.1 (hk.2 j h)

/-- The map holds the last position of every key. -/
def Indexes (keys : List CStr) (m : Finmap fun _ : Bytes => UInt32) : Prop :=
  ∀ (name : CStr) (v : UInt32),
    m.lookup name.bytes = some v ↔ ∃ k, v = UInt32.ofNat k ∧ Last keys name k

theorem indexes_nil : Indexes [] ∅ := by
  intro name v
  rw [Finmap.lookup_empty]
  refine iff_of_false (fun h => by cases h) ?_
  rintro ⟨k, -, h, -⟩
  cases h

theorem CStr.bytes_inj {s t : CStr} : s.bytes = t.bytes ↔ s = t := by
  cases s
  cases t
  rw [CStr.mk.injEq]

theorem last_append {keys : List CStr} {key name : CStr} {k : Nat} :
    Last (keys ++ [key]) name k ↔
      if key = name then k = keys.length else Last keys name k := by
  have hself : key = name → Last (keys ++ [key]) name keys.length := by
    rintro rfl
    refine ⟨?_, fun j hj => ?_⟩
    · rw [List.getElem?_append_right (Nat.le_refl _), Nat.sub_self]
      rfl
    · rw [List.getElem?_eq_none (by rw [List.length_append, List.length_singleton]; omega)]
      exact (Option.some_ne_none key).symm
  by_cases h : key = name
  · rw [if_pos h]
    constructor
    · exact fun hk => hk.unique (hself h)
    · rintro rfl
      exact hself h
  · rw [if_neg h]
    have hat : ∀ j : Nat, (keys ++ [key])[j]? = some name ↔ keys[j]? = some name := by
      intro j
      by_cases hj : j < keys.length
      · rw [List.getElem?_append_left hj]
      · rw [List.getElem?_append_right (Nat.not_lt.mp hj), List.getElem?_eq_none (Nat.not_lt.mp hj)]
        refine iff_of_false (fun heq => ?_) fun heq => by cases heq
        exact h (List.mem_singleton.mp (List.mem_of_getElem? heq)).symm
    simp only [Last, ne_eq, hat]

theorem exists_last {keys : List CStr} {name : CStr} (h : name ∈ keys) : ∃ k, Last keys name k := by
  induction keys using List.reverseRecOn with
  | nil => cases h
  | append_singleton keys key ih =>
    simp only [last_append]
    by_cases hkey : key = name
    · exact ⟨keys.length, by rw [if_pos hkey]⟩
    · have hmem : name ∈ keys := by
        rcases List.mem_append.mp h with h | h
        · exact h
        · exact absurd (List.mem_singleton.mp h).symm hkey
      simp only [if_neg hkey]
      exact ih hmem

theorem Indexes.insert {keys : List CStr} {m : Finmap fun _ : Bytes => UInt32}
    (h : Indexes keys m) (key : CStr) :
    Indexes (keys ++ [key]) (m.insert key.bytes (UInt32.ofNat keys.length)) := by
  intro name v
  simp only [last_append]
  by_cases hkey : key = name
  · subst hkey
    rw [Finmap.lookup_insert, Option.some_inj]
    simp only [if_true, exists_eq_right, eq_comm]
  · have hne : name.bytes ≠ key.bytes := fun heq => hkey (CStr.bytes_inj.mp heq).symm
    rw [Finmap.lookup_insert_of_ne _ hne, h name v]
    simp only [if_neg hkey]

theorem count_nonneg {P : Platform} {h : HashTable UInt32} {m : Finmap fun _ : Bytes => UInt32}
    (hinv : Reflection.Inv P .string h m) : 0 ≤ h.count := by
  cases htable : h.table with
  | none => exact Int.le_of_eq (hinv.fresh htable).2.symm
  | some t =>
    rw [(hinv.table t htable).count]
    exact Int.natCast_nonneg _

/-- The capacities that the table goes through, with as many entries at most. -/
structure Roomy (P : LoadPlatform) (h : HashTable UInt32) (n : Nat) : Prop where
  capacity : ∃ k ≤ 25, h.capacity + 1 = 12 * 2 ^ k
  threshold : h.threshold = P.threshold h.capacity
  count : h.count ≤ n

/-- What a `Put` does to the capacity and the count. -/
theorem put_shape {P : Platform} {h h' : HashTable UInt32} {key : Bytes} {v : UInt32}
    {alloc : HashTable.Alloc} {done : Bool}
    (hput : h.put P .string (some key) (some v) alloc = some (done, h')) :
    (h'.capacity = h.capacity ∧ h'.threshold = h.threshold ∨
        h.threshold ≤ h.count ∧ h'.capacity = toInt32 (h.capacity * 2 + 1) ∧
          h'.threshold = P.threshold h'.capacity) ∧
      (h'.count = h.count ∨ h'.count = toInt32 (h.count + 1)) := by
  -- adding an entry leaves the size of the table
  have hadd : ∀ {g g' : HashTable UInt32}, g.addEntry P .string key v alloc = some (done, g') →
      g'.capacity = g.capacity ∧ g'.threshold = g.threshold ∧
        (g'.count = g.count ∨ g'.count = toInt32 (g.count + 1)) := by
    intro g g' hadd
    rw [HashTable.addEntry] at hadd
    split at hadd
    · cases hadd
      exact ⟨rfl, rfl, Or.inl rfl⟩
    · dsimp only at hadd
      split at hadd
      · cases hadd
      · rcases Option.map_eq_some_iff.mp hadd with ⟨t, -, heq⟩
        cases heq
        exact ⟨rfl, rfl, Or.inr rfl⟩
  -- rehashing sets it, and leaves the entries
  have hrehash : ∀ {g g' : HashTable UInt32} {t : List (List (HashEntry UInt32))},
      g.rehash P t = some g' → g'.capacity = toInt32 (g.capacity * 2 + 1) ∧
        g'.threshold = P.threshold g'.capacity ∧ g'.count = g.count := by
    intro g g' t hrehash
    rw [HashTable.rehash] at hrehash
    dsimp only at hrehash
    split at hrehash
    · cases hrehash
    · rcases Option.map_eq_some_iff.mp hrehash with ⟨t', -, heq⟩
      cases heq
      exact ⟨rfl, rfl, rfl⟩
  -- `Put` does the one, or both
  have hin : ∀ {t : List (List (HashEntry UInt32))},
      h.putIn P .string t key v alloc = some (done, h') →
        (h'.capacity = h.capacity ∧ h'.threshold = h.threshold ∨
          h.threshold ≤ h.count ∧ h'.capacity = toInt32 (h.capacity * 2 + 1) ∧
            h'.threshold = P.threshold h'.capacity) ∧
          (h'.count = h.count ∨ h'.count = toInt32 (h.count + 1)) := by
    intro t hin
    rw [HashTable.putIn] at hin
    dsimp only at hin
    split at hin
    · cases hin
    · split at hin
      · cases hin
        exact ⟨Or.inl ⟨rfl, rfl⟩, Or.inl rfl⟩
      · split at hin
        · next hfull =>
          split at hin
          · cases hin
            exact ⟨Or.inl ⟨rfl, rfl⟩, Or.inl rfl⟩
          · rcases Option.bind_eq_some_iff.mp hin with ⟨g, hg, hin⟩
            rcases hrehash hg with ⟨hcapacity, hthreshold, hcount⟩
            rcases hadd hin with ⟨hcapacity', hthreshold', hcount'⟩
            refine ⟨Or.inr ⟨hfull, hcapacity'.trans hcapacity, ?_⟩, ?_⟩
            · rw [hthreshold', hthreshold, hcapacity']
            · rw [hcount] at hcount'
              exact hcount'
        · rcases hadd hin with ⟨hcapacity, hthreshold, hcount⟩
          exact ⟨Or.inl ⟨hcapacity, hthreshold⟩, hcount⟩
  rw [HashTable.put] at hput
  split at hput
  · exact hin hput
  · split at hput
    · cases hput
      exact ⟨Or.inl ⟨rfl, rfl⟩, Or.inl rfl⟩
    · exact hin hput

theorem inv_new_table (P : LoadPlatform) :
    Reflection.Inv P.toPlatform .string (HashTable.new P.toPlatform UInt32 11) ∅ where
  capacity := show (0 : Int) < 11 by decide
  bounded := show (0 : Int) < 2 ^ 31 by decide
  fresh := fun _ => ⟨rfl, rfl⟩
  table := fun _ h => by cases h

theorem roomy_new (P : LoadPlatform) : Roomy P (HashTable.new P.toPlatform UInt32 11) 0 where
  capacity := ⟨0, Nat.zero_le _, rfl⟩
  threshold := rfl
  count := Int.le_refl _

/-- With so few entries the table never asks for more than fits 32 bits, and a `Put` keeps
it so. -/
theorem Roomy.put {P : LoadPlatform} {h : HashTable UInt32} {n : Nat} (hroomy : Roomy P h n)
    (hn : 20 * n < 2 ^ 32) {m : Finmap fun _ : Bytes => UInt32}
    (hinv : Reflection.Inv P.toPlatform .string h m) (key : CStr) (v : UInt32)
    (alloc : HashTable.Alloc) :
    ∃ done h', h.put P.toPlatform .string (some key.bytes) (some v) alloc = some (done, h') ∧
      Roomy P h' (n + 1) ∧
      Reflection.Inv P.toPlatform .string h' (if done then m.insert key.bytes v else m) ∧
      (alloc = ⟨true, true, true⟩ → done = true) := by
  rcases hroomy with ⟨⟨k, hk, hcapacity⟩, hthreshold, hcount⟩
  have hpow : (2 : Int) ^ k ≤ 2 ^ 25 := by
    exact_mod_cast Nat.pow_le_pow_right (by decide) hk
  have hfits : Fits h m key.bytes alloc := by
    refine ⟨fun _ _ => by omega, fun _ _ => ⟨fun _ _ => by omega, fun _ _ => by omega⟩⟩
  rcases put_ok v hinv (show IsKey .string key.bytes from key.noNul) hfits with
    ⟨done, h', hput, hinv', hdone⟩
  refine ⟨done, h', hput, ?_, hinv', hdone⟩
  rcases put_shape hput with ⟨hshape, hcount'⟩
  constructor
  · rcases hshape with ⟨hsame, -⟩ | ⟨hfull, hgrown, -⟩
    · exact ⟨k, hk, by rw [hsame]; exact hcapacity⟩
    · -- a table that is full of so few entries is not the largest one
      have hpos : 0 < h.capacity := hinv.capacity
      have hload := P.load h.capacity hpos (by omega)
      rw [← hthreshold] at hload
      have hlt : k < 25 := by
        rcases Nat.lt_or_eq_of_le hk with hlt | rfl
        · exact hlt
        · omega
      have hnext : h'.capacity = h.capacity * 2 + 1 := by
        rw [hgrown]
        exact toInt32_eq (by omega) (by omega)
      refine ⟨k + 1, hlt, ?_⟩
      rw [hnext, Int.pow_succ]
      omega
  · rcases hshape with ⟨hsame, hsame'⟩ | ⟨-, -, hgrown⟩
    · rw [hsame', hsame, hthreshold]
    · exact hgrown
  · rcases hcount' with hsame | hmore
    · rw [hsame]
      omega
    · have hcounted := count_nonneg hinv
      rw [hmore, toInt32_eq (by omega) (by omega)]
      omega

/-! ## The lists that are full -/

/-- Every element is that of its entry. -/
structure Full (L : CEntryList) (elems : List ObjElement) : Prop where
  sound : SoundList L elems
  mIndex : elems.map (·.mIndex) = L.entries.map (·.element.mIndex)
  mDesc : elems.map (·.mDesc) = L.entries.map (·.element.mDesc)

/-- The elements are there, and the table holds the last position of every key. -/
def Opened (P : LoadPlatform) (L : CEntryList) (s : NameState) (elems : List ObjElement) : Prop :=
  s.list = ⟨some elems⟩ ∧ Full L elems ∧
    ∃ m, Reflection.Inv P.toPlatform .string s.mHTIndexs m ∧ Indexes (L.entries.map (·.strKey)) m

/-- The invariant of a list with its table. -/
def Named (P : LoadPlatform) (L : CEntryList) (s : NameState) : Prop :=
  s = NameState.new P.toPlatform ∨ ∃ elems, Opened P L s elems

section Names

variable {P : LoadPlatform} {L : CEntryList} {s : NameState}

/-- The environment grants `InitElemList` all the memory it asks for. -/
def NameEnv.Grants (L : Args) (env : NameEnv) : Prop :=
  env.alloc = true ∧ sizeofObjElement * L.mTotalCount.toNat < 2 ^ 32 ∧
    ∀ n, env.put n = ⟨true, true, true⟩

/-- `fillNames` stores and puts all entries, or runs out of memory. -/
theorem fillNames_spec (hlisted : L.isListed = true)
    (hsmall : sizeofObjElement * L.mTotalCount.toNat < 2 ^ 32) (alloc : Nat → HashTable.Alloc)
    (done rest : List Entry) (hentries : done ++ rest = L.entries) {h : HashTable UInt32}
    {m : Finmap fun _ : Bytes => UInt32} (hroomy : Roomy P h done.length)
    (hinv : Reflection.Inv P.toPlatform .string h m) (hindexes : Indexes (done.map (·.strKey)) m) :
    ∃ ec elems h', fillNames L.toArgs P.toPlatform alloc rest done.length
          (done.map (·.element) ++ List.replicate rest.length ObjElement.zero) h =
        some (ec, elems, h') ∧
      (ec = .NOERROR ∨ ec = .E_OUT_OF_MEMORY) ∧
      ((∀ n, alloc n = ⟨true, true, true⟩) → ec = .NOERROR) ∧
      (ec = .NOERROR → elems = L.entries.map (·.element) ∧
        ∃ m', Reflection.Inv P.toPlatform .string h' m' ∧
          Indexes (L.entries.map (·.strKey)) m') := by
  have hlength := (entries_spec hlisted).2
  rw [sizeofObjElement] at hsmall
  -- by induction on the entries left; the table has the keys of those before
  induction rest generalizing done h m with
  | nil =>
    rw [List.append_nil] at hentries
    refine ⟨_, _, _, rfl, Or.inl rfl, fun _ => rfl, fun _ => ⟨?_, m, hinv, ?_⟩⟩
    · rw [hentries]
      exact List.append_nil _
    · rw [← hentries]
      exact hindexes
  | cons r rest ih =>
    have hcount : done.length + (rest.length + 1) = L.mTotalCount.toNat := by
      rw [← hlength, ← hentries, List.length_append, List.length_cons]
    have hnext : done ++ [r] ++ rest = L.entries := by
      rw [List.append_assoc, List.singleton_append, hentries]
    rw [fillNames, if_neg (by omega), if_pos (by
      rw [List.length_append, List.length_map, List.length_replicate, List.length_cons]
      omega), set_part]
    -- there is room for one key more, whether the table grows for it or not
    rcases hroomy.put (by omega) hinv r.strKey (UInt32.ofNat done.length)
      (alloc done.length) with ⟨stored, h', hput, hroomy', hinv', hstored⟩
    rw [hput, Option.bind_eq_bind, Option.bind_some]
    dsimp only
    cases stored with
    | false =>
      refine ⟨_, _, _, rfl, Or.inr rfl, fun hgrants => ?_, fun hec => by cases hec⟩
      exact absurd (hstored (hgrants _)) Bool.false_ne_true
    | true =>
      rw [if_pos rfl]
      rw [if_pos rfl] at hinv'
      have hlast := ih _ hnext (by
        rw [List.length_append, List.length_singleton]
        exact hroomy') hinv' (by
        have hindexes' := hindexes.insert r.strKey
        rw [List.length_map] at hindexes'
        rw [List.map_append, List.map_singleton]
        exact hindexes')
      rw [List.length_append, List.length_singleton] at hlast
      exact hlast

theorem full_entries (hlisted : L.isListed = true) : Full L (L.entries.map (·.element)) where
  sound := soundList_elements (inv_new L) hlisted
  mIndex := List.map_map
  mDesc := List.map_map

/-- `InitElemList` opens the list, or runs out of memory. -/
theorem initNames_spec (hlisted : L.isListed = true) (hinv : Named P L s) (env : NameEnv)
    (hne : L.mTotalCount ≠ 0) :
    (∃ s', initNames L.toArgs P.toPlatform env s = some (.NOERROR, s') ∧
        Opened P L s' (elements L.toArgs s.list)) ∨
      ¬ env.Grants L.toArgs ∧
        ∃ s', initNames L.toArgs P.toPlatform env s = some (.E_OUT_OF_MEMORY, s') := by
  rw [initNames, if_neg hne]
  rcases hinv with rfl | ⟨elems, hopened⟩
  swap
  · have hsome : s.list.mObjElement.isSome = true := by
      rw [hopened.1]
      rfl
    rw [if_pos hsome]
    refine Or.inl ⟨s, rfl, ?_⟩
    rw [elements, hopened.1]
    exact hopened
  rw [if_neg (by intro h; cases h)]
  by_cases hroom : env.alloc = false ∨ 2 ^ 32 ≤ sizeofObjElement * L.mTotalCount.toNat
  · rw [if_pos hroom]
    refine Or.inr ⟨fun hgrants => ?_, _, rfl⟩
    rcases hroom with halloc | hsize
    · rw [hgrants.1] at halloc
      cases halloc
    · exact absurd hgrants.2.1 (Nat.not_lt.mpr hsize)
  rw [if_neg hroom]
  dsimp only
  rw [if_neg (by rw [hlisted]; decide), (entries_spec hlisted).1]
  rcases fillNames_spec hlisted (Nat.not_le.mp (not_or.mp hroom).2) env.put [] L.entries rfl
    (roomy_new P) (inv_new_table P) indexes_nil with
    ⟨ec, elems, h', hrun, hec, hgranted, hall⟩
  rw [List.map_nil, List.nil_append, (entries_spec hlisted).2] at hrun
  have hrun' : fillNames L.toArgs P.toPlatform env.put L.entries 0
      (List.replicate L.mTotalCount.toNat ObjElement.zero) (NameState.new P.toPlatform).mHTIndexs =
        some (ec, elems, h') := hrun
  rw [Option.bind_eq_bind, Option.bind_some, hrun', Option.bind_eq_bind, Option.bind_some]
  rcases hec with rfl | rfl
  · rcases hall rfl with ⟨rfl, hmap⟩
    exact Or.inl ⟨_, rfl, rfl, full_entries hlisted, hmap⟩
  · exact Or.inr ⟨fun hgrants => ECode.noConfusion (hgranted hgrants.2.2), _, rfl⟩

/-! ### Positions -/

theorem high_iff (index : UInt32) : index &&& 0xFFFF0000 = 0 ↔ index.toNat < 2 ^ 16 := by
  have hlow : (index &&& 0xFFFF).toNat = index.toNat % 2 ^ 16 := by
    rw [UInt32.toNat_and]
    exact Nat.and_two_pow_sub_one_eq_mod _ 16
  constructor
  · intro h
    rw [low_of_high h] at hlow
    rw [hlow]
    exact Nat.mod_lt _ (by decide)
  · intro h
    have hself : index = index &&& 0xFFFF := by
      rw [← UInt32.toNat_inj, hlow, Nat.mod_eq_of_lt h]
    rw [hself, UInt32.and_assoc]
    exact UInt32.and_zero

theorem number_getElem {elems : List ObjElement} (hfull : Full L elems) (j : Nat) :
    (L.entries.map (·.element.mIndex))[j]? = (elems[j]?).map (·.mIndex) := by
  rw [← hfull.mIndex, List.getElem?_map]

/-- A position leads to itself when the search for it as a number ends there. -/
theorem leads_iff {elems : List ObjElement} (hfull : Full L elems) {k : Nat}
    (hk : k < L.mTotalCount.toNat) :
    Leads L.toArgs k ↔
      L.mType ≠ .CBMethod ∧ position L.toArgs elems (UInt32.ofNat k) = some k := by
  have hnumber : (UInt32.ofNat k).toNat = k :=
    toNat_ofNat_of_lt (Nat.lt_trans hk L.mTotalCount.toNat_lt)
  rw [Leads]
  -- only in a list of methods the index is more than a position
  by_cases hmethod : L.isMethodList = true
  swap
  · refine iff_of_true (fun h => absurd h hmethod) ⟨fun h => ?_, ?_⟩
    · exact hmethod (isMethodList_iff.mpr (Or.inr (Or.inr h)))
    · rw [position_plain hmethod, hnumber]
  simp only [hmethod, forall_const, number_getElem hfull]
  refine and_congr_right fun _ => ?_
  -- and only if its upper half is not zero
  by_cases hsmall : k < 2 ^ 16
  · have hzero : UInt32.ofNat k &&& 0xFFFF0000 = 0 := by
      rw [high_iff, hnumber]
      exact hsmall
    refine iff_of_true (fun h => absurd hsmall (Nat.not_lt.mpr h)) ?_
    rw [position, if_neg fun hand => hand.2 hzero, hnumber]
  · have hhigh : UInt32.ofNat k &&& 0xFFFF0000 ≠ 0 := by
      rw [ne_eq, high_iff, hnumber]
      exact hsmall
    have hne : ¬ (UInt32.ofNat k).toNat = L.mTotalCount.toNat := by
      rw [hnumber]
      omega
    rw [position, if_pos ⟨hmethod, hhigh⟩, forall_prop_of_true (Nat.not_lt.mp hsmall)]
    have hlength : k < elems.length := by
      rw [hfull.sound.1]
      exact hk
    -- then the first element with that number is the one
    constructor
    · rintro ⟨hself, hbefore⟩
      have hfind : elems.findIdx? (fun e => e.mIndex = UInt32.ofNat k) = some k := by
        rw [List.findIdx?_eq_some_iff_getElem]
        refine ⟨hlength, ?_, fun j hj => ?_⟩
        · rw [List.getElem?_eq_getElem hlength, Option.map_some, Option.some_inj] at hself
          exact decide_eq_true hself
        · have hj' := hbefore j hj
          rw [List.getElem?_eq_getElem (Nat.lt_trans hj hlength), Option.map_some, ne_eq,
            Option.some_inj] at hj'
          rw [decide_eq_true_eq]
          exact hj'
      rw [hfind]
    · intro hposition
      cases hfind : elems.findIdx? fun e => e.mIndex = UInt32.ofNat k with
      | none =>
        rw [hfind] at hposition
        dsimp only at hposition
        rw [if_pos hne] at hposition
        cases hposition
      | some i =>
        rw [hfind] at hposition
        dsimp only at hposition
        cases hposition
        rcases List.findIdx?_eq_some_iff_getElem.mp hfind with ⟨_, hself, hbefore⟩
        rw [List.getElem?_eq_getElem hlength, Option.map_some]
        refine ⟨congrArg some (of_decide_eq_true hself), fun j hj => ?_⟩
        rw [List.getElem?_eq_getElem (Nat.lt_trans hj hlength), Option.map_some, ne_eq,
          Option.some_inj]
        exact fun heq => hbefore j hj (decide_eq_true heq)

/-- No position leads behind the array. -/
theorem position_lt {elems : List ObjElement} (hfull : Full L elems) {k i : Nat}
    (hk : k < L.mTotalCount.toNat)
    (hposition : position L.toArgs elems (UInt32.ofNat k) = some i) : i < L.mTotalCount.toNat := by
  have hnumber : (UInt32.ofNat k).toNat = k :=
    toNat_ofNat_of_lt (Nat.lt_trans hk L.mTotalCount.toNat_lt)
  rw [position, hnumber] at hposition
  split at hposition
  · split at hposition
    · next hfind =>
      cases hposition
      rw [← hfull.sound.1]
      exact (List.findIdx?_eq_some_iff_getElem.mp hfind).1
    · rw [if_pos (Nat.ne_of_lt hk)] at hposition
      cases hposition
  · cases hposition
    exact hk

/-! ### Objects -/

/-- Every entry has an object, but that of a callback method. -/
theorem exists_request (hlisted : L.isListed = true) (hcb : L.mType ≠ .CBMethod) {i : Nat}
    {r : Entry} (hr : L.entries[i]? = some r) :
    ∃ o, request L.toArgs i r.element = some (.ok o) := by
  have hi : i < L.mTotalCount.toNat := by
    rw [← (entries_spec hlisted).2]
    exact (List.getElem?_eq_some_iff.mp hr).1
  rcases type_cases L.toArgs with h | ⟨hdir, -, -⟩ | h | h | h
  · exact absurd hlisted h
  · rcases request_dir hdir hi r.element with ⟨o, ho, -⟩
    exact ⟨o, ho⟩
  · rcases request_numbered h hr (sound_entry hr) with ⟨o, ho, -⟩
    exact ⟨o, ho⟩
  · have hmethod : L.isMethodList = true := by
      rw [isMethodList_iff]
      exact h.elim Or.inl fun h => Or.inr (Or.inl h)
    rcases Option.isSome_iff_exists.mp (method_mDesc hmethod (List.mem_of_getElem? hr)) with
      ⟨desc, hdesc⟩
    exact ⟨_, by rw [request_method h, hdesc, Option.elim_some]⟩
  · exact absurd h hcb

/-- An object is kept in a full list. -/
theorem Full.set {elems : List ObjElement} (hfull : Full L elems) {i : Nat} {e : ObjElement}
    {o : Obj} (he : elems[i]? = some e) (hcb : L.mType ≠ .CBMethod)
    (hrequest : request L.toArgs i e = some (.ok o)) (hobject : L.objectAt i = some o) :
    Full L (elems.set i { e with mObject := some o }) := by
  rcases List.getElem?_eq_some_iff.mp he with ⟨hi, rfl⟩
  have hself : ∀ {α : Type} (f : ObjElement → α) (e : ObjElement), f e = f elems[i] →
      (elems.set i e).map f = elems.map f := by
    intro α f e heq
    rw [List.map_set, heq]
    refine List.ext_getElem? fun k => ?_
    rw [List.getElem?_set]
    split
    · next hik =>
      subst hik
      rw [if_pos (by rw [List.length_map]; exact hi), List.getElem?_map,
        List.getElem?_eq_getElem hi, Option.map_some]
    · rfl
  constructor
  · exact hfull.sound.set he hcb hrequest hobject
  · rw [hself _ { elems[i] with mObject := some o } rfl, hfull.mIndex]
  · rw [hself _ { elems[i] with mObject := some o } rfl, hfull.mDesc]

/-- The end of a call that reaches an entry. -/
theorem acquireAt_full (hlisted : L.isListed = true) (hcb : L.mType ≠ .CBMethod)
    {elems : List ObjElement} (hfull : Full L elems) {i : Nat} (hi : i < L.mTotalCount.toNat)
    (acquired : ECode) :
    ∃ (o : Obj) (e : ObjElement), L.objectAt i = some o ∧ elems[i]? = some e ∧
      acquireAt L.toArgs acquired elems i =
        (if e.mObject.isSome = true ∨ acquired = .NOERROR then
          some (.ok o, elems.set i { e with mObject := some o })
        else some (.error acquired, elems)) ∧
      Full L (elems.set i { e with mObject := some o }) := by
  rcases exists_entry hlisted hi with ⟨r, hr⟩
  rcases exists_request hlisted hcb hr with ⟨o, ho⟩
  have hlength : i < elems.length := by
    rw [hfull.sound.1]
    exact hi
  have he := List.getElem?_eq_getElem hlength
  generalize elems[i] = e at he
  have hindex := congrArg (fun l => l[i]?) hfull.mIndex
  have hdesc := congrArg (fun l => l[i]?) hfull.mDesc
  simp only [List.getElem?_map, he, hr, Option.map_some, Option.some_inj] at hindex hdesc
  have hrequest : request L.toArgs i e = some (.ok o) := (request_congr i hindex hdesc).trans ho
  have hobject : L.objectAt i = some o := (objectAt_eq_some_iff hr o).mpr ho
  exact ⟨o, e, hobject, he, acquireAt_ok hlisted hcb acquired he hrequest (hfull.sound.2 i e he),
    hfull.set he hcb hrequest hobject⟩

/-- `AcquireObjByIndex` at a position of a full list. -/
theorem acquireObjByIndex_full {elems : List ObjElement} (hfull : Full L elems) {k : Nat}
    (hk : k < L.mTotalCount.toNat) (env : Env) :
    acquireObjByIndex L.toArgs env ⟨some elems⟩ (UInt32.ofNat k) =
      match position L.toArgs elems (UInt32.ofNat k) with
      | none => some (.error .E_INVALID_ARGUMENT, ⟨some elems⟩)
      | some i => (acquireAt L.toArgs env.acquired elems i).map fun r => (r.1, ⟨some r.2⟩) := by
  have hnumber : (UInt32.ofNat k).toNat = k :=
    toNat_ofNat_of_lt (Nat.lt_trans hk L.mTotalCount.toNat_lt)
  have hreached : Reached L.toArgs ⟨some elems⟩ ⟨env, UInt32.ofNat k⟩ := by
    refine ⟨?_, Or.inl rfl⟩
    rw [UInt32.lt_iff_toNat_lt, UInt32.toNat_and, hnumber]
    exact Nat.lt_of_le_of_lt Nat.and_le_left hk
  rcases acquireObjByIndex_reached (inv_some hfull.sound) hreached with ⟨s', hs', -, hrun⟩
  cases s'
  cases hs'
  exact hrun

/-! ### The name -/

theorem byName_none {elems : List ObjElement} {env : NameEnv}
    {name : CStr} {s' : NameState}
    (hinit : initNames L.toArgs P.toPlatform env s = some (.NOERROR, s'))
    (hopened : Opened P L s' elems) (hno : name ∉ L.entries.map (·.strKey)) :
    acquireObjByName L.toArgs P.toPlatform env s name = some (.error .E_DOES_NOT_EXIST, s') := by
  rcases hopened with ⟨-, -, m, hinv, hindexes⟩
  have hget := hinv.refines.get name.bytes name.noNul
  have hnone : m.lookup name.bytes = none := by
    cases hlookup : m.lookup name.bytes with
    | none => rfl
    | some v =>
      rcases (hindexes name v).mp hlookup with ⟨k, -, hlast⟩
      exact absurd (List.mem_of_getElem? hlast.1) hno
  rw [acquireObjByName, hinit, Option.bind_eq_bind, Option.bind_some]
  dsimp only
  rw [if_neg (not_not.mpr rfl), hget, hnone]
  rfl

/-- The last entry with the key is asked for. -/
theorem byName_last {elems : List ObjElement} {env : NameEnv} {name : CStr} {s' : NameState}
    (hinit : initNames L.toArgs P.toPlatform env s = some (.NOERROR, s'))
    (hopened : Opened P L s' elems) {k : Nat} (hlast : Last (L.entries.map (·.strKey)) name k) :
    acquireObjByName L.toArgs P.toPlatform env s name =
      (acquireObjByIndex L.toArgs ⟨env.alloc, fun _ => true, env.acquired⟩ ⟨some elems⟩
        (UInt32.ofNat k)).map fun r => (r.1, { s' with list := r.2 }) := by
  rcases hopened with ⟨hlist, -, m, hinv, hindexes⟩
  have hget := hinv.refines.get name.bytes name.noNul
  have hlookup : m.lookup name.bytes = some (UInt32.ofNat k) :=
    (hindexes name _).mpr ⟨k, rfl, hlast⟩
  rw [acquireObjByName, hinit, Option.bind_eq_bind, Option.bind_some]
  dsimp only
  rw [if_neg (not_not.mpr rfl), hget, hlookup, Option.bind_eq_bind, Option.bind_some, hlist]
  dsimp only
  generalize acquireObjByIndex L.toArgs ⟨env.alloc, fun _ => true, env.acquired⟩ ⟨some elems⟩
    (UInt32.ofNat k) = r
  cases r <;> rfl

theorem last_lt (hlisted : L.isListed = true) {name : CStr} {k : Nat}
    (hlast : Last (L.entries.map (·.strKey)) name k) : k < L.mTotalCount.toNat := by
  have hlt := (List.getElem?_eq_some_iff.mp hlast.1).1
  rw [List.length_map, (entries_spec hlisted).2] at hlt
  exact hlt

/-- What a name that is a key gives: the object of an entry, or what `CObjInfoList` says, or
that the position is refused, or nothing that is defined. -/
theorem byName_cases (hlisted : L.isListed = true) {elems : List ObjElement} {env : NameEnv}
    {name : CStr} {s' : NameState}
    (hinit : initNames L.toArgs P.toPlatform env s = some (.NOERROR, s'))
    (hopened : Opened P L s' elems) {k : Nat} (hlast : Last (L.entries.map (·.strKey)) name k) :
    (position L.toArgs elems (UInt32.ofNat k) = none ∧
        acquireObjByName L.toArgs P.toPlatform env s name =
          some (.error .E_INVALID_ARGUMENT, s')) ∨
      (L.mType = .CBMethod ∧ acquireObjByName L.toArgs P.toPlatform env s name = none) ∨
      ∃ (i : Nat) (o : Obj) (e : ObjElement),
        position L.toArgs elems (UInt32.ofNat k) = some i ∧ i < L.mTotalCount.toNat ∧
          L.mType ≠ .CBMethod ∧ L.objectAt i = some o ∧ elems[i]? = some e ∧
          (if e.mObject.isSome = true ∨ env.acquired = .NOERROR then
            ∃ elems', acquireObjByName L.toArgs P.toPlatform env s name =
                some (.ok o, { s' with list := ⟨some elems'⟩ }) ∧
              Opened P L { s' with list := ⟨some elems'⟩ } elems'
          else acquireObjByName L.toArgs P.toPlatform env s name =
            some (.error env.acquired, s')) := by
  have hk := last_lt hlisted hlast
  have hself : ({ s' with list := ⟨some elems⟩ } : NameState) = s' := by
    rw [← hopened.1]
  have hrun := byName_last hinit hopened hlast
  rw [acquireObjByIndex_full hopened.2.1 hk] at hrun
  -- the index is taken for a position, or for the number of a method
  cases hposition : position L.toArgs elems (UInt32.ofNat k) with
  | none =>
    rw [hposition] at hrun
    refine Or.inl ⟨rfl, ?_⟩
    rw [hrun, Option.map_some, hself]
  | some i =>
    rw [hposition] at hrun
    dsimp only at hrun
    have hi := position_lt hopened.2.1 hk hposition
    by_cases hcb : L.mType = .CBMethod
    · rw [acquireAt_callback hcb _ hopened.2.1.sound] at hrun
      exact Or.inr (Or.inl ⟨hcb, hrun⟩)
    rcases acquireAt_full hlisted hcb hopened.2.1 hi env.acquired with
      ⟨o, e, hobject, he, hat, hset⟩
    rw [hat] at hrun
    refine Or.inr (Or.inr ⟨i, o, e, rfl, hi, hcb, hobject, he, ?_⟩)
    split
    · next hgiven =>
      rw [if_pos hgiven] at hrun
      exact ⟨_, hrun, rfl, hset, hopened.2.2⟩
    · next hgiven =>
      rw [if_neg hgiven] at hrun
      rw [hrun, Option.map_some, Option.map_some, hself]

/-- The entry `k` has the name, and the call finds it. -/
def Found (L : Args) (elems : List ObjElement) (c : NameCall) (k : Nat) : Prop :=
  (∀ d, L.dirOf k = some d → L.KeyRight d) ∧
    (∀ j, k < j → (L.entries.map (·.strKey))[j]? ≠ some c.name) ∧ Leads L k ∧
      (c.env.acquired = .NOERROR ∨ ∃ e : ObjElement,
        elems[k]? = some e ∧ e.mObject.isSome = true)

/-- A call with the name of an entry. -/
theorem entry_iff (hlisted : L.isListed = true)
    (hdistinct : ∀ (j k : Nat) (name : CStr), L.fullNameAt j = some name →
      L.fullNameAt k = some name → j = k)
    {elems : List ObjElement} {c : NameCall} {s' : NameState}
    (hinit : initNames L.toArgs P.toPlatform c.env s = some (.NOERROR, s'))
    (hopened : Opened P L s' elems) {k : Nat} (hname : L.fullNameAt k = some c.name) :
    ((∃ o s'', acquireObjByName L.toArgs P.toPlatform c.env s c.name = some (.ok o, s'') ∧
        L.objectAt k = some o) ↔ Found L.toArgs elems c k) ∧
      (Found L.toArgs elems c k → ∃ s'' elems', Opened P L s'' elems' ∧
        ∃ o, acquireObjByName L.toArgs P.toPlatform c.env s c.name = some (.ok o, s'')) := by
  have hk : k < L.mTotalCount.toNat := by
    rcases lt_of_fullNameAt hlisted hname with ⟨r, hr, hlt⟩
    exact hlt
  have hfound : Found L.toArgs elems c k → ∃ (o : Obj) (elems' : List ObjElement),
      acquireObjByName L.toArgs P.toPlatform c.env s c.name =
          some (.ok o, { s' with list := ⟨some elems'⟩ }) ∧
        L.objectAt k = some o ∧ Opened P L { s' with list := ⟨some elems'⟩ } elems' := by
    rintro ⟨hright, hlater, hleads, hacquired⟩
    have hlast : Last (L.entries.map (·.strKey)) c.name k :=
      ⟨(strKey_eq_fullName_iff hlisted hname).mpr hright, hlater⟩
    rcases (leads_iff hopened.2.1 hk).mp hleads with ⟨hcb, hposition⟩
    rcases byName_cases hlisted hinit hopened hlast with
      ⟨hnone, -⟩ | ⟨hcb', -⟩ | ⟨i, o, e, hi, -, -, hobject, he, hrun⟩
    · rw [hposition] at hnone
      cases hnone
    · exact absurd hcb' hcb
    · rw [hposition, Option.some_inj] at hi
      subst hi
      have hgiven : e.mObject.isSome = true ∨ c.env.acquired = .NOERROR := by
        rcases hacquired with hok | ⟨e', he', hsome⟩
        · exact Or.inr hok
        · rw [he, Option.some_inj] at he'
          exact Or.inl (he' ▸ hsome)
      rw [if_pos hgiven] at hrun
      rcases hrun with ⟨elems', hrun, hopened'⟩
      exact ⟨o, elems', hrun, hobject, hopened'⟩
  refine ⟨⟨?_, fun h => ?_⟩, fun h => ?_⟩
  · rintro ⟨o, s'', hrun, hobject⟩
    have hmem : c.name ∈ L.entries.map (·.strKey) := by
      by_contra hno
      rw [byName_none hinit hopened hno] at hrun
      cases hrun
    rcases exists_last hmem with ⟨last, hlast⟩
    rcases byName_cases hlisted hinit hopened hlast with
      ⟨-, hrun'⟩ | ⟨-, hrun'⟩ | ⟨i, o', e, hposition, hi, hcb, hobject', he, hrun'⟩
    · rw [hrun] at hrun'
      cases hrun'
    · rw [hrun] at hrun'
      cases hrun'
    split at hrun'
    swap
    · rw [hrun] at hrun'
      cases hrun'
    next hgiven =>
      rcases hrun' with ⟨elems', hrun', -⟩
      rw [hrun] at hrun'
      cases hrun'
      -- the object is the one of the entry `i`, so that `i` is `k`
      have hik : i = k := by
        have hsame := fullNameAt_of_objectAt hlisted hcb hi hk hobject' hobject
        rw [hname] at hsame
        exact hdistinct i k c.name hsame hname
      subst hik
      have hlastk : last = i := by
        by_cases hmethod : L.isMethodList = true
        · refine hdistinct last i c.name ?_ hname
          have hkey := hlast.1
          rw [List.getElem?_map] at hkey
          rw [Args.fullNameAt, if_pos hmethod]
          exact hkey
        · rw [position_plain hmethod, Option.some_inj,
            toNat_ofNat_of_lt (Nat.lt_trans (last_lt hlisted hlast) L.mTotalCount.toNat_lt)]
            at hposition
          exact hposition
      subst hlastk
      refine ⟨(strKey_eq_fullName_iff hlisted hname).mp hlast.1, hlast.2,
        (leads_iff hopened.2.1 hk).mpr ⟨hcb, hposition⟩, ?_⟩
      rcases hgiven with hsome | hok
      · exact Or.inr ⟨e, he, hsome⟩
      · exact Or.inl hok
  · rcases hfound h with ⟨o, elems', hrun, hobject, -⟩
    exact ⟨o, _, hrun, hobject⟩
  · rcases hfound h with ⟨o, elems', hrun, -, hopened'⟩
    exact ⟨_, elems', hopened', o, hrun⟩

/-- A call with a name that no entry has. -/
theorem no_entry_iff (hlisted : L.isListed = true) {elems : List ObjElement} {c : NameCall}
    {s' : NameState}
    (hinit : initNames L.toArgs P.toPlatform c.env s = some (.NOERROR, s'))
    (hopened : Opened P L s' elems) :
    (∃ s'', acquireObjByName L.toArgs P.toPlatform c.env s c.name =
        some (.error .E_DOES_NOT_EXIST, s'')) ↔ c.name ∉ L.entries.map (·.strKey) := by
  constructor
  · rintro ⟨s'', hrun⟩ hmem
    rcases exists_last hmem with ⟨last, hlast⟩
    rcases byName_cases hlisted hinit hopened hlast with
      ⟨-, hrun'⟩ | ⟨-, hrun'⟩ | ⟨i, o, e, -, -, -, -, -, hrun'⟩
    · rw [hrun] at hrun'
      cases hrun'
    · rw [hrun] at hrun'
      cases hrun'
    · split at hrun'
      · rcases hrun' with ⟨elems', hrun', -⟩
        rw [hrun] at hrun'
        cases hrun'
      · rw [hrun, Option.some_inj, Prod.mk.injEq, Except.error.injEq] at hrun'
        exact c.env.answer hrun'.1.symm
  · exact fun hno => ⟨s', byName_none hinit hopened hno⟩

/-- Where memory is granted, only the names decide whether a call is careful. -/
theorem nameCareful_of_grants (hlisted : L.isListed = true) (hinv : Named P L s) {c : NameCall}
    (hgrants : c.env.Grants L.toArgs) :
    NameCareful P.toPlatform L.toArgs s c ↔ (L.mTotalCount ≠ 0 →
      (∀ k, L.fullNameAt k = some c.name →
        (∀ d, L.dirOf k = some d → L.KeyRight d) ∧
          (∀ j, k < j → (L.entries.map (·.strKey))[j]? ≠ some c.name) ∧ Leads L.toArgs k ∧
            (c.env.acquired = .NOERROR ∨ ∃ e : ObjElement,
              (elements L.toArgs s.list)[k]? = some e ∧ e.mObject.isSome = true)) ∧
        ((∀ k, L.fullNameAt k ≠ some c.name) → c.name ∉ L.entries.map (·.strKey))) := by
  refine forall_congr' fun hne => and_iff_right ?_
  rcases initNames_spec hlisted hinv c.env hne with ⟨s', hinit, -⟩ | ⟨hno, -⟩
  · exact ⟨s', hinit⟩
  · exact absurd hgrants hno

/-- Without entries, there is no name. -/
theorem answers_of_zero (hlisted : L.isListed = true) (hzero : L.mTotalCount = 0) (c : NameCall) :
    NameAnswers P.toPlatform L.toArgs s c ∧
      (byName L.toArgs P.toPlatform).step s c = s := by
  have hrun : acquireObjByName L.toArgs P.toPlatform c.env s c.name =
      some (.error .E_DOES_NOT_EXIST, s) := by
    rw [acquireObjByName, initNames, if_pos hzero]
    rfl
  refine ⟨⟨fun k hk => ?_, fun _ => ⟨s, hrun⟩⟩, ?_⟩
  · rcases lt_of_fullNameAt hlisted hk with ⟨r, hr, hlt⟩
    rw [hzero] at hlt
    exact absurd hlt (Nat.not_lt_zero k)
  · simp only [byName, hrun, Option.map_some, Option.getD_some]

end Names

/-- One call answers as it should exactly when it is careful, and keeps the list then. -/
theorem name_call_iff {P : LoadPlatform} {L : NameList} {s : NameState} {c : NameCall}
    (hinv : Named P L.toCEntryList s) :
    (NameAnswers P.toPlatform L.toArgs s c ↔ NameCareful P.toPlatform L.toArgs s c) ∧
      (NameCareful P.toPlatform L.toArgs s c →
        Named P L.toCEntryList ((byName L.toArgs P.toPlatform).step s c)) := by
  -- an empty list says of every name that it does not exist
  by_cases hzero : L.mTotalCount = 0
  · rcases answers_of_zero (P := P) (s := s) L.listed hzero c with ⟨hanswers, hstep⟩
    refine ⟨iff_of_true hanswers fun hne => absurd hzero hne, fun _ => ?_⟩
    rw [hstep]
    exact hinv
  -- the call opens the list, or ends before it looks the name up
  rcases initNames_spec L.listed hinv c.env hzero with ⟨s', hinit, hopened⟩ | ⟨-, s', hinit⟩
  swap
  · -- without memory no name is answered for
    have hrun : acquireObjByName L.toArgs P.toPlatform c.env s c.name =
        some (.error .E_OUT_OF_MEMORY, s') := by
      rw [acquireObjByName, hinit]
      rfl
    have hbad : ¬ NameCareful P.toPlatform L.toArgs s c := by
      intro h
      rcases (h hzero).1 with ⟨s'', hinit'⟩
      rw [hinit] at hinit'
      cases hinit'
    refine ⟨iff_of_false ?_ hbad, fun h => absurd h hbad⟩
    rintro ⟨hentry, hnone⟩
    by_cases hname : ∃ k, L.fullNameAt k = some c.name
    · rcases hname with ⟨k, hk⟩
      rcases hentry k hk with ⟨o, s'', hrun', -⟩
      rw [hrun] at hrun'
      cases hrun'
    · rcases hnone (not_exists.mp hname) with ⟨s'', hrun'⟩
      rw [hrun] at hrun'
      cases hrun'
  have hcareful : NameCareful P.toPlatform L.toArgs s c ↔
      (∀ k, L.fullNameAt k = some c.name →
        Found L.toArgs (elements L.toArgs s.list) c k) ∧
        ((∀ k, L.fullNameAt k ≠ some c.name) → c.name ∉ L.entries.map (·.strKey)) := by
    rw [NameCareful, forall_prop_of_true hzero]
    exact ⟨fun h => h.2, fun h => ⟨⟨s', hinit⟩, h⟩⟩
  rw [hcareful, NameAnswers]
  constructor
  · refine and_congr (forall_congr' fun k => forall_congr' fun hk => ?_)
      (forall_congr' fun _ => ?_)
    · exact (entry_iff L.listed L.distinct hinit hopened hk).1
    · exact no_entry_iff L.listed hinit hopened
  · rintro ⟨hentry, hnone⟩
    by_cases hname : ∃ k, L.fullNameAt k = some c.name
    · rcases hname with ⟨k, hk⟩
      rcases (entry_iff L.listed L.distinct hinit hopened hk).2 (hentry k hk) with
        ⟨s'', elems', hopened', o, hrun⟩
      simp only [byName, hrun, Option.map_some, Option.getD_some]
      exact Or.inr ⟨elems', hopened'⟩
    · have hrun := byName_none hinit hopened (hnone (not_exists.mp hname))
      simp only [byName, hrun, Option.map_some, Option.getD_some]
      exact Or.inr ⟨_, hopened⟩

/-- In every run of calls on a list that was just made, each call answers for its name
exactly as long as each is careful; and the three places that build a name agree on it,
exactly if there is no namespace that is empty. -/
theorem name_lookup_iff (P : LoadPlatform) (L : NameList) (calls : List NameCall) :
    ((byName L.toArgs P.toPlatform).AllSteps (NameAnswers P.toPlatform L.toArgs)
        (NameState.new P.toPlatform) calls ↔
      (byName L.toArgs P.toPlatform).AllSteps (NameCareful P.toPlatform L.toArgs)
        (NameState.new P.toPlatform) calls) ∧
      ∀ d : DirEntry,
        constructorKey d = fullName d.mNameSpace (d.mName ++
          ⟨[67, 108, 97, 115, 115, 79, 98, 106, 101, 99, 116], by decide⟩) ∧
        interfaceKey d.mNameSpace d.mName = fullName d.mNameSpace d.mName ∧
        (dirKey d.mNameSpace d.mName = fullName d.mNameSpace d.mName ↔
          ∀ ns, d.mNameSpace = some ns → ns.bytes ≠ []) := by
  constructor
  · exact (byName L.toArgs P.toPlatform).allSteps_iff_of_invariant (I := Named P L.toCEntryList)
      (fun _ _ hinv hcareful => (name_call_iff hinv).2 hcareful)
      (fun _ _ hinv => (name_call_iff hinv).1) (Or.inl rfl) calls
  · exact fun d => ⟨constructorKey_eq d, interfaceKey_eq _ _, dirKey_eq_iff _ _⟩

/-! ## An empty namespace -/

/-- The load factor, with a shift. -/
def shifted : LoadPlatform where
  char := UInt8.toUInt32
  threshold := fun capacity => capacity * 3 / 4
  load := fun c _ _ => by omega

/-- A module with the class `X` in the namespace `""`. -/
def emptyNamespace : NameList where
  mType := .Class
  mTotalCount := 1
  mClsMod :=
    { mClassDirs := [⟨⟨[88], by decide⟩, some ⟨[], by decide⟩⟩]
      mInterfaceDirs := []
      mStructDirs := []
      mEnumDirs := []
      mAliasDirs := []
      mConstDirs := []
      interfaceDesc := fun _ => [] }
  mDesc := ⟨[], []⟩
  mIFList := []
  mCBMethodDesc := []
  counted := rfl
  listed := rfl
  distinct := by
    intro j k name hj hk
    cases j with
    | succ j => cases hj
    | zero =>
      cases k with
      | succ k => cases hk
      | zero => rfl

/-- Its key is `".X"`, and the name `"X"` is not found. -/
theorem empty_namespace_hides :
    ¬ ∀ (P : LoadPlatform) (L : NameList) (calls : List NameCall),
      (byName L.toArgs P.toPlatform).AllSteps (NameAnswers P.toPlatform L.toArgs)
        (NameState.new P.toPlatform) calls := by
  intro h
  let env : NameEnv := ⟨true, fun _ => ⟨true, true, true⟩, .NOERROR, by decide⟩
  rcases (h shifted emptyNamespace [⟨env, ⟨[88], by decide⟩⟩]).1.1 0 rfl with ⟨o, s', hrun, -⟩
  have hnone : (acquireObjByName emptyNamespace.toArgs shifted.toPlatform env
      (NameState.new shifted.toPlatform) ⟨[88], by decide⟩).any (·.1.isOk) = false := by decide
  rw [hrun] at hnone
  cases hnone

end SuperExe.Reflection.Entries
