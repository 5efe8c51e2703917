import SuperExe.Elastos.LastIndexOf
import SuperExe.Lib.Interning
import SuperExe.Lib.Trace
import SuperExe.Reflection.InfoList
import SuperExe.Reflection.StructInfo

/-! # Dynamic types

`AcquireDynamicStructInfo` and `AcquireDynamicEnumInfo` (`reflection/CObjInfoList.cpp`) make
types from what the caller gives, and keep them in lists, so that the same type is the same
object. The name of an enumeration is split at its last dot, with the same mistake in both
places: `Substring` ends before its second index, and the character before the dot is lost.
The items of anonymous enumerations are compared, but only their number counts
(`dynamic_types_iff`).
-/

namespace SuperExe.Reflection.DynamicTypes

open SuperExe.Core SuperExe.Lib SuperExe.Lib.Interning SuperExe.Elastos
open InfoList (Text CObjInfoList CEnumInfo CStructInfo Object Info Place Head)
open InfoList (Call lockHashTable unlockHashTable alloc allocMany create addRef addInfoNode
  setObject release)
open InfoList.ECode (E_INVALID_ARGUMENT E_OUT_OF_MEMORY E_DATAINFO_EXIST)
open StructInfo (Build adjuctElemOffset)
open TypeInfo (CarDataType)
open SuperExe.Lib.Action (gets modify stuck)

/-! ## Names -/

/-- The index of the last `c`, or -1. -/
def lastIndexOf (c : Char) : Text → Int
  | [] => -1
  | d :: rest =>
    if 0 ≤ lastIndexOf c rest then lastIndexOf c rest + 1 else if d = c then 0 else -1

/-- The name and the namespace in a full name, as `AcquireDynamicEnumInfo` and
`CEnumInfo::InitDynamic` take it apart. -/
def splitFullName (fullName : Text) : Text × Text :=
  let index := lastIndexOf '.' fullName
  (if index > 0 then slice fullName (index + 1) fullName.length else fullName,
    if index > 0 then slice fullName 0 (index - 1) else [])

/-- The full name of an enumeration. -/
def fullNameOf (info : CEnumInfo) : Text :=
  if info.mNamespace = [] then info.mName else info.mNamespace ++ '.' :: info.mName

/-- `LastIndexOf(".")` of `AcquireDynamicEnumInfo` -/
def indexByString (fullName : ElString) : Option Int :=
  (ElString.Pattern.string (ElString.ofCstr enoughMemory (some (bytes ".")))).lastIndexOf id
    false fullName fullName.getLength.1

/-- `LastIndexOf('.')` of `InitDynamic` -/
def indexByChar (fullName : ElString) : Option Int :=
  (ElString.Pattern.char '.'.val).lastIndexOf id false fullName fullName.getLength.1

/-- What both make of the index: the name and the namespace. -/
def splitAt (fullName : ElString) (index : Int) : ElString × ElString :=
  (if index > 0 then
      (fullName.substring enoughMemory (index + 1) fullName.getLength.1).1
    else fullName,
    if index > 0 then (fullName.substring enoughMemory 0 (index - 1)).1
    else ElString.ofCstr enoughMemory (some []))

/-! ## Structs -/

/-- What an `IDataTypeInfo` answers to `GetDataType`, to `GetSize`, which can fail, and to
`GetMaxAlignSize`. -/
structure FieldType where
  dataType : CarDataType
  size : Option Int
  maxAlignSize : Int

/-- The types whose alignment is asked for. -/
def FieldType.hasMaxAlign (t : FieldType) : Bool :=
  t.dataType == .struct || t.dataType == .arrayOf || t.dataType == .cppVector

/-- The build, the types at all addresses, and what is in `elemtSize` before the first
field. -/
structure World where
  build : Build
  types : Nat → FieldType
  elemtSize : Int

/-- One field in the loop of `GetMaxAlignSize`, with `size` and `align`. -/
def alignStep (acc : Int × Int) (t : FieldType) : Int × Int :=
  let size := if t.hasMaxAlign then t.maxAlignSize else t.size.getD acc.1
  (size, if size > acc.2 then size else acc.2)

/-- `CStructInfo::GetMaxAlignSize` -/
def getMaxAlignSize (b : Build) (types : List FieldType) : Int :=
  let align := (types.foldl alignStep (0, 1)).2
  if align > b.alignBound then b.alignBound else align

/-- The loop of `InitFieldElement`. A `GetSize` that fails leaves `elemtSize` as it is. -/
def initFields (align : Int) : Int → UInt32 → List (Option Text × FieldType) →
    Option (List InfoList.StructFieldDesc × UInt32)
  | _, offset, [] => some ([], offset)
  | elemtSize, offset, (name, t) :: rest => do
    let elemtSize := t.size.getD elemtSize
    let elemtAlign := if t.hasMaxAlign then t.maxAlignSize else align
    let mSize := UInt32.ofInt elemtSize
    let pos ← adjuctElemOffset offset mSize (UInt32.ofInt elemtAlign)
    let (descs, stop) ← initFields align elemtSize (pos + mSize) rest
    some ({ mType := t.dataType, mSize := mSize, mPos := pos, mName := name } :: descs, stop)

/-- `InitFieldElement` without its allocation; no result where it divides by zero. -/
def initFieldElement (W : World) (fields : List (Option Text × Nat)) :
    Option (List InfoList.StructFieldDesc × UInt32) := do
  let fields := fields.map fun field => (field.1, W.types field.2)
  let align := getMaxAlignSize W.build (fields.map Prod.snd)
  let (descs, offset) ← initFields align W.elemtSize 0 fields
  let mSize ← adjuctElemOffset offset (UInt32.ofInt align) (UInt32.ofInt align)
  some (descs, mSize)

/-- `InitItemInfos` and `InitFieldInfos`: whether the array is there at the end. When one of
its elements cannot be made, the array is given up, and yet there is no error. -/
def initInfos (count : Nat) : Call (Except InfoList.ECode Bool) := do
  if ← alloc then
    let all ← allocMany count
    pure (.ok all)
  else pure (.error E_OUT_OF_MEMORY)

/-- `CStructInfo::InitDynamic` -/
def initDynamicStruct (W : World) (name : Text) (fields : List (Option Text × Nat)) :
    Call (Except InfoList.ECode CStructInfo) := do
  if ← alloc then
    match initFieldElement W fields with
    | none => stuck
    | some (descs, mSize) =>
      match ← initInfos fields.length with
      | .error ec => pure (.error ec)
      | .ok hasFieldInfos =>
        pure (.ok
          { mName := name
            fields := fields
            mStructFieldDesc := descs
            mSize := mSize
            hasFieldInfos := hasFieldInfos })
  else pure (.error E_OUT_OF_MEMORY)

/-- The dynamic struct that an object is. -/
def structOf : Option Object → Option CStructInfo
  | some ⟨_, _, _, _, .dynamicStruct info⟩ => some info
  | _ => none

/-- A dynamic struct as an object. The references it holds to the types of its fields are left
out: `World.types` answers for these at any time. -/
def structObject (info : CStructInfo) (mRef : Nat) : Object where
  type := some .Struct
  mRef := mRef
  place := .list .mStructInfoHead
  members := []
  info := .dynamicStruct info

/-- The walk over the structs: the fields of the first one of the name decide. -/
def findStruct (objects : Nat → Option Object) (name : Text) (fields : List (Option Text × Nat)) :
    List Nat → Option (Except InfoList.ECode Nat)
  | [] => none
  | node :: rest =>
    match structOf (objects node) with
    | none => findStruct objects name fields rest
    | some info =>
      if name = info.mName then
        if info.fields.length ≠ fields.length then some (.error E_DATAINFO_EXIST)
        else if fields ≠ info.fields then some (.error E_DATAINFO_EXIST)
        else some (.ok node)
      else findStruct objects name fields rest

/-- What follows the walk over the structs. -/
def makeStruct (W : World) (name : Text) (fields : List (Option Text × Nat)) :
    Call (Except InfoList.ECode Nat) := do
  if ← alloc then
    let o ← create (structObject ⟨[], [], [], 0, false⟩ 1)
    match ← initDynamicStruct W name fields with
    | .error ec =>
      unlockHashTable .Struct
      release 1 o
      pure (.error ec)
    | .ok info =>
      setObject o (some (structObject info 1))
      if ← addInfoNode o .mStructInfoHead then
        unlockHashTable .Struct
        pure (.ok o)
      else
        unlockHashTable .Struct
        release 1 o
        pure (.error E_OUT_OF_MEMORY)
  else
    unlockHashTable .Struct
    pure (.error E_OUT_OF_MEMORY)

/-- `AcquireDynamicStructInfo`; `none` is a null pointer, and `structInfo` says whether
there is a place for the result. -/
def acquireDynamicStructInfo (W : World) (name : Option Text)
    (fieldNames : Option (List (Option Text))) (fieldTypeInfos : Option (List Nat))
    (structInfo : Bool) : Call (Except InfoList.ECode Nat) :=
  match name, fieldNames, fieldTypeInfos with
  | some name, some fieldNames, some fieldTypeInfos =>
    if name = [] ∨ structInfo = false ∨ fieldNames.length ≠ fieldTypeInfos.length then
      pure (.error E_INVALID_ARGUMENT)
    else do
      let head ← gets fun s => s.heads .mStructInfoHead
      lockHashTable .Struct
      let objects ← gets fun s => s.objects
      match findStruct objects name (fieldNames.zip fieldTypeInfos) head with
      | some (.error ec) =>
        unlockHashTable .Struct
        pure (.error ec)
      | some (.ok o) =>
        addRef o
        unlockHashTable .Struct
        pure (.ok o)
      | none => makeStruct W name (fieldNames.zip fieldTypeInfos)
  | _, _, _ => pure (.error E_INVALID_ARGUMENT)

/-! ## Enumerations -/

/-- `CEnumInfo::InitDynamic` -/
def initDynamicEnum (fullName : Text) (items : List (Option Text × Int)) :
    Call (Except InfoList.ECode CEnumInfo) := do
  match ← initInfos items.length with
  | .error ec => pure (.error ec)
  | .ok hasItemInfos =>
    pure (.ok
      { mName := (splitFullName fullName).1
        mNamespace := (splitFullName fullName).2
        items := items
        hasItemInfos := hasItemInfos })

/-- The dynamic enumeration that an object is. -/
def enumOf : Option Object → Option CEnumInfo
  | some ⟨_, _, _, _, .dynamicEnum info⟩ => some info
  | _ => none

/-- A dynamic enumeration as an object; its items are no objects. -/
def enumObject (info : CEnumInfo) (mRef : Nat) : Object where
  type := some .Enum
  mRef := mRef
  place := .list .mEnumInfoHead
  members := []
  info := .dynamicEnum info

/-- The loop over the items of two enumerations, which for an anonymous one goes on with
the next item: whether it gets to its end. -/
def itemsLoop (anonymous : Bool) :
    List (Option Text × Int) → List (Option Text × Int) → Bool
  | (itemName, itemValue) :: rest, (_itemName, _itemValue) :: rest' =>
    if itemName ≠ _itemName then
      if !anonymous then false else itemsLoop anonymous rest rest'
    else if itemValue ≠ _itemValue then
      if !anonymous then false else itemsLoop anonymous rest rest'
    else itemsLoop anonymous rest rest'
  | _, _ => true

/-- The walk over the enumerations. -/
def findEnum (objects : Nat → Option Object) (fullName : Text) (items : List (Option Text × Int)) :
    List Nat → Option (Except InfoList.ECode Nat)
  | [] => none
  | node :: rest =>
    match enumOf (objects node) with
    | none => findEnum objects fullName items rest
    | some info =>
      let name := (splitFullName fullName).1
      let nameSpace := (splitFullName fullName).2
      if name = info.mName ∧ nameSpace = info.mNamespace then
        if info.items.length ≠ items.length then
          if !name.isEmpty then some (.error E_DATAINFO_EXIST)
          else findEnum objects fullName items rest
        else if itemsLoop name.isEmpty items info.items then some (.ok node)
        else some (.error E_DATAINFO_EXIST)
      else findEnum objects fullName items rest

/-- What follows the walk over the enumerations. -/
def makeEnum (fullName : Text) (items : List (Option Text × Int)) :
    Call (Except InfoList.ECode Nat) := do
  if ← alloc then
    let o ← create (enumObject ⟨[], [], [], false⟩ 1)
    match ← initDynamicEnum fullName items with
    | .error ec =>
      unlockHashTable .Enum
      release 1 o
      pure (.error ec)
    | .ok info =>
      setObject o (some (enumObject info 1))
      if ← addInfoNode o .mEnumInfoHead then
        unlockHashTable .Enum
        pure (.ok o)
      else
        unlockHashTable .Enum
        release 1 o
        pure (.error E_OUT_OF_MEMORY)
  else
    unlockHashTable .Enum
    pure (.error E_OUT_OF_MEMORY)

/-- `AcquireDynamicEnumInfo`. The lock is not given back when the enumeration is found. -/
def acquireDynamicEnumInfo (fullName : Option Text) (itemNames : Option (List (Option Text)))
    (itemValues : Option (List Int)) (enumInfo : Bool) : Call (Except InfoList.ECode Nat) :=
  match fullName, itemNames, itemValues with
  | some fullName, some itemNames, some itemValues =>
    if enumInfo = false ∨ itemNames.length ≠ itemValues.length then
      pure (.error E_INVALID_ARGUMENT)
    else do
      let head ← gets fun s => s.heads .mEnumInfoHead
      lockHashTable .Enum
      let objects ← gets fun s => s.objects
      match findEnum objects fullName (itemNames.zip itemValues) head with
      | some (.error ec) =>
        unlockHashTable .Enum
        pure (.error ec)
      | some (.ok o) =>
        addRef o
        pure (.ok o)
      | none => makeEnum fullName (itemNames.zip itemValues)
  | _, _, _ => pure (.error E_INVALID_ARGUMENT)

/-! ## Runs -/

/-- A call of one thread. A struct always has a name; `release` is a `Release` of an object,
which has no effect if it is not there. -/
inductive Event where
  | struct (name : Text) (fields : List (Option Text × Nat)) (named : name ≠ [])
  | enum (fullName : Text) (items : List (Option Text × Int))
  | release (o : Nat)

def Event.call (W : World) (depth : Nat) : Event → Call (Except InfoList.ECode Nat)
  | .struct name fields _ =>
    acquireDynamicStructInfo W (some name) (some (fields.map Prod.fst))
      (some (fields.map Prod.snd)) true
  | .enum fullName items =>
    acquireDynamicEnumInfo (some fullName) (some (items.map Prod.fst))
      (some (items.map Prod.snd)) true
  | .release o => do
    InfoList.release depth o
    pure (.ok o)

/-- The registry, with memory for everything that is asked for; a call that does not come
back changes nothing. -/
def registry (W : World) (depth : Nat) : Machine CObjInfoList Event where
  step s e := ((e.call W depth s).map Prod.snd).getD s

section Live

variable {α : Type}

/-- The objects of a list that are of a kind, each with its key and its value. -/
def liveAt (kind : Option Object → Option (Text × α)) (objects : Nat → Option Object)
    (head : List Nat) : List (Live Nat Text α) :=
  head.filterMap fun o => (kind (objects o)).map fun key => ⟨o, key.1, key.2⟩

end Live

def structKey (object : Option Object) : Option (Text × List (Option Text × Nat)) :=
  (structOf object).map fun info => (info.mName, info.fields)

def enumKey (object : Option Object) : Option (Text × List (Option Text × Int)) :=
  (enumOf object).map fun info => (fullNameOf info, info.items)

/-- The live dynamic structs, by their name. -/
def liveStructs (s : CObjInfoList) : List (Live Nat Text (List (Option Text × Nat))) :=
  liveAt structKey s.objects (s.heads .mStructInfoHead)

/-- The live dynamic enumerations, by their full name. -/
def liveEnums (s : CObjInfoList) : List (Live Nat Text (List (Option Text × Int))) :=
  liveAt enumKey s.objects (s.heads .mEnumInfoHead)

/-- The call comes back, and a request is answered as it has to be; the types of the other
kind are what they were. -/
def Served (W : World) (depth : Nat) (s : CObjInfoList) (e : Event) : Prop :=
  match e with
  | .struct name fields _ =>
    ∃ answer s', e.call W depth s = some (answer, s') ∧
      Serves (fun _ => False) E_DATAINFO_EXIST (liveStructs s) name fields answer
        (liveStructs s') ∧ liveEnums s' = liveEnums s
  | .enum fullName items =>
    ∃ answer s', e.call W depth s = some (answer, s') ∧
      Serves (· = []) E_DATAINFO_EXIST (liveEnums s) fullName items answer (liveEnums s') ∧
      liveStructs s' = liveStructs s
  | .release _ => True

/-- No size and no alignment that the loop of `InitFieldElement` reads is zero. -/
def NoZero (align : Int) : Int → List FieldType → Prop
  | _, [] => True
  | elemtSize, t :: rest =>
    UInt32.ofInt (t.size.getD elemtSize) ≠ 0 ∧
      UInt32.ofInt (if t.hasMaxAlign then t.maxAlignSize else align) ≠ 0 ∧
      NoZero align (t.size.getD elemtSize) rest

/-- The fields of a new struct can be laid out. -/
def Divides (W : World) (fields : List (Option Text × Nat)) : Prop :=
  NoZero (getMaxAlignSize W.build (fields.map fun field => W.types field.2)) W.elemtSize
    (fields.map fun field => W.types field.2)

/-- The kind of event that is served: a struct that is there already or can be laid out, and
an enumeration without a namespace, where of the anonymous ones with as many items the one
that was made last has its items. -/
def Plain (W : World) (s : CObjInfoList) : Event → Prop
  | .struct name fields _ => (∀ e ∈ liveStructs s, e.key ≠ name) → Divides W fields
  | .enum fullName items =>
    lastIndexOf '.' fullName ≤ 0 ∧
      (fullName = [] → ∀ e, (liveEnums s).find? (fun e =>
        e.key.isEmpty && e.val.length == items.length) = some e → e.val = items)
  | .release _ => True

/-! ## Names -/

section Names

variable {c : Char} {s : Text}

theorem neg_one_le_lastIndexOf (c : Char) (s : Text) : -1 ≤ lastIndexOf c s := by
  induction s with
  | nil => exact Int.le_refl _
  | cons d rest ih =>
    rw [lastIndexOf]
    split
    · omega
    · split <;> omega

/-- The index is the last one of the character. -/
theorem lastIndexOf_last (c : Char) (s : Text) :
    Last (fun i => s[i]? = some c) s.length (lastIndexOf c s) := by
  induction s with
  | nil => exact Last.none fun i hi => absurd hi (Nat.not_lt_zero i)
  | cons d rest ih =>
    have hbound := neg_one_le_lastIndexOf c rest
    rw [lastIndexOf]
    rcases ih with ⟨hnone, hmiss⟩ | ⟨k, hk, hlt, hat, hlast⟩
    · rw [if_neg (by omega)]
      by_cases hd : d = c
      · rw [if_pos hd]
        refine Or.inr ⟨0, rfl, by rw [List.length_cons]; omega, by rw [hd]; rfl, ?_⟩
        intro j hj hlt hat
        rw [List.length_cons] at hlt
        obtain ⟨i, rfl⟩ : ∃ i, j = i + 1 := ⟨j - 1, by omega⟩
        rw [List.getElem?_cons_succ] at hat
        exact hmiss i (by omega) hat
      · rw [if_neg hd]
        refine Last.none ?_
        intro j hlt hat
        rw [List.length_cons] at hlt
        rcases j with _ | i
        · exact hd (Option.some.inj hat)
        · rw [List.getElem?_cons_succ] at hat
          exact hmiss i (by omega) hat
    · rw [if_pos (by omega)]
      refine Or.inr ⟨k + 1, by omega, by rw [List.length_cons]; omega, ?_, ?_⟩
      · show (d :: rest)[k + 1]? = some c
        rw [List.getElem?_cons_succ]
        exact hat
      · intro j hj hlt' hat'
        rw [List.length_cons] at hlt'
        obtain ⟨i, rfl⟩ : ∃ i, j = i + 1 := ⟨j - 1, by omega⟩
        rw [List.getElem?_cons_succ] at hat'
        exact hlast i (by omega) (by omega) hat'

theorem lastIndexOf_lt (h : 0 < lastIndexOf c s) : lastIndexOf c s < s.length := by
  rcases lastIndexOf_last c s with ⟨hnone, -⟩ | ⟨k, hk, hlt, -⟩
  · omega
  · omega

/-- A name without a namespace is not split. -/
theorem splitFullName_plain (h : lastIndexOf '.' s ≤ 0) : splitFullName s = (s, []) := by
  simp only [splitFullName, if_neg (show ¬ lastIndexOf '.' s > 0 by omega)]

/-- Of a name with a namespace a character is lost, apart from the dot. -/
theorem length_splitFullName (h : 0 < lastIndexOf '.' s) :
    (splitFullName s).1.length + (splitFullName s).2.length + 2 = s.length := by
  have hlt := lastIndexOf_lt h
  simp only [splitFullName, if_pos h]
  simp only [slice]
  rw [if_neg (show ¬ lastIndexOf '.' s + 1 < 0 by omega), if_neg (show ¬ (0 : Int) < 0 by omega),
    List.length_drop, List.length_take, List.length_drop, List.length_take]
  omega

/-- So the full name is another one. -/
theorem fullNameOf_ne {info : CEnumInfo} (hname : info.mName = (splitFullName s).1)
    (hnamespace : info.mNamespace = (splitFullName s).2) (h : 0 < lastIndexOf '.' s) :
    fullNameOf info ≠ s := by
  have hlen := length_splitFullName h
  intro heq
  have hlen' := congrArg List.length heq
  unfold fullNameOf at hlen'
  split at hlen'
  · rw [hname] at hlen'
    omega
  · rw [List.length_append, List.length_cons, hname, hnamespace] at hlen'
    omega

/-! ### Strings -/

variable {fullName : ElString} {cs : List Char}

theorem occursAt_val (c : Char) (cs : List Char) (i : Nat) :
    OccursAt [c.val] (cs.map Char.val) i ↔ cs[i]? = some c := by
  rw [occursAt_singleton, List.getElem?_map]
  constructor
  · intro h
    rcases Option.map_eq_some_iff.mp h with ⟨d, hd, hval⟩
    rw [hd, Char.ext hval]
  · intro h
    rw [h, Option.map_some]

/-- The text of a string holds no character at its end. -/
theorem last_eq_lastIndexOf {c : Char} {r : Int}
    (h : Last (OccursAt ([c.val].map (ElString.fold id false))
      ((cs.map Char.val).map (ElString.fold id false))) (cs.length + 1) r) :
    r = lastIndexOf c cs := by
  have hfold : ∀ l : List Char32, l.map (ElString.fold id false) = l := fun l => List.map_id l
  rw [hfold, hfold] at h
  have hlast := Last.pass_to (Nat.le_succ cs.length) (fun j h1 h2 => ?_) (lastIndexOf_last c cs)
  · exact (h.congr fun i _ => occursAt_val c cs i).unique hlast
  · obtain rfl : j = cs.length := by omega
    rw [List.getElem?_eq_none (Nat.le_refl _)]
    exact fun heq => by cases heq

/-- The two searches for the dot find the same index. -/
theorem indexByString_eq (h : fullName.Holds cs) (hnull : fullName.isNull = false) :
    indexByString fullName = some (lastIndexOf '.' cs) := by
  have hdot : (ElString.Pattern.string
      (ElString.ofCstr enoughMemory (some (bytes ".")))).Is ['.'.val] :=
    ⟨['.'], by decide, ⟨by decide, Or.inr (by decide), by decide, by decide⟩, rfl⟩
  have hlength := (ElString.getLength_spec h).1
  rcases @ElString.lastIndexOf_string id fullName cs fullName.getLength.1 h hnull _ _ hdot
    (by omega) false with ⟨r, hr, hlast⟩
  rw [hlength, Int.toNat_natCast] at hlast
  rw [indexByString, hr, last_eq_lastIndexOf hlast]

theorem indexByChar_eq (h : fullName.Holds cs) (hnull : fullName.isNull = false) :
    indexByChar fullName = some (lastIndexOf '.' cs) := by
  have hlength := (ElString.getLength_spec h).1
  have hlt := h.length_lt
  rcases @ElString.lastIndexOf_char id fullName cs fullName.getLength.1 h hnull '.'.val (by decide)
    (by omega) false with ⟨r, hr, hlast⟩
  rw [hlength, toInt32_eq (by omega) (by omega)] at hlast
  rw [indexByChar, hr, last_eq_lastIndexOf hlast]

theorem grants_slice (h : fullName.Holds cs) (start stop : Int) :
    enoughMemory.Grants (slice cs start stop) := by
  have hsmall := h.small
  have htake := ElString.length_utf8_take_le cs stop.toNat
  have hle : (utf8 (slice cs start stop)).length ≤ (utf8 cs).length := by
    unfold slice
    split
    · exact Nat.zero_le _
    · rw [← List.take_append_drop start.toNat (cs.take stop.toNat), utf8_append,
        List.length_append] at htake
      omega
  simp only [Heap.Grants, enoughMemory, decide_eq_true_eq]
  omega

/-- What a string is split into holds what its text is split into. -/
theorem splitAt_holds (h : fullName.Holds cs) :
    (splitAt fullName (lastIndexOf '.' cs)).1.Holds (splitFullName cs).1 ∧
      (splitAt fullName (lastIndexOf '.' cs)).2.Holds (splitFullName cs).2 := by
  have hlength := (ElString.getLength_spec h).1
  have hcut := fun start stop => ElString.substring_exact enoughMemory_bounded h.hasText
    h.cacheRight (grants_slice h start stop)
  simp only [splitAt, splitFullName, hlength]
  by_cases hdot : lastIndexOf '.' cs > 0
  · rw [if_pos hdot, if_pos hdot, if_pos hdot, if_pos hdot]
    exact ⟨hcut _ _, hcut _ _⟩
  · rw [if_neg hdot, if_neg hdot, if_neg hdot, if_neg hdot]
    exact ⟨h, ElString.ofCstr_empty _⟩

end Names

/-! ## The layout -/

section LayoutOf

theorem adjuctElemOffset_isSome (offset elemSize align : UInt32) :
    (adjuctElemOffset offset elemSize align).isSome ↔ elemSize ≠ 0 ∧ align ≠ 0 := by
  simp only [adjuctElemOffset]
  by_cases hlt : elemSize > align
  · rw [if_pos hlt]
    have hpos : elemSize ≠ 0 := by
      rintro rfl
      exact absurd hlt (UInt32.not_lt.mpr (UInt32.zero_le))
    by_cases hzero : align = 0 <;> simp [hzero, hpos]
  · rw [if_neg hlt]
    by_cases hzero : elemSize = 0
    · simp [hzero]
    · have hpos : align ≠ 0 := by
        rintro rfl
        exact hzero (UInt32.le_zero_iff.mp (UInt32.not_lt.mp hlt))
      simp [hzero, hpos]

/-- The loop divides by none of the sizes and alignments that it reads exactly if it comes to
its end. -/
theorem initFields_isSome (align elemtSize : Int) (offset : UInt32)
    (fields : List (Option Text × FieldType)) :
    (initFields align elemtSize offset fields).isSome ↔
      NoZero align elemtSize (fields.map Prod.snd) := by
  induction fields generalizing elemtSize offset with
  | nil => exact iff_of_true rfl trivial
  | cons field rest ih =>
    rcases field with ⟨name, t⟩
    rw [initFields, List.map_cons, NoZero, ← and_assoc, ← adjuctElemOffset_isSome offset]
    cases hpos : adjuctElemOffset offset (UInt32.ofInt (t.size.getD elemtSize))
        (UInt32.ofInt (if t.hasMaxAlign = true then t.maxAlignSize else align)) with
    | none => simp
    | some pos =>
      rw [Option.isSome_some, and_iff_right rfl, ← ih]
      simp only [Option.bind_eq_bind, Option.bind_some]
      cases initFields align (t.size.getD elemtSize)
        (pos + UInt32.ofInt (t.size.getD elemtSize)) rest <;> simp

theorem one_le_alignStep (types : List FieldType) {acc : Int × Int} (h : 1 ≤ acc.2) :
    1 ≤ (types.foldl alignStep acc).2 := by
  induction types generalizing acc with
  | nil => exact h
  | cons t rest ih =>
    apply ih
    simp only [alignStep]
    split <;> omega

theorem getMaxAlignSize_bounds (b : Build) (types : List FieldType) :
    1 ≤ getMaxAlignSize b types ∧ getMaxAlignSize b types < 2 ^ 31 := by
  have halign := @one_le_alignStep types (0, 1) (Int.le_refl 1)
  have hpos := b.pos
  have hlt := b.lt
  simp only [getMaxAlignSize]
  split <;> omega

/-- An info of `StructInfo`, as the registry asks it; it never fails. -/
def FieldType.ofInfo (t : StructInfo.Info) : FieldType where
  dataType := t.dataType
  size := some t.size
  maxAlignSize := t.maxAlign

/-- A field that `StructInfo` has placed. -/
def placed (d : StructInfo.StructFieldDesc) : InfoList.StructFieldDesc where
  mType := d.mType
  mSize := d.mSize
  mPos := d.mPos
  mName := some d.mName.toList

section OfInfo

variable {t : StructInfo.Info}

/-- There are no arrays among the fields there. -/
theorem hasMaxAlign_ofInfo (h : t.dataType ≠ .arrayOf) :
    (FieldType.ofInfo t).hasMaxAlign = true ↔
      t.dataType = .struct ∨ t.dataType = .cppVector := by
  simp [FieldType.hasMaxAlign, FieldType.ofInfo, h]

theorem alignStep_ofInfo (acc : Int × Int) (h : t.dataType ≠ .arrayOf) :
    alignStep acc (.ofInfo t) = (StructInfo.fieldAlign t,
      if StructInfo.fieldAlign t > acc.2 then StructInfo.fieldAlign t else acc.2) := by
  have hsize : (if (FieldType.ofInfo t).hasMaxAlign = true then t.maxAlign else t.size) =
      StructInfo.fieldAlign t := by
    rw [if_congr (hasMaxAlign_ofInfo h) rfl rfl, StructInfo.fieldAlign]
    cases t.dataType <;> rfl
  simp only [alignStep]
  rw [show (FieldType.ofInfo t).maxAlignSize = t.maxAlign from rfl,
    show (FieldType.ofInfo t).size.getD acc.1 = t.size from rfl, hsize]

theorem getMaxAlignSize_ofInfo (b : Build) {types : List StructInfo.Info}
    (h : ∀ t ∈ types, t.dataType ≠ .arrayOf) :
    getMaxAlignSize b (types.map .ofInfo) = StructInfo.structMaxAlign b types := by
  have hfold : ∀ acc : Int × Int, ((types.map FieldType.ofInfo).foldl alignStep acc).2 =
      types.foldl (fun align t =>
        if StructInfo.fieldAlign t > align then StructInfo.fieldAlign t else align) acc.2 := by
    intro acc
    induction types generalizing acc with
    | nil => rfl
    | cons t rest ih =>
      rw [List.map_cons, List.foldl_cons, List.foldl_cons,
        alignStep_ofInfo acc (h t List.mem_cons_self)]
      exact ih (fun t ht => h t (List.mem_cons_of_mem _ ht)) _
  rw [getMaxAlignSize, StructInfo.structMaxAlign, hfold]

theorem initFields_ofInfo (align elemtSize : Int) {fields : List (String × StructInfo.Info)}
    (h : ∀ field ∈ fields, field.2.dataType ≠ .arrayOf) (offset : UInt32) :
    initFields align elemtSize offset
        (fields.map fun field => (some field.1.toList, .ofInfo field.2)) =
      (StructInfo.initFields align fields offset).map fun r => (r.1.map placed, r.2) := by
  induction fields generalizing elemtSize offset with
  | nil => rfl
  | cons field rest ih =>
    rcases field with ⟨name, t⟩
    have hmax : (if (FieldType.ofInfo t).hasMaxAlign = true then t.maxAlign else align) =
        if t.dataType = .struct ∨ t.dataType = .cppVector then t.maxAlign else align :=
      if_congr (hasMaxAlign_ofInfo (h _ List.mem_cons_self)) rfl rfl
    have hrest := fun size => ih size fun field hmem => h field (List.mem_cons_of_mem _ hmem)
    rw [List.map_cons, initFields, StructInfo.initFields]
    dsimp only
    rw [show (FieldType.ofInfo t).maxAlignSize = t.maxAlign from rfl,
      show (FieldType.ofInfo t).size.getD elemtSize = t.size from rfl, hmax]
    cases adjuctElemOffset offset (UInt32.ofInt t.size) (UInt32.ofInt
        (if t.dataType = .struct ∨ t.dataType = .cppVector then t.maxAlign else align)) with
    | none => rfl
    | some pos =>
      simp only [Option.bind_eq_bind, Option.bind_some, hrest]
      cases StructInfo.initFields align rest (pos + UInt32.ofInt t.size) <;> rfl

/-- Types that answer as the infos of `StructInfo` are laid out as there: the two models of
`InitFieldElement` differ only in what they leave open. -/
theorem initFieldElement_ofInfo (W : World) (infos : Nat → StructInfo.Info)
    {fields : List (String × Nat)}
    (h : ∀ field ∈ fields, W.types field.2 = .ofInfo (infos field.2) ∧
      (infos field.2).dataType ≠ .arrayOf) :
    initFieldElement W (fields.map fun field => (some field.1.toList, field.2)) =
      (StructInfo.initFieldElement W.build
        (fields.map fun field => (field.1, infos field.2))).map
        fun r => (r.1.map placed, r.2) := by
  have hfields : (fields.map fun field => (some field.1.toList, field.2)).map
        (fun field => (field.1, W.types field.2)) =
      (fields.map fun field => (field.1, infos field.2)).map
        fun field => (some field.1.toList, .ofInfo field.2) := by
    rw [List.map_map, List.map_map]
    exact List.map_congr_left fun field hmem => congrArg _ (h field hmem).1
  have hno : ∀ field ∈ fields.map fun field => (field.1, infos field.2),
      field.2.dataType ≠ .arrayOf := by
    intro field hmem
    rcases List.mem_map.mp hmem with ⟨f, hf, rfl⟩
    exact (h f hf).2
  have halign := @getMaxAlignSize_ofInfo W.build
    ((fields.map fun field => (field.1, infos field.2)).map Prod.snd) fun t ht => by
      rcases List.mem_map.mp ht with ⟨field, hmem, rfl⟩
      exact hno field hmem
  rw [List.map_map] at halign
  simp only [initFieldElement, StructInfo.initFieldElement, hfields]
  rw [List.map_map, show Prod.snd ∘ (fun field : String × StructInfo.Info =>
      ((some field.1.toList, FieldType.ofInfo field.2) : Option Text × FieldType)) =
    FieldType.ofInfo ∘ Prod.snd from rfl, halign, initFields_ofInfo _ _ hno]
  cases StructInfo.initFields (StructInfo.structMaxAlign W.build
      ((fields.map fun field => (field.1, infos field.2)).map Prod.snd))
    (fields.map fun field => (field.1, infos field.2)) 0 with
  | none => rfl
  | some r =>
    simp only [Option.map_some, Option.bind_eq_bind, Option.bind_some]
    cases adjuctElemOffset r.2 _ _ <;> rfl

end OfInfo

theorem initFieldElement_isSome (W : World) (fields : List (Option Text × Nat)) :
    (initFieldElement W fields).isSome ↔ Divides W fields := by
  have hmap : (fields.map fun field => (field.1, W.types field.2)).map Prod.snd =
      fields.map fun field => W.types field.2 := by
    rw [List.map_map]
    rfl
  have hfields := initFields_isSome
    (getMaxAlignSize W.build (fields.map fun field => W.types field.2)) W.elemtSize 0
    (fields.map fun field => (field.1, W.types field.2))
  rw [hmap] at hfields
  rw [Divides, ← hfields]
  simp only [initFieldElement, hmap]
  cases hrun : initFields (getMaxAlignSize W.build (fields.map fun field => W.types field.2))
      W.elemtSize 0 (fields.map fun field => (field.1, W.types field.2)) with
  | none => simp
  | some r =>
    -- the alignment of the whole struct is never zero
    have hbounds := getMaxAlignSize_bounds W.build (fields.map fun field => W.types field.2)
    have hne : UInt32.ofInt (getMaxAlignSize W.build (fields.map fun field => W.types field.2)) ≠
        0 := by
      generalize getMaxAlignSize W.build (fields.map fun field => W.types field.2) = align at *
      obtain ⟨n, rfl⟩ : ∃ n : Nat, align = n := ⟨align.toNat, by omega⟩
      rw [StructInfo.ofInt_natCast]
      intro hzero
      have hnat := congrArg UInt32.toNat hzero
      rw [StructInfo.toNat_ofNat_of_lt (by omega), UInt32.toNat_zero] at hnat
      omega
    have hlast := (adjuctElemOffset_isSome r.2 _ _).mpr ⟨hne, hne⟩
    rw [Option.isSome_iff_exists] at hlast
    rcases hlast with ⟨mSize, hmSize⟩
    simp [hmSize]

end LayoutOf

/-! ## One call -/

section Calls

variable {s : CObjInfoList}

theorem zip_fst_snd {α β : Type} (l : List (α × β)) :
    (l.map Prod.fst).zip (l.map Prod.snd) = l := by
  have hzip := List.zip_unzip l
  rwa [List.unzip_eq_map] at hzip

theorem alloc_run (h : s.allocs = []) : alloc s = some (true, s) := by
  rw [alloc, h]

theorem allocMany_run (h : s.allocs = []) (n : Nat) : allocMany n s = some (true, s) := by
  induction n with
  | zero => rfl
  | succ n ih => simp [allocMany, alloc_run h, ih]

theorem initInfos_run (h : s.allocs = []) (count : Nat) :
    initInfos count s = some (.ok true, s) := by
  simp [initInfos, alloc_run h, allocMany_run h]

/-- The registry with a new object, in front of a list. -/
def added (s : CObjInfoList) (head : Head) (object : Object) : CObjInfoList :=
  { s with
    next := s.next + 1
    objects := Function.update s.objects s.next (some object)
    heads := Function.update s.heads head (s.next :: s.heads head) }

/-- The registry with one more reference of an object. -/
def referred (s : CObjInfoList) (o : Nat) : CObjInfoList :=
  { s with
    objects := Function.update s.objects o
      ((s.objects o).map fun object => { object with mRef := object.mRef + 1 }) }

/-- The enumeration that `InitDynamic` makes. -/
def enumInfo (fullName : Text) (items : List (Option Text × Int)) : CEnumInfo where
  mName := (splitFullName fullName).1
  mNamespace := (splitFullName fullName).2
  items := items
  hasItemInfos := true

theorem makeEnum_run (h : s.allocs = []) (fullName : Text) (items : List (Option Text × Int)) :
    makeEnum fullName items s = some (.ok s.next,
      { added s .mEnumInfoHead (enumObject (enumInfo fullName items) 1) with
        held := s.held - InfoList.lockCalls .Enum }) := by
  simp [makeEnum, create, initDynamicEnum, setObject, addInfoNode, unlockHashTable,
    initInfos_run, alloc_run, h, added, enumInfo]

/-- A request for an enumeration with memory, by the end of the walk. -/
theorem enum_run (h : s.allocs = []) (fullName : Text) (items : List (Option Text × Int)) :
    acquireDynamicEnumInfo (some fullName) (some (items.map Prod.fst))
        (some (items.map Prod.snd)) true s =
      match findEnum s.objects fullName items (s.heads .mEnumInfoHead) with
      | some (.error ec) => some (.error ec, s)
      | some (.ok o) =>
        some (.ok o, { referred s o with held := s.held + InfoList.lockCalls .Enum })
      | none => some (.ok s.next, added s .mEnumInfoHead (enumObject (enumInfo fullName items) 1)) := by
  simp only [acquireDynamicEnumInfo, List.length_map, zip_fst_snd]
  rw [if_neg (by simp)]
  simp only [Action.bind_run, Action.gets_run, lockHashTable, Action.modify_run,
    Option.bind_some]
  cases hfind : findEnum s.objects fullName items (s.heads .mEnumInfoHead) with
  | none =>
    simp only [makeEnum_run (s := { s with held := s.held + InfoList.lockCalls .Enum }) h]
    simp [added]
  | some r =>
    cases r with
    | error ec => simp [unlockHashTable]
    | ok o => simp [addRef, referred]

/-- What `InitDynamic` makes a struct of when the fields are laid out. -/
def structInfo (name : Text) (fields : List (Option Text × Nat))
    (layout : List InfoList.StructFieldDesc × UInt32) : CStructInfo where
  mName := name
  fields := fields
  mStructFieldDesc := layout.1
  mSize := layout.2
  hasFieldInfos := true

theorem makeStruct_run (W : World) (h : s.allocs = []) (name : Text)
    (fields : List (Option Text × Nat)) :
    makeStruct W name fields s = (initFieldElement W fields).map fun layout => (.ok s.next,
      { added s .mStructInfoHead (structObject (structInfo name fields layout) 1) with
        held := s.held - InfoList.lockCalls .Struct }) := by
  cases hlayout : initFieldElement W fields with
  | none => simp [makeStruct, create, initDynamicStruct, setObject, alloc_run, h, hlayout]
  | some layout =>
    simp [makeStruct, create, initDynamicStruct, setObject, addInfoNode, unlockHashTable,
      initInfos_run, alloc_run, h, hlayout, added, structInfo]

/-- A request for a struct with memory, by the end of the walk. -/
theorem struct_run (W : World) (h : s.allocs = []) {name : Text} (hname : name ≠ [])
    (fields : List (Option Text × Nat)) :
    acquireDynamicStructInfo W (some name) (some (fields.map Prod.fst))
        (some (fields.map Prod.snd)) true s =
      match findStruct s.objects name fields (s.heads .mStructInfoHead) with
      | some (.error ec) => some (.error ec, s)
      | some (.ok o) => some (.ok o, referred s o)
      | none => (initFieldElement W fields).map fun layout => (.ok s.next,
          added s .mStructInfoHead (structObject (structInfo name fields layout) 1)) := by
  simp only [acquireDynamicStructInfo, List.length_map, zip_fst_snd]
  rw [if_neg (by simp [hname])]
  simp only [Action.bind_run, Action.gets_run, lockHashTable, Action.modify_run,
    Option.bind_some]
  cases hfind : findStruct s.objects name fields (s.heads .mStructInfoHead) with
  | none =>
    simp only [makeStruct_run (s := { s with held := s.held + InfoList.lockCalls .Struct }) W h]
    simp [added]
  | some r =>
    cases r with
    | error ec => simp [unlockHashTable]
    | ok o => simp [addRef, referred, unlockHashTable]

end Calls

/-! ## The live types -/

section LiveAt

variable {α : Type} {kind : Option Object → Option (Text × α)} {objects objects' : Nat → Option Object}
  {head : List Nat}

theorem id_mem_of_liveAt {e : Live Nat Text α} (h : e ∈ liveAt kind objects head) : e.id ∈ head := by
  rcases List.mem_filterMap.mp h with ⟨o, ho, hkey⟩
  rcases Option.map_eq_some_iff.mp hkey with ⟨key, -, rfl⟩
  exact ho

theorem liveAt_congr (h : ∀ o ∈ head, kind (objects' o) = kind (objects o)) :
    liveAt kind objects' head = liveAt kind objects head := by
  apply List.filterMap_congr
  intro o ho
  rw [h o ho]

/-- An object that is not in the list does not matter. -/
theorem liveAt_update_of_notMem {o : Nat} (h : o ∉ head) (object : Option Object) :
    liveAt kind (Function.update objects o object) head = liveAt kind objects head := by
  apply liveAt_congr
  intro o' ho'
  rw [Function.update_of_ne]
  rintro rfl
  exact h ho'

theorem liveAt_update_same {o : Nat} {object : Option Object}
    (h : kind object = kind (objects o)) :
    liveAt kind (Function.update objects o object) head = liveAt kind objects head := by
  apply liveAt_congr
  intro o' _
  by_cases heq : o' = o
  · rw [heq, Function.update_self, h]
  · rw [Function.update_of_ne heq]

theorem liveAt_cons_of_some {o : Nat} {key : Text × α} (h : kind (objects o) = some key) :
    liveAt kind objects (o :: head) = ⟨o, key.1, key.2⟩ :: liveAt kind objects head := by
  simp [liveAt, h]

theorem liveAt_cons_of_none {o : Nat} (h : kind (objects o) = none) :
    liveAt kind objects (o :: head) = liveAt kind objects head := by
  simp [liveAt, h]

theorem liveAt_erase_sublist (o : Nat) :
    (liveAt kind objects (head.erase o)).Sublist (liveAt kind objects head) :=
  List.Sublist.filterMap _ List.erase_sublist

end LiveAt

theorem structKey_mRef (object : Object) (n : Nat) :
    structKey (some { object with mRef := n }) = structKey (some object) := by
  rcases object with ⟨type, mRef, place, members, info⟩
  cases info <;> rfl

theorem enumKey_mRef (object : Object) (n : Nat) :
    enumKey (some { object with mRef := n }) = enumKey (some object) := by
  rcases object with ⟨type, mRef, place, members, info⟩
  cases info <;> rfl

/-! ## The walks -/

section Walks

variable {objects : Nat → Option Object} {head : List Nat}

theorem findStruct_lookup (objects : Nat → Option Object) (name : Text)
    (fields : List (Option Text × Nat)) (head : List Nat) :
    Lookup E_DATAINFO_EXIST (liveAt structKey objects head) name fields
      (findStruct objects name fields head) := by
  induction head with
  | nil => exact fun e he => absurd he List.not_mem_nil
  | cons o rest ih =>
    rw [findStruct]
    cases hinfo : structOf (objects o) with
    | none => rwa [liveAt_cons_of_none (by rw [structKey, hinfo]; rfl)]
    | some info =>
      have hkey : structKey (objects o) = some (info.mName, info.fields) := by
        rw [structKey, hinfo]
        rfl
      rw [liveAt_cons_of_some hkey]
      dsimp only
      by_cases hname : name = info.mName
      · rw [if_pos hname]
        split
        · next hlen =>
          refine ⟨rfl, _, List.mem_cons_self, hname.symm, ?_⟩
          intro heq
          exact hlen (congrArg List.length heq)
        · split
          · next hne => exact ⟨rfl, _, List.mem_cons_self, hname.symm, Ne.symm hne⟩
          · next heq =>
            exact ⟨_, List.mem_cons_self, rfl, hname.symm, (not_not.mp heq).symm⟩
      · rw [if_neg hname]
        exact ih.cons (Ne.symm hname)

theorem itemsLoop_anonymous (items items' : List (Option Text × Int)) :
    itemsLoop true items items' = true := by
  induction items generalizing items' with
  | nil => rfl
  | cons item rest ih =>
    cases items' with
    | nil => rfl
    | cons item' rest' => simp [itemsLoop, ih]

/-- For an enumeration with a name the loop compares the items. -/
theorem itemsLoop_named {items items' : List (Option Text × Int)}
    (h : items'.length = items.length) :
    itemsLoop false items items' = true ↔ items = items' := by
  induction items generalizing items' with
  | nil =>
    rw [List.length_nil, List.length_eq_zero_iff] at h
    simp [h, itemsLoop]
  | cons item rest ih =>
    cases items' with
    | nil => cases h
    | cons item' rest' =>
      rcases item with ⟨name, value⟩
      rcases item' with ⟨name', value'⟩
      have hrest := @ih rest' (by simpa using h)
      by_cases hname : name = name'
      · by_cases hvalue : value = value' <;> simp [itemsLoop, hname, hvalue, hrest]
      · simp [itemsLoop, hname]

theorem enumKey_of_plain {object : Option Object} {info : CEnumInfo} (h : enumOf object = some info)
    (hplain : info.mNamespace = []) : enumKey object = some (info.mName, info.items) := by
  rw [enumKey, h, Option.map_some, fullNameOf, if_pos hplain]

/-- Where no enumeration has a namespace, the walk for a name without one looks it up. -/
theorem findEnum_lookup {fullName : Text} (hname : fullName ≠ [])
    (hdot : lastIndexOf '.' fullName ≤ 0) (items : List (Option Text × Int))
    (hplain : ∀ o ∈ head, ∀ info, enumOf (objects o) = some info → info.mNamespace = []) :
    Lookup E_DATAINFO_EXIST (liveAt enumKey objects head) fullName items
      (findEnum objects fullName items head) := by
  induction head with
  | nil => exact fun e he => absurd he List.not_mem_nil
  | cons o rest ih =>
    have hrest := ih fun o' ho' => hplain o' (List.mem_cons_of_mem o ho')
    rw [findEnum]
    cases hinfo : enumOf (objects o) with
    | none => rwa [liveAt_cons_of_none (by rw [enumKey, hinfo]; rfl)]
    | some info =>
      have hspace := hplain o List.mem_cons_self info hinfo
      have hempty : fullName.isEmpty = false := by simpa using hname
      rw [liveAt_cons_of_some (enumKey_of_plain hinfo hspace)]
      simp only [splitFullName_plain hdot, hspace, and_true, hempty, Bool.not_false, if_true]
      by_cases heq : fullName = info.mName
      · rw [if_pos heq]
        split
        · next hlen =>
          refine ⟨rfl, _, List.mem_cons_self, heq.symm, ?_⟩
          intro hitems
          exact hlen (congrArg List.length hitems)
        · next hlen =>
          have hsame := itemsLoop_named (not_not.mp hlen)
          split
          · next hloop => exact ⟨_, List.mem_cons_self, rfl, heq.symm, (hsame.mp hloop).symm⟩
          · next hloop =>
            exact ⟨rfl, _, List.mem_cons_self, heq.symm, fun hitems => hloop (hsame.mpr hitems.symm)⟩
      · rw [if_neg heq]
        exact hrest.cons (Ne.symm heq)

/-- The walk for an anonymous enumeration ends at the first one with as many items. -/
theorem findEnum_anonymous (items : List (Option Text × Int))
    (hplain : ∀ o ∈ head, ∀ info, enumOf (objects o) = some info → info.mNamespace = []) :
    findEnum objects [] items head =
      ((liveAt enumKey objects head).find? fun e =>
        e.key.isEmpty && e.val.length == items.length).map fun e => .ok e.id := by
  induction head with
  | nil => rfl
  | cons o rest ih =>
    have hrest := ih fun o' ho' => hplain o' (List.mem_cons_of_mem o ho')
    rw [findEnum]
    cases hinfo : enumOf (objects o) with
    | none => rwa [liveAt_cons_of_none (by rw [enumKey, hinfo]; rfl)]
    | some info =>
      have hspace := hplain o List.mem_cons_self info hinfo
      rw [liveAt_cons_of_some (enumKey_of_plain hinfo hspace), List.find?_cons]
      simp only [splitFullName_plain (show lastIndexOf '.' [] ≤ 0 by decide), hspace, and_true,
        List.isEmpty_nil, Bool.not_true, Bool.false_eq_true, if_false, itemsLoop_anonymous, if_true]
      by_cases hname : [] = info.mName
      · rw [if_pos hname, ← hname]
        by_cases hlen : info.items.length = items.length
        · simp [hlen]
        · have hother : (info.items.length == items.length) = false := by simpa using hlen
          rw [if_pos hlen, hother, Bool.and_false]
          exact hrest
      · have hne : info.mName.isEmpty = false := by
          simpa using Ne.symm hname
        rw [if_neg hname, hne, Bool.false_and]
        exact hrest

end Walks

/-! ## Steps -/

/-- An object of one of the two lists; an enumeration has no namespace. -/
def Dynamic (object : Object) : Prop :=
  (∃ info n, object = structObject info n) ∨
    ∃ info n, object = enumObject info n ∧ info.mNamespace = [] ∧ lastIndexOf '.' info.mName ≤ 0

/-- What holds of the registry as long as all requests are served. -/
structure Inv (s : CObjInfoList) : Prop where
  allocs : s.allocs = []
  dynamic : ∀ o object, s.objects o = some object → Dynamic object
  listed : ∀ head, ∀ o ∈ s.heads head, o < s.next
  nodup : ∀ head, (s.heads head).Nodup
  structs : Consistent (fun _ => False) (liveStructs s)
  enums : Consistent (· = []) (liveEnums s)

theorem inv_empty : Inv .empty where
  allocs := rfl
  dynamic _ _ h := by cases h
  listed _ _ h := by cases h
  nodup _ := List.nodup_nil
  structs := consistent_nil
  enums := consistent_nil

section Steps

variable {s : CObjInfoList}

theorem Inv.plain (hs : Inv s) {o : Nat} {info : CEnumInfo}
    (h : enumOf (s.objects o) = some info) :
    info.mNamespace = [] ∧ lastIndexOf '.' info.mName ≤ 0 := by
  cases hobj : s.objects o with
  | none => rw [hobj] at h; cases h
  | some object =>
    rw [hobj] at h
    rcases hs.dynamic o object hobj with ⟨info', n, rfl⟩ | ⟨info', n, rfl, hplain⟩
    · cases h
    · cases h
      exact hplain

/-- A live full name has no namespace. -/
theorem Inv.key_plain (hs : Inv s) {e : Live Nat Text (List (Option Text × Int))}
    (h : e ∈ liveEnums s) : lastIndexOf '.' e.key ≤ 0 := by
  rcases List.mem_filterMap.mp h with ⟨o, ho, hkey⟩
  rcases Option.map_eq_some_iff.mp hkey with ⟨key, hlive, rfl⟩
  rcases Option.map_eq_some_iff.mp hlive with ⟨info, hinfo, rfl⟩
  have hplain := hs.plain hinfo
  simp only [fullNameOf, hplain.1, if_true]
  exact hplain.2

/-! ### References -/

theorem liveStructs_referred (s : CObjInfoList) (o : Nat) :
    liveStructs (referred s o) = liveStructs s := by
  apply liveAt_update_same
  cases s.objects o with
  | none => rfl
  | some object => exact structKey_mRef object _

theorem liveEnums_referred (s : CObjInfoList) (o : Nat) :
    liveEnums (referred s o) = liveEnums s := by
  apply liveAt_update_same
  cases s.objects o with
  | none => rfl
  | some object => exact enumKey_mRef object _

theorem Dynamic.mRef {object : Object} (h : Dynamic object) (n : Nat) :
    Dynamic { object with mRef := n } := by
  rcases h with ⟨info, m, rfl⟩ | ⟨info, m, rfl, hplain⟩
  · exact Or.inl ⟨info, n, rfl⟩
  · exact Or.inr ⟨info, n, rfl, hplain⟩

/-- A change of the references of an object keeps the invariant. -/
theorem Inv.setRef (hs : Inv s) {o : Nat} {object : Object} (hobj : s.objects o = some object)
    (n : Nat) :
    Inv { s with objects := Function.update s.objects o (some { object with mRef := n }) } where
  allocs := hs.allocs
  listed := hs.listed
  nodup := hs.nodup
  dynamic := by
    intro o' object' h
    by_cases heq : o' = o
    · rw [heq] at h
      simp only [Function.update_self, Option.some.injEq] at h
      rw [← h]
      exact (hs.dynamic o object hobj).mRef n
    · simp only [Function.update_of_ne heq] at h
      exact hs.dynamic o' object' h
  structs := by
    have hlive := @liveAt_update_same _ structKey s.objects (s.heads .mStructInfoHead) o _
      ((structKey_mRef object n).trans (congrArg structKey hobj.symm))
    have := hs.structs
    rw [liveStructs, ← hlive] at this
    exact this
  enums := by
    have hlive := @liveAt_update_same _ enumKey s.objects (s.heads .mEnumInfoHead) o _
      ((enumKey_mRef object n).trans (congrArg enumKey hobj.symm))
    have := hs.enums
    rw [liveEnums, ← hlive] at this
    exact this

theorem Inv.referred (hs : Inv s) (o : Nat) : Inv (referred s o) := by
  cases hobj : s.objects o with
  | none =>
    have heq : DynamicTypes.referred s o = s := by
      rw [DynamicTypes.referred, hobj, Option.map_none, ← hobj, Function.update_eq_self]
    rwa [heq]
  | some object =>
    rw [DynamicTypes.referred, hobj]
    exact hs.setRef hobj _

/-- The held locks are no part of the invariant. -/
theorem Inv.held (hs : Inv s) (held : InfoList.Lock → Int) : Inv { s with held := held } where
  allocs := hs.allocs
  dynamic := hs.dynamic
  listed := hs.listed
  nodup := hs.nodup
  structs := hs.structs
  enums := hs.enums

/-! ### New objects -/

theorem Inv.next_notMem (hs : Inv s) (head : Head) : s.next ∉ s.heads head :=
  fun h => absurd (hs.listed head _ h) (Nat.lt_irrefl _)

theorem liveStructs_addedStruct (hs : Inv s) (info : CStructInfo) :
    liveStructs (added s .mStructInfoHead (structObject info 1)) =
      ⟨s.next, info.mName, info.fields⟩ :: liveStructs s := by
  simp only [liveStructs, added, Function.update_self]
  have hkey : structKey (Function.update s.objects s.next (some (structObject info 1)) s.next) =
      some (info.mName, info.fields) := by
    rw [Function.update_self]
    rfl
  rw [liveAt_cons_of_some hkey, liveAt_update_of_notMem (hs.next_notMem _)]

theorem liveEnums_addedStruct (hs : Inv s) (info : CStructInfo) :
    liveEnums (added s .mStructInfoHead (structObject info 1)) = liveEnums s := by
  simp only [liveEnums, added]
  rw [Function.update_of_ne (by decide), liveAt_update_of_notMem (hs.next_notMem _)]

theorem liveEnums_addedEnum (hs : Inv s) (info : CEnumInfo) :
    liveEnums (added s .mEnumInfoHead (enumObject info 1)) =
      ⟨s.next, fullNameOf info, info.items⟩ :: liveEnums s := by
  simp only [liveEnums, added, Function.update_self]
  have hkey : enumKey (Function.update s.objects s.next (some (enumObject info 1)) s.next) =
      some (fullNameOf info, info.items) := by
    rw [Function.update_self]
    rfl
  rw [liveAt_cons_of_some hkey, liveAt_update_of_notMem (hs.next_notMem _)]

theorem liveStructs_addedEnum (hs : Inv s) (info : CEnumInfo) :
    liveStructs (added s .mEnumInfoHead (enumObject info 1)) = liveStructs s := by
  simp only [liveStructs, added]
  rw [Function.update_of_ne (by decide), liveAt_update_of_notMem (hs.next_notMem _)]

/-- A new object keeps the invariant if the live types are as they have to be with it. -/
theorem Inv.added (hs : Inv s) {head : Head} {object : Object} (hobject : Dynamic object)
    (hstructs : Consistent (fun _ => False) (liveStructs (added s head object)))
    (henums : Consistent (· = []) (liveEnums (added s head object))) :
    Inv (added s head object) where
  allocs := hs.allocs
  structs := hstructs
  enums := henums
  dynamic := by
    intro o object' h
    simp only [DynamicTypes.added] at h
    by_cases heq : o = s.next
    · rw [heq, Function.update_self, Option.some.injEq] at h
      rw [← h]
      exact hobject
    · rw [Function.update_of_ne heq] at h
      exact hs.dynamic o object' h
  listed := by
    intro head' o ho
    simp only [DynamicTypes.added] at ho ⊢
    by_cases heq : head' = head
    · rw [heq, Function.update_self] at ho
      rcases List.mem_cons.mp ho with rfl | ho
      · exact Nat.lt_succ_self _
      · exact Nat.lt_succ_of_lt (hs.listed head o ho)
    · rw [Function.update_of_ne heq] at ho
      exact Nat.lt_succ_of_lt (hs.listed head' o ho)
  nodup := by
    intro head'
    simp only [DynamicTypes.added]
    by_cases heq : head' = head
    · rw [heq, Function.update_self]
      exact List.nodup_cons.mpr ⟨hs.next_notMem head, hs.nodup head⟩
    · rw [Function.update_of_ne heq]
      exact hs.nodup head'

/-! ### Releases -/

/-- The registry without an object of a list. -/
def removed (s : CObjInfoList) (o : Nat) (head : Head) : CObjInfoList :=
  { s with
    objects := Function.update s.objects o none
    heads := Function.update s.heads head ((s.heads head).erase o) }

theorem Inv.removed (hs : Inv s) (o : Nat) {head : Head}
    (hstruct : head ≠ .mStructInfoHead → structKey (s.objects o) = none)
    (henum : head ≠ .mEnumInfoHead → enumKey (s.objects o) = none) : Inv (removed s o head) where
  -- the object and its list change, everything else is as before
  allocs := hs.allocs
  dynamic := by
    intro o' object h
    simp only [DynamicTypes.removed] at h
    by_cases heq : o' = o
    · rw [heq, Function.update_self] at h
      cases h
    · rw [Function.update_of_ne heq] at h
      exact hs.dynamic o' object h
  listed := by
    intro head' o' ho
    simp only [DynamicTypes.removed] at ho ⊢
    by_cases heq : head' = head
    · rw [heq, Function.update_self] at ho
      exact hs.listed head o' (List.mem_of_mem_erase ho)
    · rw [Function.update_of_ne heq] at ho
      exact hs.listed head' o' ho
  nodup := by
    intro head'
    simp only [DynamicTypes.removed]
    by_cases heq : head' = head
    · rw [heq, Function.update_self]
      exact (hs.nodup head).erase o
    · rw [Function.update_of_ne heq]
      exact hs.nodup head'
  structs := by
    simp only [liveStructs, DynamicTypes.removed]
    by_cases heq : head = .mStructInfoHead
    · rw [heq, Function.update_self, liveAt_update_of_notMem (hs.nodup _).not_mem_erase]
      exact hs.structs.sublist (liveAt_erase_sublist o)
    · rw [Function.update_of_ne (Ne.symm heq), liveAt_update_same (by rw [hstruct heq]; rfl)]
      exact hs.structs
  enums := by
    simp only [liveEnums, DynamicTypes.removed]
    by_cases heq : head = .mEnumInfoHead
    · rw [heq, Function.update_self, liveAt_update_of_notMem (hs.nodup _).not_mem_erase]
      exact hs.enums.sublist (liveAt_erase_sublist o)
    · rw [Function.update_of_ne (Ne.symm heq), liveAt_update_same (by rw [henum heq]; rfl)]
      exact hs.enums

/-- `Release` of an object of a list. -/
theorem release_run (depth : Nat) {o : Nat} {object : Object} {type : Entries.EntryType}
    {head : Head} (hobj : s.objects o = some object) (htype : object.type = some type)
    (hplace : object.place = .list head) (hmembers : object.members = []) :
    InfoList.release (depth + 1) o s = some ((),
      if object.mRef ≤ 1 then removed s o head
      else { s with
        objects := Function.update s.objects o (some { object with mRef := object.mRef - 1 }) }) := by
  by_cases hlast : object.mRef ≤ 1
  · simp [InfoList.release, hobj, htype, InfoList.dropRef, hplace, hmembers, hlast,
      InfoList.takeOut, InfoList.deleteInfoNode, InfoList.releaseAll, setObject, lockHashTable,
      unlockHashTable, removed]
  · simp [InfoList.release, hobj, htype, InfoList.dropRef, hlast, setObject, lockHashTable,
      unlockHashTable]

theorem Inv.release (hs : Inv s) (depth o : Nat) {s' : CObjInfoList}
    (h : InfoList.release depth o s = some ((), s')) : Inv s' := by
  cases depth with
  | zero => cases h
  | succ depth =>
    cases hobj : s.objects o with
    | none =>
      simp only [InfoList.release, Action.bind_run, Action.gets_run, Option.bind_some, hobj,
        Action.pure_run, Option.some.injEq, Prod.mk.injEq] at h
      rw [← h.2]
      exact hs
    | some object =>
      have hset := hs.setRef hobj (object.mRef - 1)
      rcases hs.dynamic o object hobj with ⟨info, n, rfl⟩ | ⟨info, n, rfl, -⟩
      · rw [release_run depth hobj rfl rfl rfl, Option.some.injEq, Prod.mk.injEq] at h
        rw [← h.2]
        split
        · exact hs.removed o (fun hne => absurd rfl hne) fun _ => by rw [hobj]; rfl
        · exact hset
      · rw [release_run depth hobj rfl rfl rfl, Option.some.injEq, Prod.mk.injEq] at h
        rw [← h.2]
        split
        · exact hs.removed o (fun _ => by rw [hobj]; rfl) fun hne => absurd rfl hne
        · exact hset

/-! ### Requests -/

/-- A struct is served exactly if it is there already or can be laid out. -/
theorem struct_served_iff (W : World) (depth : Nat) (hs : Inv s) {name : Text}
    (fields : List (Option Text × Nat)) (named : name ≠ []) :
    Served W depth s (.struct name fields named) ↔ Plain W s (.struct name fields named) := by
  have hlookup := findStruct_lookup s.objects name fields (s.heads .mStructInfoHead)
  have hrun := struct_run W hs.allocs named fields
  simp only [Served, Plain, Event.call]
  cases hfind : findStruct s.objects name fields (s.heads .mStructInfoHead) with
  | some answer =>
    rw [hfind] at hlookup hrun
    have hserves := hlookup.serves hs.structs not_false
    refine iff_of_true ?_ ?_
    · cases answer with
      | error ec => exact ⟨_, _, hrun, hserves, rfl⟩
      | ok o =>
        refine ⟨_, _, hrun, ?_, liveEnums_referred s o⟩
        rw [liveStructs_referred]
        exact hserves
    · intro hmissing
      rcases hlookup.exists_key with ⟨e, he, hkey⟩
      exact absurd hkey (hmissing e he)
  | none =>
    rw [hfind] at hlookup hrun
    rw [← initFieldElement_isSome]
    cases hlayout : initFieldElement W fields with
    | none =>
      rw [hlayout, Option.map_none] at hrun
      refine iff_of_false ?_ fun h => absurd (h hlookup) (by simp)
      rintro ⟨answer, s', hcall, -⟩
      rw [hrun] at hcall
      cases hcall
    | some layout =>
      rw [hlayout, Option.map_some] at hrun
      refine iff_of_true ⟨_, _, hrun, ?_, liveEnums_addedStruct hs _⟩ fun _ => rfl
      rw [liveStructs_addedStruct hs]
      refine .made ?_ fun e he hkey => absurd hkey (hlookup e he)
      intro e he heq
      exact hs.next_notMem _ (heq ▸ id_mem_of_liveAt he)

/-- An enumeration is served exactly if it has no namespace and is not taken for another
anonymous one. -/
theorem enum_served_iff (W : World) (depth : Nat) (hs : Inv s) (fullName : Text)
    (items : List (Option Text × Int)) :
    Served W depth s (.enum fullName items) ↔ Plain W s (.enum fullName items) := by
  have hrun := enum_run hs.allocs fullName items
  have hplain : ∀ o ∈ s.heads .mEnumInfoHead, ∀ info, enumOf (s.objects o) = some info →
      info.mNamespace = [] := fun o _ info hinfo => (hs.plain hinfo).1
  have hfresh : ∀ e ∈ liveEnums s, e.id ≠ s.next := by
    intro e he heq
    exact hs.next_notMem _ (heq ▸ id_mem_of_liveAt he)
  have hmade := liveEnums_addedEnum hs (enumInfo fullName items)
  simp only [Served, Plain, Event.call]
  -- only a name without a dot is the name of the object that is made for it
  by_cases hdot : lastIndexOf '.' fullName ≤ 0
  · rw [and_iff_right hdot]
    have hname : fullNameOf (enumInfo fullName items) = fullName := by
      simp only [fullNameOf, enumInfo, splitFullName_plain hdot, if_true]
    rw [hname] at hmade
    by_cases hempty : fullName = []
    · -- only the number of the items is looked at
      subst hempty
      rw [findEnum_anonymous items hplain] at hrun
      -- without a name the first one with as many items is the one
      cases hfind : (liveEnums s).find? fun e =>
          e.key.isEmpty && e.val.length == items.length with
      | none =>
        rw [show liveAt enumKey s.objects (s.heads .mEnumInfoHead) = liveEnums s from rfl, hfind,
          Option.map_none] at hrun
        refine iff_of_true ⟨_, _, hrun, ?_, liveStructs_addedEnum hs _⟩ ?_
        · rw [hmade]
          refine .made hfresh fun e he hkey => ⟨rfl, ?_⟩
          rintro rfl
          have hmiss := List.find?_eq_none.mp hfind e he
          simp [hkey] at hmiss
        · intro _ e heq
          cases heq
      | some found =>
        rw [show liveAt enumKey s.objects (s.heads .mEnumInfoHead) = liveEnums s from rfl, hfind,
          Option.map_some] at hrun
        have hmem := List.mem_of_find?_eq_some hfind
        have hkey : found.key = [] := by
          have hprop := List.find?_some hfind
          simp only [Bool.and_eq_true, List.isEmpty_iff] at hprop
          exact hprop.1
        -- it is handed out as it is, so all depends on its items
        have hlive : liveEnums { referred s found.id with
            held := s.held + InfoList.lockCalls .Enum } = liveEnums s :=
          liveEnums_referred s found.id
        have hstructs : liveStructs { referred s found.id with
            held := s.held + InfoList.lockCalls .Enum } = liveStructs s :=
          liveStructs_referred s found.id
        constructor
        · rintro ⟨answer, s', hcall, hserves, -⟩ _ e heq
          rw [hrun, Option.some.injEq, Prod.mk.injEq] at hcall
          rw [← hcall.1, ← hcall.2, hlive] at hserves
          cases heq
          rcases hserves.eq_same rfl with ⟨e', he', hid, -, hval⟩
          rw [← hs.enums.eq_of_id he' hmem hid]
          exact hval
        · intro hitems
          refine ⟨_, _, hrun, ?_, hstructs⟩
          rw [hlive]
          exact .same hmem hkey (hitems rfl found rfl)
    · refine iff_of_true ?_ fun h => absurd h hempty
      have hlookup := findEnum_lookup hempty hdot items hplain
      cases hfind : findEnum s.objects fullName items (s.heads .mEnumInfoHead) with
      | some answer =>
        rw [hfind] at hlookup hrun
        have hserves := hlookup.serves hs.enums hempty
        cases answer with
        | error ec => exact ⟨_, _, hrun, hserves, rfl⟩
        | ok o =>
          refine ⟨_, _, hrun, ?_, liveStructs_referred s o⟩
          rw [show liveEnums { referred s o with held := s.held + InfoList.lockCalls .Enum } =
            liveEnums s from liveEnums_referred s o]
          exact hserves
      | none =>
        rw [hfind] at hlookup hrun
        refine ⟨_, _, hrun, ?_, liveStructs_addedEnum hs _⟩
        rw [hmade]
        exact .made hfresh fun e he hkey => absurd hkey (hlookup e he)
  · -- a name with a namespace is not the one that the object gets
    refine iff_of_false ?_ fun h => hdot h.1
    rintro ⟨answer, s', hcall, hserves, -⟩
    have hmissing : ∀ e ∈ liveEnums s, e.key ≠ fullName := by
      rintro e he rfl
      exact hdot (hs.key_plain he)
    rcases hserves.eq_made hmissing with ⟨o, hlive⟩
    have hlonger : ∀ s'', liveEnums s'' = liveEnums s → s' ≠ s'' := by
      rintro _ hsame rfl
      have hlen := congrArg List.length (hsame.symm.trans hlive)
      rw [List.length_cons] at hlen
      omega
    rw [hcall] at hrun
    cases hfind : findEnum s.objects fullName items (s.heads .mEnumInfoHead) with
    | some answer' =>
      rw [hfind] at hrun
      cases answer' with
      | error ec =>
        rw [Option.some.injEq, Prod.mk.injEq] at hrun
        exact hlonger s rfl hrun.2
      | ok o' =>
        rw [Option.some.injEq, Prod.mk.injEq] at hrun
        refine hlonger _ ?_ hrun.2
        exact liveEnums_referred s o'
    | none =>
      rw [hfind, Option.some.injEq, Prod.mk.injEq] at hrun
      rw [hrun.2, hmade, List.cons.injEq, Live.mk.injEq] at hlive
      exact fullNameOf_ne rfl rfl (by omega) hlive.1.2.1

theorem served_iff (W : World) (depth : Nat) (hs : Inv s) (e : Event) :
    Served W depth s e ↔ Plain W s e := by
  cases e with
  | struct name fields named => exact struct_served_iff W depth hs fields named
  | enum fullName items => exact enum_served_iff W depth hs fullName items
  | release o => exact Iff.rfl

/-- What a request leaves behind is as the invariant has it. -/
theorem Inv.step (W : World) (depth : Nat) (hs : Inv s) (e : Event) (h : Plain W s e) :
    Inv ((registry W depth).step s e) := by
  have hserved := (served_iff W depth hs e).mpr h
  cases e with
  | struct name fields named =>
    rcases hserved with ⟨answer, s', hcall, hserves, henums⟩
    have hrun := struct_run W hs.allocs named fields
    rw [show acquireDynamicStructInfo W (some name) (some (fields.map Prod.fst))
      (some (fields.map Prod.snd)) true s = _ from hcall] at hrun
    have hstructs := hserves.consistent hs.structs
    simp only [registry, hcall, Option.map_some, Option.getD_some]
    -- a struct that is found gets a reference more, a new one goes to the head of the list
    cases hfind : findStruct s.objects name fields (s.heads .mStructInfoHead) with
    | some answer' =>
      rw [hfind] at hrun
      cases answer' with
      | error ec =>
        cases hrun
        exact hs
      | ok o =>
        cases hrun
        exact hs.referred o
    | none =>
      rw [hfind] at hrun
      rcases Option.map_eq_some_iff.mp hrun.symm with ⟨layout, -, heq⟩
      cases heq
      refine hs.added (Or.inl ⟨_, _, rfl⟩) hstructs ?_
      rw [henums]
      exact hs.enums
  | enum fullName items =>
    rcases hserved with ⟨answer, s', hcall, hserves, hsame⟩
    have hrun := enum_run hs.allocs fullName items
    rw [show acquireDynamicEnumInfo (some fullName) (some (items.map Prod.fst))
      (some (items.map Prod.snd)) true s = _ from hcall] at hrun
    have henums := hserves.consistent hs.enums
    simp only [registry, hcall, Option.map_some, Option.getD_some]
    -- and so does an enumeration
    cases hfind : findEnum s.objects fullName items (s.heads .mEnumInfoHead) with
    | some answer' =>
      rw [hfind] at hrun
      cases answer' with
      | error ec =>
        cases hrun
        exact hs
      | ok o =>
        cases hrun
        exact (hs.referred o).held _
    | none =>
      rw [hfind] at hrun
      cases hrun
      refine hs.added (Or.inr ⟨_, _, rfl, ?_⟩) ?_ henums
      · simp only [enumInfo, splitFullName_plain h.1, true_and]
        exact h.1
      · rw [hsame]
        exact hs.structs
  | release o =>
    simp only [registry, Event.call, Action.bind_run]
    cases hrun : InfoList.release depth o s with
    | none => exact hs
    | some r => exact hs.release depth o hrun

end Steps

/-- Every request of a run is served exactly if no enumeration has a namespace, no anonymous
one is taken for another, and every new struct can be laid out. -/
theorem dynamic_types_iff (W : World) (depth : Nat) (events : List Event) :
    (registry W depth).AllSteps (Served W depth) .empty events ↔
      (registry W depth).AllSteps (Plain W) .empty events :=
  (registry W depth).allSteps_iff_of_invariant
    (fun s e hs h => @Inv.step s W depth hs e h) (fun s e hs => @served_iff s W depth hs e)
    inv_empty events

/-- A build in which all fields are numbers of four bytes. -/
def wordWorld : World where
  build := StructInfo.boundFour
  types _ := ⟨.int32, some 4, 0⟩
  elemtSize := 0

/-- An enumeration `ac.X` after one `ab.X` with the same item: the first has another name
already, and the second is not made. Anonymous enumerations of one item are one object. -/
theorem full_names_collide :
    (((Event.enum ['a', 'c', '.', 'X'] [(some ['x'], 1)]).call wordWorld 0
        ((registry wordWorld 0).run .empty [.enum ['a', 'b', '.', 'X'] [(some ['x'], 1)]])).map
      Prod.fst = some (.ok 0)) ∧
    (((Event.enum [] [(some ['y'], 2)]).call wordWorld 0
        ((registry wordWorld 0).run .empty [.enum [] [(some ['x'], 1)]])).map
      Prod.fst = some (.ok 0)) ∧
    ¬ (registry wordWorld 0).AllSteps (Served wordWorld 0) .empty
      [.enum ['a', 'b', '.', 'X'] [(some ['x'], 1)],
        .enum ['a', 'c', '.', 'X'] [(some ['x'], 1)]] := by
  refine ⟨rfl, rfl, ?_⟩
  rintro ⟨⟨answer, s', hcall, hserves, -⟩, -⟩
  have hlive : liveEnums s' = [⟨0, ['a', '.', 'X'], [(some ['x'], 1)]⟩] := by
    have hafter := congrArg (fun r => (r.map Prod.snd).map liveEnums) hcall
    exact (Option.some.inj hafter).symm
  rcases hserves.eq_made (fun e he => absurd he List.not_mem_nil) with ⟨o, hmade⟩
  rw [hmade] at hlive
  cases hlive

end SuperExe.Reflection.DynamicTypes
