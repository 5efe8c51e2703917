import SuperExe.Reflection.DynamicTypes

/-! # The locks of the registry

Every `Acquire…` of `CObjInfoList` (`reflection/CObjInfoList.cpp`) with the lock that it
takes, and all of its exits. The number of calls that take a lock is the number of those that
give it back, except where `AcquireDynamicEnumInfo` finds the enumeration it was asked for
(`lock_balance_iff`).
-/

namespace SuperExe.Reflection.LockBalance

open SuperExe.Lib InfoList
open InfoList.ECode
open Entries (EntryType)
open TypeInfo (CARDataType CarDataType TypePtr Resolved resolveType byteLevels)
open SuperExe.Lib.Action (gets modify stuck Keeps Charges)

/-! ## Modules -/

/-- What `dlopenCAR` finds at a path: whether there is class information
(`dlGetClassInfo`), and whether it is compressed (`CARAttrib_compress`). -/
structure Library where
  hasClassInfo : Bool
  compressed : Bool

/-- Everything outside of the registry: the metadata of the modules, by the address of their
`CClsModule`; the libraries; the types as a struct with fields of them sees them; and, for
each entry, how many allocations its `Init` makes and with what it fails after them. -/
structure World where
  types : TypeInfo.World
  library : Text → Option Library
  layout : DynamicTypes.World
  initAllocs : Key → Nat
  initFails : Key → Option ECode

/-- `RelocFlattedCLS`, for compressed class information. -/
def relocate (library : Library) : Call Bool :=
  if library.compressed then alloc else pure true

/-- The `CClsModule` of a library, which is put into the table before anything holds it. -/
def newClsModule (library : Library) (name : Text) : Call (Except ECode Nat) := do
  if !library.hasClassInfo then pure (.error E_DOES_NOT_EXIST)
  else
    if ← relocate library then
      if ← alloc then
        let o ← create ⟨some .ClsModule, 0, .table .mClsModule (.path name), [], .entry⟩
        if ← put .mClsModule (.path name) o then pure (.ok o)
        else
          setObject o none
          pure (.error E_OUT_OF_MEMORY)
      else pure (.error E_OUT_OF_MEMORY)
    else pure (.error E_OUT_OF_MEMORY)

/-- The `CClsModule` of the table, or else a new one. -/
def findClsModule (library : Library) (name : Text) : Option Nat → Call (Except ECode Nat)
  | some clsModule => pure (.ok clsModule)
  | none => newClsModule library name

/-- `delete clsModule` of a new one; it is not taken out of the table. -/
def deleteNew (found : Option Nat) (clsModule : Nat) : Call Unit :=
  if found.isNone then setObject clsModule none else pure ()

/-- What `AcquireModuleInfo` does under both locks. With an error it gives the object that the
`AutoPtr` has at the end. -/
def loadModule (library : Library) (name : Text) : Call (Except (ECode × Option Nat) Nat) := do
  let found ← get .mClsModule (.path name)
  match ← findClsModule library name found with
  | .error ec => pure (.error (ec, none))
  | .ok clsModule =>
    if ← alloc then
      addRef clsModule
      let o ← create ⟨some .Module, 1, .table .mModInfos (.path name), [clsModule], .entry⟩
      if ← put .mModInfos (.path name) o then pure (.ok o)
      else pure (.error (E_OUT_OF_MEMORY, some o))
    else
      deleteNew found clsModule
      pure (.error (E_OUT_OF_MEMORY, none))

/-- `AcquireModuleInfo` -/
def acquireModuleInfo (W : World) (depth : Nat) (name : Option Text) (moduleInfo : Bool) :
    Call (Except ECode Nat) :=
  match name with
  | none => pure (.error E_INVALID_ARGUMENT)
  | some name =>
    if moduleInfo = false then pure (.error E_INVALID_ARGUMENT)
    else
      match W.library name with
      | none => pure (.error E_FILE_NOT_FOUND)
      | some library => do
        lockHashTable .Module
        match ← get .mModInfos (.path name) with
        | some o =>
          addRef o
          unlockHashTable .Module
          pure (.ok o)
        | none =>
          lockHashTable .ClsModule
          let r ← loadModule library name
          unlockHashTable .ClsModule
          unlockHashTable .Module
          match r with
          | .ok o => pure (.ok o)
          | .error (ec, none) => pure (.error ec)
          | .error (ec, some o) =>
            release depth o
            pure (.error ec)

/-! ## Infos in tables -/

/-- An object holds another one. -/
def hold (o member : Nat) : Call Unit := do
  addRef member
  modify fun s =>
    { s with
      objects := Function.update s.objects o
        ((s.objects o).map fun object => { object with members := member :: object.members }) }

/-- What the infos of the tables share: the one that the caller has already, the one of the
table, or a new one that `init` succeeds for. -/
def acquireInfo (depth : Nat) (type : EntryType) (table : Table) (key : Key) (info : Info)
    (object : Option Nat) (init : Nat → Call (Option ECode)) : Call (Except ECode Nat) := do
  lockHashTable type
  match object with
  | some o =>
    unlockHashTable type
    pure (.ok o)
  | none =>
    match ← get table key with
    | some o =>
      addRef o
      unlockHashTable type
      pure (.ok o)
    | none =>
      if ← alloc then
        let o ← create ⟨some type, 1, .table table key, [], info⟩
        match ← init o with
        | some ec =>
          unlockHashTable type
          release depth o
          pure (.error ec)
        | none =>
          if ← put table key o then
            unlockHashTable type
            pure (.ok o)
          else
            unlockHashTable type
            release depth o
            pure (.error E_OUT_OF_MEMORY)
      else
        unlockHashTable type
        pure (.error E_OUT_OF_MEMORY)

/-- An `Init` that takes no lock, after a constructor that holds the module. -/
def initEntry (W : World) (clsModule : Nat) (key : Key) (o : Nat) : Call (Option ECode) := do
  hold o clsModule
  if ← allocMany (W.initAllocs key) then pure (W.initFails key)
  else pure (some E_OUT_OF_MEMORY)

section Tables

variable (W : World) (depth : Nat)

/-- `AcquireClassInfo`; `none` is a null pointer, and an object that the caller has is in
`object`. -/
def acquireClassInfo (clsModule : Option Nat) (clsDirEntry : Option Nat)
    (object : Option (Option Nat)) : Call (Except ECode Nat) :=
  match clsModule, clsDirEntry, object with
  | some c, some i, some object =>
    acquireInfo depth .Class .mClassInfos (.entry c i) .entry object (initEntry W c (.entry c i))
  | _, _, _ => pure (.error E_INVALID_ARGUMENT)

/-- `AcquireStaticEnumInfo` -/
def acquireStaticEnumInfo (clsModule : Option Nat) (enumDirEntry : Option Nat)
    (object : Option (Option Nat)) : Call (Except ECode Nat) :=
  match clsModule, enumDirEntry, object with
  | some c, some i, some object =>
    acquireInfo depth .Enum .mEnumInfos (.entry c i) (.dataType .enum) object
      (initEntry W c (.entry c i))
  | _, _, _ => pure (.error E_INVALID_ARGUMENT)

/-- `AcquireTypeAliasInfo`, which has no `Init`. -/
def acquireTypeAliasInfo (clsModule : Option Nat) (aliasDirEntry : Option Nat)
    (object : Option (Option Nat)) : Call (Except ECode Nat) :=
  match clsModule, aliasDirEntry, object with
  | some c, some i, some object =>
    acquireInfo depth .TypeAliase .mTypeAliasInfos (.entry c i) .entry object fun o => do
      hold o c
      pure none
  | _, _, _ => pure (.error E_INVALID_ARGUMENT)

/-- `AcquireInterfaceInfo` -/
def acquireInterfaceInfo (clsModule : Option Nat) (index : Nat) (object : Option (Option Nat)) :
    Call (Except ECode Nat) :=
  match clsModule, object with
  | some c, some object =>
    acquireInfo depth .Interface .mIFInfos (.iid ((W.types.module c).iid index))
      (.dataType .interface) object (initEntry W c (.entry c index))
  | _, _ => pure (.error E_INVALID_ARGUMENT)

/-- `AcquireMethodInfo` -/
def acquireMethodInfo (clsModule : Option Nat) (methodDescriptor : Option Nat) (index : Nat)
    (object : Option (Option Nat)) : Call (Except ECode Nat) :=
  match clsModule, methodDescriptor, object with
  | some c, some d, some object =>
    acquireInfo depth .Method .mMethodInfos (.method c d index) .entry object
      (initEntry W c (.method c d index))
  | _, _, _ => pure (.error E_INVALID_ARGUMENT)

/-- `AcquireLocalPtrInfo`, which does not look whether the caller has the object. -/
def acquireLocalPtrInfo (clsModule : Option Nat) (typeDescriptor : Option TypePtr) (pointer : Int)
    (localPtrInfo : Bool) : Call (Except ECode Nat) :=
  match clsModule, typeDescriptor with
  | some c, some t =>
    if localPtrInfo = false then pure (.error E_INVALID_ARGUMENT)
    else
      acquireInfo depth .Local .mLocalPtrInfos (.localPtr c t pointer) (.dataType .localPtr) none
        fun o => do
          hold o c
          pure none
  | _, _ => pure (.error E_INVALID_ARGUMENT)

end Tables

/-! ## Infos in no table -/

section Entries

variable (W : World) (depth : Nat)

/-- `AcquireConstantInfo` -/
def acquireConstantInfo (clsModule : Option Nat) (constDirEntry : Option Nat)
    (object : Option (Option Nat)) : Call (Except ECode Nat) :=
  match clsModule, constDirEntry, object with
  | some c, some _, some object => do
    lockHashTable .Constant
    match object with
    | some o =>
      unlockHashTable .Constant
      pure (.ok o)
    | none =>
      if ← alloc then
        let o ← create ⟨none, 0, .nowhere, [], .entry⟩
        hold o c
        addRef o
        unlockHashTable .Constant
        pure (.ok o)
      else
        unlockHashTable .Constant
        pure (.error E_OUT_OF_MEMORY)
  | _, _, _ => pure (.error E_INVALID_ARGUMENT)

/-- `AcquireConstructorInfo`, whose `Init` acquires the method. -/
def acquireConstructorInfo (clsModule : Option Nat) (methodDescriptor : Option Nat) (index : Nat)
    (clsId : Bool) (object : Option (Option Nat)) : Call (Except ECode Nat) :=
  match clsModule, methodDescriptor, object with
  | some c, some d, some object =>
    if clsId = false then pure (.error E_INVALID_ARGUMENT)
    else do
      lockHashTable .Constructor
      match object with
      | some o =>
        unlockHashTable .Constructor
        pure (.ok o)
      | none =>
        if ← alloc then
          let o ← create ⟨none, 1, .nowhere, [], .entry⟩
          match ← acquireMethodInfo W depth (some c) (some d) index (some none) with
          | .error ec =>
            unlockHashTable .Constructor
            release depth o
            pure (.error ec)
          | .ok method =>
            hold o method
            release depth method
            unlockHashTable .Constructor
            pure (.ok o)
        else
          unlockHashTable .Constructor
          pure (.error E_OUT_OF_MEMORY)
  | _, _, _ => pure (.error E_INVALID_ARGUMENT)

/-- `AcquireCBMethodInfoInfo`; its body is left out of the build. -/
def acquireCBMethodInfoInfo : Call Unit := pure ()

end Entries

/-! ## Data types -/

section Arrays

/-- The info in a slot of an array, or a new one that stays there. -/
def acquireSlot (type : EntryType) (look : CObjInfoList → Option Nat)
    (store : Nat → CObjInfoList → CObjInfoList) (make : Call Nat) : Call (Except ECode Nat) := do
  lockHashTable type
  match ← gets look with
  | some o =>
    unlockHashTable type
    addRef o
    pure (.ok o)
  | none =>
    if ← alloc then
      let o ← make
      modify (store o)
      unlockHashTable type
      addRef o
      pure (.ok o)
    else
      unlockHashTable type
      pure (.error E_OUT_OF_MEMORY)

/-- `AcquireIntrinsicInfo` -/
def acquireIntrinsicInfo (dataType : CarDataType) (dataTypeInfo : Bool) : Call (Except ECode Nat) :=
  if dataTypeInfo = false then pure (.error E_INVALID_ARGUMENT)
  else
    acquireSlot .DataType (fun s => s.mDataTypeInfos dataType)
      (fun o s => { s with mDataTypeInfos := Function.update s.mDataTypeInfos dataType (some o) })
      (create ⟨none, 1, .nowhere, [], .dataType dataType⟩)

/-- `AcquireLocalTypeInfo` -/
def acquireLocalTypeInfo (type : CARDataType) (dataTypeInfo : Bool) : Call (Except ECode Nat) :=
  if dataTypeInfo = false then pure (.error E_INVALID_ARGUMENT)
  else
    acquireSlot .Local (fun s => s.mLocalTypeInfos type)
      (fun o s => { s with mLocalTypeInfos := Function.update s.mLocalTypeInfos type (some o) })
      (create ⟨none, 1, .nowhere, [], .dataType .localType⟩)

/-- `GetElementTypeInfo` -/
def getElementTypeInfo : Option Object → Except ECode Nat
  | some ⟨_, _, _, _, .cppVector element _⟩ => .ok element
  | some ⟨_, _, _, _, .carArray element⟩ => .ok element
  | _ => .error E_INVALID_ARGUMENT

/-- The walk over the infos with an element, of those that `candidate` lets through. -/
def findElement (objects : Nat → Option Object) (candidate : Option Object → Bool)
    (element : Nat) : List Nat → Option (Except ECode Nat)
  | [] => none
  | node :: rest =>
    if candidate (objects node) then
      match getElementTypeInfo (objects node) with
      | .error ec => some (.error ec)
      | .ok elementInfo =>
        if elementInfo = element then some (.ok node)
        else findElement objects candidate element rest
    else findElement objects candidate element rest

/-- The info in a list whose element is asked for, or a new one in front of the list. -/
def acquireListed (depth : Nat) (head : Head) (candidate : Option Object → Bool) (info : Info)
    (element : Nat) : Call (Except ECode Nat) := do
  let nodes ← gets fun s => s.heads head
  lockHashTable .DataType
  let objects ← gets fun s => s.objects
  match findElement objects candidate element nodes with
  | some (.error ec) =>
    unlockHashTable .DataType
    pure (.error ec)
  | some (.ok o) =>
    addRef o
    unlockHashTable .DataType
    pure (.ok o)
  | none =>
    if ← alloc then
      let o ← create ⟨some .DataType, 1, .list head, [], info⟩
      hold o element
      if ← addInfoNode o head then
        unlockHashTable .DataType
        pure (.ok o)
      else
        unlockHashTable .DataType
        release depth o
        pure (.error E_OUT_OF_MEMORY)
    else
      unlockHashTable .DataType
      pure (.error E_OUT_OF_MEMORY)

/-- `GetLength` of a vector -/
def hasLength (length : Int) : Option Object → Bool
  | some ⟨_, _, _, _, .cppVector _ len⟩ => len == length
  | _ => false

/-- `AcquireCppVectorInfo` -/
def acquireCppVectorInfo (depth : Nat) (elementTypeInfo : Option Nat) (length : Int)
    (cppVectorInfo : Bool) : Call (Except ECode Nat) :=
  match elementTypeInfo with
  | none => pure (.error E_INVALID_ARGUMENT)
  | some element =>
    if cppVectorInfo = false then pure (.error E_INVALID_ARGUMENT)
    else acquireListed depth .mCCppVectorHead (hasLength length) (.cppVector element length) element

/-- `GetDataType` of an object, if it is an `IDataTypeInfo`. -/
def getDataType : Info → Option CarDataType
  | .dynamicEnum _ => some .enum
  | .dynamicStruct _ => some .struct
  | .cppVector _ _ => some .cppVector
  | .carArray _ => some .arrayOf
  | .dataType type => some type
  | .entry => none

/-- `AcquireCarArrayInfo` -/
def acquireCarArrayInfo (depth : Nat) (quintetType : CarDataType) (elementTypeInfo : Option Nat)
    (carArrayInfo : Bool) : Call (Except ECode Nat) :=
  match elementTypeInfo with
  | none => pure (.error E_INVALID_ARGUMENT)
  | some element =>
    if quintetType ≠ .arrayOf ∨ carArrayInfo = false then pure (.error E_INVALID_ARGUMENT)
    else do
      match ← gets fun s => (s.objects element).bind fun object => getDataType object.info with
      | none => stuck
      | some dataType =>
        if dataType ≠ .struct then
          acquireSlot .DataType (fun s => s.mCarArrayInfos dataType)
            (fun o s =>
              { s with mCarArrayInfos := Function.update s.mCarArrayInfos dataType (some o) })
            (do
              let o ← create ⟨some .DataType, 1, .list .mCarArrayInfoHead, [], .carArray element⟩
              hold o element
              pure o)
        else
          acquireListed depth .mCarArrayInfoHead (fun _ => true) (.carArray element) element

end Arrays

section DataTypes

variable (W : World) (depth : Nat)

/-- The loop of `CStructInfo::InitStatic`: the types of the elements. At a failure the struct
lets go of those that it has. -/
def initFieldTypes (field : Nat → Call (Except ECode Nat)) (o : Nat) :
    List Nat → List Nat → Call (Except ECode (List Nat))
  | types, [] => pure (.ok types.reverse)
  | types, elem :: rest => do
    match ← field elem with
    | .error ec =>
      releaseAll (release depth) types
      pure (.error ec)
    | .ok type => initFieldTypes field o (type :: types) rest

/-- `CStructInfo::InitStatic`, where `field` acquires the type of an element. -/
def initStaticStruct (field : Nat → Call (Except ECode Nat)) (c index : Nat) (o : Nat) :
    Call (Option ECode) := do
  hold o c
  if ← allocMany 2 then
    match ← initFieldTypes depth field o [] ((W.types.module c).structs index) with
    | .error ec => pure (some ec)
    | .ok types =>
      if ← alloc then
        match DynamicTypes.initFieldElement W.layout (types.map fun type => (none, type)) with
        | none => stuck
        | some _ =>
          match ← DynamicTypes.initInfos types.length with
          | .error ec =>
            releaseAll (release depth) types
            pure (some ec)
          | .ok _ =>
            modify fun s =>
              { s with
                objects := Function.update s.objects o ((s.objects o).map fun object =>
                  { object with members := types ++ object.members }) }
            pure none
      else
        releaseAll (release depth) types
        pure (some E_OUT_OF_MEMORY)
  else pure (some E_OUT_OF_MEMORY)

/-- `AcquireStaticStructInfo` -/
def acquireStaticStructInfo (field : Nat → Nat → Call (Except ECode Nat)) (clsModule : Option Nat)
    (structDirEntry : Option Nat) (object : Option (Option Nat)) : Call (Except ECode Nat) :=
  match clsModule, structDirEntry, object with
  | some c, some i, some object =>
    acquireInfo depth .Struct .mStructInfos (.entry c i) (.dataType .struct) object
      (initStaticStruct W depth (field c) c i)
  | _, _, _ => pure (.error E_INVALID_ARGUMENT)

/-- `InitOrgType`, when an alias of the module is first asked for. -/
def initOrgType (c : Nat) (t : TypePtr) : Call Bool := do
  let made ← gets fun s => s.aliasLists c
  match TypeInfo.content byteLevels (W.types.module c) t with
  | none => pure true
  | some d =>
    if d.type = .typeAlias ∧ (W.types.module c).aliases ≠ [] ∧ made = false then
      if ← allocMany ((W.types.module c).aliases.length + 1) then
        modify fun s => { s with aliasLists := Function.update s.aliasLists c true }
        pure true
      else pure false
    else pure true

/-- `AcquireCarArrayElementTypeInfo` -/
def acquireCarArrayElementTypeInfo (sub : Nat → TypePtr → Bool → Call (Except ECode Nat)) (c : Nat)
    (typeDesc : TypeInfo.Content) : Call (Except ECode Nat) :=
  match typeDesc.type with
  | .arrayOf =>
    match typeDesc.nested with
    | none => pure (.error E_INVALID_ARGUMENT)
    | some a => sub c (.desc a) false
  | _ => pure (.error E_INVALID_OPERATION)

/-- The branches of `AcquireDataTypeInfo`; `sub` acquires the type of a part. -/
def acquireByType (sub : Nat → TypePtr → Bool → Call (Except ECode Nat)) (c : Nat) (r : Resolved)
    (isCheckLocalPtr : Bool) : Call (Except ECode Nat) :=
  match r.type with
  | .localPtr => acquireLocalPtrInfo depth (some c) (some r.ptr) r.pointer true
  | .localType => acquireLocalTypeInfo r.desc.type true
  | .struct =>
    acquireStaticStructInfo W depth (fun c a => sub c (.desc a) true) (some c) (some r.desc.index)
      (some none)
  | .interface => acquireInterfaceInfo W depth (some c) r.desc.index (some none)
  | .enum => acquireStaticEnumInfo W depth (some c) (some r.desc.index) (some none)
  | .cppVector => do
    let array := (W.types.module c).arrays r.desc.index
    match ← sub c (.desc array.2) isCheckLocalPtr with
    | .error ec => pure (.error ec)
    | .ok element =>
      let answer ← acquireCppVectorInfo depth (some element) array.1 true
      release depth element
      pure answer
  | .arrayOf => do
    match ← acquireCarArrayElementTypeInfo sub c r.desc with
    | .error ec => pure (.error ec)
    | .ok element =>
      let answer ← acquireCarArrayInfo depth .arrayOf (some element) true
      release depth element
      pure answer
  | dataType => acquireIntrinsicInfo dataType true

/-- The error codes of the resolution; a chain without an end has none. -/
def failure : TypeInfo.ECode → Call (Except ECode Nat)
  | .invalidArgument => pure (.error E_INVALID_ARGUMENT)
  | .invalidOperation => pure (.error E_INVALID_OPERATION)
  | .outOfMemory => pure (.error E_OUT_OF_MEMORY)
  | .undefined => stuck

/-- `AcquireDataTypeInfo`, for types that are nested no deeper than the first argument. -/
def acquireDataTypeInfo : Nat → Nat → TypePtr → Bool → Call (Except ECode Nat)
  | 0, _, _, _ => stuck
  | n + 1, c, t, isCheckLocalPtr => do
    if ← initOrgType W c t then
      match resolveType byteLevels (W.types.module c) t isCheckLocalPtr with
      | .error e => failure e
      | .ok r => acquireByType W depth (acquireDataTypeInfo n) c r isCheckLocalPtr
    else pure (.error E_OUT_OF_MEMORY)

end DataTypes

/-! ## Runs -/

/-- A call of the registry with all of its arguments, where `none` and `false` are null
pointers; `release` is the `Release` of an object. -/
inductive Op where
  | moduleInfo (name : Option Text) (moduleInfo : Bool)
  | classInfo (clsModule clsDirEntry : Option Nat) (object : Option (Option Nat))
  | staticStruct (clsModule structDirEntry : Option Nat) (object : Option (Option Nat))
  | dynamicStruct (name : Option Text) (fieldNames : Option (List (Option Text)))
      (fieldTypeInfos : Option (List Nat)) (structInfo : Bool)
  | staticEnum (clsModule enumDirEntry : Option Nat) (object : Option (Option Nat))
  | dynamicEnum (fullName : Option Text) (itemNames : Option (List (Option Text)))
      (itemValues : Option (List Int)) (enumInfo : Bool)
  | typeAlias (clsModule aliasDirEntry : Option Nat) (object : Option (Option Nat))
  | interface (clsModule : Option Nat) (index : Nat) (object : Option (Option Nat))
  | method (clsModule methodDescriptor : Option Nat) (index : Nat) (object : Option (Option Nat))
  | dataType (clsModule : Option Nat) (typeDesc : Option TypePtr) (dataTypeInfo : Bool)
      (isCheckLocalPtr : Bool)
  | carArrayElement (clsModule : Nat) (typeDesc : TypeInfo.Content)
  | intrinsic (dataType : CarDataType) (dataTypeInfo : Bool)
  | localType (type : CARDataType) (dataTypeInfo : Bool)
  | localPtr (clsModule : Option Nat) (typeDescriptor : Option TypePtr) (pointer : Int)
      (localPtrInfo : Bool)
  | cppVector (elementTypeInfo : Option Nat) (length : Int) (cppVectorInfo : Bool)
  | carArray (quintetType : CarDataType) (elementTypeInfo : Option Nat) (carArrayInfo : Bool)
  | constant (clsModule constDirEntry : Option Nat) (object : Option (Option Nat))
  | constructor (clsModule methodDescriptor : Option Nat) (index : Nat) (clsId : Bool)
      (object : Option (Option Nat))
  | cbMethod
  | release (o : Nat)

/-- A call whose answer is left out. -/
def unanswered (call : Call (Except ECode Nat)) : Call Unit := do
  let _ ← call
  pure ()

/-- The call, without its answer. -/
def Op.call (W : World) (depth : Nat) : Op → Call Unit
  | .moduleInfo name out => unanswered (acquireModuleInfo W depth name out)
  | .classInfo c entry object => unanswered (acquireClassInfo W depth c entry object)
  | .staticStruct c entry object =>
    unanswered (acquireStaticStructInfo W depth
      (fun c a => acquireDataTypeInfo W depth depth c (.desc a) true) c entry object)
  | .dynamicStruct name fieldNames fieldTypeInfos out =>
    unanswered (DynamicTypes.acquireDynamicStructInfo W.layout name fieldNames fieldTypeInfos out)
  | .staticEnum c entry object => unanswered (acquireStaticEnumInfo W depth c entry object)
  | .dynamicEnum fullName itemNames itemValues out =>
    unanswered (DynamicTypes.acquireDynamicEnumInfo fullName itemNames itemValues out)
  | .typeAlias c entry object => unanswered (acquireTypeAliasInfo depth c entry object)
  | .interface c index object => unanswered (acquireInterfaceInfo W depth c index object)
  | .method c d index object => unanswered (acquireMethodInfo W depth c d index object)
  | .dataType (some c) (some t) true check => unanswered (acquireDataTypeInfo W depth depth c t check)
  | .dataType _ _ _ _ => unanswered (pure (.error E_INVALID_ARGUMENT))
  | .carArrayElement c typeDesc =>
    unanswered (acquireCarArrayElementTypeInfo (acquireDataTypeInfo W depth depth) c typeDesc)
  | .intrinsic type out => unanswered (acquireIntrinsicInfo type out)
  | .localType type out => unanswered (acquireLocalTypeInfo type out)
  | .localPtr c t pointer out => unanswered (acquireLocalPtrInfo depth c t pointer out)
  | .cppVector element length out => unanswered (acquireCppVectorInfo depth element length out)
  | .carArray quintetType element out =>
    unanswered (acquireCarArrayInfo depth quintetType element out)
  | .constant c entry object => unanswered (acquireConstantInfo c entry object)
  | .constructor c d index clsId object =>
    unanswered (acquireConstructorInfo W depth c d index clsId object)
  | .cbMethod => acquireCBMethodInfoInfo
  | .release o => InfoList.release depth o

/-- The registry, called again and again; each event says which allocations of the call
succeed. A call that does not come back changes nothing. -/
def registry (W : World) (depth : Nat) : Machine CObjInfoList (Op × List Bool) where
  step s e := ((e.1.call W depth { s with allocs := e.2 }).map Prod.snd).getD s

/-! ## What a call does to the locks -/

section Balance

variable {α β : Type} {type : EntryType}

/-- An invariant that is kept by all that the calls do, but for the loading of a module: it
says nothing of the rest of the registry, a new object is no class module, an object that is
there stays in its place with no fewer references, and the other tables are free. -/
class Kept (I : CObjInfoList → Prop) : Prop where
  rest : ∀ {s s'}, s'.next = s.next → s'.objects = s.objects → s'.tables = s.tables → I s → I s'
  create : ∀ {s object}, (∀ key, object.place ≠ .table .mClsModule key) → I s →
    I { s with next := s.next + 1, objects := Function.update s.objects s.next (some object) }
  change : ∀ {s} (o : Nat) {g : Object → Object},
    (∀ object, (g object).place = object.place ∧ object.mRef ≤ (g object).mRef) → I s →
      I { s with objects := Function.update s.objects o ((s.objects o).map g) }
  put : ∀ {s t} (key : Key) (o : Nat), t ≠ .mClsModule → I s →
    I { s with tables := Function.update s.tables t (Function.update (s.tables t) key (some o)) }
  release : ∀ {s s' depth o}, I s → InfoList.release depth o s = some ((), s') → I s'
  makeStruct : ∀ {s W name fields answer s'}, I s →
    DynamicTypes.makeStruct W name fields s = some (answer, s') → I s'
  makeEnum : ∀ {s fullName items answer s'}, I s →
    DynamicTypes.makeEnum fullName items s = some (answer, s') → I s'

/-- Nothing is asked of the registry. -/
abbrev Any : CObjInfoList → Prop := fun _ => True

instance : Kept Any where
  rest := fun _ _ _ _ => trivial
  create := fun _ _ => trivial
  change := fun _ _ _ _ => trivial
  put := fun _ _ _ _ => trivial
  release := fun _ _ => trivial
  makeStruct := fun _ _ => trivial
  makeEnum := fun _ _ => trivial

/-- The call gives back the locks that it takes. -/
abbrev Balanced (I : CObjInfoList → Prop) (f : Call α) : Prop := Keeps I CObjInfoList.held f

/-- The call gives back the lock of the type once more than it takes it. -/
abbrev Leaves (I : CObjInfoList → Prop) (type : EntryType) (f : Call α) : Prop :=
  Charges I CObjInfoList.held f (-lockCalls type)

variable {I : CObjInfoList → Prop}

/-- What a call leaves alone. -/
theorem balanced_modify {f : CObjInfoList → CObjInfoList} (hinv : ∀ s, I s → I (f s))
    (hheld : ∀ s, (f s).held = s.held) : Balanced I (modify f) :=
  Action.charges_modify hinv fun s => by rw [hheld s, add_zero]

theorem balanced_get (t : Table) (key : Key) : Balanced I (get t key) := Action.keeps_gets _

theorem balanced_releaseAll {release : Nat → Call Unit} (h : ∀ o, Balanced I (release o))
    (objects : List Nat) : Balanced I (releaseAll release objects) := by
  induction objects with
  | nil => exact Action.keeps_pure ()
  | cons o rest ih => exact Keeps.bind (h o) fun _ => ih

theorem balanced_failure (e : TypeInfo.ECode) : Balanced I (failure e) := by
  cases e with
  | undefined => exact Action.charges_stuck
  | invalidArgument => exact Action.keeps_pure _
  | invalidOperation => exact Action.keeps_pure _
  | outOfMemory => exact Action.keeps_pure _

theorem balanced_acquireCarArrayElementTypeInfo
    {sub : Nat → TypePtr → Bool → Call (Except ECode Nat)} (hsub : ∀ c t check, Balanced I (sub c t check))
    (c : Nat) (typeDesc : TypeInfo.Content) :
    Balanced I (acquireCarArrayElementTypeInfo sub c typeDesc) := by
  unfold acquireCarArrayElementTypeInfo
  split
  · cases typeDesc.nested with
    | none => exact Action.keeps_pure _
    | some a => exact hsub c _ _
  · exact Action.keeps_pure _

variable [Kept I]

theorem charges_lockHashTable : Charges I CObjInfoList.held (lockHashTable type) (lockCalls type) :=
  Action.charges_modify (fun _ => Kept.rest rfl rfl rfl) fun _ => rfl

/-- A lock that is taken, and given back on every way through the rest. -/
theorem balanced_lock {g : Unit → Call β} (hg : Leaves I type (g ())) :
    Balanced I (lockHashTable type >>= g) :=
  Charges.bracket charges_lockHashTable fun _ => hg

theorem leaves_unlockHashTable : Leaves I type (unlockHashTable type) :=
  Action.charges_modify (fun _ => Kept.rest rfl rfl rfl) fun s => sub_eq_add_neg s.held _

theorem leaves_unlock {g : Unit → Call β} (hg : Balanced I (g ())) :
    Leaves I type (unlockHashTable type >>= g) := by
  have hunlock : Leaves I type (unlockHashTable type) := leaves_unlockHashTable
  have h := Charges.bind hunlock fun _ => hg
  rwa [add_zero] at h

/-- An exit: the lock is given back, and an answer. -/
theorem leaves_exit (a : α) : Leaves I type (do unlockHashTable type; pure a) :=
  leaves_unlock (Action.keeps_pure a)

/-! ### The registry -/

theorem balanced_alloc : Balanced I alloc := by
  intro s a s' hs hrun
  unfold alloc at hrun
  split at hrun
  · cases hrun
    exact ⟨hs, (add_zero _).symm⟩
  · cases hrun
    exact ⟨Kept.rest (s := s) rfl rfl rfl hs, (add_zero _).symm⟩

theorem balanced_allocMany (n : Nat) : Balanced I (allocMany n) := by
  induction n with
  | zero => exact Action.keeps_pure true
  | succ n ih =>
    refine Keeps.bind balanced_alloc fun granted => ?_
    exact Action.charges_ite ih (Action.keeps_pure false)

/-- A new object that is no class module. -/
theorem balanced_create {object : Object} (h : ∀ key, object.place ≠ .table .mClsModule key) :
    Balanced I (create object) := by
  intro s a s' hs hrun
  cases hrun
  exact ⟨Kept.create h hs, (add_zero _).symm⟩

theorem balanced_addRef (o : Nat) : Balanced I (addRef o) :=
  balanced_modify (fun _ => Kept.change o fun _ => ⟨rfl, Nat.le_succ _⟩) fun _ => rfl

theorem balanced_put {t : Table} (ht : t ≠ .mClsModule) (key : Key) (o : Nat) :
    Balanced I (put t key o) := by
  refine Keeps.bind balanced_alloc fun _ => Action.charges_ite ?_ (Action.keeps_pure false)
  have hset : Balanced I (setTable t key (some o)) :=
    balanced_modify (fun _ => Kept.put key o ht) fun _ => rfl
  exact Keeps.bind hset fun _ => Action.keeps_pure true

theorem balanced_addInfoNode (o : Nat) (head : Head) : Balanced I (addInfoNode o head) := by
  refine Keeps.bind balanced_alloc fun granted => Action.charges_ite ?_ (Action.keeps_pure false)
  refine Keeps.bind ?_ fun _ => Action.keeps_pure true
  exact balanced_modify (fun _ => Kept.rest rfl rfl rfl) fun _ => rfl

theorem balanced_setObject (o : Nat) (object : Option Object) :
    Balanced Any (setObject o object) :=
  balanced_modify (fun _ _ => trivial) fun _ => rfl

theorem balanced_setTable (t : Table) (key : Key) (o : Option Nat) :
    Balanced Any (setTable t key o) :=
  balanced_modify (fun _ _ => trivial) fun _ => rfl

theorem balanced_takeOut (o : Nat) (place : Place) : Balanced Any (takeOut o place) := by
  cases place with
  | table t key => exact balanced_setTable t key none
  | list h => exact balanced_modify (fun _ _ => trivial) fun _ => rfl
  | nowhere => exact Action.keeps_pure ()

theorem balanced_dropRef {release : Nat → Call Unit} (h : ∀ o, Balanced Any (release o)) (o : Nat)
    (object : Object) : Balanced Any (dropRef release o object) := by
  refine Action.charges_ite ?_ (balanced_setObject o _)
  -- the last reference: the object goes, and its members are let go of
  refine Keeps.bind (balanced_takeOut o _) fun _ => ?_
  exact Keeps.bind (balanced_setObject o none) fun _ => balanced_releaseAll h _

/-- A `Release` gives back the locks that it takes, those of the objects inside included. -/
theorem balanced_release (depth o : Nat) : Balanced I (release depth o) := by
  refine Charges.of_inv ?_ fun _ _ _ => Kept.release
  induction depth generalizing o with
  | zero => exact Action.charges_stuck
  | succ depth ih =>
    refine Keeps.bind (Action.keeps_gets _) fun object => ?_
    cases object with
    | none => exact Action.keeps_pure ()
    | some object =>
      have hdrop := balanced_dropRef ih o object
      dsimp only
      cases object.type with
      | none => exact hdrop
      | some type =>
        apply balanced_lock
        exact Keeps.bind hdrop fun _ => leaves_unlockHashTable

/-- An exit that lets go of an object once the lock is given back. -/
theorem leaves_release (depth o : Nat) (a : α) :
    Leaves I type (do unlockHashTable type; release depth o; pure a) :=
  leaves_unlock (Keeps.bind (balanced_release depth o) fun _ => Action.keeps_pure a)

/-- An exit with one more reference. -/
theorem leaves_addRef (o : Nat) (a : α) :
    Leaves I type (do addRef o; unlockHashTable type; pure a) :=
  Keeps.bind (balanced_addRef o) fun _ => leaves_exit a

/-! ### Modules -/

/-- A new object, whatever it is. -/
theorem balanced_createAny (object : Object) : Balanced Any (create object) := by
  intro s a s' hs hrun
  cases hrun
  exact ⟨trivial, (add_zero _).symm⟩

theorem balanced_putAny (t : Table) (key : Key) (o : Nat) : Balanced Any (put t key o) := by
  refine Keeps.bind balanced_alloc fun granted => Action.charges_ite ?_ (Action.keeps_pure false)
  exact Keeps.bind (balanced_setTable t key _) fun _ => Action.keeps_pure true

theorem balanced_newClsModule (library : Library) (name : Text) :
    Balanced Any (newClsModule library name) := by
  have hrelocate : Balanced Any (relocate library) :=
    Action.charges_ite balanced_alloc (Action.keeps_pure true)
  refine Action.charges_ite (Action.keeps_pure _) ?_
  refine Keeps.bind hrelocate fun relocated => Action.charges_ite ?_ (Action.keeps_pure _)
  refine Keeps.bind balanced_alloc fun granted => Action.charges_ite ?_ (Action.keeps_pure _)
  refine Keeps.bind (balanced_createAny _) fun o => ?_
  refine Keeps.bind (balanced_putAny _ _ o) fun stored => ?_
  -- a module that the table has no memory for is deleted
  refine Action.charges_ite (Action.keeps_pure _) ?_
  exact Keeps.bind (balanced_setObject o none) fun _ => Action.keeps_pure _

theorem balanced_loadModule (library : Library) (name : Text) :
    Balanced Any (loadModule library name) := by
  refine Keeps.bind (balanced_get _ _) fun found => Keeps.bind ?_ fun made => ?_
  · cases found with
    | none => exact balanced_newClsModule library name
    | some clsModule => exact Action.keeps_pure _
  · cases made with
    | error ec => exact Action.keeps_pure _
    | ok clsModule =>
      refine Keeps.bind balanced_alloc fun granted => Action.charges_ite ?_ ?_
      · refine Keeps.bind (balanced_addRef clsModule) fun _ => ?_
        refine Keeps.bind (balanced_createAny _) fun o => ?_
        refine Keeps.bind (balanced_putAny _ _ o) fun stored => ?_
        exact Action.charges_ite (Action.keeps_pure _) (Action.keeps_pure _)
      · refine Keeps.bind ?_ fun _ => Action.keeps_pure _
        exact Action.charges_ite (balanced_setObject clsModule none) (Action.keeps_pure _)

theorem balanced_acquireModuleInfo (W : World) (depth : Nat) (name : Option Text)
    (moduleInfo : Bool) : Balanced Any (acquireModuleInfo W depth name moduleInfo) := by
  cases name with
  | none => exact Action.keeps_pure _
  | some name =>
    refine Action.charges_ite (Action.keeps_pure _) ?_
    cases W.library name with
    | none => exact Action.keeps_pure _
    | some library =>
      apply balanced_lock
      refine Keeps.bind (balanced_get _ _) fun found => ?_
      cases found with
      | some o => exact leaves_addRef o _
      | none =>
        -- the second lock is taken and given back under the first
        have hinner : Balanced Any (do
            lockHashTable .ClsModule
            let r ← loadModule library name
            unlockHashTable .ClsModule
            pure r) := by
          apply balanced_lock
          exact Keeps.bind (balanced_loadModule library name) fun r => leaves_exit r
        have houter : ∀ r : Except (ECode × Option Nat) Nat, Leaves Any .Module (do
            unlockHashTable .Module
            match r with
            | .ok o => pure (.ok o)
            | .error (ec, none) => pure (.error ec)
            | .error (ec, some o) => do
              release depth o
              pure (.error ec) : Call (Except ECode Nat)) := by
          intro r
          apply leaves_unlock
          rcases r with ⟨ec, _ | o⟩ | o
          · exact Action.keeps_pure _
          · exact Keeps.bind (balanced_release depth o) fun _ => Action.keeps_pure _
          · exact Action.keeps_pure _
        have hboth := Keeps.bind hinner houter
        intro s a s' hs hrun
        apply hboth s a s' hs
        rw [← hrun]
        simp only [Action.bind_run, Action.pure_run, Option.bind_assoc, Option.bind_some]

/-! ### Tables -/

theorem balanced_hold (o member : Nat) : Balanced I (hold o member) := by
  refine Keeps.bind (balanced_addRef member) fun _ => ?_
  exact balanced_modify (fun _ => Kept.change o fun _ => ⟨rfl, Nat.le_refl _⟩) fun _ => rfl

theorem balanced_acquireInfo (depth : Nat) (type : EntryType) {table : Table}
    (htable : table ≠ .mClsModule) (key : Key) (info : Info) (object : Option Nat)
    {init : Nat → Call (Option ECode)} (hinit : ∀ o, Balanced I (init o)) :
    Balanced I (acquireInfo depth type table key info object init) := by
  apply balanced_lock
  cases object with
  | some o => exact leaves_exit _
  | none =>
    refine Keeps.bind (balanced_get table key) fun found => ?_
    cases found with
    | some o => exact leaves_addRef o _
    | none =>
      refine Keeps.bind balanced_alloc fun granted => Action.charges_ite ?_ (leaves_exit _)
      have hplace : ∀ key', Place.table table key ≠ .table .mClsModule key' := fun _ h =>
        htable (Place.table.inj h).1
      refine Keeps.bind (balanced_create hplace) fun o => ?_
      refine Keeps.bind (hinit o) fun failed => ?_
      cases failed with
      | some ec => exact leaves_release depth o _
      | none =>
        refine Keeps.bind (balanced_put htable key o) fun stored => ?_
        exact Action.charges_ite (leaves_exit _) (leaves_release depth o _)

theorem balanced_initEntry (W : World) (c : Nat) (key : Key) (o : Nat) :
    Balanced I (initEntry W c key o) := by
  refine Keeps.bind (balanced_hold o c) fun _ => ?_
  refine Keeps.bind (balanced_allocMany _) fun granted => ?_
  exact Action.charges_ite (Action.keeps_pure _) (Action.keeps_pure _)

theorem balanced_holdOnly (c o : Nat) :
    Balanced I (do hold o c; pure none : Call (Option ECode)) :=
  Keeps.bind (balanced_hold o c) fun _ => Action.keeps_pure none

section Entries

variable (W : World) (depth : Nat)

theorem balanced_acquireClassInfo (c i : Option Nat) (object : Option (Option Nat)) :
    Balanced I (acquireClassInfo W depth c i object) := by
  rcases c with _ | c <;> rcases i with _ | i <;> rcases object with _ | object
  case some.some.some => exact balanced_acquireInfo _ _ (by decide) _ _ _ (balanced_initEntry W c _)
  all_goals exact Action.keeps_pure _

theorem balanced_acquireStaticEnumInfo (c i : Option Nat) (object : Option (Option Nat)) :
    Balanced I (acquireStaticEnumInfo W depth c i object) := by
  rcases c with _ | c <;> rcases i with _ | i <;> rcases object with _ | object
  case some.some.some => exact balanced_acquireInfo _ _ (by decide) _ _ _ (balanced_initEntry W c _)
  all_goals exact Action.keeps_pure _

theorem balanced_acquireTypeAliasInfo (c i : Option Nat) (object : Option (Option Nat)) :
    Balanced I (acquireTypeAliasInfo depth c i object) := by
  rcases c with _ | c <;> rcases i with _ | i <;> rcases object with _ | object
  case some.some.some => exact balanced_acquireInfo _ _ (by decide) _ _ _ (balanced_holdOnly c)
  all_goals exact Action.keeps_pure _

theorem balanced_acquireInterfaceInfo (c : Option Nat) (index : Nat)
    (object : Option (Option Nat)) : Balanced I (acquireInterfaceInfo W depth c index object) := by
  rcases c with _ | c <;> rcases object with _ | object
  case some.some => exact balanced_acquireInfo _ _ (by decide) _ _ _ (balanced_initEntry W c _)
  all_goals exact Action.keeps_pure _

theorem balanced_acquireMethodInfo (c d : Option Nat) (index : Nat)
    (object : Option (Option Nat)) : Balanced I (acquireMethodInfo W depth c d index object) := by
  rcases c with _ | c <;> rcases d with _ | d <;> rcases object with _ | object
  case some.some.some => exact balanced_acquireInfo _ _ (by decide) _ _ _ (balanced_initEntry W c _)
  all_goals exact Action.keeps_pure _

theorem balanced_acquireLocalPtrInfo (c : Option Nat) (t : Option TypePtr) (pointer : Int)
    (localPtrInfo : Bool) : Balanced I (acquireLocalPtrInfo depth c t pointer localPtrInfo) := by
  rcases c with _ | c <;> rcases t with _ | t
  case some.some =>
    refine Action.charges_ite (Action.keeps_pure _) ?_
    exact balanced_acquireInfo _ _ (by decide) _ _ _ (balanced_holdOnly c)
  all_goals exact Action.keeps_pure _

theorem balanced_acquireConstantInfo (c i : Option Nat) (object : Option (Option Nat)) :
    Balanced I (acquireConstantInfo c i object) := by
  rcases c with _ | c <;> rcases i with _ | i <;> rcases object with _ | object
  case some.some.some =>
    apply balanced_lock
    cases object with
    | some o => exact leaves_exit _
    | none =>
      refine Keeps.bind balanced_alloc fun granted => Action.charges_ite ?_ (leaves_exit _)
      refine Keeps.bind (balanced_create fun _ h => by cases h) fun o => ?_
      refine Keeps.bind (balanced_hold o c) fun _ => ?_
      exact leaves_addRef o _
  all_goals exact Action.keeps_pure _

theorem balanced_acquireConstructorInfo (c d : Option Nat) (index : Nat) (clsId : Bool)
    (object : Option (Option Nat)) :
    Balanced I (acquireConstructorInfo W depth c d index clsId object) := by
  rcases c with _ | c <;> rcases d with _ | d <;> rcases object with _ | object
  case some.some.some =>
    refine Action.charges_ite (Action.keeps_pure _) ?_
    apply balanced_lock
    cases object with
    | some o => exact leaves_exit _
    | none =>
      refine Keeps.bind balanced_alloc fun granted => Action.charges_ite ?_ (leaves_exit _)
      refine Keeps.bind (balanced_create fun _ h => by cases h) fun o => ?_
      -- `Init` takes the same lock again
      refine Keeps.bind (balanced_acquireMethodInfo W depth _ _ _ _) fun answer => ?_
      cases answer with
      | error ec => exact leaves_release depth o _
      | ok method =>
        refine Keeps.bind (balanced_hold o method) fun _ => ?_
        exact Keeps.bind (balanced_release depth method) fun _ => leaves_exit _
  all_goals exact Action.keeps_pure _

end Entries

/-! ### Data types -/

theorem balanced_acquireSlot (type : EntryType) (look : CObjInfoList → Option Nat)
    {store : Nat → CObjInfoList → CObjInfoList} (hstore : ∀ o, Balanced I (modify (store o)))
    {make : Call Nat} (hmake : Balanced I make) : Balanced I (acquireSlot type look store make) := by
  apply balanced_lock
  refine Keeps.bind (Action.keeps_gets look) fun found => ?_
  have hanswer : ∀ o, Leaves I type (do
      unlockHashTable type
      addRef o
      pure (.ok o) : Call (Except ECode Nat)) := fun o =>
    leaves_unlock (Keeps.bind (balanced_addRef o) fun _ => Action.keeps_pure _)
  cases found with
  | some o => exact hanswer o
  | none =>
    refine Keeps.bind balanced_alloc fun granted => Action.charges_ite ?_ (leaves_exit _)
    refine Keeps.bind hmake fun o => ?_
    exact Keeps.bind (hstore o) fun _ => hanswer o

theorem balanced_acquireIntrinsicInfo (type : CarDataType) (out : Bool) :
    Balanced I (acquireIntrinsicInfo type out) := by
  refine Action.charges_ite (Action.keeps_pure _) ?_
  refine balanced_acquireSlot _ _ ?_ (balanced_create fun _ h => by cases h)
  exact fun o => balanced_modify (fun _ => Kept.rest rfl rfl rfl) fun _ => rfl

theorem balanced_acquireLocalTypeInfo (type : CARDataType) (out : Bool) :
    Balanced I (acquireLocalTypeInfo type out) := by
  refine Action.charges_ite (Action.keeps_pure _) ?_
  refine balanced_acquireSlot _ _ ?_ (balanced_create fun _ h => by cases h)
  exact fun o => balanced_modify (fun _ => Kept.rest rfl rfl rfl) fun _ => rfl

theorem balanced_acquireListed (depth : Nat) (head : Head) (candidate : Option Object → Bool)
    (info : Info) (element : Nat) :
    Balanced I (acquireListed depth head candidate info element) := by
  refine Keeps.bind (Action.keeps_gets _) fun nodes => ?_
  apply balanced_lock
  refine Keeps.bind (Action.keeps_gets _) fun objects => ?_
  cases findElement objects candidate element nodes with
  | none =>
    refine Keeps.bind balanced_alloc fun granted => Action.charges_ite ?_ (leaves_exit _)
    refine Keeps.bind (balanced_create fun _ h => by cases h) fun o => ?_
    refine Keeps.bind (balanced_hold o element) fun _ => ?_
    refine Keeps.bind (balanced_addInfoNode o head) fun stored => ?_
    exact Action.charges_ite (leaves_exit _) (leaves_release depth o _)
  | some answer =>
    cases answer with
    | error ec => exact leaves_exit _
    | ok o => exact leaves_addRef o _

theorem balanced_acquireCppVectorInfo (depth : Nat) (element : Option Nat) (length : Int)
    (out : Bool) : Balanced I (acquireCppVectorInfo depth element length out) := by
  cases element with
  | none => exact Action.keeps_pure _
  | some element => exact Action.charges_ite (Action.keeps_pure _) (balanced_acquireListed _ _ _ _ _)

theorem balanced_acquireCarArrayInfo (depth : Nat) (quintetType : CarDataType)
    (element : Option Nat) (out : Bool) :
    Balanced I (acquireCarArrayInfo depth quintetType element out) := by
  cases element with
  | none => exact Action.keeps_pure _
  | some element =>
    refine Action.charges_ite (Action.keeps_pure _) ?_
    refine Keeps.bind (Action.keeps_gets _) fun dataType => ?_
    cases dataType with
    | none => exact Action.charges_stuck
    | some dataType =>
      refine Action.charges_ite ?_ (balanced_acquireListed _ _ _ _ _)
      refine balanced_acquireSlot _ _ ?_ ?_
      · exact fun o => balanced_modify (fun _ => Kept.rest rfl rfl rfl) fun _ => rfl
      · refine Keeps.bind (balanced_create fun _ h => by cases h) fun o => ?_
        exact Keeps.bind (balanced_hold o element) fun _ => Action.keeps_pure o

section DataTypes

variable (W : World) (depth : Nat)

theorem balanced_initInfos (count : Nat) : Balanced I (DynamicTypes.initInfos count) := by
  refine Keeps.bind balanced_alloc fun granted => Action.charges_ite ?_ (Action.keeps_pure _)
  exact Keeps.bind (balanced_allocMany count) fun _ => Action.keeps_pure _

theorem balanced_initFieldTypes {field : Nat → Call (Except ECode Nat)}
    (hfield : ∀ a, Balanced I (field a)) (o : Nat) (types elems : List Nat) :
    Balanced I (initFieldTypes depth field o types elems) := by
  induction elems generalizing types with
  | nil => exact Action.keeps_pure _
  | cons elem rest ih =>
    refine Keeps.bind (hfield elem) fun answer => ?_
    cases answer with
    | error ec =>
      exact Keeps.bind (balanced_releaseAll (balanced_release depth) types) fun _ =>
        Action.keeps_pure _
    | ok type => exact ih (type :: types)

/-- The calls for the types of the elements are inside the lock of the struct. -/
theorem balanced_initStaticStruct {field : Nat → Call (Except ECode Nat)}
    (hfield : ∀ a, Balanced I (field a)) (c index o : Nat) :
    Balanced I (initStaticStruct W depth field c index o) := by
  have hdrop : ∀ (types : List Nat) (ec : ECode), Balanced I (do
      releaseAll (release depth) types
      pure (some ec) : Call (Option ECode)) := fun types _ =>
    Keeps.bind (balanced_releaseAll (balanced_release depth) types) fun _ => Action.keeps_pure _
  refine Keeps.bind (balanced_hold o c) fun _ => ?_
  refine Keeps.bind (balanced_allocMany 2) fun granted => Action.charges_ite ?_ (Action.keeps_pure _)
  refine Keeps.bind (balanced_initFieldTypes depth hfield o _ _) fun answer => ?_
  cases answer with
  | error ec => exact Action.keeps_pure _
  | ok types =>
    refine Keeps.bind balanced_alloc fun granted => Action.charges_ite ?_ (hdrop types _)
    cases DynamicTypes.initFieldElement W.layout (types.map fun type => (none, type)) with
    | none => exact Action.charges_stuck
    | some layout =>
      refine Keeps.bind (balanced_initInfos _) fun infos => ?_
      cases infos with
      | error ec => exact hdrop types ec
      | ok _ =>
        have hmembers : ∀ object : Object, object.place = object.place ∧ object.mRef ≤ object.mRef :=
          fun object => ⟨rfl, Nat.le_refl _⟩
        refine Keeps.bind ?_ fun _ => Action.keeps_pure _
        exact balanced_modify (fun _ => Kept.change o hmembers) fun _ => rfl

theorem balanced_acquireStaticStructInfo {field : Nat → Nat → Call (Except ECode Nat)}
    (hfield : ∀ c a, Balanced I (field c a)) (c i : Option Nat) (object : Option (Option Nat)) :
    Balanced I (acquireStaticStructInfo W depth field c i object) := by
  rcases c with _ | c <;> rcases i with _ | i <;> rcases object with _ | object
  case some.some.some =>
    exact balanced_acquireInfo _ _ (by decide) _ _ _ (balanced_initStaticStruct W depth (hfield c) c i)
  all_goals exact Action.keeps_pure _

theorem balanced_initOrgType (c : Nat) (t : TypePtr) : Balanced I (initOrgType W c t) := by
  refine Keeps.bind (Action.keeps_gets _) fun made => ?_
  cases TypeInfo.content byteLevels (W.types.module c) t with
  | none => exact Action.keeps_pure _
  | some d =>
    refine Action.charges_ite ?_ (Action.keeps_pure _)
    refine Keeps.bind (balanced_allocMany _) fun granted => ?_
    refine Action.charges_ite ?_ (Action.keeps_pure _)
    refine Keeps.bind ?_ fun _ => Action.keeps_pure _
    exact balanced_modify (fun _ => Kept.rest rfl rfl rfl) fun _ => rfl

variable {sub : Nat → TypePtr → Bool → Call (Except ECode Nat)}

/-- With the type of an element at hand, a vector or an array is acquired, and the element is
let go of. -/
theorem balanced_ofElement {f : Call (Except ECode Nat)} (hf : Balanced I f)
    {g : Nat → Call (Except ECode Nat)} (hg : ∀ element, Balanced I (g element)) :
    Balanced I (do
      match ← f with
      | .error ec => pure (.error ec)
      | .ok element => do
        let answer ← g element
        release depth element
        pure answer : Call (Except ECode Nat)) := by
  refine Keeps.bind hf fun r => ?_
  cases r with
  | error ec => exact Action.keeps_pure _
  | ok element =>
    refine Keeps.bind (hg element) fun answer => ?_
    exact Keeps.bind (balanced_release depth element) fun _ => Action.keeps_pure _

theorem balanced_acquireByType (hsub : ∀ c t check, Balanced I (sub c t check)) (c : Nat)
    (r : Resolved) (check : Bool) : Balanced I (acquireByType W depth sub c r check) := by
  unfold acquireByType
  split
  · exact balanced_acquireLocalPtrInfo depth _ _ _ _
  · exact balanced_acquireLocalTypeInfo _ _
  · exact balanced_acquireStaticStructInfo W depth (fun c a => hsub c _ _) _ _ _
  · exact balanced_acquireInterfaceInfo W depth _ _ _
  · exact balanced_acquireStaticEnumInfo W depth _ _ _
  · exact balanced_ofElement depth (hsub c _ _) fun element =>
      balanced_acquireCppVectorInfo depth _ _ _
  · exact balanced_ofElement depth (balanced_acquireCarArrayElementTypeInfo hsub c _) fun element =>
      balanced_acquireCarArrayInfo depth _ _ _
  · exact balanced_acquireIntrinsicInfo _ _

/-- However deep the types are nested, the locks of the inner calls are given back. -/
theorem balanced_acquireDataTypeInfo (n c : Nat) (t : TypePtr) (check : Bool) :
    Balanced I (acquireDataTypeInfo W depth n c t check) := by
  induction n generalizing c t check with
  | zero => exact Action.charges_stuck
  | succ n ih =>
    refine Keeps.bind (balanced_initOrgType W c t) fun made => ?_
    refine Action.charges_ite ?_ (Action.keeps_pure _)
    cases resolveType byteLevels (W.types.module c) t check with
    | error e => exact balanced_failure e
    | ok r => exact balanced_acquireByType W depth ih c r check

end DataTypes

/-! ### Dynamic types -/

theorem balanced_initDynamicStruct (W : DynamicTypes.World) (name : Text)
    (fields : List (Option Text × Nat)) :
    Balanced I (DynamicTypes.initDynamicStruct W name fields) := by
  refine Keeps.bind balanced_alloc fun granted => Action.charges_ite ?_ (Action.keeps_pure _)
  cases DynamicTypes.initFieldElement W fields with
  | none => exact Action.charges_stuck
  | some layout =>
    refine Keeps.bind (balanced_initInfos _) fun infos => ?_
    cases infos with
    | error ec => exact Action.keeps_pure _
    | ok _ => exact Action.keeps_pure _

theorem leaves_makeStruct (W : DynamicTypes.World) (name : Text)
    (fields : List (Option Text × Nat)) :
    Leaves I .Struct (DynamicTypes.makeStruct W name fields) := by
  refine Charges.of_inv ?_ fun _ _ _ => Kept.makeStruct
  refine Keeps.bind balanced_alloc fun granted => Action.charges_ite ?_ (leaves_exit _)
  refine Keeps.bind (balanced_createAny _) fun o => ?_
  refine Keeps.bind (balanced_initDynamicStruct W name fields) fun made => ?_
  cases made with
  | error ec => exact leaves_release 1 o _
  | ok info =>
    refine Keeps.bind (balanced_setObject o _) fun _ => ?_
    refine Keeps.bind (balanced_addInfoNode o _) fun stored => ?_
    exact Action.charges_ite (leaves_exit _) (leaves_release 1 o _)

theorem balanced_acquireDynamicStructInfo (W : DynamicTypes.World) (name : Option Text)
    (fieldNames : Option (List (Option Text))) (fieldTypeInfos : Option (List Nat)) (out : Bool) :
    Balanced I (DynamicTypes.acquireDynamicStructInfo W name fieldNames fieldTypeInfos out) := by
  rcases name with _ | name <;> rcases fieldNames with _ | names <;>
    rcases fieldTypeInfos with _ | types
  case some.some.some =>
    refine Action.charges_ite (Action.keeps_pure _) ?_
    refine Keeps.bind (Action.keeps_gets _) fun head => ?_
    apply balanced_lock
    refine Keeps.bind (Action.keeps_gets _) fun objects => ?_
    cases DynamicTypes.findStruct objects name (names.zip types) head with
    | none => exact leaves_makeStruct W name _
    | some answer =>
      cases answer with
      | error ec => exact leaves_exit _
      | ok o => exact leaves_addRef o _
  all_goals exact Action.keeps_pure _

theorem leaves_makeEnum (fullName : Text) (items : List (Option Text × Int)) :
    Leaves I .Enum (DynamicTypes.makeEnum fullName items) := by
  refine Charges.of_inv ?_ fun _ _ _ => Kept.makeEnum
  refine Keeps.bind balanced_alloc fun granted => Action.charges_ite ?_ (leaves_exit _)
  refine Keeps.bind (balanced_createAny _) fun o => Keeps.bind ?_ fun made => ?_
  · refine Keeps.bind (balanced_initInfos _) fun infos => ?_
    cases infos with
    | error ec => exact Action.keeps_pure _
    | ok _ => exact Action.keeps_pure _
  · cases made with
    | error ec => exact leaves_release 1 o _
    | ok info =>
      refine Keeps.bind (balanced_setObject o _) fun _ => ?_
      refine Keeps.bind (balanced_addInfoNode o _) fun stored => ?_
      exact Action.charges_ite (leaves_exit _) (leaves_release 1 o _)

end Balance

/-! ## The enumeration that is found -/

section Found

open DynamicTypes (splitFullName enumOf findEnum itemsLoop)

/-- The enumeration has the name and the namespace that the full name is split into. -/
def SameName (fullName : Text) (info : CEnumInfo) : Prop :=
  (splitFullName fullName).1 = info.mName ∧ (splitFullName fullName).2 = info.mNamespace

/-- An enumeration of the name with as many items, which are the same if it is not an anonymous
one. -/
def Matches (objects : Nat → Option Object) (fullName : Text) (items : List (Option Text × Int))
    (o : Nat) : Prop :=
  ∃ info, enumOf (objects o) = some info ∧ SameName fullName info ∧
    info.items.length = items.length ∧ ((splitFullName fullName).1 = [] ∨ items = info.items)

/-- An enumeration of another name, or an anonymous one with another number of items. -/
def Passes (objects : Nat → Option Object) (fullName : Text) (items : List (Option Text × Int))
    (o : Nat) : Prop :=
  ∀ info, enumOf (objects o) = some info → SameName fullName info →
    (splitFullName fullName).1 = [] ∧ info.items.length ≠ items.length

/-- The list of the enumerations has the one that is asked for, after others that the request
has nothing to do with. -/
def FindsEnum (s : CObjInfoList) : Op → Prop
  | .dynamicEnum (some fullName) (some itemNames) (some itemValues) true =>
    itemNames.length = itemValues.length ∧
      ∃ before node after, s.heads .mEnumInfoHead = before ++ node :: after ∧
        Matches s.objects fullName (itemNames.zip itemValues) node ∧
        ∀ o ∈ before, Passes s.objects fullName (itemNames.zip itemValues) o
  | _ => False

/-- The first element of a kind is the head, or the head is passed. -/
theorem exists_split_cons {α : Type} {M P : α → Prop} {a : α} {l : List α} :
    (∃ before x after, a :: l = before ++ x :: after ∧ M x ∧ ∀ y ∈ before, P y) ↔
      M a ∨ P a ∧ ∃ before x after, l = before ++ x :: after ∧ M x ∧ ∀ y ∈ before, P y := by
  constructor
  · rintro ⟨before, x, after, heq, hx, hbefore⟩
    cases before with
    | nil =>
      cases heq
      exact Or.inl hx
    | cons b before =>
      rw [List.cons_append, List.cons.injEq] at heq
      refine Or.inr ⟨heq.1 ▸ hbefore b List.mem_cons_self, before, x, after, heq.2, hx, ?_⟩
      exact fun y hy => hbefore y (List.mem_cons_of_mem b hy)
  · rintro (ha | ⟨ha, before, x, after, heq, hx, hbefore⟩)
    · exact ⟨[], a, l, rfl, ha, fun y hy => absurd hy List.not_mem_nil⟩
    · refine ⟨a :: before, x, after, by rw [heq, List.cons_append], hx, ?_⟩
      intro y hy
      rcases List.mem_cons.mp hy with rfl | hy
      · exact ha
      · exact hbefore y hy

variable {objects : Nat → Option Object} {fullName : Text} {items : List (Option Text × Int)}

/-- What the walk makes of one enumeration. -/
theorem findEnum_cons (o : Nat) (rest : List Nat) :
    (∃ found, findEnum objects fullName items (o :: rest) = some (.ok found)) ↔
      Matches objects fullName items o ∨ Passes objects fullName items o ∧
        ∃ found, findEnum objects fullName items rest = some (.ok found) := by
  rw [findEnum]
  -- an object of another kind is passed
  cases hinfo : enumOf (objects o) with
  | none =>
    have hpass : Passes objects fullName items o := fun info h => by rw [hinfo] at h; cases h
    have hmatch : ¬ Matches objects fullName items o := by
      rintro ⟨info, h, -⟩
      rw [hinfo] at h
      cases h
    rw [or_iff_right hmatch, and_iff_right hpass]
  | some info =>
    have hmatch : Matches objects fullName items o ↔ SameName fullName info ∧
        info.items.length = items.length ∧
          ((splitFullName fullName).1 = [] ∨ items = info.items) := by
      constructor
      · rintro ⟨info', h, hrest⟩
        rw [hinfo] at h
        cases h
        exact hrest
      · exact fun h => ⟨info, hinfo, h⟩
    have hpass : Passes objects fullName items o ↔ (SameName fullName info →
        (splitFullName fullName).1 = [] ∧ info.items.length ≠ items.length) := by
      constructor
      · exact fun h => h info hinfo
      · intro h info' h'
        rw [hinfo] at h'
        cases h'
        exact h
    rw [hmatch, hpass]
    -- one of another name too; of the same name, the items decide
    by_cases hname : SameName fullName info
    · dsimp only
      rw [if_pos (show _ ∧ _ from hname)]
      -- of which an anonymous one has only the number compared
      by_cases hanon : (splitFullName fullName).1 = []
      · have hloop := DynamicTypes.itemsLoop_anonymous items info.items
        by_cases hlen : info.items.length = items.length
        · simp [hname, hanon, hlen, hloop]
        · simp [hname, hanon, hlen]
      · have hnamed : (splitFullName fullName).1.isEmpty = false := by simpa using hanon
        by_cases hlen : info.items.length = items.length
        · have hloop := @DynamicTypes.itemsLoop_named items _ hlen
          by_cases hitems : items = info.items
          · have hsame := hloop.mpr hitems
            refine iff_of_true ⟨o, ?_⟩ (Or.inl ⟨hname, hlen, Or.inr hitems⟩)
            simp [hlen, hnamed, hsame]
          · simp [hname, hanon, hlen, hnamed, hitems, hloop]
        · simp [hname, hanon, hlen, hnamed]
    · dsimp only
      rw [if_neg (show ¬ (_ ∧ _) from hname)]
      simp [hname]

theorem findEnum_iff (head : List Nat) :
    (∃ found, findEnum objects fullName items head = some (.ok found)) ↔
      ∃ before node after, head = before ++ node :: after ∧
        Matches objects fullName items node ∧ ∀ o ∈ before, Passes objects fullName items o := by
  induction head with
  | nil => simp [findEnum]
  | cons o rest ih => rw [findEnum_cons, exists_split_cons, ih]

/-- A request for an enumeration that is not found gives the lock back. -/
theorem acquireDynamicEnumInfo_missing {I : CObjInfoList → Prop} [Kept I] {s s' : CObjInfoList}
    {names : List (Option Text)} {values : List Int} (hs : I s)
    (hlen : names.length = values.length) {answer : Except ECode Nat}
    (hrun : DynamicTypes.acquireDynamicEnumInfo (some fullName) (some names) (some values) true s =
      some (answer, s'))
    (hfind : ¬ ∃ o, findEnum s.objects fullName (names.zip values) (s.heads .mEnumInfoHead) =
      some (.ok o)) :
    I s' ∧ s'.held = s.held := by
  have hlocked : I { s with held := s.held + lockCalls .Enum } := Kept.rest (s := s) rfl rfl rfl hs
  simp only [DynamicTypes.acquireDynamicEnumInfo] at hrun
  rw [if_neg (by simp [hlen])] at hrun
  simp only [Action.bind_run, Action.gets_run, lockHashTable, Action.modify_run,
    Option.bind_some] at hrun
  have hleaves : ∀ {f : Call (Except ECode Nat)}, Leaves I .Enum f →
      f { s with held := s.held + lockCalls .Enum } = some (answer, s') →
        I s' ∧ s'.held = s.held := by
    intro f hf hcall
    rcases hf _ _ _ hlocked hcall with ⟨hs', hheld⟩
    exact ⟨hs', hheld.trans (add_neg_cancel_right _ _)⟩
  cases hwalk : findEnum s.objects fullName (names.zip values) (s.heads .mEnumInfoHead) with
  | none =>
    rw [hwalk] at hrun
    exact hleaves (leaves_makeEnum fullName _) hrun
  | some r =>
    rw [hwalk] at hrun
    cases r with
    | error ec => exact hleaves (leaves_exit _) hrun
    | ok o => exact absurd ⟨o, hwalk⟩ hfind

/-- One that is found does not. -/
theorem acquireDynamicEnumInfo_found {s : CObjInfoList} {names : List (Option Text)}
    {values : List Int} (hlen : names.length = values.length) {o : Nat}
    (hfind : findEnum s.objects fullName (names.zip values) (s.heads .mEnumInfoHead) =
      some (.ok o)) :
    ∃ s', DynamicTypes.acquireDynamicEnumInfo (some fullName) (some names) (some values) true s =
        some (.ok o, s') ∧ s'.held = s.held + lockCalls .Enum ∧
      ∀ {I : CObjInfoList → Prop} [Kept I], I s → I s' := by
  simp only [DynamicTypes.acquireDynamicEnumInfo]
  rw [if_neg (by simp [hlen])]
  simp only [Action.bind_run, Action.gets_run, lockHashTable, Action.modify_run, Option.bind_some,
    hfind]
  refine ⟨_, rfl, rfl, fun hs => ?_⟩
  exact Kept.change o (fun _ => ⟨rfl, Nat.le_succ _⟩) (Kept.rest (s := s) rfl rfl rfl hs)

end Found

/-! ## Every call -/

theorem balanced_unanswered {I : CObjInfoList → Prop} {call : Call (Except ECode Nat)}
    (h : Balanced I call) : Balanced I (unanswered call) :=
  Keeps.bind h fun _ => Action.keeps_pure ()

theorem lockCalls_enum_ne_zero : lockCalls .Enum ≠ 0 :=
  fun h => absurd (congrFun h .mLockEnum) (by decide)

section Steps

variable {I : CObjInfoList → Prop} [Kept I] (W : World) (depth : Nat)

/-- The locks that a call has taken when it comes back, it has given back, unless it is a
request for an enumeration that is found; a call that loads a module is left to what the
invariant says of it. -/
theorem call_held {op : Op} {s s' : CObjInfoList} (hs : I s)
    (hmodule : ∀ name out, op = .moduleInfo name out →
      Balanced I (acquireModuleInfo W depth name out))
    (hrun : op.call W depth s = some ((), s')) (hfound : ¬ FindsEnum s op) :
    I s' ∧ s'.held = s.held := by
  have hdone : ∀ {call : Call (Except ECode Nat)}, Balanced I call →
      unanswered call s = some ((), s') → I s' ∧ s'.held = s.held := by
    intro call hcall h
    have hkept := balanced_unanswered hcall
    exact ⟨(hkept _ _ _ hs h).1, hkept.eq hs h⟩
  have hinvalid : Balanced I (pure (.error E_INVALID_ARGUMENT) : Call (Except ECode Nat)) :=
    Action.keeps_pure _
  -- one case for each function of the list; each has its own lemma
  cases op with
  | moduleInfo name out => exact hdone (hmodule name out rfl) hrun
  | classInfo c i object => exact hdone (balanced_acquireClassInfo W depth c i object) hrun
  | staticStruct c i object =>
    refine hdone (balanced_acquireStaticStructInfo W depth ?_ c i object) hrun
    exact fun c a => balanced_acquireDataTypeInfo W depth depth c _ _
  | dynamicStruct name names types out =>
    exact hdone (balanced_acquireDynamicStructInfo W.layout name names types out) hrun
  | staticEnum c i object => exact hdone (balanced_acquireStaticEnumInfo W depth c i object) hrun
  | dynamicEnum fullName names values out =>
    -- the one that can return without unlocking
    rcases fullName with _ | fullName <;> rcases names with _ | names <;>
      rcases values with _ | values
    case some.some.some =>
      by_cases hargs : out = false ∨ names.length ≠ values.length
      · refine hdone ?_ hrun
        simp only [DynamicTypes.acquireDynamicEnumInfo, if_pos hargs]
        exact hinvalid
      · have hout : out = true := by simpa using (not_or.mp hargs).1
        have hlen : names.length = values.length := not_not.mp (not_or.mp hargs).2
        subst hout
        simp only [Op.call, unanswered, Action.bind_run, Option.bind_eq_some_iff] at hrun
        rcases hrun with ⟨⟨answer, s''⟩, hcall, hend⟩
        cases hend
        apply acquireDynamicEnumInfo_missing hs hlen hcall
        rw [findEnum_iff]
        exact fun h => hfound ⟨hlen, h⟩
    all_goals exact hdone hinvalid hrun
  | typeAlias c i object => exact hdone (balanced_acquireTypeAliasInfo depth c i object) hrun
  | interface c index object =>
    exact hdone (balanced_acquireInterfaceInfo W depth c index object) hrun
  | method c d index object => exact hdone (balanced_acquireMethodInfo W depth c d index object) hrun
  | dataType c t out check =>
    rcases c with _ | c <;> rcases t with _ | t <;> cases out
    case some.some.true => exact hdone (balanced_acquireDataTypeInfo W depth depth c t check) hrun
    all_goals exact hdone hinvalid hrun
  | carArrayElement c typeDesc =>
    refine hdone (balanced_acquireCarArrayElementTypeInfo ?_ c typeDesc) hrun
    exact fun c t check => balanced_acquireDataTypeInfo W depth depth c t check
  | intrinsic type out => exact hdone (balanced_acquireIntrinsicInfo type out) hrun
  | localType type out => exact hdone (balanced_acquireLocalTypeInfo type out) hrun
  | localPtr c t pointer out => exact hdone (balanced_acquireLocalPtrInfo depth c t pointer out) hrun
  | cppVector element length out =>
    exact hdone (balanced_acquireCppVectorInfo depth element length out) hrun
  | carArray quintetType element out =>
    exact hdone (balanced_acquireCarArrayInfo depth quintetType element out) hrun
  | constant c i object => exact hdone (balanced_acquireConstantInfo c i object) hrun
  | constructor c d index clsId object =>
    exact hdone (balanced_acquireConstructorInfo W depth c d index clsId object) hrun
  | cbMethod =>
    have hpure : Balanced I (pure () : Call Unit) := Action.keeps_pure ()
    exact ⟨(hpure _ _ _ hs hrun).1, hpure.eq hs hrun⟩
  | release o =>
    have hrelease : Balanced I (InfoList.release depth o) := balanced_release depth o
    exact ⟨(hrelease _ _ _ hs hrun).1, hrelease.eq hs hrun⟩

/-- A request for an enumeration that is found keeps the lock. -/
theorem call_found {op : Op} {s : CObjInfoList} (hfound : FindsEnum s op) :
    ∃ s', op.call W depth s = some ((), s') ∧ s'.held = s.held + lockCalls .Enum ∧
      ∀ {I : CObjInfoList → Prop} [Kept I], I s → I s' := by
  rcases op with _ | _ | _ | _ | _ | ⟨_ | fullName, _ | names, _ | values, _ | _⟩ | _ | _ | _ | _ |
    _ | _ | _ | _ | _ | _ | _ | _ | _ | _ <;> try exact absurd hfound id
  rcases hfound with ⟨hlen, hsplit⟩
  rcases (findEnum_iff _).mpr hsplit with ⟨o, hfind⟩
  rcases acquireDynamicEnumInfo_found hlen hfind with ⟨s', hcall, hheld, hkept⟩
  exact ⟨s', by simp [Op.call, unanswered, hcall], hheld, hkept⟩

/-- An invariant is kept by every call, if it is by those that load a module. -/
theorem call_kept {op : Op} {s s' : CObjInfoList} (hs : I s)
    (hmodule : ∀ name out, op = .moduleInfo name out →
      Balanced I (acquireModuleInfo W depth name out))
    (hrun : op.call W depth s = some ((), s')) : I s' := by
  by_cases hfound : FindsEnum s op
  · rcases call_found W depth hfound with ⟨s'', hrun', -, hkept⟩
    rw [hrun] at hrun'
    cases hrun'
    exact hkept hs
  · exact (call_held W depth hs hmodule hrun hfound).1

end Steps

/-- From any state of the registry, every call of a run leaves all locks as they were, and so
free if they were free, exactly if none finds a dynamic enumeration that is there already. -/
theorem lock_balance_iff (W : World) (depth : Nat) (s : CObjInfoList)
    (events : List (Op × List Bool)) :
    (registry W depth).AllStates (fun s' => s'.held = s.held) s events ↔
      (registry W depth).AllSteps (fun s e => ¬ FindsEnum s e.1) s events := by
  have hfinds : ∀ (s : CObjInfoList) (e : Op × List Bool),
      FindsEnum { s with allocs := e.2 } e.1 ↔ FindsEnum s e.1 := by
    rintro s ⟨op, allocs⟩
    cases op <;> exact Iff.rfl
  refine (registry W depth).allStates_iff_allSteps (I := fun s' => s'.held = s.held)
    (fun s' h => h) ?_ ?_ rfl events
  · intro s' e h hfound
    simp only [registry]
    cases hrun : e.1.call W depth { s' with allocs := e.2 } with
    | none => exact h
    | some r =>
      have hmodules : ∀ name out, e.1 = .moduleInfo name out →
          Balanced Any (acquireModuleInfo W depth name out) := fun name out _ =>
        balanced_acquireModuleInfo W depth name out
      rcases call_held W depth trivial hmodules hrun (mt (hfinds s' e).mp hfound) with ⟨-, hheld⟩
      exact hheld.trans h
  · intro s' e h hfound
    rcases call_found W depth ((hfinds s' e).mpr (not_not.mp hfound)) with
      ⟨s'', hrun, hheld, -⟩
    have hstep : (registry W depth).step s' e = s'' := by
      simp only [registry, hrun, Option.map_some, Option.getD_some]
    rw [hstep, hheld, h]
    exact fun heq => lockCalls_enum_ne_zero (add_eq_left.mp heq)

/-- No libraries, and modules without anything in them. -/
def bareWorld : World where
  types :=
    { module := fun _ =>
        { desc := fun _ => ⟨.int32, 0, 0, none⟩
          structs := fun _ => []
          arrays := fun _ => (0, 0)
          aliases := []
          iid := id }
      typeSize := fun _ => 4
      dataTypeSize := fun _ => 4 }
  library _ := none
  layout := DynamicTypes.wordWorld
  initAllocs _ := 0
  initFails _ := none

/-- The enumeration `A` is asked for twice. -/
def sameEnumTwice : List (Op × List Bool) :=
  [(.dynamicEnum (some ['A']) (some [some ['x']]) (some [1]) true, []),
    (.dynamicEnum (some ['A']) (some [some ['x']]) (some [1]) true, [])]

theorem found_enum_keeps_lock :
    ((registry bareWorld 0).run .empty sameEnumTwice).held .mLockEnum = 1 ∧
      ¬ (registry bareWorld 0).AllStates (fun s => s.held = 0) .empty sameEnumTwice := by
  have hheld : ((registry bareWorld 0).run .empty sameEnumTwice).held .mLockEnum = 1 := by rfl
  refine ⟨hheld, ?_⟩
  intro h
  have hzero := congrFun h.last .mLockEnum
  rw [hheld] at hzero
  cases hzero

end SuperExe.Reflection.LockBalance
