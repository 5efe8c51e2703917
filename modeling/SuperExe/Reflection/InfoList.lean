import SuperExe.Lib.Action
import SuperExe.Reflection.EntryList
import SuperExe.Reflection.ObjInfoList
import Mathlib.Algebra.Group.Pi.Basic
import Mathlib.Algebra.Group.Int.Defs

/-! # The registry of the info objects

`CObjInfoList` (`reflection/CObjInfoList.h`) with its locks, its tables and lists, and the
objects they lead to. An object is found at its address; addresses are numbered in the
order of their use. A table or a list does not hold the object it names: `Release` of the
last reference takes the object out of it, under the lock of its kind.

An `AutoPtr` that hands its object on is written without the reference it adds and gives
back again.
-/

namespace SuperExe.Reflection.InfoList

open SuperExe.Lib
open Entries (EntryType)
open TypeInfo (CARDataType CarDataType TypePtr)

/-! ## Locks -/

/-- The mutexes of `CObjInfoList`, which are recursive. -/
inductive Lock where
  | mLockTypeAlias | mLockEnum | mLockClass | mLockStruct | mLockMethod | mLockInterface
  | mLockModule | mLockDataType | mLockLocal | mLockClsModule
deriving DecidableEq, Repr

/-- The mutex of a type in `LockHashTable` and in `UnlockHashTable`. -/
def lockOf : EntryType → Option Lock
  | .Module => some .mLockModule
  | .Aspect | .Aggregatee | .Class => some .mLockClass
  | .ClassInterface | .Interface => some .mLockInterface
  | .Struct => some .mLockStruct
  | .Constant | .Enum => some .mLockEnum
  | .TypeAliase => some .mLockTypeAlias
  | .Constructor | .CBMethod | .Method => some .mLockMethod
  | .DataType => some .mLockDataType
  | .Local => some .mLockLocal
  | .ClsModule => some .mLockClsModule
  | .Field | .EnumItem | .Parameter => none

/-- What one call of `LockHashTable` adds for each mutex. -/
def lockCalls (type : EntryType) : Lock → Int := fun l => if lockOf type = some l then 1 else 0

/-! ## Objects -/

abbrev Text := List Char

inductive ECode where
  | E_INVALID_ARGUMENT
  | E_OUT_OF_MEMORY
  | E_DATAINFO_EXIST
  | E_FILE_NOT_FOUND
  | E_DOES_NOT_EXIST
  | E_INVALID_OPERATION
deriving DecidableEq, Repr

/-- A `CEnumInfo` that `InitDynamic` has filled: the items are `mItemNames` with
`mItemValues`, where a name may be null; `hasItemInfos` says that `mItemInfos` is there. -/
structure CEnumInfo where
  mName : Text
  mNamespace : Text
  items : List (Option Text × Int)
  hasItemInfos : Bool
deriving DecidableEq, Repr

structure StructFieldDesc where
  mType : CarDataType
  mSize : UInt32
  mPos : UInt32
  mName : Option Text
deriving DecidableEq, Repr

/-- A `CStructInfo` that `InitDynamic` has filled: the fields are `mFieldNames` with the
addresses in `mFieldTypeInfos`. -/
structure CStructInfo where
  mName : Text
  fields : List (Option Text × Nat)
  mStructFieldDesc : List StructFieldDesc
  mSize : UInt32
  hasFieldInfos : Bool
deriving DecidableEq, Repr

/-- What an object is, as far as the registry looks at it. -/
inductive Info where
  | dynamicEnum (info : CEnumInfo)
  | dynamicStruct (info : CStructInfo)
  | cppVector (element : Nat) (length : Int)
  | carArray (element : Nat)
  /-- any other `IDataTypeInfo` -/
  | dataType (type : CarDataType)
  /-- an object that is no `IDataTypeInfo` -/
  | entry
deriving DecidableEq, Repr

inductive Table where
  | mTypeAliasInfos | mEnumInfos | mClassInfos | mStructInfos | mMethodInfos | mIFInfos
  | mModInfos | mLocalPtrInfos | mClsModule
deriving DecidableEq, Repr

/-- A key of a table: a path, the address of an entry of a module, the id of an interface,
or an address with a number. -/
inductive Key where
  | path (name : Text)
  | entry (clsModule index : Nat)
  | iid (iid : Nat)
  | method (clsModule methodDescriptor index : Nat)
  | localPtr (clsModule : Nat) (typeDescriptor : TypePtr) (pointer : Int)
deriving DecidableEq, Repr

/-- The lists of `InfoLinkNode`. -/
inductive Head where
  | mEnumInfoHead | mCCppVectorHead | mStructInfoHead | mCarArrayInfoHead
deriving DecidableEq, Repr

/-- Where the last `Release` of an object takes it out. -/
inductive Place where
  | table (t : Table) (key : Key)
  | list (h : Head)
  | nowhere
deriving DecidableEq, Repr

/-- An object: the lock that its `Release` takes, its references, its place, and the
objects that it holds. -/
structure Object where
  type : Option EntryType
  mRef : Nat
  place : Place
  members : List Nat
  info : Info
deriving DecidableEq, Repr

/-! ## The registry -/

/-- `held` counts, for each mutex, the calls of `LockHashTable` without those of
`UnlockHashTable`. `allocs` says which of the next allocations succeed; all do after its
end. `aliasLists` says which modules have their `mTypeAliasList`. -/
structure CObjInfoList where
  held : Lock → Int
  allocs : List Bool
  next : Nat
  objects : Nat → Option Object
  tables : Table → Key → Option Nat
  heads : Head → List Nat
  mDataTypeInfos : CarDataType → Option Nat
  mLocalTypeInfos : CARDataType → Option Nat
  mCarArrayInfos : CarDataType → Option Nat
  aliasLists : Nat → Bool

def CObjInfoList.empty : CObjInfoList where
  held := 0
  allocs := []
  next := 0
  objects _ := none
  tables _ _ := none
  heads _ := []
  mDataTypeInfos _ := none
  mLocalTypeInfos _ := none
  mCarArrayInfos _ := none
  aliasLists _ := false

abbrev Call := Action CObjInfoList

open SuperExe.Lib.Action (gets modify stuck)

def lockHashTable (type : EntryType) : Call Unit :=
  modify fun s => { s with held := s.held + lockCalls type }

def unlockHashTable (type : EntryType) : Call Unit :=
  modify fun s => { s with held := s.held - lockCalls type }

/-- An allocation. -/
def alloc : Call Bool := fun s =>
  match s.allocs with
  | [] => some (true, s)
  | granted :: rest => some (granted, { s with allocs := rest })

/-- So many allocations, which end with the first that fails. -/
def allocMany : Nat → Call Bool
  | 0 => pure true
  | n + 1 => do
    if ← alloc then allocMany n else pure false

def setObject (o : Nat) (object : Option Object) : Call Unit :=
  modify fun s => { s with objects := Function.update s.objects o object }

/-- A new object. -/
def create (object : Object) : Call Nat := do
  let o ← gets (·.next)
  modify fun s => { s with next := s.next + 1 }
  setObject o (some object)
  pure o

/-- `AddRef` -/
def addRef (o : Nat) : Call Unit :=
  modify fun s =>
    { s with
      objects := Function.update s.objects o
        ((s.objects o).map fun object => { object with mRef := object.mRef + 1 }) }

/-- `HashTable::Get` -/
def get (t : Table) (key : Key) : Call (Option Nat) := gets fun s => s.tables t key

def setTable (t : Table) (key : Key) (o : Option Nat) : Call Unit :=
  modify fun s => { s with tables := Function.update s.tables t (Function.update (s.tables t) key o) }

/-- `HashTable::Put`, which fails when it has no memory. -/
def put (t : Table) (key : Key) (o : Nat) : Call Bool := do
  if ← alloc then
    setTable t key (some o)
    pure true
  else pure false

/-- `AddInfoNode`, which fails when it has no memory. -/
def addInfoNode (info : Nat) (linkHead : Head) : Call Bool := do
  if ← alloc then
    modify fun s => { s with heads := Function.update s.heads linkHead (info :: s.heads linkHead) }
    pure true
  else pure false

/-- `DeleteInfoNode` -/
def deleteInfoNode (info : Nat) (linkHead : Head) : Call Unit :=
  modify fun s =>
    { s with heads := Function.update s.heads linkHead ((s.heads linkHead).erase info) }

/-- The `Remove…` or `Detach…` of an object. -/
def takeOut (o : Nat) : Place → Call Unit
  | .table t key => setTable t key none
  | .list h => deleteInfoNode o h
  | .nowhere => pure ()

/-- `Release` of every object of a list. -/
def releaseAll (release : Nat → Call Unit) : List Nat → Call Unit
  | [] => pure ()
  | o :: rest => do
    release o
    releaseAll release rest

/-- The body of a `Release`: at the last reference the object leaves its place, and gives
back the objects that it holds. -/
def dropRef (release : Nat → Call Unit) (o : Nat) (object : Object) : Call Unit := do
  if object.mRef ≤ 1 then
    takeOut o object.place
    setObject o none
    releaseAll release object.members
  else setObject o (some { object with mRef := object.mRef - 1 })

/-- `Release` of an object, where objects hold each other no deeper than the first argument.
An object that is not there is not released. -/
def release : Nat → Nat → Call Unit
  | 0, _ => stuck
  | depth + 1, o => do
    match ← gets (·.objects o) with
    | none => pure ()
    | some object =>
      match object.type with
      | none => dropRef (release depth) o object
      | some type =>
        lockHashTable type
        dropRef (release depth) o object
        unlockHashTable type

end SuperExe.Reflection.InfoList
