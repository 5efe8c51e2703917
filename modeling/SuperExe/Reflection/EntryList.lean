import SuperExe.Core.CString
import SuperExe.Lib.Trace
import SuperExe.Reflection.InterfaceList

/-! # Lists of entries

A `CEntryList` (`reflection/CEntryList.cpp`) has an element for each entry of a directory
of a module, or of a table of a class. The elements are filled at the first use; each
keeps the info object of its entry once it was asked for. An access behind an array has
no result (`none`).
-/

namespace SuperExe.Reflection.Entries

open SuperExe.Core SuperExe.Lib
open VTable (MK_METHOD_INDEX CBMethodDesc)

/-! ## Modules -/

/-- A C string, without its NUL. -/
structure CStr where
  bytes : Bytes
  noNul : 0 ∉ bytes
deriving DecidableEq

namespace CStr

def append (s t : CStr) : CStr where
  bytes := s.bytes ++ t.bytes
  noNul := by
    rw [List.mem_append, not_or]
    exact ⟨s.noNul, t.noNul⟩

instance : Append CStr := ⟨append⟩

def dot : CStr := ⟨[46], by decide⟩

end CStr

inductive EntryType where
  | Module | Class | Aspect | Aggregatee | ClassInterface | Interface | Struct | Enum | TypeAliase
  | Constant | Constructor | Method | CBMethod | Field | EnumItem | Parameter | DataType | Local
  | ClsModule
deriving DecidableEq, Repr

inductive ECode where
  | NOERROR
  | E_OUT_OF_MEMORY
  | E_DOES_NOT_EXIST
  | E_INVALID_ARGUMENT
  | E_INVALID_OPERATION
deriving DecidableEq, Repr

/-- An entry of a directory of a module. -/
structure DirEntry where
  mName : CStr
  mNameSpace : Option CStr

structure MethodDescriptor where
  mName : CStr
  mSignature : CStr

/-- `interfaceDesc` gives the methods of the interface descriptor at an address. -/
structure CLSModule where
  mClassDirs : List DirEntry
  mInterfaceDirs : List DirEntry
  mStructDirs : List DirEntry
  mEnumDirs : List DirEntry
  mAliasDirs : List DirEntry
  mConstDirs : List DirEntry
  interfaceDesc : Nat → List MethodDescriptor

structure ClassDescriptor where
  mAspectIndexes : List UInt16
  mAggrIndexes : List UInt16

/-- `mDesc` is the address of the interface descriptor. -/
structure IFIndexEntry where
  mIndex : UInt32
  mBeginNo : UInt32
  mName : CStr
  mNameSpace : Option CStr
  mDesc : Nat

/-- The info objects of `CObjInfoList`, by what they are asked for with. -/
inductive Obj where
  | classInfo (index : Nat)
  | interfaceInfo (index : Nat)
  | structInfo (index : Nat)
  | enumInfo (index : Nat)
  | typeAliasInfo (index : Nat)
  | constantInfo (index : Nat)
  | methodInfo (desc : Nat × Nat) (index : UInt32)
  | constructorInfo (desc : Nat × Nat) (index : UInt32)
  | cbMethodInfo (eventNum : UInt32) (desc : Nat × Nat) (index : UInt32)
deriving DecidableEq, Repr

/-! ## Elements -/

structure ObjElement where
  mIndex : UInt32
  mDesc : Option (Nat × Nat)
  mName : Option CStr
  mNamespaceOrSignature : Option CStr
  mObject : Option Obj

/-- An element after `memset`. -/
def ObjElement.zero : ObjElement := ⟨0, none, none, none, none⟩

/-- What `InitElemList` stores for an entry, and the key it puts it under. -/
structure Entry where
  element : ObjElement
  strKey : CStr

/-- The arguments of the constructor. `mCBMethodDesc` is that of `mClsInfo`. -/
structure Args where
  mType : EntryType
  mTotalCount : UInt32
  mClsMod : CLSModule
  mDesc : ClassDescriptor
  mIFList : List IFIndexEntry
  mCBMethodDesc : List CBMethodDesc

/-- `strKey` of a class interface. -/
def interfaceKey (mNameSpace : Option CStr) (mName : CStr) : CStr :=
  match mNameSpace with
  | some ns => if ns.bytes ≠ [] then ns ++ CStr.dot ++ mName else mName
  | none => mName

/-- `strKey` of the last loop. -/
def dirKey (mNameSpace : Option CStr) (mName : CStr) : CStr :=
  match mNameSpace with
  | some ns => ns ++ CStr.dot ++ mName
  | none => mName

/-- `"systypes"` -/
def systypes : Bytes := [115, 121, 115, 116, 121, 112, 101, 115]

/-- `IsSysAlaisType` -/
def isSysAlaisType (aliasDir : DirEntry) : Bool :=
  match aliasDir.mNameSpace with
  | some ns => ns.bytes = systypes
  | none => false

namespace Args

variable (L : Args)

/-- `EntryType_Method`, `EntryType_Constructor` and `EntryType_CBMethod` -/
def isMethodList : Bool :=
  L.mType = .Method ∨ L.mType = .Constructor ∨ L.mType = .CBMethod

/-- The aliases that are listed, with their numbers. -/
def aliases : List (DirEntry × Nat) :=
  L.mClsMod.mAliasDirs.zipIdx.filter fun d => !isSysAlaisType d.1

def aliasEntry (d : DirEntry × Nat) : Entry where
  element := { ObjElement.zero with mIndex := UInt32.ofNat d.2, mName := some d.1.mName }
  strKey := d.1.mName

def interfaceEntry (e : IFIndexEntry) : Entry where
  element :=
    { ObjElement.zero with
      mIndex := e.mIndex
      mName := some e.mName
      mNamespaceOrSignature := e.mNameSpace }
  strKey := interfaceKey e.mNameSpace e.mName

/-- The method `j` of an interface. -/
def methodEntry (e : IFIndexEntry) (method : MethodDescriptor × Nat) : Entry where
  element :=
    { mIndex := MK_METHOD_INDEX e.mIndex (e.mBeginNo + UInt32.ofNat method.2)
      mDesc := some (e.mDesc, method.2)
      mName := some method.1.mName
      mNamespaceOrSignature := some method.1.mSignature
      mObject := none }
  strKey := method.1.mName ++ method.1.mSignature

def methodEntries (e : IFIndexEntry) : List Entry :=
  (L.mClsMod.interfaceDesc e.mDesc).zipIdx.map (methodEntry e)

/-- An entry of the last loop. -/
def dirEntry (i : Nat) (mName : CStr) (mNameSpace : Option CStr) : Entry where
  element :=
    { ObjElement.zero with
      mIndex := UInt32.ofNat i
      mName := some mName
      mNamespaceOrSignature := mNameSpace }
  strKey := dirKey mNameSpace mName

/-- The switch of the last loop. Only classes, interfaces and enumerations have their
namespace stored. -/
def dirEntryAt (i : Nat) : Option Entry :=
  match L.mType with
  | .Aspect => do
    let index ← L.mDesc.mAspectIndexes[i]?
    let classDir ← L.mClsMod.mClassDirs[index.toNat]?
    some (dirEntry i classDir.mName none)
  | .Aggregatee => do
    let index ← L.mDesc.mAggrIndexes[i]?
    let classDir ← L.mClsMod.mClassDirs[index.toNat]?
    some (dirEntry i classDir.mName none)
  | .Class => (L.mClsMod.mClassDirs[i]?).map fun d => dirEntry i d.mName d.mNameSpace
  | .Interface => (L.mClsMod.mInterfaceDirs[i]?).map fun d => dirEntry i d.mName d.mNameSpace
  | .Struct => (L.mClsMod.mStructDirs[i]?).map fun d => dirEntry i d.mName none
  | .Enum => (L.mClsMod.mEnumDirs[i]?).map fun d => dirEntry i d.mName d.mNameSpace
  | .Constant => (L.mClsMod.mConstDirs[i]?).map fun d => dirEntry i d.mName none
  | _ => none

/-- The types that the switch of `InitElemList` or one of the loops before it knows. -/
def isListed : Bool :=
  match L.mType with
  | .Module | .Field | .EnumItem | .Parameter | .DataType | .Local | .ClsModule => false
  | _ => true

/-- The entries, in the order in which they are stored. -/
def entries? : Option (List Entry) :=
  match L.mType with
  | .TypeAliase => some (L.aliases.map aliasEntry)
  | .ClassInterface => some (L.mIFList.map interfaceEntry)
  | .Method | .Constructor | .CBMethod => some (L.mIFList.flatMap L.methodEntries)
  | _ => (List.range L.mTotalCount.toNat).mapM L.dirEntryAt

/-- The callers count what they list: the directories and tables have `mTotalCount`
entries, and those that name an entry of a directory name one that is there. -/
def Counted : Prop :=
  match L.mType with
  | .Aspect => L.mDesc.mAspectIndexes.length = L.mTotalCount.toNat ∧
      ∀ i ∈ L.mDesc.mAspectIndexes, i.toNat < L.mClsMod.mClassDirs.length
  | .Aggregatee => L.mDesc.mAggrIndexes.length = L.mTotalCount.toNat ∧
      ∀ i ∈ L.mDesc.mAggrIndexes, i.toNat < L.mClsMod.mClassDirs.length
  | .Class => L.mClsMod.mClassDirs.length = L.mTotalCount.toNat
  | .Interface => L.mClsMod.mInterfaceDirs.length = L.mTotalCount.toNat
  | .Struct => L.mClsMod.mStructDirs.length = L.mTotalCount.toNat
  | .Enum => L.mClsMod.mEnumDirs.length = L.mTotalCount.toNat
  | .Constant => L.mClsMod.mConstDirs.length = L.mTotalCount.toNat
  | .TypeAliase => L.aliases.length = L.mTotalCount.toNat ∧
      L.mClsMod.mAliasDirs.length < 2 ^ 16
  | .ClassInterface => L.mIFList.length = L.mTotalCount.toNat ∧
      ∀ e ∈ L.mIFList, (L.mClsMod.mInterfaceDirs[e.mIndex.toNat]?) = some ⟨e.mName, e.mNameSpace⟩
  | .Method | .Constructor =>
      (L.mIFList.map fun e => (L.mClsMod.interfaceDesc e.mDesc).length).sum = L.mTotalCount.toNat
  | .CBMethod =>
      (L.mIFList.map fun e => (L.mClsMod.interfaceDesc e.mDesc).length).sum =
        L.mTotalCount.toNat ∧ L.mCBMethodDesc.length = L.mTotalCount.toNat
  | _ => True

end Args

/-- A `CEntryList` as it is made. -/
structure CEntryList extends Args where
  counted : toArgs.Counted

/-- What changes: `mObjElement`. -/
structure State where
  mObjElement : Option (List ObjElement)

def State.new : State := ⟨none⟩

/-- What the environment decides of a call: whether there is memory for the elements,
whether the hash table takes the `n`-th entry, and what `CObjInfoList` answers when it is
asked for an info object. -/
structure Env where
  alloc : Bool
  put : Nat → Bool
  acquired : ECode

section Lists

variable (L : Args)

/-- The entries are stored and put one after the other. -/
def fillEntries (put : Nat → Bool) :
    List Entry → Nat → List ObjElement → Option (ECode × List ObjElement)
  | [], _, elems => some (.NOERROR, elems)
  | r :: rest, n, elems =>
    if L.isMethodList ∧ n = L.mTotalCount.toNat then some (.E_INVALID_ARGUMENT, elems)
    else if n < elems.length then
      if put n then fillEntries put rest (n + 1) (elems.set n r.element)
      else some (.E_OUT_OF_MEMORY, elems.set n r.element)
    else none

/-- `sizeof(ObjElement)`, on 32 bits. -/
def sizeofObjElement : Nat := 20

/-- `CEntryList::InitElemList`. No memory has room for `2^32` bytes. -/
def initElemList (env : Env) (s : State) : Option (ECode × State) :=
  if L.mTotalCount = 0 then some (.E_DOES_NOT_EXIST, s)
  else if s.mObjElement.isSome then some (.NOERROR, s)
  else if env.alloc = false ∨ 2 ^ 32 ≤ sizeofObjElement * L.mTotalCount.toNat then
    some (.E_OUT_OF_MEMORY, s)
  else
    let fresh := List.replicate L.mTotalCount.toNat ObjElement.zero
    if L.isListed = false then some (.E_INVALID_OPERATION, ⟨some fresh⟩)
    else do
      let entries ← L.entries?
      let r ← fillEntries L env.put entries 0 fresh
      some (r.1, ⟨some r.2⟩)

/-- The search for a method's number; the position of the element. -/
def position (elems : List ObjElement) (index : UInt32) : Option Nat :=
  if L.isMethodList ∧ index &&& 0xFFFF0000 ≠ 0 then
    match elems.findIdx? fun e => e.mIndex = index with
    | some i => some i
    | none => if index.toNat ≠ L.mTotalCount.toNat then none else some index.toNat
  else some index.toNat

/-- The switch of `AcquireObjByIndex`: what `CObjInfoList` is asked for. -/
def request (index : Nat) (e : ObjElement) : Option (Except ECode Obj) :=
  match L.mType with
  | .Aspect => do
    let adjIndex ← L.mDesc.mAspectIndexes[index]?
    let _ ← L.mClsMod.mClassDirs[adjIndex.toNat]?
    some (.ok (.classInfo adjIndex.toNat))
  | .Aggregatee => do
    let adjIndex ← L.mDesc.mAggrIndexes[index]?
    let _ ← L.mClsMod.mClassDirs[adjIndex.toNat]?
    some (.ok (.classInfo adjIndex.toNat))
  | .Class => (L.mClsMod.mClassDirs[index]?).map fun _ => .ok (.classInfo index)
  | .ClassInterface =>
    (L.mClsMod.mInterfaceDirs[e.mIndex.toNat]?).map fun _ => .ok (.interfaceInfo e.mIndex.toNat)
  | .Interface => (L.mClsMod.mInterfaceDirs[index]?).map fun _ => .ok (.interfaceInfo index)
  | .Struct => (L.mClsMod.mStructDirs[index]?).map fun _ => .ok (.structInfo index)
  | .Enum => (L.mClsMod.mEnumDirs[index]?).map fun _ => .ok (.enumInfo index)
  | .TypeAliase =>
    (L.mClsMod.mAliasDirs[e.mIndex.toNat]?).map fun _ => .ok (.typeAliasInfo e.mIndex.toNat)
  | .Constant => (L.mClsMod.mConstDirs[index]?).map fun _ => .ok (.constantInfo index)
  | .Method =>
    match e.mDesc with
    | some desc => some (.ok (.methodInfo desc e.mIndex))
    | none => some (.error .E_INVALID_ARGUMENT)
  | .Constructor =>
    match e.mDesc with
    | some desc => some (.ok (.constructorInfo desc e.mIndex))
    | none => some (.error .E_INVALID_ARGUMENT)
  | .CBMethod => (L.mCBMethodDesc[index]?).map fun d =>
      .ok (.cbMethodInfo d.mEventNum d.mDesc d.mIndex)
  | _ => some (.error .E_INVALID_OPERATION)

/-- One of the functions of `CObjInfoList` with `mObject`, which is left alone if it is
set. The body of `AcquireCBMethodInfoInfo` is compiled out. -/
def acquireInfo (acquired : ECode) (e : ObjElement) (o : Obj) : ECode × ObjElement :=
  if L.mType = .CBMethod ∨ e.mObject.isSome then (.NOERROR, e)
  else if acquired = .NOERROR then (.NOERROR, { e with mObject := some o })
  else (acquired, e)

/-- The end of `AcquireObjByIndex`, at a position of the array; an object that is `NULL`
has no reference to count. -/
def acquireAt (acquired : ECode) (elems : List ObjElement) (index : Nat) :
    Option (Except ECode Obj × List ObjElement) :=
  if L.isListed = false then some (.error .E_INVALID_OPERATION, elems)
  else do
    let e ← elems[index]?
    match ← request L index e with
    | .error ec => some (.error ec, elems)
    | .ok o =>
      let r := acquireInfo L acquired e o
      if r.1 ≠ .NOERROR then some (.error r.1, elems)
      else r.2.mObject.map fun object => (.ok object, elems.set index r.2)

/-- `CEntryList::AcquireObjByIndex` -/
def acquireObjByIndex (env : Env) (s : State) (index : UInt32) :
    Option (Except ECode Obj × State) :=
  if L.mTotalCount = 0 ∨ L.mTotalCount ≤ index &&& 0xFFFF then some (.error .E_DOES_NOT_EXIST, s)
  else do
    let (ec, s) ← initElemList L env s
    if ec ≠ .NOERROR then some (.error ec, s)
    else do
      let elems ← s.mObjElement
      match position L elems index with
      | none => some (.error .E_INVALID_ARGUMENT, s)
      | some i =>
        let r ← acquireAt L env.acquired elems i
        some (r.1, ⟨some r.2⟩)

end Lists

end SuperExe.Reflection.Entries
