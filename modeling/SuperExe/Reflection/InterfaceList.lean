import SuperExe.Lib.Rooted

/-! # Interface lists

`CClassInfo::CreateIFList` lists the interfaces of a class with all their
ancestors, `CInterfaceInfo::CreateIFList` an interface with its own, and
`CEntryList::InitElemList` numbers the methods of such a list. Every array is
filled from its first slot on; a write behind its last slot has no result
(`none`).
-/

namespace SuperExe.Reflection.VTable

/-! ## Modules -/

structure MethodDescriptor where
  mName : String
  mSignature : String

structure InterfaceDescriptor where
  mMethodCount : UInt16
  mParentIndex : UInt16
  mMethods : Nat → MethodDescriptor

/-- `mDesc` is the address of the descriptor. -/
structure InterfaceDirEntry where
  mName : String
  mNameSpace : String
  mDesc : Nat

structure ClsModule where
  mInterfaceCount : UInt16
  mInterfaceDirs : Nat → InterfaceDirEntry
  interfaceDesc : Nat → InterfaceDescriptor

/-- `callback` is the attribute `ClassInterfaceAttrib_callback`. -/
structure ClassInterface where
  mIndex : UInt16
  callback : Bool

structure ClassDescriptor where
  mInterfaces : List ClassInterface

inductive ECode where
  | NOERROR
  | E_OUT_OF_MEMORY
  | E_DOES_NOT_EXIST
  | E_INVALID_ARGUMENT
deriving DecidableEq, Repr

namespace ClsModule

variable (M : ClsModule)

/-- The descriptor of an interface. -/
def desc (index : Nat) : InterfaceDescriptor := M.interfaceDesc (M.mInterfaceDirs index).mDesc

def parent (index : Nat) : Nat := (M.desc index).mParentIndex.toNat

def methodCount (index : Nat) : Nat := (M.desc index).mMethodCount.toNat

end ClsModule

/-! ## Lists -/

/-- `IFIndexEntry`, with `mAttribs` as its two bits. -/
structure IFIndexEntry where
  mIndex : Nat
  mBeginNo : UInt32
  mName : String
  mNameSpace : String
  mDesc : Nat
  normal : Bool
  callback : Bool

def METHOD_START_NO : UInt32 := 4

/-- `MK_METHOD_INDEX` -/
def MK_METHOD_INDEX (i m : UInt32) : UInt32 := (i + 1) <<< 16 ||| m

/-- The next slot of an array is written. -/
def write {α : Type} (capacity : Nat) (l : List α) (x : α) : Option (List α) :=
  if l.length < capacity then some (l ++ [x]) else none

section Modules

variable (M : ClsModule)

/-- The interface and its parents in `indexList`, of which so many slots are
left. -/
def climb : Nat → Nat → Option (List Nat)
  | 0, _ => none
  | n + 1, index => if index = 0 then some [0] else (climb n (M.parent index)).map (index :: ·)

def newEntry (index : Nat) (beginNo : UInt32) (normal callback : Bool) : IFIndexEntry :=
  let ifDir := M.mInterfaceDirs index
  { mIndex := index
    mBeginNo := beginNo
    mName := ifDir.mName
    mNameSpace := ifDir.mNameSpace
    mDesc := ifDir.mDesc
    normal := normal
    callback := callback }

/-- `mDesc->mMethodCount` -/
def IFIndexEntry.methodCount (e : IFIndexEntry) : UInt16 := (M.interfaceDesc e.mDesc).mMethodCount

/-- The variables of the first loop of `CClassInfo::CreateIFList`. -/
structure Listing where
  allIFList : List IFIndexEntry
  beginNo : UInt32
  mIFCount : Nat
  mCBIFCount : Nat

/-- The interface is in the list already. -/
def markEntry (isCallBack : Bool) (e : IFIndexEntry) : IFIndexEntry :=
  if isCallBack then { e with callback := true } else { e with normal := true }

/-- The search for an interface in the list, and the list with its entry marked. -/
def findInterface (isCallBack : Bool) (index : Nat) :
    List IFIndexEntry → Option (IFIndexEntry × List IFIndexEntry)
  | [] => none
  | e :: rest =>
    if e.mIndex = index then some (e, markEntry isCallBack e :: rest)
    else (findInterface isCallBack index rest).map fun found => (found.1, e :: found.2)

/-- One interface of the list of a class. -/
def listInterface (isCallBack : Bool) (s : Listing) (index : Nat) : Option Listing :=
  match findInterface isCallBack index s.allIFList with
  | some (e, allIFList) => some
    { allIFList := allIFList
      beginNo := e.mBeginNo + (e.methodCount M).toUInt32
      mIFCount := if ¬ isCallBack ∧ ¬ e.normal then s.mIFCount + 1 else s.mIFCount
      mCBIFCount := if isCallBack ∧ ¬ e.callback then s.mCBIFCount + 1 else s.mCBIFCount }
  | none => do
    let e := newEntry M index s.beginNo (!isCallBack) isCallBack
    let allIFList ← write M.mInterfaceCount.toNat s.allIFList e
    some
      { allIFList := allIFList
        beginNo := s.beginNo + (e.methodCount M).toUInt32
        mIFCount := if isCallBack then s.mIFCount else s.mIFCount + 1
        mCBIFCount := if isCallBack then s.mCBIFCount + 1 else s.mCBIFCount }

/-- An interface of the class with its ancestors, from the root on. -/
def listClassInterface (s : Listing) (cif : ClassInterface) : Option Listing := do
  let indexList ← climb M M.mInterfaceCount.toNat cif.mIndex.toNat
  indexList.reverse.foldlM (listInterface M cif.callback) s

structure CBMethodDesc where
  mDesc : Nat × Nat
  mIndex : UInt32
  mEventNum : UInt32

/-- `CClassInfo`. The lists are `none` as long as they are not allocated. -/
structure CClassInfo where
  mIFList : Option (List IFIndexEntry)
  mCBIFList : Option (List IFIndexEntry)
  mCBMethodDesc : Option (List CBMethodDesc)
  mIFCount : Nat
  mCBIFCount : Nat
  mMethodCount : UInt32
  mCBMethodCount : UInt32

def CClassInfo.empty : CClassInfo where
  mIFList := none
  mCBIFList := none
  mCBMethodDesc := none
  mIFCount := 0
  mCBIFCount := 0
  mMethodCount := 0
  mCBMethodCount := 0

/-- The variables of the second loop. -/
structure Filling where
  mIFList : List IFIndexEntry
  mCBIFList : List IFIndexEntry
  mMethodCount : UInt32
  mCBMethodCount : UInt32

/-- An entry is copied to the lists it belongs to; `i` is its position. -/
def fillEntry (mIFCount mCBIFCount : Nat) (s : Filling) (i : Nat) (e : IFIndexEntry) :
    Option Filling := do
  let s ←
    if e.normal then do
      let mIFList ← write mIFCount s.mIFList e
      some
        { s with
          mIFList := mIFList
          mMethodCount := s.mMethodCount + (e.methodCount M).toUInt32 }
    else some s
  if i ≠ 0 ∧ mCBIFCount ≠ 0 ∧ e.callback then do
    let mCBIFList ← write mCBIFCount s.mCBIFList e
    some
      { s with
        mCBIFList := mCBIFList
        mCBMethodCount := s.mCBMethodCount + (e.methodCount M).toUInt32 }
  else some s

/-- The second loop. -/
def fillEntries (mIFCount mCBIFCount : Nat) : Filling → Nat → List IFIndexEntry → Option Filling
  | s, _, [] => some s
  | s, i, e :: rest => do
    let s ← fillEntry M mIFCount mCBIFCount s i e
    fillEntries mIFCount mCBIFCount s (i + 1) rest

/-- The methods of a callback interface, from the `j`-th on. -/
def fillCBMethods (capacity : Nat) (e : IFIndexEntry) :
    Nat → Nat → List CBMethodDesc × UInt32 → Option (List CBMethodDesc × UInt32)
  | 0, _, s => some s
  | n + 1, j, (l, eventNum) => do
    let l ← write capacity l
      { mDesc := (e.mDesc, j)
        mIndex := MK_METHOD_INDEX e.mIndex.toUInt32 (e.mBeginNo + j.toUInt32)
        mEventNum := eventNum }
    fillCBMethods capacity e n (j + 1) (l, eventNum + 1)

/-- The third loop. -/
def fillCBInterface (capacity : Nat) (s : List CBMethodDesc × UInt32) (e : IFIndexEntry) :
    Option (List CBMethodDesc × UInt32) := do
  let s ← fillCBMethods capacity e (e.methodCount M).toNat 0 s
  some (s.1, s.2 + 2)

/-- `CClassInfo::CreateIFList`; `alloc k` says whether the `k`-th `new` finds
memory. -/
def CClassInfo.createIFList (desc : ClassDescriptor) (alloc : Nat → Bool) (this : CClassInfo) :
    Option (ECode × CClassInfo) :=
  if this.mIFList.isSome then some (.NOERROR, this)
  else do
    let s ← desc.mInterfaces.foldlM (listClassInterface M)
      { allIFList := [], beginNo := METHOD_START_NO, mIFCount := 0, mCBIFCount := 0 }
    if ¬ alloc 0 then some (.E_OUT_OF_MEMORY, .empty)
    else if s.mCBIFCount ≠ 0 ∧ ¬ alloc 1 then some (.E_OUT_OF_MEMORY, .empty)
    else
      let mCBIFCount := s.mCBIFCount - 1
      let f ← fillEntries M s.mIFCount mCBIFCount
        { mIFList := [], mCBIFList := [], mMethodCount := 0, mCBMethodCount := 0 } 0 s.allIFList
      if ¬ alloc 2 then some (.E_OUT_OF_MEMORY, .empty)
      else
        let cb ← f.mCBIFList.foldlM (fillCBInterface M f.mCBMethodCount.toNat) ([], 1)
        some (.NOERROR,
          { mIFList := some f.mIFList
            mCBIFList := if s.mCBIFCount ≠ 0 then some f.mCBIFList else this.mCBIFList
            mCBMethodDesc := some cb.1
            mIFCount := s.mIFCount
            mCBIFCount := mCBIFCount
            mMethodCount := f.mMethodCount
            mCBMethodCount := f.mCBMethodCount })

/-! ## Interfaces -/

structure CInterfaceInfo where
  mIndex : Nat
  mIFList : Option (List IFIndexEntry)
  mIFCount : Nat
  mMethodCount : UInt32

/-- The entries of `indexList`, from the root on. -/
def numberEntries (capacity : Nat) (s : List IFIndexEntry × UInt32) (index : Nat) :
    Option (List IFIndexEntry × UInt32) := do
  let e := newEntry M index s.2 false false
  let l ← write capacity s.1 e
  some (l, s.2 + (e.methodCount M).toUInt32)

/-- `CInterfaceInfo::CreateIFList`. It does not set `mAttribs`. -/
def CInterfaceInfo.createIFList (alloc : Bool) (this : CInterfaceInfo) :
    Option (ECode × CInterfaceInfo) :=
  if this.mIFList.isSome then some (.NOERROR, this)
  else do
    let indexList ← climb M M.mInterfaceCount.toNat this.mIndex
    let mIFCount := indexList.length
    if ¬ alloc then some (.E_OUT_OF_MEMORY, { this with mIFCount := mIFCount })
    else
      let s ← indexList.reverse.foldlM (numberEntries M mIFCount) ([], METHOD_START_NO)
      some (.NOERROR,
        { this with
          mIFList := some s.1
          mIFCount := mIFCount
          mMethodCount := s.1.foldl (fun n e => n + (e.methodCount M).toUInt32) 0 })

/-! ## Methods -/

/-- An element of a list of methods; `mDesc` is the interface descriptor and the
position of the method in it. -/
structure ObjElement where
  mIndex : UInt32
  mDesc : Nat × Nat
  mName : String
  mSignature : String

/-- The methods of an interface, from the `j`-th on. -/
def initMethods (put : Nat → Bool) (mTotalCount : Nat) (e : IFIndexEntry) :
    Nat → Nat → List ObjElement → Except (ECode × List ObjElement) (List ObjElement)
  | 0, _, l => .ok l
  | n + 1, j, l =>
    if l.length = mTotalCount then .error (.E_INVALID_ARGUMENT, l)
    else
      let method := (M.interfaceDesc e.mDesc).mMethods j
      let l' := l ++ [
        { mIndex := MK_METHOD_INDEX e.mIndex.toUInt32 (e.mBeginNo + j.toUInt32)
          mDesc := (e.mDesc, j)
          mName := method.mName
          mSignature := method.mSignature }]
      if put l.length then initMethods put mTotalCount e n (j + 1) l'
      else .error (.E_OUT_OF_MEMORY, l')

/-- `CEntryList::InitElemList` for the methods of a new list; `alloc` says whether
there is memory for the elements and `put n` whether the hash table takes the
`n`-th name. -/
def initElemList (alloc : Bool) (put : Nat → Bool) (mTotalCount : UInt32)
    (mIFList : List IFIndexEntry) : Except (ECode × List ObjElement) (List ObjElement) :=
  if mTotalCount = 0 then .error (.E_DOES_NOT_EXIST, [])
  else if ¬ alloc then .error (.E_OUT_OF_MEMORY, [])
  else
    mIFList.foldlM
      (fun l e => initMethods M put mTotalCount.toNat e (e.methodCount M).toNat 0 l) []

end Modules

end SuperExe.Reflection.VTable
