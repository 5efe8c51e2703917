import SuperExe.Lib.Trace

/-! # The type infos of the reflection

`CObjInfoList` (`reflection/CObjInfoList.cpp`) gives out one info object for each
type and keeps it in a cache; what the key of a cache is depends on the kind of
the type. Objects are numbered in the order of their creation. The tables and
lists of the hash tables and link nodes do not own what they hold, and lose an
object when it is released; the arrays of infos do own it.

A type descriptor is found at an address within its module, or is the original
type that `InitOrgType` has computed for an alias.
-/

namespace SuperExe.Reflection.TypeInfo

open SuperExe.Lib

/-! ## Modules -/

/-- `CARDataType`, the type in a descriptor. -/
inductive CARDataType where
  | char16 | char32 | boolean | float | double | int8 | int16 | int32 | int64 | byte | uint16
  | uint32 | uint64 | emuid | ecode | eguid | eventHandler | array | pvoid | const | interface
  | struct | enum | typeAlias | string | arrayOf
deriving DecidableEq, Repr

/-- `CarDataType`, the data type of an info. -/
inductive CarDataType where
  | int16 | int32 | int64 | byte | float | double | char32 | string | boolean | emuid | eguid
  | ecode | localPtr | localType | enum | arrayOf | cppVector | struct | interface
deriving DecidableEq, Repr

/-- `GetCarDataType` -/
def getCarDataType : CARDataType → CarDataType
  | .int16 => .int16
  | .int32 => .int32
  | .int64 => .int64
  | .byte => .byte
  | .boolean => .boolean
  | .float => .float
  | .double => .double
  | .char32 => .char32
  | .string => .string
  | .emuid => .emuid
  | .eguid => .eguid
  | .ecode => .ecode
  | .enum => .enum
  | .array => .cppVector
  | .struct => .struct
  | .interface => .interface
  | .arrayOf => .arrayOf
  | _ => .localType

/-- `mSize` of `g_cDataTypeList`, with pointers of 32 bits; a `String` is a pointer and a
`UInt32`. -/
def dataTypeSize : CarDataType → Nat
  | .int16 => 2
  | .int32 => 4
  | .int64 => 8
  | .byte => 1
  | .float => 4
  | .double => 8
  | .char32 => 4
  | .string => 8
  | .boolean => 1
  | .emuid => 16
  | .eguid => 24
  | .ecode => 4
  | .localPtr => 4
  | .localType => 0
  | .enum => 4
  | .arrayOf => 0
  | .cppVector => 4
  | .struct => 0
  | .interface => 4

structure TypeDescriptor where
  type : CARDataType
  index : Nat
  pointer : UInt8
  nested : Option Nat

/-- What the reflection reads of a module: the descriptors by their address, the
types of the elements of each struct, the length and the element type of each
array, the type of each alias and the id of each interface. -/
structure ClsModule where
  desc : Nat → TypeDescriptor
  structs : Nat → List Nat
  arrays : Nat → Nat × Nat
  aliases : List Nat
  iid : Nat → Nat

/-- The loaded modules, and the sizes the platform gives to types
(`GetDataTypeSize`, `g_cDataTypeList`). -/
structure World where
  module : Nat → ClsModule
  typeSize : CARDataType → Nat
  dataTypeSize : CarDataType → Nat

/-- A pointer to a descriptor of a module: one of its own, or `mOrgTypeDesc` of
an alias. -/
inductive TypePtr where
  | desc (addr : Nat)
  | org (index : Nat)
deriving DecidableEq, Repr

inductive ECode where
  | invalidArgument
  | invalidOperation
  | outOfMemory
  /-- the call has no result -/
  | undefined
deriving DecidableEq, Repr

/-! ## Aliases -/

/-- The descriptors that the loop of `_GetOriginalType` goes through. -/
def chain (mod : ClsModule) : Nat → Nat → Option (List Nat)
  | 0, _ => none
  | n + 1, a =>
    if (mod.desc a).type = .typeAlias then
      match mod.aliases[(mod.desc a).index]? with
      | none => none
      | some b => (chain mod n b).map (a :: ·)
    else some [a]

/-- What a pointer to a descriptor shows. -/
structure Content where
  type : CARDataType
  index : Nat
  pointer : Int
  nested : Option Nat

/-- The sum in an `unsigned char`. -/
def byteLevels (pointers : List UInt8) : Int := ((pointers.foldr (· + ·) 0).toNat : Int)

/-- The descriptor at a pointer. `levels` adds up `mPointer` along a chain of
aliases. -/
def content (levels : List UInt8 → Int) (mod : ClsModule) : TypePtr → Option Content
  | .desc a =>
    let d := mod.desc a
    some { type := d.type, index := d.index, pointer := d.pointer.toNat, nested := d.nested }
  | .org i => do
    let a ← mod.aliases[i]?
    let c ← chain mod (mod.aliases.length + 1) a
    let d := mod.desc (c.getLastD a)
    some
      { type := d.type
        index := d.index
        pointer := levels (c.map fun a => (mod.desc a).pointer)
        nested := d.nested }

/-- `AliasToOriginal`; `InitOrgType` goes through all aliases. -/
def aliasToOriginal (mod : ClsModule) (index : Nat) : Except ECode TypePtr :=
  if mod.aliases = [] then .error .invalidOperation
  else if ∃ a ∈ mod.aliases, chain mod (mod.aliases.length + 1) a = none then .error .undefined
  else if mod.aliases.length ≤ index then .error .invalidArgument
  else .ok (.org index)

/-- The descriptor that is left when an alias is followed, with its pointer level. -/
def resolve (levels : List UInt8 → Int) (mod : ClsModule) (t : TypePtr) (isCheckLocalPtr : Bool) :
    Except ECode (TypePtr × Content × Int) :=
  match content levels mod t with
  | none => .error .undefined
  | some d =>
    if d.type ≠ .typeAlias then .ok (t, d, d.pointer)
    else
      match aliasToOriginal mod d.index with
      | .error e => .error e
      | .ok t' =>
        match content levels mod t' with
        | none => .error .undefined
        | some d' =>
          .ok (t', d', if isCheckLocalPtr then d.pointer + d'.pointer else d.pointer)

/-- The data type and the pointer level after the check for pointers. -/
def checkLocalPtr (isCheckLocalPtr : Bool) (type : CarDataType) (pointer : Int) :
    CarDataType × Int :=
  if isCheckLocalPtr then
    if type = .interface then
      if 1 < pointer then (.localPtr, pointer - 1) else (type, pointer)
    else if 0 < pointer then (.localPtr, pointer) else (type, pointer)
  else (type, pointer)

/-- What decides the info of a descriptor. -/
structure Resolved where
  ptr : TypePtr
  desc : Content
  type : CarDataType
  pointer : Int

/-- The first part of `AcquireDataTypeInfo`. -/
def resolveType (levels : List UInt8 → Int) (mod : ClsModule) (t : TypePtr)
    (isCheckLocalPtr : Bool) : Except ECode Resolved :=
  match resolve levels mod t isCheckLocalPtr with
  | .error e => .error e
  | .ok (t, d, pointer) =>
    let checked := checkLocalPtr isCheckLocalPtr (getCarDataType d.type) pointer
    .ok { ptr := t, desc := d, type := checked.1, pointer := checked.2 }

/-! ## Infos -/

/-- An info object; elements and fields are objects. -/
inductive Info where
  | intrinsic (dataType : CarDataType) (size : Nat)
  | localType (size : Nat)
  | localPtr (mod : Nat) (desc : TypePtr) (pointer : Int)
  | struct (mod index : Nat) (fields : List Nat)
  | enum (mod index : Nat)
  | interface (mod index : Nat)
  | cppVector (element : Nat) (length : Int)
  | carArray (element : Nat) (elementDataType : CarDataType)
  /-- a struct or an enumeration that is not of a module -/
  | dynamic (isEnum : Bool)
deriving DecidableEq, Repr

/-- `GetDataType` -/
def Info.dataType : Info → CarDataType
  | intrinsic d _ => d
  | localType _ => .localType
  | localPtr _ _ _ => .localPtr
  | struct _ _ _ => .struct
  | enum _ _ => .enum
  | interface _ _ => .interface
  | cppVector _ _ => .cppVector
  | carArray _ _ => .arrayOf
  | dynamic isEnum => if isEnum then .enum else .struct

/-- The objects and the caches. `allocs` says which of the next allocations
succeed; all do after its end. -/
structure Caches where
  heap : List Info
  allocs : List Bool
  aliasLists : Nat → Bool
  dataTypeInfos : CarDataType → Option Nat
  localTypeInfos : CARDataType → Option Nat
  carArrayInfos : CarDataType → Option Nat
  structInfos : Nat × Nat → Option Nat
  enumInfos : Nat × Nat → Option Nat
  ifInfos : Nat → Option Nat
  localPtrInfos : Nat × TypePtr × Int → Option Nat
  cppVectorHead : List Nat
  carArrayInfoHead : List Nat

def Caches.empty : Caches where
  heap := []
  allocs := []
  aliasLists _ := false
  dataTypeInfos _ := none
  localTypeInfos _ := none
  carArrayInfos _ := none
  structInfos _ := none
  enumInfos _ := none
  ifInfos _ := none
  localPtrInfos _ := none
  cppVectorHead := []
  carArrayInfoHead := []

/-- A call: a failed one keeps what it has done to the caches. -/
def Call (α : Type) := Caches → Except ECode α × Caches

namespace Call

variable {α β : Type}

def bind (x : Call α) (f : α → Call β) : Call β := fun s =>
  match x s with
  | (.ok a, s') => f a s'
  | (.error e, s') => (.error e, s')

instance : Monad Call where
  pure a := fun s => (.ok a, s)
  bind := bind

def throw (e : ECode) : Call α := fun s => (.error e, s)

def ofExcept : Except ECode α → Call α
  | .ok a => pure a
  | .error e => throw e

/-- An allocation. -/
def alloc : Call Unit := fun s =>
  match s.allocs with
  | [] => (.ok (), s)
  | true :: rest => (.ok (), { s with allocs := rest })
  | false :: rest => (.error .outOfMemory, { s with allocs := rest })

/-- A new object. -/
def new (info : Info) : Call Nat := do
  alloc
  fun s => (.ok s.heap.length, { s with heap := s.heap ++ [info] })

/-- The object of a cache, or else a new one that is put there. -/
def cached (look : Caches → Option Nat) (store : Nat → Caches → Caches) (make : Call Nat) :
    Call Nat := fun s =>
  match look s with
  | some o => (.ok o, s)
  | none => bind make (fun o s => (.ok o, store o s)) s

end Call

/-! ## `CObjInfoList` -/

section Acquire

open Call

variable (W : World)

/-- `AcquireIntrinsicInfo` -/
def acquireIntrinsicInfo (dataType : CarDataType) (size : Nat) : Call Nat :=
  cached (fun s => s.dataTypeInfos dataType)
    (fun o s =>
      { s with dataTypeInfos := Function.update s.dataTypeInfos dataType (some o) })
    (new (.intrinsic dataType
      (if W.dataTypeSize dataType ≠ 0 then W.dataTypeSize dataType else size)))

/-- `AcquireLocalTypeInfo` -/
def acquireLocalTypeInfo (type : CARDataType) (size : Nat) : Call Nat :=
  cached (fun s => s.localTypeInfos type)
    (fun o s => { s with localTypeInfos := Function.update s.localTypeInfos type (some o) })
    (new (.localType size))

/-- `AcquireLocalPtrInfo` -/
def acquireLocalPtrInfo (m : Nat) (t : TypePtr) (pointer : Int) : Call Nat :=
  cached (fun s => s.localPtrInfos (m, t, pointer))
    (fun o s =>
      { s with localPtrInfos := Function.update s.localPtrInfos (m, t, pointer) (some o) })
    (new (.localPtr m t pointer))

/-- `AcquireStaticEnumInfo` -/
def acquireStaticEnumInfo (m index : Nat) : Call Nat :=
  cached (fun s => s.enumInfos (m, index))
    (fun o s => { s with enumInfos := Function.update s.enumInfos (m, index) (some o) })
    (new (.enum m index))

/-- `AcquireInterfaceInfo` -/
def acquireInterfaceInfo (m index : Nat) : Call Nat :=
  cached (fun s => s.ifInfos ((W.module m).iid index))
    (fun o s =>
      { s with ifInfos := Function.update s.ifInfos ((W.module m).iid index) (some o) })
    (new (.interface m index))

/-- The loop over the elements of a struct. -/
def acquireFields (field : Nat → Call Nat) : List Nat → Call (List Nat)
  | [] => pure []
  | a :: rest => do
    let o ← field a
    let os ← acquireFields field rest
    pure (o :: os)

/-- `AcquireStaticStructInfo` with `InitStatic`, which acquires the type of each
element by `field`. `InitFieldElement` is left out: it computes sizes, which no info is
compared by, and the call does not come back from a struct with an element for which it
divides by zero (`StructInfo.adjuctElemOffset`). -/
def acquireStaticStructInfo (field : Nat → Call Nat) (m index : Nat) : Call Nat :=
  cached (fun s => s.structInfos (m, index))
    (fun o s => { s with structInfos := Function.update s.structInfos (m, index) (some o) })
    (do
      alloc
      let fields ← acquireFields field ((W.module m).structs index)
      new (.struct m index fields))

/-- `AcquireCppVectorInfo` -/
def acquireCppVectorInfo (element : Nat) (length : Int) : Call Nat :=
  cached (fun s => s.cppVectorHead.find? fun o => s.heap[o]? = some (.cppVector element length))
    (fun o s => { s with cppVectorHead := o :: s.cppVectorHead })
    (new (.cppVector element length))

/-- `AcquireCarArrayInfo`. Arrays of structs are looked for by their element,
all others by the data type of their element. -/
def acquireCarArrayInfo (quintetType : CarDataType) (element : Nat) : Call Nat := fun s =>
  if quintetType ≠ .arrayOf then (.error .invalidArgument, s)
  else
    match s.heap[element]? with
    | none => (.error .undefined, s)
    | some info =>
      if info.dataType ≠ .struct then
        cached (fun s => s.carArrayInfos info.dataType)
          (fun o s =>
            { s with carArrayInfos := Function.update s.carArrayInfos info.dataType (some o) })
          (new (.carArray element info.dataType)) s
      else
        cached (fun s => s.carArrayInfoHead.find? fun o =>
            s.heap[o]? = some (.carArray element .struct))
          (fun o s => { s with carArrayInfoHead := o :: s.carArrayInfoHead })
          (new (.carArray element .struct)) s

/-- The list of the original types is made when a module first needs it. -/
def initOrgType (m : Nat) (t : TypePtr) : Call Unit := fun s =>
  match content byteLevels (W.module m) t with
  | none => (.ok (), s)
  | some d =>
    if d.type = .typeAlias ∧ (W.module m).aliases ≠ [] ∧ s.aliasLists m = false then
      Call.bind alloc (fun _ s =>
        (.ok (), { s with aliasLists := Function.update s.aliasLists m true })) s
    else (.ok (), s)

/-- `GetDataTypeSize`, for types that have no parts. -/
def getDataTypeSize (d : Content) : Nat := if d.pointer ≠ 0 then 4 else W.typeSize d.type

/-- The branches of `AcquireDataTypeInfo`; `sub` acquires the type of a part. -/
def acquireByType (sub : TypePtr → Bool → Call Nat) (m : Nat) (r : Resolved)
    (isCheckLocalPtr : Bool) : Call Nat :=
  match r.type with
  | .localPtr => acquireLocalPtrInfo m r.ptr r.pointer
  | .localType => acquireLocalTypeInfo r.desc.type (getDataTypeSize W r.desc)
  | .struct => acquireStaticStructInfo W (fun a => sub (.desc a) true) m r.desc.index
  | .interface => acquireInterfaceInfo W m r.desc.index
  | .enum => acquireStaticEnumInfo m r.desc.index
  | .cppVector => do
    let array := (W.module m).arrays r.desc.index
    let element ← sub (.desc array.2) isCheckLocalPtr
    acquireCppVectorInfo element array.1
  | .arrayOf =>
    match r.desc.nested with
    | none => throw .invalidArgument
    | some a => do
      let element ← sub (.desc a) false
      acquireCarArrayInfo .arrayOf element
  | dataType => acquireIntrinsicInfo W dataType (getDataTypeSize W r.desc)

/-- `AcquireDataTypeInfo`, for types that are nested no deeper than the first
argument. -/
def acquireDataTypeInfo : Nat → Nat → TypePtr → Bool → Call Nat
  | 0, _, _, _ => throw .undefined
  | n + 1, m, t, isCheckLocalPtr => do
    initOrgType W m t
    let r ← ofExcept (resolveType byteLevels (W.module m) t isCheckLocalPtr)
    acquireByType W (acquireDataTypeInfo n m) m r isCheckLocalPtr

end Acquire

/-! ## Runs -/

/-- A call of the object list. `dynamic` is one of the two calls that make a
struct or an enumeration from what the caller gives, `release` the last release
of an object. -/
inductive Op where
  | dataType (m : Nat) (t : TypePtr) (isCheckLocalPtr : Bool)
  | intrinsic (dataType : CarDataType) (size : Nat)
  | localType (type : CARDataType) (size : Nat)
  | localPtr (m : Nat) (t : TypePtr) (pointer : Int)
  | staticStruct (m index : Nat)
  | staticEnum (m index : Nat)
  | interface (m index : Nat)
  | cppVector (element : Nat) (length : Int)
  | carArray (quintetType : CarDataType) (element : Nat)
  | dynamic (isEnum : Bool)
  | release (o : Nat)

/-- An object that nobody holds leaves the tables and lists. -/
def Caches.release (s : Caches) (o : Nat) : Caches :=
  { s with
    structInfos := fun k => (s.structInfos k).filter (· ≠ o)
    enumInfos := fun k => (s.enumInfos k).filter (· ≠ o)
    ifInfos := fun k => (s.ifInfos k).filter (· ≠ o)
    localPtrInfos := fun k => (s.localPtrInfos k).filter (· ≠ o)
    cppVectorHead := s.cppVectorHead.filter (· ≠ o)
    carArrayInfoHead := s.carArrayInfoHead.filter (· ≠ o) }

def Op.call (W : World) (depth : Nat) : Op → Call Nat
  | dataType m t check => acquireDataTypeInfo W depth m t check
  | intrinsic d size => acquireIntrinsicInfo W d size
  | localType type size => acquireLocalTypeInfo type size
  | localPtr m t pointer => acquireLocalPtrInfo m t pointer
  | staticStruct m index =>
    acquireStaticStructInfo W (fun a => acquireDataTypeInfo W depth m (.desc a) true) m index
  | staticEnum m index => acquireStaticEnumInfo m index
  | interface m index => acquireInterfaceInfo W m index
  | cppVector element length => acquireCppVectorInfo element length
  | carArray quintetType element => acquireCarArrayInfo quintetType element
  | dynamic isEnum => Call.new (.dynamic isEnum)
  | release o => fun s => (.ok o, s.release o)

/-- The object list, called again and again; each event says which allocations of
the call succeed. -/
def objInfoList (W : World) (depth : Nat) : Machine Caches (Op × List Bool) where
  step s e := (e.1.call W depth { s with allocs := e.2 }).2

end SuperExe.Reflection.TypeInfo
