import SuperExe.Lib.Places
import SuperExe.Reflection.ArgumentList
import SuperExe.Reflection.StructInfo

/-! # Boxes of variables

A `CVariableOfStruct`, `CVariableOfCppVector` or `CVariableOfCarArray` sets and reads
the fields or elements of a variable in place (`reflection/CVariableOf*.cpp`). The
setters hand a `PVoid` to one function, which copies as many bytes as the field or
element has. Those for an `EMuid` or an `EGuid` of a struct or a `CarArray` hand it the
address of their own argument, a pointer, instead of the pointer
(`setThenGet_iff`).
-/

namespace SuperExe.Reflection.Boxes

open SuperExe.Core SuperExe.Lib.Places SuperExe.Lib.Layout SuperExe.Reflection.StructInfo
open SuperExe.Reflection.TypeInfo (CarDataType dataTypeSize)
open SuperExe.Reflection.ArgumentList (withBytes)

/-- What a `PVoid` points to. -/
abbrev Pointed := ArgumentList.Pointed

inductive ECode where
  | noError
  | invalidArgument
  | invalidOperation
  | doesNotExist
deriving DecidableEq, Repr

abbrev Memory := Nat → UInt8

/-- Where a field or an element is. -/
structure Place where
  pos : Nat
  size : Nat
deriving DecidableEq, Repr

/-- The `memcpy` of a setter into the place its checks lead to. -/
def store (m : Memory) (param : Option Pointed) : Except ECode Place → ECode × Memory
  | .error e => (e, m)
  | .ok p =>
    match param with
    | some q => (.noError, put m p.pos (get q.bytes 0 p.size))
    | none => (.noError, m)

/-- The `memcpy` of a getter: the bytes it writes to its argument. -/
def load (m : Memory) : Except ECode Place → ECode × List UInt8
  | .error e => (e, [])
  | .ok p => (.noError, get m p.pos p.size)

/-! ## The types of fields and elements -/

/-- The sizes of the types that a setter has values for; there is none for a local type,
which has a size of its own, and for the types with parts. -/
def valueSize : CarDataType → Option Nat
  | .localType | .arrayOf | .cppVector | .struct => none
  | type => some (dataTypeSize type)

/-- An info answers `GetSize` with the size of its type. -/
structure Known (t : Info) : Prop where
  nonneg : 0 ≤ t.size
  value : ∀ n, valueSize t.dataType = some n → t.size = n

/-- A `CStructInfo`: its fields, no longer together than a `MemorySize` says, and what
`InitFieldElement` made of them. -/
structure CStructInfo (b : Build) where
  fields : List (String × Info)
  known : ∀ f ∈ fields, Known f.2
  short : (fields.map fun f => f.2.size.toNat).sum < 2 ^ 31
  mStructFieldDesc : List StructFieldDesc
  mSize : UInt32
  laid : initFieldElement b fields = some (mStructFieldDesc, mSize)

/-! ## Structs -/

/-- `mVarBuf` is `0` for `NULL`. -/
structure CVariableOfStruct (b : Build) where
  mStructInfo : CStructInfo b
  mVarBuf : Nat

namespace CVariableOfStruct

variable {b : Build} (s : CVariableOfStruct b)

/-- `GetIndexByName` -/
def getIndexByName (name : String) : Option Nat :=
  s.mStructInfo.mStructFieldDesc.findIdx? fun d => name = d.mName

/-- The field at an index. -/
def place (i : Nat) : Option Place :=
  (s.mStructInfo.mStructFieldDesc[i]?).map fun d =>
    { pos := s.mVarBuf + d.mPos.toNat, size := d.mSize.toNat }

/-- The checks of `SetFieldValueByName` and `GetFieldValueByName`, with `given` for
`param` not `NULL`, and the place they lead to. -/
def fieldPlace (name : Option String) (given : Bool) (type : CarDataType) : Except ECode Place :=
  match name with
  | none => .error .invalidArgument
  | some name =>
    if ¬ given then .error .invalidArgument
    else if s.mVarBuf = 0 then .error .invalidOperation
    else
      match s.getIndexByName name with
      | none => .error .doesNotExist
      | some index =>
        match s.mStructInfo.mStructFieldDesc[index]? with
        | none => .error .doesNotExist
        | some d =>
          if type ≠ d.mType then .error .invalidArgument
          else .ok { pos := s.mVarBuf + d.mPos.toNat, size := d.mSize.toNat }

/-- `SetFieldValueByName` -/
def setFieldValueByName (m : Memory) (name : Option String) (param : Option Pointed)
    (type : CarDataType) : ECode × Memory :=
  store m param (s.fieldPlace name param.isSome type)

/-- `GetFieldValueByName` -/
def getFieldValueByName (m : Memory) (name : Option String) (given : Bool) (type : CarDataType) :
    ECode × List UInt8 :=
  load m (s.fieldPlace name given type)

end CVariableOfStruct

/-! ## Vectors -/

/-- `mDataType` and `mElementSize` are those of the element type. -/
structure CVariableOfCppVector where
  mElementTypeInfo : Info
  known : Known mElementTypeInfo
  mLength : Int
  mVarPtr : Nat

namespace CVariableOfCppVector

variable (v : CVariableOfCppVector)

def mDataType : CarDataType := v.mElementTypeInfo.dataType

def mElementSize : Int := v.mElementTypeInfo.size

/-- The checks of `SetElementValue` and `GetElementValue`, with `given` for `param` not
`NULL`, and the index of the element they lead to. -/
def checkElement (index : Int) (given : Bool) (type : CarDataType) : Except ECode Int :=
  if index < 0 ∨ v.mLength ≤ index ∨ ¬ given then .error .invalidArgument
  else if v.mDataType ≠ type ∨ v.mVarPtr = 0 then .error .invalidOperation
  else .ok index

/-- `(PByte)mVarPtr + mElementSize * index` -/
def elementAt (index : Int) : Place where
  pos := (v.mVarPtr + v.mElementSize * index).toNat
  size := v.mElementSize.toNat

/-- The element at an index. -/
def place (i : Nat) : Option Place :=
  if (i : Int) < v.mLength then some (v.elementAt i) else none

/-- `SetElementValue` -/
def setElementValue (m : Memory) (index : Int) (param : Option Pointed) (type : CarDataType) :
    ECode × Memory :=
  store m param ((v.checkElement index param.isSome type).map v.elementAt)

/-- `GetElementValue` -/
def getElementValue (m : Memory) (index : Int) (given : Bool) (type : CarDataType) :
    ECode × List UInt8 :=
  load m ((v.checkElement index given type).map v.elementAt)

end CVariableOfCppVector

/-! ## Arrays -/

structure CarQuintet where
  mFlags : UInt32
  mUsed : Int
  mSize : Int
  mBuf : Nat

/-- `mLength` is what the constructor computes; `Rebox` leaves it. -/
structure CVariableOfCarArray where
  mElementTypeInfo : Info
  known : Known mElementTypeInfo
  /-- `assert(mElementSize)` -/
  sized : mElementTypeInfo.size ≠ 0
  mCq : CarQuintet
  mLength : Int

namespace CVariableOfCarArray

variable (a : CVariableOfCarArray)

def mDataType : CarDataType := a.mElementTypeInfo.dataType

def mElementSize : Int := a.mElementTypeInfo.size

/-- `GetUsed` -/
def getUsed : Int := a.mCq.mUsed.tdiv a.mElementSize

/-- The number of elements the quintet has room for. -/
def count : Int := a.mCq.mSize.tdiv a.mElementSize

/-- The checks of `SetElementValue` and `GetElementValue`, with `given` for `param` not
`NULL`, and the index of the element they lead to. -/
def checkElement (index : Int) (given : Bool) (type : CarDataType) : Except ECode Int :=
  if ¬ given then .error .invalidArgument
  else if a.mLength ≤ index ∨ a.getUsed ≤ index then .error .invalidArgument
  else if a.mDataType ≠ type ∨ a.mCq.mBuf = 0 then .error .invalidOperation
  else .ok index

/-- `(PByte)mCq->mBuf + mElementSize * index` -/
def elementAt (index : Int) : Place where
  pos := (a.mCq.mBuf + a.mElementSize * index).toNat
  size := a.mElementSize.toNat

/-- The element at an index. -/
def place (i : Nat) : Option Place :=
  if (i : Int) < a.count then some (a.elementAt i) else none

/-- `SetElementValue` -/
def setElementValue (m : Memory) (index : Int) (param : Option Pointed) (type : CarDataType) :
    ECode × Memory :=
  store m param ((a.checkElement index param.isSome type).map a.elementAt)

/-- `GetElementValue` -/
def getElementValue (m : Memory) (index : Int) (given : Bool) (type : CarDataType) :
    ECode × List UInt8 :=
  load m ((a.checkElement index given type).map a.elementAt)

end CVariableOfCarArray

/-! ## The setters -/

/-- What a setter passes on, and the value it is given, for a place of some size.
`param` takes the variable whose address is passed; a pointer that is `NULL` has no
value. -/
structure SetArgs where
  type : CarDataType
  param : Pointed → Option Pointed
  value : Nat → Option (List UInt8)

/-- `&value` of a number or a pointer. -/
def copied (type : CarDataType) (width value : Nat) : SetArgs where
  type := type
  param slot := some (withBytes (littleEndian width value) slot)
  value _ := some (littleEndian width value)

/-- `value`, a pointer to the value. -/
def pointed (type : CarDataType) (value : Option Pointed) : SetArgs where
  type := type
  param _ := value
  value size := value.map fun p => get p.bytes 0 size

/-- `&value` of a pointer to the value. -/
def addressOf (type : CarDataType) (value : Option Pointed) : SetArgs where
  type := type
  param slot :=
    some (withBytes (littleEndian 4 (value.elim 0 fun p => p.addr.toNat)) slot)
  value size := value.map fun p => get p.bytes 0 size

/-- The setters of a struct. Numbers and pointers are given by their bits. -/
inductive SetField where
  | setInt16Field (value : UInt16)
  | setInt32Field (value : UInt32)
  | setInt64Field (value : UInt64)
  | setByteField (value : UInt8)
  | setFloatField (value : UInt32)
  | setDoubleField (value : UInt64)
  | setCharField (value : UInt32)
  | setBooleanField (value : UInt8)
  | setEMuidField (value : Option Pointed)
  | setEGuidField (value : Option Pointed)
  | setECodeField (value : UInt32)
  | setLocalPtrField (value : UInt32)
  | setLocalTypeField (value : Option Pointed)
  | setEnumField (value : UInt32)

/-- The setters of a vector. -/
inductive SetElement where
  | setInt16Element (value : UInt16)
  | setInt32Element (value : UInt32)
  | setInt64Element (value : UInt64)
  | setByteElement (value : UInt8)
  | setFloatElement (value : UInt32)
  | setDoubleElement (value : UInt64)
  | setCharElement (value : UInt32)
  | setBooleanElement (value : UInt8)
  | setEMuidElement (value : Option Pointed)
  | setEGuidElement (value : Option Pointed)
  | setECodeElement (value : UInt32)
  | setLocalPtrElement (value : UInt32)
  | setLocalTypeElement (value : Option Pointed)
  | setEnumElement (value : UInt32)

/-- The setters of a `CarArray`; a `String` is passed by reference. -/
inductive SetCarArrayElement where
  | setInt16Element (value : UInt16)
  | setInt32Element (value : UInt32)
  | setInt64Element (value : UInt64)
  | setByteElement (value : UInt8)
  | setFloatElement (value : UInt32)
  | setDoubleElement (value : UInt64)
  | setEnumElement (value : UInt32)
  | setCharElement (value : UInt32)
  | setStringElement (value : Pointed)
  | setBooleanElement (value : UInt8)
  | setEMuidElement (value : Option Pointed)
  | setEGuidElement (value : Option Pointed)
  | setECodeElement (value : UInt32)
  | setLocalTypeElement (value : Option Pointed)
  | setObjectPtrElement (value : UInt32)

def SetField.args : SetField → SetArgs
  | setInt16Field v => copied .int16 2 v.toNat
  | setInt32Field v => copied .int32 4 v.toNat
  | setInt64Field v => copied .int64 8 v.toNat
  | setByteField v => copied .byte 1 v.toNat
  | setFloatField v => copied .float 4 v.toNat
  | setDoubleField v => copied .double 8 v.toNat
  | setCharField v => copied .char32 4 v.toNat
  | setBooleanField v => copied .boolean 1 v.toNat
  | setEMuidField v => addressOf .emuid v
  | setEGuidField v => addressOf .eguid v
  | setECodeField v => copied .ecode 4 v.toNat
  | setLocalPtrField v => copied .localPtr 4 v.toNat
  | setLocalTypeField v => pointed .localType v
  | setEnumField v => copied .enum 4 v.toNat

def SetElement.args : SetElement → SetArgs
  | setInt16Element v => copied .int16 2 v.toNat
  | setInt32Element v => copied .int32 4 v.toNat
  | setInt64Element v => copied .int64 8 v.toNat
  | setByteElement v => copied .byte 1 v.toNat
  | setFloatElement v => copied .float 4 v.toNat
  | setDoubleElement v => copied .double 8 v.toNat
  | setCharElement v => copied .char32 4 v.toNat
  | setBooleanElement v => copied .boolean 1 v.toNat
  | setEMuidElement v => pointed .emuid v
  | setEGuidElement v => pointed .eguid v
  | setECodeElement v => copied .ecode 4 v.toNat
  | setLocalPtrElement v => copied .localPtr 4 v.toNat
  | setLocalTypeElement v => pointed .localType v
  | setEnumElement v => copied .enum 4 v.toNat

def SetCarArrayElement.args : SetCarArrayElement → SetArgs
  | setInt16Element v => copied .int16 2 v.toNat
  | setInt32Element v => copied .int32 4 v.toNat
  | setInt64Element v => copied .int64 8 v.toNat
  | setByteElement v => copied .byte 1 v.toNat
  | setFloatElement v => copied .float 4 v.toNat
  | setDoubleElement v => copied .double 8 v.toNat
  | setEnumElement v => copied .enum 4 v.toNat
  | setCharElement v => copied .char32 4 v.toNat
  | setStringElement v => pointed .string (some v)
  | setBooleanElement v => copied .boolean 1 v.toNat
  | setEMuidElement v => addressOf .emuid v
  | setEGuidElement v => addressOf .eguid v
  | setECodeElement v => copied .ecode 4 v.toNat
  | setLocalTypeElement v => pointed .localType v
  | setObjectPtrElement v => copied .interface 4 v.toNat

/-! ## The getters -/

/-- The getters of a struct. -/
inductive GetField where
  | getInt16Field | getInt32Field | getInt64Field | getByteField | getFloatField
  | getDoubleField | getCharField | getBooleanField | getEMuidField | getEGuidField
  | getECodeField | getLocalPtrField | getLocalTypeField | getEnumField

/-- The getters of a vector or a `CarArray`. -/
inductive GetElement where
  | getInt16Element | getInt32Element | getInt64Element | getByteElement | getFloatElement
  | getDoubleElement | getCharElement | getStringElement | getBooleanElement | getEMuidElement
  | getEGuidElement | getECodeElement | getLocalPtrElement | getLocalTypeElement
  | getEnumElement | getObjectPtrElement

def GetField.type : GetField → CarDataType
  | getInt16Field => .int16
  | getInt32Field => .int32
  | getInt64Field => .int64
  | getByteField => .byte
  | getFloatField => .float
  | getDoubleField => .double
  | getCharField => .char32
  | getBooleanField => .boolean
  | getEMuidField => .emuid
  | getEGuidField => .eguid
  | getECodeField => .ecode
  | getLocalPtrField => .localPtr
  | getLocalTypeField => .localType
  | getEnumField => .enum

def GetElement.type : GetElement → CarDataType
  | getInt16Element => .int16
  | getInt32Element => .int32
  | getInt64Element => .int64
  | getByteElement => .byte
  | getFloatElement => .float
  | getDoubleElement => .double
  | getCharElement => .char32
  | getStringElement => .string
  | getBooleanElement => .boolean
  | getEMuidElement => .emuid
  | getEGuidElement => .eguid
  | getECodeElement => .ecode
  | getLocalPtrElement => .localPtr
  | getLocalTypeElement => .localType
  | getEnumElement => .enum
  | getObjectPtrElement => .interface

/-- The getter that matches a setter. -/
def SetField.getter : SetField → GetField
  | setInt16Field _ => .getInt16Field
  | setInt32Field _ => .getInt32Field
  | setInt64Field _ => .getInt64Field
  | setByteField _ => .getByteField
  | setFloatField _ => .getFloatField
  | setDoubleField _ => .getDoubleField
  | setCharField _ => .getCharField
  | setBooleanField _ => .getBooleanField
  | setEMuidField _ => .getEMuidField
  | setEGuidField _ => .getEGuidField
  | setECodeField _ => .getECodeField
  | setLocalPtrField _ => .getLocalPtrField
  | setLocalTypeField _ => .getLocalTypeField
  | setEnumField _ => .getEnumField

def SetElement.getter : SetElement → GetElement
  | setInt16Element _ => .getInt16Element
  | setInt32Element _ => .getInt32Element
  | setInt64Element _ => .getInt64Element
  | setByteElement _ => .getByteElement
  | setFloatElement _ => .getFloatElement
  | setDoubleElement _ => .getDoubleElement
  | setCharElement _ => .getCharElement
  | setBooleanElement _ => .getBooleanElement
  | setEMuidElement _ => .getEMuidElement
  | setEGuidElement _ => .getEGuidElement
  | setECodeElement _ => .getECodeElement
  | setLocalPtrElement _ => .getLocalPtrElement
  | setLocalTypeElement _ => .getLocalTypeElement
  | setEnumElement _ => .getEnumElement

def SetCarArrayElement.getter : SetCarArrayElement → GetElement
  | setInt16Element _ => .getInt16Element
  | setInt32Element _ => .getInt32Element
  | setInt64Element _ => .getInt64Element
  | setByteElement _ => .getByteElement
  | setFloatElement _ => .getFloatElement
  | setDoubleElement _ => .getDoubleElement
  | setEnumElement _ => .getEnumElement
  | setCharElement _ => .getCharElement
  | setStringElement _ => .getStringElement
  | setBooleanElement _ => .getBooleanElement
  | setEMuidElement _ => .getEMuidElement
  | setEGuidElement _ => .getEGuidElement
  | setECodeElement _ => .getECodeElement
  | setLocalTypeElement _ => .getLocalTypeElement
  | setObjectPtrElement _ => .getObjectPtrElement

/-! ## Set, then get -/

/-- A call of a setter, of any of the boxes. -/
inductive SetCall (b : Build) where
  | field (box : CVariableOfStruct b) (name : String) (call : SetField)
  | vectorElement (box : CVariableOfCppVector) (index : Nat) (call : SetElement)
  | arrayElement (box : CVariableOfCarArray) (index : Nat) (call : SetCarArrayElement)

namespace SetCall

variable {b : Build}

def args : SetCall b → SetArgs
  | field _ _ call => call.args
  | vectorElement _ _ call => call.args
  | arrayElement _ _ call => call.args

/-- The call, with the variable that has the argument. -/
def run (m : Memory) (slot : Pointed) : SetCall b → ECode × Memory
  | field box name call =>
    box.setFieldValueByName m (some name) (call.args.param slot) call.args.type
  | vectorElement box index call =>
    box.setElementValue m index (call.args.param slot) call.args.type
  | arrayElement box index call =>
    box.setElementValue m index (call.args.param slot) call.args.type

/-- The matching getter, with a pointer to a variable. -/
def read (m : Memory) : SetCall b → ECode × List UInt8
  | field box name call => box.getFieldValueByName m (some name) true call.getter.type
  | vectorElement box index call => box.getElementValue m index true call.getter.type
  | arrayElement box index call => box.getElementValue m index true call.getter.type

/-- The fields or elements of the box, by their index. -/
def place : SetCall b → Nat → Option Place
  | field box _ _ => box.place
  | vectorElement box _ _ => box.place
  | arrayElement box _ _ => box.place

/-- The index of the field or element. -/
def target : SetCall b → Option Nat
  | field box name _ => box.getIndexByName name
  | vectorElement _ index _ => some index
  | arrayElement _ index _ => some index

/-- The type of the field or element is that of the setter. -/
def Typed : SetCall b → Prop
  | field box name call => ∃ i d, box.getIndexByName name = some i ∧
    box.mStructInfo.mStructFieldDesc[i]? = some d ∧ d.mType = call.args.type
  | vectorElement box _ call => box.mDataType = call.args.type
  | arrayElement box _ call => box.mDataType = call.args.type

/-- Any name is given; an index is that of an element. -/
def InRange : SetCall b → Prop
  | field _ _ _ => True
  | vectorElement box index _ => (index : Int) < box.mLength
  | arrayElement box index _ => (index : Int) < box.count

/-- What a successful call sets is what is read, and the rest of the box stays as it is;
an unknown name and another type are refused. -/
def Identity (m : Memory) (slot : Pointed) (c : SetCall b) : Prop :=
  c.InRange →
    ((c.run m slot).1 = .noError →
      ∃ i p bs, c.target = some i ∧ c.place i = some p ∧ c.args.value p.size = some bs ∧
        c.read (c.run m slot).2 = (.noError, bs) ∧
        ∀ j q, j ≠ i → c.place j = some q →
          get (c.run m slot).2 q.pos q.size = get m q.pos q.size) ∧
    (c.target = none ∨ ¬ c.Typed → (c.run m slot).1 ≠ .noError ∧ (c.run m slot).2 = m)

/-- The variable has an address, and the element of an array is in use. -/
def Boxed : SetCall b → Prop
  | field box _ _ => box.mVarBuf ≠ 0
  | vectorElement box _ _ => box.mVarPtr ≠ 0
  | arrayElement box index _ =>
    box.mCq.mBuf ≠ 0 ∧ (index : Int) < box.mLength ∧ (index : Int) < box.getUsed

/-- The pointer to an `EMuid` or an `EGuid` whose address a struct or a `CarArray` is
handed, and the size of the value. -/
def misled : SetCall b → Option (Option Pointed × Nat)
  | field _ _ (.setEMuidField v) => some (v, 16)
  | field _ _ (.setEGuidField v) => some (v, 24)
  | arrayElement _ _ (.setEMuidElement v) => some (v, 16)
  | arrayElement _ _ (.setEGuidElement v) => some (v, 24)
  | _ => none

/-- Such a pointer is not copied into a field or element, unless the pointer and the
bytes behind it happen to be the value. -/
def Spared (slot : Pointed) (c : SetCall b) : Prop :=
  ∀ v size, c.misled = some (v, size) → c.InRange → c.Boxed → c.Typed →
    ∃ p, v = some p ∧
      get (put slot.bytes 0 (littleEndian 4 p.addr.toNat)) 0 size = get p.bytes 0 size

end SetCall

/-! ## Fields do not overlap -/

/-- A place moves by less than the size of its field. -/
theorem adjuctElemOffset_bounds {offset size align p : UInt32}
    (h : adjuctElemOffset offset size align = some p)
    (hroom : offset.toNat + size.toNat < 2 ^ 32) :
    offset.toNat ≤ p.toNat ∧ p.toNat ≤ offset.toNat + size.toNat := by
  have hle : (if size > align then align else size).toNat ≤ size.toNat := by
    split
    · next hgt => exact UInt32.le_iff_toNat_le.mp (UInt32.le_of_lt hgt)
    · exact le_rfl
  simp only [adjuctElemOffset] at h
  generalize (if size > align then align else size) = elem at h hle
  by_cases hne : elem = 0
  · rw [if_pos hne] at h
    cases h
  · rw [if_neg hne, Option.some_inj] at h
    subst h
    split
    · -- the remainder is taken away and a whole `elemSize` is added
      have hmodle : (offset % elem).toNat ≤ offset.toNat := by
        rw [UInt32.toNat_mod]
        exact Nat.mod_le _ _
      have hmodlt : (offset % elem).toNat < elem.toNat := by
        rw [UInt32.toNat_mod]
        refine Nat.mod_lt _ (Nat.pos_of_ne_zero fun hzero => ?_)
        exact hne (UInt32.toNat_inj.mp hzero)
      rw [UInt32.toNat_add, UInt32.toNat_sub_of_le _ _ (UInt32.le_iff_toNat_le.mpr hmodle),
        Nat.mod_eq_of_lt (by omega)]
      omega
    · omega

theorem toNat_ofInt {n : Int} (h : 0 ≤ n) (hlt : n < 2 ^ 32) :
    (UInt32.ofInt n).toNat = n.toNat := by
  have hmod : (n % 2 ^ 32).toNat = n.toNat := by omega
  rw [UInt32.ofInt, hmod]
  exact toNat_ofNat_of_lt (by omega)

/-- Whatever the alignments are, the loop puts one field behind the other, and gives
each the type and the size of its info. -/
theorem initFields_stacked {align : Int} {fields : List (String × Info)} {offset stop : UInt32}
    {descs : List StructFieldDesc} (hrun : initFields align fields offset = some (descs, stop))
    (hknown : ∀ f ∈ fields, Known f.2)
    (hroom : offset.toNat + 2 * (fields.map fun f => f.2.size.toNat).sum < 2 ^ 32) :
    Stacked (fun d : StructFieldDesc => d.mPos.toNat) (fun d => d.mSize.toNat) offset.toNat descs
        stop.toNat ∧
      ∀ d ∈ descs, ∀ n, valueSize d.mType = some n → d.mSize.toNat = n := by
  induction fields generalizing offset descs with
  | nil =>
    cases hrun
    exact ⟨Stacked.nil _, fun d hd => absurd hd List.not_mem_nil⟩
  | cons f rest ih =>
    rcases f with ⟨name, t⟩
    simp only [initFields, Option.bind_eq_bind, Option.bind_eq_some_iff] at hrun
    rcases hrun with ⟨pos, hadjuct, ⟨ds, stop'⟩, hloop, heq⟩
    rw [Option.some_inj, Prod.mk.injEq] at heq
    rcases heq with ⟨rfl, rfl⟩
    have ht : Known t := hknown _ List.mem_cons_self
    have hnonneg := ht.nonneg
    simp only [List.map_cons, List.sum_cons] at hroom
    have hsize : (UInt32.ofInt t.size).toNat = t.size.toNat :=
      toNat_ofInt hnonneg (by omega)
    rcases adjuctElemOffset_bounds hadjuct (by omega) with ⟨hstart, hpos⟩
    have hnext : (pos + UInt32.ofInt t.size).toNat = pos.toNat + t.size.toNat := by
      rw [UInt32.toNat_add, hsize]
      exact Nat.mod_eq_of_lt (by omega)
    rcases ih hloop (fun f hf => hknown f (List.mem_cons_of_mem _ hf)) (by omega) with
      ⟨hstacked, hsized⟩
    constructor
    · rw [hnext, ← hsize] at hstacked
      exact Stacked.cons hstart le_rfl hstacked
    · intro d hd n hn
      rcases List.mem_cons.mp hd with rfl | hd
      · have hvalue := ht.value n hn
        simp only [hsize]
        omega
      · exact hsized d hd n hn

namespace CStructInfo

variable {b : Build} (info : CStructInfo b)

theorem stacked : (∃ stop, Stacked (fun d : StructFieldDesc => d.mPos.toNat)
      (fun d => d.mSize.toNat) 0 info.mStructFieldDesc stop) ∧
    ∀ d ∈ info.mStructFieldDesc, ∀ n, valueSize d.mType = some n → d.mSize.toNat = n := by
  have hlaid := info.laid
  simp only [initFieldElement, Option.bind_eq_bind, Option.bind_eq_some_iff] at hlaid
  rcases hlaid with ⟨⟨descs, stop⟩, hloop, size, hadjuct, heq⟩
  rw [Option.some_inj, Prod.mk.injEq] at heq
  rcases heq with ⟨rfl, rfl⟩
  have hshort := info.short
  rcases initFields_stacked hloop info.known (by rw [UInt32.toNat_zero]; omega) with
    ⟨hstacked, hsized⟩
  exact ⟨⟨_, hstacked⟩, hsized⟩

end CStructInfo

/-! ## The checks -/

theorem map_eq_ok_iff {ε α β : Type} {f : α → β} {x : Except ε α} {y : β} :
    x.map f = .ok y ↔ ∃ i, x = .ok i ∧ f i = y := by
  cases x <;> simp [Except.map]

theorem map_eq_error_iff {ε α β : Type} {f : α → β} {x : Except ε α} {e : ε} :
    x.map f = .error e ↔ x = .error e := by
  cases x <;> simp [Except.map]

namespace CVariableOfStruct

variable {b : Build} {s : CVariableOfStruct b} {name : String} {given : Bool} {type : CarDataType}

theorem fieldPlace_ok_iff {p : Place} :
    s.fieldPlace (some name) given type = .ok p ↔ given = true ∧ s.mVarBuf ≠ 0 ∧
      ∃ i d, s.getIndexByName name = some i ∧ s.mStructInfo.mStructFieldDesc[i]? = some d ∧
        d.mType = type ∧ p = { pos := s.mVarBuf + d.mPos.toNat, size := d.mSize.toNat } := by
  simp only [fieldPlace]
  cases given with
  | false => simp
  | true =>
    rw [if_neg (by simp)]
    by_cases hbuf : s.mVarBuf = 0
    · simp [hbuf]
    rw [if_neg hbuf]
    cases hname : s.getIndexByName name with
    | none => simp
    | some i =>
      cases hd : s.mStructInfo.mStructFieldDesc[i]? with
      | none => simp [hd]
      | some d =>
        by_cases htype : type = d.mType
        · simp [hbuf, hd, htype, eq_comm]
        · simp [hd, htype, Ne.symm htype]

theorem fieldPlace_error {e : ECode} (h : s.fieldPlace (some name) given type = .error e) :
    e ≠ .noError := by
  rintro rfl
  simp only [fieldPlace] at h
  repeat' split at h
  all_goals cases h

end CVariableOfStruct

namespace CVariableOfCppVector

variable {v : CVariableOfCppVector} {index : Int} {given : Bool} {type : CarDataType}

theorem checkElement_ok_iff {i : Int} :
    v.checkElement index given type = .ok i ↔ i = index ∧ (0 ≤ index ∧ index < v.mLength) ∧
      given = true ∧ v.mDataType = type ∧ v.mVarPtr ≠ 0 := by
  rw [checkElement]
  by_cases hindex : index < 0 ∨ v.mLength ≤ index ∨ ¬ given
  · rw [if_pos hindex]
    simp only [reduceCtorEq, false_iff]
    rintro ⟨-, ⟨hlow, hhigh⟩, hgiven, -⟩
    rcases hindex with h | h | h
    · omega
    · omega
    · exact h hgiven
  rw [if_neg hindex]
  push Not at hindex
  by_cases hbad : v.mDataType ≠ type ∨ v.mVarPtr = 0
  · rw [if_pos hbad]
    simp only [reduceCtorEq, false_iff]
    rintro ⟨-, -, -, htype, hptr⟩
    rcases hbad with h | h
    · exact h htype
    · exact hptr h
  · rw [if_neg hbad]
    push Not at hbad
    simp [hindex, hbad, eq_comm]

theorem checkElement_error {e : ECode} (h : v.checkElement index given type = .error e) :
    e ≠ .noError := by
  rintro rfl
  simp only [checkElement] at h
  repeat' split at h
  all_goals cases h

end CVariableOfCppVector

namespace CVariableOfCarArray

variable {a : CVariableOfCarArray} {index : Int} {given : Bool} {type : CarDataType}

/-- A negative index passes. -/
theorem checkElement_ok_iff {i : Int} :
    a.checkElement index given type = .ok i ↔ i = index ∧ given = true ∧
      (index < a.mLength ∧ index < a.getUsed) ∧ a.mDataType = type ∧ a.mCq.mBuf ≠ 0 := by
  rw [checkElement]
  cases given with
  | false => simp
  | true =>
    rw [if_neg (by simp)]
    by_cases hindex : a.mLength ≤ index ∨ a.getUsed ≤ index
    · rw [if_pos hindex]
      simp only [reduceCtorEq, false_iff]
      rintro ⟨-, -, ⟨hlength, hused⟩, -⟩
      omega
    rw [if_neg hindex]
    push Not at hindex
    by_cases hbad : a.mDataType ≠ type ∨ a.mCq.mBuf = 0
    · rw [if_pos hbad]
      simp only [reduceCtorEq, false_iff]
      rintro ⟨-, -, -, htype, hbuf⟩
      rcases hbad with h | h
      · exact h htype
      · exact hbuf h
    · rw [if_neg hbad]
      push Not at hbad
      simp [hindex, hbad, eq_comm]

theorem checkElement_error {e : ECode} (h : a.checkElement index given type = .error e) :
    e ≠ .noError := by
  rintro rfl
  simp only [checkElement] at h
  repeat' split at h
  all_goals cases h

end CVariableOfCarArray

/-! ## One access -/

/-- Places that are apart from each other. -/
def Disjoint (place : Nat → Option Place) : Prop :=
  ∀ i j p q, i ≠ j → place i = some p → place j = some q →
    p.pos + p.size ≤ q.pos ∨ q.pos + q.size ≤ p.pos

theorem CVariableOfStruct.disjoint {b : Build} (s : CVariableOfStruct b) : Disjoint s.place := by
  rcases s.mStructInfo.stacked.1 with ⟨stop, hstacked⟩
  have hpairs := List.pairwise_iff_getElem.mp hstacked.pairwise
  intro i j p q hij hp hq
  simp only [CVariableOfStruct.place, Option.map_eq_some_iff] at hp hq
  rcases hp with ⟨d, hd, rfl⟩
  rcases hq with ⟨e, he, rfl⟩
  rcases List.getElem?_eq_some_iff.mp hd with ⟨hi, rfl⟩
  rcases List.getElem?_eq_some_iff.mp he with ⟨hj, rfl⟩
  rcases Nat.lt_or_gt_of_ne hij with hlt | hgt
  · have hle := hpairs i j hi hj hlt
    exact Or.inl (by simp only; omega)
  · have hle := hpairs j i hj hi hgt
    exact Or.inr (by simp only; omega)

/-- Elements of one size, one after the other. -/
theorem elements_disjoint {base : Nat} {size length : Int} (hsize : 0 ≤ size) :
    Disjoint fun i =>
      if (i : Int) < length then some { pos := (base + size * i).toNat, size := size.toNat }
      else none := by
  lift size to Nat using hsize
  intro i j p q hij hp hq
  simp only [Option.ite_none_right_eq_some, Option.some_inj] at hp hq
  rcases hp with ⟨-, rfl⟩
  rcases hq with ⟨-, rfl⟩
  have hpos : ∀ k : Nat, ((base : Int) + size * k).toNat = base + size * k := fun k => by
    rw [← Int.natCast_mul, ← Int.natCast_add, Int.toNat_natCast]
  simp only [hpos, Int.toNat_natCast]
  rcases Nat.lt_or_gt_of_ne hij with hlt | hgt
  · have hle := Nat.mul_le_mul_left size (Nat.succ_le_of_lt hlt)
    rw [Nat.mul_succ] at hle
    omega
  · have hle := Nat.mul_le_mul_left size (Nat.succ_le_of_lt hgt)
    rw [Nat.mul_succ] at hle
    omega

/-- What is stored in a place is loaded from it, and nothing else changes. -/
theorem load_store {place : Nat → Option Place} (hdisjoint : Disjoint place) {i : Nat} {p : Place}
    (hp : place i = some p) (m : Memory) (q : Pointed) :
    load (store m (some q) (.ok p)).2 (.ok p) = (.noError, get q.bytes 0 p.size) ∧
      ∀ j r, j ≠ i → place j = some r →
        get (store m (some q) (.ok p)).2 r.pos r.size = get m r.pos r.size := by
  have hlen : (get q.bytes 0 p.size).length = p.size := length_get
  constructor
  · have hback : get (put m p.pos (get q.bytes 0 p.size)) p.pos p.size = get q.bytes 0 p.size := by
      rw [get_put_take hlen.ge, List.take_of_length_le hlen.le]
    exact congrArg (Prod.mk ECode.noError) hback
  · intro j r hj hr
    refine get_put_of_apart ?_
    rw [hlen]
    exact hdisjoint j i r p hj hr hp

namespace SetCall

variable {b : Build}

/-- The checks of a call, with `given` for a pointer that is not `NULL`. -/
def access (given : Bool) : SetCall b → Except ECode Place
  | field box name call => box.fieldPlace (some name) given call.args.type
  | vectorElement box index call =>
    (box.checkElement index given call.args.type).map box.elementAt
  | arrayElement box index call =>
    (box.checkElement index given call.args.type).map box.elementAt

theorem run_eq (m : Memory) (slot : Pointed) (c : SetCall b) :
    c.run m slot = store m (c.args.param slot) (c.access (c.args.param slot).isSome) := by
  cases c <;> rfl

theorem read_eq (m : Memory) (c : SetCall b) : c.read m = load m (c.access true) := by
  cases c with
  | field box name call => cases call <;> rfl
  | vectorElement box index call => cases call <;> rfl
  | arrayElement box index call => cases call <;> rfl

theorem disjoint (c : SetCall b) : Disjoint c.place := by
  cases c with
  | field box name call => exact box.disjoint
  | vectorElement box index call => exact elements_disjoint box.known.nonneg
  | arrayElement box index call => exact elements_disjoint box.known.nonneg

theorem access_error {c : SetCall b} {given : Bool} {e : ECode} (h : c.access given = .error e) :
    e ≠ .noError := by
  cases c with
  | field box name call => exact CVariableOfStruct.fieldPlace_error h
  | vectorElement box index call =>
    exact CVariableOfCppVector.checkElement_error (map_eq_error_iff.mp h)
  | arrayElement box index call =>
    exact CVariableOfCarArray.checkElement_error (map_eq_error_iff.mp h)

/-- The checks let a call pass that has a value of the right type for a field or an
element of a variable. -/
theorem access_ok_iff {c : SetCall b} (hrange : c.InRange) {given : Bool} {p : Place} :
    c.access given = .ok p ↔ given = true ∧ c.Boxed ∧ c.Typed ∧
      ∃ i, c.target = some i ∧ c.place i = some p := by
  cases c with
  | field box name call =>
    rw [access, CVariableOfStruct.fieldPlace_ok_iff]
    refine and_congr_right fun _ => and_congr_right fun _ => ?_
    constructor
    · rintro ⟨i, d, hi, hd, htype, rfl⟩
      exact ⟨⟨i, d, hi, hd, htype⟩, i, hi, by simp only [place, CVariableOfStruct.place, hd,
        Option.map_some]⟩
    · rintro ⟨⟨i, d, hi, hd, htype⟩, j, hj, hp⟩
      have hij : i = j := Option.some.inj (hi.symm.trans hj)
      subst hij
      simp only [place, CVariableOfStruct.place, hd, Option.map_some, Option.some_inj] at hp
      exact ⟨i, d, hi, hd, htype, hp.symm⟩
  | vectorElement box index call =>
    have hlt : (index : Int) < box.mLength := hrange
    simp only [access, map_eq_ok_iff, CVariableOfCppVector.checkElement_ok_iff, Boxed, Typed,
      target, place, Option.some_inj, exists_eq_left', CVariableOfCppVector.place, if_pos hlt]
    constructor
    · rintro ⟨i, ⟨rfl, -, hgiven, htype, hptr⟩, hp⟩
      exact ⟨hgiven, hptr, htype, hp⟩
    · rintro ⟨hgiven, hptr, htype, hp⟩
      exact ⟨index, ⟨rfl, ⟨by omega, hlt⟩, hgiven, htype, hptr⟩, hp⟩
  | arrayElement box index call =>
    have hlt : (index : Int) < box.count := hrange
    simp only [access, map_eq_ok_iff, CVariableOfCarArray.checkElement_ok_iff, Boxed, Typed,
      target, place, Option.some_inj, exists_eq_left', CVariableOfCarArray.place, if_pos hlt]
    constructor
    · rintro ⟨i, ⟨rfl, hgiven, hused, htype, hbuf⟩, hp⟩
      exact ⟨hgiven, ⟨hbuf, hused⟩, htype, hp⟩
    · rintro ⟨hgiven, ⟨hbuf, hused⟩, htype, hp⟩
      exact ⟨index, ⟨rfl, hgiven, hused, htype, hbuf⟩, hp⟩

/-- The place of a field or an element has the size of its type. -/
theorem size_of_typed {c : SetCall b} (htyped : c.Typed) {i : Nat} {p : Place}
    (htarget : c.target = some i) (hp : c.place i = some p) {n : Nat}
    (hn : valueSize c.args.type = some n) : p.size = n := by
  cases c with
  | field box name call =>
    rcases htyped with ⟨j, d, hj, hd, htype⟩
    have hsame : j = i := Option.some.inj (hj.symm.trans htarget)
    subst hsame
    simp only [place, CVariableOfStruct.place, hd, Option.map_some, Option.some_inj] at hp
    rw [← hp]
    refine box.mStructInfo.stacked.2 d (List.mem_of_getElem? hd) n ?_
    rw [htype]
    exact hn
  | vectorElement box index call =>
    simp only [place, CVariableOfCppVector.place, Option.ite_none_right_eq_some,
      Option.some_inj] at hp
    have htype : box.mElementTypeInfo.dataType = call.args.type := htyped
    have hsize := box.known.value n (htype ▸ hn)
    rw [← hp.2]
    simp only [CVariableOfCppVector.elementAt, CVariableOfCppVector.mElementSize]
    omega
  | arrayElement box index call =>
    simp only [place, CVariableOfCarArray.place, Option.ite_none_right_eq_some,
      Option.some_inj] at hp
    have htype : box.mElementTypeInfo.dataType = call.args.type := htyped
    have hsize := box.known.value n (htype ▸ hn)
    rw [← hp.2]
    simp only [CVariableOfCarArray.elementAt, CVariableOfCarArray.mElementSize]
    omega

/-- What a setter passes on: the address of a copy, the pointer to the value, or the
address of that pointer. -/
inductive Passes (c : SetCall b) : Prop
  | copied (type : CarDataType) (width value : Nat) (sized : valueSize type = some width)
      (args : c.args = Boxes.copied type width value) (misled : c.misled = none)
  | pointed (type : CarDataType) (value : Option Pointed)
      (args : c.args = Boxes.pointed type value) (misled : c.misled = none)
  | addressOf (type : CarDataType) (value : Option Pointed) (size : Nat)
      (sized : valueSize type = some size) (args : c.args = Boxes.addressOf type value)
      (misled : c.misled = some (value, size))

theorem passes (c : SetCall b) : c.Passes := by
  cases c with
  | field box name call =>
    cases call <;>
      first
      | exact .copied _ _ _ rfl rfl rfl
      | exact .pointed _ _ rfl rfl
      | exact .addressOf _ _ _ rfl rfl rfl
  | vectorElement box index call =>
    cases call <;>
      first
      | exact .copied _ _ _ rfl rfl rfl
      | exact .pointed _ _ rfl rfl
  | arrayElement box index call =>
    cases call <;>
      first
      | exact .copied _ _ _ rfl rfl rfl
      | exact .pointed _ _ rfl rfl
      | exact .addressOf _ _ _ rfl rfl rfl

/-- Where the checks let a call pass, the bytes it copies are its value exactly when it
is spared. -/
theorem value_iff {c : SetCall b} {slot q : Pointed} (hrange : c.InRange) (hboxed : c.Boxed)
    (htyped : c.Typed) {i : Nat} {p : Place} (htarget : c.target = some i)
    (hp : c.place i = some p) (hq : c.args.param slot = some q) :
    c.args.value p.size = some (get q.bytes 0 p.size) ↔ c.Spared slot := by
  have hsize := fun n hn => size_of_typed htyped htarget hp (n := n) hn
  -- the box is given a copy, its own pointer, or an address
  rcases c.passes with ⟨type, width, value, sized, args, hmisled⟩ | ⟨type, value, args, hmisled⟩ |
    ⟨type, value, size, sized, args, hmisled⟩
  · rw [args] at hq hsize ⊢
    have hlen := @length_littleEndian width value
    have hbytes : get q.bytes 0 p.size = littleEndian width value := by
      rw [← Option.some.inj hq, hsize width sized]
      show get (put slot.bytes 0 (littleEndian width value)) 0 width = _
      rw [get_put_take hlen.ge, List.take_of_length_le hlen.le]
    rw [hbytes]
    refine iff_of_true rfl ?_
    intro v n h
    rw [hmisled] at h
    cases h
  · rw [args] at hq ⊢
    refine iff_of_true ?_ ?_
    · have hvalue : value = some q := hq
      rw [hvalue]
      rfl
    · intro v n h
      rw [hmisled] at h
      cases h
  · rw [args] at hq hsize ⊢
    have hsame := hsize size sized
    have hbytes : q.bytes =
        put slot.bytes 0 (littleEndian 4 (value.elim 0 fun p => p.addr.toNat)) := by
      rw [← Option.some.inj hq]
      rfl
    rw [hbytes, hsame]
    -- only for the last one the memory behind the address counts
    constructor
    · intro hvalue v n h _ _ _
      rw [hmisled, Option.some_inj, Prod.mk.injEq] at h
      rcases h with ⟨rfl, rfl⟩
      rcases Option.map_eq_some_iff.mp hvalue with ⟨r, rfl, hr⟩
      exact ⟨r, rfl, hr.symm⟩
    · intro hspared
      rcases hspared value size hmisled hrange hboxed htyped with ⟨r, rfl, hr⟩
      simp only [Boxes.addressOf, Option.map_some, Option.elim_some, Option.some_inj]
      exact hr.symm

theorem exists_place {c : SetCall b} (hrange : c.InRange) (htyped : c.Typed) :
    ∃ i p, c.target = some i ∧ c.place i = some p := by
  cases c with
  | field box name call =>
    rcases htyped with ⟨i, d, hi, hd, -⟩
    refine ⟨i, { pos := box.mVarBuf + d.mPos.toNat, size := d.mSize.toNat }, hi, ?_⟩
    simp only [place, CVariableOfStruct.place, hd, Option.map_some]
  | vectorElement box index call => exact ⟨index, _, rfl, if_pos hrange⟩
  | arrayElement box index call => exact ⟨index, _, rfl, if_pos hrange⟩

end SetCall

/-- A setter sets what the matching getter reads, and nothing else, unless it copies a
pointer to an `EMuid` or an `EGuid` in place of the value. -/
theorem setThenGet_iff {b : Build} (c : SetCall b) (m : Memory) (slot : Pointed) :
    c.Identity m slot ↔ c.Spared slot := by
  constructor
  · intro hidentity v size hmisled hrange hboxed htyped
    rcases SetCall.exists_place hrange htyped with ⟨i, p, htarget, hp⟩
    have haccess : c.access true = .ok p :=
      (SetCall.access_ok_iff hrange).mpr ⟨rfl, hboxed, htyped, i, htarget, hp⟩
    obtain ⟨q, hq⟩ : ∃ q, c.args.param slot = some q := by
      rcases c.passes with ⟨_, _, _, _, args, _⟩ | ⟨_, _, _, hnone⟩ | ⟨_, _, _, _, args, _⟩
      · exact ⟨_, by rw [args]; rfl⟩
      · exact absurd (hnone.symm.trans hmisled) (Option.some_ne_none _).symm
      · exact ⟨_, by rw [args]; rfl⟩
    have hrun : c.run m slot = store m (some q) (.ok p) := by
      rw [SetCall.run_eq, hq]
      exact congrArg _ haccess
    rcases (hidentity hrange).1 (by rw [hrun]; rfl) with ⟨j, r, bs, hj, hr, hvalue, hread, -⟩
    have hij : i = j := Option.some.inj (htarget.symm.trans hj)
    subst hij
    have hpr : p = r := Option.some.inj (hp.symm.trans hr)
    subst hpr
    -- the getter returns what was copied
    rw [SetCall.read_eq, haccess, hrun, (load_store c.disjoint hp m q).1] at hread
    have hbytes : get q.bytes 0 p.size = bs := congrArg Prod.snd hread
    rw [← hbytes] at hvalue
    exact (SetCall.value_iff hrange hboxed htyped htarget hp hq).mp hvalue v size hmisled hrange
      hboxed htyped
  · intro hspared hrange
    rw [SetCall.run_eq]
    cases haccess : c.access (c.args.param slot).isSome with
    | error e =>
      have hne := SetCall.access_error haccess
      exact ⟨fun h => absurd h hne, fun _ => ⟨hne, rfl⟩⟩
    | ok p =>
      rcases (SetCall.access_ok_iff hrange).mp haccess with
        ⟨hgiven, hboxed, htyped, i, htarget, hp⟩
      rcases Option.isSome_iff_exists.mp hgiven with ⟨q, hq⟩
      rw [hgiven] at haccess
      rw [hq]
      rcases load_store c.disjoint hp m q with ⟨hload, hother⟩
      constructor
      · intro _
        refine ⟨i, p, get q.bytes 0 p.size, htarget, hp, ?_, ?_, hother⟩
        · exact (SetCall.value_iff hrange hboxed htyped htarget hp hq).mpr hspared
        · rw [SetCall.read_eq, haccess, hload]
      · rintro (hnone | huntyped)
        · exact absurd (htarget.symm.trans hnone) (Option.some_ne_none _)
        · exact absurd htyped huntyped

/-! ## A struct with an `EMuid` -/

/-- `struct { EMuid id; }` -/
def muidInfo : CStructInfo boundFour where
  fields := [("id", { dataType := .emuid, size := 16, maxAlign := 0 })]
  known := by
    intro f hf
    cases List.mem_singleton.mp hf
    exact ⟨by decide, fun n hn => by cases hn; rfl⟩
  short := by decide
  mStructFieldDesc := [{ mName := "id", mPos := 0, mSize := 16, mType := .emuid }]
  mSize := 16
  laid := by decide

/-- An `EMuid` of sevens, at 8192. -/
def sevens : Pointed where
  addr := 8192
  bytes _ := 7

/-- `SetEMuidField("id", value)` with a struct at 4096. -/
def setId : SetCall boundFour :=
  .field { mStructInfo := muidInfo, mVarBuf := 4096 } "id" (.setEMuidField (some sevens))

/-- The field gets the address 8192 and what is behind the pointer. -/
theorem setId_sets_address :
    ¬ ∀ (b : Build) (c : SetCall b) (m : Memory) (slot : Pointed), c.Identity m slot := by
  intro h
  have hrun : (setId.run (fun _ => 0) { addr := 64, bytes := fun _ => 0 }).1 = .noError := by decide
  rcases (h boundFour setId (fun _ => 0) { addr := 64, bytes := fun _ => 0 } trivial).1 hrun with
    ⟨i, p, bs, htarget, hp, hvalue, hread, -⟩
  have hzero : setId.target = some 0 := by decide
  rw [hzero, Option.some_inj] at htarget
  have hplace : setId.place 0 = some { pos := 4096, size := 16 } := by decide
  rw [← htarget, hplace, Option.some_inj] at hp
  have hsevens : setId.args.value 16 = some (List.replicate 16 7) := by decide
  rw [← hp, hsevens, Option.some_inj] at hvalue
  have haddress : setId.read (setId.run (fun _ => 0) { addr := 64, bytes := fun _ => 0 }).2 =
      (.noError, [0, 32] ++ List.replicate 14 0) := by decide
  rw [haddress, ← hvalue] at hread
  exact absurd hread (by decide)

end SuperExe.Reflection.Boxes
