import Mathlib.Data.List.Forall2
import SuperExe.Lib.Places
import SuperExe.Lib.Trace
import SuperExe.Reflection.MethodInfo

/-! # Argument lists

`CArgumentList` puts the arguments of a call into the parameter buffer
(`reflection/CArgumentList.cpp`), and `CCallbackArgumentList` reads such a buffer
with the same elements (`reflection/CCallbackArgumentList.cpp`). All setters hand a
`PVoid` to `SetParamValue`: the address of the argument, or of a variable with the
argument, or the argument itself.
-/

namespace SuperExe.Reflection.ArgumentList

open SuperExe.Lib SuperExe.Lib.Places SuperExe.Reflection.TypeInfo SuperExe.Reflection.Arguments

/-! ## The lists -/

inductive ECode where
  | noError
  | invalidArgument
  | invalidOperation
  | noInterface
deriving DecidableEq, Repr

/-- The buffer of a list and its elements, those of the method. -/
structure ParamList where
  mParamElem : List ParmElement
  mParamBufSize : UInt32
  mParamBuf : Nat → UInt8

/-- `Init`, after `CreateFunctionArgumentList` has rounded the size of the buffer up
on ARM. -/
def init (arm : Bool) (elems : List ParmElement) (paramBufSize : UInt32) : ParamList where
  mParamElem := elems
  mParamBufSize := if arm then round8 paramBufSize else paramBufSize
  mParamBuf := fun _ => 0

/-- A `CarDataType`, or `CarDataType_CarArray` of the reflection. -/
inductive ArgType where
  | plain (type : CarDataType)
  | carArray
deriving DecidableEq, Repr

/-- What a `PVoid` points to: an address, and the bytes from there on. -/
structure Pointed where
  addr : UInt32
  bytes : Nat → UInt8

section List

variable (l : ParamList) (index : Int)

/-- `mParamElem[index]` -/
def elemAt : Option ParmElement := if 0 ≤ index then l.mParamElem[index.toNat]? else none

/-- The type after `CarDataType_CarArray` has been replaced. There is none where
behind the elements is read. -/
def castType : ArgType → Option ArgType
  | .plain type => some (.plain type)
  | .carArray =>
    (elemAt l index).map fun e => if e.mType = .arrayOf then .plain .arrayOf else .carArray

/-- `SetParamValue` -/
def setParamValue (param : Pointed) (type : ArgType) (attrib : ParamIOAttribute) (pointer : Int) :
    Option (ECode × ParamList) :=
  match castType l index type with
  | none => none
  | some type =>
    match elemAt l index with
    | none => some (.invalidArgument, l)
    | some e =>
      if e.mAttrib ≠ attrib ∨ type ≠ .plain e.mType ∨
          (type ≠ .plain .localPtr ∧ e.mPointer ≠ pointer) then
        some (.invalidArgument, l)
      else if l.mParamBufSize < e.mPos + e.mSize then some (.invalidOperation, l)
      else if e.mSize = 4 ∧ type = .plain .string then
        -- the address itself, not what it points to
        some (.noError,
          { l with mParamBuf := put l.mParamBuf e.mPos.toNat (littleEndian 4 param.addr.toNat) })
      else if e.mSize = 1 ∨ e.mSize = 2 ∨ e.mSize = 4 ∨ e.mSize = 8 then
        some (.noError,
          { l with mParamBuf := put l.mParamBuf e.mPos.toNat (get param.bytes 0 e.mSize.toNat) })
      else some (.invalidOperation, l)

/-- `GetParamValue`: the bytes that are written to `param`, which may be `NULL`. -/
def getParamValue (given : Bool) (type : ArgType) : Option (ECode × List UInt8) :=
  match castType l index type with
  | none => none
  | some type =>
    match elemAt l index with
    | none => some (.invalidArgument, [])
    | some e =>
      if ¬ given ∨ type ≠ .plain e.mType then some (.invalidArgument, [])
      else if e.mSize = 1 ∨ e.mSize = 2 ∨ e.mSize = 4 ∨ e.mSize = 8 then
        some (.noError, get l.mParamBuf e.mPos.toNat e.mSize.toNat)
      else some (.invalidOperation, [])

end List

/-! ## The setters -/

/-- What a setter passes to `SetParamValue`, and the bytes of the value it is given,
for a place of some size. `param` takes the variable whose address is passed. -/
structure SetArgs where
  type : ArgType
  attrib : ParamIOAttribute
  pointer : Int
  param : Pointed → Pointed
  value : Nat → List UInt8

/-- A variable with these bytes. -/
def withBytes (bs : List UInt8) (slot : Pointed) : Pointed :=
  { slot with bytes := put slot.bytes 0 bs }

/-- The setters that pass the address of their argument. -/
def copied (type : ArgType) (attrib : ParamIOAttribute) (pointer : Int) (width value : Nat) :
    SetArgs where
  type := type
  attrib := attrib
  pointer := pointer
  param := withBytes (littleEndian width value)
  value := fun _ => littleEndian width value

/-- The setters that pass the address of `UInt32 nParam`. -/
def widened (type : CarDataType) (width value : Nat) (nParam : UInt32) : SetArgs where
  type := .plain type
  attrib := .input
  pointer := 0
  param := withBytes (littleEndian 4 nParam.toNat)
  value := fun _ => littleEndian width value

/-- A call of a setter with its argument. Pointers are numbers; `Float` and `Double`
are given by their bits. `value->Probe(iid)` returns `probed`. -/
inductive SetCall where
  | setInputArgumentOfInt16 (value : Int16)
  | setInputArgumentOfInt32 (value : UInt32)
  | setInputArgumentOfInt64 (value : UInt64)
  | setInputArgumentOfByte (value : UInt8)
  | setInputArgumentOfFloat (value : UInt32)
  | setInputArgumentOfDouble (value : UInt64)
  | setInputArgumentOfChar (value : UInt32)
  | setInputArgumentOfString (value : Pointed)
  | setInputArgumentOfBoolean (value : UInt8)
  | setInputArgumentOfEMuid (value : UInt32)
  | setInputArgumentOfEGuid (value : UInt32)
  | setInputArgumentOfECode (value : UInt32)
  | setInputArgumentOfLocalPtr (value : UInt32)
  | setInputArgumentOfLocalType (value : Pointed)
  | setInputArgumentOfEnum (value : UInt32)
  | setInputArgumentOfCarArray (value : UInt32)
  | setInputArgumentOfStructPtr (value : UInt32)
  | setInputArgumentOfObjectPtr (value probed : UInt32)
  | setOutputArgumentOfInt16Ptr (value : UInt32)
  | setOutputArgumentOfInt32Ptr (value : UInt32)
  | setOutputArgumentOfInt64Ptr (value : UInt32)
  | setOutputArgumentOfBytePtr (value : UInt32)
  | setOutputArgumentOfFloatPtr (value : UInt32)
  | setOutputArgumentOfDoublePtr (value : UInt32)
  | setOutputArgumentOfCharPtr (value : UInt32)
  | setOutputArgumentOfStringPtr (value : Pointed)
  | setOutputArgumentOfBooleanPtr (value : UInt32)
  | setOutputArgumentOfEMuidPtr (value : UInt32)
  | setOutputArgumentOfEGuidPtr (value : UInt32)
  | setOutputArgumentOfECodePtr (value : UInt32)
  | setOutputArgumentOfLocalPtrPtr (value : UInt32)
  | setOutputArgumentOfLocalTypePtr (value : UInt32)
  | setOutputArgumentOfEnumPtr (value : UInt32)
  | setOutputArgumentOfCarArrayPtr (value : UInt32)
  | setOutputArgumentOfCarArrayPtrPtr (value : UInt32)
  | setOutputArgumentOfStructPtr (value : UInt32)
  | setOutputArgumentOfStructPtrPtr (value : UInt32)
  | setOutputArgumentOfObjectPtrPtr (value : UInt32)

/-- The setters for a pointer to what is returned. -/
def outPtr (type : ArgType) (pointer : Int) (value : UInt32) : SetArgs :=
  copied type .callerAllocOut pointer 4 value.toNat

namespace SetCall

def args : SetCall → SetArgs
  | setInputArgumentOfInt16 v => widened .int16 2 v.toUInt16.toNat v.toInt32.toUInt32
  | setInputArgumentOfInt32 v => copied (.plain .int32) .input 0 4 v.toNat
  | setInputArgumentOfInt64 v => copied (.plain .int64) .input 0 8 v.toNat
  | setInputArgumentOfByte v => widened .byte 1 v.toNat v.toUInt32
  | setInputArgumentOfFloat v => copied (.plain .float) .input 0 4 v.toNat
  | setInputArgumentOfDouble v => copied (.plain .double) .input 0 8 v.toNat
  | setInputArgumentOfChar v => widened .char32 4 v.toNat v
  | setInputArgumentOfString v =>
    -- the value of a `String` is the pointer it holds
    { type := .plain .string
      attrib := .input
      pointer := 0
      param := fun _ => v
      value := fun _ => get v.bytes 0 4 }
  | setInputArgumentOfBoolean v => widened .boolean 1 v.toNat v.toUInt32
  | setInputArgumentOfEMuid v => copied (.plain .emuid) .input 0 4 v.toNat
  | setInputArgumentOfEGuid v => copied (.plain .eguid) .input 0 4 v.toNat
  | setInputArgumentOfECode v => copied (.plain .ecode) .input 0 4 v.toNat
  | setInputArgumentOfLocalPtr v => copied (.plain .localPtr) .input 0 4 v.toNat
  | setInputArgumentOfLocalType v =>
    { type := .plain .localType
      attrib := .input
      pointer := 0
      param := fun _ => v
      value := fun size => get v.bytes 0 size }
  | setInputArgumentOfEnum v => copied (.plain .enum) .input 0 4 v.toNat
  | setInputArgumentOfCarArray v => copied .carArray .input 0 4 v.toNat
  | setInputArgumentOfStructPtr v => copied (.plain .struct) .input 0 4 v.toNat
  | setInputArgumentOfObjectPtr v probed =>
    copied (.plain .interface) .input 1 4 (if v = 0 then 0 else probed.toNat)
  | setOutputArgumentOfInt16Ptr v => outPtr (.plain .int16) 1 v
  | setOutputArgumentOfInt32Ptr v => outPtr (.plain .int32) 1 v
  | setOutputArgumentOfInt64Ptr v => outPtr (.plain .int64) 1 v
  | setOutputArgumentOfBytePtr v => outPtr (.plain .byte) 1 v
  | setOutputArgumentOfFloatPtr v => outPtr (.plain .float) 1 v
  | setOutputArgumentOfDoublePtr v => outPtr (.plain .double) 1 v
  | setOutputArgumentOfCharPtr v => outPtr (.plain .char32) 1 v
  | setOutputArgumentOfStringPtr v =>
    { type := .plain .string
      attrib := .callerAllocOut
      pointer := 1
      param := fun _ => v
      value := fun _ => littleEndian 4 v.addr.toNat }
  | setOutputArgumentOfBooleanPtr v => outPtr (.plain .boolean) 1 v
  | setOutputArgumentOfEMuidPtr v => outPtr (.plain .emuid) 1 v
  | setOutputArgumentOfEGuidPtr v => outPtr (.plain .eguid) 1 v
  | setOutputArgumentOfECodePtr v => outPtr (.plain .ecode) 1 v
  | setOutputArgumentOfLocalPtrPtr v => outPtr (.plain .localPtr) 1 v
  | setOutputArgumentOfLocalTypePtr v => outPtr (.plain .localType) 1 v
  | setOutputArgumentOfEnumPtr v => outPtr (.plain .enum) 1 v
  | setOutputArgumentOfCarArrayPtr v => outPtr .carArray 0 v
  | setOutputArgumentOfCarArrayPtrPtr v => copied .carArray .calleeAllocOut 2 4 v.toNat
  | setOutputArgumentOfStructPtr v => outPtr (.plain .struct) 1 v
  | setOutputArgumentOfStructPtrPtr v => copied (.plain .struct) .calleeAllocOut 2 4 v.toNat
  | setOutputArgumentOfObjectPtrPtr v => outPtr (.plain .interface) 2 v

/-- The first lines of `SetInputArgumentOfObjectPtr`; the other setters have none. -/
def refused (l : ParamList) (index : Int) : SetCall → Option (Option ECode)
  | setInputArgumentOfObjectPtr v probed =>
    (elemAt l index).map fun e =>
      if e.mType ≠ .interface then some .invalidArgument
      else if v ≠ 0 ∧ probed = 0 then some .noInterface
      else none
  | _ => some none

/-- The call, with the variable that has the argument. -/
def run (l : ParamList) (index : Int) (slot : Pointed) (c : SetCall) :
    Option (ECode × ParamList) :=
  match c.refused l index with
  | none => none
  | some (some e) => some (e, l)
  | some none =>
    setParamValue l index (c.args.param slot) c.args.type c.args.attrib c.args.pointer

end SetCall

/-! ## The getters -/

inductive GetCall where
  | getInt16Argument | getInt32Argument | getInt64Argument | getByteArgument | getFloatArgument
  | getDoubleArgument | getCharArgument | getStringArgument | getBooleanArgument
  | getEMuidArgument | getEGuidArgument | getECodeArgument | getLocalPtrArgument
  | getEnumArgument | getCarArrayArgument | getStructPtrArgument | getObjectPtrArgument

namespace GetCall

def type : GetCall → ArgType
  | getInt16Argument => .plain .int16
  | getInt32Argument => .plain .int32
  | getInt64Argument => .plain .int64
  | getByteArgument => .plain .byte
  | getFloatArgument => .plain .float
  | getDoubleArgument => .plain .double
  | getCharArgument => .plain .char32
  | getStringArgument => .plain .string
  | getBooleanArgument => .plain .boolean
  | getEMuidArgument => .plain .emuid
  | getEGuidArgument => .plain .eguid
  | getECodeArgument => .plain .ecode
  | getLocalPtrArgument => .plain .localPtr
  | getEnumArgument => .plain .enum
  | getCarArrayArgument => .carArray
  | getStructPtrArgument => .plain .struct
  | getObjectPtrArgument => .plain .interface

/-- The call, with a pointer to a variable. -/
def run (l : ParamList) (index : Int) (g : GetCall) : Option (ECode × List UInt8) :=
  getParamValue l index true g.type

end GetCall

/-! ## Runs -/

/-- The size a parameter needs, on ARM or elsewhere. -/
def paramSize (arm : Bool) (mod : ClsModule) (param : ParamDescriptor) : Nat :=
  match resolve natLevels mod (.desc param.mType) true with
  | .ok (_, d, level) => (sizeOfParam arm d.type level).toNat
  | .error _ => 0

/-- A call for one of the parameters. -/
structure SetEvent where
  index : Nat
  call : SetCall
  slot : Pointed

/-- A list and the values that were last set. -/
structure State where
  list : ParamList
  values : Nat → Option (List UInt8)

def SetEvent.run (e : SetEvent) (l : ParamList) : Option (ECode × ParamList) :=
  e.call.run l e.index e.slot

/-- The list of a method, with one call after the other. -/
def argumentList (arm : Bool) (mod : ClsModule) (method : MethodDescriptor) :
    Machine State SetEvent where
  step s e :=
    match e.run s.list, method.mParams[e.index]? with
    | some (.noError, l), some param =>
      { list := l
        values := Function.update s.values e.index
          (some (e.call.args.value (paramSize arm mod param))) }
    | some (_, l), _ => { s with list := l }
    | none, _ => s

def start (arm : Bool) (elems : List ParmElement) (mParamBufSize : UInt32) : State where
  list := init arm elems mParamBufSize
  values _ := none

/-- A failing call changes nothing, any other one only the place of its parameter. -/
def Framed (l : ParamList) (e : SetEvent) : Prop :=
  ∃ elem code l', l.mParamElem[e.index]? = some elem ∧ e.run l = some (code, l') ∧
    (code ≠ .noError → l' = l) ∧
    l'.mParamElem = l.mParamElem ∧ l'.mParamBufSize = l.mParamBufSize ∧
    ∀ i, i < elem.mPos.toNat ∨ elem.mPos.toNat + elem.mSize.toNat ≤ i →
      l'.mParamBuf i = l.mParamBuf i

/-- The value last set for a parameter is what is read with its own type, and so by
every getter for it. -/
def Returns (s : State) : Prop :=
  ∀ index bs, s.values index = some bs → ∃ e, s.list.mParamElem[index]? = some e ∧
    getParamValue s.list index true (.plain e.mType) = some (.noError, bs) ∧
    ∀ g : GetCall, castType s.list index g.type = some (.plain e.mType) →
      g.run s.list index = some (.noError, bs)

/-- A call for a parameter whose pointer levels are seen; no `String` is passed. -/
def Settable (mod : ClsModule) (method : MethodDescriptor) (_ : State) (e : SetEvent) : Prop :=
  (∃ param, method.mParams[e.index]? = some param ∧ LevelsSeen mod param) ∧
    ∀ value, e.call ≠ .setInputArgumentOfString value

/-! ## What is stored -/

section Stored

variable {l : ParamList} {index : Nat} {e : ParmElement}

theorem elemAt_nat : elemAt l (index : Int) = l.mParamElem[index]? := by
  rw [elemAt, if_pos (Int.natCast_nonneg index), Int.toNat_natCast]

theorem castType_some (he : l.mParamElem[index]? = some e) (type : ArgType) :
    ∃ type', castType l index type = some type' := by
  cases type with
  | plain type => exact ⟨_, rfl⟩
  | carArray =>
    rw [castType, elemAt_nat, he]
    exact ⟨_, rfl⟩

/-- The element takes an argument of this type, attribute and pointer level. -/
structure Accepts (l : ParamList) (index : Nat) (e : ParmElement) (args : SetArgs) : Prop where
  type : castType l index args.type = some (.plain e.mType)
  attrib : e.mAttrib = args.attrib
  pointer : e.mType = .localPtr ∨ e.mPointer = args.pointer

/-- The bytes `SetParamValue` stores. -/
def storedBytes (e : ParmElement) (param : Pointed) : List UInt8 :=
  if e.mSize = 4 ∧ e.mType = .string then littleEndian 4 param.addr.toNat
  else get param.bytes 0 e.mSize.toNat

/-- The sizes `SetParamValue` and `GetParamValue` know. -/
def Storable (size : UInt32) : Prop := size = 1 ∨ size = 2 ∨ size = 4 ∨ size = 8

theorem length_storedBytes (e : ParmElement) (param : Pointed) :
    (storedBytes e param).length = e.mSize.toNat := by
  rw [storedBytes]
  split
  case isTrue h =>
    rw [length_littleEndian, h.1]
    rfl
  case isFalse => exact length_get

/-- `SetParamValue` fails and changes nothing, or it stores the bytes in the place of
the parameter. -/
theorem setParamValue_cases (he : l.mParamElem[index]? = some e) (args : SetArgs) (param : Pointed) :
    (∃ code, code ≠ .noError ∧
      setParamValue l index param args.type args.attrib args.pointer = some (code, l)) ∨
    Accepts l index e args ∧ Storable e.mSize ∧
      setParamValue l index param args.type args.attrib args.pointer =
        some (.noError,
          { l with mParamBuf := put l.mParamBuf e.mPos.toNat (storedBytes e param) }) := by
  rcases castType_some he args.type with ⟨type, htype⟩
  rw [setParamValue, htype]
  simp only [elemAt_nat, he]
  by_cases hbad : e.mAttrib ≠ args.attrib ∨ type ≠ .plain e.mType ∨
      (type ≠ .plain .localPtr ∧ e.mPointer ≠ args.pointer)
  · rw [if_pos hbad]
    exact Or.inl ⟨.invalidArgument, by decide, rfl⟩
  rw [if_neg hbad]
  push Not at hbad
  rcases hbad with ⟨hattrib, rfl, hpointer⟩
  have haccepts : Accepts l index e args := by
    refine ⟨htype, hattrib, or_iff_not_imp_left.mpr fun hlocal => hpointer fun h => hlocal ?_⟩
    exact ArgType.plain.inj h
  by_cases hroom : l.mParamBufSize < e.mPos + e.mSize
  · rw [if_pos hroom]
    exact Or.inl ⟨.invalidOperation, by decide, rfl⟩
  rw [if_neg hroom, storedBytes]
  simp only [ArgType.plain.injEq]
  by_cases hstring : e.mSize = 4 ∧ e.mType = .string
  · rw [if_pos hstring, if_pos hstring]
    exact Or.inr ⟨haccepts, Or.inr (Or.inr (Or.inl hstring.1)), rfl⟩
  rw [if_neg hstring, if_neg hstring]
  by_cases hsize : e.mSize = 1 ∨ e.mSize = 2 ∨ e.mSize = 4 ∨ e.mSize = 8
  · rw [if_pos hsize]
    exact Or.inr ⟨haccepts, hsize, rfl⟩
  · rw [if_neg hsize]
    exact Or.inl ⟨.invalidOperation, by decide, rfl⟩

theorem getParamValue_eq (he : l.mParamElem[index]? = some e) {type : ArgType}
    (htype : castType l index type = some (.plain e.mType)) (hsize : Storable e.mSize) :
    getParamValue l index true type =
      some (.noError, get l.mParamBuf e.mPos.toNat e.mSize.toNat) := by
  rw [getParamValue, htype]
  simp only [elemAt_nat, he]
  rw [if_neg (by simp)]
  exact if_pos hsize

/-- A setter fails and changes nothing, or it stores the bytes. -/
theorem run_cases (he : l.mParamElem[index]? = some e) (c : SetCall) (slot : Pointed) :
    (∃ code, code ≠ .noError ∧ c.run l index slot = some (code, l)) ∨
    Accepts l index e c.args ∧ Storable e.mSize ∧
      c.run l index slot = some (.noError,
        { l with mParamBuf := put l.mParamBuf e.mPos.toNat (storedBytes e (c.args.param slot)) }) := by
  have hset := setParamValue_cases he c.args (c.args.param slot)
  rw [SetCall.run]
  cases c
  case setInputArgumentOfObjectPtr v probed =>
    simp only [SetCall.refused, elemAt_nat, he, Option.map_some]
    by_cases htype : e.mType ≠ .interface
    · rw [if_pos htype]
      exact Or.inl ⟨.invalidArgument, by decide, rfl⟩
    · rw [if_neg htype]
      by_cases hprobed : v ≠ 0 ∧ probed = 0
      · rw [if_pos hprobed]
        exact Or.inl ⟨.noInterface, by decide, rfl⟩
      · rw [if_neg hprobed]
        exact hset
  all_goals exact hset

end Stored

/-! ## The sizes of the places -/

section Sizes

/-- The width of an argument that is passed itself. -/
def inputWidth : CarDataType → Nat
  | .int16 => 2
  | .int64 => 8
  | .byte => 1
  | .double => 8
  | .boolean => 1
  | _ => 4

variable {arm : Bool} {attribs : UInt32} {type : CARDataType} {level p : Int} {t : CarDataType}
  {a : ParamIOAttribute}

theorem sizeOfParam_pos (h : 0 < level) : sizeOfParam arm type level = 4 := if_pos (Or.inl h)

theorem inputWidth_eq (h : level = 0) (hlocal : getCarDataType type ≠ .localType) :
    (sizeOfParam arm type level).toNat = inputWidth (getCarDataType type) := by
  subst h
  cases type <;> first | rfl | exact absurd rfl hlocal

/-- What the element of a parameter tells of its size. -/
structure Fits (t : CarDataType) (a : ParamIOAttribute) (p : Int) (size : UInt32) : Prop where
  localPtr : t = .localPtr → size = 4
  input : a = .input → t ≠ .localPtr → t ≠ .localType → size.toNat = inputWidth t
  output : a = .callerAllocOut → 1 ≤ p → size = 4
  address : t = .arrayOf ∨ t = .struct → size = 4

theorem fits_four (h : a ≠ .input ∨ t = .localPtr ∨ inputWidth t = 4) : Fits t a p 4 := by
  refine ⟨fun _ => rfl, fun ha ht _ => ?_, fun _ _ => rfl, fun _ => rfl⟩
  rcases h with h | h | h
  · exact absurd ha h
  · exact absurd h ht
  · exact h.symm

theorem getCarDataType_ne_localPtr : getCarDataType type ≠ .localPtr := by
  cases type <;> decide

theorem sizeOfParam_address (h : getCarDataType type = .arrayOf ∨ getCarDataType type = .struct) :
    sizeOfParam arm type level = 4 := by
  refine if_pos (Or.inr ?_)
  cases type <;> first | rfl | exact absurd h (by decide)

/-- The type and the attribute of an element, and its size. -/
theorem fits_of_typeAndAttrib (hlevel : 0 ≤ level)
    (h : (t, a, p) = typeAndAttrib attribs (getCarDataType type) level) :
    Fits t a p (sizeOfParam arm type level) := by
  rw [typeAndAttrib] at h
  split_ifs at h with hin hif hone hpos htwo htwo' hstring hcallee <;> cases h
  -- an interface that is passed in
  · rw [sizeOfParam_pos (by omega)]
    exact fits_four (Or.inr (Or.inl rfl))
  · have hfour : sizeOfParam arm type level = 4 := by
      cases type <;> first | exact ite_self _ | exact absurd hif (by decide)
    rw [hfour, hif]
    exact fits_four (Or.inr (Or.inr rfl))
  -- any other type that is passed in
  · rw [sizeOfParam_pos hpos]
    exact fits_four (Or.inr (Or.inl rfl))
  · have hzero : level = 0 := by omega
    exact ⟨fun ht => absurd ht getCarDataType_ne_localPtr, fun _ _ => inputWidth_eq hzero,
      fun ha => absurd ha (by decide), fun ht => sizeOfParam_address ht⟩
  -- what is returned
  · rw [sizeOfParam_pos (by omega)]
    exact fits_four (Or.inl (by decide))
  · rw [sizeOfParam_pos (by omega)]
    exact fits_four (Or.inl (by decide))
  · rw [sizeOfParam_pos (by omega)]
    exact fits_four (Or.inl (by decide))
  · exact ⟨fun ht => absurd ht getCarDataType_ne_localPtr, fun ha => absurd ha (by decide),
      fun ha => absurd ha (by decide), fun ht => sizeOfParam_address ht⟩
  · exact ⟨fun ht => absurd ht getCarDataType_ne_localPtr, fun ha => absurd ha (by decide),
      fun _ hp => sizeOfParam_pos (by omega), fun ht => sizeOfParam_address ht⟩

variable {mod : ClsModule} {param : ParamDescriptor} {e : ParmElement}

/-- An element whose pointer levels are seen has the size of its parameter, which fits
its type. -/
theorem elem_fits (h : IsElem mod arm param e) (hseen : LevelsSeen mod param) :
    e.mSize.toNat = paramSize arm mod param ∧ Fits e.mType e.mAttrib e.mPointer e.mSize := by
  have hsized := h.sized_iff.mpr hseen
  rcases h with ⟨t, d, level, level', hlevels, hsize, htriple⟩
  have horiginal : Original mod param d level := ⟨t, hlevels.nat⟩
  have hseenle := hlevels.seen_le
  have hbyte := hlevels.byte_le
  constructor
  · rw [hsized d level horiginal, paramSize, hlevels.nat]
  · have heq : e.mSize = sizeOfParam arm d.type level' := by
      rw [hsize]
      refine (seenSize_iff hseenle).mpr fun hpos hzero => ?_
      exact hseen d level horiginal (by omega) hzero
    rw [heq]
    have hzero : 0 ≤ (seen d).pointer := Int.emod_nonneg _ (by decide)
    exact fits_of_typeAndAttrib (hzero.trans hseenle) htriple

end Sizes

/-! ## The stored values -/

section Values

variable {l : ParamList} {index : Nat} {e : ParmElement} {args : SetArgs} {t : CarDataType}

theorem accepts_plain (h : Accepts l index e args) (hargs : args.type = .plain t) : e.mType = t := by
  have htype := h.type
  rw [hargs, castType, Option.some_inj, ArgType.plain.injEq] at htype
  exact htype.symm

theorem accepts_carArray (he : l.mParamElem[index]? = some e) (h : Accepts l index e args)
    (hargs : args.type = .carArray) : e.mType = .arrayOf := by
  have htype := h.type
  rw [hargs, castType, elemAt_nat, he, Option.map_some, Option.some_inj] at htype
  by_contra hother
  rw [if_neg hother] at htype
  cases htype

/-- The place of an argument that is passed itself. -/
theorem size_input (hfits : Fits e.mType e.mAttrib e.mPointer e.mSize) (h : Accepts l index e args)
    (htype : args.type = .plain t) (hattrib : args.attrib = .input) (hptr : t ≠ .localPtr)
    (hlocal : t ≠ .localType) : e.mSize.toNat = inputWidth t := by
  have ht := accepts_plain h htype
  rw [← ht] at hptr hlocal ⊢
  exact hfits.input (h.attrib.trans hattrib) hptr hlocal

/-- The place of a pointer to what is returned. -/
theorem size_output (hfits : Fits e.mType e.mAttrib e.mPointer e.mSize) (h : Accepts l index e args)
    (hattrib : args.attrib = .callerAllocOut)
    (hpointer : args.pointer = 1 ∨ args.pointer = 2) : e.mSize.toNat = 4 := by
  rcases h.pointer with hlocal | heq
  · rw [hfits.localPtr hlocal]
    rfl
  · rw [hfits.output (h.attrib.trans hattrib) (by omega)]
    rfl

theorem size_address (hfits : Fits e.mType e.mAttrib e.mPointer e.mSize)
    (h : e.mType = .arrayOf ∨ e.mType = .struct) : e.mSize.toNat = 4 := by
  rw [hfits.address h]
  rfl

variable {type : ArgType} {attrib : ParamIOAttribute} {pointer : Int} {width value : Nat}
  {slot : Pointed}

theorem stored_copied (hwidth : e.mSize.toNat = width) (hstring : e.mType ≠ .string) :
    storedBytes e ((copied type attrib pointer width value).param slot) =
      littleEndian width value := by
  have hlen := @length_littleEndian width value
  rw [storedBytes, if_neg fun h => hstring h.2, hwidth]
  show get (put slot.bytes 0 (littleEndian width value)) 0 width = _
  rw [get_put_take hlen.ge, List.take_of_length_le hlen.le]

/-- The low bytes of `nParam` are those of the argument. -/
theorem stored_widened {nParam : UInt32} (hwidth : e.mSize.toNat = width) (hle : width ≤ 4)
    (hstring : e.mType ≠ .string) (hvalue : nParam.toNat % 256 ^ width = value % 256 ^ width) :
    storedBytes e ((widened t width value nParam).param slot) = littleEndian width value := by
  have hlen := @length_littleEndian 4 nParam.toNat
  rw [storedBytes, if_neg fun h => hstring h.2, hwidth]
  show get (put slot.bytes 0 (littleEndian 4 nParam.toNat)) 0 width = _
  rw [get_put_take (by omega), take_littleEndian hle, littleEndian_congr hvalue]

theorem toNat_signExtend (v : Int16) :
    v.toInt32.toUInt32.toNat % 256 ^ 2 = v.toUInt16.toNat % 256 ^ 2 := by
  have hext := @BitVec.toNat_signExtend 16 v.toBitVec 32
  have hlt := v.toBitVec.isLt
  have hwidth : (v.toBitVec.setWidth 32).toNat = v.toBitVec.toNat := by
    rw [BitVec.toNat_setWidth]
    exact Nat.mod_eq_of_lt (by omega)
  show (v.toBitVec.signExtend 32).toNat % 256 ^ 2 = v.toBitVec.toNat % 256 ^ 2
  rw [hext, hwidth]
  split <;> omega

/-- What is stored is the value of the argument. -/
theorem stored_value (he : l.mParamElem[index]? = some e) (c : SetCall)
    (h : Accepts l index e c.args) (hfits : Fits e.mType e.mAttrib e.mPointer e.mSize)
    (hstring : ∀ v, c ≠ .setInputArgumentOfString v) :
    storedBytes e (c.args.param slot) = c.args.value e.mSize.toNat := by
  cases c
  case setInputArgumentOfString v => exact absurd rfl (hstring v)
  case setInputArgumentOfInt16 v =>
    exact stored_widened (size_input hfits h rfl rfl (by decide) (by decide)) (by decide)
      (by rw [accepts_plain h rfl]; decide) (toNat_signExtend v)
  case setInputArgumentOfByte v =>
    exact stored_widened (size_input hfits h rfl rfl (by decide) (by decide)) (by decide)
      (by rw [accepts_plain h rfl]; decide) rfl
  case setInputArgumentOfBoolean v =>
    exact stored_widened (size_input hfits h rfl rfl (by decide) (by decide)) (by decide)
      (by rw [accepts_plain h rfl]; decide) rfl
  case setInputArgumentOfChar v =>
    exact stored_widened (size_input hfits h rfl rfl (by decide) (by decide)) (by decide)
      (by rw [accepts_plain h rfl]; decide) rfl
  case setInputArgumentOfLocalPtr v =>
    have hlocal := accepts_plain h rfl
    exact stored_copied (by rw [hfits.localPtr hlocal]; rfl) (by rw [hlocal]; decide)
  case setInputArgumentOfLocalType v =>
    rw [storedBytes, if_neg fun hs => absurd (accepts_plain h rfl) (by rw [hs.2]; decide)]
    rfl
  case setInputArgumentOfCarArray v =>
    have harray := accepts_carArray he h rfl
    exact stored_copied (size_address hfits (Or.inl harray)) (by rw [harray]; decide)
  case setOutputArgumentOfStringPtr v =>
    have hsize := size_output hfits h rfl (Or.inl rfl)
    rw [storedBytes, if_pos ⟨UInt32.toNat_inj.mp hsize, accepts_plain h rfl⟩]
    rfl
  case setOutputArgumentOfCarArrayPtr v =>
    have harray := accepts_carArray he h rfl
    exact stored_copied (size_address hfits (Or.inl harray)) (by rw [harray]; decide)
  case setOutputArgumentOfCarArrayPtrPtr v =>
    have harray := accepts_carArray he h rfl
    exact stored_copied (size_address hfits (Or.inl harray)) (by rw [harray]; decide)
  case setOutputArgumentOfStructPtrPtr v =>
    have hstruct := accepts_plain h rfl
    exact stored_copied (size_address hfits (Or.inr hstruct)) (by rw [hstruct]; decide)
  -- the other setters are alike
  all_goals first
    | exact stored_copied (size_input hfits h rfl rfl (by decide) (by decide))
        (by rw [accepts_plain h rfl]; decide)
    | exact stored_copied (size_output hfits h rfl (Or.inl rfl))
        (by rw [accepts_plain h rfl]; decide)
    | exact stored_copied (size_output hfits h rfl (Or.inr rfl))
        (by rw [accepts_plain h rfl]; decide)

end Values

/-! ## Steps and runs -/

section Runs

variable {mod : ClsModule} {method : MethodDescriptor} {elems : List ParmElement} {s : State}
  {e : SetEvent}

/-- What is kept along a run: the elements of the method, and in the place of a
parameter the value last set for it. -/
structure Kept (elems : List ParmElement) (s : State) : Prop where
  same : s.list.mParamElem = elems
  values : ∀ index bs, s.values index = some bs → ∃ elem, elems[index]? = some elem ∧
    Storable elem.mSize ∧ get s.list.mParamBuf elem.mPos.toNat elem.mSize.toNat = bs

theorem kept_start (arm : Bool) (elems : List ParmElement) (size : UInt32) :
    Kept elems (start arm elems size) := by
  refine ⟨rfl, fun index bs h => ?_⟩
  cases h

/-- Two parameters have places that are apart. -/
theorem apart_of_ne (h : elems.Pairwise fun e f => e.mPos.toNat + e.mSize.toNat ≤ f.mPos.toNat)
    {i j : Nat} {x y : ParmElement} (hi : elems[i]? = some x) (hj : elems[j]? = some y)
    (hne : i ≠ j) : x.mPos.toNat + x.mSize.toNat ≤ y.mPos.toNat ∨
      y.mPos.toNat + y.mSize.toNat ≤ x.mPos.toNat := by
  rcases List.getElem?_eq_some_iff.mp hi with ⟨hilt, rfl⟩
  rcases List.getElem?_eq_some_iff.mp hj with ⟨hjlt, rfl⟩
  rcases Nat.lt_or_gt_of_ne hne with hlt | hlt
  · exact Or.inl (List.pairwise_iff_getElem.mp h i j hilt hjlt hlt)
  · exact Or.inr (List.pairwise_iff_getElem.mp h j i hjlt hilt hlt)

/-- A call for one of the parameters changes its place at most. -/
theorem framed {l : ParamList} (h : e.index < l.mParamElem.length) : Framed l e := by
  rcases run_cases (List.getElem?_eq_getElem h) e.call e.slot with
    ⟨code, hcode, hrun⟩ | ⟨-, -, hrun⟩
  · exact ⟨_, code, l, List.getElem?_eq_getElem h, hrun, fun _ => rfl, rfl, rfl, fun _ _ => rfl⟩
  · refine ⟨_, .noError, _, List.getElem?_eq_getElem h, hrun, fun hne => absurd rfl hne, rfl, rfl,
      fun i hi => put_of_outside ?_⟩
    rwa [length_storedBytes]

/-- The elements stay those of the method, whatever the calls are. -/
theorem step_elems (hs : s.list.mParamElem = elems) (he : e.index < elems.length)
    (hlen : method.mParams.length = elems.length) :
    ((argumentList arm mod method).step s e).list.mParamElem = elems := by
  subst hs
  have hlt : e.index < method.mParams.length := hlen ▸ he
  have hparam := List.getElem?_eq_getElem hlt
  rcases framed he with ⟨elem, code, l', -, hrun, -, helems, -⟩
  rw [argumentList]
  simp only [hrun, hparam]
  cases code <;> exact helems

theorem step_kept (hplaces : elems.Pairwise fun e f => e.mPos.toNat + e.mSize.toNat ≤ f.mPos.toNat)
    (helems : List.Forall₂ (IsElem mod arm) method.mParams elems) (hs : Kept elems s)
    (he : Settable mod method s e) : Kept elems ((argumentList arm mod method).step s e) := by
  rcases he with ⟨⟨param, hparam, hseen⟩, hstring⟩
  have hlt := (List.getElem?_eq_some_iff.mp hparam).1
  have hlt' : e.index < elems.length := helems.length_eq ▸ hlt
  have helem := List.getElem?_eq_getElem hlt'
  generalize elems[e.index] = elem at helem
  have hisElem : IsElem mod arm param elem := by
    have hget := helems.get hlt hlt'
    simp only [List.get_eq_getElem] at hget
    rwa [(List.getElem?_eq_some_iff.mp hparam).2, (List.getElem?_eq_some_iff.mp helem).2] at hget
  rcases elem_fits hisElem hseen with ⟨hsize, hfits⟩
  have hin : s.list.mParamElem[e.index]? = some elem := hs.same ▸ helem
  rw [argumentList]
  rcases run_cases hin e.call e.slot with ⟨code, hcode, hrun⟩ | ⟨haccepts, hstorable, hrun⟩
  · simp only [SetEvent.run, hrun, hparam]
    cases code
    case noError => exact absurd rfl hcode
    all_goals exact hs
  · simp only [SetEvent.run, hrun, hparam]
    have hvalue : storedBytes elem (e.call.args.param e.slot) = e.call.args.value (paramSize arm mod param) := by
      rw [stored_value hin e.call haccepts hfits hstring, hsize]
    have hlen := length_storedBytes elem (e.call.args.param e.slot)
    refine ⟨hs.same, fun index bs hbs => ?_⟩
    by_cases hindex : index = e.index
    · subst hindex
      dsimp only at hbs
      rw [Function.update_self, Option.some_inj] at hbs
      refine ⟨elem, helem, hstorable, ?_⟩
      rw [← hbs, ← hvalue, ← hlen]
      exact get_put
    · dsimp only at hbs
      rw [Function.update_of_ne hindex] at hbs
      rcases hs.values index bs hbs with ⟨other, hother, hother', hget⟩
      refine ⟨other, hother, hother', ?_⟩
      rw [← hget]
      refine get_put_of_apart ?_
      rw [hlen]
      exact apart_of_ne hplaces hother helem hindex

theorem returns_of_kept (h : Kept elems s) : Returns s := by
  intro index bs hbs
  rcases h.values index bs hbs with ⟨elem, helem, hstorable, hget⟩
  have hin : s.list.mParamElem[index]? = some elem := h.same ▸ helem
  refine ⟨elem, hin, ?_, fun g hg => ?_⟩
  · rw [getParamValue_eq hin rfl hstorable, hget]
  · rw [GetCall.run, getParamValue_eq hin hg hstorable, hget]

end Runs

/-- A module with the types `Int16`, `String`, `Double` and `EventHandler`. -/
def plainTypes : ClsModule where
  desc a :=
    { type :=
        match a with
        | 0 => .int16
        | 1 => .string
        | 2 => .double
        | _ => .eventHandler
      index := 0
      pointer := 0
      nested := none }
  structs _ := []
  arrays _ := (0, 0)
  aliases := []
  iid _ := 0

theorem stringIn_count_lt :
    [({ mType := 1, mAttribs := 1 } : ParamDescriptor)].length < 65536 := by
  decide

/-- `[in] String` -/
def stringIn : MethodDescriptor where
  mParams := [{ mType := 1, mAttribs := 1 }]
  count_lt := stringIn_count_lt

/-- `[in] Int16, [in] EventHandler, [in] Double` -/
def threeIn : MethodDescriptor where
  mParams := [{ mType := 0, mAttribs := 1 }, { mType := 3, mAttribs := 1 },
    { mType := 2, mAttribs := 1 }]
  count_lt := by decide

/-- The places of the three on ARM, where the handler has 16 bytes. -/
def threeElems : List ParmElement :=
  [{ mPos := 4, mSize := 2, mType := .int16, mAttrib := .input, mPointer := 0 },
    { mPos := 8, mSize := 16, mType := .localType, mAttrib := .input, mPointer := 0 },
    { mPos := 24, mSize := 8, mType := .double, mAttrib := .input, mPointer := 0 }]

theorem threeIn_elems :
    initParmElement plainTypes (fun _ => 0) true true threeIn = .ok (threeElems, 32) := rfl

/-- A variable that was used before. -/
def used : Pointed where
  addr := 100
  bytes _ := 255

/-- The last parameter is set first, the handler is refused, and the first one is set
twice. -/
def outOfOrder : List SetEvent :=
  [{ index := 2, call := .setInputArgumentOfDouble 5, slot := used },
    { index := 0, call := .setInputArgumentOfInt16 3, slot := used },
    { index := 1, call := .setInputArgumentOfLocalType used, slot := used },
    { index := 0, call := .setInputArgumentOfInt16 7, slot := used }]

theorem levelsSeen_plainTypes {param : ParamDescriptor} (h : param ∈ threeIn.mParams) :
    LevelsSeen plainTypes param := by
  rintro d level ⟨t, ht⟩ hlevel
  rcases List.mem_cons.mp h with rfl | h
  · cases ht
    exact absurd hlevel (by decide)
  rcases List.mem_cons.mp h with rfl | h
  · cases ht
    exact absurd hlevel (by decide)
  rcases List.mem_singleton.mp h with rfl
  cases ht
  exact absurd hlevel (by decide)

/-- A `String` at the address 4096 that holds the pointer 8192. -/
def setString : SetEvent where
  index := 0
  call := .setInputArgumentOfString
    { addr := 4096, bytes := put (fun _ => 0) 0 (littleEndian 4 8192) }
  slot := { addr := 100, bytes := fun _ => 255 }

end SuperExe.Reflection.ArgumentList
