import SuperExe.Reflection.VariableBoxes

/-! # Indexes of arguments and elements

Every setter and getter with an index leaves the check of it to a few functions
(`reflection/CArgumentList.cpp`, `CCallbackArgumentList.cpp`,
`CVariableOfCppVector.cpp` and `CVariableOfCarArray.cpp`). The argument lists look at
the element of a `CarArray` or an object before they check the index; a `CarArray`
takes negative indexes, has no check for its structs, and goes on counting with the
length of the first array it boxed (`index_safety`).
-/

namespace SuperExe.Reflection.Boxes

open SuperExe.Lib SuperExe.Reflection.StructInfo
open SuperExe.Reflection.TypeInfo (CarDataType)
open SuperExe.Reflection.ArgumentList (ParamList elemAt castType setParamValue
  getParamValue)

/-! ## The other accessors -/

/-- `CStructInfo::CreateVariableBox` of an element, which refuses `NULL`. -/
def createVariableBox (variableDescriptor index : Int) : Except ECode Int :=
  if variableDescriptor = 0 then .error .invalidArgument else .ok index

namespace CVariableOfCppVector

variable (v : CVariableOfCppVector) (index : Int) (given : Bool)

/-- `GetStructElementSetter` and `GetStructElementGetter`, with `given` for an argument
that is not `NULL`. -/
def getStructElementBox : Except ECode Int :=
  if index < 0 ∨ v.mLength ≤ index ∨ ¬ given then .error .invalidArgument
  else if v.mDataType ≠ .struct ∨ v.mVarPtr = 0 then .error .invalidOperation
  else createVariableBox (v.mVarPtr + v.mElementSize * index) index

/-- `AcquireCppVectorSGetter` -/
def acquireCppVectorSGetter : Except ECode Int :=
  if index < 0 ∨ v.mLength ≤ index ∨ ¬ given then .error .invalidArgument
  else if v.mDataType ≠ .cppVector ∨ v.mVarPtr = 0 then .error .invalidOperation
  else .ok index

def rebox (varPtr : Nat) : ECode × CVariableOfCppVector :=
  if varPtr = 0 then (.invalidOperation, v) else (.noError, { v with mVarPtr := varPtr })

end CVariableOfCppVector

/-- `DataTypeToFlag` -/
def dataTypeToFlag : CarDataType → UInt32
  | .int16 => 2
  | .int32 => 3
  | .int64 => 4
  | .byte => 5
  | .boolean => 5
  | .float => 9
  | .double => 10
  | .char32 => 7
  | .string => 11
  | .emuid => 12
  | .eguid => 13
  | .ecode => 3
  | .enum => 3
  | .struct => 14
  | .interface => 15
  | _ => 0

/-- A quintet whose used bytes are in its buffer; `mSize` is a `MemorySize`. -/
structure Quintet extends CarQuintet where
  used : 0 ≤ mUsed ∧ mUsed ≤ mSize
  short : mSize < 2 ^ 31

namespace CVariableOfCarArray

variable (a : CVariableOfCarArray)

/-- The constructor. -/
def make (info : Info) (known : Known info) (sized : info.size ≠ 0) (cq : Quintet) :
    CVariableOfCarArray where
  mElementTypeInfo := info
  known := known
  sized := sized
  mCq := cq.toCarQuintet
  mLength := cq.mSize.tdiv info.size

/-- `GetStructElementSetter` and `GetStructElementGetter`; the index is not looked at. -/
def getStructElementBox (index : Int) (given : Bool) : Except ECode Int :=
  if ¬ given ∨ a.mDataType ≠ .struct then .error .invalidArgument
  else createVariableBox (a.mCq.mBuf + a.mElementSize * index) index

/-- The box has no other `mLength` afterwards. -/
def rebox : Option Quintet → ECode × CVariableOfCarArray
  | none => (.invalidArgument, a)
  | some cq =>
    if cq.mFlags &&& dataTypeToFlag a.mDataType = 0 ∨ cq.mSize < a.mElementSize then
      (.invalidArgument, a)
    else (.noError, { a with mCq := cq.toCarQuintet })

def setUsed (used : Int) : ECode × CVariableOfCarArray :=
  if used < 0 ∨ a.mLength < used then (.invalidArgument, a)
  else (.noError, { a with mCq := { a.mCq with mUsed := Core.toInt32 (used * a.mElementSize) } })

end CVariableOfCarArray

/-! ## Runs -/

/-- An argument list, a list of a callback, a vector and an array. -/
structure Objects where
  arguments : ParamList
  callback : ParamList
  vector : CVariableOfCppVector
  array : CVariableOfCarArray

inductive Call where
  | setArgument (index : Int) (call : ArgumentList.SetCall) (slot : Pointed)
  | getArgument (index : Int) (given : Bool) (call : ArgumentList.GetCall)
  | reboxVector (varPtr : Nat)
  | setVectorElement (index : Int) (call : SetElement) (slot : Pointed)
  | getVectorElement (index : Int) (given : Bool) (call : GetElement)
  | getVectorStruct (index : Int) (given : Bool)
  | getVectorVector (index : Int) (given : Bool)
  | reboxArray (cq : Option Quintet)
  | setUsed (used : Int)
  | setArrayElement (index : Int) (call : SetCarArrayElement) (slot : Pointed)
  | getArrayElement (index : Int) (given : Bool) (call : GetElement)
  | getArrayStruct (index : Int) (given : Bool)

/-- The objects with one call after the other; the elements themselves are not theirs. -/
def objects : Machine Objects Call where
  step s
    | .setArgument index call slot =>
      match call.run s.arguments index slot with
      | some (_, l) => { s with arguments := l }
      | none => s
    | .reboxVector varPtr => { s with vector := (s.vector.rebox varPtr).2 }
    | .reboxArray cq => { s with array := (s.array.rebox cq).2 }
    | .setUsed used => { s with array := (s.array.setUsed used).2 }
    | _ => s

def InBounds (index : Int) (length : Int) : Prop := 0 ≤ index ∧ index < length

/-- An error, or the element at an index within the bounds. -/
def Bounded (index length : Int) (r : Except ECode Int) : Prop :=
  ∀ i, r = .ok i → i = index ∧ InBounds index length

/-- A call for an index out of bounds is refused, and has looked at no element; any other
one changes the place of its own parameter at most. -/
def SafeSet (l : ParamList) (index : Int) (call : ArgumentList.SetCall) (slot : Pointed) : Prop :=
  ∃ code l', call.run l index slot = some (code, l') ∧
    (¬ InBounds index l.mParamElem.length → code ≠ .noError ∧ l' = l) ∧
    ∀ e, elemAt l index = some e →
      ∀ i, i < e.mPos.toNat ∨ e.mPos.toNat + e.mSize.toNat ≤ i → l'.mParamBuf i = l.mParamBuf i

def SafeGet (l : ParamList) (index : Int) (given : Bool) (call : ArgumentList.GetCall) : Prop :=
  ∃ code bs, getParamValue l index given call.type = some (code, bs) ∧
    (¬ InBounds index l.mParamElem.length → code ≠ .noError ∧ bs = [])

/-- The call accesses nothing but the element at its index, if there is one. -/
def Safe (s : Objects) : Call → Prop
  | .setArgument index call slot => SafeSet s.arguments index call slot
  | .getArgument index given call => SafeGet s.callback index given call
  | .setVectorElement index call slot =>
    Bounded index s.vector.mLength
      (s.vector.checkElement index (call.args.param slot).isSome call.args.type)
  | .getVectorElement index given call =>
    Bounded index s.vector.mLength (s.vector.checkElement index given call.type)
  | .getVectorStruct index given =>
    Bounded index s.vector.mLength (s.vector.getStructElementBox index given)
  | .getVectorVector index given =>
    Bounded index s.vector.mLength (s.vector.acquireCppVectorSGetter index given)
  | .setArrayElement index call slot =>
    Bounded index s.array.count
      (s.array.checkElement index (call.args.param slot).isSome call.args.type)
  | .getArrayElement index given call =>
    Bounded index s.array.count (s.array.checkElement index given call.type)
  | .getArrayStruct index given =>
    Bounded index s.array.count (s.array.getStructElementBox index given)
  | .reboxVector _ => True
  | .reboxArray _ => True
  | .setUsed _ => True

/-- The setters that look at the element first. -/
def Peeks : ArgumentList.SetCall → Prop
  | .setInputArgumentOfObjectPtr _ _ => True
  | call => call.args.type = .carArray

/-- A call for elements of this type, at an address, is for none before the first. -/
def FromFirst (a : CVariableOfCarArray) (index : Int) (given : Bool) (type : CarDataType) : Prop :=
  given = true → a.mDataType = type → a.mCq.mBuf ≠ 0 → 0 ≤ index

/-- Lists are asked for a `CarArray` or an object of their own only; a `CarArray` is asked
for no element at a negative index and for no struct that it has not, and is not told to
use more than it has room for. Calls that are refused for another reason are careful. -/
def Careful (s : Objects) : Call → Prop
  | .setArgument index call _ => Peeks call → InBounds index s.arguments.mParamElem.length
  | .getArgument index _ call =>
    call.type = .carArray → InBounds index s.callback.mParamElem.length
  | .setArrayElement index call slot =>
    FromFirst s.array index (call.args.param slot).isSome call.args.type
  | .getArrayElement index given call => FromFirst s.array index given call.type
  | .getArrayStruct index given =>
    given = true → s.array.mDataType = .struct →
      s.array.mCq.mBuf + s.array.mElementSize * index ≠ 0 → InBounds index s.array.count
  | .setUsed used => 0 ≤ used → used ≤ s.array.mLength → used ≤ s.array.count
  | _ => True

/-! ## Argument lists -/

section Lists

variable {l : ParamList} {index : Int}

theorem elemAt_out (h : ¬ InBounds index l.mParamElem.length) : elemAt l index = none := by
  rw [elemAt]
  split
  · next hnonneg =>
    refine List.getElem?_eq_none ?_
    by_contra hlt
    exact h ⟨hnonneg, by omega⟩
  · rfl

/-- An index out of bounds is refused by the setters that do not look first. -/
theorem safeSet_out {call : ArgumentList.SetCall} (slot : Pointed)
    (h : ¬ InBounds index l.mParamElem.length) (hpeeks : ¬ Peeks call) :
    SafeSet l index call slot := by
  have hnone := elemAt_out h
  have hplain : ∃ type, call.args.type = .plain type := by
    cases htype : call.args.type with
    | plain type => exact ⟨type, rfl⟩
    | carArray =>
      refine absurd ?_ hpeeks
      cases call <;> first | exact trivial | exact htype
  rcases hplain with ⟨type, htype⟩
  have hrun : call.run l index slot = some (.invalidArgument, l) := by
    rw [ArgumentList.SetCall.run]
    have hrefused : call.refused l index = some none := by
      cases call <;> first | rfl | exact absurd trivial hpeeks
    rw [hrefused]
    simp only [setParamValue, htype, castType, hnone]
  refine ⟨_, l, hrun, fun _ => ⟨by decide, rfl⟩, fun e he => ?_⟩
  rw [hnone] at he
  cases he

theorem safeSet_in (call : ArgumentList.SetCall) (slot : Pointed)
    (h : InBounds index l.mParamElem.length) : SafeSet l index call slot := by
  rcases h with ⟨hnonneg, hlt⟩
  lift index to Nat using hnonneg
  have hin : index < l.mParamElem.length := by omega
  rcases ArgumentList.framed (e := ⟨index, call, slot⟩) hin with
    ⟨elem, code, l', helem, hrun, -, -, -, hframe⟩
  refine ⟨code, l', hrun, fun hout => absurd ⟨by omega, hlt⟩ hout, fun e he => ?_⟩
  rw [ArgumentList.elemAt_nat, helem, Option.some_inj] at he
  subst he
  exact hframe

theorem safeGet_out {call : ArgumentList.GetCall} (given : Bool)
    (h : ¬ InBounds index l.mParamElem.length) (htype : call.type ≠ .carArray) :
    SafeGet l index given call := by
  have hnone := elemAt_out h
  have hget : getParamValue l index given call.type = some (.invalidArgument, []) := by
    rw [getParamValue]
    cases hplain : call.type with
    | plain type => simp only [castType, hnone]
    | carArray => exact absurd hplain htype
  exact ⟨_, _, hget, fun _ => ⟨by decide, rfl⟩⟩

theorem safeGet_in (call : ArgumentList.GetCall) (given : Bool)
    (h : InBounds index l.mParamElem.length) : SafeGet l index given call := by
  have hin := h
  rcases h with ⟨hnonneg, hlt⟩
  lift index to Nat using hnonneg
  have helem := List.getElem?_eq_getElem (show index < l.mParamElem.length by omega)
  rcases ArgumentList.castType_some helem call.type with ⟨type, htype⟩
  have hget : ∃ r, getParamValue l index given call.type = some r := by
    rw [getParamValue, htype]
    simp only [ArgumentList.elemAt_nat, helem]
    split_ifs <;> exact ⟨_, rfl⟩
  rcases hget with ⟨⟨code, bs⟩, hget⟩
  exact ⟨code, bs, hget, fun hout => absurd hin hout⟩

end Lists

/-! ## Vectors and arrays -/

theorem createVariableBox_ok {addr index i : Int} (h : createVariableBox addr index = .ok i) :
    addr ≠ 0 ∧ i = index := by
  rw [createVariableBox] at h
  split_ifs at h with haddr
  exact ⟨haddr, (Except.ok.inj h).symm⟩

section Vector

variable (v : CVariableOfCppVector) (index : Int) (given : Bool)

theorem bounded_checkElement (type : CarDataType) :
    Bounded index v.mLength (v.checkElement index given type) := by
  intro i hi
  rcases CVariableOfCppVector.checkElement_ok_iff.mp hi with ⟨hindex, hbounds, -⟩
  exact ⟨hindex, hbounds⟩

theorem bounded_getStructElementBox :
    Bounded index v.mLength (v.getStructElementBox index given) := by
  intro i hi
  rw [CVariableOfCppVector.getStructElementBox] at hi
  split_ifs at hi with hout
  push Not at hout
  exact ⟨(createVariableBox_ok hi).2, hout.1, hout.2.1⟩

theorem bounded_acquireCppVectorSGetter :
    Bounded index v.mLength (v.acquireCppVectorSGetter index given) := by
  intro i hi
  rw [CVariableOfCppVector.acquireCppVectorSGetter] at hi
  split_ifs at hi with hout
  push Not at hout
  exact ⟨(Except.ok.inj hi).symm, hout.1, hout.2.1⟩

end Vector

section Array

variable {a : CVariableOfCarArray} {index : Int} {given : Bool}

/-- An array uses no more elements than it has room for. -/
structure Roomy (a : CVariableOfCarArray) : Prop where
  used : a.getUsed ≤ a.count
  nonneg : 0 ≤ a.mCq.mSize
  short : a.mCq.mSize < 2 ^ 31

theorem bounded_array_checkElement (hroomy : Roomy a) {type : CarDataType}
    (hfirst : FromFirst a index given type) :
    Bounded index a.count (a.checkElement index given type) := by
  intro i hi
  rcases CVariableOfCarArray.checkElement_ok_iff.mp hi with
    ⟨hsame, hgiven, ⟨-, hused⟩, htype, hbuf⟩
  exact ⟨hsame, hfirst hgiven htype hbuf, lt_of_lt_of_le hused hroomy.used⟩

theorem bounded_array_getStructElementBox
    (h : given = true → a.mDataType = .struct →
      a.mCq.mBuf + a.mElementSize * index ≠ 0 → InBounds index a.count) :
    Bounded index a.count (a.getStructElementBox index given) := by
  intro i hi
  rw [CVariableOfCarArray.getStructElementBox] at hi
  split_ifs at hi with hbad
  push Not at hbad
  rcases createVariableBox_ok hi with ⟨haddr, hsame⟩
  exact ⟨hsame, h hbad.1 hbad.2 haddr⟩

theorem elementSize_pos (a : CVariableOfCarArray) : 0 < a.mElementSize :=
  lt_of_le_of_ne a.known.nonneg (Ne.symm a.sized)

theorem roomy_quintet (cq : Quintet) : Roomy { a with mCq := cq.toCarQuintet } := by
  rcases cq.used with ⟨hnonneg, hle⟩
  have hsize : 0 < a.mElementSize := elementSize_pos a
  refine ⟨?_, hnonneg.trans hle, cq.short⟩
  show cq.mUsed.tdiv a.mElementSize ≤ cq.mSize.tdiv a.mElementSize
  rw [Int.tdiv_eq_ediv_of_nonneg hnonneg, Int.tdiv_eq_ediv_of_nonneg (hnonneg.trans hle)]
  exact Int.ediv_le_ediv hsize hle

theorem roomy_rebox (hroomy : Roomy a) (cq : Option Quintet) : Roomy (a.rebox cq).2 := by
  cases cq with
  | none => exact hroomy
  | some cq =>
    rw [CVariableOfCarArray.rebox]
    split_ifs
    · exact hroomy
    · exact roomy_quintet cq

/-- A number of elements there is room for takes no more bytes than the buffer has. -/
theorem roomy_setUsed {used : Int} (hroomy : Roomy a)
    (hcareful : 0 ≤ used → used ≤ a.mLength → used ≤ a.count) :
    Roomy (a.setUsed used).2 := by
  rw [CVariableOfCarArray.setUsed]
  split_ifs with hbad
  · exact hroomy
  push Not at hbad
  have hused := hcareful hbad.1 hbad.2
  have hshort := hroomy.short
  have hsize := elementSize_pos a
  have hcount : a.count = a.mCq.mSize / a.mElementSize := Int.tdiv_eq_ediv_of_nonneg hroomy.nonneg
  have hbytes : used * a.mElementSize ≤ a.mCq.mSize := by
    rw [hcount] at hused
    exact (Int.le_ediv_iff_mul_le hsize).mp hused
  have hpos : 0 ≤ used * a.mElementSize := Int.mul_nonneg hbad.1 hsize.le
  refine ⟨?_, hroomy.nonneg, hshort⟩
  show (Core.toInt32 (used * a.mElementSize)).tdiv a.mElementSize ≤ a.count
  rw [Core.toInt32_eq (by omega) (by omega), Int.mul_tdiv_cancel _ hsize.ne']
  exact hused

end Array

/-! ## Every run -/

theorem roomy_step (s : Objects) (c : Call) (hroomy : Roomy s.array) (hcareful : Careful s c) :
    Roomy (objects.step s c).array := by
  cases c
  case setArgument index call slot =>
    simp only [objects]
    split
    · exact hroomy
    · exact hroomy
  case reboxArray cq => exact roomy_rebox hroomy cq
  case setUsed used => exact roomy_setUsed hroomy hcareful
  all_goals exact hroomy

theorem safe_of_careful (s : Objects) (c : Call) (hroomy : Roomy s.array)
    (hcareful : Careful s c) : Safe s c := by
  cases c with
  | setArgument index call slot =>
    by_cases h : InBounds index s.arguments.mParamElem.length
    · exact safeSet_in call slot h
    · exact safeSet_out slot h fun hpeeks => h (hcareful hpeeks)
  | getArgument index given call =>
    by_cases h : InBounds index s.callback.mParamElem.length
    · exact safeGet_in call given h
    · exact safeGet_out given h fun htype => h (hcareful htype)
  | reboxVector varPtr => trivial
  | setVectorElement index call slot => exact bounded_checkElement _ _ _ _
  | getVectorElement index given call => exact bounded_checkElement _ _ _ _
  | getVectorStruct index given => exact bounded_getStructElementBox _ _ _
  | getVectorVector index given => exact bounded_acquireCppVectorSGetter _ _ _
  | reboxArray cq => trivial
  | setUsed used => trivial
  | setArrayElement index call slot => exact bounded_array_checkElement hroomy hcareful
  | getArrayElement index given call => exact bounded_array_checkElement hroomy hcareful
  | getArrayStruct index given => exact bounded_array_getStructElementBox hcareful

/-- The objects after the array box was made. -/
def startObjects (arguments callback : ParamList) (vector : CVariableOfCppVector) (info : Info)
    (known : Known info) (sized : info.size ≠ 0) (cq : Quintet) : Objects where
  arguments := arguments
  callback := callback
  vector := vector
  array := CVariableOfCarArray.make info known sized cq

/-- In every run of careful calls, every call is safe. -/
theorem index_safety (arguments callback : ParamList) (vector : CVariableOfCppVector) (info : Info)
    (known : Known info) (sized : info.size ≠ 0) (cq : Quintet) (calls : List Call)
    (h : objects.AllSteps Careful (startObjects arguments callback vector info known sized cq)
      calls) :
    objects.AllSteps Safe (startObjects arguments callback vector info known sized cq) calls :=
  objects.allSteps_of_invariant (I := fun s => Roomy s.array) roomy_step safe_of_careful
    (roomy_quintet (a := CVariableOfCarArray.make info known sized cq) cq) h

section Int32s

/-- `Int32` -/
def int32Info : Info where
  dataType := .int32
  size := 4
  maxAlign := 0

theorem known_int32Info : Known int32Info := ⟨by decide, fun n hn => by cases hn; rfl⟩

theorem twoInts_used : (0 : Int) ≤ 8 ∧ (8 : Int) ≤ 8 := ⟨by decide, by decide⟩

theorem twoInts_short : (8 : Int) < 2 ^ 31 := by decide

/-- A buffer of two numbers in use. -/
def twoInts : Quintet where
  mFlags := 3
  mUsed := 8
  mSize := 8
  mBuf := 4096
  used := twoInts_used
  short := twoInts_short

def noArguments : ParamList where
  mParamElem := []
  mParamBufSize := 0
  mParamBuf := fun _ => 0

def intsVector : CVariableOfCppVector where
  mElementTypeInfo := int32Info
  known := known_int32Info
  mLength := 2
  mVarPtr := 8192

theorem threeInts_used : (0 : Int) ≤ 4 ∧ (4 : Int) ≤ 12 := ⟨by decide, by decide⟩

theorem threeInts_short : (12 : Int) < 2 ^ 31 := by decide

/-- A buffer of three numbers, one of them in use. -/
def threeInts : Quintet where
  mFlags := 3
  mUsed := 4
  mSize := 12
  mBuf := 12288
  used := threeInts_used
  short := threeInts_short

/-- Of two numbers one is taken out of use, and reading it is refused; then the box
gets three numbers, and the second is set once two are in use. -/
def reboxed : List Call :=
  [.setUsed 1, .getArrayElement 1 true .getInt32Element, .reboxArray (some threeInts),
    .setUsed 2, .setArrayElement 1 (.setInt32Element 7) { addr := 100, bytes := fun _ => 0 },
    .reboxArray (some twoInts), .getArrayElement 1 true .getInt32Element,
    .getVectorElement 5 true .getInt32Element]

theorem index_safety_reboxed :
    objects.AllSteps Safe
      (startObjects noArguments noArguments intsVector int32Info known_int32Info (by decide) twoInts)
      reboxed :=
  index_safety noArguments noArguments intsVector int32Info known_int32Info (by decide) twoInts
    reboxed
    ⟨fun _ _ => by decide, fun _ _ _ => by decide, trivial, fun _ _ => by decide,
      fun _ _ _ => by decide, trivial, fun _ _ _ => by decide, trivial, trivial⟩

/-- The number before the first is read. -/
theorem index_negative :
    ¬ ∀ (arguments callback : ParamList) (vector : CVariableOfCppVector) (info : Info)
      (known : Known info) (sized : info.size ≠ 0) (cq : Quintet) (calls : List Call),
      objects.AllSteps Safe (startObjects arguments callback vector info known sized cq)
        calls := by
  intro h
  have hsafe := (h noArguments noArguments intsVector int32Info known_int32Info (by decide)
    twoInts [.getArrayElement (-1) true .getInt32Element]).1
  have hread := hsafe (-1) (by decide)
  exact absurd hread.2.1 (by decide)

end Int32s

end SuperExe.Reflection.Boxes
