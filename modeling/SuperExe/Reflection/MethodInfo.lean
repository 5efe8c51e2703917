import SuperExe.Lib.Layout
import SuperExe.Reflection.Faithful

/-! # Parameter buffers

`CMethodInfo::InitParmElement` gives every parameter of a method a place in the
buffer that `invoke` copies to the stack: behind the `this` pointer, one after
the other, each in words of four bytes (`reflection/CMethodInfo.cpp`, with `int`
and pointers of 32 bits). The size of a place is that of the type an alias stands
for, and so it misses the pointer level of the parameter itself
(`paramLayout_iff`).
-/

namespace SuperExe.Reflection.Arguments

open SuperExe.Lib.Layout SuperExe.Reflection.TypeInfo

/-! ## Sizes -/

/-- `_GetOriginalType`; a type that is no alias stays as it is. -/
def getOriginalType (mod : ClsModule) (a : Nat) : Option Content := do
  let c ← chain mod (mod.aliases.length + 2) a
  let d := mod.desc (c.getLastD a)
  some
    { type := d.type
      index := d.index
      pointer := byteLevels (c.map fun a => (mod.desc a).pointer)
      nested := d.nested }

/-- `sizeof(void *)` -/
def pointerSize : UInt32 := 4

/-- `sizeof` of the types that have no parts; `0` for what is no type of a value.
`arm` stands for a build for ARM, where the number of 64 bits in an `EventHandler`
begins at a multiple of eight. -/
def basicSize (arm : Bool) : CARDataType → UInt32
  | .char16 => 2
  | .char32 => 4
  | .int8 => 1
  | .int16 => 2
  | .int32 => 4
  | .int64 => 8
  | .uint16 => 2
  | .uint32 => 4
  | .uint64 => 8
  | .byte => 1
  | .boolean => 1
  | .emuid => 16
  | .float => 4
  | .double => 8
  | .pvoid => 4
  | .ecode => 4
  | .eguid => 24
  | .eventHandler => if arm then 16 else 12
  | .string => pointerSize
  | .interface => pointerSize
  | .enum => 4
  | _ => 0

section Module

variable (mod : ClsModule) (alignSize : Nat → UInt32) (arm : Bool)

/-- The descriptor `GetDataTypeSize` looks at. -/
def sizedContent : TypePtr → Option Content
  | .desc a => getOriginalType mod a
  | .org i => content byteLevels mod (.org i)

/-- `GetDataTypeSize`, for types that are nested no deeper than the number;
`alignSize` is `mAlignSize` of the structs. -/
def getDataTypeSize : Nat → TypePtr → Option UInt32
  | 0, _ => none
  | n + 1, t => do
    let d ← sizedContent mod t
    if d.pointer ≠ 0 then some pointerSize
    else
      match d.type with
      | .struct => some (alignSize d.index)
      | .array => do
        let size ← getDataTypeSize n (.desc (mod.arrays d.index).2)
        some (size * UInt32.ofNat (mod.arrays d.index).1)
      | .arrayOf => do
        let a ← d.nested
        getDataTypeSize n (.desc a)
      | type => some (basicSize arm type)

/-! ## `SetParamElem` -/

inductive ParamIOAttribute where
  | input
  | calleeAllocOut
  | callerAllocOut
deriving DecidableEq, Repr

/-- `ParamAttrib_in` -/
def paramAttribIn : UInt32 := 1

/-- `ParamAttrib_callee` -/
def paramAttribCallee : UInt32 := 4

/-- `mType` is the address of the descriptor. -/
structure ParamDescriptor where
  mType : Nat
  mAttribs : UInt32

structure ParmElement where
  mPos : UInt32
  mSize : UInt32
  mType : CarDataType
  mAttrib : ParamIOAttribute
  mPointer : Int
deriving DecidableEq, Repr

/-- `ROUND4` -/
def round4 (n : UInt32) : UInt32 := (n + 3) &&& ~~~3

/-- `ROUND8` -/
def round8 (n : UInt32) : UInt32 := (n + 7) &&& ~~~7

/-- The types that are passed by their address. -/
def byAddress (type : CARDataType) : Bool :=
  type = .struct ∨ type = .emuid ∨ type = .eguid ∨ type = .arrayOf ∨ type = .array

/-- The type, the IO attribute and the pointer level of a parameter. -/
def typeAndAttrib (attribs : UInt32) (type : CarDataType) (pointer : Int) :
    CarDataType × ParamIOAttribute × Int :=
  if attribs &&& paramAttribIn ≠ 0 then
    if type = .interface then
      if 1 < pointer then (.localPtr, .input, pointer) else (type, .input, pointer)
    else if 0 < pointer then (.localPtr, .input, pointer)
    else (type, .input, pointer)
  else if 2 < pointer then (.localPtr, .callerAllocOut, pointer - 1)
  else if pointer = 2 ∧ type ≠ .interface then
    if type = .string then (type, .calleeAllocOut, pointer) else (.localPtr, .callerAllocOut, 1)
  else if attribs &&& paramAttribCallee ≠ 0 then (type, .calleeAllocOut, 2)
  else (type, .callerAllocOut, pointer)

/-- `SetParamElem`: the element, and the size of the buffer up to its end. A build for
ARM puts numbers of 64 bits at multiples of eight. -/
def setParamElem (param : ParamDescriptor) (mParamBufSize : UInt32) :
    Except ECode (ParmElement × UInt32) :=
  match resolve byteLevels mod (.desc param.mType) true with
  | .error e => .error e
  | .ok (typeDesc, d, pointer) =>
    let (type, attrib, pointer) := typeAndAttrib param.mAttribs (getCarDataType d.type) pointer
    -- no type that has parts is left for `GetDataTypeSize`
    match if byAddress d.type then some pointerSize else getDataTypeSize mod alignSize arm 1 typeDesc with
    | none => .error .undefined
    | some size =>
      let mPos :=
        if arm ∧ (d.type = .double ∨ d.type = .int64) ∧ attrib ≠ .callerAllocOut then
          round8 mParamBufSize
        else mParamBufSize
      .ok ({ mPos := mPos, mSize := size, mType := type, mAttrib := attrib, mPointer := pointer },
        mPos + round4 size)

/-- The loop of `InitParmElement`. -/
def setParamElems :
    List ParamDescriptor → UInt32 → Except ECode (List ParmElement × UInt32)
  | [], mParamBufSize => .ok ([], mParamBufSize)
  | param :: params, mParamBufSize =>
    match setParamElem mod alignSize arm param mParamBufSize with
    | .error e => .error e
    | .ok (elem, mParamBufSize) =>
      match setParamElems params mParamBufSize with
      | .error e => .error e
      | .ok (elems, mParamBufSize) => .ok (elem :: elems, mParamBufSize)

/-- The parameters of a `MethodDescriptor`; `mParamCount` is an `unsigned short`. -/
structure MethodDescriptor where
  mParams : List ParamDescriptor
  count_lt : mParams.length < 65536

/-- `InitParmElement`: the elements and `mParamBufSize`; `alloc` says whether there
is memory for them. -/
def initParmElement (alloc : Bool) (method : MethodDescriptor) :
    Except ECode (List ParmElement × UInt32) :=
  if alloc then setParamElems mod alignSize arm method.mParams 4 else .error .outOfMemory

/-! ## Right layouts -/

/-- The places are behind the `this` pointer and within the buffer, and come in the
order of the parameters. -/
structure Laid (elems : List ParmElement) (mParamBufSize : UInt32) : Prop where
  placed : ∀ e ∈ elems, 4 ≤ e.mPos.toNat ∧ 4 ∣ e.mPos.toNat ∧
    e.mPos.toNat + e.mSize.toNat ≤ mParamBufSize.toNat
  apart : elems.Pairwise fun e f => e.mPos.toNat + e.mSize.toNat ≤ f.mPos.toNat
  increasing : elems.Pairwise fun e f => e.mPos < f.mPos

/-- The size of a parameter of this original type and this many pointer levels,
those of its aliases among them. -/
def sizeOfParam (type : CARDataType) (level : Int) : UInt32 :=
  if 0 < level ∨ byAddress type then pointerSize else basicSize arm type

/-- A parameter, with the original of its type and all its pointer levels. -/
def Original (param : ParamDescriptor) (d : Content) (level : Int) : Prop :=
  ∃ t, resolve natLevels mod (.desc param.mType) true = .ok (t, d, level)

/-- Every place has the size its parameter needs. -/
def Sized (params : List ParamDescriptor) (elems : List ParmElement) : Prop :=
  List.Forall₂ (fun param e => ∀ d level, Original mod param d level →
    e.mSize = sizeOfParam arm d.type level) params elems

/-- The pointer levels of the parameter show in the descriptor of its original type,
whose `mPointer` adds up those of the aliases in an `unsigned char`; or they make no
difference in any build. -/
def LevelsSeen (param : ParamDescriptor) : Prop :=
  ∀ d level, Original mod param d level → 0 < level → d.pointer % 256 = 0 →
    byAddress d.type ∨ ∀ arm, basicSize arm d.type = pointerSize

/-- The parameter has a value: `Type_const` is no type of values. -/
def HasValue (param : ParamDescriptor) : Prop :=
  ∀ d level, Original mod param d level → d.type = .const → d.pointer % 256 ≠ 0

end Module

/-! ## Rounding -/

/-- A mask that clears the last `k` of so many bits. -/
theorem and_mask {n k b : Nat} (h : n < 2 ^ (b + k)) :
    n &&& ((2 ^ b - 1) * 2 ^ k) = n / 2 ^ k * 2 ^ k := by
  apply Nat.eq_of_testBit_eq
  intro j
  rw [Nat.testBit_and, Nat.testBit_mul_two_pow, Nat.testBit_mul_two_pow,
    Nat.testBit_two_pow_sub_one, Nat.testBit_div_two_pow]
  by_cases hk : k ≤ j
  · rw [Nat.sub_add_cancel hk]
    by_cases hj : j < b + k
    · have hb : j - k < b := by omega
      simp [hk, hb]
    · have hbig : n < 2 ^ j := lt_of_lt_of_le h (Nat.pow_le_pow_right (by decide) (by omega))
      simp [Nat.testBit_lt_two_pow hbig]
  · simp [hk]

theorem toNat_round4 {n : UInt32} (h : n.toNat + 4 < 2 ^ 32) :
    (round4 n).toNat = roundUp n.toNat 4 := by
  have hsum : (n + 3).toNat = n.toNat + 3 := by
    rw [UInt32.toNat_add]
    exact Nat.mod_eq_of_lt (show n.toNat + 3 < 2 ^ 32 by omega)
  rw [round4, UInt32.toNat_and, hsum]
  exact @and_mask (n.toNat + 3) 2 30 (by omega)

theorem toNat_round8 {n : UInt32} (h : n.toNat + 8 < 2 ^ 32) :
    (round8 n).toNat = roundUp n.toNat 8 := by
  have hsum : (n + 7).toNat = n.toNat + 7 := by
    rw [UInt32.toNat_add]
    exact Nat.mod_eq_of_lt (show n.toNat + 7 < 2 ^ 32 by omega)
  rw [round8, UInt32.toNat_and, hsum]
  exact @and_mask (n.toNat + 7) 3 29 (by omega)

/-! ## Pointer levels -/

section Levels

variable {mod : ClsModule} {alignSize : Nat → UInt32}

theorem byteLevels_mod (l : List UInt8) : byteLevels l = natLevels l % 256 := by
  have hsum : (l.foldr (· + ·) 0).toNat = (l.map UInt8.toNat).sum % 256 := by
    induction l with
    | nil => rfl
    | cons b l ih =>
      rw [List.foldr_cons, UInt8.toNat_add, ih, List.map_cons, List.sum_cons]
      omega
  rw [byteLevels, natLevels, hsum]
  omega

/-- The descriptor with the levels it has room for. -/
def seen (d : Content) : Content := { d with pointer := d.pointer % 256 }

theorem content_seen (t : TypePtr) :
    content byteLevels mod t = (content natLevels mod t).map seen := by
  cases t with
  | desc a =>
    have hlt := (mod.desc a).pointer.toNat_lt
    have hmod : ((mod.desc a).pointer.toNat : Int) % 256 = (mod.desc a).pointer.toNat := by omega
    simp only [content, seen, Option.map_some, hmod]
  | org i =>
    simp only [content]
    cases hb : mod.aliases[i]? with
    | none => rfl
    | some b =>
      cases hc : chain mod (mod.aliases.length + 1) b with
      | none => simp [hc]
      | some c => simp [hc, seen, byteLevels_mod]

/-- The last descriptor of a chain is of no alias. -/
theorem chain_last {n a b : Nat} {c : List Nat} (h : chain mod n a = some c) :
    (mod.desc (c.getLastD b)).type ≠ .typeAlias := by
  induction n generalizing a b c with
  | zero => cases h
  | succ n ih =>
    rw [chain] at h
    by_cases halias : (mod.desc a).type = .typeAlias
    · rw [if_pos halias] at h
      cases hb : mod.aliases[(mod.desc a).index]? with
      | none => simp [hb] at h
      | some b' =>
        simp only [hb, Option.map_eq_some_iff] at h
        rcases h with ⟨c', hc', rfl⟩
        rw [List.getLastD_cons]
        exact ih hc'
    · rw [if_neg halias, Option.some_inj] at h
      subst h
      exact halias

theorem content_org {i : Nat} {d : Content} (h : content natLevels mod (.org i) = some d) :
    0 ≤ d.pointer ∧ d.type ≠ .typeAlias := by
  simp only [content] at h
  cases hb : mod.aliases[i]? with
  | none => simp [hb] at h
  | some b =>
    cases hc : chain mod (mod.aliases.length + 1) b with
    | none => simp [hb, hc] at h
    | some c =>
      simp only [hb, hc, Option.bind_eq_bind, Option.bind_some, Option.some_inj] at h
      subst h
      exact ⟨Int.natCast_nonneg _, chain_last hc⟩

/-! What `resolve` does, by the kind of the type. -/

variable {a : Nat} {levels : List UInt8 → Int} {t : TypePtr}

theorem resolve_plain (h : (mod.desc a).type ≠ .typeAlias) :
    ∃ d, content levels mod (.desc a) = some d ∧ d.pointer = (mod.desc a).pointer.toNat ∧
      d.type = (mod.desc a).type ∧
      resolve levels mod (.desc a) true = .ok (.desc a, d, (mod.desc a).pointer.toNat) :=
  ⟨_, rfl, rfl, rfl, by simp [resolve, content, h]⟩

theorem resolve_alias_error (h : (mod.desc a).type = .typeAlias) {e : ECode}
    (ho : aliasToOriginal mod (mod.desc a).index = .error e) :
    resolve levels mod (.desc a) true = .error e := by
  rw [resolve, content]
  simp only [h, ne_eq, not_true, if_false, ho]

theorem resolve_alias_none (h : (mod.desc a).type = .typeAlias)
    (ho : aliasToOriginal mod (mod.desc a).index = .ok t) (hc : content levels mod t = none) :
    resolve levels mod (.desc a) true = .error .undefined := by
  rw [resolve, content]
  simp only [h, ne_eq, not_true, if_false, ho, hc]

theorem resolve_alias_ok (h : (mod.desc a).type = .typeAlias)
    (ho : aliasToOriginal mod (mod.desc a).index = .ok t) {d : Content}
    (hc : content levels mod t = some d) :
    resolve levels mod (.desc a) true = .ok (t, d, (mod.desc a).pointer.toNat + d.pointer) := by
  rw [resolve, content]
  simp only [h, ne_eq, not_true, if_false, ho, hc, if_true]

theorem aliasToOriginal_ok {i : Nat} (h : aliasToOriginal mod i = .ok t) : t = .org i := by
  rw [aliasToOriginal] at h
  split at h
  · cases h
  · split at h
    · cases h
    · split at h <;> cases h
      rfl

/-- The pointer levels of a parameter, and what `AliasToOriginal` leaves of them. -/
structure Levels (mod : ClsModule) (a : Nat) (t : TypePtr) (d : Content) (level level' : Int) :
    Prop where
  nat : resolve natLevels mod (.desc a) true = .ok (t, d, level)
  byte : resolve byteLevels mod (.desc a) true = .ok (t, seen d, level')
  sized : sizedContent mod t = some (seen d)
  nonneg : 0 ≤ d.pointer
  seen_le : (seen d).pointer ≤ level'
  byte_le : level' ≤ level
  original : d.type ≠ .typeAlias

theorem levels_plain (h : (mod.desc a).type ≠ .typeAlias) : ∃ t d level level',
    Levels mod a t d level level' := by
  have hlt := (mod.desc a).pointer.toNat_lt
  rcases @resolve_plain mod a natLevels h with ⟨d, hd, hp, htype, hres⟩
  rcases @resolve_plain mod a byteLevels h with ⟨d', hd', -, -, hres'⟩
  have hseen : d' = seen d := by
    rw [content_seen, hd] at hd'
    exact (Option.some_inj.mp hd').symm
  subst hseen
  have hpointer : (seen d).pointer = d.pointer % 256 := rfl
  refine ⟨_, d, _, _, hres, hres', ?_, by omega, by omega, le_rfl, htype ▸ h⟩
  rw [← hd', sizedContent, getOriginalType, chain, if_neg h]
  simp [content, byteLevels]

theorem levels_or_error (a : Nat) :
    (∃ e, resolve natLevels mod (.desc a) true = .error e ∧
      resolve byteLevels mod (.desc a) true = .error e) ∨
    ∃ t d level level', Levels mod a t d level level' := by
  by_cases halias : (mod.desc a).type = .typeAlias
  · cases ho : aliasToOriginal mod (mod.desc a).index with
    | error e => exact Or.inl ⟨e, resolve_alias_error halias ho, resolve_alias_error halias ho⟩
    | ok t =>
      cases hc : content natLevels mod t with
      | none =>
        have hcb : content byteLevels mod t = none := by rw [content_seen, hc, Option.map_none]
        exact Or.inl ⟨.undefined, resolve_alias_none halias ho hc, resolve_alias_none halias ho hcb⟩
      | some d =>
        have hcb : content byteLevels mod t = some (seen d) := by
          rw [content_seen, hc, Option.map_some]
        have ht := aliasToOriginal_ok ho
        subst ht
        rcases content_org hc with ⟨hnonneg, horiginal⟩
        have hpointer : (seen d).pointer = d.pointer % 256 := rfl
        exact Or.inr ⟨_, d, _, _, resolve_alias_ok halias ho hc, resolve_alias_ok halias ho hcb,
          hcb, hnonneg, by omega, by omega, horiginal⟩
  · exact Or.inr (levels_plain halias)

/-! ## One parameter -/

/-- The size `SetParamElem` computes from the descriptor it has left. -/
def seenSize (arm : Bool) (d : Content) : UInt32 :=
  if byAddress d.type then pointerSize
  else if d.pointer ≠ 0 then pointerSize
  else basicSize arm d.type

variable {arm : Bool} {param : ParamDescriptor} {buf buf' : UInt32} {e : ParmElement}

/-- Except for an `EventHandler` the sizes are those of every build. -/
theorem basicSize_eq {type : CARDataType} (h : type ≠ .eventHandler) (arm' : Bool) :
    basicSize arm type = basicSize arm' type := by
  cases type
  case eventHandler => exact absurd rfl h
  all_goals rfl

theorem basicSize_eventHandler : basicSize arm .eventHandler ≠ pointerSize := by
  cases arm <;> decide

theorem basicSize_pointer_iff {type : CARDataType} :
    basicSize arm type = pointerSize ↔ ∀ arm', basicSize arm' type = pointerSize := by
  refine ⟨fun h arm' => ?_, fun h => h arm⟩
  by_cases htype : type = .eventHandler
  · rw [htype] at h
    exact absurd h basicSize_eventHandler
  · rw [← h]
    exact basicSize_eq htype arm

/-- A parameter of a type without parts has the size that a field of this type has in
a struct; but a `String` is passed by its address, and local types have other sizes
here. -/
theorem basicSize_eq_dataTypeSize {type : CARDataType} (hlocal : getCarDataType type ≠ .localType)
    (hstring : type ≠ .string) (harray : type ≠ .array) :
    (basicSize arm type).toNat = dataTypeSize (getCarDataType type) := by
  cases type
  case string => exact absurd rfl hstring
  case array => exact absurd rfl harray
  all_goals first | rfl | exact absurd rfl hlocal

theorem basicSize_le {type : CARDataType} (h : byAddress type = false) :
    (basicSize arm type).toNat ≤ 16 := by
  cases type <;> first | cases arm <;> decide | cases h

theorem basicSize_pos {type : CARDataType} (haddr : byAddress type ≠ true) (hconst : type ≠ .const)
    (halias : type ≠ .typeAlias) : 0 < (basicSize arm type).toNat := by
  cases type
  case const => exact absurd rfl hconst
  case typeAlias => exact absurd rfl halias
  case struct => exact absurd rfl haddr
  case array => exact absurd rfl haddr
  case arrayOf => exact absurd rfl haddr
  all_goals cases arm <;> decide

theorem seenSize_le (d : Content) : (seenSize arm d).toNat ≤ 16 := by
  rw [seenSize]
  by_cases haddr : byAddress d.type = true
  · rw [if_pos haddr]
    decide
  · rw [if_neg haddr]
    split
    · decide
    · exact basicSize_le (Bool.eq_false_iff.mpr haddr)

theorem seenSize_pos {d : Content} (h : d.type ≠ .typeAlias)
    (hvalue : d.type = .const → d.pointer ≠ 0) : 0 < (seenSize arm d).toNat := by
  rw [seenSize]
  by_cases haddr : byAddress d.type = true
  · rw [if_pos haddr]
    decide
  · rw [if_neg haddr]
    by_cases hp : d.pointer = 0
    · rw [if_neg (not_not.mpr hp)]
      exact basicSize_pos haddr (fun hconst => hvalue hconst hp) h
    · rw [if_pos hp]
      decide

/-- What the type of a parameter decides of its element. -/
def IsElem (mod : ClsModule) (arm : Bool) (param : ParamDescriptor) (e : ParmElement) : Prop :=
  ∃ t d level level', Levels mod param.mType t d level level' ∧ e.mSize = seenSize arm (seen d) ∧
    (e.mType, e.mAttrib, e.mPointer) =
      typeAndAttrib param.mAttribs (getCarDataType d.type) level'

theorem measured {t : TypePtr} {d : Content} {level level' : Int}
    (h : Levels mod a t d level level') :
    (if byAddress (seen d).type then some pointerSize else getDataTypeSize mod alignSize arm 1 t) =
      some (seenSize arm (seen d)) := by
  rw [seenSize]
  by_cases haddr : byAddress (seen d).type = true
  · rw [if_pos haddr, if_pos haddr]
  · rw [if_neg haddr, if_neg haddr, getDataTypeSize, h.sized]
    simp only [Option.bind_eq_bind, Option.bind_some]
    by_cases hp : (seen d).pointer = 0
    · rw [if_neg (not_not.mpr hp), if_neg (not_not.mpr hp)]
      generalize seen d = d' at haddr
      rcases d' with ⟨type, index, pointer, nested⟩
      cases type
      case struct => exact absurd rfl haddr
      case array => exact absurd rfl haddr
      case arrayOf => exact absurd rfl haddr
      all_goals rfl
    · rw [if_pos hp, if_pos hp]

/-- A parameter whose type is known gets an element behind the buffer so far. -/
theorem setParamElem_levels {t : TypePtr} {d : Content} {level level' : Int}
    (h : Levels mod param.mType t d level level') :
    ∃ e, setParamElem mod alignSize arm param buf = .ok (e, e.mPos + round4 e.mSize) ∧
      (e.mPos = buf ∨ arm = true ∧ e.mPos = round8 buf) ∧ IsElem mod arm param e := by
  rw [setParamElem, h.byte]
  simp only [measured h]
  refine ⟨_, rfl, ?_, t, d, level, level', h, rfl, rfl⟩
  simp only
  split
  case isTrue harm => exact Or.inr ⟨harm.1, rfl⟩
  case isFalse => exact Or.inl rfl

theorem setParamElem_ok (h : setParamElem mod alignSize arm param buf = .ok (e, buf')) :
    buf' = e.mPos + round4 e.mSize ∧ (e.mPos = buf ∨ arm = true ∧ e.mPos = round8 buf) ∧
      IsElem mod arm param e := by
  rcases @levels_or_error mod param.mType with ⟨err, -, herr⟩ | ⟨t, d, level, level', hlevels⟩
  · rw [setParamElem, herr] at h
    cases h
  · rcases @setParamElem_levels mod alignSize arm param buf t d level level' hlevels with
      ⟨e', he', hpos, hsize⟩
    rw [he'] at h
    cases h
    exact ⟨rfl, hpos, hsize⟩

theorem IsElem.size_le (h : IsElem mod arm param e) : e.mSize.toNat ≤ 16 := by
  rcases h with ⟨t, d, level, level', -, hsize, -⟩
  rw [hsize]
  exact seenSize_le _

/-- The place of a parameter lies between the ends of the buffer before and after it. -/
theorem setParamElem_place (h : setParamElem mod alignSize arm param buf = .ok (e, buf'))
    (hdvd : 4 ∣ buf.toNat) (hroom : buf.toNat + 40 < 2 ^ 32) :
    buf.toNat ≤ e.mPos.toNat ∧ 4 ∣ e.mPos.toNat ∧ e.mPos.toNat + e.mSize.toNat ≤ buf'.toNat ∧
      4 ∣ buf'.toNat ∧ buf'.toNat ≤ buf.toNat + 24 := by
  rcases setParamElem_ok h with ⟨rfl, hpos, helem⟩
  have hsize := helem.size_le
  have hplace : buf.toNat ≤ e.mPos.toNat ∧ 4 ∣ e.mPos.toNat ∧ e.mPos.toNat < buf.toNat + 8 := by
    rcases hpos with hpos | ⟨-, hpos⟩
    · rw [hpos]
      exact ⟨le_rfl, hdvd, by omega⟩
    · have height : (4 : Nat) ∣ 8 := ⟨2, rfl⟩
      rw [hpos, toNat_round8 (by omega)]
      exact ⟨le_roundUp (by decide), height.trans dvd_roundUp, roundUp_lt (by decide)⟩
  have hround : (round4 e.mSize).toNat = roundUp e.mSize.toNat 4 := toNat_round4 (by omega)
  have hle : e.mSize.toNat ≤ roundUp e.mSize.toNat 4 := le_roundUp (by decide)
  have hlt : roundUp e.mSize.toNat 4 ≤ 16 := roundUp_le hsize ⟨4, rfl⟩
  have hsum : (e.mPos + round4 e.mSize).toNat = e.mPos.toNat + roundUp e.mSize.toNat 4 := by
    rw [UInt32.toNat_add, hround]
    exact Nat.mod_eq_of_lt (show _ < 2 ^ 32 by omega)
  rw [hsum]
  exact ⟨hplace.1, hplace.2.1, by omega, (Nat.dvd_add_right hplace.2.1).mpr dvd_roundUp, by omega⟩

/-! ## The loop -/

variable {params : List ParamDescriptor} {elems : List ParmElement}

/-- The elements of a list of parameters, one after the other. -/
theorem setParamElems_ok (h : setParamElems mod alignSize arm params buf = .ok (elems, buf'))
    (hdvd : 4 ∣ buf.toNat) (hroom : buf.toNat + 24 * params.length + 40 < 2 ^ 32) :
    Stacked (fun e => e.mPos.toNat) (fun e => e.mSize.toNat) buf.toNat elems buf'.toNat ∧
      (∀ e ∈ elems, 4 ∣ e.mPos.toNat) ∧ List.Forall₂ (IsElem mod arm) params elems := by
  induction params generalizing buf elems with
  | nil =>
    cases h
    exact ⟨.nil _, fun e he => absurd he List.not_mem_nil, .nil⟩
  | cons param params ih =>
    rw [setParamElems] at h
    split at h
    · cases h
    next e mid helem =>
      split at h
      · cases h
      next rest stop hrest =>
        cases h
        rw [List.length_cons] at hroom
        rcases setParamElem_place helem hdvd (by omega) with ⟨hstart, hpos, hstop, hmid, hgrow⟩
        rcases ih hrest hmid (by omega) with ⟨hstacked, hall, hforall⟩
        refine ⟨.cons hstart hstop hstacked, fun x hx => ?_, .cons (setParamElem_ok helem).2.2 hforall⟩
        rcases List.mem_cons.mp hx with rfl | hx
        · exact hpos
        · exact hall x hx

/-- The loop ends with elements if all types are known. -/
theorem setParamElems_exists (h : ∀ param ∈ params, ∃ d level, Original mod param d level)
    (buf : UInt32) :
    ∃ elems buf', setParamElems mod alignSize arm params buf = .ok (elems, buf') := by
  induction params generalizing buf with
  | nil => exact ⟨[], buf, rfl⟩
  | cons param params ih =>
    rcases List.forall_mem_cons.mp h with ⟨⟨d, level, t, hres⟩, hrest⟩
    rcases @levels_or_error mod param.mType with ⟨err, herr, -⟩ | ⟨t, d, level, level', hlevels⟩
    · rw [hres] at herr
      cases herr
    · rcases @setParamElem_levels mod alignSize arm param buf t d level level' hlevels with ⟨e, he, -⟩
      rcases ih hrest (e.mPos + round4 e.mSize) with ⟨elems, buf', hrun⟩
      exact ⟨e :: elems, buf', by rw [setParamElems, he]; simp only [hrun]⟩

theorem setParamElems_known (h : setParamElems mod alignSize arm params buf = .ok (elems, buf')) :
    ∀ param ∈ params, ∃ d level, Original mod param d level := by
  induction params generalizing buf buf' elems with
  | nil => exact fun param hparam => absurd hparam List.not_mem_nil
  | cons param params ih =>
    rw [setParamElems] at h
    split at h
    · cases h
    next e mid helem =>
      split at h
      · cases h
      next rest stop hrest =>
        refine List.forall_mem_cons.mpr ⟨?_, ih hrest⟩
        rcases (setParamElem_ok helem).2.2 with ⟨t, d, level, level', hlevels, -⟩
        exact ⟨d, level, t, hlevels.nat⟩

/-- The size of a place is right exactly if the levels are seen. -/
theorem seenSize_iff {d : Content} {level : Int} (hle : d.pointer % 256 ≤ level) :
    seenSize arm (seen d) = sizeOfParam arm d.type level ↔
      (0 < level → d.pointer % 256 = 0 →
        byAddress d.type ∨ ∀ arm, basicSize arm d.type = pointerSize) := by
  have htype : (seen d).type = d.type := rfl
  have hpointer : (seen d).pointer = d.pointer % 256 := rfl
  rw [seenSize, sizeOfParam, htype, hpointer]
  by_cases haddr : byAddress d.type = true
  · rw [if_pos haddr, if_pos (Or.inr haddr)]
    exact ⟨fun _ _ _ => Or.inl haddr, fun _ => rfl⟩
  · rw [if_neg haddr]
    by_cases hlevel : 0 < level
    · rw [if_pos (Or.inl hlevel)]
      by_cases hp : d.pointer % 256 = 0
      · rw [if_neg (not_not.mpr hp)]
        exact ⟨fun h _ _ => Or.inr (basicSize_pointer_iff.mp h), fun h =>
          (h hlevel hp).resolve_left haddr arm⟩
      · rw [if_pos hp]
        exact ⟨fun _ _ h => absurd h hp, fun _ => rfl⟩
    · have hzero : d.pointer % 256 = 0 := by omega
      rw [if_neg (not_or.mpr ⟨hlevel, haddr⟩), if_neg (not_not.mpr hzero)]
      exact ⟨fun _ h => absurd h hlevel, fun _ => rfl⟩

theorem Levels.original_unique {t : TypePtr} {d d' : Content} {level level' level'' : Int}
    (h : Levels mod param.mType t d level level') (ho : Original mod param d' level'') :
    d' = d ∧ level'' = level := by
  rcases ho with ⟨t', hres⟩
  rw [h.nat] at hres
  cases hres
  exact ⟨rfl, rfl⟩

/-- An element has the size its parameter needs exactly if the levels are seen. -/
theorem IsElem.sized_iff (h : IsElem mod arm param e) :
    (∀ d level, Original mod param d level → e.mSize = sizeOfParam arm d.type level) ↔
      LevelsSeen mod param := by
  rcases h with ⟨t, d, level, level', hlevels, hsize, -⟩
  have hle : d.pointer % 256 ≤ level := hlevels.seen_le.trans hlevels.byte_le
  have hiff := @seenSize_iff arm d level hle
  rw [← hsize] at hiff
  constructor
  · intro hsized d' level'' ho
    rcases hlevels.original_unique ho with ⟨rfl, rfl⟩
    exact hiff.mp (hsized _ _ ho)
  · intro hseen d' level'' ho
    rcases hlevels.original_unique ho with ⟨rfl, rfl⟩
    exact hiff.mpr (hseen _ _ ho)

theorem IsElem.size_pos_iff (h : IsElem mod arm param e) : 0 < e.mSize.toNat ↔ HasValue mod param := by
  rcases h with ⟨t, d, level, level', hlevels, hsize, -⟩
  have hpointer : (seen d).pointer = d.pointer % 256 := rfl
  constructor
  · intro hpos d' level'' ho hconst hzero
    rcases hlevels.original_unique ho with ⟨rfl, rfl⟩
    have hnone : seenSize arm (seen d') = 0 := by
      have htype : (seen d').type = .const := hconst
      rw [seenSize, htype, hpointer, hzero]
      rfl
    rw [hsize, hnone] at hpos
    exact absurd hpos (by decide)
  · intro hvalue
    rw [hsize]
    exact seenSize_pos hlevels.original fun hconst => hvalue d level ⟨t, hlevels.nat⟩ hconst

theorem forall₂_dropLast {α β : Type} {R : α → β → Prop} {l : List α} {l' : List β}
    (h : List.Forall₂ R l l') : List.Forall₂ R l.dropLast l'.dropLast := by
  induction h with
  | nil => exact .nil
  | cons hab hrest ih =>
    cases hrest with
    | nil => exact .nil
    | cons hcd hrest => exact .cons hab ih

theorem forall₂_transfer {α β : Type} {R : α → β → Prop} {P : α → Prop} {Q : β → Prop} {l : List α}
    {l' : List β} (hiff : ∀ a b, R a b → (Q b ↔ P a)) (h : List.Forall₂ R l l') :
    (∀ b ∈ l', Q b) ↔ ∀ a ∈ l, P a := by
  induction h with
  | nil => simp
  | cons hab hrest ih => rw [List.forall_mem_cons, List.forall_mem_cons, hiff _ _ hab, ih]

theorem forall₂_iff_left {α β : Type} {R S : α → β → Prop} {P : α → Prop} {l : List α} {l' : List β}
    (hiff : ∀ a b, R a b → (S a b ↔ P a)) (h : List.Forall₂ R l l') :
    List.Forall₂ S l l' ↔ ∀ a ∈ l, P a := by
  induction h with
  | nil => simp
  | cons hab hrest ih => rw [List.forall₂_cons, List.forall_mem_cons, hiff _ _ hab, ih]

/-- Places of which only the last may be empty come one after the other. -/
theorem increasing_of_pos (h : elems.Pairwise fun e f => e.mPos.toNat + e.mSize.toNat ≤ f.mPos.toNat)
    (hpos : ∀ e ∈ elems.dropLast, 0 < e.mSize.toNat) : elems.Pairwise fun e f => e.mPos < f.mPos := by
  induction elems with
  | nil => exact .nil
  | cons e elems ih =>
    cases elems with
    | nil => exact List.pairwise_singleton _ _
    | cons e' elems =>
      rcases List.pairwise_cons.mp h with ⟨hhead, htail⟩
      rcases List.forall_mem_cons.mp hpos with ⟨he, hrest⟩
      refine .cons (fun f hf => ?_) (ih htail hrest)
      have hle := hhead f hf
      exact UInt32.lt_iff_toNat_lt.mpr (by omega)

/-- Without the gaps of ARM an empty place is where the next one begins. -/
theorem pos_of_increasing (h : setParamElems mod alignSize false params buf = .ok (elems, buf'))
    (hinc : elems.Pairwise fun e f => e.mPos < f.mPos) : ∀ e ∈ elems.dropLast, 0 < e.mSize.toNat := by
  induction params generalizing buf buf' elems with
  | nil =>
    cases h
    exact fun e he => absurd he List.not_mem_nil
  | cons param params ih =>
    rw [setParamElems] at h
    split at h
    · cases h
    next e mid helem =>
      split at h
      · cases h
      next rest stop hrest =>
        cases h
        cases rest with
        | nil => exact fun e he => absurd he List.not_mem_nil
        | cons f rest =>
          rcases List.pairwise_cons.mp hinc with ⟨hhead, htail⟩
          refine List.forall_mem_cons.mpr ⟨?_, ih hrest htail⟩
          have hnext : f.mPos = e.mPos + round4 e.mSize := by
            rcases setParamElem_ok helem with ⟨rfl, -, -⟩
            cases params with
            | nil => cases hrest
            | cons param' params =>
              rw [setParamElems] at hrest
              split at hrest
              · cases hrest
              next f' mid' helem' =>
                split at hrest
                · cases hrest
                · cases hrest
                  rcases (setParamElem_ok helem').2.1 with hpos | ⟨harm, -⟩
                  · exact hpos
                  · cases harm
          by_contra hzero
          have hsize : e.mSize = 0 := UInt32.toNat_inj.mp (by simpa using hzero)
          have hlt := hhead f List.mem_cons_self
          rw [hnext, hsize] at hlt
          exact absurd hlt (by simp [round4])

end Levels

/-! ## The layout of a method -/

/-- The places of the parameters are always in order and apart. Their sizes are right,
and the places come one behind the other on every build, exactly if the pointer levels
of every parameter are seen in the descriptor of its original type, and no parameter
but the last is without a value. -/
theorem paramLayout_iff (mod : ClsModule) (alignSize : Nat → UInt32) (method : MethodDescriptor) :
    (∀ arm alloc elems mParamBufSize,
      initParmElement mod alignSize arm alloc method = .ok (elems, mParamBufSize) →
      Laid elems mParamBufSize ∧ Sized mod arm method.mParams elems) ↔
    (∃ param ∈ method.mParams, ∀ d level, ¬ Original mod param d level) ∨
      (∀ param ∈ method.mParams, LevelsSeen mod param) ∧
        ∀ param ∈ method.mParams.dropLast, HasValue mod param := by
  have hcount := method.count_lt
  have hfour : (4 : UInt32).toNat = 4 := rfl
  constructor
  · intro h
    by_cases hknown : ∀ param ∈ method.mParams, ∃ d level, Original mod param d level
    · right
      rcases @setParamElems_exists mod alignSize false method.mParams hknown 4 with
        ⟨elems, buf', hrun⟩
      rcases h false true elems buf' (by rw [initParmElement, if_pos rfl, hrun]) with ⟨hlaid, hsized⟩
      rcases setParamElems_ok hrun (by decide) (by omega) with ⟨-, -, helems⟩
      constructor
      · exact (forall₂_iff_left (fun _ _ helem => helem.sized_iff) helems).mp hsized
      · have hpos := pos_of_increasing hrun hlaid.increasing
        exact (forall₂_transfer (fun _ _ helem => helem.size_pos_iff)
          (forall₂_dropLast helems)).mp hpos
    · left
      push Not at hknown
      exact hknown
  · intro h arm alloc elems buf' hrun
    rw [initParmElement] at hrun
    split at hrun
    · rcases setParamElems_ok hrun (by decide) (by omega) with ⟨hstacked, hdvd, helems⟩
      rcases h with ⟨param, hparam, hnone⟩ | ⟨hseen, hvalue⟩
      · rcases setParamElems_known hrun param hparam with ⟨d, level, ho⟩
        exact absurd ho (hnone d level)
      · have hpos : ∀ e ∈ elems.dropLast, 0 < e.mSize.toNat :=
          (forall₂_transfer (fun _ _ helem => helem.size_pos_iff) (forall₂_dropLast helems)).mpr hvalue
        refine ⟨⟨fun e he => ?_, hstacked.pairwise, increasing_of_pos hstacked.pairwise hpos⟩,
          (forall₂_iff_left (fun _ _ helem => helem.sized_iff) helems).mpr hseen⟩
        rcases hstacked.bounds.2 e he with ⟨hstart, hstop⟩
        exact ⟨hstart, hdvd e he, hstop⟩
    · cases hrun

/-- A module with one alias, `LONG` of `Int64`, and a parameter of the type `LONG *`. -/
def longAlias : ClsModule where
  desc a :=
    if a = 0 then { type := .int64, index := 0, pointer := 0, nested := none }
    else { type := .typeAlias, index := 0, pointer := 1, nested := none }
  structs _ := []
  arrays _ := (0, 0)
  aliases := [0]
  iid _ := 0

/-- `[in] LONG *` -/
def longPtr : MethodDescriptor where
  mParams := [{ mType := 1, mAttribs := 1 }]
  count_lt := by decide

/-- The place of a pointer to `LONG` has the eight bytes of `Int64`. -/
theorem longPtr_place :
    initParmElement longAlias (fun _ => 0) false true longPtr =
      .ok ([{ mPos := 4, mSize := 8, mType := .localPtr, mAttrib := .input, mPointer := 1 }], 12) ∧
    ¬ ∀ elems mParamBufSize,
      initParmElement longAlias (fun _ => 0) false true longPtr = .ok (elems, mParamBufSize) →
      Laid elems mParamBufSize ∧ Sized longAlias false longPtr.mParams elems := by
  have hrun : initParmElement longAlias (fun _ => 0) false true longPtr =
      .ok ([{ mPos := 4, mSize := 8, mType := .localPtr, mAttrib := .input, mPointer := 1 }], 12) := by
    rfl
  refine ⟨hrun, fun h => ?_⟩
  rcases h _ _ hrun with ⟨-, hsized⟩
  cases hsized with
  | cons hsize _ =>
    have hbad := hsize { type := .int64, index := 0, pointer := 0, nested := none } 1 ⟨.org 0, rfl⟩
    exact absurd hbad (by decide)

end SuperExe.Reflection.Arguments
