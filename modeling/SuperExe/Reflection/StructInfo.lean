import SuperExe.Core.CString
import SuperExe.Lib.Layout
import SuperExe.Reflection.ObjInfoList

/-! # Struct layout

`CStructInfo::InitFieldElement` lays the fields of a struct out one after the
other (`reflection/CStructInfo.cpp`, with `Int32` sizes and the `ALIGN_BOUND` of the
build). It takes the alignment of a type from its size, which is right for numbers
and pointers. A `String` or an `EMuid` is no number, a vector of vectors is aligned at what the
inner vector holds, and a type of no size leaves nothing to divide by
(`structLayout_iff`).
-/

namespace SuperExe.Reflection.StructInfo

open SuperExe.Core SuperExe.Lib.Layout SuperExe.Reflection.TypeInfo

/-- `ALIGN_BOUND`, which is `8` or `4`. -/
structure Build where
  alignBound : Nat
  pos : 0 < alignBound
  lt : alignBound < 2 ^ 31

/-! ## Descriptions -/

/-- The types that `CIntrinsicInfo` stands for. -/
inductive Intrinsic where
  | int16 | int32 | int64 | byte | float | double | char32 | string | boolean | emuid | eguid
  | ecode | enum | interface
deriving DecidableEq, Repr

namespace Intrinsic

def carDataType : Intrinsic → CarDataType
  | .int16 => .int16
  | .int32 => .int32
  | .int64 => .int64
  | .byte => .byte
  | .float => .float
  | .double => .double
  | .char32 => .char32
  | .string => .string
  | .boolean => .boolean
  | .emuid => .emuid
  | .eguid => .eguid
  | .ecode => .ecode
  | .enum => .enum
  | .interface => .interface

/-- `GetSize` of `CIntrinsicInfo`, from `g_cDataTypeList`. -/
def size (type : Intrinsic) : Nat := dataTypeSize type.carDataType

/-- The alignment C gives the type; `EMuid` and `EGuid` are structs of words, halves
and bytes, and a `String` is one of words. -/
def natAlign : Intrinsic → Nat
  | .string => 4
  | .emuid => 4
  | .eguid => 4
  | type => type.size

end Intrinsic

mutual

/-- A type; `struct` has the names and the types of `mFieldNames` and
`mFieldTypeInfos`. -/
inductive DataType where
  | intrinsic (type : Intrinsic)
  | struct (fields : Fields)
  | cppVector (element : DataType) (length : Nat)

inductive Fields where
  | nil
  | cons (name : String) (type : DataType) (rest : Fields)

end

/-! ## The infos -/

/-- What an `IDataTypeInfo` answers to `GetDataType`, `GetSize` and
`GetMaxAlignSize`. -/
structure Info where
  dataType : CarDataType
  size : Int
  maxAlign : Int
deriving DecidableEq, Repr

structure StructFieldDesc where
  mName : String
  mPos : UInt32
  mSize : UInt32
  mType : CarDataType
deriving DecidableEq, Repr

section Code

variable (b : Build)

/-- `size` as `CStructInfo::GetMaxAlignSize` reads it of one field. -/
def fieldAlign (t : Info) : Int :=
  match t.dataType with
  | .struct => t.maxAlign
  | .cppVector => t.maxAlign
  | _ => t.size

/-- `CStructInfo::GetMaxAlignSize` -/
def structMaxAlign (types : List Info) : Int :=
  let align := types.foldl (fun align t => if fieldAlign t > align then fieldAlign t else align) 1
  if align > b.alignBound then b.alignBound else align

/-- `CCppVectorInfo::GetMaxAlignSize` -/
def vectorMaxAlign (element : Info) : Int :=
  let size := if element.dataType = .struct then element.maxAlign else element.size
  if size > b.alignBound then b.alignBound else size

/-- `AdjuctElemOffset`; there is no result when it divides by zero. -/
def adjuctElemOffset (offset elemSize align : UInt32) : Option UInt32 :=
  let elemSize := if elemSize > align then align else elemSize
  if elemSize = 0 then none
  else
    let mode := offset % elemSize
    some (if mode ≠ 0 then offset - mode + elemSize else offset)

/-- The loop of `InitFieldElement`, from `offset` on. -/
def initFields (align : Int) : List (String × Info) → UInt32 →
    Option (List StructFieldDesc × UInt32)
  | [], offset => some ([], offset)
  | (name, t) :: rest, offset => do
    let elemtSize := UInt32.ofInt t.size
    let elemtAlign :=
      if t.dataType = .struct ∨ t.dataType = .cppVector then t.maxAlign else align
    let pos ← adjuctElemOffset offset elemtSize (UInt32.ofInt elemtAlign)
    let (descs, stop) ← initFields align rest (pos + elemtSize)
    some ({ mName := name, mPos := pos, mSize := elemtSize, mType := t.dataType } :: descs, stop)

/-- `CStructInfo::InitFieldElement`: `mStructFieldDesc` and `mSize`. -/
def initFieldElement (fields : List (String × Info)) :
    Option (List StructFieldDesc × UInt32) := do
  let align := structMaxAlign b (fields.map Prod.snd)
  let (descs, offset) ← initFields align fields 0
  let mSize ← adjuctElemOffset offset (UInt32.ofInt align) (UInt32.ofInt align)
  some (descs, mSize)

mutual

/-- The info of a type, which the infos of its parts are made before. -/
def infoOf : DataType → Option Info
  | .intrinsic type =>
    some { dataType := type.carDataType, size := type.size, maxAlign := 0 }
  | .struct fields => do
    let infos ← infosOf fields
    let (_, mSize) ← initFieldElement b infos
    some
      { dataType := .struct
        size := toInt32 mSize.toNat
        maxAlign := structMaxAlign b (infos.map Prod.snd) }
  | .cppVector element length => do
    let t ← infoOf element
    some
      { dataType := .cppVector
        size := toInt32 (t.size * length)
        maxAlign := vectorMaxAlign b t }

def infosOf : Fields → Option (List (String × Info))
  | .nil => some []
  | .cons name type rest => do
    let t ← infoOf type
    let infos ← infosOf rest
    some ((name, t) :: infos)

end

end Code

/-! ## The layout of C -/

section Spec

variable (b : Build)

mutual

def natAlign : DataType → Nat
  | .intrinsic type => type.natAlign
  | .struct fields => natAligns fields
  | .cppVector element _ => natAlign element

def natAligns : Fields → Nat
  | .nil => 1
  | .cons _ type rest => max (natAlign type) (natAligns rest)

end

def cappedAlign (type : DataType) : Nat := min (natAlign type) b.alignBound

mutual

def natSize : DataType → Nat
  | .intrinsic type => type.size
  | .struct fields => roundUp (natEnd fields 0) (cappedAlign b (.struct fields))
  | .cppVector element length => natSize element * length

/-- The end of the last field, when the one before the fields ends at the number. -/
def natEnd : Fields → Nat → Nat
  | .nil, offset => offset
  | .cons _ type rest, offset =>
    natEnd rest (roundUp offset (cappedAlign b type) + natSize type)

end

mutual

/-- Neither the type nor one inside it is longer than a `MemorySize`. -/
def Fits : DataType → Prop
  | .intrinsic _ => True
  | .struct fields => FitsFields fields ∧ natSize b (.struct fields) < 2 ^ 31
  | .cppVector element length => Fits element ∧ natSize b (.cppVector element length) < 2 ^ 31

def FitsFields : Fields → Prop
  | .nil => True
  | .cons _ type rest => Fits type ∧ FitsFields rest

end

structure StructDescription where
  fields : Fields
  fits : Fits b (.struct fields)

def DataType.carDataType : DataType → CarDataType
  | .intrinsic type => type.carDataType
  | .struct _ => .struct
  | .cppVector _ _ => .cppVector

/-- The descriptors are those of the fields, in their order, each at the smallest
offset that is not before the end of the one before and is a multiple of its
alignment. -/
inductive Placed : Fields → Nat → List StructFieldDesc → Prop
  | nil (offset : Nat) : Placed .nil offset []
  | cons {name : String} {type : DataType} {rest : Fields} {offset : Nat} {d : StructFieldDesc}
      {ds : List StructFieldDesc} (named : d.mName = name) (typed : d.mType = type.carDataType)
      (sized : d.mSize.toNat = natSize b type)
      (least : IsLeast {m | offset ≤ m ∧ cappedAlign b type ∣ m} d.mPos.toNat)
      (behind : Placed rest (d.mPos.toNat + d.mSize.toNat) ds) :
      Placed (.cons name type rest) offset (d :: ds)

structure CLayout (fields : Fields) (descs : List StructFieldDesc) (mSize : UInt32) : Prop where
  placed : Placed b fields 0 descs
  apart : descs.Pairwise fun d e => d.mPos.toNat + d.mSize.toNat ≤ e.mPos.toNat
  covers : IsLeast {m | (∀ d ∈ descs, d.mPos.toNat + d.mSize.toNat ≤ m) ∧
    cappedAlign b (.struct fields) ∣ m} mSize.toNat

/-- The alignment of a type that is laid out on its own, as a field of a struct of
the greatest alignment. -/
def ownAlign (t : Info) : Int :=
  if t.dataType = .struct ∨ t.dataType = .cppVector then t.maxAlign
  else min t.size b.alignBound

/-- `InitFieldElement` lays the struct out as C does, and what `GetMaxAlignSize` makes
of its fields is their own alignment. -/
def LaidOut (fields : Fields) : Prop :=
  ∃ infos descs mSize, infosOf b fields = some infos ∧
    initFieldElement b infos = some (descs, mSize) ∧ CLayout b fields descs mSize ∧
    ∀ t ∈ infos.map Prod.snd, min (fieldAlign t) b.alignBound = ownAlign b t

mutual

/-- Every struct in the type is laid out as C does, and what `GetMaxAlignSize` of every
vector in it makes of the element is the element's own alignment. -/
def Right : DataType → Prop
  | .intrinsic _ => True
  | .struct fields => RightFields fields ∧ LaidOut b fields
  | .cppVector element _ =>
    Right element ∧ ∃ t, infoOf b element = some t ∧ vectorMaxAlign b t = ownAlign b t

def RightFields : Fields → Prop
  | .nil => True
  | .cons _ type rest => Right type ∧ RightFields rest

end

/-! ## Where it goes by the size -/

mutual

/-- The alignment of a type when numbers are aligned by their size, and so are vectors
of anything but structs by that of their elements. -/
def widthAlign : DataType → Nat
  | .intrinsic type => min type.size b.alignBound
  | .struct fields => widthAligns fields
  | .cppVector (.struct fields) _ => widthAligns fields
  | .cppVector element _ => min (natSize b element) b.alignBound

def widthAligns : Fields → Nat
  | .nil => 1
  | .cons _ type rest => max (widthAlign type) (widthAligns rest)

end

/-- No field is empty, and at the place of none of them does it matter that the
alignment goes by the size. -/
def PlacesSound : Fields → Nat → Prop
  | .nil, _ => True
  | .cons _ type rest, offset =>
    natSize b type ≠ 0 ∧
      roundUp offset (widthAlign b type) = roundUp offset (cappedAlign b type) ∧
      PlacesSound rest (roundUp offset (cappedAlign b type) + natSize b type)

mutual

/-- For every struct in the type, it does not matter that alignments go by the size,
and no field is empty; and a vector in a vector has the alignment of its own size. -/
def Sound : DataType → Prop
  | .intrinsic _ => True
  | .struct fields => SoundFields fields ∧ PlacesSound b fields 0 ∧
    roundUp (natEnd b fields 0) (widthAligns b fields) =
      roundUp (natEnd b fields 0) (cappedAlign b (.struct fields))
  | .cppVector element length =>
    Sound element ∧ widthAlign b (.cppVector element length) = widthAlign b element

def SoundFields : Fields → Prop
  | .nil => True
  | .cons _ type rest => Sound type ∧ SoundFields rest

end

end Spec

/-! ## The loop -/

section Lemmas

variable {b : Build}

theorem toNat_ofNat_of_lt {n : Nat} (h : n < 2 ^ 32) : (UInt32.ofNat n).toNat = n :=
  UInt32.toNat_ofNat_of_lt' h

theorem mod_step (n align : Nat) (h : 0 < align) :
    (if n % align ≠ 0 then n - n % align + align else n) = roundUp n align := by
  have hdiv := Nat.div_add_mod n align
  have hlt := Nat.mod_lt n h
  split
  · next hmod =>
    have hroom : n + align - 1 = align * (n / align + 1) + (n % align - 1) := by
      rw [Nat.mul_add]
      omega
    have hquot : (n + align - 1) / align = n / align + 1 := by
      have hrest : (n % align - 1) / align = 0 := Nat.div_eq_of_lt (by omega)
      rw [hroom, Nat.mul_add_div h, hrest]
    rw [roundUp, hquot, Nat.mul_comm, Nat.mul_add]
    omega
  · next hmod =>
    have hdvd : align ∣ n := Nat.dvd_of_mod_eq_zero (by simpa using hmod)
    exact (roundUp_eq_self h hdvd).symm

theorem adjuctElemOffset_zero (offset align : UInt32) : adjuctElemOffset offset 0 align = none := by
  simp [adjuctElemOffset]

theorem adjuctElemOffset_some {offset size align : Nat} (hoffset : offset < 2 ^ 31)
    (hsize : size < 2 ^ 32) (halign : align < 2 ^ 31) (hpos : 0 < min size align) :
    adjuctElemOffset (.ofNat offset) (.ofNat size) (.ofNat align) =
      some (.ofNat (roundUp offset (min size align))) := by
  -- the smaller of the two is what the offset is divided by
  have hmin : (if UInt32.ofNat size > UInt32.ofNat align then UInt32.ofNat align
      else UInt32.ofNat size) = UInt32.ofNat (min size align) := by
    have hgt : UInt32.ofNat size > UInt32.ofNat align ↔ align < size := by
      rw [gt_iff_lt, UInt32.lt_iff_toNat_lt, toNat_ofNat_of_lt hsize,
        toNat_ofNat_of_lt (by omega)]
    by_cases h : align < size
    · rw [if_pos (hgt.mpr h), Nat.min_eq_right h.le]
    · rw [if_neg (mt hgt.mp h), Nat.min_eq_left (by omega)]
  have hbound : min size align < 2 ^ 31 := by omega
  generalize min size align = elem at hmin hpos hbound
  have hne : UInt32.ofNat elem ≠ 0 := by
    intro h
    have hnat := congrArg UInt32.toNat h
    rw [toNat_ofNat_of_lt (by omega)] at hnat
    exact hpos.ne' hnat
  have hmodle := Nat.mod_le offset elem
  have hmodlt := Nat.mod_lt offset hpos
  have hround := roundUp_lt (n := offset) hpos
  have hmode : (UInt32.ofNat offset % UInt32.ofNat elem).toNat = offset % elem := by
    rw [UInt32.toNat_mod, toNat_ofNat_of_lt (by omega), toNat_ofNat_of_lt (by omega)]
  simp only [adjuctElemOffset, hmin]
  rw [if_neg hne]
  congr 1
  apply UInt32.toNat_inj.mp
  rw [toNat_ofNat_of_lt (by omega), ← mod_step offset elem hpos]
  by_cases h : offset % elem = 0
  · rw [if_neg, if_neg (by simpa using h), toNat_ofNat_of_lt (by omega)]
    rw [ne_eq, not_not, ← UInt32.toNat_inj, hmode]
    exact h
  · rw [if_pos, if_pos h, UInt32.toNat_add, UInt32.toNat_sub_of_le, hmode,
      toNat_ofNat_of_lt (by omega), toNat_ofNat_of_lt (by omega), Nat.mod_eq_of_lt (by omega)]
    · rw [UInt32.le_iff_toNat_le, hmode, toNat_ofNat_of_lt (by omega)]
      exact hmodle
    · rw [ne_eq, ← UInt32.toNat_inj, hmode]
      exact h

/-! ## What the infos answer -/

section Answers

variable (b : Build)

/-- The info of a type whose parts are laid out well. -/
def infoFor (type : DataType) : Info where
  dataType := type.carDataType
  size := natSize b type
  maxAlign :=
    match type with
    | .intrinsic _ => 0
    | _ => widthAlign b type

def infosFor : Fields → List (String × Info)
  | .nil => []
  | .cons name type rest => (name, infoFor b type) :: infosFor rest

/-- `elemtAlign` of a field, in a struct of the alignment `align`. -/
def elemtAlign (align : Nat) : DataType → Nat
  | .intrinsic _ => align
  | type => widthAlign b type

end Answers

@[simp] theorem size_infoFor (type : DataType) : (infoFor b type).size = natSize b type := rfl

@[simp] theorem dataType_infoFor (type : DataType) :
    (infoFor b type).dataType = type.carDataType := rfl

theorem carDataType_intrinsic (type : Intrinsic) :
    type.carDataType ≠ .struct ∧ type.carDataType ≠ .cppVector := by
  cases type <;> exact ⟨by decide, by decide⟩

theorem one_le_widthAligns (fields : Fields) : 1 ≤ widthAligns b fields := by
  cases fields with
  | nil => exact le_rfl
  | cons name type rest =>
    have ih := one_le_widthAligns rest
    rw [widthAligns]
    omega

mutual

theorem widthAlign_le (type : DataType) : widthAlign b type ≤ b.alignBound := by
  cases type with
  | intrinsic type => exact min_le_right _ _
  | struct fields => exact widthAligns_le fields
  | cppVector element length =>
    cases element with
    | intrinsic type => exact min_le_right _ _
    | struct fields => exact widthAligns_le fields
    | cppVector element length => exact min_le_right _ _

theorem widthAligns_le (fields : Fields) : widthAligns b fields ≤ b.alignBound := by
  cases fields with
  | nil => exact b.pos
  | cons name type rest => exact max_le (widthAlign_le type) (widthAligns_le rest)

end

theorem widthAlign_pos {type : DataType} (h : Sound b type) : 0 < widthAlign b type := by
  cases type with
  | intrinsic type =>
    have hsize : 0 < type.size := by cases type <;> decide
    exact lt_min hsize b.pos
  | struct fields => exact one_le_widthAligns fields
  | cppVector element length =>
    rcases h with ⟨helement, hsame⟩
    rw [hsame]
    exact widthAlign_pos helement

theorem widthAlign_le_natSize {type : DataType} (h : Sound b type) (hsize : natSize b type ≠ 0) :
    widthAlign b type ≤ natSize b type := by
  cases type with
  | intrinsic type => exact min_le_left _ _
  | struct fields =>
    rw [natSize, ← h.2.2] at hsize ⊢
    exact Nat.le_of_dvd (Nat.pos_of_ne_zero hsize) dvd_roundUp
  | cppVector element length =>
    rcases h with ⟨helement, hsame⟩
    rw [natSize] at hsize ⊢
    rw [hsame]
    have hle := widthAlign_le_natSize helement (Nat.ne_zero_of_mul_ne_zero_left hsize)
    have hlength : 0 < length := Nat.pos_of_ne_zero (Nat.ne_zero_of_mul_ne_zero_right hsize)
    exact hle.trans (Nat.le_mul_of_pos_right _ hlength)

theorem min_fieldAlign (type : DataType) :
    min (fieldAlign (infoFor b type)) b.alignBound = widthAlign b type := by
  have hle := widthAlign_le (b := b) type
  cases type with
  | intrinsic type =>
    have hsize : fieldAlign (infoFor b (.intrinsic type)) = type.size := by cases type <;> rfl
    rw [hsize, widthAlign]
    omega
  | struct fields => exact min_eq_left (Int.ofNat_le.mpr hle)
  | cppVector element length => exact min_eq_left (Int.ofNat_le.mpr hle)

theorem fieldAlign_eq_ownAlign (type : DataType) :
    min (fieldAlign (infoFor b type)) b.alignBound = ownAlign b (infoFor b type) := by
  cases type with
  | intrinsic type => cases type <;> rfl
  | struct fields => exact min_fieldAlign (.struct fields)
  | cppVector element length => exact min_fieldAlign (.cppVector element length)

theorem ownAlign_infoFor (type : DataType) : ownAlign b (infoFor b type) = widthAlign b type := by
  rw [← fieldAlign_eq_ownAlign, min_fieldAlign]

theorem foldl_fieldAlign (fields : Fields) {a : Int} (ha : 1 ≤ a) :
    min (((infosFor b fields).map Prod.snd).foldl
      (fun align t => if fieldAlign t > align then fieldAlign t else align) a) b.alignBound =
      max (min a b.alignBound) (widthAligns b fields) := by
  have hpos := b.pos
  induction fields using Fields.rec (motive_1 := fun _ => True) generalizing a with
  | nil =>
    rw [widthAligns]
    simp only [infosFor, List.map_nil, List.foldl_nil]
    omega
  | cons name type rest _ ih =>
    have hfield := min_fieldAlign (b := b) type
    simp only [infosFor, List.map_cons, List.foldl_cons]
    rw [ih (by split <;> omega), widthAligns]
    split <;> omega
  | intrinsic _ => trivial
  | struct _ _ => trivial
  | cppVector _ _ _ => trivial

theorem structMaxAlign_infosFor (fields : Fields) :
    structMaxAlign b ((infosFor b fields).map Prod.snd) = widthAligns b fields := by
  have hfold := foldl_fieldAlign (b := b) fields le_rfl
  have hone := one_le_widthAligns (b := b) fields
  have hpos := b.pos
  simp only [structMaxAlign]
  split <;> omega

theorem vectorMaxAlign_struct {t : Info} (h : t.dataType = .struct) :
    vectorMaxAlign b t = min t.maxAlign b.alignBound := by
  simp only [vectorMaxAlign, if_pos h]
  split <;> omega

theorem vectorMaxAlign_other {t : Info} (h : t.dataType ≠ .struct) :
    vectorMaxAlign b t = min t.size b.alignBound := by
  simp only [vectorMaxAlign, if_neg h]
  split <;> omega

theorem vectorMaxAlign_infoFor (element : DataType) (length : Nat) :
    vectorMaxAlign b (infoFor b element) = widthAlign b (.cppVector element length) := by
  cases element with
  | intrinsic type =>
    have hwidth : widthAlign b (.cppVector (.intrinsic type) length) =
        min (natSize b (.intrinsic type)) b.alignBound := rfl
    rw [vectorMaxAlign_other (carDataType_intrinsic type).1, hwidth, size_infoFor]
    omega
  | struct fields =>
    rw [vectorMaxAlign_struct rfl]
    exact min_eq_left (Int.ofNat_le.mpr (widthAligns_le fields))
  | cppVector element length =>
    have hwidth : ∀ n, widthAlign b (.cppVector (.cppVector element length) n) =
        min (natSize b (.cppVector element length)) b.alignBound := fun _ => rfl
    rw [vectorMaxAlign_other (fun h => CarDataType.noConfusion h), hwidth, size_infoFor]
    omega

/-! ## The loop -/

theorem elemtAlign_infoFor (type : DataType) (align : Nat) :
    (if (infoFor b type).dataType = .struct ∨ (infoFor b type).dataType = .cppVector then
      (infoFor b type).maxAlign else (align : Int)) = elemtAlign b align type := by
  cases type with
  | intrinsic type =>
    rcases carDataType_intrinsic type with ⟨hstruct, hvector⟩
    exact if_neg (not_or.mpr ⟨hstruct, hvector⟩)
  | struct fields => rfl
  | cppVector element length => rfl

/-- What the offset is divided by goes by the size. -/
theorem min_elemtAlign {type : DataType} (h : Sound b type) (hsize : natSize b type ≠ 0)
    {align : Nat} (hwidth : widthAlign b type ≤ align) (hbound : align ≤ b.alignBound) :
    min (natSize b type) (elemtAlign b align type) = widthAlign b type := by
  have hle := widthAlign_le_natSize h hsize
  cases type with
  | intrinsic type =>
    have hmin : widthAlign b (.intrinsic type) = min (natSize b (.intrinsic type)) b.alignBound :=
      rfl
    rw [elemtAlign]
    omega
  | struct fields => exact min_eq_right hle
  | cppVector element length => exact min_eq_right hle

theorem cappedAlign_pos (type : DataType) : 0 < cappedAlign b type := by
  refine lt_min ?_ b.pos
  induction type using DataType.rec (motive_2 := fun fields => 0 < natAligns fields) with
  | intrinsic type => cases type <;> decide
  | struct fields ih => exact ih
  | cppVector element length ih => exact ih
  | nil => exact Nat.one_pos
  | cons name type rest ih ihrest => exact lt_max_of_lt_right ihrest

theorem le_natEnd (fields : Fields) (offset : Nat) : offset ≤ natEnd b fields offset := by
  cases fields with
  | nil => exact le_rfl
  | cons name type rest =>
    have hround : offset ≤ roundUp offset (cappedAlign b type) :=
      le_roundUp (cappedAlign_pos type)
    have hrest := le_natEnd rest (roundUp offset (cappedAlign b type) + natSize b type)
    rw [natEnd]
    omega

namespace Placed

variable {fields : Fields} {offset : Nat} {descs : List StructFieldDesc}

theorem stacked (h : Placed b fields offset descs) :
    Stacked (fun d => d.mPos.toNat) (fun d => d.mSize.toNat) offset descs
      (natEnd b fields offset) := by
  induction h with
  | nil offset => exact Stacked.nil offset
  | cons named typed sized least behind ih =>
    have hpos := least.unique (isLeast_roundUp (cappedAlign_pos _))
    rw [natEnd, ← hpos, ← sized]
    exact Stacked.cons least.1.1 le_rfl ih

/-- The end of the last field is the least number that no field passes. -/
theorem natEnd_le (h : Placed b fields offset descs) {m : Nat} (hoffset : offset ≤ m)
    (hall : ∀ d ∈ descs, d.mPos.toNat + d.mSize.toNat ≤ m) :
    natEnd b fields offset ≤ m := by
  induction h with
  | nil offset => exact hoffset
  | cons named typed sized least behind ih =>
    have hpos := least.unique (isLeast_roundUp (cappedAlign_pos _))
    rw [natEnd, ← hpos, ← sized]
    refine ih (hall _ List.mem_cons_self) fun d hd => ?_
    exact hall d (List.mem_cons_of_mem _ hd)

theorem covers_iff (h : Placed b fields 0 descs) (m : Nat) :
    (∀ d ∈ descs, d.mPos.toNat + d.mSize.toNat ≤ m) ↔ natEnd b fields 0 ≤ m := by
  constructor
  · intro hall
    exact h.natEnd_le (Nat.zero_le m) hall
  · intro hle d hd
    exact (h.stacked.bounds.2 d hd).2.trans hle

end Placed

/-! ## Right and sound -/

theorem ofInt_natCast (n : Nat) : UInt32.ofInt (n : Int) = UInt32.ofNat n := by
  have hmod : ((n : Int) % 2 ^ 32).toNat = n % 2 ^ 32 := by omega
  rw [UInt32.ofInt, hmod]
  exact UInt32.ofNat_mod_size

section Loop

variable {align : Nat}

theorem le_of_max_le {type : DataType} {rest : Fields} {name : String}
    (h : widthAligns b (.cons name type rest) ≤ align) :
    widthAlign b type ≤ align ∧ widthAligns b rest ≤ align :=
  max_le_iff.mp h

/-- The place of the first field, when that field is sound. -/
theorem adjuct_infoFor {type : DataType} (offset : Nat) (h : Sound b type)
    (hsize : natSize b type ≠ 0) (hwidth : widthAlign b type ≤ align)
    (hbound : align ≤ b.alignBound) (hoffset : offset < 2 ^ 31) (hlt : natSize b type < 2 ^ 31) :
    adjuctElemOffset (.ofNat offset) (UInt32.ofInt (infoFor b type).size)
      (UInt32.ofInt (if (infoFor b type).dataType = .struct ∨
        (infoFor b type).dataType = .cppVector then (infoFor b type).maxAlign
        else (align : Int))) =
      some (.ofNat (roundUp offset (widthAlign b type))) := by
  have hmin := min_elemtAlign h hsize hwidth hbound
  have hpos := widthAlign_pos h
  have hlast := b.lt
  have helem : elemtAlign b align type < 2 ^ 31 := by
    have hle := widthAlign_le (b := b) type
    cases type <;> simp only [elemtAlign] <;> omega
  rw [elemtAlign_infoFor, size_infoFor, ofInt_natCast, ofInt_natCast,
    adjuctElemOffset_some hoffset (by omega) helem (by omega), hmin]

/-- The loop ends at the end of the last field, with every field at its place, when every
place is sound. -/
theorem initFields_of_sound {fields : Fields} {offset : Nat}
    (hsound : SoundFields b fields) (hfits : FitsFields b fields)
    (hplaces : PlacesSound b fields offset) (hwidth : widthAligns b fields ≤ align)
    (hbound : align ≤ b.alignBound) (hend : natEnd b fields offset < 2 ^ 31) :
    ∃ descs, initFields align (infosFor b fields) (.ofNat offset) =
      some (descs, .ofNat (natEnd b fields offset)) ∧ Placed b fields offset descs := by
  cases fields with
  | nil => exact ⟨[], rfl, Placed.nil offset⟩
  | cons name type rest =>
    rcases hsound with ⟨htype, hrest⟩
    rcases hfits with ⟨hfit, hfitrest⟩
    rcases hplaces with ⟨hsize, hround, hplaces⟩
    rcases le_of_max_le hwidth with ⟨hwtype, hwrest⟩
    have hcapped := cappedAlign_pos (b := b) type
    have hstart : offset ≤ roundUp offset (cappedAlign b type) := le_roundUp hcapped
    have hmono := le_natEnd (b := b) rest (roundUp offset (cappedAlign b type) + natSize b type)
    rw [natEnd] at hend ⊢
    rcases initFields_of_sound hrest hfitrest hplaces hwrest hbound hend with
      ⟨descs, hrun, hplaced⟩
    have hadjuct := adjuct_infoFor offset htype hsize hwtype hbound (by omega) (by omega)
    have hpos : (UInt32.ofNat (roundUp offset (cappedAlign b type))).toNat =
        roundUp offset (cappedAlign b type) := toNat_ofNat_of_lt (by omega)
    have hlen : (UInt32.ofNat (natSize b type)).toNat = natSize b type :=
      toNat_ofNat_of_lt (by omega)
    rw [hround] at hadjuct
    refine ⟨{ mName := name, mPos := .ofNat (roundUp offset (cappedAlign b type)),
              mSize := .ofNat (natSize b type), mType := type.carDataType } :: descs, ?_, ?_⟩
    · simp only [infosFor, initFields]
      rw [hadjuct]
      simp only [Option.bind_eq_bind, Option.bind_some, size_infoFor, ofInt_natCast,
        ← UInt32.ofNat_add, hrun, dataType_infoFor]
    · refine Placed.cons rfl rfl hlen ?_ ?_
      · rw [hpos]
        exact isLeast_roundUp hcapped
      · rw [hpos, hlen]
        exact hplaced

/-- The other way round: places that are those of C are sound. -/
theorem sound_of_placed {fields : Fields} {offset : Nat}
    (hsound : SoundFields b fields) (hfits : FitsFields b fields)
    (hwidth : widthAligns b fields ≤ align) (hbound : align ≤ b.alignBound)
    (hend : natEnd b fields offset < 2 ^ 31) {descs : List StructFieldDesc} {stop : UInt32}
    (hrun : initFields align (infosFor b fields) (.ofNat offset) = some (descs, stop))
    (hplaced : Placed b fields offset descs) : PlacesSound b fields offset := by
  cases fields with
  | nil => trivial
  | cons name type rest =>
    rcases hsound with ⟨htype, hrest⟩
    rcases hfits with ⟨hfit, hfitrest⟩
    rcases le_of_max_le hwidth with ⟨hwtype, hwrest⟩
    have hcapped := cappedAlign_pos (b := b) type
    have hstart : offset ≤ roundUp offset (cappedAlign b type) := le_roundUp hcapped
    have hmono := le_natEnd (b := b) rest (roundUp offset (cappedAlign b type) + natSize b type)
    rw [natEnd] at hend
    simp only [infosFor, initFields, Option.bind_eq_bind, Option.bind_eq_some_iff] at hrun
    rcases hrun with ⟨pos, hadjuct, ⟨ds, stop'⟩, hloop, heq⟩
    rw [Option.some.injEq, Prod.mk.injEq] at heq
    rcases heq with ⟨rfl, rfl⟩
    have hsize : natSize b type ≠ 0 := by
      intro hzero
      rw [size_infoFor, hzero, ofInt_natCast] at hadjuct
      exact absurd (hadjuct.symm.trans (adjuctElemOffset_zero _ _)) (Option.some_ne_none _)
    rw [adjuct_infoFor _ htype hsize hwtype hbound (by omega) (by omega),
      Option.some.injEq] at hadjuct
    -- the field is where C puts it, and so is the rest behind it
    cases hplaced with
    | cons named typed sized least behind =>
      have hround := least.unique (isLeast_roundUp hcapped)
      have hover := roundUp_lt (n := offset) (widthAlign_pos htype)
      have hle := widthAlign_le (b := b) type
      have hlast := b.lt
      simp only [← hadjuct] at hround
      rw [toNat_ofNat_of_lt (by omega)] at hround
      refine ⟨hsize, hround, ?_⟩
      rw [← hadjuct, hround, size_infoFor, ofInt_natCast, ← UInt32.ofNat_add] at hloop
      refine sound_of_placed hrest hfitrest hwrest hbound hend hloop ?_
      simp only [← hadjuct, hround] at behind
      rw [sized, toNat_ofNat_of_lt (by omega)] at behind
      exact behind

end Loop

/-- The fields of a sound struct are where C has them, and so is its end. -/
theorem initFieldElement_of_sound {fields : Fields} (hfits : Fits b (.struct fields))
    (hsound : Sound b (.struct fields)) :
    ∃ descs, initFieldElement b (infosFor b fields) =
      some (descs, .ofNat (natSize b (.struct fields))) ∧
        CLayout b fields descs (.ofNat (natSize b (.struct fields))) := by
  rcases hfits with ⟨hfields, hlt⟩
  rcases hsound with ⟨hfieldsSound, hplaces, hround⟩
  have hcapped := cappedAlign_pos (b := b) (.struct fields)
  have hend : natEnd b fields 0 ≤ natSize b (.struct fields) := le_roundUp hcapped
  have halign := widthAligns_le (b := b) fields
  have hone := one_le_widthAligns (b := b) fields
  have hlast := b.lt
  rcases initFields_of_sound hfieldsSound hfields hplaces le_rfl halign (by omega) with
    ⟨descs, hrun, hplaced⟩
  have hadjuct := @adjuctElemOffset_some (natEnd b fields 0) (widthAligns b fields)
    (widthAligns b fields) (by omega) (by omega) (by omega) (by omega)
  rw [min_self, hround] at hadjuct
  refine ⟨descs, ?_, hplaced, hplaced.stacked.pairwise, ?_⟩
  · simp only [initFieldElement, structMaxAlign_infosFor]
    rw [ofInt_natCast]
    simp only [Option.bind_eq_bind]
    rw [show (0 : UInt32) = UInt32.ofNat 0 from rfl, hrun]
    simp only [Option.bind_some]
    rw [hadjuct]
    rfl
  · rw [toNat_ofNat_of_lt (by omega)]
    simp only [hplaced.covers_iff]
    exact isLeast_roundUp hcapped

theorem sound_of_laidOut {fields : Fields} (hfits : Fits b (.struct fields))
    (hsound : SoundFields b fields) {descs : List StructFieldDesc} {mSize : UInt32}
    (hrun : initFieldElement b (infosFor b fields) = some (descs, mSize))
    (hlayout : CLayout b fields descs mSize) : Sound b (.struct fields) := by
  rcases hfits with ⟨hfields, hlt⟩
  have hcapped := cappedAlign_pos (b := b) (.struct fields)
  have hend : natEnd b fields 0 ≤ natSize b (.struct fields) := le_roundUp hcapped
  have halign := widthAligns_le (b := b) fields
  have hone := one_le_widthAligns (b := b) fields
  have hlast := b.lt
  simp only [initFieldElement, structMaxAlign_infosFor, ofInt_natCast, Option.bind_eq_bind,
    Option.bind_eq_some_iff] at hrun
  rcases hrun with ⟨⟨ds, stop⟩, hloop, size, hadjuct, heq⟩
  rw [Option.some.injEq, Prod.mk.injEq] at heq
  rcases heq with ⟨rfl, rfl⟩
  rw [show (0 : UInt32) = UInt32.ofNat 0 from rfl] at hloop
  have hplaces := sound_of_placed hsound hfields le_rfl halign (by omega) hloop hlayout.placed
  rcases initFields_of_sound hsound hfields hplaces le_rfl halign (by omega) with ⟨_, hrun', _⟩
  rw [hrun', Option.some.injEq, Prod.mk.injEq] at hloop
  rw [← hloop.2, adjuctElemOffset_some (by omega) (by omega) (by omega) (by omega), min_self,
    Option.some.injEq] at hadjuct
  have hcovers := hlayout.covers
  simp only [hlayout.placed.covers_iff] at hcovers
  have hsame := hcovers.unique (isLeast_roundUp hcapped)
  have hover := roundUp_lt (n := natEnd b fields 0) hone
  rw [← hadjuct, toNat_ofNat_of_lt (by omega)] at hsame
  exact ⟨hsound, hplaces, hsame⟩

mutual

theorem infoOf_of_sound {type : DataType} (hfits : Fits b type) (hsound : Sound b type) :
    infoOf b type = some (infoFor b type) := by
  cases type with
  | intrinsic type => rfl
  | struct fields =>
    rcases initFieldElement_of_sound hfits hsound with ⟨descs, hrun, hlayout⟩
    have hlt := hfits.2
    have hsize : toInt32 ((UInt32.ofNat (natSize b (.struct fields))).toNat : Int) =
        natSize b (.struct fields) := by
      rw [toNat_ofNat_of_lt (by omega)]
      exact toInt32_eq (by omega) (by omega)
    rw [infoOf, infosOf_of_sound hfits.1 hsound.1]
    simp only [Option.bind_eq_bind, Option.bind_some, hrun, hsize, structMaxAlign_infosFor]
    rfl
  | cppVector element length =>
    have hlt := hfits.2
    have hsize : toInt32 ((natSize b element : Int) * length) =
        natSize b (.cppVector element length) := by
      rw [natSize] at hlt ⊢
      rw [← Int.natCast_mul]
      exact toInt32_eq (by omega) (by omega)
    rw [infoOf, infoOf_of_sound hfits.1 hsound.1]
    simp only [Option.bind_eq_bind, Option.bind_some, size_infoFor, hsize,
      vectorMaxAlign_infoFor element length]
    rfl

theorem infosOf_of_sound {fields : Fields} (hfits : FitsFields b fields)
    (hsound : SoundFields b fields) : infosOf b fields = some (infosFor b fields) := by
  cases fields with
  | nil => rfl
  | cons name type rest =>
    rw [infosOf, infoOf_of_sound hfits.1 hsound.1, infosOf_of_sound hfits.2 hsound.2]
    rfl

end

theorem ownAlign_infosFor (fields : Fields) (t : Info)
    (h : t ∈ (infosFor b fields).map Prod.snd) :
    min (fieldAlign t) b.alignBound = ownAlign b t := by
  cases fields with
  | nil => cases h
  | cons name type rest =>
    rcases List.mem_cons.mp h with rfl | h
    · exact fieldAlign_eq_ownAlign type
    · exact ownAlign_infosFor rest t h

mutual

theorem right_iff_sound {type : DataType} (hfits : Fits b type) :
    Right b type ↔ Sound b type := by
  cases type with
  | intrinsic type => exact Iff.rfl
  | struct fields =>
    constructor
    · rintro ⟨hfields, infos, descs, mSize, hinfos, hrun, hlayout, -⟩
      have hsound := (rightFields_iff_sound hfits.1).mp hfields
      rw [infosOf_of_sound hfits.1 hsound, Option.some.injEq] at hinfos
      rw [← hinfos] at hrun
      exact sound_of_laidOut hfits hsound hrun hlayout
    · intro hsound
      rcases initFieldElement_of_sound hfits hsound with ⟨descs, hrun, hlayout⟩
      refine ⟨(rightFields_iff_sound hfits.1).mpr hsound.1, _, descs, _,
        infosOf_of_sound hfits.1 hsound.1, hrun, hlayout, ?_⟩
      exact ownAlign_infosFor fields
  | cppVector element length =>
    have hinfo := fun hsound => infoOf_of_sound (b := b) hfits.1 hsound
    rw [Right, Sound, right_iff_sound hfits.1]
    refine and_congr_right fun hsound => ?_
    simp only [hinfo hsound, Option.some.injEq, exists_eq_left', ownAlign_infoFor,
      vectorMaxAlign_infoFor element length, Int.natCast_inj]

theorem rightFields_iff_sound {fields : Fields} (hfits : FitsFields b fields) :
    RightFields b fields ↔ SoundFields b fields := by
  cases fields with
  | nil => exact Iff.rfl
  | cons name type rest =>
    exact and_congr (right_iff_sound hfits.1) (rightFields_iff_sound hfits.2)

end

end Lemmas

/-- A struct and the types inside it are laid out as C does exactly when no field is empty,
no place changes when alignments go by the size, and no vector of vectors has another
alignment than the vector it holds. -/
theorem structLayout_iff (b : Build) (description : StructDescription b) :
    Right b (.struct description.fields) ↔ Sound b (.struct description.fields) :=
  right_iff_sound description.fits

/-! ## A struct without fields -/

theorem boundFour_pos : 0 < 4 := by decide

theorem boundFour_lt : 4 < 2 ^ 31 := by decide

/-- A build with `ALIGN_BOUND` of four bytes. -/
def boundFour : Build := ⟨4, boundFour_pos, boundFour_lt⟩

/-- `struct { struct {} empty; Int32 number; }` -/
def emptyFirst : StructDescription boundFour where
  fields := .cons "empty" (.struct .nil) (.cons "number" (.intrinsic .int32) .nil)
  fits := by
    refine ⟨⟨⟨trivial, ?_⟩, trivial, trivial⟩, ?_⟩ <;> decide

/-- The first field is empty, and its place is a remainder by zero. -/
theorem emptyFirst_divides_by_zero :
    ¬ ∀ (b : Build) (description : StructDescription b),
      Right b (.struct description.fields) := by
  intro h
  rcases h boundFour emptyFirst with ⟨-, infos, descs, mSize, hinfos, hrun, -⟩
  have hempty : infosOf boundFour emptyFirst.fields =
      some [("empty", { dataType := .struct, size := 0, maxAlign := 1 }),
        ("number", { dataType := .int32, size := 4, maxAlign := 0 })] := by decide
  rw [hempty, Option.some.injEq] at hinfos
  have hnone : initFieldElement boundFour
      [("empty", { dataType := .struct, size := 0, maxAlign := 1 }),
        ("number", { dataType := .int32, size := 4, maxAlign := 0 })] = none := by decide
  rw [← hinfos, hnone] at hrun
  exact Option.some_ne_none _ hrun.symm

end SuperExe.Reflection.StructInfo
