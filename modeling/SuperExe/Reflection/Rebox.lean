import Mathlib.Logic.Function.Basic
import SuperExe.Lib.Trace
import SuperExe.Reflection.StructInfo

/-! # Boxes inside boxes

The box of a struct hands out boxes of its vector fields, those hand out boxes of the
vectors in them, and all of them keep what they have handed out
(`mCppVectorSGetters`); boxes of structs inside are made anew every time
(`reflection/CVariableOfStruct.cpp` and `CVariableOfCppVector.cpp`). When the outermost
box is reboxed, only the vectors it keeps itself are told
(`rebox_law_iff`).
-/

namespace SuperExe.Reflection.Nested

open SuperExe.Lib SuperExe.Reflection.StructInfo

/-! ## Types -/

section Types

variable (b : Build)

/-- `mStructFieldDesc` of a struct. -/
def descsOf : DataType → List StructFieldDesc
  | .struct fields => ((infosOf b fields).bind (initFieldElement b)).elim [] Prod.fst
  | _ => []

def Fields.types : Fields → List DataType
  | .nil => []
  | .cons _ type rest => type :: types rest

def typesOf : DataType → List DataType
  | .struct fields => Fields.types fields
  | _ => []

def isVector : DataType → Bool
  | .cppVector _ _ => true
  | _ => false

def isStruct : DataType → Bool
  | .struct _ => true
  | _ => false

/-- `GetIndexByName`, with `mPos` and the type of the field. -/
def fieldOf (type : DataType) (name : String) : Option (Nat × Nat × DataType) := do
  let i ← (descsOf b type).findIdx? fun d => name = d.mName
  let d ← (descsOf b type)[i]?
  let t ← (typesOf type)[i]?
  some (i, d.mPos.toNat, t)

/-- The element of a vector at an index that is checked: `mElementSize * index` and its
type. -/
def elementOf (type : DataType) (index : Int) : Option (Nat × DataType) :=
  match type with
  | .cppVector element length =>
    if 0 ≤ index ∧ index < length then
      (infoOf b element).map fun t => ((t.size * index).toNat, element)
    else none
  | _ => none

end Types

/-! ## The boxes -/

/-- A `CVariableOfStruct` or a `CVariableOfCppVector`. `base` is `mVarBuf` or `mVarPtr`,
and `sGetters` is `mCppVectorSGetters`: the number of a box, and whether its setter is
kept or its getter. `offset` is where the field or element lies in the struct of the
outermost box; no code reads it. `intact` is lost when something else is written over
the members of the box. -/
structure Box where
  type : DataType
  base : Nat
  offset : Nat
  intact : Bool
  sGetters : Nat → Option (Nat × Bool)

/-- A setter (`true`) or getter that was asked for, and what was handed out. -/
structure Handle where
  box : Nat
  asked : Bool
  given : Bool
deriving DecidableEq, Repr

/-- The boxes below `next`, the outermost one at `0`, and the setters and getters of
vectors that were handed out. -/
structure State where
  boxes : Nat → Box
  next : Nat
  handles : List Handle

namespace State

variable (s : State)

/-- A new box, which the box `p` keeps at `i`. -/
def addKept (p i : Nat) (isSetter : Bool) (new : Box) : State where
  boxes := Function.update
    (Function.update s.boxes p
      { s.boxes p with
        sGetters := Function.update (s.boxes p).sGetters i (some (s.next, isSetter)) })
    s.next new
  next := s.next + 1
  handles := { box := s.next, asked := isSetter, given := isSetter } :: s.handles

/-- A new box that is not kept. -/
def addLoose (new : Box) : State where
  boxes := Function.update s.boxes s.next new
  next := s.next + 1
  handles := s.handles

def hand (h : Handle) : State := { s with handles := h :: s.handles }

/-- The box of a part of the box `p`. -/
def part (p pos : Nat) (type : DataType) : Box where
  type := type
  base := (s.boxes p).base + pos
  offset := (s.boxes p).offset + pos
  intact := true
  sGetters := fun _ => none

end State

inductive Event where
  | acquireCppVectorFieldSGetter (p : Nat) (name : String) (isSetter : Bool)
  | acquireCppVectorSGetter (p : Nat) (index : Int) (isSetter : Bool)
  | getStructFieldBox (p : Nat) (name : String)
  | getStructElementBox (p : Nat) (index : Int)
  | rebox (q : Nat)

section Steps

variable (b : Build) (hits : Bool)

def acquireCppVectorFieldSGetter (s : State) (p : Nat) (name : String) (isSetter : Bool) : State :=
  match fieldOf b (s.boxes p).type name with
  | none => s
  | some (i, pos, type) =>
    if isVector type then
      match (s.boxes p).sGetters i with
      | some (c, _) => s.hand { box := c, asked := isSetter, given := isSetter }
      | none => s.addKept p i isSetter (s.part p pos type)
    else s

/-- The pointer that is kept is handed out, to a setter or a getter. -/
def acquireCppVectorSGetter (s : State) (p : Nat) (index : Int) (isSetter : Bool) : State :=
  match elementOf b (s.boxes p).type index with
  | none => s
  | some (pos, type) =>
    if isVector type then
      match (s.boxes p).sGetters index.toNat with
      | some (c, kept) => s.hand { box := c, asked := isSetter, given := kept }
      | none => s.addKept p index.toNat isSetter (s.part p pos type)
    else s

/-- `GetStructFieldSetter` and `GetStructFieldGetter` -/
def getStructFieldBox (s : State) (p : Nat) (name : String) : State :=
  match fieldOf b (s.boxes p).type name with
  | none => s
  | some (_, pos, type) => if isStruct type then s.addLoose (s.part p pos type) else s

/-- `GetStructElementSetter` and `GetStructElementGetter` -/
def getStructElementBox (s : State) (p : Nat) (index : Int) : State :=
  match elementOf b (s.boxes p).type index with
  | none => s
  | some (pos, type) => if isStruct type then s.addLoose (s.part p pos type) else s

/-- `Rebox` of one of the vectors that the outermost box keeps. It is kept as an
`IVariableOfCarArray` and called as an `ICppVectorSetter`; where the two are not at one
place in a `CVariableOfCppVector`, the call misses `mVarPtr` and writes over another
member. -/
def reboxKept (q : Nat) (boxes : Nat → Box) (i : Nat) : Nat → Box :=
  match (boxes 0).sGetters i, (descsOf b (boxes 0).type)[i]? with
  | some (c, _), some d =>
    Function.update boxes c
      (if hits then { boxes c with base := q + d.mPos.toNat }
      else { boxes c with intact := false })
  | _, _ => boxes

/-- `CVariableOfStruct::Rebox` of the outermost box. -/
def rebox (s : State) (q : Nat) : State :=
  if q = 0 then s
  else
    { s with
      boxes := (List.range (descsOf b (s.boxes 0).type).length).foldl (reboxKept b hits q)
        (Function.update s.boxes 0 { s.boxes 0 with base := q }) }

/-- Boxes are handed out and the outermost one is reboxed, in any order; only boxes that
are there are asked. -/
def nested : Machine State Event where
  step s
    | .acquireCppVectorFieldSGetter p name isSetter =>
      if p < s.next then acquireCppVectorFieldSGetter b s p name isSetter else s
    | .acquireCppVectorSGetter p index isSetter =>
      if p < s.next then acquireCppVectorSGetter b s p index isSetter else s
    | .getStructFieldBox p name => if p < s.next then getStructFieldBox b s p name else s
    | .getStructElementBox p index => if p < s.next then getStructElementBox b s p index else s
    | .rebox q => rebox b hits s q

/-- The box of a struct at an address. -/
def start (fields : Fields) (varBuf : Nat) : State where
  boxes _ :=
    { type := .struct fields
      base := varBuf
      offset := 0
      intact := true
      sGetters := fun _ => none }
  next := 1
  handles := []

end Steps

/-! ## The law -/

/-- The box is at its own place in the block that the outermost box boxes. -/
def InPlace (s : State) (c : Nat) : Prop :=
  (s.boxes c).base = (s.boxes 0).base + (s.boxes c).offset

/-- What was handed out is what was asked for, and reads and writes at the place of its own
field or element in the block that is boxed now. -/
def Lawful (s : State) : Prop :=
  ∀ h ∈ s.handles, h.given = h.asked ∧ (s.boxes h.box).intact = true ∧ InPlace s h.box

/-- The outermost box keeps the box. -/
def KeptOutermost (s : State) (c : Nat) : Prop := ∃ i k, (s.boxes 0).sGetters i = some (c, k)

/-- A `Rebox` to another block comes before any vector inside a vector or a nested struct
is handed out (and before any vector at all where the call misses); no new vector is
taken from the box of a nested struct that is older than such a `Rebox`; and of a vector
inside a vector only the setter or only the getter is asked for. -/
def Careful (b : Build) (hits : Bool) (s : State) : Event → Prop
  | .rebox q => q = 0 ∨
    if hits then q = (s.boxes 0).base ∨ ∀ h ∈ s.handles, KeptOutermost s h.box
    else (∀ c, ¬ KeptOutermost s c) ∧ (q = (s.boxes 0).base ∨ s.handles = [])
  | .acquireCppVectorFieldSGetter p name _ => p < s.next →
    ∀ i pos type, fieldOf b (s.boxes p).type name = some (i, pos, type) →
      isVector type = true → (s.boxes p).sGetters i = none → InPlace s p
  | .acquireCppVectorSGetter p index isSetter => p < s.next →
    ∀ pos type c k, elementOf b (s.boxes p).type index = some (pos, type) →
      isVector type = true → (s.boxes p).sGetters index.toNat = some (c, k) → k = isSetter
  | _ => True

/-! ## The invariant -/

/-- The outermost box is a struct; what is kept was handed out, and lies where its field is
when the outermost box keeps it. -/
structure Handed (b : Build) (s : State) : Prop where
  outermost : 0 < s.next
  struct : isStruct (s.boxes 0).type = true
  offset : (s.boxes 0).offset = 0
  inside : ∀ h ∈ s.handles, 0 < h.box ∧ h.box < s.next
  kept : ∀ p < s.next, ∀ i c k, (s.boxes p).sGetters i = some (c, k) → ∃ h ∈ s.handles, h.box = c
  vectors : ∀ c, 0 < c → c < s.next → isVector (s.boxes c).type = true →
    ∃ h ∈ s.handles, h.box = c
  fields : ∀ i c k, (s.boxes 0).sGetters i = some (c, k) →
    ∃ d, (descsOf b (s.boxes 0).type)[i]? = some d ∧ (s.boxes c).offset = d.mPos.toNat

section Add

variable {b : Build} {s : State} {p i : Nat} {isSetter : Bool} {new : Box}

/-- The old boxes stay but for what `p` keeps. -/
theorem addKept_old {c : Nat} (hc : c ≠ s.next) :
    ((s.addKept p i isSetter new).boxes c).type = (s.boxes c).type ∧
      ((s.addKept p i isSetter new).boxes c).base = (s.boxes c).base ∧
      ((s.addKept p i isSetter new).boxes c).offset = (s.boxes c).offset ∧
      ((s.addKept p i isSetter new).boxes c).intact = (s.boxes c).intact := by
  simp only [State.addKept, Function.update_of_ne hc]
  by_cases hp : c = p
  · subst hp
    simp only [Function.update_self, and_self]
  · simp only [Function.update_of_ne hp, and_self]

theorem addKept_sGetters {c : Nat} (hc : c ≠ s.next) {j d : Nat} {k : Bool}
    (h : ((s.addKept p i isSetter new).boxes c).sGetters j = some (d, k)) :
    (c = p ∧ j = i ∧ d = s.next) ∨ (s.boxes c).sGetters j = some (d, k) := by
  simp only [State.addKept, Function.update_of_ne hc] at h
  by_cases hp : c = p
  · subst hp
    simp only [Function.update_self] at h
    by_cases hj : j = i
    · subst hj
      rw [Function.update_self, Option.some_inj, Prod.mk.injEq] at h
      exact Or.inl ⟨rfl, rfl, h.1.symm⟩
    · rw [Function.update_of_ne hj] at h
      exact Or.inr h
  · rw [Function.update_of_ne hp] at h
    exact Or.inr h

theorem addKept_new : (s.addKept p i isSetter new).boxes s.next = new := Function.update_self ..

theorem Handed.addKept (h : Handed b s) {pos : Nat} {type : DataType}
    (hfield : p = 0 → ∃ d, (descsOf b (s.boxes 0).type)[i]? = some d ∧ pos = d.mPos.toNat) :
    Handed b (s.addKept p i isSetter (s.part p pos type)) := by
  have hpos := h.outermost
  have hzero : (0 : Nat) ≠ s.next := by omega
  -- the outermost box is an old one
  rcases @addKept_old s p i isSetter (s.part p pos type) 0 hzero with ⟨htype, -, hoffset, -⟩
  refine ⟨Nat.succ_pos _, htype ▸ h.struct, hoffset.trans h.offset, ?_, ?_, ?_, ?_⟩
  · intro x hx
    rcases List.mem_cons.mp hx with rfl | hx
    · exact ⟨hpos, Nat.lt_succ_self _⟩
    · rcases h.inside x hx with ⟨hlow, hlt⟩
      exact ⟨hlow, Nat.lt_succ_of_lt hlt⟩
  · intro c hc j d k hj
    by_cases hnext : c = s.next
    · subst hnext
      rw [addKept_new] at hj
      cases hj
    · have hlt : c < s.next := by
        have hle : c < s.next + 1 := hc
        omega
      rcases addKept_sGetters hnext hj with ⟨-, -, rfl⟩ | hold
      · exact ⟨_, List.mem_cons_self, rfl⟩
      · rcases h.kept c hlt j d k hold with ⟨x, hx, hbox⟩
        exact ⟨x, List.mem_cons_of_mem _ hx, hbox⟩
  · intro c hlow hc hvector
    by_cases hnext : c = s.next
    · exact ⟨_, List.mem_cons_self, hnext.symm⟩
    · have hlt : c < s.next := by
        have hle : c < s.next + 1 := hc
        omega
      rw [(addKept_old hnext).1] at hvector
      rcases h.vectors c hlow hlt hvector with ⟨x, hx, hbox⟩
      exact ⟨x, List.mem_cons_of_mem _ hx, hbox⟩
  · intro j c k hj
    rw [htype]
    rcases addKept_sGetters hzero hj with ⟨hp, rfl, rfl⟩ | hold
    · rcases hfield hp.symm with ⟨d, hd, hdpos⟩
      refine ⟨d, hd, ?_⟩
      have hoff := h.offset
      rw [addKept_new, State.part, ← hp]
      show (s.boxes 0).offset + pos = _
      omega
    · rcases h.fields j c k hold with ⟨d, hd, hdpos⟩
      rcases h.kept 0 hpos j c k hold with ⟨x, hx, rfl⟩
      have hne : x.box ≠ s.next := (h.inside x hx).2.ne
      exact ⟨d, hd, (addKept_old hne).2.2.1.trans hdpos⟩

/-- The new box is in its place exactly when the box it is taken from is. -/
theorem lawful_addKept_iff (h : Handed b s) (hlawful : Lawful s) {pos : Nat} {type : DataType} :
    Lawful (s.addKept p i isSetter (s.part p pos type)) ↔ InPlace s p := by
  have hpos := h.outermost
  have hzero : (0 : Nat) ≠ s.next := by omega
  have hbase := (@addKept_old s p i isSetter (s.part p pos type) 0 hzero).2.1
  have hnew : InPlace (s.addKept p i isSetter (s.part p pos type)) s.next ↔ InPlace s p := by
    rw [InPlace, InPlace, hbase, addKept_new]
    show (s.boxes p).base + pos = (s.boxes 0).base + ((s.boxes p).offset + pos) ↔ _
    omega
  constructor
  · intro hall
    exact hnew.mp (hall _ List.mem_cons_self).2.2
  · intro hplace x hx
    rcases List.mem_cons.mp hx with rfl | hx
    · refine ⟨rfl, ?_, hnew.mpr hplace⟩
      show ((s.addKept p i isSetter (s.part p pos type)).boxes s.next).intact = true
      rw [addKept_new]
      rfl
    · have hne : x.box ≠ s.next := (h.inside x hx).2.ne
      rcases hlawful x hx with ⟨hgiven, hintact, hinplace⟩
      rcases @addKept_old s p i isSetter (s.part p pos type) x.box hne with
        ⟨-, hb, hoff, hint⟩
      refine ⟨hgiven, hint.trans hintact, ?_⟩
      rw [InPlace, hb, hbase, hoff]
      exact hinplace

theorem Handed.addLoose (h : Handed b s) (hstruct : isVector new.type = false)
    (hnone : ∀ i, new.sGetters i = none) : Handed b (s.addLoose new) := by
  have hpos := h.outermost
  have hold : ∀ c, c ≠ s.next → (s.addLoose new).boxes c = s.boxes c := fun c hc =>
    Function.update_of_ne hc _ _
  have hself : (s.addLoose new).boxes s.next = new := Function.update_self ..
  have hzero := hold 0 (by omega)
  refine ⟨Nat.succ_pos _, hzero ▸ h.struct, hzero ▸ h.offset, ?_, ?_, ?_, ?_⟩
  · intro x hx
    rcases h.inside x hx with ⟨hlow, hlt⟩
    exact ⟨hlow, Nat.lt_succ_of_lt hlt⟩
  · intro c hc j d k hj
    by_cases hnext : c = s.next
    · rw [hnext, hself, hnone] at hj
      cases hj
    · have hle : c < s.next + 1 := hc
      rw [hold c hnext] at hj
      exact h.kept c (by omega) j d k hj
  · intro c hlow hc hvector
    by_cases hnext : c = s.next
    · rw [hnext, hself, hstruct] at hvector
      cases hvector
    · have hle : c < s.next + 1 := hc
      rw [hold c hnext] at hvector
      exact h.vectors c hlow (by omega) hvector
  · intro j c k hj
    rw [hzero] at hj ⊢
    rcases h.fields j c k hj with ⟨d, hd, hdpos⟩
    rcases h.kept 0 hpos j c k hj with ⟨x, hx, rfl⟩
    exact ⟨d, hd, by rw [hold _ (h.inside x hx).2.ne]; exact hdpos⟩

theorem lawful_addLoose (h : Handed b s) (hlawful : Lawful s) : Lawful (s.addLoose new) := by
  have hpos := h.outermost
  have hold : ∀ c, c ≠ s.next → (s.addLoose new).boxes c = s.boxes c := fun c hc =>
    Function.update_of_ne hc _ _
  intro x hx
  rcases hlawful x hx with ⟨hgiven, hintact, hinplace⟩
  have hne := hold x.box (h.inside x hx).2.ne
  refine ⟨hgiven, hne ▸ hintact, ?_⟩
  rw [InPlace, hne, hold 0 (by omega)]
  exact hinplace

theorem Handed.hand (h : Handed b s) {x : Handle} (hx : ∃ y ∈ s.handles, y.box = x.box) :
    Handed b (s.hand x) := by
  refine ⟨h.outermost, h.struct, h.offset, ?_, ?_, ?_, h.fields⟩
  · intro y hy
    rcases List.mem_cons.mp hy with rfl | hy
    · rcases hx with ⟨z, hz, hbox⟩
      exact hbox ▸ h.inside z hz
    · exact h.inside y hy
  · intro p hp i c k hi
    rcases h.kept p hp i c k hi with ⟨y, hy, hbox⟩
    exact ⟨y, List.mem_cons_of_mem _ hy, hbox⟩
  · intro c hlow hlt hvector
    rcases h.vectors c hlow hlt hvector with ⟨y, hy, hbox⟩
    exact ⟨y, List.mem_cons_of_mem _ hy, hbox⟩

/-- A box that was handed out before is handed out again. -/
theorem lawful_hand_iff (hlawful : Lawful s) {x : Handle} (hx : ∃ y ∈ s.handles, y.box = x.box) :
    Lawful (s.hand x) ↔ x.given = x.asked := by
  constructor
  · intro hall
    exact (hall x List.mem_cons_self).1
  · intro hgiven y hy
    rcases List.mem_cons.mp hy with rfl | hy
    · rcases hx with ⟨z, hz, hbox⟩
      rcases hlawful z hz with ⟨-, hintact, hinplace⟩
      rw [hbox] at hintact hinplace
      exact ⟨hgiven, hintact, hinplace⟩
    · exact hlawful y hy

end Add

/-! ## `Rebox` -/

section Rebox

variable {b : Build} {hits : Bool} {q : Nat}

/-- Only the place of a box changes, and whether it is intact. -/
theorem reboxKept_frame (boxes : Nat → Box) (i c : Nat) :
    (reboxKept b hits q boxes i c).type = (boxes c).type ∧
      (reboxKept b hits q boxes i c).offset = (boxes c).offset ∧
      (reboxKept b hits q boxes i c).sGetters = (boxes c).sGetters := by
  rw [reboxKept]
  generalize (boxes 0).sGetters i = kept
  generalize (descsOf b (boxes 0).type)[i]? = desc
  rcases kept with - | ⟨c', k⟩
  · exact ⟨rfl, rfl, rfl⟩
  rcases desc with - | d
  · exact ⟨rfl, rfl, rfl⟩
  by_cases hc : c = c'
  · subst hc
    simp only [Function.update_self]
    cases hits <;> exact ⟨rfl, rfl, rfl⟩
  · simp only [Function.update_of_ne hc, and_self]

theorem foldl_reboxKept_frame (boxes : Nat → Box) (n c : Nat) :
    ((List.range n).foldl (reboxKept b hits q) boxes c).type = (boxes c).type ∧
      ((List.range n).foldl (reboxKept b hits q) boxes c).offset = (boxes c).offset ∧
      ((List.range n).foldl (reboxKept b hits q) boxes c).sGetters = (boxes c).sGetters := by
  induction n with
  | zero => exact ⟨rfl, rfl, rfl⟩
  | succ n ih =>
    rw [List.range_succ, List.foldl_append]
    rcases reboxKept_frame (b := b) (q := q)
      ((List.range n).foldl (reboxKept b hits q) boxes) n c with ⟨htype, hoffset, hgetters⟩
    exact ⟨htype.trans ih.1, hoffset.trans ih.2.1, hgetters.trans ih.2.2⟩

/-- What one turn of the loop does, in the terms of the boxes before the loop. -/
theorem foldl_reboxKept_succ (boxes : Nat → Box) (n : Nat) :
    (List.range (n + 1)).foldl (reboxKept b hits q) boxes =
      match (boxes 0).sGetters n, (descsOf b (boxes 0).type)[n]? with
      | some (c, _), some d =>
        Function.update ((List.range n).foldl (reboxKept b hits q) boxes) c
          (if hits then
            { (List.range n).foldl (reboxKept b hits q) boxes c with base := q + d.mPos.toNat }
          else { (List.range n).foldl (reboxKept b hits q) boxes c with intact := false })
      | _, _ => (List.range n).foldl (reboxKept b hits q) boxes := by
  rcases @foldl_reboxKept_frame b hits q boxes n 0 with
    ⟨htype, -, hgetters⟩
  rw [List.range_succ, List.foldl_append]
  show reboxKept b hits q ((List.range n).foldl (reboxKept b hits q) boxes) n = _
  rw [reboxKept, htype, hgetters]

/-- A box that the outermost one does not keep stays as it is. -/
theorem foldl_reboxKept_other {boxes : Nat → Box} {c : Nat}
    (hc : ∀ i k, (boxes 0).sGetters i ≠ some (c, k)) (n : Nat) :
    (List.range n).foldl (reboxKept b hits q) boxes c = boxes c := by
  induction n with
  | zero => rfl
  | succ n ih =>
    rw [foldl_reboxKept_succ]
    split
    · next c' k d hkept _ =>
      have hne : c ≠ c' := by
        rintro rfl
        exact hc n k hkept
      rw [Function.update_of_ne hne]
      exact ih
    · exact ih

/-- Where the call hits, nothing is written over, and every box that is kept comes to the
place of its field. -/
theorem foldl_reboxKept_hits {boxes : Nat → Box}
    (hfields : ∀ i c k, (boxes 0).sGetters i = some (c, k) →
      ∃ d, (descsOf b (boxes 0).type)[i]? = some d ∧ (boxes c).offset = d.mPos.toNat) (n : Nat) :
    (∀ c, ((List.range n).foldl (reboxKept b true q) boxes c).intact = (boxes c).intact) ∧
      ∀ i c k, i < n → (boxes 0).sGetters i = some (c, k) →
        ((List.range n).foldl (reboxKept b true q) boxes c).base = q + (boxes c).offset := by
  induction n with
  | zero => exact ⟨fun _ => rfl, fun i c k hi => absurd hi (Nat.not_lt_zero i)⟩
  | succ n ih =>
    rcases ih with ⟨hintact, hbase⟩
    rw [foldl_reboxKept_succ]
    split
    · next c' k' d hkept hd =>
      rw [if_pos rfl]
      constructor
      · intro c
        by_cases hc : c = c'
        · subst hc
          rw [Function.update_self]
          exact hintact c
        · rw [Function.update_of_ne hc]
          exact hintact c
      · intro i c k hi hi'
        by_cases hc : c = c'
        · subst hc
          rcases hfields n c k' hkept with ⟨d', hd', hoffset⟩
          have hsame : d = d' := Option.some.inj (hd.symm.trans hd')
          rw [Function.update_self, hoffset, ← hsame]
        · rw [Function.update_of_ne hc]
          refine hbase i c k (Nat.lt_of_le_of_ne (Nat.le_of_lt_succ hi) ?_) hi'
          rintro rfl
          rw [hkept, Option.some_inj, Prod.mk.injEq] at hi'
          exact hc hi'.1.symm
    · next hnone =>
      refine ⟨hintact, fun i c k hi hi' => hbase i c k ?_ hi'⟩
      refine Nat.lt_of_le_of_ne (Nat.le_of_lt_succ hi) ?_
      rintro rfl
      rcases hfields i c k hi' with ⟨d, hd, -⟩
      exact hnone c k d hi' hd

/-- Where it misses, every box that is kept is written over. -/
theorem foldl_reboxKept_misses {boxes : Nat → Box}
    (hfields : ∀ i c k, (boxes 0).sGetters i = some (c, k) →
      ∃ d, (descsOf b (boxes 0).type)[i]? = some d ∧ (boxes c).offset = d.mPos.toNat) (n : Nat) :
    ∀ i c k, i < n → (boxes 0).sGetters i = some (c, k) →
      ((List.range n).foldl (reboxKept b false q) boxes c).intact = false := by
  induction n with
  | zero => exact fun i c k hi => absurd hi (Nat.not_lt_zero i)
  | succ n ih =>
    intro i c k hi hi'
    rw [foldl_reboxKept_succ]
    split
    · next c' k' d hkept hd =>
      by_cases hc : c = c'
      · subst hc
        rw [Function.update_self]
        rfl
      · rw [Function.update_of_ne hc]
        refine ih i c k (Nat.lt_of_le_of_ne (Nat.le_of_lt_succ hi) ?_) hi'
        rintro rfl
        rw [hkept, Option.some_inj, Prod.mk.injEq] at hi'
        exact hc hi'.1.symm
    · next hnone =>
      refine ih i c k (Nat.lt_of_le_of_ne (Nat.le_of_lt_succ hi) ?_) hi'
      rintro rfl
      rcases hfields i c k hi' with ⟨d, hd, -⟩
      exact hnone c k d hi' hd

variable {s : State}

/-- The boxes before the loop. -/
theorem update_base_fields (h : Handed b s) :
    ∀ i c k, ((Function.update s.boxes 0 { s.boxes 0 with base := q }) 0).sGetters i = some (c, k) →
      ∃ d, (descsOf b ((Function.update s.boxes 0 { s.boxes 0 with base := q }) 0).type)[i]? =
          some d ∧
        ((Function.update s.boxes 0 { s.boxes 0 with base := q }) c).offset = d.mPos.toNat := by
  intro i c k hkept
  rw [Function.update_self] at hkept ⊢
  rcases h.fields i c k hkept with ⟨d, hd, hoffset⟩
  refine ⟨d, hd, ?_⟩
  by_cases hc : c = 0
  · subst hc
    rw [Function.update_self]
    exact hoffset
  · rw [Function.update_of_ne hc]
    exact hoffset

theorem rebox_frame (s : State) (hq : q ≠ 0) (c : Nat) :
    ((rebox b hits s q).boxes c).type = (s.boxes c).type ∧
      ((rebox b hits s q).boxes c).offset = (s.boxes c).offset ∧
      ((rebox b hits s q).boxes c).sGetters = (s.boxes c).sGetters := by
  rw [rebox, if_neg hq]
  rcases @foldl_reboxKept_frame b hits q
    (Function.update s.boxes 0 { s.boxes 0 with base := q })
    (descsOf b (s.boxes 0).type).length c with ⟨htype, hoffset, hgetters⟩
  have hsame : ((Function.update s.boxes 0 { s.boxes 0 with base := q }) c).type =
        (s.boxes c).type ∧
      ((Function.update s.boxes 0 { s.boxes 0 with base := q }) c).offset = (s.boxes c).offset ∧
      ((Function.update s.boxes 0 { s.boxes 0 with base := q }) c).sGetters =
        (s.boxes c).sGetters := by
    by_cases hc : c = 0
    · subst hc
      rw [Function.update_self]
      exact ⟨rfl, rfl, rfl⟩
    · rw [Function.update_of_ne hc]
      exact ⟨rfl, rfl, rfl⟩
  exact ⟨htype.trans hsame.1, hoffset.trans hsame.2.1, hgetters.trans hsame.2.2⟩

theorem Handed.rebox (h : Handed b s) : Handed b (rebox b hits s q) := by
  by_cases hq : q = 0
  · rw [Nested.rebox, if_pos hq]
    exact h
  have hframe := fun c => @rebox_frame b hits q s hq c
  have hnext : (Nested.rebox b hits s q).next = s.next := by rw [Nested.rebox, if_neg hq]
  have hhandles : (Nested.rebox b hits s q).handles = s.handles := by
    rw [Nested.rebox, if_neg hq]
  refine ⟨hnext ▸ h.outermost, (hframe 0).1 ▸ h.struct, (hframe 0).2.1.trans h.offset, ?_, ?_,
    ?_, ?_⟩
  · rw [hnext, hhandles]
    exact h.inside
  · rw [hnext, hhandles]
    intro p hp i c k hi
    rw [(hframe p).2.2] at hi
    exact h.kept p hp i c k hi
  · rw [hnext, hhandles]
    intro c hlow hlt hvector
    rw [(hframe c).1] at hvector
    exact h.vectors c hlow hlt hvector
  · intro i c k hi
    rw [(hframe 0).2.2] at hi
    rw [(hframe 0).1, (hframe c).2.1]
    exact h.fields i c k hi

/-- The outermost box keeps no box that is itself. -/
theorem Handed.kept_pos (h : Handed b s) {c : Nat} (hc : KeptOutermost s c) : 0 < c := by
  rcases hc with ⟨i, k, hi⟩
  rcases h.kept 0 h.outermost i c k hi with ⟨x, hx, rfl⟩
  exact (h.inside x hx).1

theorem rebox_outermost (h : Handed b s) (hq : q ≠ 0) :
    ((rebox b hits s q).boxes 0).base = q := by
  have hzero : ∀ i k, ((Function.update s.boxes 0 { s.boxes 0 with base := q }) 0).sGetters i ≠
      some (0, k) := by
    intro i k hi
    rw [Function.update_self] at hi
    exact absurd (h.kept_pos ⟨i, k, hi⟩) (Nat.lt_irrefl 0)
  rw [rebox, if_neg hq]
  show ((List.range _).foldl (reboxKept b hits q) _ 0).base = q
  rw [foldl_reboxKept_other hzero, Function.update_self]

theorem rebox_other (hq : q ≠ 0) {c : Nat} (hpos : 0 < c) (hc : ¬ KeptOutermost s c) :
    (rebox b hits s q).boxes c = s.boxes c := by
  have hnone : ∀ i k, ((Function.update s.boxes 0 { s.boxes 0 with base := q }) 0).sGetters i ≠
      some (c, k) := by
    intro i k hi
    rw [Function.update_self] at hi
    exact hc ⟨i, k, hi⟩
  rw [rebox, if_neg hq]
  show (List.range _).foldl (reboxKept b hits q) _ c = s.boxes c
  rw [foldl_reboxKept_other hnone, Function.update_of_ne hpos.ne']

theorem rebox_hits (h : Handed b s) (hq : q ≠ 0) {c : Nat} (hc : KeptOutermost s c) :
    ((rebox b true s q).boxes c).intact = (s.boxes c).intact ∧
      ((rebox b true s q).boxes c).base = q + (s.boxes c).offset := by
  have hpos := h.kept_pos hc
  rcases hc with ⟨i, k, hi⟩
  rcases h.fields i c k hi with ⟨d, hd, -⟩
  have hlt := (List.getElem?_eq_some_iff.mp hd).1
  rcases foldl_reboxKept_hits (update_base_fields h (q := q))
    (descsOf b (s.boxes 0).type).length with ⟨hintact, hbase⟩
  rw [rebox, if_neg hq]
  constructor
  · refine (hintact c).trans ?_
    rw [Function.update_of_ne hpos.ne']
  · refine (hbase i c k hlt (by rw [Function.update_self]; exact hi)).trans ?_
    rw [Function.update_of_ne hpos.ne']

theorem rebox_misses (h : Handed b s) (hq : q ≠ 0) {c : Nat} (hc : KeptOutermost s c) :
    ((rebox b false s q).boxes c).intact = false := by
  rcases hc with ⟨i, k, hi⟩
  rcases h.fields i c k hi with ⟨d, hd, -⟩
  have hlt := (List.getElem?_eq_some_iff.mp hd).1
  rw [rebox, if_neg hq]
  exact foldl_reboxKept_misses (update_base_fields h (q := q)) _ i c k hlt
    (by rw [Function.update_self]; exact hi)

/-- A box that is not told stays in its place exactly when the block stays. -/
theorem inPlace_rebox_iff (h : Handed b s) (hq : q ≠ 0) {c : Nat} (hpos : 0 < c)
    (hc : ¬ KeptOutermost s c) (hplace : InPlace s c) :
    InPlace (rebox b hits s q) c ↔ q = (s.boxes 0).base := by
  rw [InPlace] at hplace ⊢
  rw [rebox_outermost h hq, rebox_other hq hpos hc]
  omega

theorem lawful_rebox_iff (h : Handed b s) (hlawful : Lawful s) :
    Lawful (rebox b hits s q) ↔ Careful b hits s (.rebox q) := by
  by_cases hq : q = 0
  · rw [rebox, if_pos hq]
    exact iff_of_true hlawful (Or.inl hq)
  have hhandles : (rebox b hits s q).handles = s.handles := by rw [rebox, if_neg hq]
  -- for a box that is not told, the block has to stay
  have hstays : Lawful (rebox b hits s q) → ∀ x ∈ s.handles, ¬ KeptOutermost s x.box →
      q = (s.boxes 0).base := by
    intro hall x hx hc
    rw [Lawful, hhandles] at hall
    exact (inPlace_rebox_iff h hq (h.inside x hx).1 hc (hlawful x hx).2.2).mp (hall x hx).2.2
  have hother : ∀ x ∈ s.handles, ¬ KeptOutermost s x.box → q = (s.boxes 0).base →
      x.given = x.asked ∧ ((rebox b hits s q).boxes x.box).intact = true ∧
        InPlace (rebox b hits s q) x.box := by
    intro x hx hc hbase
    rcases hlawful x hx with ⟨hgiven, hintact, hplace⟩
    have hpos := (h.inside x hx).1
    refine ⟨hgiven, ?_, (inPlace_rebox_iff h hq hpos hc hplace).mpr hbase⟩
    rw [rebox_other hq hpos hc]
    exact hintact
  rw [Careful, or_iff_right hq]
  cases hits with
  | true =>
    rw [if_pos rfl]
    constructor
    · intro hall
      by_cases hbase : q = (s.boxes 0).base
      · exact Or.inl hbase
      · refine Or.inr fun x hx => ?_
        by_contra hc
        exact hbase (hstays hall x hx hc)
    · intro hcareful x hx
      rw [hhandles] at hx
      by_cases hc : KeptOutermost s x.box
      · rcases rebox_hits h hq hc with ⟨hintact, hbase⟩
        refine ⟨(hlawful x hx).1, hintact.trans (hlawful x hx).2.1, ?_⟩
        rw [InPlace, rebox_outermost h hq, hbase, (rebox_frame s hq x.box).2.1]
      · rcases hcareful with hbase | hkept
        · exact hother x hx hc hbase
        · exact absurd (hkept x hx) hc
  | false =>
    rw [if_neg (by decide)]
    constructor
    · intro hall
      have hnone : ∀ c, ¬ KeptOutermost s c := by
        intro c hc
        rcases hc with ⟨i, k, hi⟩
        rcases h.kept 0 h.outermost i c k hi with ⟨x, hx, rfl⟩
        have hintact := (hall x (hhandles ▸ hx)).2.1
        rw [rebox_misses h hq ⟨i, k, hi⟩] at hintact
        cases hintact
      refine ⟨hnone, ?_⟩
      cases hlist : s.handles with
      | nil => exact Or.inr rfl
      | cons x rest =>
        exact Or.inl (hstays hall x (hlist ▸ List.mem_cons_self) (hnone x.box))
    · rintro ⟨hnone, hbase⟩ x hx
      rw [hhandles] at hx
      rcases hbase with hbase | hempty
      · exact hother x hx (hnone x.box) hbase
      · rw [hempty] at hx
        cases hx

end Rebox

/-! ## Every run -/

section Run

variable {b : Build} {hits : Bool} {s : State}

theorem fieldOf_desc {type t : DataType} {name : String} {i pos : Nat}
    (h : fieldOf b type name = some (i, pos, t)) :
    ∃ d, (descsOf b type)[i]? = some d ∧ pos = d.mPos.toNat := by
  simp only [fieldOf, Option.bind_eq_bind, Option.bind_eq_some_iff] at h
  rcases h with ⟨j, -, d, hd, u, -, heq⟩
  rw [Option.some_inj, Prod.mk.injEq, Prod.mk.injEq] at heq
  rcases heq with ⟨rfl, rfl, rfl⟩
  exact ⟨d, hd, rfl⟩

theorem elementOf_struct {type : DataType} {index : Int} (h : isStruct type = true) :
    elementOf b type index = none := by
  cases type with
  | intrinsic type => cases h
  | struct fields => rfl
  | cppVector element length => cases h

theorem isVector_of_element {type : DataType} {index : Int} {r : Nat × DataType}
    (h : elementOf b type index = some r) : isVector type = true := by
  cases type with
  | intrinsic type => cases h
  | struct fields => cases h
  | cppVector element length => rfl

theorem isVector_of_struct {type : DataType} (h : isStruct type = true) :
    isVector type = false := by
  cases type with
  | intrinsic type => rfl
  | struct fields => rfl
  | cppVector element length => cases h

/-- One step keeps the boxes in order, and the law exactly when it is careful. -/
theorem step_lawful_iff (h : Handed b s) (hlawful : Lawful s) (e : Event) :
    Handed b ((nested b hits).step s e) ∧
      (Lawful ((nested b hits).step s e) ↔ Careful b hits s e) := by
  cases e with
  | rebox q => exact ⟨h.rebox, lawful_rebox_iff h hlawful⟩
  | acquireCppVectorFieldSGetter p name isSetter =>
    simp only [nested, Careful]
    by_cases hp : p < s.next
    swap
    · rw [if_neg hp]
      exact ⟨h, iff_of_true hlawful fun h => absurd h hp⟩
    rw [if_pos hp, acquireCppVectorFieldSGetter]
    cases hfield : fieldOf b (s.boxes p).type name with
    | none => exact ⟨h, iff_of_true hlawful fun _ i pos type heq => by cases heq⟩
    | some r =>
      rcases r with ⟨i, pos, type⟩
      by_cases hvector : isVector type = true
      swap
      · simp only [if_neg hvector]
        refine ⟨h, iff_of_true hlawful fun _ i' pos' type' heq hv => ?_⟩
        rw [Option.some_inj, Prod.mk.injEq, Prod.mk.injEq] at heq
        exact absurd (heq.2.2 ▸ hv) hvector
      simp only [if_pos hvector]
      cases hkept : (s.boxes p).sGetters i with
      | some r =>
        rcases r with ⟨c, k⟩
        have hbox := h.kept p hp i c k hkept
        refine ⟨h.hand hbox, ?_⟩
        rw [lawful_hand_iff hlawful hbox]
        refine iff_of_true rfl fun _ i' pos' type' heq _ hnone => ?_
        rw [Option.some_inj, Prod.mk.injEq] at heq
        rw [← heq.1, hkept] at hnone
        cases hnone
      | none =>
        have hdesc := fieldOf_desc hfield
        refine ⟨h.addKept fun hzero => hzero ▸ hdesc, ?_⟩
        rw [lawful_addKept_iff h hlawful]
        constructor
        · exact fun hplace _ _ _ _ _ _ _ => hplace
        · exact fun hcareful => hcareful hp i pos type rfl hvector hkept
  | acquireCppVectorSGetter p index isSetter =>
    simp only [nested, Careful]
    by_cases hp : p < s.next
    swap
    · rw [if_neg hp]
      exact ⟨h, iff_of_true hlawful fun h => absurd h hp⟩
    rw [if_pos hp, acquireCppVectorSGetter]
    cases helement : elementOf b (s.boxes p).type index with
    | none => exact ⟨h, iff_of_true hlawful fun _ pos type c k heq => by cases heq⟩
    | some r =>
      rcases r with ⟨pos, type⟩
      -- the box is that of a vector, and so not the outermost one
      have hpos : 0 < p := by
        rcases Nat.eq_zero_or_pos p with rfl | hpos
        · rw [elementOf_struct h.struct] at helement
          cases helement
        · exact hpos
      by_cases hvector : isVector type = true
      swap
      · simp only [if_neg hvector]
        refine ⟨h, iff_of_true hlawful fun _ pos' type' c k heq hv => ?_⟩
        rw [Option.some_inj, Prod.mk.injEq] at heq
        exact absurd (heq.2 ▸ hv) hvector
      simp only [if_pos hvector]
      cases hkept : (s.boxes p).sGetters index.toNat with
      | some r =>
        rcases r with ⟨c, k⟩
        have hbox := h.kept p hp index.toNat c k hkept
        refine ⟨h.hand hbox, ?_⟩
        rw [lawful_hand_iff hlawful hbox]
        constructor
        · intro hk _ pos' type' c' k' _ _ heq
          rw [Option.some_inj, Prod.mk.injEq] at heq
          exact heq.2 ▸ hk
        · exact fun hcareful => hcareful hp pos type c k rfl hvector rfl
      | none =>
        refine ⟨h.addKept fun hzero => absurd hzero hpos.ne', ?_⟩
        rw [lawful_addKept_iff h hlawful]
        rcases h.vectors p hpos hp (isVector_of_element helement) with ⟨x, hx, rfl⟩
        exact iff_of_true (hlawful x hx).2.2 fun _ pos' type' c k _ _ hsome => by cases hsome
  | getStructFieldBox p name =>
    simp only [nested, Careful, iff_true]
    by_cases hp : p < s.next
    swap
    · rw [if_neg hp]
      exact ⟨h, hlawful⟩
    rw [if_pos hp, getStructFieldBox]
    split
    · exact ⟨h, hlawful⟩
    · split
      · next hstruct =>
        exact ⟨h.addLoose (isVector_of_struct hstruct) fun _ => rfl, lawful_addLoose h hlawful⟩
      · exact ⟨h, hlawful⟩
  | getStructElementBox p index =>
    simp only [nested, Careful, iff_true]
    by_cases hp : p < s.next
    swap
    · rw [if_neg hp]
      exact ⟨h, hlawful⟩
    rw [if_pos hp, getStructElementBox]
    split
    · exact ⟨h, hlawful⟩
    · split
      · next hstruct =>
        exact ⟨h.addLoose (isVector_of_struct hstruct) fun _ => rfl, lawful_addLoose h hlawful⟩
      · exact ⟨h, hlawful⟩

theorem handed_start (fields : Fields) (varBuf : Nat) : Handed b (start fields varBuf) where
  outermost := Nat.one_pos
  struct := rfl
  offset := rfl
  inside := fun _ hx => absurd hx List.not_mem_nil
  kept := fun p _ i c k hi => by cases hi
  vectors := fun c _ _ hvector => by cases hvector
  fields := fun i c k hi => by cases hi

end Run

/-- The law of reboxing holds in exactly the runs whose steps are all careful. -/
theorem rebox_law_iff (b : Build) (hits : Bool) (fields : Fields) (varBuf : Nat)
    (es : List Event) :
    (nested b hits).AllStates Lawful (start fields varBuf) es ↔
      (nested b hits).AllSteps (Careful b hits) (start fields varBuf) es :=
  (nested b hits).allStates_iff_allSteps (I := fun s => Handed b s ∧ Lawful s)
    (fun _ h => h.2)
    (fun _ e h hcareful =>
      ⟨(step_lawful_iff h.1 h.2 e).1, (step_lawful_iff h.1 h.2 e).2.mpr hcareful⟩)
    (fun _ e h hnot hlawful => hnot ((step_lawful_iff h.1 h.2 e).2.mp hlawful))
    ⟨handed_start fields varBuf, fun _ hx => absurd hx List.not_mem_nil⟩ es

/-! ## A vector in a vector -/

/-- `struct { Int32 grid[2][2]; }` -/
def gridOnly : Fields :=
  .cons "grid" (.cppVector (.cppVector (.intrinsic .int32) 2) 2) .nil

/-- The setter of the vector, that of its second row, and the struct is reboxed. -/
def rowThenRebox : List Event :=
  [.acquireCppVectorFieldSGetter 0 "grid" true, .acquireCppVectorSGetter 1 1 true, .rebox 8192]

/-- The row is left behind in the old block, also where the call for the vector misses it. -/
theorem row_stays_behind :
    ¬ ∀ (b : Build) (hits : Bool) (fields : Fields) (varBuf : Nat) (es : List Event),
      (nested b hits).AllStates Lawful (start fields varBuf) es := by
  intro h
  have hlast : Lawful ((nested boundFour false).run (start gridOnly 4096) rowThenRebox) :=
    Machine.AllStates.last (h boundFour false gridOnly 4096 rowThenRebox)
  have hrow : (⟨2, true, true⟩ : Handle) ∈
      ((nested boundFour false).run (start gridOnly 4096) rowThenRebox).handles := by decide
  have hplace := (hlast _ hrow).2.2
  -- the row is 8 bytes into the struct, but not 8 bytes into the new block
  have hbase : (((nested boundFour false).run (start gridOnly 4096) rowThenRebox).boxes 2).base =
      4104 := by decide
  have hblock : (((nested boundFour false).run (start gridOnly 4096) rowThenRebox).boxes 0).base =
      8192 := by decide
  rw [InPlace, hbase, hblock] at hplace
  omega

end SuperExe.Reflection.Nested
