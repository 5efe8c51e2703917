import Mathlib.Data.List.Nodup
import Mathlib.Data.Finset.Card
import SuperExe.Core.CString
import SuperExe.Reflection.ObjInfoList

/-! # What an alias stands for

Three functions follow the aliases of a type: `_GetOriginalType` of the reflection,
`GetOriginalType` of the class modules, and `CClsModule::AliasToOriginal`, which computes
all aliases of a module once. `IsEqualType` compares two descriptors behind their aliases.
When they agree with each other, and with the sum of the pointer levels, is said by
`alias_resolution_iff`. A walk that does not end, or leaves the directory, has no result
(`none`). The type infos go along the same aliases by addresses: `Reads.content_org`.
-/

namespace SuperExe.Reflection.Aliases

open SuperExe.Core
open TypeInfo (CARDataType)

/-! ## The code -/

/-- A `TypeDescriptor` in memory. `pad` is what lies between `mNested` and `mNestedType`,
which is a pointer. -/
structure TypeDescriptor where
  mType : CARDataType
  mIndex : UInt16
  mPointer : UInt8
  mUnsigned : UInt8
  mSize : Int
  mNested : UInt8
  pad : Bytes
  mNestedType : Nat
deriving DecidableEq

/-- The types of the aliases, `mAliasDirs[i]->mType`. Their count is an
`unsigned short`. -/
structure CLSModule where
  mAliasDirs : List TypeDescriptor
  counted : mAliasDirs.length < 2 ^ 16

inductive ECode where
  | E_OUT_OF_MEMORY
  | E_INVALID_OPERATION
  | E_INVALID_ARGUMENT
deriving DecidableEq, Repr

section Code

variable (mod : CLSModule)

/-- The loop of `GetOriginalType`, with `turns` turns left. -/
def originalLoop : Nat → TypeDescriptor → TypeDescriptor → Option (TypeDescriptor × TypeDescriptor)
  | 0, _, _ => none
  | turns + 1, src, dest =>
    if src.mType = .typeAlias then
      match mod.mAliasDirs[src.mIndex.toNat]? with
      | none => none
      | some src =>
        originalLoop turns src
          { dest with
            mPointer := dest.mPointer + src.mPointer
            mUnsigned := dest.mUnsigned ||| src.mUnsigned }
    else some (src, dest)

/-- `GetOriginalType`; `dest` is what the memory held before. A walk of more turns than
there are aliases does not end. -/
def getOriginalType (src dest : TypeDescriptor) : Option TypeDescriptor := do
  let (src, dest) ← originalLoop mod (mod.mAliasDirs.length + 1) src
    { dest with mPointer := src.mPointer, mUnsigned := src.mUnsigned }
  some { dest with mType := src.mType, mIndex := src.mIndex, mNestedType := src.mNestedType }

/-- `_GetOriginalType` is the same for a module at another base. -/
def getOriginalTypeAt (src dest : TypeDescriptor) : Option TypeDescriptor :=
  getOriginalType mod src dest

/-- `IsEqualType`; `src` and `dest` are what its locals held before. `memcmp` compares the
whole memory. -/
def isEqualType (src dest descriptor1 descriptor2 : TypeDescriptor) : Option Bool := do
  let src ← getOriginalType mod descriptor1 src
  let dest ← getOriginalType mod descriptor2 dest
  some (src = dest)

/-- What the environment decides of `InitOrgType`: which allocations succeed, that of the
list and those of the descriptors, and what the memory of a descriptor held before. -/
structure Env where
  list : Bool
  alloc : Nat → Bool
  fresh : Nat → TypeDescriptor

/-- The loop of `InitOrgType` from the alias `i` on. -/
def initLoop (env : Env) : List TypeDescriptor → Nat → Option (Except ECode (List TypeDescriptor))
  | [], _ => some (.ok [])
  | d :: rest, i =>
    if env.alloc i = false then some (.error .E_OUT_OF_MEMORY)
    else do
      let org ← getOriginalTypeAt mod d (env.fresh i)
      match ← initLoop env rest (i + 1) with
      | .error ec => some (.error ec)
      | .ok orgs => some (.ok (org :: orgs))

/-- `CClsModule::InitOrgType` of a module with aliases. -/
def initOrgType (env : Env) : Option (Except ECode (List TypeDescriptor)) :=
  if env.list = false then some (.error .E_OUT_OF_MEMORY) else initLoop mod env mod.mAliasDirs 0

end Code

/-- A `CClsModule`: `mTypeAliasList` has been computed by `InitOrgType`, or not yet. -/
structure CClsModule where
  mClsMod : CLSModule
  mTypeAliasList : Option (List TypeDescriptor)
  computed : ∀ orgs, mTypeAliasList = some orgs → ∃ env, initOrgType mClsMod env = some (.ok orgs)

/-- `mTypeAliasList`, which `InitOrgType` computes at the first use. -/
def CClsModule.aliasList (m : CClsModule) (env : Env) :
    Option (Except ECode (List TypeDescriptor) × CClsModule) :=
  match m.mTypeAliasList with
  | some orgs => some (.ok orgs, m)
  | none =>
    match h : initOrgType m.mClsMod env with
    | none => none
    | some (.error ec) => some (.error ec, m)
    | some (.ok orgs) =>
      some (.ok orgs, ⟨m.mClsMod, some orgs, fun _ heq => ⟨env, Option.some.inj heq ▸ h⟩⟩)

/-- `CClsModule::AliasToOriginal` -/
def aliasToOriginal (m : CClsModule) (env : Env) (typeDype : TypeDescriptor) :
    Option (Except ECode TypeDescriptor × CClsModule) :=
  if m.mClsMod.mAliasDirs = [] then some (.error .E_INVALID_OPERATION, m)
  else if typeDype.mType ≠ .typeAlias then some (.error .E_INVALID_ARGUMENT, m)
  else do
    let (orgs, m) ← m.aliasList env
    match orgs with
    | .error ec => some (.error ec, m)
    | .ok orgs =>
      if m.mClsMod.mAliasDirs.length ≤ typeDype.mIndex.toNat then
        some (.error .E_INVALID_ARGUMENT, m)
      else (orgs[typeDype.mIndex.toNat]?).map fun org => (.ok org, m)

/-! ## What they are for -/

/-- The descriptors behind a descriptor, alias by alias. -/
inductive Chain (mod : CLSModule) : TypeDescriptor → List TypeDescriptor → Prop where
  | plain {d : TypeDescriptor} (h : d.mType ≠ .typeAlias) : Chain mod d []
  | step {d e : TypeDescriptor} {c : List TypeDescriptor} (h : d.mType = .typeAlias)
      (he : mod.mAliasDirs[d.mIndex.toNat]? = some e) (hc : Chain mod e c) : Chain mod d (e :: c)

/-- A descriptor whose chain of aliases ends. -/
structure Resolvable (mod : CLSModule) where
  desc : TypeDescriptor
  chain : List TypeDescriptor
  acyclic : Chain mod desc chain

/-- The sum of the pointer levels. -/
def levels (ds : List TypeDescriptor) : Nat := (ds.map fun d => d.mPointer.toNat).sum

/-- The `mUnsigned` flags together. -/
def flags (ds : List TypeDescriptor) : UInt8 := ds.foldr (fun d f => d.mUnsigned ||| f) 0

/-- The type behind a chain. -/
structure Form where
  mType : CARDataType
  mIndex : UInt16
  mNestedType : Nat
  mUnsigned : UInt8
  mPointer : Nat
deriving DecidableEq

namespace Resolvable

variable {mod : CLSModule} (d : Resolvable mod)

def original : TypeDescriptor := d.chain.getLastD d.desc

/-- The resolved form of a descriptor. -/
def form : Form where
  mType := d.original.mType
  mIndex := d.original.mIndex
  mNestedType := d.original.mNestedType
  mUnsigned := flags (d.desc :: d.chain)
  mPointer := levels (d.desc :: d.chain)

end Resolvable

/-- What a descriptor says of the type it stands for, if `mPointer` is right. -/
def TypeDescriptor.Shows (org : TypeDescriptor) (form : Form) (pointer : Nat) : Prop :=
  org.mType = form.mType ∧ org.mIndex = form.mIndex ∧ org.mNestedType = form.mNestedType ∧
    org.mUnsigned = form.mUnsigned ∧ org.mPointer.toNat = pointer

/-- The resolvers find the form of the descriptor; `AliasToOriginal`, which is asked about
aliases, without the levels of the descriptor itself. -/
def Resolves (m : CClsModule) (env : Env) (memory : TypeDescriptor) (d : Resolvable m.mClsMod) :
    Prop :=
  (∃ org, getOriginalType m.mClsMod d.desc memory = some org ∧
      org.Shows d.form d.form.mPointer) ∧
    (∃ org, getOriginalTypeAt m.mClsMod d.desc memory = some org ∧
      org.Shows d.form d.form.mPointer) ∧
    (d.desc.mType = .typeAlias → ∃ org m', aliasToOriginal m env d.desc = some (.ok org, m') ∧
      org.Shows d.form (levels d.chain))

/-- Two descriptors resolve, and `IsEqualType` compares their forms. -/
def Agrees (m : CClsModule) (env : Env) (src dest : TypeDescriptor) (d d' : Resolvable m.mClsMod) :
    Prop :=
  Resolves m env src d ∧ Resolves m env dest d' ∧
    isEqualType m.mClsMod src dest d.desc d'.desc = some (decide (d.form = d'.form))

/-- The list of originals is there or can be made. -/
def Listed (m : CClsModule) (env : Env) : Prop :=
  m.mTypeAliasList.isSome = true ∨
    env.list = true ∧ (∀ i < m.mClsMod.mAliasDirs.length, env.alloc i = true) ∧
      ∀ d ∈ m.mClsMod.mAliasDirs, ∃ c, Chain m.mClsMod d c

/-- The bytes that are never set are the same. -/
def SameRest (src dest : TypeDescriptor) : Prop :=
  src.mSize = dest.mSize ∧ src.mNested = dest.mNested ∧ src.pad = dest.pad

instance (src dest : TypeDescriptor) : Decidable (SameRest src dest) :=
  inferInstanceAs
    (Decidable (src.mSize = dest.mSize ∧ src.mNested = dest.mNested ∧ src.pad = dest.pad))

/-- The levels fit an `unsigned char`; and of an alias, its own flag adds nothing, and the
list is there. -/
def Plain (m : CClsModule) (env : Env) (d : Resolvable m.mClsMod) : Prop :=
  levels (d.desc :: d.chain) < 256 ∧
    (d.desc.mType = .typeAlias →
      d.desc.mUnsigned ||| flags d.chain = flags d.chain ∧ Listed m env)

/-! ## Chains -/

section Chains

variable {mod : CLSModule} {d e : TypeDescriptor} {c c' : List TypeDescriptor}

theorem Chain.unique (h : Chain mod d c) (h' : Chain mod d c') : c = c' := by
  induction h generalizing c' with
  | plain hplain =>
    cases h' with
    | plain => rfl
    | step halias => exact absurd halias hplain
  | step halias he hc ih =>
    cases h' with
    | plain hplain => exact absurd halias hplain
    | step _ he' hc' =>
      rw [he, Option.some_inj] at he'
      subst he'
      rw [ih hc']

/-- The aliases that a chain goes through. -/
def steps : TypeDescriptor → List TypeDescriptor → List Nat
  | _, [] => []
  | d, e :: c => d.mIndex.toNat :: steps e c

theorem length_steps (d : TypeDescriptor) (c : List TypeDescriptor) :
    (steps d c).length = c.length := by
  induction c generalizing d with
  | nil => rfl
  | cons e c ih => rw [steps, List.length_cons, List.length_cons, ih]

/-- From an alias of a chain the rest is shorter. -/
theorem Chain.rest (h : Chain mod d c) {i : Nat} (hi : i ∈ steps d c) :
    ∃ e c', mod.mAliasDirs[i]? = some e ∧ Chain mod e c' ∧ c'.length < c.length := by
  induction h with
  | plain => cases hi
  | @step d e c halias he hc ih =>
    rcases List.mem_cons.mp hi with rfl | hi
    · exact ⟨e, c, he, hc, Nat.lt_succ_self _⟩
    · rcases ih hi with ⟨e', c', he', hc', hlt⟩
      exact ⟨e', c', he', hc', Nat.lt_succ_of_lt hlt⟩

/-- A chain that ends goes through no alias twice. -/
theorem Chain.nodup (h : Chain mod d c) : (steps d c).Nodup := by
  induction h with
  | plain => exact List.nodup_nil
  | @step d e c halias he hc ih =>
    refine List.nodup_cons.mpr ⟨fun hmem => ?_, ih⟩
    rcases hc.rest hmem with ⟨e', c', he', hc', hlt⟩
    rw [he, Option.some_inj] at he'
    subst he'
    rw [hc.unique hc'] at hlt
    exact Nat.lt_irrefl _ hlt

theorem Chain.length_le (h : Chain mod d c) : c.length ≤ mod.mAliasDirs.length := by
  have hsub : (steps d c).toFinset ⊆ Finset.range mod.mAliasDirs.length := by
    intro i hi
    rcases h.rest (List.mem_toFinset.mp hi) with ⟨e, -, he, -⟩
    exact Finset.mem_range.mpr (List.getElem?_eq_some_iff.mp he).1
  have hcard := Finset.card_le_card hsub
  rw [List.toFinset_card_of_nodup h.nodup, length_steps, Finset.card_range] at hcard
  exact hcard

end Chains

/-! ## The walk -/

section Walk

variable {mod : CLSModule} {d e dest : TypeDescriptor} {c : List TypeDescriptor}

/-- The sum of the levels in an `unsigned char`. -/
theorem levels_cons (d : TypeDescriptor) (c : List TypeDescriptor) :
    UInt8.ofNat (levels (d :: c)) = d.mPointer + UInt8.ofNat (levels c) := by
  rw [levels, List.map_cons, List.sum_cons, UInt8.ofNat_add, UInt8.ofNat_toNat]
  rfl

theorem flags_cons (d : TypeDescriptor) (c : List TypeDescriptor) :
    flags (d :: c) = d.mUnsigned ||| flags c := rfl

/-- The loop goes along the chain. -/
theorem originalLoop_chain (h : Chain mod d c) {turns : Nat} (hturns : c.length < turns)
    (dest : TypeDescriptor) :
    originalLoop mod turns d dest = some (c.getLastD d,
      { dest with
        mPointer := dest.mPointer + UInt8.ofNat (levels c)
        mUnsigned := dest.mUnsigned ||| flags c }) := by
  induction h generalizing turns dest with
  | plain hplain =>
    cases turns with
    | zero => cases hturns
    | succ turns =>
      rw [originalLoop, if_neg hplain]
      have hzero : dest.mPointer + UInt8.ofNat (levels []) = dest.mPointer := UInt8.add_zero _
      have hflag : dest.mUnsigned ||| flags [] = dest.mUnsigned := UInt8.or_zero
      rw [hzero, hflag]
      rfl
  | step halias he hc ih =>
    cases turns with
    | zero => cases hturns
    | succ turns =>
      rw [originalLoop, if_pos halias, he]
      dsimp only
      rw [ih (Nat.lt_of_succ_lt_succ hturns), levels_cons, flags_cons, UInt8.add_assoc,
        UInt8.or_assoc, List.getLastD_cons]

/-- A loop that ends has gone along a chain. -/
theorem chain_of_originalLoop {turns : Nat} {r : TypeDescriptor × TypeDescriptor}
    (h : originalLoop mod turns d dest = some r) : ∃ c, Chain mod d c := by
  induction turns generalizing d dest with
  | zero => cases h
  | succ turns ih =>
    rw [originalLoop] at h
    split at h
    · next halias =>
      split at h
      · cases h
      · next e he =>
        rcases ih h with ⟨c, hc⟩
        exact ⟨e :: c, .step halias he hc⟩
    · next hplain => exact ⟨[], .plain hplain⟩

/-- What `GetOriginalType` sets, and what it leaves. -/
theorem getOriginalType_chain (h : Chain mod d c) (dest : TypeDescriptor) :
    getOriginalType mod d dest = some
      { dest with
        mType := (c.getLastD d).mType
        mIndex := (c.getLastD d).mIndex
        mPointer := UInt8.ofNat (levels (d :: c))
        mUnsigned := flags (d :: c)
        mNestedType := (c.getLastD d).mNestedType } := by
  rw [getOriginalType, originalLoop_chain h (Nat.lt_succ_of_le h.length_le), levels_cons,
    flags_cons]
  rfl

theorem chain_of_getOriginalType {org : TypeDescriptor}
    (h : getOriginalType mod d dest = some org) : ∃ c, Chain mod d c := by
  rw [getOriginalType] at h
  rcases Option.bind_eq_some_iff.mp h with ⟨r, hr, -⟩
  exact chain_of_originalLoop hr

theorem shows_iff {org : TypeDescriptor} {form : Form} {n pointer : Nat}
    (htype : org.mType = form.mType) (hindex : org.mIndex = form.mIndex)
    (hnested : org.mNestedType = form.mNestedType) (hn : org.mPointer = UInt8.ofNat n)
    (hpointer : n = pointer) :
    org.Shows form pointer ↔ org.mUnsigned = form.mUnsigned ∧ n < 256 := by
  have hlevel : org.mPointer.toNat = pointer ↔ n < 256 := by
    rw [hn, UInt8.toNat_ofNat', ← hpointer]
    omega
  rw [TypeDescriptor.Shows, hlevel]
  exact ⟨fun h => h.2.2.2, fun h => ⟨htype, hindex, hnested, h⟩⟩

end Walk

/-! ## The walk by addresses -/

/-- A module as `AcquireDataTypeInfo` reads it, with the descriptor at every address. -/
structure Reads (mod : CLSModule) (addressed : TypeInfo.ClsModule) (at_ : Nat → TypeDescriptor) :
    Prop where
  type : ∀ a, (addressed.desc a).type = (at_ a).mType
  index : ∀ a, (addressed.desc a).index = (at_ a).mIndex.toNat
  pointer : ∀ a, (addressed.desc a).pointer = (at_ a).mPointer
  aliases : mod.mAliasDirs = addressed.aliases.map at_

section ByAddress

variable {mod : CLSModule} {addressed : TypeInfo.ClsModule} {at_ : Nat → TypeDescriptor}
  (h : Reads mod addressed at_)
include h

theorem Reads.alias? (a : Nat) : mod.mAliasDirs[(at_ a).mIndex.toNat]? =
    (addressed.aliases[(addressed.desc a).index]?).map at_ := by
  rw [h.aliases, List.getElem?_map, h.index]

theorem Reads.chain_of {turns a : Nat} {addrs : List Nat}
    (hchain : TypeInfo.chain addressed turns a = some addrs) :
    ∃ rest, addrs = a :: rest ∧ Chain mod (at_ a) (rest.map at_) := by
  induction turns generalizing a addrs with
  | zero => cases hchain
  | succ turns ih =>
    rw [TypeInfo.chain, h.type] at hchain
    by_cases halias : (at_ a).mType = .typeAlias
    · rw [if_pos halias] at hchain
      have hnext := h.alias? a
      cases hb : addressed.aliases[(addressed.desc a).index]? with
      | none =>
        rw [hb] at hchain
        cases hchain
      | some b =>
        rw [hb] at hchain hnext
        rcases Option.map_eq_some_iff.mp hchain with ⟨addrs', hrec, rfl⟩
        rcases ih hrec with ⟨rest, rfl, hrest⟩
        exact ⟨b :: rest, rfl, .step halias hnext hrest⟩
    · rw [if_neg halias, Option.some_inj] at hchain
      exact ⟨[], hchain.symm, .plain halias⟩

theorem Reads.chain_some {c : List TypeDescriptor} {a : Nat} (hc : Chain mod (at_ a) c) {turns : Nat}
    (hturns : c.length < turns) :
    ∃ rest, TypeInfo.chain addressed turns a = some (a :: rest) ∧ c = rest.map at_ := by
  generalize hd : at_ a = d at hc
  induction hc generalizing a turns with
  | plain hplain =>
    cases turns with
    | zero => cases hturns
    | succ turns =>
      refine ⟨[], ?_, rfl⟩
      rw [TypeInfo.chain, h.type, hd, if_neg hplain]
  | step halias he hc ih =>
    cases turns with
    | zero => cases hturns
    | succ turns =>
      have hnext := h.alias? a
      rw [hd, he] at hnext
      rcases Option.map_eq_some_iff.mp hnext.symm with ⟨b, hb, rfl⟩
      rcases ih (Nat.lt_of_succ_lt_succ hturns) rfl with ⟨rest, hrest, rfl⟩
      refine ⟨b :: rest, ?_, rfl⟩
      rw [TypeInfo.chain, h.type, hd, if_pos halias, hb]
      dsimp only
      rw [hrest, Option.map_some]

theorem Reads.byteLevels (addrs : List Nat) :
    TypeInfo.byteLevels (addrs.map fun a => (addressed.desc a).pointer) =
      (UInt8.ofNat (levels (addrs.map at_))).toNat := by
  rw [TypeInfo.byteLevels]
  congr 2
  induction addrs with
  | nil => rfl
  | cons a rest ih => rw [List.map_cons, List.foldr_cons, List.map_cons, levels_cons, ih, h.pointer]

/-- The entry of an alias in the list that `InitOrgType` makes shows what `AcquireDataTypeInfo`
reads there. -/
theorem Reads.content_org (memory : TypeDescriptor) (i : Nat) :
    (TypeInfo.content TypeInfo.byteLevels addressed (.org i)).map
        (fun d => (d.type, d.index, d.pointer)) =
      (mod.mAliasDirs[i]?).bind fun d => (getOriginalType mod d memory).map fun org =>
        (org.mType, org.mIndex.toNat, (org.mPointer.toNat : Int)) := by
  have hlength : mod.mAliasDirs.length = addressed.aliases.length := by
    rw [h.aliases, List.length_map]
  rw [h.aliases, List.getElem?_map]
  simp only [TypeInfo.content]
  cases addressed.aliases[i]? with
  | none => rfl
  | some a =>
    simp only [Option.bind_eq_bind, Option.bind_some, Option.map_some]
    by_cases hends : ∃ c, Chain mod (at_ a) c
    · rcases hends with ⟨c, hc⟩
      have hle := hc.length_le
      have hturns : c.length < addressed.aliases.length + 1 := by omega
      rcases h.chain_some hc hturns with ⟨rest, hchain, rfl⟩
      have hlast : at_ ((a :: rest).getLastD a) = (rest.map at_).getLastD (at_ a) := by
        rw [List.getLastD_cons, List.getLastD_eq_getLast?, List.getLastD_eq_getLast?,
          List.getLast?_map, Option.getD_map]
      rw [hchain, getOriginalType_chain hc, Option.bind_some, Option.map_some, Option.map_some,
        h.byteLevels, h.type, h.index, hlast]
      rfl
    · -- a walk that does not end
      cases hchain : TypeInfo.chain addressed (addressed.aliases.length + 1) a with
      | some addrs =>
        rcases h.chain_of hchain with ⟨rest, -, hc⟩
        exact absurd ⟨_, hc⟩ hends
      | none =>
        cases horg : getOriginalType mod (at_ a) memory with
        | some org => exact absurd (chain_of_getOriginalType horg) hends
        | none => rfl

end ByAddress

/-! ## The list of a module -/

section AliasList

variable {mod : CLSModule} {env : Env}

/-- Each alias is resolved, into the memory that is there. -/
theorem initLoop_ok {ds orgs : List TypeDescriptor} {i : Nat}
    (h : initLoop mod env ds i = some (.ok orgs)) (j : Nat) {d : TypeDescriptor}
    (hd : ds[j]? = some d) : env.alloc (i + j) = true ∧
      ∃ org, orgs[j]? = some org ∧ getOriginalTypeAt mod d (env.fresh (i + j)) = some org := by
  induction ds generalizing orgs i j with
  | nil => cases hd
  | cons x ds ih =>
    rw [initLoop] at h
    split at h
    · cases h
    next halloc =>
      rcases Option.bind_eq_some_iff.mp h with ⟨org, horg, h⟩
      rcases Option.bind_eq_some_iff.mp h with ⟨r, hr, h⟩
      cases r with
      | error ec => cases h
      | ok rest =>
        cases h
        cases j with
        | zero =>
          cases hd
          exact ⟨Bool.eq_true_of_not_eq_false halloc, org, rfl, horg⟩
        | succ j =>
          have hrest := ih hr j hd
          rw [Nat.add_right_comm] at hrest
          exact hrest

theorem initLoop_exists {ds : List TypeDescriptor} {i : Nat}
    (halloc : ∀ j < ds.length, env.alloc (i + j) = true)
    (hds : ∀ d ∈ ds, ∃ c, Chain mod d c) : ∃ orgs, initLoop mod env ds i = some (.ok orgs) := by
  induction ds generalizing i with
  | nil => exact ⟨[], rfl⟩
  | cons d ds ih =>
    rcases hds d List.mem_cons_self with ⟨c, hc⟩
    have hfirst : env.alloc i = true := halloc 0 (Nat.succ_pos _)
    have hnext : ∀ j < ds.length, env.alloc (i + 1 + j) = true := by
      intro j hj
      rw [Nat.add_right_comm]
      exact halloc (j + 1) (Nat.succ_lt_succ hj)
    rcases ih hnext (fun e he => hds e (List.mem_cons_of_mem d he)) with ⟨orgs, horgs⟩
    rw [initLoop, if_neg (by rw [hfirst]; decide), getOriginalTypeAt, getOriginalType_chain hc,
      Option.bind_eq_bind, Option.bind_some, horgs]
    exact ⟨_, rfl⟩

/-- An entry of the list, for an alias with a chain. -/
theorem initOrgType_entry {orgs : List TypeDescriptor} (h : initOrgType mod env = some (.ok orgs))
    {j : Nat} {e : TypeDescriptor} (he : mod.mAliasDirs[j]? = some e) :
    ∃ org dest, orgs[j]? = some org ∧ getOriginalType mod e dest = some org := by
  rw [initOrgType] at h
  split at h
  · cases h
  · rcases (initLoop_ok h j he).2 with ⟨org, horg, hget⟩
    exact ⟨org, _, horg, hget⟩

/-- The list is there exactly when it was there, or can be made. -/
theorem aliasList_iff (m : CClsModule) (env : Env) :
    (∃ orgs m', m.aliasList env = some (.ok orgs, m')) ↔ Listed m env := by
  rw [CClsModule.aliasList]
  constructor
  · rintro ⟨orgs, m', h⟩
    split at h
    · next hlist => exact Or.inl (by rw [hlist]; rfl)
    split at h
    · cases h
    · cases h
    · next hinit =>
      rw [initOrgType] at hinit
      split at hinit
      · cases hinit
      next hfirst =>
        refine Or.inr ⟨Bool.eq_true_of_not_eq_false hfirst, fun i hi => ?_, fun d hd => ?_⟩
        · have halloc := (initLoop_ok hinit i (List.getElem?_eq_getElem hi)).1
          rw [Nat.zero_add] at halloc
          exact halloc
        · rcases List.getElem?_of_mem hd with ⟨j, hj⟩
          rcases (initLoop_ok hinit j hj).2 with ⟨org, -, horg⟩
          exact chain_of_getOriginalType horg
  · rintro (hsome | ⟨hfirst, halloc, hchains⟩)
    · rcases Option.isSome_iff_exists.mp hsome with ⟨orgs, horgs⟩
      split
      · exact ⟨_, _, rfl⟩
      · next hnone =>
        rw [hnone] at hsome
        cases hsome
    · split
      · exact ⟨_, _, rfl⟩
      · rcases @initLoop_exists m.mClsMod env _ 0
          (fun j hj => by rw [Nat.zero_add]; exact halloc j hj) hchains with ⟨orgs, horgs⟩
        have hinit : initOrgType m.mClsMod env = some (.ok orgs) := by
          rw [initOrgType, if_neg (by rw [hfirst]; decide), horgs]
        split
        · next h => rw [hinit] at h; cases h
        · next h => rw [hinit] at h; cases h
        · exact ⟨_, _, rfl⟩

theorem aliasList_mClsMod {m m' : CClsModule} {orgs : List TypeDescriptor}
    (h : m.aliasList env = some (.ok orgs, m')) : m'.mClsMod = m.mClsMod := by
  rw [CClsModule.aliasList] at h
  split at h
  · cases h
    rfl
  split at h
  · cases h
  · cases h
  · cases h
    rfl

theorem aliasList_entry {m m' : CClsModule} {orgs : List TypeDescriptor}
    (h : m.aliasList env = some (.ok orgs, m')) {j : Nat} {e : TypeDescriptor}
    (he : m.mClsMod.mAliasDirs[j]? = some e) :
    ∃ org dest, orgs[j]? = some org ∧ getOriginalType m.mClsMod e dest = some org := by
  rw [CClsModule.aliasList] at h
  split at h
  · next hlist =>
    cases h
    rcases m.computed orgs hlist with ⟨env', hinit⟩
    exact initOrgType_entry hinit he
  split at h
  · cases h
  · cases h
  · next hinit =>
    cases h
    exact initOrgType_entry hinit he

/-- `AliasToOriginal` of an alias gives what the next descriptor stands for, if the list is
there. -/
theorem aliasToOriginal_alias {m : CClsModule} {d e : TypeDescriptor}
    (halias : d.mType = .typeAlias) (he : m.mClsMod.mAliasDirs[d.mIndex.toNat]? = some e) :
    (Listed m env → ∃ org m' dest, aliasToOriginal m env d = some (.ok org, m') ∧
        getOriginalType m.mClsMod e dest = some org) ∧
      ∀ org m', aliasToOriginal m env d = some (.ok org, m') →
        Listed m env ∧ ∃ dest, getOriginalType m.mClsMod e dest = some org := by
  have hlt := (List.getElem?_eq_some_iff.mp he).1
  have hne : m.mClsMod.mAliasDirs ≠ [] := List.ne_nil_of_length_pos (Nat.zero_lt_of_lt hlt)
  rw [aliasToOriginal, if_neg hne, if_neg (not_not.mpr halias)]
  constructor
  · intro hlisted
    rcases (aliasList_iff m env).mpr hlisted with ⟨orgs, m', hlist⟩
    rcases aliasList_entry hlist he with ⟨org, dest, horg, hget⟩
    refine ⟨org, m', dest, ?_, hget⟩
    have hm : m'.mClsMod = m.mClsMod := aliasList_mClsMod hlist
    rw [hlist, Option.bind_eq_bind, Option.bind_some]
    dsimp only
    rw [if_neg (by rw [hm]; exact Nat.not_le.mpr hlt), horg]
    rfl
  · intro org m' h
    rcases Option.bind_eq_some_iff.mp h with ⟨⟨r, m''⟩, hlist, h⟩
    cases r with
    | error ec => cases h
    | ok orgs =>
      dsimp only at h
      split at h
      · cases h
      · rcases Option.map_eq_some_iff.mp h with ⟨org', horg', heq⟩
        cases heq
        rcases aliasList_entry hlist he with ⟨org'', dest, horg, hget⟩
        rw [horg'] at horg
        cases horg
        exact ⟨(aliasList_iff m env).mp ⟨orgs, _, hlist⟩, dest, hget⟩

end AliasList

/-! ## Agreement -/

section Agreement

variable {m : CClsModule} {env : Env}

/-- `GetOriginalType` is right when the levels fit. -/
theorem getOriginalType_iff (d : Resolvable m.mClsMod) (memory : TypeDescriptor) :
    (∃ org, getOriginalType m.mClsMod d.desc memory = some org ∧
      org.Shows d.form d.form.mPointer) ↔ levels (d.desc :: d.chain) < 256 := by
  rw [getOriginalType_chain d.acyclic]
  simp only [Option.some_inj, exists_eq_left']
  rw [shows_iff rfl rfl rfl rfl rfl]
  exact ⟨fun h => h.2, fun h => ⟨rfl, h⟩⟩

theorem aliasToOriginal_iff (d : Resolvable m.mClsMod) (halias : d.desc.mType = .typeAlias) :
    (∃ org m', aliasToOriginal m env d.desc = some (.ok org, m') ∧
      org.Shows d.form (levels d.chain)) ↔
    levels d.chain < 256 ∧ d.desc.mUnsigned ||| flags d.chain = flags d.chain ∧ Listed m env := by
  rcases d with ⟨desc, chain, hchain⟩
  cases hchain with
  | plain hplain => exact absurd halias hplain
  | @step _ e c _ he hc =>
    rcases @aliasToOriginal_alias env _ _ _ halias he with ⟨hlisted, hgiven⟩
    have hshows : ∀ {org dest : TypeDescriptor}, getOriginalType m.mClsMod e dest = some org →
        (org.Shows (Resolvable.form ⟨desc, e :: c, .step halias he hc⟩) (levels (e :: c)) ↔
          levels (e :: c) < 256 ∧ desc.mUnsigned ||| flags (e :: c) = flags (e :: c)) := by
      intro org dest h
      rw [getOriginalType_chain hc] at h
      cases h
      have hlast : c.getLastD e = (e :: c).getLastD desc := (List.getLastD_cons).symm
      rw [shows_iff (congrArg (·.mType) hlast) (congrArg (·.mIndex) hlast)
        (congrArg (·.mNestedType) hlast) rfl rfl]
      show flags (e :: c) = desc.mUnsigned ||| flags (e :: c) ∧ _ ↔ _
      rw [and_comm, eq_comm]
    constructor
    · rintro ⟨org, m', hrun, hright⟩
      rcases hgiven org m' hrun with ⟨hlist, dest, hget⟩
      rcases (hshows hget).mp hright with ⟨hlevels, hflags⟩
      exact ⟨hlevels, hflags, hlist⟩
    · rintro ⟨hlevels, hflags, hlist⟩
      rcases hlisted hlist with ⟨org, m', dest, hrun, hget⟩
      exact ⟨org, m', hrun, (hshows hget).mpr ⟨hlevels, hflags⟩⟩

theorem resolves_iff (d : Resolvable m.mClsMod) (memory : TypeDescriptor) :
    Resolves m env memory d ↔ Plain m env d := by
  have htail : levels (d.desc :: d.chain) < 256 → levels d.chain < 256 := by
    rw [levels, List.map_cons, List.sum_cons]
    exact fun h => Nat.lt_of_le_of_lt (Nat.le_add_left _ _) h
  rw [Resolves, getOriginalTypeAt, getOriginalType_iff, Plain]
  constructor
  · rintro ⟨hlevels, -, halias⟩
    refine ⟨hlevels, fun h => ?_⟩
    exact ((aliasToOriginal_iff d h).mp (halias h)).2
  · rintro ⟨hlevels, halias⟩
    refine ⟨hlevels, hlevels, fun h => ?_⟩
    exact (aliasToOriginal_iff d h).mpr ⟨htail hlevels, halias h⟩

/-- `IsEqualType` compares what `GetOriginalType` sets, and what it does not. -/
theorem isEqualType_eq {mod : CLSModule} (src dest : TypeDescriptor) (d d' : Resolvable mod) :
    isEqualType mod src dest d.desc d'.desc = some (decide
      (d.original.mType = d'.original.mType ∧ d.original.mIndex = d'.original.mIndex ∧
        d.original.mNestedType = d'.original.mNestedType ∧
        flags (d.desc :: d.chain) = flags (d'.desc :: d'.chain) ∧
        UInt8.ofNat (levels (d.desc :: d.chain)) = UInt8.ofNat (levels (d'.desc :: d'.chain)) ∧
        SameRest src dest)) := by
  rw [isEqualType, getOriginalType_chain d.acyclic, getOriginalType_chain d'.acyclic,
    Option.bind_eq_bind, Option.bind_some, Option.bind_some, Option.some_inj,
    decide_eq_decide, TypeDescriptor.mk.injEq]
  constructor
  · rintro ⟨htype, hindex, hlevels, hflags, hsize, hmember, hpad, hnested⟩
    exact ⟨htype, hindex, hnested, hflags, hlevels, hsize, hmember, hpad⟩
  · rintro ⟨htype, hindex, hnested, hflags, hlevels, hsize, hmember, hpad⟩
    exact ⟨htype, hindex, hlevels, hflags, hsize, hmember, hpad, hnested⟩

theorem ofNat_inj_of_lt {a b : Nat} (ha : a < 256) (hb : b < 256) :
    UInt8.ofNat a = UInt8.ofNat b ↔ a = b := by
  rw [← UInt8.toNat_inj, UInt8.toNat_ofNat', UInt8.toNat_ofNat']
  omega

theorem form_eq_iff {mod : CLSModule} (d d' : Resolvable mod) : d.form = d'.form ↔
    d.original.mType = d'.original.mType ∧ d.original.mIndex = d'.original.mIndex ∧
      d.original.mNestedType = d'.original.mNestedType ∧
      flags (d.desc :: d.chain) = flags (d'.desc :: d'.chain) ∧
      levels (d.desc :: d.chain) = levels (d'.desc :: d'.chain) := by
  rw [Resolvable.form, Resolvable.form, Form.mk.injEq]

/-- `IsEqualType` is right when the bytes that are not set do not matter, or are equal. -/
theorem isEqualType_iff {mod : CLSModule} (src dest : TypeDescriptor) (d d' : Resolvable mod)
    (h : levels (d.desc :: d.chain) < 256) (h' : levels (d'.desc :: d'.chain) < 256) :
    isEqualType mod src dest d.desc d'.desc = some (decide (d.form = d'.form)) ↔
      (d.form = d'.form → SameRest src dest) := by
  rw [isEqualType_eq, Option.some_inj, decide_eq_decide, form_eq_iff, ofNat_inj_of_lt h h']
  constructor
  · intro hiff hform
    exact (hiff.mpr hform).2.2.2.2.2
  · intro hrest
    constructor
    · rintro ⟨htype, hindex, hnested, hflags, hlevels, -⟩
      exact ⟨htype, hindex, hnested, hflags, hlevels⟩
    · intro hform
      rcases hform with ⟨htype, hindex, hnested, hflags, hlevels⟩
      exact ⟨htype, hindex, hnested, hflags, hlevels,
        hrest ⟨htype, hindex, hnested, hflags, hlevels⟩⟩

/-- A descriptor of no alias. -/
def plainType (mod : CLSModule) : Resolvable mod where
  desc := ⟨.int32, 0, 0, 0, 0, 0, [], 0⟩
  chain := []
  acyclic := .plain (by decide)

theorem equivalence_iff (mod : CLSModule) (src dest : TypeDescriptor) :
    Equivalence (fun d d' : Resolvable mod =>
        isEqualType mod src dest d.desc d'.desc = some true) ↔ SameRest src dest := by
  have hiff : ∀ d d' : Resolvable mod, isEqualType mod src dest d.desc d'.desc = some true ↔ _ :=
    fun d d' => by
      rw [isEqualType_eq, Option.some_inj, decide_eq_true_eq]
  simp only [hiff]
  constructor
  · intro h
    exact (h.refl (plainType mod)).2.2.2.2.2
  · intro hrest
    refine ⟨fun d => ⟨rfl, rfl, rfl, rfl, rfl, hrest⟩, ?_, ?_⟩
    · rintro d d' ⟨htype, hindex, hnested, hflags, hlevels, -⟩
      exact ⟨htype.symm, hindex.symm, hnested.symm, hflags.symm, hlevels.symm, hrest⟩
    · rintro d d' d'' ⟨htype, hindex, hnested, hflags, hlevels, -⟩
        ⟨htype', hindex', hnested', hflags', hlevels', -⟩
      exact ⟨htype.trans htype', hindex.trans hindex', hnested.trans hnested',
        hflags.trans hflags', hlevels.trans hlevels', hrest⟩

end Agreement

/-- The three resolvers and `IsEqualType` agree about two descriptors exactly if the levels
of both fit an `unsigned char`, the flags of aliases add nothing to what they stand for, the
list of the module is there or can be made, and, if the forms are equal, so are the bytes
that `IsEqualType` compares without having set them; and if these are equal, and only
then, it is an equivalence. -/
theorem alias_resolution_iff (m : CClsModule) (env : Env) (src dest : TypeDescriptor) :
    (∀ d d' : Resolvable m.mClsMod, Agrees m env src dest d d' ↔
      Plain m env d ∧ Plain m env d' ∧ (d.form = d'.form → SameRest src dest)) ∧
    (Equivalence (fun d d' : Resolvable m.mClsMod =>
      isEqualType m.mClsMod src dest d.desc d'.desc = some true) ↔ SameRest src dest) := by
  refine ⟨fun d d' => ?_, equivalence_iff m.mClsMod src dest⟩
  rw [Agrees, resolves_iff, resolves_iff]
  constructor
  · rintro ⟨hd, hd', hequal⟩
    exact ⟨hd, hd', (isEqualType_iff src dest d d' hd.1 hd'.1).mp hequal⟩
  · rintro ⟨hd, hd', hrest⟩
    exact ⟨hd, hd', (isEqualType_iff src dest d d' hd.1 hd'.1).mpr hrest⟩

/-- `Int32` is not the same type as itself, if one of the locals was not zero. -/
theorem locals_compared :
    ¬ ∀ (m : CClsModule) (env : Env) (src dest : TypeDescriptor) (d d' : Resolvable m.mClsMod),
      Agrees m env src dest d d' := by
  intro h
  let m : CClsModule := ⟨⟨[], by decide⟩, none, fun _ h => by cases h⟩
  let zero : TypeDescriptor := ⟨.int32, 0, 0, 0, 0, 0, [], 0⟩
  have hequal := (h m ⟨true, fun _ => true, fun _ => zero⟩ zero { zero with mSize := 1 }
    (plainType m.mClsMod) (plainType m.mClsMod)).2.2
  have hfalse : isEqualType m.mClsMod zero { zero with mSize := 1 } (plainType m.mClsMod).desc
      (plainType m.mClsMod).desc = some false := by decide
  rw [hfalse, decide_eq_true rfl] at hequal
  cases hequal

end SuperExe.Reflection.Aliases
