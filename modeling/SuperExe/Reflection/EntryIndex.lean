import Mathlib.Data.UInt
import SuperExe.Reflection.EntryList
import SuperExe.Reflection.StructInfo

/-! # Entries by their index

`AcquireObjByIndex` takes the position of an entry, or of a method its number
(`MK_METHOD_INDEX`). Only the lower half of the index is compared with the count
(`entry_access_iff`).
-/

namespace SuperExe.Reflection.Entries

open SuperExe.Core SuperExe.Lib
open StructInfo (toNat_ofNat_of_lt)

/-! ## What is asked for -/

namespace Args

variable (L : Args)

def entries : List Entry := L.entries?.getD []

/-- The info object of an entry. -/
def objectAt (k : Nat) : Option Obj := do
  let r ← L.entries[k]?
  match ← request L k r.element with
  | .ok o => some o
  | .error _ => none

/-- The index stands for the entry: it is the number of the method, or the position. -/
def Names (index : UInt32) (k : Nat) : Prop :=
  if L.isMethodList = true ∧ index &&& 0xFFFF0000 ≠ 0 then
    ∃ r, L.entries[k]? = some r ∧ r.element.mIndex = index
  else k = index.toNat

/-- The lists of which an entry is found by its position alone. -/
def isDirList : Bool :=
  match L.mType with
  | .Aspect | .Aggregatee | .Class | .Interface | .Struct | .Enum | .Constant => true
  | _ => false

end Args

structure Call where
  env : Env
  index : UInt32

/-- Nothing is refused to the call. -/
def Fine (L : Args) (env : Env) : Prop :=
  env.alloc = true ∧ sizeofObjElement * L.mTotalCount.toNat < 2 ^ 32 ∧
    (∀ k < L.mTotalCount.toNat, env.put k = true) ∧ env.acquired = .NOERROR

/-- Calls on one list. -/
def byIndex (L : Args) : Machine State Call where
  step s c := ((acquireObjByIndex L c.env s c.index).map Prod.snd).getD s

/-- The call fails, or gives the object of the entry that the index stands for; and the
number of a method gives that method. -/
def Answers (L : Args) (s : State) (c : Call) : Prop :=
  (∃ r s', acquireObjByIndex L c.env s c.index = some (r, s') ∧
      ∀ o, r = .ok o → ∃ k, L.Names c.index k ∧ L.objectAt k = some o) ∧
    (L.isMethodList = true → Fine L c.env → ∀ (k : Nat) (r : Entry), L.entries[k]? = some r →
      r.element.mIndex = c.index →
        ∃ o s', acquireObjByIndex L c.env s c.index = some (.ok o, s') ∧ L.objectAt k = some o)

/-! ## When it is what is given -/

/-- The elements, those that are there or those that are about to be stored. -/
def elements (L : Args) (s : State) : List ObjElement :=
  s.mObjElement.getD (L.entries.map (·.element))

/-- The elements are there, or are stored now. -/
def Opens (L : Args) (s : State) (env : Env) : Prop :=
  s.mObjElement.isSome = true ∨
    env.alloc = true ∧ sizeofObjElement * L.mTotalCount.toNat < 2 ^ 32 ∧ L.isListed = true ∧
      ∀ k < L.mTotalCount.toNat, env.put k = true

/-- The index goes past the first check, and there are elements. -/
def Reached (L : Args) (s : State) (c : Call) : Prop :=
  c.index &&& 0xFFFF < L.mTotalCount ∧ Opens L s c.env

/-- What an index that goes past the first check has to be: of a list of methods, not the
count itself (unless that is the number of a method); of callback methods, no position
and no number; else below the count, and where the element says which directory entry is
meant, the element is the entry's own. -/
def InRange (L : Args) (s : State) (c : Call) : Prop :=
  match L.mType with
  | .Method | .Constructor => c.index &&& 0xFFFF0000 ≠ 0 → c.index = L.mTotalCount →
      ∃ e ∈ elements L s, e.mIndex = c.index
  | .CBMethod => c.index &&& 0xFFFF0000 ≠ 0 ∧ c.index ≠ L.mTotalCount ∧
      ∀ e ∈ elements L s, e.mIndex ≠ c.index
  | .ClassInterface | .TypeAliase =>
      ∃ (e : ObjElement) (r : Entry), (elements L s)[c.index.toNat]? = some e ∧
        L.entries[c.index.toNat]? = some r ∧
        (c.env.acquired = .NOERROR → e.mIndex = r.element.mIndex)
  | .Aspect | .Aggregatee | .Class | .Interface | .Struct | .Enum | .Constant =>
      c.index < L.mTotalCount
  | _ => True

/-- The element that an index of a list of methods leads to. -/
def led (L : Args) (s : State) (index : UInt32) : Option ObjElement :=
  if index &&& 0xFFFF0000 ≠ 0 then (elements L s).find? fun e => e.mIndex = index
  else (elements L s)[index.toNat]?

/-- The index is in range; and if it is the number of a method, its lower half is below
the count, and the element it leads to is the method's own. -/
def Careful (L : Args) (s : State) (c : Call) : Prop :=
  (Reached L s c → InRange L s c) ∧
    (L.isMethodList = true → Fine L c.env → ∀ (k : Nat) (r : Entry), L.entries[k]? = some r →
      r.element.mIndex = c.index →
        L.mType ≠ .CBMethod ∧ c.index &&& 0xFFFF < L.mTotalCount ∧
          ∃ e, led L s c.index = some e ∧ e.mIndex = c.index ∧ e.mDesc = r.element.mDesc)

/-! ## Entries -/

/-- An index without an upper half is its lower half. -/
theorem low_of_high {index : UInt32} (h : index &&& 0xFFFF0000 = 0) :
    index &&& 0xFFFF = index := by
  rw [← UInt32.toNat_inj, UInt32.toNat_and] at h ⊢
  have hall : index.toNat &&& (0xFFFF ||| 0xFFFF0000) = index.toNat := by
    show index.toNat &&& (2 ^ 32 - 1) = index.toNat
    rw [Nat.and_two_pow_sub_one_eq_mod, Nat.mod_eq_of_lt index.toNat_lt]
  rw [Nat.and_or_distrib_left] at hall
  have hzero : index.toNat &&& 0xFFFF0000 = 0 := h
  rw [hzero, Nat.or_zero] at hall
  exact hall

theorem mapM_isSome {α β : Type} {f : α → Option β} {l : List α}
    (h : ∀ x ∈ l, (f x).isSome = true) : ∃ r, l.mapM f = some r ∧ r.map some = l.map f := by
  induction l with
  | nil => exact ⟨[], rfl, rfl⟩
  | cons x l ih =>
    rcases ih fun y hy => h y (List.mem_cons_of_mem x hy) with ⟨r, hr, hmap⟩
    rcases Option.isSome_iff_exists.mp (h x List.mem_cons_self) with ⟨y, hy⟩
    refine ⟨y :: r, ?_, ?_⟩
    · rw [List.mapM_cons, hy, hr]
      rfl
    · rw [List.map_cons, List.map_cons, hmap, hy]

section Entries

variable {L : CEntryList}

theorem dirEntryAt_isSome (h : L.isDirList = true) {i : Nat} (hi : i < L.mTotalCount.toNat) :
    (L.dirEntryAt i).isSome = true := by
  have hcounted := L.counted
  have hlookup : ∀ (l : List UInt16) (dirs : List DirEntry), i < l.length →
      (∀ x ∈ l, x.toNat < dirs.length) →
        (do
          let index ← l[i]?
          let classDir ← dirs[index.toNat]?
          some (Args.dirEntry i classDir.mName none)).isSome = true := by
    intro l dirs hl hdirs
    have hx := hdirs l[i] (List.getElem_mem hl)
    simp only [List.getElem?_eq_getElem hl, Option.bind_eq_bind, Option.bind_some,
      List.getElem?_eq_getElem hx, Option.isSome_some]
  have hplain : ∀ (dirs : List DirEntry) (f : DirEntry → Entry),
      dirs.length = L.mTotalCount.toNat → ((dirs[i]?).map f).isSome = true := by
    intro dirs f hlength
    rw [Option.isSome_map, List.getElem?_eq_getElem (hlength ▸ hi)]
    rfl
  rw [Args.isDirList] at h
  rw [Args.Counted] at hcounted
  rw [Args.dirEntryAt]
  generalize L.mType = type at *
  cases type with
  | Aspect => exact hlookup _ _ (hcounted.1 ▸ hi) hcounted.2
  | Aggregatee => exact hlookup _ _ (hcounted.1 ▸ hi) hcounted.2
  | _ =>
    first
      | exact absurd h Bool.false_ne_true
      | exact hplain _ _ hcounted

/-- There are as many entries as are counted. -/
theorem entries_spec (h : L.isListed = true) :
    L.entries? = some L.entries ∧ L.entries.length = L.mTotalCount.toNat := by
  have hcounted := L.counted
  by_cases hdir : L.isDirList = true
  · rcases mapM_isSome (f := L.dirEntryAt) (l := List.range L.mTotalCount.toNat) fun i hi =>
      dirEntryAt_isSome hdir (List.mem_range.mp hi) with ⟨r, hr, hmap⟩
    have hentries : L.entries? = some r := by
      rw [← hr]
      rw [Args.isDirList] at hdir
      rw [Args.entries?]
      generalize L.mType = type at *
      cases type with
      | _ =>
        first
          | rfl
          | exact absurd hdir Bool.false_ne_true
    have hlength := congrArg List.length hmap
    rw [List.length_map, List.length_map, List.length_range] at hlength
    rw [Args.entries, hentries]
    exact ⟨rfl, hlength⟩
  · rw [Args.isListed] at h
    rw [Args.isDirList] at hdir
    rw [Args.Counted] at hcounted
    rw [Args.entries, Args.entries?]
    have hmethods : (L.mIFList.flatMap L.methodEntries).length =
        (L.mIFList.map fun e => (L.mClsMod.interfaceDesc e.mDesc).length).sum := by
      simp only [List.length_flatMap, Args.methodEntries, List.length_map, List.length_zipIdx]
    generalize L.mType = type at *
    cases type with
    | TypeAliase => exact ⟨rfl, (List.length_map _).trans hcounted.1⟩
    | ClassInterface => exact ⟨rfl, (List.length_map _).trans hcounted.1⟩
    | Method => exact ⟨rfl, hmethods.trans hcounted⟩
    | Constructor => exact ⟨rfl, hmethods.trans hcounted⟩
    | CBMethod => exact ⟨rfl, hmethods.trans hcounted.1⟩
    | _ =>
      first
        | exact absurd h Bool.false_ne_true
        | exact absurd rfl hdir

theorem dirEntryAt_mObject {i : Nat} {r : Entry} (h : L.dirEntryAt i = some r) :
    r.element.mObject = none := by
  have hlookup : ∀ (l : List UInt16) (dirs : List DirEntry),
      (do
        let index ← l[i]?
        let classDir ← dirs[index.toNat]?
        some (Args.dirEntry i classDir.mName none)) = some r → r.element.mObject = none := by
    intro l dirs h
    simp only [Option.bind_eq_bind, Option.bind_eq_some_iff, Option.some_inj] at h
    rcases h with ⟨index, -, d, -, rfl⟩
    rfl
  have hplain : ∀ (dirs : List DirEntry) (ns : DirEntry → Option CStr),
      (dirs[i]?).map (fun d => Args.dirEntry i d.mName (ns d)) = some r →
        r.element.mObject = none := by
    intro dirs ns h
    rcases Option.map_eq_some_iff.mp h with ⟨d, -, rfl⟩
    rfl
  rw [Args.dirEntryAt] at h
  generalize L.mType = type at *
  cases type with
  | Aspect => exact hlookup _ _ h
  | Aggregatee => exact hlookup _ _ h
  | Class => exact hplain _ (·.mNameSpace) h
  | Interface => exact hplain _ (·.mNameSpace) h
  | Enum => exact hplain _ (·.mNameSpace) h
  | Struct => exact hplain _ (fun _ => none) h
  | Constant => exact hplain _ (fun _ => none) h
  | _ => cases h

theorem mem_mapM {α β : Type} {f : α → Option β} {l : List α} {r : List β} (h : l.mapM f = some r)
    {y : β} (hy : y ∈ r) : ∃ x ∈ l, f x = some y := by
  induction l generalizing r with
  | nil =>
    cases h
    cases hy
  | cons x l ih =>
    rw [List.mapM_cons] at h
    rcases Option.bind_eq_some_iff.mp h with ⟨z, hz, h⟩
    rcases Option.bind_eq_some_iff.mp h with ⟨zs, hzs, h⟩
    cases h
    rcases List.mem_cons.mp hy with rfl | hy
    · exact ⟨x, List.mem_cons_self, hz⟩
    · rcases ih hzs hy with ⟨x', hx', hfx⟩
      exact ⟨x', List.mem_cons_of_mem x hx', hfx⟩

/-- No info object is stored with the entry. -/
theorem entry_mObject {r : Entry} (h : r ∈ L.entries) : r.element.mObject = none := by
  have hlast : r ∈ ((List.range L.mTotalCount.toNat).mapM L.dirEntryAt).getD [] →
      r.element.mObject = none := by
    intro h
    cases hmap : (List.range L.mTotalCount.toNat).mapM L.dirEntryAt with
    | none =>
      rw [hmap] at h
      cases h
    | some l =>
      rw [hmap] at h
      rcases mem_mapM hmap h with ⟨i, -, hi⟩
      exact dirEntryAt_mObject hi
  rw [Args.entries, Args.entries?] at h
  generalize L.mType = type at *
  cases type with
  | TypeAliase =>
    rcases List.mem_map.mp h with ⟨d, -, rfl⟩
    rfl
  | ClassInterface =>
    rcases List.mem_map.mp h with ⟨e, -, rfl⟩
    rfl
  | Method | Constructor | CBMethod =>
    rcases List.mem_flatMap.mp h with ⟨e, -, h⟩
    rcases List.mem_map.mp h with ⟨d, -, rfl⟩
    rfl
  | _ => exact hlast h

/-- A method has its descriptor stored. -/
theorem method_mDesc (hmethod : L.isMethodList = true) {r : Entry} (h : r ∈ L.entries) :
    r.element.mDesc.isSome = true := by
  rw [Args.entries, Args.entries?] at h
  rw [Args.isMethodList] at hmethod
  generalize L.mType = type at *
  cases type with
  | Method | Constructor | CBMethod =>
    rcases List.mem_flatMap.mp h with ⟨e, -, h⟩
    rcases List.mem_map.mp h with ⟨d, -, rfl⟩
    rfl
  | _ => cases hmethod

end Entries

/-! ## The elements -/

/-- The element is that of its entry, or nothing was stored in it yet; the object it keeps
is the one its entry stands for. -/
structure Sound (L : CEntryList) (k : Nat) (e : ObjElement) : Prop where
  own : (∃ r : Entry, L.entries[k]? = some r ∧ e.mIndex = r.element.mIndex ∧
      e.mDesc = r.element.mDesc) ∨ e.mIndex = 0 ∧ e.mDesc = none
  kept : ∀ o, e.mObject = some o →
    L.mType ≠ .CBMethod ∧ request L.toArgs k e = some (.ok o) ∧ L.objectAt k = some o

def SoundList (L : CEntryList) (elems : List ObjElement) : Prop :=
  elems.length = L.mTotalCount.toNat ∧
    ∀ (k : Nat) (e : ObjElement), elems[k]? = some e → Sound L k e

/-- The invariant of a list. -/
def Inv (L : CEntryList) (s : State) : Prop :=
  ∀ elems, s.mObjElement = some elems → L.isListed = true → SoundList L elems

section Elements

variable {L : CEntryList} {s : State}

theorem inv_new (L : CEntryList) : Inv L State.new := fun _ h => by cases h

theorem request_congr {e e' : ObjElement} (k : Nat) (hindex : e.mIndex = e'.mIndex)
    (hdesc : e.mDesc = e'.mDesc) : request L.toArgs k e = request L.toArgs k e' := by
  simp only [request, hindex, hdesc]

theorem sound_entry {k : Nat} {r : Entry} (h : L.entries[k]? = some r) : Sound L k r.element where
  own := Or.inl ⟨r, h, rfl, rfl⟩
  kept := by
    intro o ho
    rw [entry_mObject (List.mem_of_getElem? h)] at ho
    cases ho

theorem sound_zero (L : CEntryList) (k : Nat) : Sound L k ObjElement.zero where
  own := Or.inr ⟨rfl, rfl⟩
  kept := fun _ ho => by cases ho

/-- Some entries are stored, the others not yet. -/
theorem soundList_part (hlisted : L.isListed = true) (done rest : List Entry)
    (h : done ++ rest = L.entries) :
    SoundList L (done.map (·.element) ++ List.replicate rest.length ObjElement.zero) := by
  have hlength := (entries_spec hlisted).2
  rw [← h, List.length_append] at hlength
  constructor
  · rw [List.length_append, List.length_map, List.length_replicate]
    exact hlength
  · intro k e he
    by_cases hk : k < done.length
    · rw [List.getElem?_append_left (by rwa [List.length_map]), List.getElem?_map] at he
      rcases Option.map_eq_some_iff.mp he with ⟨r, hr, rfl⟩
      refine sound_entry ?_
      rw [← h, List.getElem?_append_left hk]
      exact hr
    · rw [List.getElem?_append_right (by rw [List.length_map]; omega)] at he
      have hzero := List.eq_of_mem_replicate (List.mem_of_getElem? he)
      rw [hzero]
      exact sound_zero L k

/-- One more entry is stored. -/
theorem set_part (done : List Entry) (r : Entry) (rest : List Entry) :
    (done.map (·.element) ++
        List.replicate (r :: rest).length ObjElement.zero).set done.length r.element =
      (done ++ [r]).map (·.element) ++ List.replicate rest.length ObjElement.zero := by
  rw [List.set_append_right _ _ (by rw [List.length_map]), List.length_map, Nat.sub_self,
    List.length_cons, List.replicate_succ, List.set_cons_zero, List.map_append,
    List.map_singleton, List.append_assoc, List.singleton_append]

/-- `fillEntries` stores all entries if every one is put, and else some. -/
theorem fillEntries_spec (hlisted : L.isListed = true) (put : Nat → Bool) (done rest : List Entry)
    (h : done ++ rest = L.entries) :
    ∃ ec elems,
      fillEntries L.toArgs put rest done.length
          (done.map (·.element) ++ List.replicate rest.length ObjElement.zero) = some (ec, elems) ∧
        SoundList L elems ∧
        (ec = .NOERROR ↔ ∀ k, done.length ≤ k → k < L.mTotalCount.toNat → put k = true) ∧
        (ec = .NOERROR → elems = L.entries.map (·.element)) := by
  have hlength := (entries_spec hlisted).2
  -- by induction on the entries left; those before are stored
  induction rest generalizing done with
  | nil =>
    rw [List.append_nil] at h
    refine ⟨_, _, rfl, soundList_part hlisted done [] (by rw [List.append_nil, h]), ?_, ?_⟩
    · refine iff_of_true rfl fun k hk hlt => ?_
      rw [h, hlength] at hk
      exact absurd hlt (Nat.not_lt.mpr hk)
    · intro _
      rw [h]
      exact List.append_nil _
  | cons r rest ih =>
    have hcount : done.length + (rest.length + 1) = L.mTotalCount.toNat := by
      rw [← hlength, ← h, List.length_append, List.length_cons]
    have hnext : done ++ [r] ++ rest = L.entries := by
      rw [List.append_assoc, List.singleton_append, h]
    rw [fillEntries, if_neg (by omega), if_pos (by
      rw [List.length_append, List.length_map, List.length_replicate, List.length_cons]
      omega), set_part]
    -- without memory for this one the rest stays zero
    by_cases hput : put done.length = true
    · rw [if_pos hput]
      rcases ih _ hnext with ⟨ec, elems, hrun, hsound, hec, hall⟩
      rw [List.length_append, List.length_singleton] at hrun hec
      refine ⟨ec, elems, hrun, hsound, ?_, hall⟩
      rw [hec]
      constructor
      · intro h k hk hlt
        rcases Nat.eq_or_lt_of_le hk with rfl | hk
        · exact hput
        · exact h k hk hlt
      · exact fun h k hk hlt => h k (Nat.le_of_succ_le hk) hlt
    · rw [if_neg hput]
      refine ⟨_, _, rfl, soundList_part hlisted _ rest hnext, ?_, fun h => by cases h⟩
      refine iff_of_false (by decide) fun h => hput (h _ (Nat.le_refl _) (by omega))

theorem soundList_elements (hinv : Inv L s) (hlisted : L.isListed = true) :
    SoundList L (elements L.toArgs s) := by
  cases helems : s.mObjElement with
  | some elems =>
    rw [elements, helems]
    exact hinv elems helems hlisted
  | none =>
    have hall := soundList_part hlisted L.entries [] (List.append_nil _)
    rw [elements, helems]
    rw [List.length_nil, List.replicate_zero, List.append_nil] at hall
    exact hall

theorem isListed_of_isMethodList (h : L.isMethodList = true) : L.isListed = true := by
  rw [Args.isMethodList] at h
  rw [Args.isListed]
  generalize L.mType = type at *
  cases type with
  | _ =>
    first
      | rfl
      | cases h

/-- `InitElemList` succeeds exactly when the list opens. -/
theorem initElemList_spec (hinv : Inv L s) (env : Env) (hne : L.mTotalCount ≠ 0) :
    ∃ ec s', initElemList L.toArgs env s = some (ec, s') ∧ Inv L s' ∧
      (ec = .NOERROR ↔ Opens L.toArgs s env) ∧
      (ec = .NOERROR → s'.mObjElement = some (elements L.toArgs s)) := by
  rw [initElemList, if_neg hne]
  -- a list that is open stays as it is
  cases helems : s.mObjElement with
  | some elems =>
    rw [if_pos Option.isSome_some]
    refine ⟨_, s, rfl, hinv, iff_of_true rfl (Or.inl ?_), fun _ => ?_⟩
    · rw [helems]
      rfl
    · rw [elements, helems]
      rfl
  | none =>
    -- a list that is not needs memory, and entries of a type that is listed
    have hopens : Opens L.toArgs s env → env.alloc = true ∧
        sizeofObjElement * L.mTotalCount.toNat < 2 ^ 32 ∧ L.isListed = true ∧
          ∀ k < L.mTotalCount.toNat, env.put k = true := by
      rintro (h | h)
      · rw [helems] at h
        cases h
      · exact h
    rw [if_neg (by decide)]
    by_cases hroom : env.alloc = false ∨ 2 ^ 32 ≤ sizeofObjElement * L.mTotalCount.toNat
    · rw [if_pos hroom]
      refine ⟨_, s, rfl, hinv, iff_of_false (by decide) fun h => ?_, fun h => by cases h⟩
      rcases hopens h with ⟨halloc, hlt, -, -⟩
      rcases hroom with hfalse | hle
      · rw [halloc] at hfalse
        cases hfalse
      · exact absurd hlt (Nat.not_lt.mpr hle)
    rw [if_neg hroom]
    dsimp only
    rcases not_or.mp hroom with ⟨halloc, hlt⟩
    by_cases hlisted : L.isListed = true
    swap
    · rw [if_pos (Bool.eq_false_iff.mpr hlisted)]
      refine ⟨_, _, rfl, fun _ _ h => absurd h hlisted, iff_of_false (by decide) fun h => ?_,
        fun h => by cases h⟩
      exact hlisted (hopens h).2.2.1
    rw [if_neg (by rw [hlisted]; decide), (entries_spec hlisted).1]
    -- then the elements are filled in one by one
    rcases fillEntries_spec hlisted env.put [] L.entries rfl with
      ⟨ec, elems, hrun, hsound, hec, hall⟩
    rw [List.map_nil, List.nil_append, (entries_spec hlisted).2] at hrun
    have hrun' : fillEntries L.toArgs env.put L.entries 0
        (List.replicate L.mTotalCount.toNat ObjElement.zero) = some (ec, elems) := hrun
    rw [Option.bind_eq_bind, Option.bind_some, hrun', Option.bind_eq_bind, Option.bind_some]
    refine ⟨ec, ⟨some elems⟩, rfl, ?_, ?_, ?_⟩
    · intro elems' h _
      cases h
      exact hsound
    · rw [hec]
      constructor
      · exact fun h => Or.inr ⟨Bool.eq_true_of_not_eq_false halloc, Nat.not_le.mp hlt, hlisted,
          fun k hk => h k (Nat.zero_le k) hk⟩
      · exact fun h k _ hk => (hopens h).2.2.2 k hk
    · intro h
      rw [elements, helems, hall h]
      rfl

end Elements

/-! ## The answers -/

section Answers

variable {L : CEntryList} {s : State} {c : Call}

theorem ne_zero_of_reached (h : Reached L.toArgs s c) : L.mTotalCount ≠ 0 := by
  intro hzero
  have hlt := h.1
  rw [hzero] at hlt
  exact absurd hlt (Nat.not_lt_zero _)

theorem acquireObjByIndex_reached (hinv : Inv L s) (h : Reached L.toArgs s c) :
    ∃ s', s'.mObjElement = some (elements L.toArgs s) ∧ Inv L s' ∧
      acquireObjByIndex L.toArgs c.env s c.index =
        match position L.toArgs (elements L.toArgs s) c.index with
        | none => some (.error .E_INVALID_ARGUMENT, s')
        | some i => (acquireAt L.toArgs c.env.acquired (elements L.toArgs s) i).map fun r =>
            (r.1, ⟨some r.2⟩) := by
  have hne := ne_zero_of_reached h
  rcases initElemList_spec hinv c.env hne with ⟨ec, s', hinit, hinv', hopens, helems⟩
  have hec := hopens.mpr h.2
  refine ⟨s', helems hec, hinv', ?_⟩
  rw [acquireObjByIndex, if_neg (not_or.mpr ⟨hne, UInt32.not_le.mpr h.1⟩), hinit]
  dsimp only [Option.bind_eq_bind, Option.bind_some]
  rw [if_neg (not_not.mpr hec), helems hec, Option.bind_some]
  cases position L.toArgs (elements L.toArgs s) c.index with
  | none => rfl
  | some i =>
    dsimp only
    generalize acquireAt L.toArgs c.env.acquired (elements L.toArgs s) i = r
    cases r <;> rfl

theorem acquireObjByIndex_refused (hinv : Inv L s) (h : ¬ Reached L.toArgs s c) :
    ∃ ec s', acquireObjByIndex L.toArgs c.env s c.index = some (.error ec, s') ∧ Inv L s' := by
  by_cases hcheck : L.mTotalCount = 0 ∨ L.mTotalCount ≤ c.index &&& 0xFFFF
  · rw [acquireObjByIndex, if_pos hcheck]
    exact ⟨_, s, rfl, hinv⟩
  rcases not_or.mp hcheck with ⟨hne, hlow⟩
  rcases initElemList_spec hinv c.env hne with ⟨ec, s', hinit, hinv', hopens, -⟩
  have hec : ec ≠ .NOERROR := fun hec => h ⟨UInt32.not_le.mp hlow, hopens.mp hec⟩
  refine ⟨ec, s', ?_, hinv'⟩
  rw [acquireObjByIndex, if_neg hcheck, hinit]
  dsimp only [Option.bind_eq_bind, Option.bind_some]
  rw [if_pos hec]

/-- The end of the call, for an entry whose object can be asked for. -/
theorem acquireAt_ok (hlisted : L.isListed = true) (hcb : L.mType ≠ .CBMethod) (acquired : ECode)
    {elems : List ObjElement} {i : Nat} {e : ObjElement} {o : Obj} (he : elems[i]? = some e)
    (hrequest : request L.toArgs i e = some (.ok o)) (hsound : Sound L i e) :
    acquireAt L.toArgs acquired elems i =
      if e.mObject.isSome = true ∨ acquired = .NOERROR then
        some (.ok o, elems.set i { e with mObject := some o })
      else some (.error acquired, elems) := by
  rw [acquireAt, if_neg (by rw [hlisted]; decide), he, Option.bind_eq_bind, Option.bind_some,
    hrequest, Option.bind_eq_bind, Option.bind_some]
  dsimp only
  cases hobject : e.mObject with
  | some o' =>
    have hsame : o' = o := by
      have hkept := (hsound.kept o' hobject).2.1
      rw [hrequest] at hkept
      exact (Except.ok.inj (Option.some.inj hkept)).symm
    have hself : ({ e with mObject := some o } : ObjElement) = e := by rw [← hsame, ← hobject]
    have hinfo : acquireInfo L.toArgs acquired e o = (.NOERROR, e) :=
      if_pos (Or.inr (by rw [hobject]; rfl))
    rw [hinfo, if_neg (not_not.mpr rfl), if_pos (Or.inl Option.isSome_some), hself, hobject, hsame]
    rfl
  | none =>
    have hnone : ¬ (L.mType = .CBMethod ∨ e.mObject.isSome = true) := by
      rw [hobject]
      exact not_or.mpr ⟨hcb, Bool.false_ne_true⟩
    by_cases hacquired : acquired = .NOERROR
    · have hinfo : acquireInfo L.toArgs acquired e o = (.NOERROR, { e with mObject := some o }) :=
        (if_neg hnone).trans (if_pos hacquired)
      rw [hinfo, if_neg (not_not.mpr rfl), if_pos (Or.inr hacquired)]
      rfl
    · have hinfo : acquireInfo L.toArgs acquired e o = (acquired, e) :=
        (if_neg hnone).trans (if_neg hacquired)
      rw [hinfo, if_pos hacquired, if_neg]
      exact not_or.mpr ⟨Bool.false_ne_true, hacquired⟩

/-- The object of a callback method is never there. -/
theorem acquireAt_callback (hcb : L.mType = .CBMethod) (acquired : ECode)
    {elems : List ObjElement} (hsound : SoundList L elems) (i : Nat) :
    acquireAt L.toArgs acquired elems i = none := by
  rw [acquireAt, if_neg (by rw [Args.isListed, hcb]; decide)]
  cases he : elems[i]? with
  | none => rfl
  | some e =>
    have hobject : e.mObject = none := by
      cases hobject : e.mObject with
      | none => rfl
      | some o => exact absurd hcb ((hsound.2 i e he).kept o hobject).1
    have hinfo : ∀ o, acquireInfo L.toArgs acquired e o = (.NOERROR, e) := fun o =>
      if_pos (Or.inl hcb)
    rw [Option.bind_eq_bind, Option.bind_some, request, hcb]
    dsimp only
    cases L.mCBMethodDesc[i]? with
    | none => rfl
    | some d =>
      rw [Option.map_some, Option.bind_eq_bind, Option.bind_some]
      dsimp only
      rw [hinfo, if_neg (not_not.mpr rfl), hobject]
      rfl

/-- An object is kept with the element of its entry. -/
theorem SoundList.set {elems : List ObjElement} (h : SoundList L elems) {i : Nat}
    {e : ObjElement} {o : Obj} (he : elems[i]? = some e)
    (hcb : L.mType ≠ .CBMethod) (hrequest : request L.toArgs i e = some (.ok o))
    (hobject : L.objectAt i = some o) :
    SoundList L (elems.set i { e with mObject := some o }) := by
  refine ⟨by rw [List.length_set]; exact h.1, fun k e' he' => ?_⟩
  by_cases hk : i = k
  · subst hk
    have hlt := (List.getElem?_eq_some_iff.mp he).1
    rw [List.getElem?_set_self hlt] at he'
    cases he'
    refine ⟨(h.2 i e he).own, fun o' ho' => ⟨hcb, ?_, ?_⟩⟩
    · cases ho'
      exact (request_congr i rfl rfl).trans hrequest
    · cases ho'
      exact hobject
  · rw [List.getElem?_set_ne hk] at he'
    exact h.2 k e' he'

/-! ### What is asked for -/

theorem objectAt_eq_some_iff {k : Nat} {r : Entry} (h : L.entries[k]? = some r) (o : Obj) :
    L.objectAt k = some o ↔ request L.toArgs k r.element = some (.ok o) := by
  rw [Args.objectAt, h, Option.bind_eq_bind, Option.bind_some]
  cases hrequest : request L.toArgs k r.element with
  | none => exact iff_of_false (fun h => by cases h) fun h => by cases h
  | some answer =>
    cases answer with
    | error ec => exact iff_of_false (fun h => by cases h) fun h => by cases h
    | ok o' =>
      rw [Option.some_inj, Except.ok.injEq]
      exact Option.some_inj

theorem exists_entry (hlisted : L.isListed = true) {k : Nat} (hk : k < L.mTotalCount.toNat) :
    ∃ r : Entry, L.entries[k]? = some r :=
  ⟨_, List.getElem?_eq_getElem ((entries_spec hlisted).2 ▸ hk)⟩

theorem isListed_of_isDirList (h : L.isDirList = true) : L.isListed = true := by
  rw [Args.isDirList] at h
  rw [Args.isListed]
  generalize L.mType = type at *
  cases type with
  | _ =>
    first
      | rfl
      | cases h

/-- Where the position is all that counts, the element is not looked at. -/
theorem request_dir (h : L.isDirList = true) {i : Nat} (hi : i < L.mTotalCount.toNat)
    (e : ObjElement) :
    ∃ o, request L.toArgs i e = some (.ok o) ∧ L.objectAt i = some o := by
  rcases exists_entry (isListed_of_isDirList h) hi with ⟨r, hr⟩
  have hcounted := L.counted
  have hlookup : ∀ (l : List UInt16), i < l.length →
      (∀ x ∈ l, x.toNat < L.mClsMod.mClassDirs.length) →
        (do
          let adjIndex ← l[i]?
          let _ ← L.mClsMod.mClassDirs[adjIndex.toNat]?
          some (.ok (.classInfo adjIndex.toNat)) : Option (Except ECode Obj)) =
            some (.ok (.classInfo (l.getD i 0).toNat)) := by
    intro l hl hdirs
    have hx := hdirs l[i] (List.getElem_mem hl)
    simp only [List.getElem?_eq_getElem hl, Option.bind_eq_bind, Option.bind_some,
      List.getElem?_eq_getElem hx, List.getD_eq_getElem?_getD, Option.getD_some]
  have hplain : ∀ (dirs : List DirEntry) (o : Obj), dirs.length = L.mTotalCount.toNat →
      (dirs[i]?).map (fun _ => (.ok o : Except ECode Obj)) = some (.ok o) := by
    intro dirs o hlength
    rw [List.getElem?_eq_getElem (hlength ▸ hi), Option.map_some]
  have hall : ∃ o, ∀ e, request L.toArgs i e = some (.ok o) := by
    rw [Args.isDirList] at h
    rw [Args.Counted] at hcounted
    simp only [request]
    generalize L.mType = type at *
    cases type with
    | Aspect => exact ⟨_, fun _ => hlookup _ (hcounted.1 ▸ hi) hcounted.2⟩
    | Aggregatee => exact ⟨_, fun _ => hlookup _ (hcounted.1 ▸ hi) hcounted.2⟩
    | _ =>
      first
        | exact absurd h Bool.false_ne_true
        | exact ⟨_, fun _ => hplain _ _ hcounted⟩
  rcases hall with ⟨o, ho⟩
  exact ⟨o, ho e, (objectAt_eq_some_iff hr o).mpr (ho r.element)⟩

/-- Where the element says which directory entry is meant, it has to be the entry's own. -/
theorem request_numbered (h : L.mType = .ClassInterface ∨ L.mType = .TypeAliase) {i : Nat}
    {e : ObjElement} {r : Entry} (hr : L.entries[i]? = some r) (hsound : Sound L i e) :
    ∃ o, request L.toArgs i e = some (.ok o) ∧
      (L.objectAt i = some o ↔ e.mIndex = r.element.mIndex) := by
  have hcounted := L.counted
  have hmem := List.mem_of_getElem? hr
  -- the index that is stored, or the zero that is there before it
  have hindex : e.mIndex = r.element.mIndex ∨ e.mIndex = 0 := by
    rcases hsound.own with ⟨r', hr', hindex, -⟩ | ⟨hzero, -⟩
    · rw [hr] at hr'
      cases hr'
      exact Or.inl hindex
    · exact Or.inr hzero
  have hlt : ∀ n : Nat, r.element.mIndex.toNat < n → e.mIndex.toNat < n := by
    intro n hn
    rcases hindex with hindex | hzero
    · rwa [hindex]
    · rw [hzero]
      exact Nat.lt_of_le_of_lt (Nat.zero_le _) hn
  rw [Args.entries, Args.entries?] at hmem
  rw [Args.Counted] at hcounted
  rcases h with htype | htype
  · rw [htype] at hmem hcounted
    dsimp only at hmem hcounted
    rcases List.mem_map.mp hmem with ⟨x, hx, rfl⟩
    have hdir := (List.getElem?_eq_some_iff.mp (hcounted.2 x hx)).1
    have hrequest : ∀ e : ObjElement, e.mIndex.toNat < L.mClsMod.mInterfaceDirs.length →
        request L.toArgs i e = some (.ok (.interfaceInfo e.mIndex.toNat)) := by
      intro e he
      simp only [request, htype, List.getElem?_eq_getElem he, Option.map_some]
    refine ⟨_, hrequest e (hlt _ hdir), ?_⟩
    rw [objectAt_eq_some_iff hr, hrequest _ hdir, Option.some_inj, Except.ok.injEq,
      Obj.interfaceInfo.injEq, UInt32.toNat_inj, eq_comm]
  · rw [htype] at hmem hcounted
    dsimp only at hmem hcounted
    rcases List.mem_map.mp hmem with ⟨d, hd, rfl⟩
    have hdir : (UInt32.ofNat d.2).toNat < L.mClsMod.mAliasDirs.length := by
      have hzip := (List.mem_zipIdx (List.mem_of_mem_filter hd)).2.1
      have hsmall := hcounted.2
      rw [Nat.zero_add] at hzip
      rw [toNat_ofNat_of_lt (by omega)]
      exact hzip
    have hrequest : ∀ e : ObjElement, e.mIndex.toNat < L.mClsMod.mAliasDirs.length →
        request L.toArgs i e = some (.ok (.typeAliasInfo e.mIndex.toNat)) := by
      intro e he
      simp only [request, htype, List.getElem?_eq_getElem he, Option.map_some]
    refine ⟨_, hrequest e (hlt _ hdir), ?_⟩
    rw [objectAt_eq_some_iff hr, hrequest _ hdir, Option.some_inj, Except.ok.injEq,
      Obj.typeAliasInfo.injEq, UInt32.toNat_inj, eq_comm]

/-- The info object of a method. -/
def methodObj (L : Args) (desc : Nat × Nat) (index : UInt32) : Obj :=
  if L.mType = .Constructor then .constructorInfo desc index else .methodInfo desc index

theorem methodObj_inj {d d' : Nat × Nat} {n n' : UInt32} :
    methodObj L.toArgs d n = methodObj L.toArgs d' n' ↔ d = d' ∧ n = n' := by
  rw [methodObj, methodObj]
  by_cases h : L.mType = .Constructor
  · rw [if_pos h, if_pos h, Obj.constructorInfo.injEq]
  · rw [if_neg h, if_neg h, Obj.methodInfo.injEq]

theorem request_method (h : L.mType = .Method ∨ L.mType = .Constructor) (i : Nat)
    (e : ObjElement) :
    request L.toArgs i e =
      some (e.mDesc.elim (.error .E_INVALID_ARGUMENT) fun desc =>
        .ok (methodObj L.toArgs desc e.mIndex)) := by
  cases hdesc : e.mDesc with
  | none => rcases h with h | h <;> simp only [request, h, hdesc, Option.elim_none]
  | some desc =>
    rcases h with h | h <;> simp only [request, h, hdesc, Option.elim_some, methodObj, reduceCtorEq,
      if_true, if_false]

/-! ### The search -/

/-- The first element with the number, or none. -/
theorem find_cases (elems : List ObjElement) (index : UInt32) :
    (∃ i e, elems.findIdx? (fun e => e.mIndex = index) = some i ∧
        elems.find? (fun e => e.mIndex = index) = some e ∧ elems[i]? = some e ∧
        e.mIndex = index) ∨
      elems.findIdx? (fun e => e.mIndex = index) = none ∧
        elems.find? (fun e => e.mIndex = index) = none ∧ ∀ e ∈ elems, e.mIndex ≠ index := by
  induction elems with
  | nil => exact Or.inr ⟨rfl, rfl, fun e he => absurd he List.not_mem_nil⟩
  | cons e elems ih =>
    by_cases he : e.mIndex = index
    · refine Or.inl ⟨0, e, ?_, ?_, rfl, he⟩
      · rw [List.findIdx?_cons, if_pos (decide_eq_true he)]
      · rw [List.find?_cons_of_pos (p := fun e : ObjElement => decide (e.mIndex = index))
          (decide_eq_true he)]
    · have hfalse : ¬ decide (e.mIndex = index) = true := by simpa using he
      rw [List.findIdx?_cons, if_neg hfalse,
        List.find?_cons_of_neg (p := fun e : ObjElement => decide (e.mIndex = index)) hfalse]
      rcases ih with ⟨i, e', hidx, hfind, hget, hindex⟩ | ⟨hidx, hfind, hall⟩
      · exact Or.inl ⟨i + 1, e', by rw [hidx]; rfl, hfind, hget, hindex⟩
      · refine Or.inr ⟨by rw [hidx]; rfl, hfind, fun e' he' => ?_⟩
        rcases List.mem_cons.mp he' with rfl | he'
        · exact he
        · exact hall e' he'

/-- In a list of methods: the element the index leads to, or that the index is refused,
or that it is the count. -/
theorem position_cases (hmethod : L.isMethodList = true) (hinv : Inv L s)
    (h : Reached L.toArgs s c) :
    (∃ i e, position L.toArgs (elements L.toArgs s) c.index = some i ∧
        led L.toArgs s c.index = some e ∧ (elements L.toArgs s)[i]? = some e ∧
        (c.index &&& 0xFFFF0000 ≠ 0 → e.mIndex = c.index) ∧
        (c.index &&& 0xFFFF0000 = 0 → i = c.index.toNat)) ∨
      c.index &&& 0xFFFF0000 ≠ 0 ∧ led L.toArgs s c.index = none ∧
        (∀ e ∈ elements L.toArgs s, e.mIndex ≠ c.index) ∧
        position L.toArgs (elements L.toArgs s) c.index =
          if c.index = L.mTotalCount then some L.mTotalCount.toNat else none := by
  by_cases hhigh : c.index &&& 0xFFFF0000 = 0
  · have hlt : c.index.toNat < (elements L.toArgs s).length := by
      have hlow := h.1
      rw [low_of_high hhigh] at hlow
      rw [(soundList_elements hinv (isListed_of_isMethodList hmethod)).1]
      exact hlow
    have hget := List.getElem?_eq_getElem hlt
    refine Or.inl ⟨c.index.toNat, _, ?_, ?_, hget, fun hne => absurd hhigh hne, fun _ => rfl⟩
    · rw [position, if_neg fun hand => hand.2 hhigh]
    · rw [led, if_neg (not_not.mpr hhigh), hget]
  · have hand : L.isMethodList = true ∧ c.index &&& 0xFFFF0000 ≠ 0 := ⟨hmethod, hhigh⟩
    rw [position, if_pos hand, led, if_pos hhigh]
    rcases find_cases (elements L.toArgs s) c.index with
      ⟨i, e, hidx, hfind, hget, hindex⟩ | ⟨hidx, hfind, hall⟩
    · rw [hidx, hfind]
      exact Or.inl ⟨i, e, rfl, rfl, hget, fun _ => hindex, fun hzero => absurd hzero hhigh⟩
    · rw [hidx, hfind]
      refine Or.inr ⟨hhigh, rfl, hall, ?_⟩
      dsimp only
      by_cases hcount : c.index = L.mTotalCount
      · rw [if_neg (not_not.mpr (congrArg UInt32.toNat hcount)), if_pos hcount, hcount]
      · rw [if_pos fun heq => hcount (UInt32.toNat_inj.mp heq), if_neg hcount]

/-! ### One call -/

/-- The call is not undefined, and an object that is given is that of the entry. -/
def Safe (L : CEntryList) (s : State) (c : Call) : Prop :=
  ∃ r s', acquireObjByIndex L.toArgs c.env s c.index = some (r, s') ∧ Inv L s' ∧
    ∀ o, r = .ok o → ∃ k, L.Names c.index k ∧ L.objectAt k = some o

theorem acquireAt_entry (hlisted : L.isListed = true) (hcb : L.mType ≠ .CBMethod)
    (acquired : ECode) {elems : List ObjElement} (hsound : SoundList L elems) {i : Nat}
    {e : ObjElement} {o : Obj} (he : elems[i]? = some e)
    (hrequest : request L.toArgs i e = some (.ok o)) (hobject : L.objectAt i = some o) :
    ∃ r elems', acquireAt L.toArgs acquired elems i = some (r, elems') ∧ SoundList L elems' ∧
      (∀ o', r = .ok o' → o' = o) ∧ (acquired = .NOERROR → r = .ok o) := by
  rw [acquireAt_ok hlisted hcb acquired he hrequest (hsound.2 i e he)]
  by_cases h : e.mObject.isSome = true ∨ acquired = .NOERROR
  · rw [if_pos h]
    exact ⟨_, _, rfl, hsound.set he hcb hrequest hobject, fun o' ho' => (Except.ok.inj ho').symm,
      fun _ => rfl⟩
  · rw [if_neg h]
    exact ⟨_, _, rfl, hsound, fun o' ho' => (by cases ho'), fun hok => absurd (Or.inr hok) h⟩

theorem inv_some {elems : List ObjElement} (h : SoundList L elems) : Inv L ⟨some elems⟩ := by
  intro elems' heq _
  cases heq
  exact h

/-- A position whose object can be asked for. -/
theorem safe_entry (hinv : Inv L s) (hreached : Reached L.toArgs s c) (hlisted : L.isListed = true)
    (hcb : L.mType ≠ .CBMethod) {i : Nat}
    (hposition : position L.toArgs (elements L.toArgs s) c.index = some i) {e : ObjElement}
    {o : Obj} (he : (elements L.toArgs s)[i]? = some e)
    (hrequest : request L.toArgs i e = some (.ok o)) (hobject : L.objectAt i = some o)
    (hnames : L.Names c.index i) :
    Safe L s c ∧ (c.env.acquired = .NOERROR →
      ∃ s', acquireObjByIndex L.toArgs c.env s c.index = some (.ok o, s')) := by
  rcases acquireObjByIndex_reached hinv hreached with ⟨s', -, -, hrun⟩
  rcases acquireAt_entry hlisted hcb c.env.acquired (soundList_elements hinv hlisted) he hrequest
    hobject with ⟨r, elems', hat, hsound, hr, hok⟩
  rw [hposition] at hrun
  dsimp only at hrun
  rw [hat, Option.map_some] at hrun
  constructor
  · refine ⟨r, _, hrun, inv_some hsound, fun o' ho' => ⟨i, hnames, ?_⟩⟩
    rw [hr o' ho']
    exact hobject
  · intro hacquired
    rw [hok hacquired] at hrun
    exact ⟨_, hrun⟩

/-- A position where the call fails. -/
theorem safe_error (hinv : Inv L s) (hreached : Reached L.toArgs s c)
    {i : Nat} (hposition : position L.toArgs (elements L.toArgs s) c.index = some i) (ec : ECode)
    (hat : acquireAt L.toArgs c.env.acquired (elements L.toArgs s) i =
      some (.error ec, elements L.toArgs s)) :
    Safe L s c ∧
      ∃ s', acquireObjByIndex L.toArgs c.env s c.index = some (.error ec, s') := by
  rcases acquireObjByIndex_reached hinv hreached with ⟨s', -, -, hrun⟩
  rw [hposition] at hrun
  dsimp only at hrun
  rw [hat, Option.map_some] at hrun
  refine ⟨⟨_, _, hrun, ?_, fun o ho => by cases ho⟩, _, hrun⟩
  intro elems heq hlisted
  cases heq
  exact soundList_elements hinv hlisted

/-- A position behind the array. -/
theorem undefined_of_length (hinv : Inv L s) (hreached : Reached L.toArgs s c)
    (hlisted : L.isListed = true) {i : Nat}
    (hposition : position L.toArgs (elements L.toArgs s) c.index = some i)
    (hi : L.mTotalCount.toNat ≤ i) :
    acquireObjByIndex L.toArgs c.env s c.index = none := by
  rcases acquireObjByIndex_reached hinv hreached with ⟨s', -, -, hrun⟩
  have hnone : (elements L.toArgs s)[i]? = none := by
    rw [List.getElem?_eq_none_iff, (soundList_elements hinv hlisted).1]
    exact hi
  rw [hposition] at hrun
  rw [hrun]
  dsimp only
  rw [acquireAt, if_neg (by rw [hlisted]; decide), hnone]
  rfl

theorem not_safe_of_none (h : acquireObjByIndex L.toArgs c.env s c.index = none) :
    ¬ ∃ r s', acquireObjByIndex L.toArgs c.env s c.index = some (r, s') ∧
      ∀ o, r = .ok o → ∃ k, L.Names c.index k ∧ L.objectAt k = some o := by
  rintro ⟨r, s', hrun, -⟩
  rw [h] at hrun
  cases hrun

theorem position_plain (h : L.isMethodList ≠ true) (elems : List ObjElement) (index : UInt32) :
    position L.toArgs elems index = some index.toNat := by
  rw [position, if_neg fun hand => h hand.1]

theorem names_plain (h : L.isMethodList ≠ true) (index : UInt32) :
    L.Names index index.toNat := by
  rw [Args.Names, if_neg fun hand => h hand.1]

/-- A list of entries that are found by their position. -/
theorem dir_iff (hinv : Inv L s) (hreached : Reached L.toArgs s c) (h : L.isDirList = true)
    (hmethod : L.isMethodList ≠ true) (hcb : L.mType ≠ .CBMethod) :
    (c.index < L.mTotalCount → Safe L s c) ∧
      (¬ c.index < L.mTotalCount → acquireObjByIndex L.toArgs c.env s c.index = none) := by
  have hlisted := isListed_of_isDirList h
  have hposition := position_plain hmethod (elements L.toArgs s) c.index
  constructor
  · intro hlt
    have hlength : c.index.toNat < (elements L.toArgs s).length := by
      rw [(soundList_elements hinv hlisted).1]
      exact hlt
    have hget := List.getElem?_eq_getElem hlength
    rcases request_dir h hlt (elements L.toArgs s)[c.index.toNat] with ⟨o, hrequest, hobject⟩
    exact (safe_entry hinv hreached hlisted hcb hposition hget hrequest hobject
      (names_plain hmethod c.index)).1
  · intro hge
    exact undefined_of_length hinv hreached hlisted hposition (Nat.not_lt.mp hge)

theorem unlisted_safe (hinv : Inv L s) (hreached : Reached L.toArgs s c)
    (h : L.isListed ≠ true) : Safe L s c := by
  have hmethod : L.isMethodList ≠ true := fun hmethod => h (isListed_of_isMethodList hmethod)
  refine (safe_error hinv hreached (position_plain hmethod _ c.index)
    .E_INVALID_OPERATION ?_).1
  rw [acquireAt, if_pos (Bool.eq_false_iff.mpr h)]

/-- A list whose elements say which directory entry is meant. -/
theorem numbered_iff (hinv : Inv L s) (hreached : Reached L.toArgs s c)
    (h : L.mType = .ClassInterface ∨ L.mType = .TypeAliase) :
    (InRange L.toArgs s c → Safe L s c) ∧ (¬ InRange L.toArgs s c →
      ¬ ∃ r s', acquireObjByIndex L.toArgs c.env s c.index = some (r, s') ∧
        ∀ o, r = .ok o → ∃ k, L.Names c.index k ∧ L.objectAt k = some o) := by
  have hlisted : L.isListed = true := by
    rcases h with h | h <;> rw [Args.isListed, h]
  have hmethod : L.isMethodList ≠ true := by
    rcases h with h | h <;> rw [Args.isMethodList, h] <;> decide
  have hcb : L.mType ≠ .CBMethod := by
    rcases h with h | h <;> rw [h] <;> decide
  -- in these lists the index is the position
  have hposition := position_plain hmethod (elements L.toArgs s) c.index
  have hnames := names_plain hmethod c.index
  have hrange : InRange L.toArgs s c ↔
      ∃ (e : ObjElement) (r : Entry), (elements L.toArgs s)[c.index.toNat]? = some e ∧
        L.entries[c.index.toNat]? = some r ∧
          (c.env.acquired = .NOERROR → e.mIndex = r.element.mIndex) := by
    rcases h with h | h <;> rw [InRange, h]
  rw [hrange]
  have hsound := soundList_elements hinv hlisted
  -- behind the end the code reads what is not there
  by_cases hlt : c.index.toNat < L.mTotalCount.toNat
  swap
  · constructor
    · rintro ⟨e, r, he, -, -⟩
      exact absurd (hsound.1 ▸ (List.getElem?_eq_some_iff.mp he).1) hlt
    · exact fun _ => not_safe_of_none
        (undefined_of_length hinv hreached hlisted hposition (Nat.not_lt.mp hlt))
  have hlength : c.index.toNat < (elements L.toArgs s).length := by
    rw [hsound.1]
    exact hlt
  have he := List.getElem?_eq_getElem hlength
  generalize (elements L.toArgs s)[c.index.toNat] = e at he
  -- in the list it finds the object of the number that is stored
  rcases exists_entry hlisted hlt with ⟨r, hr⟩
  rcases request_numbered h hr (hsound.2 _ _ he) with ⟨o, hrequest, hobject⟩
  rcases acquireObjByIndex_reached hinv hreached with ⟨s', -, -, hrun⟩
  rw [hposition] at hrun
  dsimp only at hrun
  rw [acquireAt_ok hlisted hcb c.env.acquired he hrequest (hsound.2 _ _ he)] at hrun
  constructor
  · rintro ⟨e', r', he', hr', hown⟩
    rw [he] at he'
    rw [hr] at hr'
    cases he'
    cases hr'
    by_cases hindex : e.mIndex = r.element.mIndex
    · exact (safe_entry hinv hreached hlisted hcb hposition he hrequest (hobject.mpr hindex)
        hnames).1
    · -- the object is not kept, and `CObjInfoList` fails
      have hnone : ¬ (e.mObject.isSome = true ∨ c.env.acquired = .NOERROR) := by
        rintro (hsome | hok)
        · rcases Option.isSome_iff_exists.mp hsome with ⟨o', ho'⟩
          rcases (hsound.2 _ _ he).kept o' ho' with ⟨-, hkept, hat⟩
          rw [hrequest, Option.some_inj, Except.ok.injEq] at hkept
          exact hindex (hobject.mp (hkept ▸ hat))
        · exact hindex (hown hok)
      refine (safe_error hinv hreached hposition c.env.acquired ?_).1
      rw [acquireAt_ok hlisted hcb c.env.acquired he hrequest (hsound.2 _ _ he), if_neg hnone]
  · rintro hout ⟨r', s'', hrun', hright⟩
    have hindex : ¬ (c.env.acquired = .NOERROR → e.mIndex = r.element.mIndex) :=
      fun hown => hout ⟨e, r, he, hr, hown⟩
    rcases Classical.not_imp.mp hindex with ⟨hok, hne⟩
    rw [if_pos (Or.inr hok), Option.map_some, hrun', Option.some_inj, Prod.mk.injEq] at hrun
    rcases hright o hrun.1 with ⟨k, hk, hat⟩
    rw [Args.Names, if_neg fun hand => hmethod hand.1] at hk
    exact hne (hobject.mp (hk ▸ hat))

/-- An element of a list of methods with its method stored. -/
theorem own_method (h : L.mType = .Method ∨ L.mType = .Constructor) {i : Nat} {e : ObjElement}
    (hsound : Sound L i e) {desc : Nat × Nat} (hdesc : e.mDesc = some desc) :
    ∃ r : Entry, L.entries[i]? = some r ∧ r.element.mIndex = e.mIndex ∧
      r.element.mDesc = some desc ∧ L.objectAt i = some (methodObj L.toArgs desc e.mIndex) := by
  rcases hsound.own with ⟨r, hr, hindex, hown⟩ | ⟨-, hnone⟩
  · refine ⟨r, hr, hindex.symm, hown ▸ hdesc, ?_⟩
    rw [objectAt_eq_some_iff hr, request_method h, ← hown, hdesc, hindex, Option.elim_some]
  · rw [hdesc] at hnone
    cases hnone

/-- What the element that an index leads to gives. -/
theorem method_led (hinv : Inv L s) (hreached : Reached L.toArgs s c)
    (h : L.mType = .Method ∨ L.mType = .Constructor) {i : Nat} {e : ObjElement}
    (hposition : position L.toArgs (elements L.toArgs s) c.index = some i)
    (he : (elements L.toArgs s)[i]? = some e)
    (hhigh : c.index &&& 0xFFFF0000 ≠ 0 → e.mIndex = c.index)
    (hlow : c.index &&& 0xFFFF0000 = 0 → i = c.index.toNat) :
    Safe L s c ∧
      (e.mDesc = none → ∃ ec s', acquireObjByIndex L.toArgs c.env s c.index =
        some (.error ec, s')) ∧
      ∀ desc, e.mDesc = some desc → c.env.acquired = .NOERROR →
        ∃ s', acquireObjByIndex L.toArgs c.env s c.index =
          some (.ok (methodObj L.toArgs desc e.mIndex), s') := by
  have hmethod : L.isMethodList = true := by
    rcases h with h | h <;> rw [Args.isMethodList, h] <;> decide
  have hlisted := isListed_of_isMethodList hmethod
  have hcb : L.mType ≠ .CBMethod := by
    rcases h with h | h <;> rw [h] <;> decide
  have hsound := (soundList_elements hinv hlisted).2 i e he
  have hrequest := request_method h i e
  -- an element without a descriptor is refused
  cases hdesc : e.mDesc with
  | none =>
    rw [hdesc, Option.elim_none] at hrequest
    rcases safe_error hinv hreached hposition .E_INVALID_ARGUMENT (by
      rw [acquireAt, if_neg (by rw [hlisted]; decide), he, Option.bind_eq_bind, Option.bind_some,
        hrequest]
      rfl) with ⟨hsafe, s', hrun⟩
    exact ⟨hsafe, fun _ => ⟨_, s', hrun⟩, fun desc heq => by cases heq⟩
  | some desc =>
    rw [hdesc, Option.elim_some] at hrequest
    rcases own_method h hsound hdesc with ⟨r, hr, hindex, -, hobject⟩
    have hnames : L.Names c.index i := by
      by_cases hzero : c.index &&& 0xFFFF0000 = 0
      · rw [Args.Names, if_neg fun hand => hand.2 hzero]
        exact hlow hzero
      · rw [Args.Names, if_pos ⟨hmethod, hzero⟩]
        exact ⟨r, hr, hindex.trans (hhigh hzero)⟩
    rcases safe_entry hinv hreached hlisted hcb hposition he hrequest hobject hnames with
      ⟨hsafe, hok⟩
    refine ⟨hsafe, fun heq => (by cases heq), fun desc' heq hacquired => ?_⟩
    cases heq
    exact hok hacquired

/-- The call is not undefined, and an object that is given is that of the entry; without
the invariant. -/
def Given (L : CEntryList) (s : State) (c : Call) : Prop :=
  ∃ r s', acquireObjByIndex L.toArgs c.env s c.index = some (r, s') ∧
    ∀ o, r = .ok o → ∃ k, L.Names c.index k ∧ L.objectAt k = some o

theorem Safe.given (h : Safe L s c) : Given L s c := by
  rcases h with ⟨r, s', hrun, -, hright⟩
  exact ⟨r, s', hrun, hright⟩

/-- An index that the search refuses, or that is the count and no number. -/
theorem not_found_iff (hinv : Inv L s) (hreached : Reached L.toArgs s c)
    (hmethod : L.isMethodList = true)
    (hposition : position L.toArgs (elements L.toArgs s) c.index =
      if c.index = L.mTotalCount then some L.mTotalCount.toNat else none) :
    (c.index ≠ L.mTotalCount → Safe L s c) ∧ (c.index = L.mTotalCount → ¬ Given L s c) ∧
      ∀ o s', acquireObjByIndex L.toArgs c.env s c.index ≠ some (.ok o, s') := by
  by_cases hcount : c.index = L.mTotalCount
  · rw [if_pos hcount] at hposition
    have hnone := undefined_of_length hinv hreached (isListed_of_isMethodList hmethod) hposition
      (Nat.le_refl _)
    refine ⟨fun hne => absurd hcount hne, fun _ => not_safe_of_none hnone, fun o s' => ?_⟩
    rw [hnone]
    intro heq
    cases heq
  · rw [if_neg hcount] at hposition
    rcases acquireObjByIndex_reached hinv hreached with ⟨s', -, hinv', hrun⟩
    rw [hposition] at hrun
    refine ⟨fun _ => ⟨_, s', hrun, hinv', fun o ho => by cases ho⟩, fun h => absurd h hcount,
      fun o s'' => ?_⟩
    rw [hrun]
    intro heq
    cases heq

theorem method_iff (hinv : Inv L s) (hreached : Reached L.toArgs s c)
    (h : L.mType = .Method ∨ L.mType = .Constructor) :
    (InRange L.toArgs s c → Safe L s c) ∧ (¬ InRange L.toArgs s c → ¬ Given L s c) := by
  have hmethod : L.isMethodList = true := by
    rcases h with h | h <;> rw [Args.isMethodList, h] <;> decide
  have hrange : InRange L.toArgs s c ↔ (c.index &&& 0xFFFF0000 ≠ 0 → c.index = L.mTotalCount →
      ∃ e ∈ elements L.toArgs s, e.mIndex = c.index) := by
    rcases h with h | h <;> rw [InRange, h]
  rw [hrange]
  rcases position_cases hmethod hinv hreached with
    ⟨i, e, hposition, -, he, hhigh, hlow⟩ | ⟨hhigh, -, hall, hposition⟩
  · refine ⟨fun _ => (method_led hinv hreached h hposition he hhigh hlow).1, fun hout => ?_⟩
    refine absurd (fun hne _ => ⟨e, List.mem_of_getElem? he, hhigh hne⟩) hout
  · rcases not_found_iff hinv hreached hmethod hposition with ⟨hsafe, hbad, -⟩
    by_cases hcount : c.index = L.mTotalCount
    · refine ⟨fun hin => ?_, fun _ => hbad hcount⟩
      rcases hin hhigh hcount with ⟨e, he, hindex⟩
      exact absurd hindex (hall e he)
    · exact ⟨fun _ => hsafe hcount, fun hout => absurd (fun _ heq => absurd heq hcount) hout⟩

theorem callback_iff (hinv : Inv L s) (hreached : Reached L.toArgs s c)
    (h : L.mType = .CBMethod) :
    (InRange L.toArgs s c → Safe L s c) ∧ (¬ InRange L.toArgs s c → ¬ Given L s c) := by
  have hmethod : L.isMethodList = true := by
    rw [Args.isMethodList, h]
    decide
  have hrange : InRange L.toArgs s c ↔ (c.index &&& 0xFFFF0000 ≠ 0 ∧ c.index ≠ L.mTotalCount ∧
      ∀ e ∈ elements L.toArgs s, e.mIndex ≠ c.index) := by
    rw [InRange, h]
  rw [hrange]
  rcases position_cases hmethod hinv hreached with
    ⟨i, e, hposition, -, he, hhigh, -⟩ | ⟨hhigh, -, hall, hposition⟩
  · constructor
    · rintro ⟨hne, -, hnone⟩
      exact absurd (hhigh hne) (hnone e (List.mem_of_getElem? he))
    · intro _
      rcases acquireObjByIndex_reached hinv hreached with ⟨s', -, -, hrun⟩
      rw [hposition] at hrun
      dsimp only at hrun
      rw [acquireAt_callback h _
        (soundList_elements hinv (isListed_of_isMethodList hmethod))] at hrun
      exact not_safe_of_none hrun
  · rcases not_found_iff hinv hreached hmethod hposition with ⟨hsafe, hbad, -⟩
    constructor
    · exact fun hin => hsafe hin.2.1
    · intro hout
      by_cases hcount : c.index = L.mTotalCount
      · exact hbad hcount
      · exact absurd ⟨hhigh, hcount, hall⟩ hout

/-- What kinds of lists there are. -/
theorem type_cases (L : Args) :
    L.isListed ≠ true ∨ (L.isDirList = true ∧ L.isMethodList ≠ true ∧ L.mType ≠ .CBMethod) ∨
      (L.mType = .ClassInterface ∨ L.mType = .TypeAliase) ∨
        (L.mType = .Method ∨ L.mType = .Constructor) ∨ L.mType = .CBMethod := by
  rw [Args.isListed, Args.isDirList, Args.isMethodList]
  generalize L.mType = type
  cases type <;> decide

/-- The first part of the answer: the index is in range when it goes past the check. -/
theorem safe_iff (hinv : Inv L s) :
    ((Reached L.toArgs s c → InRange L.toArgs s c) → Safe L s c) ∧
      (¬ (Reached L.toArgs s c → InRange L.toArgs s c) → ¬ Given L s c) := by
  by_cases hreached : Reached L.toArgs s c
  swap
  · refine ⟨fun _ => ?_, fun h => absurd (fun hr => absurd hr hreached) h⟩
    rcases acquireObjByIndex_refused hinv hreached with ⟨ec, s', hrun, hinv'⟩
    exact ⟨_, s', hrun, hinv', fun o ho => by cases ho⟩
  suffices hiff :
      (InRange L.toArgs s c → Safe L s c) ∧ (¬ InRange L.toArgs s c → ¬ Given L s c) from
    ⟨fun h => hiff.1 (h hreached), fun h => hiff.2 fun hin => h fun _ => hin⟩
  rcases type_cases L.toArgs with h | ⟨hdir, hmethod, hcb⟩ | h | h | h
  · have hin : InRange L.toArgs s c := by
      rw [Args.isListed] at h
      rw [InRange]
      generalize L.mType = type at *
      cases type with
      | _ => trivial
    exact ⟨fun _ => unlisted_safe hinv hreached h, fun hout => absurd hin hout⟩
  · have hrange : InRange L.toArgs s c ↔ c.index < L.mTotalCount := by
      rw [Args.isDirList] at hdir
      rw [InRange]
      generalize L.mType = type at *
      cases type with
      | _ =>
        first
          | exact Iff.rfl
          | cases hdir
    rw [hrange]
    rcases dir_iff hinv hreached hdir hmethod hcb with ⟨hsafe, hnone⟩
    exact ⟨hsafe, fun hout => not_safe_of_none (hnone hout)⟩
  · exact numbered_iff hinv hreached h
  · exact method_iff hinv hreached h
  · exact callback_iff hinv hreached h

/-- The second part: the number of a method. -/
theorem number_iff (hinv : Inv L s) (hmethod : L.isMethodList = true)
    (hfine : Fine L.toArgs c.env) {k : Nat} {r : Entry} (hr : L.entries[k]? = some r)
    (hindex : r.element.mIndex = c.index) :
    (∃ o s', acquireObjByIndex L.toArgs c.env s c.index = some (.ok o, s') ∧
        L.objectAt k = some o) ↔
      L.mType ≠ .CBMethod ∧ c.index &&& 0xFFFF < L.mTotalCount ∧
        ∃ e, led L.toArgs s c.index = some e ∧ e.mIndex = c.index ∧
          e.mDesc = r.element.mDesc := by
  have hlisted := isListed_of_isMethodList hmethod
  have hopens : Opens L.toArgs s c.env := Or.inr ⟨hfine.1, hfine.2.1, hlisted, hfine.2.2.1⟩
  -- the lower half of the index has to be in the list
  by_cases hlow : c.index &&& 0xFFFF < L.mTotalCount
  swap
  · refine iff_of_false ?_ fun h => hlow h.2.1
    rcases acquireObjByIndex_refused hinv fun h : Reached L.toArgs s c => hlow h.1 with
      ⟨ec, s', hrun, -⟩
    rintro ⟨o, s'', hrun', -⟩
    rw [hrun] at hrun'
    cases hrun'
  have hreached : Reached L.toArgs s c := ⟨hlow, hopens⟩
  -- callback methods have no objects
  by_cases hcb : L.mType = .CBMethod
  · refine iff_of_false ?_ fun h => h.1 hcb
    rcases position_cases hmethod hinv hreached with
      ⟨i, e, hposition, -, -, -, -⟩ | ⟨-, -, -, hposition⟩
    · rcases acquireObjByIndex_reached hinv hreached with ⟨s', -, -, hrun⟩
      rw [hposition] at hrun
      dsimp only at hrun
      rw [acquireAt_callback hcb _ (soundList_elements hinv hlisted)] at hrun
      rintro ⟨o, s'', hrun', -⟩
      rw [hrun] at hrun'
      cases hrun'
    · rintro ⟨o, s'', hrun', -⟩
      exact (not_found_iff hinv hreached hmethod hposition).2.2 o s'' hrun'
  have h : L.mType = .Method ∨ L.mType = .Constructor := by
    rw [Args.isMethodList, decide_eq_true_eq] at hmethod
    rcases hmethod with h | h | h
    · exact Or.inl h
    · exact Or.inr h
    · exact absurd h hcb
  rcases Option.isSome_iff_exists.mp (method_mDesc hmethod (List.mem_of_getElem? hr)) with
    ⟨desc, hdesc⟩
  -- the object that the index asks for, by the descriptor of its own entry
  have hobject : L.objectAt k = some (methodObj L.toArgs desc c.index) := by
    rw [objectAt_eq_some_iff hr, request_method h, hdesc, hindex, Option.elim_some]
  -- the position leads to some entry, or to none
  rcases position_cases hmethod hinv hreached with
    ⟨i, e, hposition, hled, he, hhigh, hzero⟩ | ⟨-, hled, -, hposition⟩
  · rcases method_led hinv hreached h hposition he hhigh hzero with ⟨-, hnone, hsome⟩
    constructor
    · rintro ⟨o, s', hrun, hat⟩
      cases hown : e.mDesc with
      | none =>
        rcases hnone hown with ⟨ec, s'', hrun'⟩
        rw [hrun] at hrun'
        cases hrun'
      | some desc' =>
        rcases hsome desc' hown hfine.2.2.2 with ⟨s'', hrun'⟩
        rw [hrun, Option.some_inj, Prod.mk.injEq, Except.ok.injEq] at hrun'
        rw [hobject, Option.some_inj, hrun'.1, methodObj_inj] at hat
        exact ⟨hcb, hlow, e, hled, hat.2.symm, by rw [hown, hdesc, hat.1]⟩
    · rintro ⟨-, -, e', hled', hindex', hdesc'⟩
      rw [hled] at hled'
      cases hled'
      rcases hsome desc (hdesc'.trans hdesc) hfine.2.2.2 with ⟨s', hrun⟩
      refine ⟨_, s', hrun, ?_⟩
      rw [hobject, hindex']
  · refine iff_of_false ?_ ?_
    · rintro ⟨o, s', hrun, -⟩
      exact (not_found_iff hinv hreached hmethod hposition).2.2 o s' hrun
    · rintro ⟨-, -, e, hled', -⟩
      rw [hled] at hled'
      cases hled'

/-- One call answers exactly when it is careful, and keeps the list then. -/
theorem call_iff (hinv : Inv L s) :
    (Answers L.toArgs s c ↔ Careful L.toArgs s c) ∧
      (Careful L.toArgs s c → Inv L ((byIndex L.toArgs).step s c)) := by
  rcases safe_iff (c := c) hinv with ⟨hsafe, hbad⟩
  constructor
  · constructor
    · rintro ⟨hgiven, hnumber⟩
      refine ⟨not_not.mp fun hout => hbad hout hgiven, fun hmethod hfine k r hr hindex => ?_⟩
      exact (number_iff hinv hmethod hfine hr hindex).mp (hnumber hmethod hfine k r hr hindex)
    · rintro ⟨hrange, hnumber⟩
      refine ⟨(hsafe hrange).given, fun hmethod hfine k r hr hindex => ?_⟩
      exact (number_iff hinv hmethod hfine hr hindex).mpr (hnumber hmethod hfine k r hr hindex)
  · intro hcareful
    rcases hsafe hcareful.1 with ⟨r, s', hrun, hinv', -⟩
    simp only [byIndex, hrun, Option.map_some, Option.getD_some]
    exact hinv'

end Answers

/-- In every run of calls on a list that was just made, each call answers as it should
exactly as long as each is careful. -/
theorem entry_access_iff (L : CEntryList) (calls : List Call) :
    (byIndex L.toArgs).AllSteps (Answers L.toArgs) State.new calls ↔
      (byIndex L.toArgs).AllSteps (Careful L.toArgs) State.new calls :=
  (byIndex L.toArgs).allSteps_iff_of_invariant (I := Inv L)
    (fun _ _ hinv hcareful => (call_iff hinv).2 hcareful) (fun _ _ hinv => (call_iff hinv).1)
    (inv_new L) calls

/-! ## An index with an upper half -/

/-- A module with one struct. -/
def oneStruct : CEntryList where
  mType := .Struct
  mTotalCount := 1
  mClsMod :=
    { mClassDirs := []
      mInterfaceDirs := []
      mStructDirs := [⟨⟨[83], by decide⟩, none⟩]
      mEnumDirs := []
      mAliasDirs := []
      mConstDirs := []
      interfaceDesc := fun _ => [] }
  mDesc := ⟨[], []⟩
  mIFList := []
  mCBMethodDesc := []
  counted := rfl

/-- The index `0x10000` is not refused, and reaches behind the one element. -/
theorem upper_half_out_of_range :
    ¬ ∀ (L : CEntryList) (calls : List Call),
      (byIndex L.toArgs).AllSteps (Answers L.toArgs) State.new calls := by
  intro h
  rcases (h oneStruct [⟨⟨true, fun _ => true, .NOERROR⟩, 0x10000⟩]).1.1 with ⟨r, s', hrun, -⟩
  have hnone : (acquireObjByIndex oneStruct.toArgs ⟨true, fun _ => true, .NOERROR⟩ State.new
      0x10000).isNone = true := by decide
  rw [hrun] at hnone
  cases hnone

end SuperExe.Reflection.Entries
