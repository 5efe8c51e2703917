import SuperExe.Reflection.EntryNames
import SuperExe.Reflection.LockBalance

/-! # Initialisation that fails

`CEntryList::InitElemList` fills the elements and `mHTIndexs` in place, and
`CObjInfoList::AcquireModuleInfo` puts the class module into its table before it has the
module. A failure in the middle leaves a part of the table, or the entry of a class module
that is deleted (`failed_init_iff`).
-/

namespace SuperExe.Reflection.FailedInit

open SuperExe.Lib SuperExe.Core

/-! ## The elements of a list -/

section Lists

open Entries

/-- A list of one of the types that are used. -/
structure ListedList extends CEntryList where
  listed : toArgs.isListed = true

variable (P : LoadPlatform) (L : ListedList)

/-- `InitElemList`, again and again. -/
def lists : Machine NameState NameEnv where
  step s env := ((initNames L.toArgs P.toPlatform env s).map Prod.snd).getD s

/-- Every element is filled, and every key is found, at an entry of that key. -/
def Complete (s : NameState) : Prop :=
  s.list.mObjElement.map (·.map fun e => (e.mIndex, e.mDesc)) =
      some (L.entries.map fun r => (r.element.mIndex, r.element.mDesc)) ∧
    ∀ r ∈ L.entries, ∃ k, (L.entries[k]?).map (·.strKey) = some r.strKey ∧
      s.mHTIndexs.get P.toPlatform .string (some r.strKey.bytes) = some (some (UInt32.ofNat k))

/-- A call that runs out of memory leaves the list as it was, and after one that succeeds it
is complete. -/
def ListAtomic (s : NameState) (env : NameEnv) : Prop :=
  ∀ ec s', initNames L.toArgs P.toPlatform env s = some (ec, s') →
    (ec = .E_OUT_OF_MEMORY → s' = s) ∧ (ec = .NOERROR → Complete P L s')

/-- Every `Put` of the entries succeeds. -/
def Stored (alloc : Nat → HashTable.Alloc) : List Entry → Nat → HashTable UInt32 → Prop
  | [], _, _ => True
  | r :: rest, n, h =>
    ∃ h', h.put P.toPlatform .string (some r.strKey.bytes) (some (UInt32.ofNat n)) (alloc n) =
      some (true, h') ∧ Stored alloc rest (n + 1) h'

/-- The list has entries but no elements, and there is memory for them. -/
def Begins (s : NameState) (env : NameEnv) : Prop :=
  L.mTotalCount ≠ 0 ∧ s.list.mObjElement = none ∧ env.alloc = true ∧
    sizeofObjElement * L.mTotalCount.toNat < 2 ^ 32

/-- If the elements are filled, every entry is stored. -/
def FillsAll (s : NameState) (env : NameEnv) : Prop :=
  Begins L s env → Stored P env.put L.entries 0 s.mHTIndexs

variable {P} {L}

/-- The loop comes to its end exactly if every `Put` succeeds. -/
theorem fillNames_stored {alloc : Nat → HashTable.Alloc} {rest : List Entry} {n : Nat}
    {elems elems' : List ObjElement} {h h' : HashTable UInt32} {ec : ECode}
    (hrun : fillNames L.toArgs P.toPlatform alloc rest n elems h = some (ec, elems', h'))
    (hec : ec = .NOERROR ∨ ec = .E_OUT_OF_MEMORY) :
    ec = .NOERROR ↔ Stored P alloc rest n h := by
  induction rest generalizing n elems h with
  | nil =>
    rw [fillNames] at hrun
    cases hrun
    exact iff_of_true rfl trivial
  | cons r rest ih =>
    rw [fillNames] at hrun
    split at hrun
    · cases hrun
      rcases hec with hec | hec <;> cases hec
    split at hrun
    swap
    · cases hrun
    rw [Option.bind_eq_bind, Option.bind_eq_some_iff] at hrun
    rcases hrun with ⟨⟨done, h₁⟩, hput, hrun⟩
    rw [Stored, hput]
    dsimp only at hrun
    cases done with
    | false =>
      cases hrun
      refine iff_of_false (by decide) ?_
      rintro ⟨h₂, heq, -⟩
      cases heq
    | true =>
      rw [if_pos rfl] at hrun
      rw [ih hrun]
      constructor
      · exact fun hstored => ⟨h₁, rfl, hstored⟩
      · rintro ⟨h₂, heq, hstored⟩
        cases heq
        exact hstored

/-- A list that is opened is complete. -/
theorem Complete.of_opened {s : NameState} {elems : List ObjElement}
    (hopened : Opened P L.toCEntryList s elems) : Complete P L s := by
  rcases hopened with ⟨hlist, hfull, m, hinv, hindexes⟩
  constructor
  · have hpairs : elems.map (fun e => (e.mIndex, e.mDesc)) =
        L.entries.map fun r => (r.element.mIndex, r.element.mDesc) := by
      have hindex := hfull.mIndex
      have hdesc := hfull.mDesc
      rw [List.map_eq_iff] at hindex hdesc ⊢
      intro k
      have hi := hindex k
      have hd := hdesc k
      cases helem : elems[k]? <;> cases hentry : L.entries[k]? <;> simp_all
    rw [hlist, Option.map_some, hpairs]
  · intro r hr
    rcases exists_last (List.mem_map_of_mem hr) with ⟨k, hlast⟩
    refine ⟨k, by rw [← List.getElem?_map]; exact hlast.1, ?_⟩
    have hget := hinv.refines.get r.strKey.bytes r.strKey.noNul
    rw [hget, (hindexes r.strKey (UInt32.ofNat k)).mpr ⟨k, rfl, hlast⟩]

variable {s : NameState} {env : NameEnv}

/-- A call with an answer that is known. -/
theorem listAtomic_iff {ec : ECode} {s' : NameState}
    (hrun : initNames L.toArgs P.toPlatform env s = some (ec, s')) :
    ListAtomic P L s env ↔ (ec = .E_OUT_OF_MEMORY → s' = s) ∧ (ec = .NOERROR → Complete P L s') := by
  constructor
  · exact fun h => h ec s' hrun
  · intro h ec' s'' hrun'
    rw [hrun] at hrun'
    cases hrun'
    exact h

theorem step_lists {ec : ECode} {s' : NameState}
    (hrun : initNames L.toArgs P.toPlatform env s = some (ec, s')) :
    (lists P L).step s env = s' := by
  simp only [lists, hrun, Option.map_some, Option.getD_some]

/-- A call on a list that is new, with memory for the elements. -/
theorem initNames_begins (hbegins : Begins L (NameState.new P.toPlatform) env) :
    ∃ ec elems h', initNames L.toArgs P.toPlatform env (NameState.new P.toPlatform) =
        some (ec, ⟨⟨some elems⟩, h'⟩) ∧
      (ec = .NOERROR ∨ ec = .E_OUT_OF_MEMORY) ∧
      (ec = .NOERROR → Opened P L.toCEntryList ⟨⟨some elems⟩, h'⟩ elems) ∧
      (ec = .NOERROR ↔
        Stored P env.put L.entries 0 (NameState.new P.toPlatform).mHTIndexs) := by
  rcases hbegins with ⟨hne, -, halloc, hsmall⟩
  have hlisted := L.listed
  rcases fillNames_spec hlisted hsmall env.put [] L.entries rfl (roomy_new P) (inv_new_table P)
    indexes_nil with ⟨ec, elems, h', hrun, hec, -, hall⟩
  rw [List.map_nil, List.nil_append, (entries_spec hlisted).2, List.length_nil] at hrun
  refine ⟨ec, elems, h', ?_, hec, ?_, fillNames_stored hrun hec⟩
  · have hroom : ¬ (env.alloc = false ∨ 2 ^ 32 ≤ sizeofObjElement * L.mTotalCount.toNat) := by
      rw [halloc, not_or]
      exact ⟨Bool.noConfusion, Nat.not_le.mpr hsmall⟩
    rw [initNames, if_neg hne, if_neg (by intro h; cases h), if_neg hroom]
    dsimp only
    rw [if_neg (by rw [hlisted]; decide), (entries_spec hlisted).1, Option.bind_eq_bind,
      Option.bind_some]
    have hrun' : fillNames L.toArgs P.toPlatform env.put L.entries 0
        (List.replicate L.mTotalCount.toNat ObjElement.zero)
        (NameState.new P.toPlatform).mHTIndexs = some (ec, elems, h') := hrun
    rw [hrun', Option.bind_eq_bind, Option.bind_some]
  · intro hok
    rcases hall hok with ⟨rfl, hmap⟩
    exact ⟨rfl, full_entries hlisted, hmap⟩

/-- From a list that is new or complete, a call is atomic exactly if it stores all entries,
and it leaves the list complete then, if it changes it. -/
theorem list_step (hinv : Named P L.toCEntryList s) :
    (ListAtomic P L s env ↔ FillsAll P L s env) ∧
      (FillsAll P L s env → Named P L.toCEntryList ((lists P L).step s env)) := by
  by_cases hbegins : Begins L s env
  · -- the list is new, and its elements are made
    rcases hinv with rfl | ⟨elems, hopened⟩
    swap
    · have hnone := hbegins.2.1
      rw [hopened.1] at hnone
      cases hnone
    rcases initNames_begins hbegins with ⟨ec, elems, h', hrun, hec, hall, hstored⟩
    have hfills : FillsAll P L (NameState.new P.toPlatform) env ↔ ec = .NOERROR := by
      rw [hstored]
      exact ⟨fun h => h hbegins, fun h _ => h⟩
    rw [listAtomic_iff hrun, step_lists hrun, hfills]
    rcases hec with rfl | rfl
    · have hopened := hall rfl
      refine ⟨iff_of_true ⟨fun h => ?_, fun _ => Complete.of_opened hopened⟩ rfl, ?_⟩
      · cases h
      · exact fun _ => Or.inr ⟨elems, hopened⟩
    · refine ⟨iff_of_false (fun h => ?_) (by decide), fun h => by cases h⟩
      -- the elements are there, and with them the mark that they are filled
      have hlist := congrArg (fun s => s.list.mObjElement) (h.1 rfl)
      cases hlist
  · have hfills : FillsAll P L s env := fun h => absurd h hbegins
    by_cases hne : L.mTotalCount = 0
    · have hrun : initNames L.toArgs P.toPlatform env s = some (.E_DOES_NOT_EXIST, s) := by
        rw [initNames, if_pos hne]
      rw [listAtomic_iff hrun, step_lists hrun]
      refine ⟨iff_of_true ⟨fun h => ?_, fun h => ?_⟩ hfills, fun _ => hinv⟩
      · cases h
      · cases h
    · rcases hinv with rfl | ⟨elems, hopened⟩
      · have hroom : env.alloc = false ∨ 2 ^ 32 ≤ sizeofObjElement * L.mTotalCount.toNat := by
          by_contra hno
          rw [not_or, Bool.not_eq_false, Nat.not_le] at hno
          exact hbegins ⟨hne, rfl, hno⟩
        have hrun : initNames L.toArgs P.toPlatform env (NameState.new P.toPlatform) =
            some (.E_OUT_OF_MEMORY, NameState.new P.toPlatform) := by
          rw [initNames, if_neg hne, if_neg (by intro h; cases h), if_pos hroom]
        rw [listAtomic_iff hrun, step_lists hrun]
        refine ⟨iff_of_true ⟨fun _ => rfl, fun h => ?_⟩ hfills, fun _ => Or.inl rfl⟩
        cases h
      · have hsome : s.list.mObjElement.isSome = true := by
          rw [hopened.1]
          rfl
        have hrun : initNames L.toArgs P.toPlatform env s = some (.NOERROR, s) := by
          rw [initNames, if_neg hne, if_pos hsome]
        rw [listAtomic_iff hrun, step_lists hrun]
        refine ⟨iff_of_true ⟨fun h => ?_, fun _ => .of_opened hopened⟩ hfills, ?_⟩
        · cases h
        · exact fun _ => Or.inr ⟨elems, hopened⟩

end Lists

/-! ## The class modules of the registry -/

section Modules

open InfoList LockBalance
open InfoList.ECode
open Entries (EntryType)

def classObject (name : Text) (mRef : Nat) : Object :=
  ⟨some .ClsModule, mRef, .table .mClsModule (.path name), [], .entry⟩

def moduleObject (name : Text) (clsModule : Nat) : Object :=
  ⟨some .Module, 1, .table .mModInfos (.path name), [clsModule], .entry⟩

/-- A class module that is made and stands in the table, before anything holds it. -/
def loaded (s : CObjInfoList) (name : Text) (allocs : List Bool) : CObjInfoList :=
  { s with
    next := s.next + 1
    allocs := allocs
    objects := Function.update s.objects s.next (some (classObject name 0))
    tables := Function.update s.tables .mClsModule
      (Function.update (s.tables .mClsModule) (.path name) (some s.next)) }

/-- No object is at an address that is still to be used, and an entry of `mClsModule` leads
to an object that knows its place there and is held. -/
structure Sound (s : CObjInfoList) : Prop where
  fresh : ∀ o, s.next ≤ o → s.objects o = none
  live : ∀ key c, s.tables .mClsModule key = some c → ∃ object, s.objects c = some object ∧
    object.place = .table .mClsModule key ∧ 1 ≤ object.mRef

theorem sound_empty : Sound .empty where
  fresh := fun _ _ => rfl
  live := fun _ _ h => by cases h

variable {s s' : CObjInfoList}

theorem Sound.rest (hs : Sound s) (hnext : s'.next = s.next) (hobjects : s'.objects = s.objects)
    (htables : s'.tables = s.tables) : Sound s' where
  fresh := by
    rw [hnext, hobjects]
    exact hs.fresh
  live := by
    rw [htables, hobjects]
    exact hs.live

/-- An entry of the table of the class modules leads to an address that is used. -/
theorem Sound.lt_next (hs : Sound s) {key : Key} {c : Nat}
    (h : s.tables .mClsModule key = some c) : c < s.next := by
  rcases hs.live key c h with ⟨object, hobject, -⟩
  by_contra hno
  rw [hs.fresh c (Nat.not_lt.mp hno)] at hobject
  cases hobject

theorem Sound.create (hs : Sound s) (object : Object) : Sound
    { s with next := s.next + 1, objects := Function.update s.objects s.next (some object) } where
  fresh := by
    intro o ho
    have hne : o ≠ s.next := Nat.ne_of_gt ho
    dsimp only
    rw [Function.update_of_ne hne]
    exact hs.fresh o (Nat.le_of_succ_le ho)
  live := by
    intro key c hc
    have hne : c ≠ s.next := Nat.ne_of_lt (hs.lt_next hc)
    dsimp only
    rw [Function.update_of_ne hne]
    exact hs.live key c hc

/-- An object that is there is changed, but stays in its place and is held as before. -/
theorem Sound.setObject (hs : Sound s) {o : Nat} {object object' : Object}
    (ho : s.objects o = some object) (hplace : object'.place = object.place)
    (hheld : 1 ≤ object.mRef → 1 ≤ object'.mRef) :
    Sound { s with objects := Function.update s.objects o (some object') } where
  fresh := by
    intro a ha
    have hne : a ≠ o := by
      rintro rfl
      rw [hs.fresh a ha] at ho
      cases ho
    dsimp only
    rw [Function.update_of_ne hne]
    exact hs.fresh a ha
  live := by
    intro key c hc
    rcases hs.live key c hc with ⟨x, hx, hxplace, hxheld⟩
    by_cases heq : c = o
    · subst heq
      rw [ho] at hx
      cases hx
      exact ⟨object', Function.update_self .., hplace.trans hxplace, hheld hxheld⟩
    · dsimp only
      rw [Function.update_of_ne heq]
      exact ⟨x, hx, hxplace, hxheld⟩

theorem Sound.change (hs : Sound s) (o : Nat) {g : Object → Object}
    (hg : ∀ object, (g object).place = object.place ∧ object.mRef ≤ (g object).mRef) :
    Sound { s with objects := Function.update s.objects o ((s.objects o).map g) } := by
  cases ho : s.objects o with
  | none =>
    have hsame : Function.update s.objects o none = s.objects := by
      rw [← ho]
      exact Function.update_eq_self o s.objects
    rw [Option.map_none, hsame]
    exact hs
  | some object =>
    exact hs.setObject ho (hg object).1 fun h => Nat.le_trans h (hg object).2

theorem Sound.put (hs : Sound s) {t : Table} (ht : t ≠ .mClsModule) (f : Key → Option Nat) :
    Sound { s with tables := Function.update s.tables t f } where
  fresh := hs.fresh
  live := by
    intro key c hc
    dsimp only at hc
    rw [Function.update_of_ne ht.symm] at hc
    exact hs.live key c hc

/-- An object that is held enters the table of the class modules. -/
theorem Sound.enter (hs : Sound s) {key : Key} {c : Nat} {object : Object}
    (hc : s.objects c = some object) (hplace : object.place = .table .mClsModule key)
    (hheld : 1 ≤ object.mRef) :
    Sound
      { s with
        tables := Function.update s.tables .mClsModule
          (Function.update (s.tables .mClsModule) key (some c)) } where
  fresh := hs.fresh
  live := by
    intro key' c' h
    dsimp only at h ⊢
    rw [Function.update_self] at h
    by_cases heq : key' = key
    · subst heq
      rw [Function.update_self] at h
      cases h
      exact ⟨object, hc, hplace, hheld⟩
    · rw [Function.update_of_ne heq] at h
      exact hs.live key' c' h

/-- A class module in the table, once it is held. -/
theorem Sound.entered (hs : Sound s) (name : Text) (allocs : List Bool) :
    Sound
      { loaded s name allocs with
        objects := Function.update s.objects s.next (some (classObject name 1)) } := by
  have hself : Function.update s.objects s.next (some (classObject name 1)) s.next =
      some (classObject name 1) := Function.update_self ..
  have hcreated := hs.create (classObject name 1)
  exact (hcreated.enter hself rfl (Nat.le_refl 1)).rest rfl rfl rfl

/-- An object that is taken out of its place may go. -/
theorem Sound.drop (hs : Sound s) {o : Nat} {object : Object} (ho : s.objects o = some object)
    (htake : takeOut o object.place s = some ((), s')) :
    Sound { s' with objects := Function.update s'.objects o none } := by
  -- what is taken out of its table is not found there again
  have hkey : ∀ key, s'.tables .mClsModule key = some o →
      object.place = .table .mClsModule key → False := by
    intro key hkey hplace
    rw [hplace] at htake
    cases htake
    simp at hkey
  -- and all others stay
  have hsame : s'.next = s.next ∧ s'.objects = s.objects ∧
      ∀ key c, s'.tables .mClsModule key = some c → s.tables .mClsModule key = some c := by
    cases hplace : object.place with
    | table t key =>
      rw [hplace] at htake
      cases htake
      refine ⟨rfl, rfl, fun key' c hc => ?_⟩
      by_cases ht : t = .mClsModule
      · subst ht
        by_cases heq : key' = key
        · subst heq
          simp at hc
        · simpa [Function.update_of_ne heq] using hc
      · simpa [Function.update_of_ne (Ne.symm ht)] using hc
    | list h =>
      rw [hplace] at htake
      cases htake
      exact ⟨rfl, rfl, fun _ _ hc => hc⟩
    | nowhere =>
      rw [hplace] at htake
      cases htake
      exact ⟨rfl, rfl, fun _ _ hc => hc⟩
  rcases hsame with ⟨hnext, hobjects, htables⟩
  constructor
  · intro a ha
    dsimp only at ha ⊢
    by_cases heq : a = o
    · rw [heq, Function.update_self]
    · rw [Function.update_of_ne heq, hobjects]
      exact hs.fresh a (hnext ▸ ha)
  · intro key c hc
    dsimp only at hc ⊢
    rcases hs.live key c (htables key c hc) with ⟨x, hx, hplace, hheld⟩
    have hne : c ≠ o := by
      rintro rfl
      rw [ho] at hx
      cases hx
      exact hkey key hc hplace
    rw [Function.update_of_ne hne, hobjects]
    exact ⟨x, hx, hplace, hheld⟩

theorem sound_releaseAll {release : Nat → Call Unit}
    (h : ∀ o s s', Sound s → release o s = some ((), s') → Sound s') {objects : List Nat}
    (hs : Sound s) (hrun : releaseAll release objects s = some ((), s')) : Sound s' := by
  induction objects generalizing s with
  | nil =>
    cases hrun
    exact hs
  | cons o rest ih =>
    rw [releaseAll, Action.bind_run, Option.bind_eq_some_iff] at hrun
    rcases hrun with ⟨⟨⟨⟩, s₁⟩, hfirst, hrest⟩
    exact ih (h o s s₁ hs hfirst) hrest

theorem sound_dropRef {release : Nat → Call Unit}
    (h : ∀ o s s', Sound s → release o s = some ((), s') → Sound s') {o : Nat} {object : Object}
    (hs : Sound s) (ho : s.objects o = some object)
    (hrun : dropRef release o object s = some ((), s')) : Sound s' := by
  rw [dropRef] at hrun
  split at hrun
  · rw [Action.bind_run, Option.bind_eq_some_iff] at hrun
    rcases hrun with ⟨⟨⟨⟩, s₁⟩, htake, hrest⟩
    exact sound_releaseAll h (hs.drop ho htake) hrest
  · next hmore =>
    cases hrun
    exact hs.setObject ho rfl fun _ => Nat.le_sub_of_add_le (Nat.not_le.mp hmore)

/-- A `Release` takes a class module out of the table with its last reference. -/
theorem sound_release {depth o : Nat} (hs : Sound s)
    (hrun : release depth o s = some ((), s')) : Sound s' := by
  induction depth generalizing o s s' with
  | zero => cases hrun
  | succ depth ih =>
    rw [release, Action.bind_run, Action.gets_run, Option.bind_some] at hrun
    cases ho : s.objects o with
    | none =>
      rw [ho] at hrun
      cases hrun
      exact hs
    | some object =>
      rw [ho] at hrun
      dsimp only at hrun
      cases htype : object.type with
      | none =>
        rw [htype] at hrun
        exact sound_dropRef (fun _ _ _ => ih) hs ho hrun
      | some type =>
        rw [htype] at hrun
        simp only [Action.bind_run, lockHashTable, unlockHashTable, Action.modify_run,
          Option.bind_some, Option.bind_eq_some_iff] at hrun
        rcases hrun with ⟨⟨⟨⟩, s₁⟩, hdrop, hrest⟩
        cases hrest
        have hlocked : Sound { s with held := s.held + lockCalls type } := hs.rest rfl rfl rfl
        have hdropped := sound_dropRef (fun _ _ _ => ih) hlocked ho hdrop
        exact hdropped.rest rfl rfl rfl

/-- Nothing but the allocations that are to come has changed. -/
def OnlyAllocs {α : Type} (f : Call α) : Prop :=
  ∀ s a s', f s = some (a, s') → s' = { s with allocs := s'.allocs }

theorem onlyAllocs_alloc : OnlyAllocs alloc := by
  intro s a s' hrun
  unfold alloc at hrun
  split at hrun
  · cases hrun
    rfl
  · cases hrun
    rfl

theorem OnlyAllocs.pure {α : Type} (a : α) : OnlyAllocs (Pure.pure a : Call α) := by
  intro s b s' hrun
  cases hrun
  rfl

theorem OnlyAllocs.bind {α β : Type} {f : Call α} {g : α → Call β} (hf : OnlyAllocs f)
    (hg : ∀ a, OnlyAllocs (g a)) : OnlyAllocs (f >>= g) := by
  intro s b s'' hrun
  rw [Action.bind_run, Option.bind_eq_some_iff] at hrun
  rcases hrun with ⟨⟨a, s'⟩, hfirst, hrest⟩
  rw [hg a s' b s'' hrest, hf s a s' hfirst]

theorem onlyAllocs_initInfos (n : Nat) : OnlyAllocs (DynamicTypes.initInfos n) := by
  have hmany : ∀ n, OnlyAllocs (allocMany n) := by
    intro n
    induction n with
    | zero => exact .pure true
    | succ n ih =>
      refine onlyAllocs_alloc.bind fun granted => ?_
      cases granted with
      | true => exact ih
      | false => exact .pure false
  refine onlyAllocs_alloc.bind fun granted => ?_
  cases granted with
  | true => exact (hmany n).bind fun _ => .pure _
  | false => exact .pure _

theorem sound_addInfoNode {o : Nat} {head : Head} {stored : Bool} (hs : Sound s)
    (hrun : addInfoNode o head s = some (stored, s')) : Sound s' := by
  rw [addInfoNode, Action.bind_run, Option.bind_eq_some_iff] at hrun
  rcases hrun with ⟨⟨granted, s₁⟩, halloc, hrun⟩
  have hs₁ : Sound s₁ := by
    rw [onlyAllocs_alloc _ _ _ halloc]
    exact hs.rest rfl rfl rfl
  dsimp only at hrun
  split at hrun
  · cases hrun
    exact hs₁.rest rfl rfl rfl
  · cases hrun
    exact hs₁

/-- A new object is filled and put into a list, or it is released again. -/
theorem sound_fill {α : Type} {init : Call (Except ECode α)} (hinit : OnlyAllocs init)
    {rest : Nat → Except ECode α → Call (Except ECode Nat)} {object : Object} (make : α → Object)
    (type : EntryType) (head : Head)
    (herror : ∀ o ec, rest o (.error ec) = do
      unlockHashTable type
      release 1 o
      pure (.error ec))
    (hok : ∀ o info, rest o (.ok info) = do
      setObject o (some (make info))
      if ← addInfoNode o head then
        unlockHashTable type
        pure (.ok o)
      else
        unlockHashTable type
        release 1 o
        pure (.error E_OUT_OF_MEMORY))
    {answer : Except ECode Nat} (hs : Sound s)
    (hrun : (create object >>= fun o => init >>= rest o) s = some (answer, s')) : Sound s' := by
  rw [Action.bind_run, Option.bind_eq_some_iff] at hrun
  rcases hrun with ⟨⟨o, s₁⟩, hcreate, hrun⟩
  cases hcreate
  rw [Action.bind_run, Option.bind_eq_some_iff] at hrun
  rcases hrun with ⟨⟨made, s₂⟩, hmade, hrun⟩
  have hmade' := hinit _ _ _ hmade
  dsimp only at hmade hrun hmade'
  have hrelease : ∀ {s₃ : CObjInfoList} {ec : ECode}, Sound s₃ → (do
      unlockHashTable type
      release 1 s.next
      pure (.error ec) : Call (Except ECode Nat)) s₃ = some (answer, s') → Sound s' := by
    intro s₃ ec hs₃ hrest
    simp only [Action.bind_run, unlockHashTable, Action.modify_run, Option.bind_some,
      Option.bind_eq_some_iff] at hrest
    rcases hrest with ⟨⟨⟨⟩, s₄⟩, hrelease, hend⟩
    cases hend
    have hunlocked : Sound { s₃ with held := s₃.held - lockCalls type } := hs₃.rest rfl rfl rfl
    exact sound_release hunlocked hrelease
  cases made with
  | error ec =>
    rw [herror] at hrun
    apply hrelease _ hrun
    rw [hmade']
    exact (hs.create _).rest rfl rfl rfl
  | ok info =>
    rw [hok, Action.bind_run, InfoList.setObject, Action.modify_run, Option.bind_some] at hrun
    dsimp only at hrun
    -- the object as it is now might have been created so
    have hs₃ : Sound { s₂ with objects := Function.update s₂.objects s.next (some (make info)) } := by
      rw [hmade']
      dsimp only
      rw [Function.update_idem]
      exact (hs.create (make info)).rest rfl rfl rfl
    rw [Action.bind_run, Option.bind_eq_some_iff] at hrun
    rcases hrun with ⟨⟨stored, s₄⟩, hadd, hrun⟩
    have hs₄ : Sound s₄ := sound_addInfoNode hs₃ hadd
    dsimp only at hrun
    split at hrun
    · cases hrun
      exact hs₄.rest rfl rfl rfl
    · exact hrelease hs₄ hrun

theorem sound_makeStruct {W : DynamicTypes.World} {name : Text} {fields : List (Option Text × Nat)}
    {answer : Except ECode Nat} (hs : Sound s)
    (hrun : DynamicTypes.makeStruct W name fields s = some (answer, s')) : Sound s' := by
  have hinit : OnlyAllocs (DynamicTypes.initDynamicStruct W name fields) := by
    refine onlyAllocs_alloc.bind fun granted => ?_
    cases granted with
    | false => exact .pure _
    | true =>
      rw [if_pos rfl]
      cases DynamicTypes.initFieldElement W fields with
      | none => exact fun _ _ _ h => by cases h
      | some layout =>
        refine (onlyAllocs_initInfos _).bind fun infos => ?_
        cases infos with
        | error ec => exact .pure _
        | ok _ => exact .pure _
  rw [DynamicTypes.makeStruct, Action.bind_run, Option.bind_eq_some_iff] at hrun
  rcases hrun with ⟨⟨granted, s₁⟩, halloc, hrun⟩
  have hs₁ : Sound s₁ := by
    rw [onlyAllocs_alloc _ _ _ halloc]
    exact hs.rest rfl rfl rfl
  cases granted with
  | true =>
    dsimp only at hrun
    rw [if_pos rfl] at hrun
    exact sound_fill hinit (DynamicTypes.structObject · 1) .Struct .mStructInfoHead
      (fun _ _ => rfl) (fun _ _ => rfl) hs₁ hrun
  | false =>
    cases hrun
    exact hs₁.rest rfl rfl rfl

theorem sound_makeEnum {fullName : Text} {items : List (Option Text × Int)}
    {answer : Except ECode Nat} (hs : Sound s)
    (hrun : DynamicTypes.makeEnum fullName items s = some (answer, s')) : Sound s' := by
  have hinit : OnlyAllocs (DynamicTypes.initDynamicEnum fullName items) := by
    refine (onlyAllocs_initInfos _).bind fun infos => ?_
    cases infos with
    | error ec => exact .pure _
    | ok _ => exact .pure _
  rw [DynamicTypes.makeEnum, Action.bind_run, Option.bind_eq_some_iff] at hrun
  rcases hrun with ⟨⟨granted, s₁⟩, halloc, hrun⟩
  have hs₁ : Sound s₁ := by
    rw [onlyAllocs_alloc _ _ _ halloc]
    exact hs.rest rfl rfl rfl
  cases granted with
  | true =>
    dsimp only at hrun
    rw [if_pos rfl] at hrun
    exact sound_fill hinit (DynamicTypes.enumObject · 1) .Enum .mEnumInfoHead
      (fun _ _ => rfl) (fun _ _ => rfl) hs₁ hrun
  | false =>
    cases hrun
    exact hs₁.rest rfl rfl rfl

instance : Kept Sound where
  rest := fun hnext hobjects htables hs => hs.rest hnext hobjects htables
  create := fun _ hs => hs.create _
  change := fun o _ hg hs => hs.change o hg
  put := fun _ _ ht hs => hs.put ht _
  release := sound_release
  makeStruct := sound_makeStruct
  makeEnum := sound_makeEnum

/-! ### Loading a module -/

/-- The first allocations succeed, so many, and the next one fails. -/
def RefusedAfter (n : Nat) (allocs : List Bool) : Prop := List.replicate n true ++ [false] <+: allocs

/-- The allocations for the class module of a library, with the one of its entry in the
table. -/
def classAllocs (library : Library) : Nat := if library.compressed then 3 else 2

/-- A module is to be loaded that has no class module yet, and when its class module is in the
table there is no memory for the module. -/
def Loses (W : World) (s : CObjInfoList) : LockBalance.Op × List Bool → Prop
  | (.moduleInfo (some name) true, allocs) =>
    ∃ library, W.library name = some library ∧ library.hasClassInfo = true ∧
      s.tables .mModInfos (.path name) = none ∧ s.tables .mClsModule (.path name) = none ∧
        RefusedAfter (classAllocs library) allocs
  | _ => False

/-- Only the allocations that are to come are others, and addresses have been used. -/
def Unchanged (s s' : CObjInfoList) : Prop :=
  ∃ next allocs, s.next ≤ next ∧ s' = { s with next := next, allocs := allocs }

/-- A call for a module that runs out of memory leaves the registry as it was. -/
def ModuleAtomic (W : World) (depth : Nat) (s : CObjInfoList) : LockBalance.Op × List Bool → Prop
  | (.moduleInfo name out, allocs) =>
    ∀ s', acquireModuleInfo W depth name out { s with allocs := allocs } =
      some (.error E_OUT_OF_MEMORY, s') → Unchanged s s'
  | _ => True

/-- What an allocation does to those that are to come. -/
theorem alloc_cases {granted : Bool} (hrun : alloc s = some (granted, s')) :
    ∃ allocs, s' = { s with allocs := allocs } ∧ (RefusedAfter 0 s.allocs ↔ granted = false) ∧
      ∀ n, RefusedAfter (n + 1) s.allocs ↔ granted = true ∧ RefusedAfter n allocs := by
  unfold alloc at hrun
  split at hrun
  · next hnil =>
    cases hrun
    refine ⟨s.allocs, rfl, ?_, fun n => ?_⟩
    · rw [hnil]
      exact iff_of_false (fun h => by cases List.prefix_nil.mp h) (by decide)
    · rw [hnil]
      have hno : ∀ n, ¬ RefusedAfter n [] := by
        intro n h
        have hlen := h.length_le
        simp at hlen
      exact iff_of_false (hno _) fun h => hno _ h.2
  · next granted rest hcons =>
    cases hrun
    refine ⟨rest, rfl, ?_, fun n => ?_⟩
    · rw [hcons, RefusedAfter, List.replicate_zero, List.nil_append, List.cons_prefix_cons]
      exact ⟨fun h => h.1.symm, fun h => ⟨h.symm, List.nil_prefix⟩⟩
    · rw [hcons, RefusedAfter, List.replicate_succ, List.cons_append, List.cons_prefix_cons,
        RefusedAfter]
      exact and_congr_left fun _ => eq_comm

theorem put_cases {t : Table} {key : Key} {o : Nat} {stored : Bool}
    (hrun : put t key o s = some (stored, s')) :
    ∃ s₁, alloc s = some (stored, s₁) ∧ s' = if stored then
      { s₁ with tables := Function.update s₁.tables t (Function.update (s₁.tables t) key (some o)) }
      else s₁ := by
  rw [put, Action.bind_run, Option.bind_eq_some_iff] at hrun
  rcases hrun with ⟨⟨granted, s₁⟩, halloc, hrun⟩
  refine ⟨s₁, ?_⟩
  cases granted with
  | true =>
    cases hrun
    exact ⟨halloc, rfl⟩
  | false =>
    cases hrun
    exact ⟨halloc, rfl⟩

/-- A new class module: without memory everything is as it was. -/
theorem newClsModule_cases {library : Library} {name : Text} {r : Except ECode Nat}
    (hfresh : s.objects s.next = none) (hrun : newClsModule library name s = some (r, s')) :
    (∃ ec, r = .error ec ∧ Unchanged s s' ∧
        ¬ (library.hasClassInfo = true ∧ RefusedAfter (classAllocs library) s.allocs)) ∨
      ∃ allocs, r = .ok s.next ∧ s' = loaded s name allocs ∧
        (library.hasClassInfo = true ∧ RefusedAfter (classAllocs library) s.allocs ↔
          RefusedAfter 0 allocs) := by
  rw [newClsModule] at hrun
  split at hrun
  · next hinfo =>
    cases hrun
    refine Or.inl ⟨_, rfl, ⟨_, _, Nat.le_refl _, rfl⟩, fun h => ?_⟩
    rw [h.1] at hinfo
    cases hinfo
  next hinfo =>
  have hinfo' : library.hasClassInfo = true := by simpa using hinfo
  rw [and_iff_right hinfo']
  -- the two allocations that every class module needs
  have hmade : ∀ {as : List Bool}, (do
      if ← alloc then
        let o ← create (classObject name 0)
        if ← put .mClsModule (.path name) o then pure (.ok o)
        else
          setObject o none
          pure (.error E_OUT_OF_MEMORY)
      else pure (.error E_OUT_OF_MEMORY) : Call (Except ECode Nat)) { s with allocs := as } =
        some (r, s') →
      (∃ ec, r = .error ec ∧ Unchanged s s' ∧ ¬ RefusedAfter 2 as) ∨
        ∃ allocs, r = .ok s.next ∧ s' = loaded s name allocs ∧
          (RefusedAfter 2 as ↔ RefusedAfter 0 allocs) := by
    intro as hrun
    rw [Action.bind_run, Option.bind_eq_some_iff] at hrun
    rcases hrun with ⟨⟨granted, s₁⟩, halloc, hrun⟩
    rcases alloc_cases halloc with ⟨as₁, rfl, -, htwo⟩
    cases granted with
    | false =>
      cases hrun
      refine Or.inl ⟨_, rfl, ⟨_, _, Nat.le_refl _, rfl⟩, fun h => ?_⟩
      cases ((htwo 1).mp h).1
    | true =>
      dsimp only at hrun
      rw [if_pos rfl, Action.bind_run, Option.bind_eq_some_iff] at hrun
      rcases hrun with ⟨⟨o, s₂⟩, hcreate, hrun⟩
      cases hcreate
      rw [Action.bind_run, Option.bind_eq_some_iff] at hrun
      rcases hrun with ⟨⟨stored, s₃⟩, hput, hrun⟩
      rcases put_cases hput with ⟨s₄, halloc', rfl⟩
      rcases alloc_cases halloc' with ⟨as₂, rfl, -, hone⟩
      cases stored with
      | false =>
        cases hrun
        refine Or.inl ⟨_, rfl, ⟨s.next + 1, as₂, Nat.le_succ _, ?_⟩, fun h => ?_⟩
        · simp only [Bool.false_eq_true, if_false, Function.update_idem]
          rw [← hfresh, Function.update_eq_self]
        · cases ((hone 0).mp ((htwo 1).mp h).2).1
      | true =>
        cases hrun
        refine Or.inr ⟨as₂, rfl, rfl, ?_⟩
        rw [htwo 1, and_iff_right rfl, hone 0, and_iff_right rfl]
  rw [Action.bind_run, Option.bind_eq_some_iff] at hrun
  rcases hrun with ⟨⟨relocated, s₁⟩, hrelocate, hrun⟩
  rw [relocate] at hrelocate
  cases hcompressed : library.compressed with
  | false =>
    rw [hcompressed] at hrelocate
    cases hrelocate
    have hallocs : classAllocs library = 2 := by rw [classAllocs, hcompressed]; rfl
    rw [hallocs]
    exact hmade hrun
  | true =>
    rw [hcompressed] at hrelocate
    have hallocs : classAllocs library = 3 := by rw [classAllocs, hcompressed]; rfl
    rw [hallocs]
    rcases alloc_cases hrelocate with ⟨as₁, rfl, -, hthree⟩
    cases relocated with
    | false =>
      cases hrun
      refine Or.inl ⟨_, rfl, ⟨_, _, Nat.le_refl _, rfl⟩, fun h => ?_⟩
      cases ((hthree 2).mp h).1
    | true =>
      rw [hthree 2, and_iff_right rfl]
      exact hmade hrun

/-! ### Rolling back -/

/-- What changes of the objects when `o` goes and `c` is `object` afterwards. -/
theorem update_restores {f : Nat → Option Object} {c o : Nat} {object x y : Option Object}
    (hc : f c = object) (ho : f o = none) (hne : c ≠ o) :
    Function.update (Function.update (Function.update (Function.update f c x) o y) o none) c object =
      f := by
  have hgone : Function.update f o none = f := by
    rw [← ho]
    exact Function.update_eq_self o f
  rw [Function.update_idem, Function.update_comm hne, Function.update_idem, hgone, ← hc,
    Function.update_eq_self]

/-- The module is let go of, and its class module has other references. -/
theorem release_module_held {depth o c : Nat} {name : Text} {object : Object} (hne : c ≠ o)
    (ho : s.objects o = some (moduleObject name c)) (hc : s.objects c = some object)
    (hheld : 2 ≤ object.mRef) :
    release (depth + 2) o s = some ((), { s with
      objects := Function.update (Function.update s.objects o none) c
        (some { object with mRef := object.mRef - 1 })
      tables := Function.update s.tables .mModInfos
        (Function.update (s.tables .mModInfos) (.path name) none) }) := by
  have hmore : ¬ object.mRef ≤ 1 := by omega
  cases htype : object.type with
  | none =>
    simp [release, ho, moduleObject, lockHashTable, unlockHashTable, dropRef, takeOut, setTable,
      releaseAll, InfoList.setObject, Function.update_of_ne hne, hc, hmore, htype]
  | some type =>
    simp [release, ho, moduleObject, lockHashTable, unlockHashTable, dropRef, takeOut, setTable,
      releaseAll, InfoList.setObject, Function.update_of_ne hne, hc, hmore, htype]

/-- The module is let go of, and its class module with it. -/
theorem release_module_last {depth o c : Nat} {name : Text} (hne : c ≠ o)
    (ho : s.objects o = some (moduleObject name c)) (hc : s.objects c = some (classObject name 1)) :
    release (depth + 2) o s = some ((), { s with
      objects := Function.update (Function.update s.objects o none) c none
      tables := Function.update
        (Function.update s.tables .mModInfos
          (Function.update (s.tables .mModInfos) (.path name) none))
        .mClsModule (Function.update (s.tables .mClsModule) (.path name) none) }) := by
  simp [release, ho, moduleObject, lockHashTable, unlockHashTable, dropRef, takeOut, setTable,
    releaseAll, InfoList.setObject, Function.update_of_ne hne, hc, classObject]

/-- The module of a class module that is at hand, with a reference to it. -/
def held (s : CObjInfoList) (name : Text) (c : Nat) (object : Object) (allocs : List Bool) :
    CObjInfoList :=
  { s with
    next := s.next + 1
    allocs := allocs
    objects := Function.update
      (Function.update s.objects c (some { object with mRef := object.mRef + 1 })) s.next
      (some (moduleObject name c)) }

/-- The end of `loadModule`, with the memory for the module. -/
theorem finish_cases {name : Text} {c : Nat} {object : Object}
    {r : Except (ECode × Option Nat) Nat} (hc : s.objects c = some object)
    (hrun : (do
      addRef c
      let o ← create (moduleObject name c)
      if ← put .mModInfos (.path name) o then pure (.ok o)
      else pure (.error (E_OUT_OF_MEMORY, some o)) :
        Call (Except (ECode × Option Nat) Nat)) s = some (r, s')) :
    ∃ allocs, r = .ok s.next ∧ s' = { held s name c object allocs with
          tables := Function.update s.tables .mModInfos
            (Function.update (s.tables .mModInfos) (.path name) (some s.next)) } ∨
      r = .error (E_OUT_OF_MEMORY, some s.next) ∧ s' = held s name c object allocs := by
  rw [Action.bind_run, addRef, Action.modify_run, Option.bind_some, Action.bind_run, hc,
    Option.map_some, Option.bind_eq_some_iff] at hrun
  rcases hrun with ⟨⟨o, s₁⟩, hcreate, hrun⟩
  cases hcreate
  rw [Action.bind_run, Option.bind_eq_some_iff] at hrun
  rcases hrun with ⟨⟨stored, s₂⟩, hput, hrun⟩
  rcases put_cases hput with ⟨s₃, halloc, rfl⟩
  rcases alloc_cases halloc with ⟨as, rfl, -⟩
  cases stored with
  | true =>
    cases hrun
    exact ⟨as, Or.inl ⟨rfl, rfl⟩⟩
  | false =>
    cases hrun
    exact ⟨as, Or.inr ⟨rfl, rfl⟩⟩

/-- A class module is held by the new module. -/
theorem Sound.held (hs : Sound s) {c : Nat} {object : Object} (hc : s.objects c = some object)
    (name : Text) (allocs : List Bool) : Sound (held s name c object allocs) := by
  have hset : Sound
      { s with
        objects := Function.update s.objects c (some { object with mRef := object.mRef + 1 }) } :=
    hs.setObject hc rfl fun h => Nat.le_succ_of_le h
  exact (hset.create _).rest rfl rfl rfl

/-- What may come of `loadModule`: it fails and has changed nothing; it has the module; it
fails with a module, whose release makes good what it did; or a class module is deleted that
is in the table. -/
inductive Loaded (s : CObjInfoList) (name : Text) :
    Except (ECode × Option Nat) Nat → CObjInfoList → Bool → Prop where
  | failed {s' : CObjInfoList} (ec : ECode) (h : Unchanged s s') :
    Loaded s name (.error (ec, none)) s' false
  | done {s' : CObjInfoList} (o : Nat) (h : Sound s') : Loaded s name (.ok o) s' false
  | undone {s' : CObjInfoList} (o : Nat)
    (h : ∀ depth locks, ∃ t, release (depth + 2) o { s' with held := locks } = some ((), t) ∧
      Unchanged { s with held := locks } t) :
    Loaded s name (.error (E_OUT_OF_MEMORY, some o)) s' false
  | lost {s' : CObjInfoList} (c : Nat) (h : s'.tables .mClsModule (.path name) = some c) :
    Loaded s name (.error (E_OUT_OF_MEMORY, none)) s' true

/-- The table of the modules is as it was when the entry of the module is taken out again. -/
theorem update_modInfos {name : Text} (h : s.tables .mModInfos (.path name) = none) :
    Function.update s.tables .mModInfos
      (Function.update (s.tables .mModInfos) (.path name) none) = s.tables := by
  rw [← h, Function.update_eq_self, Function.update_eq_self]

theorem update_clsModule {name : Text} (h : s.tables .mClsModule (.path name) = none)
    (allocs : List Bool) :
    Function.update (loaded s name allocs).tables .mClsModule
      (Function.update ((loaded s name allocs).tables .mClsModule) (.path name) none) =
        s.tables := by
  dsimp only [loaded]
  rw [Function.update_self, Function.update_idem, Function.update_idem, ← h,
    Function.update_eq_self, Function.update_eq_self]

/-- With a class module that is in the table. -/
theorem loaded_found {name : Text} {c : Nat} {r : Except (ECode × Option Nat) Nat} (hs : Sound s)
    (hmodule : s.tables .mModInfos (.path name) = none)
    (hfound : s.tables .mClsModule (.path name) = some c)
    (hrun : (do
      addRef c
      let o ← create (moduleObject name c)
      if ← put .mModInfos (.path name) o then pure (.ok o)
      else pure (.error (E_OUT_OF_MEMORY, some o)) :
        Call (Except (ECode × Option Nat) Nat)) s = some (r, s')) :
    Loaded s name r s' false := by
  rcases hs.live _ c hfound with ⟨object, hc, hplace, hheld⟩
  have hlt := hs.lt_next hfound
  have hne : c ≠ s.next := Nat.ne_of_lt hlt
  rcases finish_cases hc hrun with ⟨as, ⟨rfl, rfl⟩ | ⟨rfl, rfl⟩⟩
  · exact .done _ ((hs.held hc name as).put (by decide) _)
  · refine .undone _ fun depth locks => ⟨_, ?_, s.next + 1, as, Nat.le_succ _, rfl⟩
    have ho : { held s name c object as with held := locks }.objects s.next =
        some (moduleObject name c) := Function.update_self ..
    have hc' : { held s name c object as with held := locks }.objects c =
        some { object with mRef := object.mRef + 1 } := by
      dsimp only [held]
      rw [Function.update_of_ne hne, Function.update_self]
    rw [release_module_held hne ho hc' (Nat.succ_le_succ hheld)]
    simp only [held, Nat.add_sub_cancel, update_modInfos hmodule]
    rw [update_restores hc (hs.fresh _ (Nat.le_refl _)) hne]

/-- With a class module that was just made. -/
theorem loaded_new {name : Text} {as₀ : List Bool} {r : Except (ECode × Option Nat) Nat}
    (hs : Sound s) (hmodule : s.tables .mModInfos (.path name) = none)
    (hnone : s.tables .mClsModule (.path name) = none)
    (hrun : (do
      addRef s.next
      let o ← create (moduleObject name s.next)
      if ← put .mModInfos (.path name) o then pure (.ok o)
      else pure (.error (E_OUT_OF_MEMORY, some o)) :
        Call (Except (ECode × Option Nat) Nat)) (loaded s name as₀) = some (r, s')) :
    Loaded s name r s' false := by
  have hc : (loaded s name as₀).objects s.next = some (classObject name 0) :=
    Function.update_self ..
  have hne : s.next ≠ s.next + 1 := Nat.ne_of_lt (Nat.lt_succ_self _)
  rcases finish_cases hc hrun with ⟨as, ⟨rfl, rfl⟩ | ⟨rfl, rfl⟩⟩
  · refine .done _ ?_
    have hheld : Sound (held (loaded s name as₀) name s.next (classObject name 0) as) := by
      refine ((hs.entered name as₀).create (moduleObject name s.next)).rest rfl ?_ rfl
      dsimp only [held, loaded]
      rw [Function.update_idem]
      rfl
    exact hheld.put (by decide) _
  · refine .undone _ fun depth locks => ⟨_, ?_, s.next + 2, as, Nat.le_add_right _ _, rfl⟩
    have ho : { held (loaded s name as₀) name s.next (classObject name 0) as with
        held := locks }.objects (s.next + 1) = some (moduleObject name s.next) :=
      Function.update_self ..
    have hc' : { held (loaded s name as₀) name s.next (classObject name 0) as with
        held := locks }.objects s.next = some (classObject name 1) := by
      dsimp only [held, loaded]
      rw [Function.update_of_ne hne, Function.update_self]
      rfl
    have hmodule' : (loaded s name as₀).tables .mModInfos (.path name) = none := hmodule
    rw [show (loaded s name as₀).next = s.next + 1 from rfl, release_module_last hne ho hc']
    dsimp only [held]
    rw [update_modInfos hmodule', update_clsModule hnone as₀]
    dsimp only [loaded]
    rw [Function.update_idem (a := s.next),
      update_restores (hs.fresh _ (Nat.le_refl _)) (hs.fresh _ (Nat.le_succ _)) hne]

theorem Loaded.congr {name : Text} {r : Except (ECode × Option Nat) Nat} {allocs : List Bool}
    {lost : Bool} (h : Loaded { s with allocs := allocs } name r s' lost) :
    Loaded s name r s' lost := by
  cases h with
  | failed ec h => exact .failed ec h
  | done o h => exact .done o h
  | undone o h => exact .undone o h
  | lost c h => exact .lost c h

theorem loadModule_cases {library : Library} {name : Text} {r : Except (ECode × Option Nat) Nat}
    (hs : Sound s) (hmodule : s.tables .mModInfos (.path name) = none)
    (hrun : loadModule library name s = some (r, s')) :
    ∃ lost, Loaded s name r s' lost ∧ (lost = true ↔
      s.tables .mClsModule (.path name) = none ∧ library.hasClassInfo = true ∧
        RefusedAfter (classAllocs library) s.allocs) := by
  have hget : get .mClsModule (.path name) s = some (s.tables .mClsModule (.path name), s) := rfl
  rw [loadModule, Action.bind_run, hget, Option.bind_some] at hrun
  dsimp only at hrun
  -- the class module is in its table, or is made
  cases hfound : s.tables .mClsModule (.path name) with
  | some c =>
    refine ⟨false, ?_, iff_of_false Bool.false_ne_true fun h => by cases h.1⟩
    rw [hfound, findClsModule, Action.bind_run, Action.pure_run, Option.bind_some] at hrun
    dsimp only at hrun
    rw [Action.bind_run, Option.bind_eq_some_iff] at hrun
    rcases hrun with ⟨⟨granted, s₁⟩, halloc, hrun⟩
    rcases alloc_cases halloc with ⟨as, rfl, -⟩
    have hs₁ : Sound { s with allocs := as } := hs.rest rfl rfl rfl
    cases granted with
    | true => exact (loaded_found hs₁ hmodule hfound hrun).congr
    | false =>
      cases hrun
      exact .failed _ ⟨_, _, Nat.le_refl _, rfl⟩
  | none =>
    rw [and_iff_right rfl]
    rw [hfound, findClsModule, Action.bind_run, Option.bind_eq_some_iff] at hrun
    rcases hrun with ⟨⟨made, s₁⟩, hmade, hrun⟩
    rcases newClsModule_cases (hs.fresh _ (Nat.le_refl _)) hmade with
      ⟨ec, rfl, hsame, hno⟩ | ⟨as, rfl, rfl, hrefused⟩
    · cases hrun
      exact ⟨false, .failed ec hsame, iff_of_false Bool.false_ne_true hno⟩
    · dsimp only at hrun
      rw [hrefused]
      rw [Action.bind_run, Option.bind_eq_some_iff] at hrun
      rcases hrun with ⟨⟨granted, s₂⟩, halloc, hrun⟩
      rcases alloc_cases halloc with ⟨as', rfl, hzero, -⟩
      rw [show RefusedAfter 0 as ↔ granted = false from hzero]
      cases granted with
      | true => exact ⟨false, loaded_new hs hmodule hfound hrun, by decide⟩
      | false =>
        cases hrun
        refine ⟨true, .lost s.next ?_, by decide⟩
        simp [loaded]

/-- The call gets through to its end. -/
def Total {α : Type} (f : Call α) : Prop := ∀ s, ∃ a s', f s = some (a, s')

theorem Total.bind {α β : Type} {f : Call α} {g : α → Call β} (hf : Total f)
    (hg : ∀ a, Total (g a)) : Total (f >>= g) := by
  intro s
  rcases hf s with ⟨a, s', hfirst⟩
  rcases hg a s' with ⟨b, s'', hrest⟩
  exact ⟨b, s'', by rw [Action.bind_run, hfirst, Option.bind_some, hrest]⟩

theorem Total.ite {α : Type} {p : Prop} [Decidable p] {f g : Call α} (hf : Total f)
    (hg : Total g) : Total (if p then f else g) := by
  split
  · exact hf
  · exact hg

theorem total_pure {α : Type} (a : α) : Total (pure a : Call α) := fun s => ⟨a, s, rfl⟩

theorem total_modify (f : CObjInfoList → CObjInfoList) : Total (Action.modify f : Call Unit) :=
  fun s => ⟨(), f s, rfl⟩

theorem total_alloc : Total alloc := by
  intro s
  unfold alloc
  split
  · exact ⟨_, _, rfl⟩
  · exact ⟨_, _, rfl⟩

theorem total_create (object : Object) : Total (create object) := fun s => ⟨s.next, _, rfl⟩

theorem total_put (t : Table) (key : Key) (o : Nat) : Total (put t key o) :=
  total_alloc.bind fun _ =>
    ((total_modify _).bind fun _ => total_pure true).ite (total_pure false)

theorem total_newClsModule (library : Library) (name : Text) : Total (newClsModule library name) := by
  have hrelocate : Total (relocate library) := total_alloc.ite (total_pure true)
  refine (total_pure _).ite (hrelocate.bind fun _ => .ite ?_ (total_pure _))
  refine total_alloc.bind fun _ => .ite ?_ (total_pure _)
  refine (total_create _).bind fun o => (total_put _ _ o).bind fun _ => ?_
  exact (total_pure _).ite ((total_modify _).bind fun _ => total_pure _)

theorem total_loadModule (library : Library) (name : Text) : Total (loadModule library name) := by
  have hget : ∀ t key, Total (get t key) := fun t key s => ⟨s.tables t key, s, rfl⟩
  refine (hget _ _).bind fun found => Total.bind ?_ fun made => ?_
  · cases found with
    | none => exact total_newClsModule library name
    | some c => exact total_pure _
  · cases made with
    | error ec => exact total_pure _
    | ok c =>
      refine total_alloc.bind fun granted => .ite ?_ ?_
      · refine (total_modify _).bind fun _ => (total_create _).bind fun o => ?_
        exact (total_put _ _ o).bind fun _ => (total_pure _).ite (total_pure _)
      · exact ((total_modify _).ite (total_pure ())).bind fun _ => total_pure _

/-- What may come of a call for a module. -/
inductive Acquired (s : CObjInfoList) (name : Text) :
    Except ECode Nat → CObjInfoList → Bool → Prop where
  | failed {s' : CObjInfoList} (ec : ECode) (h : Unchanged s s') : Acquired s name (.error ec) s' false
  | done {s' : CObjInfoList} (o : Nat) (h : Sound s') : Acquired s name (.ok o) s' false
  | lost {s' : CObjInfoList} (c : Nat) (h : s'.tables .mClsModule (.path name) = some c) :
    Acquired s name (.error E_OUT_OF_MEMORY) s' true

theorem acquireModuleInfo_cases {W : World} {depth : Nat} {name : Text} {library : Library}
    (hs : Sound s) (hlibrary : W.library name = some library) :
    ∃ answer s' lost, acquireModuleInfo W (depth + 2) (some name) true s = some (answer, s') ∧
      Acquired s name answer s' lost ∧ (lost = true ↔ s.tables .mModInfos (.path name) = none ∧
        s.tables .mClsModule (.path name) = none ∧ library.hasClassInfo = true ∧
          RefusedAfter (classAllocs library) s.allocs) := by
  have hget : ∀ t : CObjInfoList, get .mModInfos (.path name) t =
      some (t.tables .mModInfos (.path name), t) := fun _ => rfl
  have hlock : ∀ (type : EntryType) (t : CObjInfoList), lockHashTable type t =
      some ((), { t with held := t.held + lockCalls type }) := fun _ _ => rfl
  have hunlock : ∀ (type : EntryType) (t : CObjInfoList), unlockHashTable type t =
      some ((), { t with held := t.held - lockCalls type }) := fun _ _ => rfl
  simp only [acquireModuleInfo, hlibrary, Bool.true_eq_false, if_false, Action.bind_run, hlock, hget,
    Option.bind_some]
  -- an info that is in the table is handed out
  cases hmodule : s.tables .mModInfos (.path name) with
  | some o =>
    refine ⟨.ok o, _, false, rfl, .done o ?_, iff_of_false Bool.false_ne_true fun h => by cases h.1⟩
    have hmore := hs.change o (g := fun object => { object with mRef := object.mRef + 1 })
      fun _ => ⟨rfl, Nat.le_succ _⟩
    exact hmore.rest rfl rfl rfl
  | none =>
    rw [and_iff_right rfl]
    simp only [Action.bind_run, hlock, Option.bind_some]
    have hlocked : Sound { s with
        held := s.held + lockCalls .Module + lockCalls .ClsModule } := hs.rest rfl rfl rfl
    -- otherwise the library is loaded, under both locks
    rcases total_loadModule library name { s with
        held := s.held + lockCalls .Module + lockCalls .ClsModule } with ⟨r, s₁, hload⟩
    rcases loadModule_cases hlocked hmodule hload with ⟨lost, hloaded, hlost⟩
    have hheld : s₁.held = s.held + lockCalls .Module + lockCalls .ClsModule :=
      (balanced_loadModule library name).eq trivial hload
    have hback : s₁.held - lockCalls .ClsModule - lockCalls .Module = s.held := by
      rw [hheld, add_sub_cancel_right, add_sub_cancel_right]
    rw [hload, Option.bind_some]
    simp only [hunlock, Option.bind_some, hback]
    -- which ends in one of four ways
    cases hloaded with
    | failed ec hsame =>
      refine ⟨.error ec, _, false, rfl, .failed ec ?_, hlost⟩
      rcases hsame with ⟨next, allocs, hnext, rfl⟩
      exact ⟨next, allocs, hnext, rfl⟩
    | done o hdone => exact ⟨.ok o, _, false, rfl, .done o (hdone.rest rfl rfl rfl), hlost⟩
    | undone o hundone =>
      rcases hundone depth s.held with ⟨t, hrelease, hsame⟩
      refine ⟨.error E_OUT_OF_MEMORY, t, false, ?_, .failed _ hsame, hlost⟩
      dsimp only
      rw [Action.bind_run, hrelease]
      rfl
    | lost c hc => exact ⟨.error E_OUT_OF_MEMORY, _, true, rfl, .lost c hc, hlost⟩

/-- From a registry that is sound, a call for a module is atomic exactly if it does not lose a
class module, and then the registry stays sound, as it does with every other call. -/
theorem module_step {W : World} {depth : Nat} (hs : Sound s) (e : LockBalance.Op × List Bool) :
    (ModuleAtomic W (depth + 2) s e ↔ ¬ Loses W s e) ∧
      (¬ Loses W s e → Sound ((registry W (depth + 2)).step s e)) := by
  rcases e with ⟨op, allocs⟩
  have hs₁ : Sound { s with allocs := allocs } := hs.rest rfl rfl rfl
  -- all other calls keep what is asked of the state, and nothing is asked of their answers
  by_cases hop : ∃ name out, op = .moduleInfo name out
  swap
  · have hatomic : ModuleAtomic W (depth + 2) s (op, allocs) := by
      cases op with
      | moduleInfo name out => exact absurd ⟨name, out, rfl⟩ hop
      | _ => trivial
    have hloses : ¬ Loses W s (op, allocs) := by
      cases op with
      | moduleInfo name out => exact absurd ⟨name, out, rfl⟩ hop
      | _ => exact id
    refine ⟨iff_of_true hatomic hloses, fun _ => ?_⟩
    simp only [registry]
    cases hrun : op.call W (depth + 2) { s with allocs := allocs } with
    | none => exact hs
    | some r =>
      refine call_kept W (depth + 2) hs₁ (fun name out h => ?_) hrun
      exact absurd ⟨name, out, h⟩ hop
  rcases hop with ⟨name, out, rfl⟩
  -- the calls that are refused before anything is locked
  have hrefused : ∀ {ec : ECode}, ec ≠ E_OUT_OF_MEMORY →
      acquireModuleInfo W (depth + 2) name out { s with allocs := allocs } =
        some (.error ec, { s with allocs := allocs }) → ¬ Loses W s (.moduleInfo name out, allocs) →
      (ModuleAtomic W (depth + 2) s (.moduleInfo name out, allocs) ↔
          ¬ Loses W s (.moduleInfo name out, allocs)) ∧
        (¬ Loses W s (.moduleInfo name out, allocs) →
          Sound ((registry W (depth + 2)).step s (.moduleInfo name out, allocs))) := by
    intro ec hec hrun hloses
    refine ⟨iff_of_true (fun s' hrun' => ?_) hloses, fun _ => ?_⟩
    · rw [hrun] at hrun'
      cases hrun'
      exact absurd rfl hec
    · simp only [registry, LockBalance.Op.call, unanswered, Action.bind_run, hrun]
      exact hs₁
  rcases name with _ | name
  · exact hrefused (by decide) rfl id
  cases out with
  | false => exact hrefused (by decide) rfl id
  | true =>
    cases hlibrary : W.library name with
    | none =>
      have hrun : acquireModuleInfo W (depth + 2) (some name) true { s with allocs := allocs } =
          some (.error E_FILE_NOT_FOUND, { s with allocs := allocs }) := by
        simp [acquireModuleInfo, hlibrary]
      refine hrefused (by decide) hrun ?_
      rintro ⟨library, h, -⟩
      rw [hlibrary] at h
      cases h
    | some library =>
      -- what a call for a library that is there can do
      rcases @acquireModuleInfo_cases _ W depth name library hs₁ hlibrary with
        ⟨answer, s', lost, hrun, hacquired, hlost⟩
      have hloses : Loses W s (.moduleInfo (some name) true, allocs) ↔ lost = true := by
        rw [hlost, Loses]
        constructor
        · rintro ⟨library', h, hinfo, hmodule, hnone, hafter⟩
          rw [hlibrary] at h
          cases h
          exact ⟨hmodule, hnone, hinfo, hafter⟩
        · rintro ⟨hmodule, hnone, hinfo, hafter⟩
          exact ⟨library, hlibrary, hinfo, hmodule, hnone, hafter⟩
      -- the run is known, so the claim is about its answer
      have hatomic : ModuleAtomic W (depth + 2) s (.moduleInfo (some name) true, allocs) ↔
          (answer = .error E_OUT_OF_MEMORY → Unchanged s s') := by
        constructor
        · rintro h rfl
          exact h s' hrun
        · intro h s'' hrun'
          rw [hrun] at hrun'
          cases hrun'
          exact h rfl
      have hstep : (registry W (depth + 2)).step s (.moduleInfo (some name) true, allocs) = s' := by
        simp only [registry, LockBalance.Op.call, unanswered, Action.bind_run, hrun]
        rfl
      rw [hloses, hatomic, hstep]
      -- the info is refused, handed out, or made and lost
      cases hacquired with
      | failed ec hsame =>
        rcases hsame with ⟨next, allocs', hnext, rfl⟩
        refine ⟨iff_of_true (fun _ => ⟨next, allocs', hnext, rfl⟩) Bool.false_ne_true, fun _ => ?_⟩
        exact ⟨fun o ho => hs.fresh o (Nat.le_trans hnext ho), hs.live⟩
      | done o hdone => exact ⟨iff_of_true (fun h => by cases h) Bool.false_ne_true, fun _ => hdone⟩
      | lost c hc =>
        refine ⟨iff_of_false (fun h => ?_) fun h => h rfl, fun h => absurd rfl h⟩
        rcases h rfl with ⟨next, allocs', -, rfl⟩
        have hnone := (hlost.mp rfl).2.1
        dsimp only at hc hnone
        rw [hnone] at hc
        cases hc

end Modules

/-- From a new list, the calls of `InitElemList` are atomic exactly if each that fills the
elements stores all entries; and from an empty registry, all calls for modules are atomic
exactly if none loses a class module. -/
theorem failed_init_iff (P : Entries.LoadPlatform) (L : ListedList) (calls : List Entries.NameEnv)
    (W : LockBalance.World) (depth : Nat) (events : List (LockBalance.Op × List Bool)) :
    ((lists P L).AllSteps (ListAtomic P L) (Entries.NameState.new P.toPlatform) calls ↔
        (lists P L).AllSteps (FillsAll P L) (Entries.NameState.new P.toPlatform) calls) ∧
      ((LockBalance.registry W (depth + 2)).AllSteps (ModuleAtomic W (depth + 2)) .empty events ↔
        (LockBalance.registry W (depth + 2)).AllSteps (fun s e => ¬ Loses W s e) .empty events) := by
  constructor
  · exact (lists P L).allSteps_iff_of_invariant (I := Entries.Named P L.toCEntryList)
      (fun _ _ hinv => (list_step hinv).2) (fun _ _ hinv => (list_step hinv).1) (Or.inl rfl) calls
  · exact (LockBalance.registry W (depth + 2)).allSteps_iff_of_invariant (I := Sound)
      (fun _ e hs => (module_step hs e).2) (fun _ e hs => (module_step hs e).1) sound_empty events

/-! ## A part of a table -/

/-- The structs `A` and `B`. -/
def twoStructs : ListedList where
  mType := .Struct
  mTotalCount := 2
  mClsMod :=
    { mClassDirs := []
      mInterfaceDirs := []
      mStructDirs := [⟨⟨[65], by decide⟩, none⟩, ⟨⟨[66], by decide⟩, none⟩]
      mEnumDirs := []
      mAliasDirs := []
      mConstDirs := []
      interfaceDesc := fun _ => [] }
  mDesc := ⟨[], []⟩
  mIFList := []
  mCBMethodDesc := []
  counted := rfl
  listed := rfl

/-- There is memory, but not for the entry of the table at the given position. -/
def refusing (n : Nat) : Entries.NameEnv :=
  ⟨true, fun k => ⟨true, true, k ≠ n⟩, .NOERROR, by decide⟩

/-- The only library is `m`. -/
def oneLibrary : LockBalance.World :=
  { LockBalance.bareWorld with library := fun name => if name = ['m'] then some ⟨true, false⟩ else none }

/-- With no memory for the entry of `B`, the next call succeeds, and `B` is not found; with no
memory for the module `m`, its class module stays in the table. -/
theorem part_of_table_stays :
    ((lists Entries.shifted twoStructs).run (.new Entries.shifted.toPlatform)
          [refusing 1, refusing 2]).mHTIndexs.get Entries.shifted.toPlatform .string (some [66]) =
        some none ∧
      ¬ (lists Entries.shifted twoStructs).AllSteps (ListAtomic Entries.shifted twoStructs)
        (.new Entries.shifted.toPlatform) [refusing 1, refusing 2] ∧
      ((LockBalance.registry oneLibrary 2).run .empty
          [(.moduleInfo (some ['m']) true, [true, true, false])]).tables .mClsModule (.path ['m']) =
        some 0 ∧
      ¬ (LockBalance.registry oneLibrary 2).AllSteps (ModuleAtomic oneLibrary 2) .empty
        [(.moduleInfo (some ['m']) true, [true, true, false])] := by
  refine ⟨by decide, fun h => ?_, by rfl, fun h => ?_⟩
  · have hfails : (Entries.initNames twoStructs.toArgs Entries.shifted.toPlatform (refusing 1)
        (.new Entries.shifted.toPlatform)).any (fun r =>
          r.1 = .E_OUT_OF_MEMORY ∧ r.2.list.mObjElement.isSome) = true := by decide
    rcases (Option.any_eq_true _ _).mp hfails with ⟨⟨ec, s⟩, hrun, hany⟩
    rcases of_decide_eq_true hany with ⟨rfl, hsome⟩
    rw [(h.1 _ _ hrun).1 rfl] at hsome
    cases hsome
  · rcases h.1 _ rfl with ⟨next, allocs, -, hsame⟩
    have hentry := congrArg (fun s => s.tables .mClsModule (.path ['m'])) hsame
    cases hentry

end SuperExe.Reflection.FailedInit
