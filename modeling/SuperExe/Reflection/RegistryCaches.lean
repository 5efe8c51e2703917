import SuperExe.Reflection.LockBalance

/-! # The registry and its caches

The caches of `TypeInfo` say with which object a call answers; the registry with its locks
has the same tables, where objects have addresses and a count of references. As long as
there is memory, no `Init` fails and no type is an `ArrayOf`, a call of the registry answers
with the object that the caches answer with (`acquireDataTypeInfo_shows`), in every run from
the empty registry (`registry_shows`).

The objects of the two are related as they are made: `R i a` says that the object with the
number `i` is at the address `a`.
-/

namespace SuperExe.Reflection.LockBalance

open SuperExe.Lib InfoList
open Entries (EntryType)
open TypeInfo (Caches CARDataType CarDataType TypePtr Resolved resolveType byteLevels)

/-! ## What the registry shows of the caches -/

/-- An object of the registry is an info of the caches. -/
inductive ShowsInfo (R : Nat → Nat → Prop) : TypeInfo.Info → InfoList.Info → Prop where
  | cppVector {i a : Nat} (length : Int) (h : R i a) :
    ShowsInfo R (.cppVector i length) (.cppVector a length)
  | other {info : TypeInfo.Info} (hvector : ∀ i length, info ≠ .cppVector i length) :
    ShowsInfo R info (.dataType info.dataType)

/-- The tables of the registry are the caches. `granted` and `granted'` say that there is
memory for the calls to come. -/
structure Shows (R : Nat → Nat → Prop) (s : Caches) (t : CObjInfoList) : Prop where
  granted : s.allocs = []
  granted' : t.allocs = []
  number : ∀ i j a, R i a → R j a → i = j
  address : ∀ i a b, R i a → R i b → a = b
  object : ∀ i a, R i a → ∃ info object, s.heap[i]? = some info ∧ t.objects a = some object ∧
    1 ≤ object.mRef ∧ ShowsInfo R info object.info
  below : ∀ i a, R i a → a < t.next
  older : ∀ j i length, s.heap[j]? = some (TypeInfo.Info.cppVector i length) → i < j
  aliasLists : t.aliasLists = s.aliasLists
  dataTypes : ∀ d, Option.Rel R (s.dataTypeInfos d) (t.mDataTypeInfos d)
  localTypes : ∀ d, Option.Rel R (s.localTypeInfos d) (t.mLocalTypeInfos d)
  structs : ∀ k, Option.Rel R (s.structInfos k) (t.tables .mStructInfos (.entry k.1 k.2))
  enums : ∀ k, Option.Rel R (s.enumInfos k) (t.tables .mEnumInfos (.entry k.1 k.2))
  interfaces : ∀ i, Option.Rel R (s.ifInfos i) (t.tables .mIFInfos (.iid i))
  localPtrs : ∀ k, Option.Rel R (s.localPtrInfos k)
    (t.tables .mLocalPtrInfos (.localPtr k.1 k.2.1 k.2.2))
  vectors : List.Forall₂ R s.cppVectorHead (t.heads .mCCppVectorHead)

section Info

variable {R R' : Nat → Nat → Prop} {info : TypeInfo.Info} {info' : InfoList.Info}

theorem ShowsInfo.mono (hR : ∀ i a, R i a → R' i a) (h : ShowsInfo R info info') :
    ShowsInfo R' info info' := by
  cases h with
  | cppVector length h => exact .cppVector length (hR _ _ h)
  | other hvector => exact .other hvector

theorem optionRel_mono (hR : ∀ i a, R i a → R' i a) {x y : Option Nat} (h : Option.Rel R x y) :
    Option.Rel R' x y := by
  cases h with
  | none => exact .none
  | some h => exact .some (hR _ _ h)

end Info

/-! ## Changes that the caches do not see -/

/-- Nothing that is there becomes another object or has fewer references. -/
structure Retains (t t' : CObjInfoList) : Prop where
  next : t.next ≤ t'.next
  kept : ∀ b object, b < t.next → t.objects b = some object → ∃ object',
    t'.objects b = some object' ∧ object'.info = object.info ∧ object.mRef ≤ object'.mRef

theorem Retains.refl (t : CObjInfoList) : Retains t t where
  next := Nat.le_refl _
  kept _ object _ h := ⟨object, h, rfl, Nat.le_refl _⟩

theorem Retains.trans {t t' t'' : CObjInfoList} (h : Retains t t') (h' : Retains t' t'') :
    Retains t t'' where
  next := h.next.trans h'.next
  kept b object hb hobject := by
    obtain ⟨object', hobject', hinfo, href⟩ := h.kept b object hb hobject
    obtain ⟨object'', hobject'', hinfo', href'⟩ :=
      h'.kept b object' (Nat.lt_of_lt_of_le hb h.next) hobject'
    exact ⟨object'', hobject'', hinfo'.trans hinfo, href.trans href'⟩

/-- The tables are the same, too. -/
structure Quiet (t t' : CObjInfoList) : Prop extends Retains t t' where
  allocs : t'.allocs = t.allocs
  tables : t'.tables = t.tables
  heads : t'.heads = t.heads
  dataTypes : t'.mDataTypeInfos = t.mDataTypeInfos
  localTypes : t'.mLocalTypeInfos = t.mLocalTypeInfos
  aliasLists : t'.aliasLists = t.aliasLists

theorem Quiet.trans {t t' t'' : CObjInfoList} (h : Quiet t t') (h' : Quiet t' t'') : Quiet t t'' where
  toRetains := h.toRetains.trans h'.toRetains
  allocs := h'.allocs.trans h.allocs
  tables := h'.tables.trans h.tables
  heads := h'.heads.trans h.heads
  dataTypes := h'.dataTypes.trans h.dataTypes
  localTypes := h'.localTypes.trans h.localTypes
  aliasLists := h'.aliasLists.trans h.aliasLists

theorem quiet_held (t : CObjInfoList) (held : Lock → Int) : Quiet t { t with held := held } where
  toRetains := ⟨Nat.le_refl _, fun _ object _ h => ⟨object, h, rfl, Nat.le_refl _⟩⟩
  allocs := rfl
  tables := rfl
  heads := rfl
  dataTypes := rfl
  localTypes := rfl
  aliasLists := rfl

theorem Quiet.refl (t : CObjInfoList) : Quiet t t := quiet_held t t.held

/-- A change of one object, under its lock. -/
theorem quiet_change (t : CObjInfoList) (held : Lock → Int) (o : Nat) {g : Object → Object}
    (hg : ∀ object, (g object).info = object.info ∧ object.mRef ≤ (g object).mRef) :
    Quiet t { t with
      held := held
      objects := Function.update t.objects o ((t.objects o).map g) } where
  toRetains :=
    { next := Nat.le_refl _
      kept := by
        intro b object hb h
        by_cases hbo : b = o
        · subst hbo
          exact ⟨g object, by simp [h], hg object⟩
        · exact ⟨object, by simp [Function.update_of_ne hbo, h], rfl, Nat.le_refl _⟩ }
  allocs := rfl
  tables := rfl
  heads := rfl
  dataTypes := rfl
  localTypes := rfl
  aliasLists := rfl

/-- A new object. -/
theorem quiet_create (t : CObjInfoList) (object : Object) : Quiet t
    { t with next := t.next + 1, objects := Function.update t.objects t.next (some object) } where
  toRetains :=
    { next := Nat.le_succ _
      kept := fun b object' hb h =>
        ⟨object', by simp [Function.update_of_ne (Nat.ne_of_lt hb), h], rfl, Nat.le_refl _⟩ }
  allocs := rfl
  tables := rfl
  heads := rfl
  dataTypes := rfl
  localTypes := rfl
  aliasLists := rfl

theorem Shows.quiet {R : Nat → Nat → Prop} {s : Caches} {t t' : CObjInfoList} (h : Shows R s t)
    (hq : Quiet t t') : Shows R s t' where
  granted := h.granted
  granted' := hq.allocs.trans h.granted'
  number := h.number
  address := h.address
  object i a hR := by
    obtain ⟨info, object, hinfo, hobject, href, hshows⟩ := h.object i a hR
    obtain ⟨object', hobject', hinfo', href'⟩ := hq.kept a object (h.below i a hR) hobject
    exact ⟨info, object', hinfo, hobject', href.trans href', by rw [hinfo']; exact hshows⟩
  below i a hR := (h.below i a hR).trans_le hq.next
  older := h.older
  aliasLists := hq.aliasLists.trans h.aliasLists
  dataTypes := by rw [hq.dataTypes]; exact h.dataTypes
  localTypes := by rw [hq.localTypes]; exact h.localTypes
  structs := by rw [hq.tables]; exact h.structs
  enums := by rw [hq.tables]; exact h.enums
  interfaces := by rw [hq.tables]; exact h.interfaces
  localPtrs := by rw [hq.tables]; exact h.localPtrs
  vectors := by rw [hq.heads]; exact h.vectors

/-! ## A new object, and a new entry -/

/-- The number `n` goes to the address `a`, too. -/
def link (R : Nat → Nat → Prop) (n a : Nat) : Nat → Nat → Prop := fun i b => R i b ∨ i = n ∧ b = a

section Change

variable {R : Nat → Nat → Prop} {s : Caches} {t : CObjInfoList} {o a : Nat}

theorem Shows.lt_length (h : Shows R s t) {i : Nat} (hR : R i a) : i < s.heap.length := by
  obtain ⟨info, object, hinfo, -⟩ := h.object i a hR
  exact (List.getElem?_eq_some_iff.mp hinfo).1

/-- An object of the registry becomes the info that the caches have made. -/
theorem Shows.linked (h : Shows R s t) (info : TypeInfo.Info) {object : Object} (ha : a < t.next)
    (hnew : ∀ i, ¬ R i a) (hobject : t.objects a = some object) (href : 1 ≤ object.mRef)
    (hinfo : ShowsInfo R info object.info)
    (helement : ∀ i length, info = .cppVector i length → i < s.heap.length) :
    Shows (link R s.heap.length a) { s with heap := s.heap ++ [info] } t where
  granted := h.granted
  granted' := h.granted'
  number := by
    rintro i j b (hi | ⟨rfl, rfl⟩) (hj | ⟨rfl, hb⟩)
    · exact h.number i j b hi hj
    · exact absurd (hb ▸ hi) (hnew i)
    · exact absurd hj (hnew j)
    · rfl
  address := by
    rintro i b c (hb | ⟨rfl, rfl⟩) (hc | ⟨hi, rfl⟩)
    · exact h.address i b c hb hc
    · exact absurd (h.lt_length hb) (by omega)
    · exact absurd (h.lt_length hc) (by omega)
    · rfl
  object := by
    have hmono : ∀ i b, R i b → link R s.heap.length a i b := fun i b hR => .inl hR
    rintro i b (hR | ⟨rfl, rfl⟩)
    · obtain ⟨info', object', hinfo', hobject', href', hshows⟩ := h.object i b hR
      refine ⟨info', object', ?_, hobject', href', hshows.mono hmono⟩
      exact (List.getElem?_append_left (h.lt_length hR)).trans hinfo'
    · exact ⟨info, object, by simp, hobject, href, hinfo.mono hmono⟩
  below := by
    rintro i b (hR | ⟨rfl, rfl⟩)
    · exact h.below i b hR
    · exact ha
  older := by
    intro j i length hj
    by_cases hlt : j < s.heap.length
    · exact h.older j i length ((List.getElem?_append_left hlt).symm.trans hj)
    · have hlen := (List.getElem?_eq_some_iff.mp hj).1
      rw [List.length_append, List.length_singleton] at hlen
      obtain rfl : j = s.heap.length := by omega
      simp only [List.getElem?_concat_length, Option.some.injEq] at hj
      exact helement i length hj
  aliasLists := h.aliasLists
  dataTypes d := optionRel_mono (fun _ _ => .inl) (h.dataTypes d)
  localTypes d := optionRel_mono (fun _ _ => .inl) (h.localTypes d)
  structs k := optionRel_mono (fun _ _ => .inl) (h.structs k)
  enums k := optionRel_mono (fun _ _ => .inl) (h.enums k)
  interfaces i := optionRel_mono (fun _ _ => .inl) (h.interfaces i)
  localPtrs k := optionRel_mono (fun _ _ => .inl) (h.localPtrs k)
  vectors := h.vectors.imp fun _ _ => .inl

theorem rel_update {ι κ : Type} [DecidableEq ι] [DecidableEq κ] {f : ι → Option Nat}
    {g : κ → Option Nat} {key : ι → κ} (hkey : Function.Injective key)
    (h : ∀ k, Option.Rel R (f k) (g (key k))) (hR : R o a) (k : ι) (k' : ι) :
    Option.Rel R (Function.update f k (some o) k') (Function.update g (key k) (some a) (key k')) := by
  by_cases hk : k' = k
  · subst hk
    rw [Function.update_self, Function.update_self]
    exact .some hR
  · rw [Function.update_of_ne hk, Function.update_of_ne (fun heq => hk (hkey heq))]
    exact h k'

/-- A cache is the entry of a table: what is looked up is the same, and so is what is
stored. -/
structure IsEntry (look : Caches → Option Nat) (store : Nat → Caches → Caches) (table : Table)
    (key : Key) : Prop where
  looks : ∀ {R s t}, Shows R s t → Option.Rel R (look s) (t.tables table key)
  stores : ∀ {R s t o a}, Shows R s t → R o a → Shows R (store o s)
    { t with tables := Function.update t.tables table
                         (Function.update (t.tables table) key (some a)) }
  heap : ∀ o s, (store o s).heap = s.heap

theorem isEntry_struct (k : Nat × Nat) : IsEntry (fun s => s.structInfos k)
    (fun o s => { s with structInfos := Function.update s.structInfos k (some o) })
    .mStructInfos (.entry k.1 k.2) where
  looks h := h.structs k
  stores h hR :=
    { h with
      structs := by
        have hkey : Function.Injective fun k : Nat × Nat => Key.entry k.1 k.2 := by
          rintro ⟨c, i⟩ ⟨c', i'⟩ heq
          simpa using heq
        simpa using rel_update hkey h.structs hR k
      enums := by simpa using h.enums
      interfaces := by simpa using h.interfaces
      localPtrs := by simpa using h.localPtrs }
  heap _ _ := rfl

theorem isEntry_enum (k : Nat × Nat) : IsEntry (fun s => s.enumInfos k)
    (fun o s => { s with enumInfos := Function.update s.enumInfos k (some o) })
    .mEnumInfos (.entry k.1 k.2) where
  looks h := h.enums k
  stores h hR :=
    { h with
      structs := by simpa using h.structs
      enums := by
        have hkey : Function.Injective fun k : Nat × Nat => Key.entry k.1 k.2 := by
          rintro ⟨c, i⟩ ⟨c', i'⟩ heq
          simpa using heq
        simpa using rel_update hkey h.enums hR k
      interfaces := by simpa using h.interfaces
      localPtrs := by simpa using h.localPtrs }
  heap _ _ := rfl

theorem isEntry_interface (i : Nat) : IsEntry (fun s => s.ifInfos i)
    (fun o s => { s with ifInfos := Function.update s.ifInfos i (some o) }) .mIFInfos (.iid i) where
  looks h := h.interfaces i
  stores h hR :=
    { h with
      structs := by simpa using h.structs
      enums := by simpa using h.enums
      interfaces := by
        have hkey : Function.Injective Key.iid := fun i j heq => by simpa using heq
        simpa using rel_update hkey h.interfaces hR i
      localPtrs := by simpa using h.localPtrs }
  heap _ _ := rfl

theorem isEntry_localPtr (k : Nat × TypePtr × Int) : IsEntry (fun s => s.localPtrInfos k)
    (fun o s => { s with localPtrInfos := Function.update s.localPtrInfos k (some o) })
    .mLocalPtrInfos (.localPtr k.1 k.2.1 k.2.2) where
  looks h := h.localPtrs k
  stores h hR :=
    { h with
      structs := by simpa using h.structs
      enums := by simpa using h.enums
      interfaces := by simpa using h.interfaces
      localPtrs := by
        have hkey : Function.Injective fun k : Nat × TypePtr × Int =>
            Key.localPtr k.1 k.2.1 k.2.2 := by
          rintro ⟨c, p, n⟩ ⟨c', p', n'⟩ heq
          simpa using heq
        simpa using rel_update hkey h.localPtrs hR k }
  heap _ _ := rfl

/-- A cache is a slot of an array of infos. -/
structure IsSlot (look : Caches → Option Nat) (store : Nat → Caches → Caches)
    (look' : CObjInfoList → Option Nat) (store' : Nat → CObjInfoList → CObjInfoList) : Prop where
  looks : ∀ {R s t}, Shows R s t → Option.Rel R (look s) (look' t)
  stores : ∀ {R s t o a}, Shows R s t → R o a → Shows R (store o s) (store' a t)
  heap : ∀ o s, (store o s).heap = s.heap
  held : ∀ t held, look' { t with held := held } = look' t
  kept : ∀ a t, (store' a t).objects = t.objects ∧ (store' a t).next = t.next

theorem isSlot_dataType (d : CarDataType) : IsSlot (fun s => s.dataTypeInfos d)
    (fun o s => { s with dataTypeInfos := Function.update s.dataTypeInfos d (some o) })
    (fun t => t.mDataTypeInfos d)
    (fun a t => { t with mDataTypeInfos := Function.update t.mDataTypeInfos d (some a) }) where
  looks h := h.dataTypes d
  stores h hR := { h with dataTypes := rel_update Function.injective_id h.dataTypes hR d }
  heap _ _ := rfl
  held _ _ := rfl
  kept _ _ := ⟨rfl, rfl⟩

theorem isSlot_localType (d : CARDataType) : IsSlot (fun s => s.localTypeInfos d)
    (fun o s => { s with localTypeInfos := Function.update s.localTypeInfos d (some o) })
    (fun t => t.mLocalTypeInfos d)
    (fun a t => { t with mLocalTypeInfos := Function.update t.mLocalTypeInfos d (some a) }) where
  looks h := h.localTypes d
  stores h hR := { h with localTypes := rel_update Function.injective_id h.localTypes hR d }
  heap _ _ := rfl
  held _ _ := rfl
  kept _ _ := ⟨rfl, rfl⟩

end Change

/-! ## Calls that answer alike -/

/-- What a call of both does: objects are only added, and the registry shows the caches
again. -/
structure Step (R : Nat → Nat → Prop) (s : Caches) (t : CObjInfoList) (R' : Nat → Nat → Prop)
    (s' : Caches) (t' : CObjInfoList) : Prop extends Retains t t' where
  heap : s.heap.length ≤ s'.heap.length
  grows : ∀ i a, R i a → R' i a
  fresh : ∀ i a, R' i a → R i a ∨ s.heap.length ≤ i ∧ t.next ≤ a
  shows : Shows R' s' t'

/-- The object has one more reference at least. -/
def Raised (t t' : CObjInfoList) (a : Nat) : Prop :=
  ∃ object object', t.objects a = some object ∧ t'.objects a = some object' ∧
    1 ≤ object.mRef ∧ object.mRef < object'.mRef

/-- The object of an answer is the last one made, or nothing was made and it has a reference
more. -/
def Held (s : Caches) (t : CObjInfoList) (s' : Caches) (t' : CObjInfoList) (o a : Nat) : Prop :=
  s.heap.length ≤ o ∧ o + 1 = s'.heap.length ∨ s'.heap.length = s.heap.length ∧ Raised t t' a

/-- When the caches have an answer, the registry has it, too. -/
def AnswersAt (R : Nat → Nat → Prop) (s : Caches) (t : CObjInfoList) (call : TypeInfo.Call Nat)
    (call' : Call (Except ECode Nat)) : Prop :=
  ∀ ⦃o s'⦄, call s = (.ok o, s') →
    ∃ R' a t', call' t = some (.ok a, t') ∧ R' o a ∧ Step R s t R' s' t' ∧ Held s t s' t' o a

def Answers (call : TypeInfo.Call Nat) (call' : Call (Except ECode Nat)) : Prop :=
  ∀ ⦃R s t⦄, Shows R s t → AnswersAt R s t call call'

section Steps

variable {R R' R'' : Nat → Nat → Prop} {s s' s'' : Caches} {t t' t'' : CObjInfoList}

theorem Shows.step (h : Shows R s t) (hq : Quiet t t') : Step R s t R s t' where
  toRetains := hq.toRetains
  heap := Nat.le_refl _
  grows _ _ hR := hR
  fresh _ _ := .inl
  shows := h.quiet hq

theorem Step.trans (h : Step R s t R' s' t') (h' : Step R' s' t' R'' s'' t'') :
    Step R s t R'' s'' t'' where
  toRetains := h.toRetains.trans h'.toRetains
  heap := h.heap.trans h'.heap
  grows i a hR := h'.grows i a (h.grows i a hR)
  fresh i a hR := by
    rcases h'.fresh i a hR with hR' | ⟨hi, ha⟩
    · exact h.fresh i a hR'
    · exact .inr ⟨h.heap.trans hi, h.next.trans ha⟩
  shows := h'.shows

theorem Step.change (h : Step R s t R' s' t') (hretains : Retains t' t'')
    (hheap : s''.heap.length = s'.heap.length) (hshows : Shows R' s'' t'') :
    Step R s t R' s'' t'' where
  toRetains := h.toRetains.trans hretains
  heap := h.heap.trans hheap.ge
  grows := h.grows
  fresh := h.fresh
  shows := hshows

theorem Raised.trans {a : Nat} (h : Raised t t' a) (ha : a < t'.next) (hkept : Retains t' t'') :
    Raised t t'' a := by
  obtain ⟨object, object', hobject, hobject', hpos, href⟩ := h
  obtain ⟨object'', hobject'', -, href'⟩ := hkept.kept a object' ha hobject'
  exact ⟨object, object'', hobject, hobject'', hpos, href.trans_le href'⟩

theorem retains_of_eq (hobjects : t'.objects = t.objects) (hnext : t'.next = t.next) : Retains t t' where
  next := hnext.ge
  kept b object _ h := ⟨object, by rw [hobjects, h], rfl, Nat.le_refl _⟩

/-- A reference more. -/
def raised (t : CObjInfoList) (a : Nat) : CObjInfoList :=
  { t with
    objects := Function.update t.objects a
      ((t.objects a).map fun object => { object with mRef := object.mRef + 1 }) }

theorem quiet_raised (t : CObjInfoList) (a : Nat) : Quiet t (raised t a) :=
  quiet_change t t.held a (g := fun object => { object with mRef := object.mRef + 1 })
    fun _ => ⟨rfl, Nat.le_succ _⟩

theorem raised_raised {a : Nat} {object : Object} (h : t.objects a = some object)
    (hpos : 1 ≤ object.mRef) : Raised t (raised t a) a :=
  ⟨object, { object with mRef := object.mRef + 1 }, h, by simp [raised, h], hpos, Nat.lt_succ_self _⟩

/-- An object that is there answers, with a reference more. -/
theorem Shows.found (h : Shows R s t) {o a : Nat} (hR : R o a) (held : Lock → Int) :
    Step R s t R s { raised t a with held := held } ∧
      Held s t s { raised t a with held := held } o a := by
  obtain ⟨-, object, -, hobject, hpos, -⟩ := h.object o a hR
  exact ⟨h.step ((quiet_raised t a).trans (quiet_held _ held)),
    .inr ⟨rfl, raised_raised hobject hpos⟩⟩

end Steps

/-! ## Infos in tables -/

/-- A new object at the next address. -/
def created (t : CObjInfoList) (object : Object) : CObjInfoList :=
  { t with next := t.next + 1, objects := Function.update t.objects t.next (some object) }

/-- What the caches make is what `init` makes of a new object of the registry. -/
def Makes (make : TypeInfo.Call Nat) (object : Object) (init : Nat → Call (Option ECode)) : Prop :=
  ∀ ⦃R s t o s'⦄, Shows R s t → make s = (.ok o, s') →
    ∃ R' t', init t.next (created t object) = some (none, t') ∧ R' o t.next ∧
      Step R s t R' s' t' ∧ s.heap.length ≤ o ∧ o + 1 = s'.heap.length

section Tables

variable {R : Nat → Nat → Prop} {s : Caches} {t : CObjInfoList} {a o depth : Nat} {type : EntryType}
  {table : Table} {key : Key} {info : InfoList.Info} {init : Nat → Call (Option ECode)}
  {look : Caches → Option Nat} {store : Nat → Caches → Caches} {make : TypeInfo.Call Nat}

theorem bind_ok {α β : Type} {x : TypeInfo.Call α} {f : α → TypeInfo.Call β} {b : β} {s' : Caches}
    (h : TypeInfo.Call.bind x f s = (.ok b, s')) :
    ∃ a s₁, x s = (.ok a, s₁) ∧ f a s₁ = (.ok b, s') := by
  unfold TypeInfo.Call.bind at h
  cases hx : x s with
  | mk r s₁ =>
    rw [hx] at h
    cases r with
    | error e => cases h
    | ok a => exact ⟨a, s₁, rfl, h⟩

theorem cached_some (h : look s = some o) : TypeInfo.Call.cached look store make s = (.ok o, s) := by
  simp only [TypeInfo.Call.cached, h]

theorem cached_none (h : look s = none) : TypeInfo.Call.cached look store make s =
    TypeInfo.Call.bind make (fun o s => (.ok o, store o s)) s := by
  simp only [TypeInfo.Call.cached, h]

theorem alloc_run (h : t.allocs = []) : alloc t = some (true, t) := by
  simp [alloc, h]

theorem allocMany_run (h : t.allocs = []) (n : Nat) : allocMany n t = some (true, t) := by
  induction n with
  | zero => rfl
  | succ n ih => simp [allocMany, alloc_run h, ih]

theorem rel_some {x y : Option Nat} (h : Option.Rel R x y) (hy : y = some a) :
    ∃ o, x = some o ∧ R o a := by
  subst hy
  cases h with
  | some hR => exact ⟨_, rfl, hR⟩

theorem rel_none {x y : Option Nat} (h : Option.Rel R x y) (hy : y = none) : x = none := by
  subst hy
  cases h with
  | none => rfl

theorem acquireInfo_hit (depth : Nat) (type : EntryType) (info : InfoList.Info)
    (init : Nat → Call (Option ECode)) (htable : t.tables table key = some a) :
    acquireInfo depth type table key info none init t = some (.ok a,
      { raised t a with held := t.held + lockCalls type - lockCalls type }) := by
  simp [acquireInfo, lockHashTable, unlockHashTable, InfoList.get, addRef, htable, raised]

theorem acquireInfo_miss (depth : Nat) (htable : t.tables table key = none) (halloc : t.allocs = [])
    {t' : CObjInfoList}
    (hinit : init t.next (created { t with held := t.held + lockCalls type }
      ⟨some type, 1, .table table key, [], info⟩) = some (none, t')) (halloc' : t'.allocs = []) :
    acquireInfo depth type table key info none init t = some (.ok t.next,
      { t' with
        tables := Function.update t'.tables table (Function.update (t'.tables table) key (some t.next))
        held := t'.held - lockCalls type }) := by
  simp only [created, halloc] at hinit
  simp [acquireInfo, lockHashTable, unlockHashTable, InfoList.get, create, setObject, put, setTable,
    htable, alloc, halloc, hinit, halloc']

/-- An info that is kept in a table. -/
theorem acquireInfo_answers (hentry : IsEntry look store table key)
    (hmake : Makes make ⟨some type, 1, .table table key, [], info⟩ init) :
    Answers (TypeInfo.Call.cached look store make)
      (acquireInfo depth type table key info none init) := by
  intro R s t h o s' hcall
  have hlook := hentry.looks h
  cases ht : t.tables table key with
  | some a =>
    obtain ⟨o', hs, hR⟩ := rel_some hlook ht
    rw [cached_some hs] at hcall
    cases hcall
    obtain ⟨hstep, hheld⟩ := h.found hR (t.held + lockCalls type - lockCalls type)
    exact ⟨R, a, _, acquireInfo_hit depth type info init ht, hR, hstep, hheld⟩
  | none =>
    rw [cached_none (rel_none hlook ht)] at hcall
    -- the caches make an object, and the registry makes it under its lock
    obtain ⟨o', s₁, hmade, hstore⟩ := bind_ok hcall
    cases hstore
    have hlocked := h.step (quiet_held t (t.held + lockCalls type))
    obtain ⟨R', t', hinit, hR, hstep, hfirst, hlast⟩ := hmake hlocked.shows hmade
    have hstored := hentry.stores hstep.shows hR
    have hrun := acquireInfo_miss depth ht h.granted' hinit hstep.shows.granted'
    have hheap : (store o s₁).heap.length = s₁.heap.length := by rw [hentry.heap]
    exact ⟨R', t.next, _, hrun, hR, (hlocked.trans hstep).change (retains_of_eq rfl rfl) hheap
      (hstored.quiet (quiet_held _ _)), .inl ⟨hfirst, hlast.trans hheap.symm⟩⟩

end Tables

/-- No `Init` fails, no struct has an element for which the computation of its layout divides
by zero, and no type is an `ArrayOf`: where an array of its data type is there, the registry
lets go of an element that it has just made, which the caches keep until it is released. -/
structure World.Granted (W : World) : Prop where
  inits : ∀ key, W.initFails key = none
  layouts : ∀ types : List Nat,
    DynamicTypes.Divides W.layout (types.map fun type => (none, type))
  arrays : ∀ c a, ((W.types.module c).desc a).type ≠ .arrayOf

section Makes

variable {W : World} {R : Nat → Nat → Prop} {s : Caches} {t : CObjInfoList}

/-- `hold` runs, and the caches do not see it. -/
theorem hold_run (t : CObjInfoList) (o member : Nat) : ∃ t', hold o member t = some (⟨⟩, t') ∧
    Quiet t t' ∧ Retains (raised t member) t' := by
  have hmember := quiet_change (raised t member) t.held o
    (g := fun object => { object with members := member :: object.members }) fun _ => ⟨rfl, Nat.le_refl _⟩
  exact ⟨_, rfl, (quiet_raised t member).trans hmember, hmember.toRetains⟩

theorem new_run (hgranted : s.allocs = []) (info : TypeInfo.Info) :
    TypeInfo.Call.new info s = (.ok s.heap.length, { s with heap := s.heap ++ [info] }) := by
  simp [TypeInfo.Call.new, TypeInfo.Call.alloc, bind, TypeInfo.Call.bind, hgranted]

/-- A new object of the registry that is the info the caches have made. -/
theorem Shows.made (h : Shows R s t) {t' : CObjInfoList} {object : Object} (info : TypeInfo.Info)
    (hq : Quiet (created t object) t') (href : 1 ≤ object.mRef)
    (hinfo : ShowsInfo R info object.info)
    (helement : ∀ i length, info = .cppVector i length → i < s.heap.length) :
    Step R s t (link R s.heap.length t.next) { s with heap := s.heap ++ [info] } t' where
  toRetains := (quiet_create t object).toRetains.trans hq.toRetains
  heap := by simp
  grows _ _ hR := .inl hR
  fresh := by
    rintro i a (hR | ⟨rfl, rfl⟩)
    · exact .inl hR
    · exact .inr ⟨Nat.le_refl _, Nat.le_refl _⟩
  shows := by
    have hnext : t.next < t.next + 1 := Nat.lt_succ_self _
    obtain ⟨object', hobject', hinfo', href'⟩ := hq.kept t.next object hnext (Function.update_self ..)
    refine ((h.quiet (quiet_create t object)).quiet hq).linked info
      (hnext.trans_le hq.next) (fun i hR => ?_) hobject' (href.trans href') ?_ helement
    · exact absurd (h.below i _ hR) (Nat.lt_irrefl _)
    · rw [hinfo']
      exact hinfo

/-- An info without parts, of which `init` only holds the module. -/
theorem makes_new (info : TypeInfo.Info) (hvector : ∀ i length, info ≠ .cppVector i length)
    {object : Object} (href : 1 ≤ object.mRef) (hinfo : object.info = .dataType info.dataType)
    {init : Nat → Call (Option ECode)}
    (hinit : ∀ o t, t.allocs = [] → ∃ t', init o t = some (none, t') ∧ Quiet t t') :
    Makes (TypeInfo.Call.new info) object init := by
  intro R s t o s' h hmade
  rw [new_run h.granted] at hmade
  cases hmade
  obtain ⟨t', hrun, hquiet⟩ := hinit t.next (created t object) h.granted'
  refine ⟨link R s.heap.length t.next, t', hrun, .inr ⟨rfl, rfl⟩, ?_, Nat.le_refl _, by simp⟩
  exact h.made info hquiet href (hinfo ▸ .other hvector) fun i length heq =>
    absurd heq (hvector i length)

theorem initEntry_run (hW : W.Granted) (clsModule : Nat) (key : Key) (o : Nat) (t : CObjInfoList)
    (halloc : t.allocs = []) :
    ∃ t', initEntry W clsModule key o t = some (none, t') ∧ Quiet t t' := by
  obtain ⟨t', hrun, hquiet, -⟩ := hold_run t o clsModule
  refine ⟨t', ?_, hquiet⟩
  simp [initEntry, hrun, allocMany_run (hquiet.allocs.trans halloc), hW.inits]

/-- The types of the elements of a struct. -/
theorem initFieldTypes_answers {field : Nat → TypeInfo.Call Nat}
    {field' : Nat → Call (Except ECode Nat)} (hfield : ∀ a, Answers (field a) (field' a))
    (depth o : Nat) (as : List Nat) (types : List Nat) {R : Nat → Nat → Prop} {s s' : Caches}
    {t : CObjInfoList} {os : List Nat} (h : Shows R s t)
    (hcall : TypeInfo.acquireFields field as s = (.ok os, s')) :
    ∃ R' types' t', initFieldTypes depth field' o types as t = some (.ok types', t') ∧
      Step R s t R' s' t' := by
  induction as generalizing R s t types os with
  | nil =>
    cases hcall
    exact ⟨R, types.reverse, t, rfl, h.step (Quiet.refl t)⟩
  | cons a as ih =>
    obtain ⟨o', s₁, hfirst, hrest⟩ := bind_ok hcall
    obtain ⟨os', s₂, hrest, hpure⟩ := bind_ok hrest
    cases hpure
    obtain ⟨R₁, a', t₁, hrun, -, hstep, -⟩ := hfield a h hfirst
    obtain ⟨R₂, types', t₂, hrun', hstep'⟩ := ih (a' :: types) hstep.shows hrest
    exact ⟨R₂, types', t₂, by simp [initFieldTypes, hrun, hrun'], hstep.trans hstep'⟩

/-- A struct, whose `Init` acquires the types of its elements. -/
theorem makes_struct (hW : W.Granted) {field : Nat → TypeInfo.Call Nat}
    {field' : Nat → Call (Except ECode Nat)} (hfield : ∀ a, Answers (field a) (field' a))
    (depth c index : Nat) {object : Object} (href : 1 ≤ object.mRef)
    (hinfo : object.info = .dataType .struct) :
    Makes (do
        TypeInfo.Call.alloc
        let fields ← TypeInfo.acquireFields field ((W.types.module c).structs index)
        TypeInfo.Call.new (.struct c index fields))
      object (initStaticStruct W depth field' c index) := by
  intro R s t o s' h hmade
  obtain ⟨_, s₀, halloc, hrest⟩ := bind_ok hmade
  obtain rfl : s₀ = s := by
    simpa [TypeInfo.Call.alloc, h.granted, eq_comm] using halloc
  obtain ⟨fields, s₁, hfields, hnew⟩ := bind_ok hrest
  -- the object is there, and held, before its elements are acquired
  obtain ⟨t₁, hhold, hquiet, -⟩ := hold_run (created t object) t.next c
  have h₁ : Shows R s₀ t₁ := (h.quiet (quiet_create t object)).quiet hquiet
  obtain ⟨R', types, t₂, hfields', hstep⟩ :=
    initFieldTypes_answers hfield depth t.next _ [] h₁ hfields
  have hnext : t.next < t.next + 1 := Nat.lt_succ_self _
  have hnext₁ : t.next < t₁.next := hnext.trans_le hquiet.next
  obtain ⟨object₁, hobject₁, hinfo₁, href₁⟩ :=
    hquiet.kept t.next object hnext (Function.update_self ..)
  obtain ⟨object₂, hobject₂, hinfo₂, href₂⟩ := hstep.kept t.next object₁ hnext₁ hobject₁
  have hfree : ∀ i, ¬ R' i t.next := by
    intro i hR
    rcases hstep.fresh i _ hR with hR | ⟨-, hle⟩
    · exact absurd (h.below i _ hR) (Nat.lt_irrefl _)
    · omega
  -- at the end it gets the types as its members
  have hmembers := quiet_change t₂ t₂.held t.next
    (g := fun object => { object with members := types ++ object.members }) fun _ => ⟨rfl, Nat.le_refl _⟩
  set t₃ : CObjInfoList := { t₂ with
    objects := Function.update t₂.objects t.next
      ((t₂.objects t.next).map fun object => { object with members := types ++ object.members }) }
    with ht₃
  have hrun : initStaticStruct W depth field' c index t.next (created t object) = some (none, t₃) := by
    have halloc₁ : t₁.allocs = [] := h₁.granted'
    have halloc₂ : t₂.allocs = [] := hstep.shows.granted'
    obtain ⟨layout, hlayout⟩ := Option.isSome_iff_exists.mp
      ((DynamicTypes.initFieldElement_isSome ..).mpr (hW.layouts types))
    simp [initStaticStruct, hhold, allocMany_run halloc₁, hfields', alloc_run halloc₂, hlayout,
      DynamicTypes.initInfos, allocMany_run halloc₂, ht₃]
  rw [new_run hstep.shows.granted] at hnew
  cases hnew
  have hobject₃ : t₃.objects t.next = some { object₂ with members := types ++ object₂.members } := by
    simp [ht₃, hobject₂]
  have hshows := (hstep.shows.quiet hmembers).linked (.struct c index fields)
    ((Nat.lt_of_lt_of_le hnext₁ hstep.next).trans_le hmembers.next) hfree hobject₃
    (href.trans (href₁.trans href₂)) (by
      rw [show ({ object₂ with members := types ++ object₂.members } : Object).info = _ from
        hinfo₂.trans (hinfo₁.trans hinfo)]
      exact .other (by simp)) (by simp)
  refine ⟨link R' s₁.heap.length t.next, t₃, hrun, .inr ⟨rfl, rfl⟩, ?_, hstep.heap, by simp⟩
  exact
    { toRetains := (((quiet_create t object).toRetains.trans hquiet.toRetains).trans
        hstep.toRetains).trans hmembers.toRetains
      heap := hstep.heap.trans (by simp)
      grows := fun i a hR => .inl (hstep.grows i a hR)
      fresh := by
        rintro i a (hR | ⟨rfl, rfl⟩)
        · rcases hstep.fresh i a hR with hR | ⟨hi, hle⟩
          · exact .inl hR
          · exact .inr ⟨hi, by omega⟩
        · exact .inr ⟨hstep.heap, Nat.le_refl _⟩
      shows := hshows }

end Makes

/-! ## Infos in arrays and lists -/

section Arrays

variable {R : Nat → Nat → Prop} {s : Caches} {t : CObjInfoList}

theorem create_run (object : Object) (t : CObjInfoList) :
    create object t = some (t.next, created t object) := rfl

/-- An info in a slot. -/
theorem acquireSlot_answers {look : Caches → Option Nat} {store : Nat → Caches → Caches}
    {look' : CObjInfoList → Option Nat} {store' : Nat → CObjInfoList → CObjInfoList}
    (hslot : IsSlot look store look' store') (type : EntryType) (info : TypeInfo.Info)
    (hvector : ∀ i length, info ≠ .cppVector i length) {object : Object} (href : 1 ≤ object.mRef)
    (hinfo : object.info = .dataType info.dataType) :
    Answers (TypeInfo.Call.cached look store (TypeInfo.Call.new info))
      (acquireSlot type look' store' (create object)) := by
  intro R s t h o s' hcall
  have hlook := hslot.looks h
  cases ht : look' t with
  | some a =>
    obtain ⟨o', hs, hR⟩ := rel_some hlook ht
    rw [cached_some hs] at hcall
    cases hcall
    obtain ⟨hstep, hheld⟩ := h.found hR (t.held + lockCalls type - lockCalls type)
    refine ⟨R, a, _, ?_, hR, hstep, hheld⟩
    simp [acquireSlot, lockHashTable, unlockHashTable, addRef, hslot.held, ht, raised]
  | none =>
    rw [cached_none (rel_none hlook ht)] at hcall
    obtain ⟨o', s₁, hmade, hstore⟩ := bind_ok hcall
    cases hstore
    rw [new_run h.granted] at hmade
    cases hmade
    -- made under the lock, put into the slot, and given one reference more
    have hlocked := h.step (quiet_held t (t.held + lockCalls type))
    have hmade := hlocked.trans (hlocked.shows.made info (Quiet.refl _) href
      (hinfo ▸ .other hvector) fun i length heq => absurd heq (hvector i length))
    have hR : link R s.heap.length t.next s.heap.length t.next := .inr ⟨rfl, rfl⟩
    set t₁ := store' t.next (created { t with held := t.held + lockCalls type } object) with ht₁
    have hstored := hmade.change (retains_of_eq (hslot.kept _ _).1 (hslot.kept _ _).2)
      (by rw [hslot.heap]) (hslot.stores hmade.shows hR)
    have hquiet := quiet_change t₁ (t₁.held - lockCalls type) t.next
      (g := fun object => { object with mRef := object.mRef + 1 }) fun _ => ⟨rfl, Nat.le_succ _⟩
    refine ⟨_, t.next, _, ?_, hR, hstored.change hquiet.toRetains rfl (hstored.shows.quiet hquiet),
      .inl ⟨Nat.le_refl _, by simp [hslot.heap]⟩⟩
    have halloc : alloc { t with held := t.held + lockCalls type } = some (true, _) :=
      alloc_run h.granted'
    simp [acquireSlot, lockHashTable, unlockHashTable, addRef, hslot.held, ht, halloc, create_run, ht₁]

/-- The walk over the vectors goes along the list of the caches. -/
theorem findElement_shows (h : Shows R s t) {i a : Nat} (hR : R i a) (length : Int) {vs bs : List Nat}
    (hlist : List.Forall₂ R vs bs) :
    Option.Rel (fun v r => ∃ b, r = .ok b ∧ R v b)
      (vs.find? fun o => s.heap[o]? = some (.cppVector i length))
      (findElement t.objects (hasLength length) a bs) := by
  induction hlist with
  | nil => exact .none
  | @cons v b vs bs hvb hrest ih =>
    obtain ⟨info, ⟨type, mRef, place, members, info'⟩, hinfo, hobject, -, hshows⟩ := h.object v b hvb
    unfold findElement
    rw [List.find?_cons, hinfo, hobject]
    cases hshows with
    | other hvector =>
      simpa [hasLength, hvector] using ih
    | @cppVector i' a' length' hR' =>
      by_cases hlength : length' = length
      · subst hlength
        by_cases hi : i' = i
        · subst hi
          obtain rfl := h.address i' _ _ hR' hR
          simpa [hasLength, getElementTypeInfo] using hvb
        · have ha : a' ≠ a := fun heq => hi (h.number _ _ _ hR' (heq ▸ hR))
          simpa [hasLength, getElementTypeInfo, hi, ha] using ih
      · simpa [hasLength, hlength] using ih

theorem Shows.storeVector (h : Shows R s t) {v b : Nat} (hR : R v b) :
    Shows R { s with cppVectorHead := v :: s.cppVectorHead }
      { t with heads := Function.update t.heads .mCCppVectorHead (b :: t.heads .mCCppVectorHead) } :=
  { h with vectors := by simpa using List.Forall₂.cons hR h.vectors }

theorem acquireListed_hit {depth : Nat} {head : Head} {candidate : Option Object → Bool}
    {info : InfoList.Info} {element b : Nat}
    (hfind : findElement t.objects candidate element (t.heads head) = some (.ok b)) :
    acquireListed depth head candidate info element t = some (.ok b,
      { raised t b with held := t.held + lockCalls .DataType - lockCalls .DataType }) := by
  simp [acquireListed, lockHashTable, unlockHashTable, addRef, hfind, raised]

theorem acquireListed_miss {depth : Nat} {head : Head} {candidate : Option Object → Bool}
    {info : InfoList.Info} {element : Nat}
    (hfind : findElement t.objects candidate element (t.heads head) = none) (halloc : t.allocs = [])
    {t' : CObjInfoList}
    (hhold : hold t.next element (created { t with held := t.held + lockCalls .DataType }
      ⟨some .DataType, 1, .list head, [], info⟩) = some (⟨⟩, t')) (halloc' : t'.allocs = []) :
    acquireListed depth head candidate info element t = some (.ok t.next,
      { t' with
        heads := Function.update t'.heads head (t.next :: t'.heads head)
        held := t'.held - lockCalls .DataType }) := by
  have hmem : alloc { t with held := t.held + lockCalls .DataType } = some (true, _) :=
    alloc_run halloc
  simp [acquireListed, lockHashTable, unlockHashTable, hfind, hmem, create_run, hhold, addInfoNode,
    alloc_run halloc']

/-- A vector. When it is found, its element is not the last object made; when it is made, it
holds its element. -/
theorem acquireCppVectorInfo_answers (h : Shows R s t) {i a : Nat} (hR : R i a) (depth : Nat)
    (length : Int) {v : Nat} {s' : Caches}
    (hcall : TypeInfo.acquireCppVectorInfo i length s = (.ok v, s')) :
    ∃ R' b t', acquireCppVectorInfo depth (some a) length true t = some (.ok b, t') ∧ R' v b ∧
      Step R s t R' s' t' ∧ b ≠ a ∧
      (i + 1 < s.heap.length ∧ s'.heap.length = s.heap.length ∧ Raised t t' b ∨
        s.heap.length ≤ v ∧ v + 1 = s'.heap.length ∧ Raised t t' a) := by
  have hfound := findElement_shows h hR length h.vectors
  have hunfold : acquireCppVectorInfo depth (some a) length true =
      acquireListed depth .mCCppVectorHead (hasLength length) (.cppVector a length) a := rfl
  rw [hunfold]
  unfold TypeInfo.acquireCppVectorInfo at hcall
  cases hs : s.cppVectorHead.find? fun o => s.heap[o]? = some (.cppVector i length) with
  | some w =>
    rw [cached_some hs] at hcall
    cases hcall
    rw [hs] at hfound
    obtain ⟨b, hfind, hvb⟩ : ∃ b, findElement t.objects (hasLength length) a
        (t.heads .mCCppVectorHead) = some (.ok b) ∧ R v b := by
      generalize findElement t.objects _ a _ = r at hfound
      cases hfound with
      | some hr =>
        obtain ⟨b, rfl, hvb⟩ := hr
        exact ⟨b, rfl, hvb⟩
    have hinfo : s.heap[v]? = some (.cppVector i length) := by
      simpa using List.find?_some hs
    have hiv := h.older v i length hinfo
    have hlt := h.lt_length hvb
    obtain ⟨-, object, -, hobject, hpos, -⟩ := h.object v b hvb
    refine ⟨R, b, _, acquireListed_hit hfind, hvb, (h.found hvb _).1, ?_,
      .inl ⟨by omega, rfl, raised_raised hobject hpos⟩⟩
    rintro rfl
    exact absurd (h.number _ _ _ hvb hR) (by omega)
  | none =>
    rw [cached_none hs] at hcall
    obtain ⟨o, s₁, hmade, hstore⟩ := bind_ok hcall
    cases hstore
    rw [new_run h.granted] at hmade
    cases hmade
    rw [hs] at hfound
    have hfind : findElement t.objects (hasLength length) a (t.heads .mCCppVectorHead) = none := by
      generalize findElement t.objects _ a _ = r at hfound
      cases hfound with
      | none => rfl
    have hlocked := h.step (quiet_held t (t.held + lockCalls .DataType))
    obtain ⟨t₁, hhold, hquiet, hraised⟩ := hold_run (created
      { t with held := t.held + lockCalls .DataType }
      ⟨some .DataType, 1, .list .mCCppVectorHead, [], .cppVector a length⟩) t.next a
    have hmade := hlocked.trans (hlocked.shows.made (.cppVector i length) hquiet (Nat.le_refl 1)
      (.cppVector length hR) fun j length' heq => by cases heq; exact h.lt_length hR)
    have hlink : link R s.heap.length t.next s.heap.length t.next := .inr ⟨rfl, rfl⟩
    have hshows := (hmade.shows.storeVector hlink).quiet (quiet_held _ (t₁.held - lockCalls .DataType))
    have hstored := hmade.change (retains_of_eq (by rfl) (by rfl)) (by rfl) hshows
    -- the vector holds its element
    have hlt := h.below i a hR
    obtain ⟨-, object, -, hobject, hpos, -⟩ := h.object i a hR
    have hobject' : (created { t with held := t.held + lockCalls .DataType }
        ⟨some .DataType, 1, .list .mCCppVectorHead, [], .cppVector a length⟩).objects a =
        some object := by
      simp [created, Function.update_of_ne (Nat.ne_of_lt hlt), hobject]
    obtain ⟨object₀, object₁, hobject₀, hobject₁, -, href⟩ := (raised_raised hobject' hpos).trans
      (hlt.trans (Nat.lt_succ_self _)) (hraised.trans (retains_of_eq rfl rfl))
    cases hobject'.symm.trans hobject₀
    exact ⟨_, t.next, _, acquireListed_miss hfind h.granted' hhold hmade.shows.granted', hlink, hstored,
      (Nat.ne_of_lt hlt).symm,
      .inr ⟨Nat.le_refl _, by simp, object, object₁, hobject, hobject₁, hpos, href⟩⟩

end Arrays

/-! ## The release of an element -/

section Release

variable {R R' : Nat → Nat → Prop} {s s' : Caches} {t t' : CObjInfoList} {a : Nat} {object : Object}

/-- An object that is held elsewhere loses a reference, under its lock. -/
theorem release_held (depth : Nat) (hobject : t.objects a = some object) (href : 2 ≤ object.mRef) :
    ∃ held, release (depth + 1) a t = some (⟨⟩, { t with
      held := held
      objects := Function.update t.objects a (some { object with mRef := object.mRef - 1 }) }) := by
  have hmore : ¬ object.mRef ≤ 1 := by omega
  cases htype : object.type with
  | none => exact ⟨t.held, by simp [release, hobject, htype, dropRef, hmore, setObject]⟩
  | some type =>
    exact ⟨t.held + lockCalls type - lockCalls type, by
      simp [release, hobject, htype, dropRef, hmore, setObject, lockHashTable, unlockHashTable]⟩

/-- An object that a call has given a reference to may lose it at the end of the call. -/
theorem Step.release (h : Step R s t R' s' t') (hobject : t'.objects a = some object)
    (href : 2 ≤ object.mRef)
    (hmore : ∀ object₀, a < t.next → t.objects a = some object₀ → object₀.mRef < object.mRef)
    (held : Lock → Int) :
    Step R s t R' s' { t' with
      held := held
      objects := Function.update t'.objects a (some { object with mRef := object.mRef - 1 }) } where
  next := h.next
  kept b object₀ hb hobject₀ := by
    obtain ⟨object₁, hobject₁, hinfo, href₁⟩ := h.kept b object₀ hb hobject₀
    by_cases hba : b = a
    · subst hba
      cases hobject.symm.trans hobject₁
      have hlt := hmore object₀ hb hobject₀
      exact ⟨{ object with mRef := object.mRef - 1 }, Function.update_self .., hinfo,
        Nat.le_sub_one_of_lt hlt⟩
    · exact ⟨object₁, (Function.update_of_ne hba ..).trans hobject₁, hinfo, href₁⟩
  heap := h.heap
  grows := h.grows
  fresh := h.fresh
  shows :=
    { h.shows with
      object := by
        intro i b hR
        obtain ⟨info, object₁, hinfo, hobject₁, hpos, hshows⟩ := h.shows.object i b hR
        by_cases hba : b = a
        · subst hba
          cases hobject.symm.trans hobject₁
          exact ⟨info, { object with mRef := object.mRef - 1 }, hinfo, Function.update_self ..,
            by simp only; omega, hshows⟩
        · exact ⟨info, object₁, hinfo, (Function.update_of_ne hba ..).trans hobject₁, hpos, hshows⟩ }

end Release

/-! ## Data types -/

section DataTypes

variable {W : World} {R : Nat → Nat → Prop} {s : Caches} {t : CObjInfoList}

theorem content_type {levels : List UInt8 → Int} {mod : TypeInfo.ClsModule} {p : TypePtr}
    {d : TypeInfo.Content} (h : TypeInfo.content levels mod p = some d) :
    ∃ a, d.type = (mod.desc a).type := by
  cases p with
  | desc a =>
    cases h
    exact ⟨a, rfl⟩
  | org i =>
    simp only [TypeInfo.content, Option.bind_eq_bind, Option.bind_eq_some_iff] at h
    obtain ⟨a, -, c, -, h⟩ := h
    cases h
    exact ⟨_, rfl⟩

theorem resolve_type {levels : List UInt8 → Int} {mod : TypeInfo.ClsModule} {p p' : TypePtr}
    {check : Bool} {d : TypeInfo.Content} {pointer : Int}
    (h : TypeInfo.resolve levels mod p check = .ok (p', d, pointer)) :
    ∃ a, d.type = (mod.desc a).type := by
  unfold TypeInfo.resolve at h
  repeat' split at h
  all_goals cases h
  all_goals exact content_type (by assumption)

theorem getCarDataType_arrayOf {d : CARDataType} (h : TypeInfo.getCarDataType d = .arrayOf) :
    d = .arrayOf := by
  cases d <;> first
    | rfl
    | cases h

theorem checkLocalPtr_arrayOf {check : Bool} {type : CarDataType} {pointer : Int}
    (h : (TypeInfo.checkLocalPtr check type pointer).1 = .arrayOf) : type = .arrayOf := by
  unfold TypeInfo.checkLocalPtr at h
  repeat' split at h
  all_goals first
    | exact h
    | cases h

/-- A module without `ArrayOf` has no type that is one. -/
theorem World.Granted.no_array (hW : W.Granted) {c : Nat} {p : TypePtr} {check : Bool}
    {r : Resolved} (h : resolveType byteLevels (W.types.module c) p check = .ok r) :
    r.type ≠ .arrayOf := by
  unfold resolveType at h
  split at h
  · cases h
  · next p' d pointer hresolve =>
    cases h
    obtain ⟨a, ha⟩ := resolve_type hresolve
    have hne := hW.arrays c a
    rw [← ha] at hne
    exact fun hr => hne (getCarDataType_arrayOf (checkLocalPtr_arrayOf hr))

/-- A vector with its element, of which the call lets go at the end. -/
theorem vector_answers {sub : TypeInfo.Call Nat} {sub' : Call (Except ECode Nat)}
    (hsub : Answers sub sub') (depth : Nat) (length : Int) :
    Answers (do
        let element ← sub
        TypeInfo.acquireCppVectorInfo element length)
      (do
        match ← sub' with
        | .error ec => pure (.error ec)
        | .ok element =>
          let answer ← acquireCppVectorInfo (depth + 1) (some element) length true
          release (depth + 1) element
          pure answer) := by
  intro R s t h v s' hcall
  obtain ⟨i, s₁, hsubcall, hvector⟩ := bind_ok hcall
  obtain ⟨R₁, a, t₁, hrun₁, hR₁, hstep₁, hheld⟩ := hsub h hsubcall
  obtain ⟨R₂, b, t₂, hrun₂, hR₂, hstep₂, hne, hends⟩ :=
    acquireCppVectorInfo_answers hstep₁.shows hR₁ (depth + 1) length hvector
  have hstep := hstep₁.trans hstep₂
  have hlt₁ := hstep₁.shows.below i a hR₁
  obtain ⟨-, object₁, -, hobject₁, hpos, -⟩ := hstep₁.shows.object i a hR₁
  obtain ⟨object, hobject, -, href⟩ := hstep₂.kept a object₁ hlt₁ hobject₁
  -- the reference that the element loses is one more than it had
  have hmore : 2 ≤ object.mRef ∧
      ∀ object₀, a < t.next → t.objects a = some object₀ → object₀.mRef < object.mRef := by
    rcases hheld with ⟨hfirst, hlast⟩ | ⟨-, x, y, hx, hy, hxpos, hxy⟩
    · -- a new element was not found in a vector, so the new vector holds it
      have hnew : ¬ a < t.next := by
        rcases hstep₁.fresh i a hR₁ with hR | ⟨-, hle⟩
        · exact absurd (h.lt_length hR) (by omega)
        · omega
      rcases hends with ⟨hnot, -⟩ | ⟨-, -, x, y, hx, hy, hxpos, hxy⟩
      · omega
      · cases hobject.symm.trans hy
        exact ⟨by omega, fun _ hlt => absurd hlt hnew⟩
    · cases hobject₁.symm.trans hy
      refine ⟨by omega, fun object₀ _ hobject₀ => ?_⟩
      cases hx.symm.trans hobject₀
      omega
  obtain ⟨held, hrelease⟩ := release_held depth hobject hmore.1
  refine ⟨R₂, b, _, ?_, hR₂, hstep.release hobject hmore.1 hmore.2 held, ?_⟩
  · simp [hrun₁, hrun₂, hrelease]
  · rcases hends with ⟨hold, hsame₂, hraised⟩ | ⟨hfirst, hlast, -⟩
    · -- the vector was there before its element was acquired
      have hsame : s₁.heap.length = s.heap.length := by
        rcases hheld with ⟨-, hlast⟩ | ⟨hsame, -⟩
        · omega
        · exact hsame
      have hlt := hstep₂.shows.lt_length hR₂
      have hR : R v b := by
        rcases hstep₂.fresh v b hR₂ with hR | ⟨hle, -⟩
        · rcases hstep₁.fresh v b hR with hR | ⟨hle, -⟩
          · exact hR
          · omega
        · omega
      obtain ⟨-, x, -, hx, hxpos, -⟩ := h.object v b hR
      obtain ⟨x₁, hx₁, -, href₁⟩ := hstep₁.kept b x (h.below v b hR) hx
      obtain ⟨y₁, y, hy₁, hy, -, href₂⟩ := hraised
      cases hx₁.symm.trans hy₁
      exact .inr ⟨hsame₂.trans hsame, x, y, hx, (Function.update_of_ne hne ..).trans hy, hxpos, by omega⟩
    · exact .inl ⟨hstep₁.heap.trans hfirst, hlast⟩

/-- The branches of `AcquireDataTypeInfo`. -/
theorem acquireByType_answers (hW : W.Granted) (depth c : Nat)
    {sub : TypePtr → Bool → TypeInfo.Call Nat}
    {sub' : Nat → TypePtr → Bool → Call (Except ECode Nat)}
    (hsub : ∀ p check, Answers (sub p check) (sub' c p check)) {r : Resolved} (check : Bool)
    (harray : r.type ≠ .arrayOf) :
    Answers (TypeInfo.acquireByType W.types sub c r check)
      (acquireByType W (depth + 1) sub' c r check) := by
  have hentry : ∀ key o t, t.allocs = [] → ∃ t', initEntry W c key o t = some (none, t') ∧ Quiet t t' :=
    fun key o t => initEntry_run hW c key o t
  have hintrinsic : ∀ d size, Answers (TypeInfo.acquireIntrinsicInfo W.types d size)
      (acquireIntrinsicInfo d true) := fun d size =>
    acquireSlot_answers (isSlot_dataType d) .DataType (.intrinsic d _) (by simp) (Nat.le_refl 1) rfl
  unfold TypeInfo.acquireByType acquireByType
  cases hr : r.type with
  | arrayOf => cases harray hr
  | localPtr =>
    refine acquireInfo_answers (isEntry_localPtr (c, r.ptr, r.pointer))
      (makes_new (.localPtr c r.ptr r.pointer) (by simp) (Nat.le_refl 1) rfl ?_)
    intro o t _
    obtain ⟨t', hrun, hquiet, -⟩ := hold_run t o c
    exact ⟨t', by simp [hrun], hquiet⟩
  | localType =>
    exact acquireSlot_answers (isSlot_localType r.desc.type) .Local (.localType _) (by simp)
      (Nat.le_refl 1) rfl
  | struct =>
    exact acquireInfo_answers (isEntry_struct (c, r.desc.index))
      (makes_struct hW (fun a => hsub (.desc a) true) (depth + 1) c r.desc.index (Nat.le_refl 1) rfl)
  | interface =>
    exact acquireInfo_answers (isEntry_interface _)
      (makes_new (.interface c r.desc.index) (by simp) (Nat.le_refl 1) rfl (hentry _))
  | enum =>
    exact acquireInfo_answers (isEntry_enum (c, r.desc.index))
      (makes_new (.enum c r.desc.index) (by simp) (Nat.le_refl 1) rfl (hentry _))
  | cppVector =>
    exact vector_answers (hsub (.desc ((W.types.module c).arrays r.desc.index).2) check) depth
      ((W.types.module c).arrays r.desc.index).1
  | _ => exact hintrinsic _ _

/-- The list of the original types, which is made for both at the same call. -/
theorem initOrgType_shows (W : World) (h : Shows R s t) (c : Nat) (p : TypePtr) {u : Unit}
    {s' : Caches} (hcall : TypeInfo.initOrgType W.types c p s = (.ok u, s')) :
    ∃ t', initOrgType W c p t = some (true, t') ∧ Step R s t R s' t' ∧ s'.heap = s.heap ∧
      t'.objects = t.objects := by
  have hmem := allocMany_run h.granted'
  have hsame : Step R s t R s t := h.step (Quiet.refl t)
  unfold TypeInfo.initOrgType at hcall
  cases hd : TypeInfo.content byteLevels (W.types.module c) p with
  | none =>
    rw [hd] at hcall
    cases hcall
    exact ⟨t, by simp [initOrgType, hd], hsame, rfl, rfl⟩
  | some d =>
    rw [hd] at hcall
    by_cases hfirst : d.type = .typeAlias ∧ (W.types.module c).aliases ≠ [] ∧ s.aliasLists c = false
    · obtain ⟨_, s₁, halloc, hmade⟩ := bind_ok ((if_pos hfirst).symm.trans hcall)
      cases hmade
      obtain rfl : s₁ = s := by
        simpa [TypeInfo.Call.alloc, h.granted, eq_comm] using halloc
      refine ⟨{ t with aliasLists := Function.update t.aliasLists c true }, ?_,
        hsame.change (retains_of_eq rfl rfl) rfl { h with aliasLists := by rw [h.aliasLists] }, rfl, rfl⟩
      simp [initOrgType, hd, h.aliasLists, hfirst, hmem]
    · cases (if_neg hfirst).symm.trans hcall
      exact ⟨t, by simp [initOrgType, hd, h.aliasLists, hfirst], hsame, rfl, rfl⟩

/-- What `AcquireDataTypeInfo` of the caches answers with, that of the registry answers with:
the parts of a type by induction on its depth, the type itself from its cache. -/
theorem acquireDataTypeInfo_shows (hW : W.Granted) (depth n c : Nat) (p : TypePtr) (check : Bool) :
    Answers (TypeInfo.acquireDataTypeInfo W.types n c p check)
      (acquireDataTypeInfo W (depth + 1) n c p check) := by
  induction n generalizing p check with
  | zero =>
    intro R s t h o s' hcall
    cases hcall
  | succ n ih =>
    intro R s t h o s' hcall
    obtain ⟨u, s₁, hinit, hcall⟩ := bind_ok hcall
    obtain ⟨r, s₂, hresolve, hcall⟩ := bind_ok hcall
    obtain ⟨t₁, hrun₁, hstep₁, hheap, hobjects⟩ := initOrgType_shows W h c p hinit
    cases hr : resolveType byteLevels (W.types.module c) p check with
    | error e =>
      rw [hr] at hresolve
      cases hresolve
    | ok r' =>
      rw [hr] at hresolve
      cases hresolve
      obtain ⟨R', a, t', hrun, hR, hstep, hheld⟩ :=
        acquireByType_answers hW depth c ih check (hW.no_array hr) hstep₁.shows hcall
      refine ⟨R', a, t', by simp [acquireDataTypeInfo, hrun₁, hr, hrun], hR, hstep₁.trans hstep, ?_⟩
      simpa only [Held, Raised, hheap, hobjects] using hheld

end DataTypes

/-! ## Runs -/

section Runs

variable {W : World}

/-- Nothing is there yet. -/
theorem shows_empty : Shows (fun _ _ => False) Caches.empty CObjInfoList.empty where
  granted := rfl
  granted' := rfl
  number _ _ _ h := h.elim
  address _ _ _ h := h.elim
  object _ _ h := h.elim
  below _ _ h := h.elim
  older _ _ _ h := by cases h
  aliasLists := rfl
  dataTypes _ := .none
  localTypes _ := .none
  structs _ := .none
  enums _ := .none
  interfaces _ := .none
  localPtrs _ := .none
  vectors := .nil

/-- A descriptor that is asked for: its module, where it is, and the check of local
pointers. -/
structure Asked where
  clsModule : Nat
  typeDesc : TypePtr
  isCheckLocalPtr : Bool

/-- The call of the caches, with memory for all that it makes. -/
def Asked.ofCaches (d : Asked) : TypeInfo.Op × List Bool :=
  (.dataType d.clsModule d.typeDesc d.isCheckLocalPtr, [])

/-- The call of the registry. -/
def Asked.ofRegistry (d : Asked) : Op × List Bool :=
  (.dataType (some d.clsModule) (some d.typeDesc) true d.isCheckLocalPtr, [])

/-- The caches answer. -/
def Answered (W : TypeInfo.World) (depth : Nat) (s : Caches) (e : TypeInfo.Op × List Bool) : Prop :=
  ∃ o, (e.1.call W depth { s with allocs := e.2 }).1 = .ok o

/-- After every run of calls that the caches answer, the registry shows the caches. -/
theorem registry_shows (hW : W.Granted) (depth : Nat) (asked : List Asked)
    (hanswered : (TypeInfo.objInfoList W.types (depth + 1)).AllSteps (Answered W.types (depth + 1))
      .empty (asked.map Asked.ofCaches)) :
    ∃ R, Shows R
      ((TypeInfo.objInfoList W.types (depth + 1)).run .empty (asked.map Asked.ofCaches))
      ((registry W (depth + 1)).run .empty (asked.map Asked.ofRegistry)) := by
  suffices hrun : ∀ R s t, Shows R s t →
      (TypeInfo.objInfoList W.types (depth + 1)).AllSteps (Answered W.types (depth + 1)) s
        (asked.map Asked.ofCaches) →
      ∃ R', Shows R'
        ((TypeInfo.objInfoList W.types (depth + 1)).run s (asked.map Asked.ofCaches))
        ((registry W (depth + 1)).run t (asked.map Asked.ofRegistry)) from
    hrun _ _ _ shows_empty hanswered
  clear hanswered
  induction asked with
  | nil => exact fun R s t h _ => ⟨R, h⟩
  | cons d asked ih =>
    intro R s t h hsteps
    obtain ⟨⟨o, ho⟩, hrest⟩ := hsteps
    have hs : { s with allocs := [] } = s := by
      rw [← h.granted]
    have ht : { t with allocs := [] } = t := by
      rw [← h.granted']
    have hcall : TypeInfo.acquireDataTypeInfo W.types (depth + 1) d.clsModule d.typeDesc
        d.isCheckLocalPtr s = (.ok o, (TypeInfo.objInfoList W.types (depth + 1)).step s d.ofCaches) := by
      refine Prod.ext ?_ ?_
      · rw [← hs]
        exact ho
      · simp only [TypeInfo.objInfoList, Asked.ofCaches, TypeInfo.Op.call, hs]
    obtain ⟨R', a, t', hrun, -, hstep, -⟩ :=
      acquireDataTypeInfo_shows hW depth (depth + 1) _ _ _ h hcall
    have hregistry : (registry W (depth + 1)).step t d.ofRegistry = t' := by
      simp [registry, Asked.ofRegistry, Op.call, unanswered, ht, hrun]
    obtain ⟨R'', hshows⟩ := ih R' _ _ hstep.shows hrest
    exact ⟨R'', by simpa [hregistry] using hshows⟩

/-- Fields of four bytes can be laid out. -/
theorem noZero_words {align : Int} (halign : UInt32.ofInt align ≠ 0) (elemtSize : Int)
    (types : List Nat) :
    DynamicTypes.NoZero align elemtSize (types.map DynamicTypes.wordWorld.types) := by
  induction types generalizing elemtSize with
  | nil => exact trivial
  | cons type types ih => exact ⟨(by decide : UInt32.ofInt 4 ≠ 0), halign, ih 4⟩

theorem alignStep_words (types : List Nat) (acc : Int × Int) (hacc : acc.2 = 1 ∨ acc.2 = 4) :
    ((types.map DynamicTypes.wordWorld.types).foldl DynamicTypes.alignStep acc).2 = 1 ∨
      ((types.map DynamicTypes.wordWorld.types).foldl DynamicTypes.alignStep acc).2 = 4 := by
  induction types generalizing acc with
  | nil => exact hacc
  | cons type types ih =>
    refine ih _ (.inr ?_)
    obtain ⟨size, align⟩ := acc
    rcases hacc with rfl | rfl <;> rfl

theorem granted_bare : bareWorld.Granted where
  inits _ := rfl
  layouts types := by
    unfold DynamicTypes.Divides
    rw [List.map_map, show (fun field : Option Text × Nat => bareWorld.layout.types field.2) ∘
      (fun type => (none, type)) = DynamicTypes.wordWorld.types from rfl]
    refine noZero_words ?_ _ types
    rcases alignStep_words types (0, 1) (.inl rfl) with h | h <;>
      · simp only [DynamicTypes.getMaxAlignSize, h]
        decide
  arrays _ _ := by
    show CARDataType.int32 ≠ .arrayOf
    decide

/-- An `Int32`, asked for twice. -/
example : ∃ R, Shows R
    ((TypeInfo.objInfoList bareWorld.types 1).run .empty
      ([⟨0, .desc 0, true⟩, ⟨0, .desc 0, true⟩].map Asked.ofCaches))
    ((registry bareWorld 1).run .empty
      ([⟨0, .desc 0, true⟩, ⟨0, .desc 0, true⟩].map Asked.ofRegistry)) :=
  registry_shows granted_bare 0 _ ⟨⟨0, rfl⟩, ⟨0, rfl⟩, trivial⟩

end Runs

end SuperExe.Reflection.LockBalance
