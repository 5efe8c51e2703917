import Mathlib.Algebra.Order.Ring.Int
import SuperExe.Reflection.ObjInfoList

/-! # The infos describe their types

A descriptor stands for a type, and an info object describes a type if it has
the same data type, the same identity, length or pointer level, and its element
describes the element type. All caches keep to this but one: the info of an
array is found by the data type of its elements alone, unless they are structs.
So the infos are right as long as each data type is used with one element type;
`κ` names that element type.
-/

namespace SuperExe.Reflection.TypeInfo

open SuperExe.Lib Call

/-! ## Types -/

/-- What a descriptor stands for. -/
inductive Ty where
  | intrinsic (dataType : CarDataType)
  | localType
  | localPtr (m : Nat) (t : TypePtr) (pointer : Int)
  | struct (m index : Nat)
  | enum (m index : Nat)
  | interface (iid : Nat)
  | cppVector (length : Int) (element : Ty)
  | carArray (element : Ty)
  | dynamic (isEnum : Bool) (o : Nat)
deriving DecidableEq, Repr

def Ty.dataType : Ty → CarDataType
  | intrinsic d => d
  | localType => .localType
  | localPtr _ _ _ => .localPtr
  | struct _ _ => .struct
  | enum _ _ => .enum
  | interface _ => .interface
  | cppVector _ _ => .cppVector
  | carArray _ => .arrayOf
  | dynamic isEnum _ => if isEnum then .enum else .struct

/-- The pointer level along a chain of aliases. -/
def natLevels (pointers : List UInt8) : Int := ((pointers.map UInt8.toNat).sum : Int)

variable (W : World)

def denoteByType (sub : TypePtr → Bool → Option Ty) (m : Nat) (r : Resolved) (check : Bool) :
    Option Ty :=
  match r.type with
  | .localPtr => some (.localPtr m r.ptr r.pointer)
  | .localType => some .localType
  | .struct => some (.struct m r.desc.index)
  | .interface => some (.interface ((W.module m).iid r.desc.index))
  | .enum => some (.enum m r.desc.index)
  | .cppVector =>
    let array := (W.module m).arrays r.desc.index
    (sub (.desc array.2) check).map (.cppVector array.1)
  | .arrayOf => r.desc.nested.bind fun a => (sub (.desc a) false).map .carArray
  | dataType => some (.intrinsic dataType)

/-- The type of a descriptor that is nested no deeper than `depth`. -/
def denote : Nat → Nat → TypePtr → Bool → Option Ty
  | 0, _, _, _ => none
  | n + 1, m, t, check =>
    match resolveType natLevels (W.module m) t check with
    | .error _ => none
    | .ok r => denoteByType W (denote n m) m r check

/-- The object describes the type. -/
def IsInfo (heap : List Info) : Nat → Ty → Prop
  | o, .intrinsic d => ∃ size, heap[o]? = some (.intrinsic d size)
  | o, .localType => ∃ size, heap[o]? = some (.localType size)
  | o, .localPtr m t pointer => heap[o]? = some (.localPtr m t pointer)
  | o, .struct m index => ∃ fields, heap[o]? = some (.struct m index fields)
  | o, .enum m index => heap[o]? = some (.enum m index)
  | o, .interface iid =>
    ∃ m index, heap[o]? = some (.interface m index) ∧ (W.module m).iid index = iid
  | o, .cppVector length element =>
    ∃ e, heap[o]? = some (.cppVector e length) ∧ IsInfo heap e element
  | o, .carArray element => ∃ e d, heap[o]? = some (.carArray e d) ∧ IsInfo heap e element
  | o, .dynamic isEnum o' => o = o' ∧ heap[o]? = some (.dynamic isEnum)

/-- The parts of a type that are acquired with it. -/
def parts (m : Nat) (r : Resolved) (check : Bool) : List (TypePtr × Bool) :=
  match r.type with
  | .struct => ((W.module m).structs r.desc.index).map fun a => (.desc a, true)
  | .cppVector => [(.desc ((W.module m).arrays r.desc.index).2, check)]
  | .arrayOf => r.desc.nested.toList.map fun a => (.desc a, false)
  | _ => []

/-- The descriptor, with its parts, is nested no deeper than `depth` and has no
array without an element type. -/
def Finite : Nat → Nat → TypePtr → Bool → Prop
  | 0, _, _, _ => False
  | n + 1, m, t, check =>
    ∃ r, resolveType natLevels (W.module m) t check = .ok r ∧
      (r.type = .arrayOf → r.desc.nested ≠ none) ∧
      ∀ p ∈ parts W m r check, Finite n m p.1 p.2

/-- The element type of an array is the one that its data type is used with. -/
def ElementOk (κ : CarDataType → Ty) (element : Ty) : Prop :=
  element.dataType ≠ .struct → κ element.dataType = element

/-- Every array that is acquired with the descriptor has such an element type. -/
def AsksOnly (κ : CarDataType → Ty) : Nat → Nat → TypePtr → Bool → Prop
  | 0, _, _, _ => True
  | n + 1, m, t, check =>
    ∀ r, resolveType natLevels (W.module m) t check = .ok r →
      (∀ p ∈ parts W m r check, AsksOnly κ n m p.1 p.2) ∧
      (r.type = .arrayOf → ∀ a, r.desc.nested = some a →
        ∀ element, denote W n m (.desc a) false = some element → ElementOk κ element)

/-! ## Pointer levels -/

/-- No chain of aliases adds up to 256 levels or more. -/
def NoWrap : Prop :=
  ∀ m, ∀ a ∈ (W.module m).aliases, ∀ c,
    chain (W.module m) ((W.module m).aliases.length + 1) a = some c →
      natLevels (c.map fun a => ((W.module m).desc a).pointer) < 256

theorem byteLevels_eq {l : List UInt8} (h : natLevels l < 256) : byteLevels l = natLevels l := by
  have hmod : (l.foldr (· + ·) 0).toNat = (l.map UInt8.toNat).sum % 256 := by
    clear h
    induction l with
    | nil => rfl
    | cons b l ih =>
      rw [List.foldr_cons, UInt8.toNat_add, ih, List.map_cons, List.sum_cons]
      omega
  unfold natLevels at h
  unfold byteLevels natLevels
  rw [hmod]
  omega

theorem content_eq (hW : NoWrap W) (m : Nat) (t : TypePtr) :
    content byteLevels (W.module m) t = content natLevels (W.module m) t := by
  cases t with
  | desc a => rfl
  | org i =>
    simp only [content]
    cases ha : (W.module m).aliases[i]? with
    | none => rfl
    | some a =>
      cases hc : chain (W.module m) ((W.module m).aliases.length + 1) a with
      | none => simp [hc]
      | some c =>
        have hlevels := byteLevels_eq (hW m a (List.mem_of_getElem? ha) c hc)
        simp [hc, hlevels]

theorem resolveType_eq (hW : NoWrap W) (m : Nat) (t : TypePtr) (check : Bool) :
    resolveType byteLevels (W.module m) t check = resolveType natLevels (W.module m) t check := by
  have hcontent := content_eq W hW m
  simp only [resolveType, resolve, hcontent]

/-! ## The invariant -/

/-- Every object of a cache describes the type of its key. -/
structure Inv (κ : CarDataType → Ty) (s : Caches) : Prop where
  dataTypes : ∀ d o, s.dataTypeInfos d = some o → IsInfo W s.heap o (.intrinsic d)
  localTypes : ∀ type o, s.localTypeInfos type = some o → IsInfo W s.heap o .localType
  carArrays : ∀ d o, s.carArrayInfos d = some o → IsInfo W s.heap o (.carArray (κ d))
  structs : ∀ k o, s.structInfos k = some o → IsInfo W s.heap o (.struct k.1 k.2)
  enums : ∀ k o, s.enumInfos k = some o → IsInfo W s.heap o (.enum k.1 k.2)
  interfaces : ∀ iid o, s.ifInfos iid = some o → IsInfo W s.heap o (.interface iid)
  localPtrs : ∀ k o, s.localPtrInfos k = some o → IsInfo W s.heap o (.localPtr k.1 k.2.1 k.2.2)

section Rules

variable {W} {κ : CarDataType → Ty} {α β : Type} {s s' : Caches} {fin : Prop}

theorem getElem?_of_prefix {l l' : List Info} (h : l <+: l') {o : Nat} {i : Info}
    (ho : l[o]? = some i) : l'[o]? = some i := by
  obtain ⟨rest, rfl⟩ := h
  rw [List.getElem?_append_left (List.getElem?_eq_some_iff.mp ho).1, ho]

/-- An object describes its type for good. -/
theorem IsInfo.mono {l l' : List Info} (h : l <+: l') {o : Nat} {ty : Ty} (ho : IsInfo W l o ty) :
    IsInfo W l' o ty := by
  induction ty generalizing o with
  | intrinsic d =>
    obtain ⟨size, ho⟩ := ho
    exact ⟨size, getElem?_of_prefix h ho⟩
  | localType =>
    obtain ⟨size, ho⟩ := ho
    exact ⟨size, getElem?_of_prefix h ho⟩
  | localPtr m t pointer => exact getElem?_of_prefix h ho
  | struct m index =>
    obtain ⟨fields, ho⟩ := ho
    exact ⟨fields, getElem?_of_prefix h ho⟩
  | enum m index => exact getElem?_of_prefix h ho
  | interface iid =>
    obtain ⟨m, index, ho, hiid⟩ := ho
    exact ⟨m, index, getElem?_of_prefix h ho, hiid⟩
  | cppVector length element ih =>
    obtain ⟨e, ho, he⟩ := ho
    exact ⟨e, getElem?_of_prefix h ho, ih he⟩
  | carArray element ih =>
    obtain ⟨e, d, ho, he⟩ := ho
    exact ⟨e, d, getElem?_of_prefix h ho, ih he⟩
  | dynamic isEnum o' => exact ⟨ho.1, getElem?_of_prefix h ho.2⟩

theorem IsInfo.dataType {l : List Info} {o : Nat} {ty : Ty} (ho : IsInfo W l o ty) :
    ∃ info, l[o]? = some info ∧ info.dataType = ty.dataType := by
  cases ty with
  | intrinsic d =>
    obtain ⟨size, ho⟩ := ho
    exact ⟨_, ho, rfl⟩
  | localType =>
    obtain ⟨size, ho⟩ := ho
    exact ⟨_, ho, rfl⟩
  | localPtr m t pointer => exact ⟨_, ho, rfl⟩
  | struct m index =>
    obtain ⟨fields, ho⟩ := ho
    exact ⟨_, ho, rfl⟩
  | enum m index => exact ⟨_, ho, rfl⟩
  | interface iid =>
    obtain ⟨m, index, ho, -⟩ := ho
    exact ⟨_, ho, rfl⟩
  | cppVector length element =>
    obtain ⟨e, ho, -⟩ := ho
    exact ⟨_, ho, rfl⟩
  | carArray element =>
    obtain ⟨e, d, ho, -⟩ := ho
    exact ⟨_, ho, rfl⟩
  | dynamic isEnum o' => exact ⟨_, ho.2, rfl⟩

/-- More objects, and the same caches. -/
theorem Inv.grow (hinv : Inv W κ s) {heap : List Info} {allocs : List Bool} {lists : Nat → Bool}
    (h : s.heap <+: heap) :
    Inv W κ { s with heap := heap, allocs := allocs, aliasLists := lists } where
  dataTypes d o ho := (hinv.dataTypes d o ho).mono h
  localTypes type o ho := (hinv.localTypes type o ho).mono h
  carArrays d o ho := (hinv.carArrays d o ho).mono h
  structs k o ho := (hinv.structs k o ho).mono h
  enums k o ho := (hinv.enums k o ho).mono h
  interfaces iid o ho := (hinv.interfaces iid o ho).mono h
  localPtrs k o ho := (hinv.localPtrs k o ho).mono h

variable (W κ)

/-- A call from `s` keeps the invariant and the objects, and what it returns has
the property `post`; with enough memory it returns something if `fin` holds. -/
structure Good (fin : Prop) (s : Caches) (x : Call α) (post : Caches → α → Prop) : Prop where
  inv : Inv W κ (x s).2
  grows : s.heap <+: (x s).2.heap
  post : ∀ a, (x s).1 = .ok a → post (x s).2 a
  total : fin → s.allocs = [] → (∃ a, (x s).1 = .ok a) ∧ (x s).2.allocs = []

variable {W κ} {post : Caches → α → Prop}

theorem Good.congr {x y : Call α} (hy : Good W κ fin s y post) (h : x s = y s) :
    Good W κ fin s x post where
  inv := by
    rw [h]
    exact hy.inv
  grows := by
    rw [h]
    exact hy.grows
  post := by
    rw [h]
    exact hy.post
  total := by
    rw [h]
    exact hy.total

theorem Good.mono {fin' : Prop} {x : Call α} {q : Caches → α → Prop} (hx : Good W κ fin' s x post)
    (hfin : fin → fin') (hq : ∀ s' a, post s' a → q s' a) : Good W κ fin s x q where
  inv := hx.inv
  grows := hx.grows
  post a ha := hq _ a (hx.post a ha)
  total h := hx.total (hfin h)

theorem good_pure (hinv : Inv W κ s) {a : α} (h : post s a) : Good W κ fin s (pure a) post where
  inv := hinv
  grows := List.prefix_refl _
  post := by
    intro b hb
    cases hb
    exact h
  total _ hs := ⟨⟨a, rfl⟩, hs⟩

theorem good_throw (hinv : Inv W κ s) {e : ECode} (hfin : ¬ fin) :
    Good W κ fin s (throw e : Call α) post where
  inv := hinv
  grows := List.prefix_refl _
  post := by
    intro b hb
    cases hb
  total h := absurd h hfin

theorem Good.bind {x : Call α} {f : α → Call β} {q : Caches → β → Prop}
    (hx : Good W κ fin s x post)
    (hf : ∀ a s', Inv W κ s' → s.heap <+: s'.heap → post s' a → Good W κ fin s' (f a) q) :
    Good W κ fin s (x >>= f) q := by
  have hrun : (x >>= f) s = Call.bind x f s := rfl
  cases hxs : x s with
  | mk r s' =>
    have hinv := hx.inv
    have hgrows := hx.grows
    have htotal := hx.total
    rw [hxs] at hinv hgrows htotal
    -- an error ends the call where it is
    cases r with
    | error e =>
      have heq : (x >>= f) s = (.error e, s') := by
        rw [hrun, Call.bind, hxs]
      constructor
      · rw [heq]
        exact hinv
      · rw [heq]
        exact hgrows
      · intro b hb
        rw [heq] at hb
        cases hb
      · intro hfin hs
        obtain ⟨⟨a, ha⟩, -⟩ := htotal hfin hs
        cases ha
    | ok a =>
      have heq : (x >>= f) s = f a s' := by
        rw [hrun, Call.bind, hxs]
      have hpost := hx.post a (by rw [hxs])
      rw [hxs] at hpost
      have hgood := hf a s' hinv hgrows hpost
      constructor
      · rw [heq]
        exact hgood.inv
      · rw [heq]
        exact hgrows.trans hgood.grows
      · rw [heq]
        exact hgood.post
      · intro hfin hs
        rw [heq]
        exact hgood.total hfin (htotal hfin hs).2

theorem good_alloc (hinv : Inv W κ s) : Good W κ fin s alloc fun _ _ => True := by
  have hsame : ∀ rest, Inv W κ { s with allocs := rest } := fun rest => hinv.grow (List.prefix_refl _)
  unfold alloc
  constructor
  · split
    · exact hinv
    · exact hsame _
    · exact hsame _
  · split
    · exact List.prefix_refl _
    · exact List.prefix_refl _
    · exact List.prefix_refl _
  · exact fun _ _ => trivial
  · intro _ hs
    rw [hs]
    exact ⟨⟨(), rfl⟩, hs⟩

theorem good_new (hinv : Inv W κ s) (info : Info) :
    Good W κ fin s (new info) fun s' o => s'.heap[o]? = some info := by
  refine (good_alloc hinv).bind ?_
  intro _ s' hinv' _ _
  constructor
  · exact hinv'.grow (List.prefix_append _ _)
  · exact List.prefix_append _ _
  · intro o ho
    cases ho
    exact List.getElem?_concat_length
  · exact fun _ hs => ⟨⟨_, rfl⟩, hs⟩

/-- A cache whose objects have the property. -/
theorem good_cached {look : Caches → Option Nat} {store : Nat → Caches → Caches} {make : Call Nat}
    {mid post : Caches → Nat → Prop} (hinv : Inv W κ s) (hhit : ∀ o, look s = some o → post s o)
    (hmake : Good W κ fin s make mid)
    (hstore : ∀ o s', Inv W κ s' → s.heap <+: s'.heap → mid s' o →
      Inv W κ (store o s') ∧ (store o s').heap = s'.heap ∧ (store o s').allocs = s'.allocs ∧
        post (store o s') o) :
    Good W κ fin s (cached look store make) post := by
  cases hlook : look s with
  | some o =>
    have heq : cached look store make s = (pure o : Call Nat) s := by
      rw [cached, hlook]
      rfl
    exact (good_pure hinv (hhit o hlook)).congr heq
  | none =>
    have hgood : Good W κ fin s (make >>= fun o s => (.ok o, store o s)) post := by
      refine hmake.bind ?_
      intro o s' hinv' hgrows hmid
      obtain ⟨hinv'', hheap, hallocs, hpost⟩ := hstore o s' hinv' hgrows hmid
      constructor
      · exact hinv''
      · exact (congrArg (s'.heap <+: ·) hheap).mpr (List.prefix_refl _)
      · intro a ha
        cases ha
        exact hpost
      · intro _ hs
        exact ⟨⟨o, rfl⟩, hallocs.trans hs⟩
    have heq : cached look store make s = (make >>= fun o s => (.ok o, store o s) : Call Nat) s := by
      rw [cached, hlook]
      rfl
    exact hgood.congr heq

end Rules

/-! ## The calls -/

section Calls

variable {W} {κ : CarDataType → Ty} {s : Caches} {fin : Prop}

/-- A table with one more object. -/
theorem forall_update {ι : Type} [DecidableEq ι] {table : ι → Option Nat} {p : ι → Nat → Prop}
    (h : ∀ k o, table k = some o → p k o) {k : ι} {o : Nat} (hk : p k o) (k' : ι) (o' : Nat)
    (ho' : Function.update table k (some o) k' = some o') : p k' o' := by
  by_cases heq : k' = k
  · subst heq
    rw [Function.update_self] at ho'
    cases ho'
    exact hk
  · rw [Function.update_of_ne heq] at ho'
    exact h k' o' ho'

theorem good_intrinsic (hinv : Inv W κ s) (d : CarDataType) (size : Nat) :
    Good W κ fin s (acquireIntrinsicInfo W d size) fun s' o => IsInfo W s'.heap o (.intrinsic d) := by
  refine good_cached hinv (fun o ho => hinv.dataTypes d o ho) (good_new hinv _) ?_
  intro o s' hinv' _ ho
  have hinfo : IsInfo W s'.heap o (.intrinsic d) := ⟨_, ho⟩
  exact ⟨{ hinv' with dataTypes := forall_update hinv'.dataTypes hinfo }, rfl, rfl, hinfo⟩

theorem good_localType (hinv : Inv W κ s) (type : CARDataType) (size : Nat) :
    Good W κ fin s (acquireLocalTypeInfo type size) fun s' o => IsInfo W s'.heap o .localType := by
  refine good_cached hinv (fun o ho => hinv.localTypes type o ho) (good_new hinv _) ?_
  intro o s' hinv' _ ho
  have hinfo : IsInfo W s'.heap o .localType := ⟨_, ho⟩
  refine ⟨{ hinv' with localTypes := ?_ }, rfl, rfl, hinfo⟩
  exact forall_update (p := fun _ o => IsInfo W s'.heap o .localType) hinv'.localTypes hinfo

theorem good_localPtr (hinv : Inv W κ s) (m : Nat) (t : TypePtr) (pointer : Int) :
    Good W κ fin s (acquireLocalPtrInfo m t pointer)
      fun s' o => IsInfo W s'.heap o (.localPtr m t pointer) := by
  refine good_cached hinv (fun o ho => hinv.localPtrs (m, t, pointer) o ho) (good_new hinv _) ?_
  intro o s' hinv' _ hinfo
  refine ⟨{ hinv' with localPtrs := ?_ }, rfl, rfl, hinfo⟩
  exact forall_update
    (p := fun (k : Nat × TypePtr × Int) o => IsInfo W s'.heap o (.localPtr k.1 k.2.1 k.2.2))
    hinv'.localPtrs hinfo

theorem good_enum (hinv : Inv W κ s) (m index : Nat) :
    Good W κ fin s (acquireStaticEnumInfo m index)
      fun s' o => IsInfo W s'.heap o (.enum m index) := by
  refine good_cached hinv (fun o ho => hinv.enums (m, index) o ho) (good_new hinv _) ?_
  intro o s' hinv' _ hinfo
  refine ⟨{ hinv' with enums := ?_ }, rfl, rfl, hinfo⟩
  exact forall_update (p := fun (k : Nat × Nat) o => IsInfo W s'.heap o (.enum k.1 k.2))
    hinv'.enums hinfo

theorem good_interface (hinv : Inv W κ s) (m index : Nat) :
    Good W κ fin s (acquireInterfaceInfo W m index)
      fun s' o => IsInfo W s'.heap o (.interface ((W.module m).iid index)) := by
  refine good_cached hinv (fun o ho => hinv.interfaces _ o ho) (good_new hinv _) ?_
  intro o s' hinv' _ ho
  have hinfo : IsInfo W s'.heap o (.interface ((W.module m).iid index)) := ⟨m, index, ho, rfl⟩
  exact ⟨{ hinv' with interfaces := forall_update hinv'.interfaces hinfo }, rfl, rfl, hinfo⟩

theorem good_fields {field : Nat → Call Nat} {as : List Nat}
    (hfield : ∀ a ∈ as, ∀ s, Inv W κ s → Good W κ fin s (field a) fun _ _ => True)
    (hinv : Inv W κ s) : Good W κ fin s (acquireFields field as) fun _ _ => True := by
  induction as generalizing s with
  | nil => exact good_pure hinv trivial
  | cons a as ih =>
    refine (hfield a List.mem_cons_self s hinv).bind ?_
    intro o s' hinv' _ _
    refine (ih (fun b hb => hfield b (List.mem_cons_of_mem a hb)) hinv').bind ?_
    intro os s'' hinv'' _ _
    exact good_pure hinv'' trivial

theorem good_struct {field : Nat → Call Nat} (m index : Nat)
    (hfield : ∀ a ∈ (W.module m).structs index, ∀ s, Inv W κ s →
      Good W κ fin s (field a) fun _ _ => True)
    (hinv : Inv W κ s) :
    Good W κ fin s (acquireStaticStructInfo W field m index)
      fun s' o => IsInfo W s'.heap o (.struct m index) := by
  have hmake : Good W κ fin s
      (do
        alloc
        let fields ← acquireFields field ((W.module m).structs index)
        new (.struct m index fields))
      fun s' o => IsInfo W s'.heap o (.struct m index) := by
    refine (good_alloc hinv).bind ?_
    intro _ s' hinv' _ _
    refine (good_fields hfield hinv').bind ?_
    intro fields s'' hinv'' _ _
    exact (good_new hinv'' _).mono id fun _ _ ho => ⟨fields, ho⟩
  refine good_cached hinv (fun o ho => hinv.structs (m, index) o ho) hmake ?_
  intro o s' hinv' _ hinfo
  refine ⟨{ hinv' with structs := ?_ }, rfl, rfl, hinfo⟩
  exact forall_update (p := fun (k : Nat × Nat) o => IsInfo W s'.heap o (.struct k.1 k.2))
    hinv'.structs hinfo

theorem good_cppVector (hinv : Inv W κ s) (element : Nat) (length : Int) :
    Good W κ fin s (acquireCppVectorInfo element length)
      fun s' o => ∀ ty, IsInfo W s.heap element ty → IsInfo W s'.heap o (.cppVector length ty) := by
  refine good_cached hinv ?_ (good_new hinv _) ?_
  · intro o ho ty hty
    have hfound := List.find?_some ho
    exact ⟨element, of_decide_eq_true hfound, hty⟩
  · intro o s' hinv' hgrows ho
    refine ⟨{ hinv' with }, rfl, rfl, ?_⟩
    intro ty hty
    exact ⟨element, ho, hty.mono hgrows⟩

theorem acquireCarArrayInfo_struct {element : Nat} {info : Info}
    (hinfo : s.heap[element]? = some info) (hstruct : info.dataType = .struct) :
    acquireCarArrayInfo .arrayOf element s =
      cached (fun s => s.carArrayInfoHead.find? fun o =>
          s.heap[o]? = some (.carArray element .struct))
        (fun o s => { s with carArrayInfoHead := o :: s.carArrayInfoHead })
        (new (.carArray element .struct)) s := by
  simp [acquireCarArrayInfo, hinfo, hstruct]

theorem acquireCarArrayInfo_other {element : Nat} {info : Info}
    (hinfo : s.heap[element]? = some info) (hstruct : info.dataType ≠ .struct) :
    acquireCarArrayInfo .arrayOf element s =
      cached (fun s => s.carArrayInfos info.dataType)
        (fun o s =>
          { s with carArrayInfos := Function.update s.carArrayInfos info.dataType (some o) })
        (new (.carArray element info.dataType)) s := by
  simp [acquireCarArrayInfo, hinfo, hstruct]

/-- An array may be asked for unless its element is of a type that its data type is
not used with. -/
theorem good_carArray (hinv : Inv W κ s) {q : CarDataType} {element : Nat}
    (hfin : fin → q = .arrayOf ∧ ∃ info, s.heap[element]? = some info)
    (hok : ∀ info, s.heap[element]? = some info → info.dataType ≠ .struct →
      ∃ ty, IsInfo W s.heap element ty ∧ ElementOk κ ty) :
    Good W κ fin s (acquireCarArrayInfo q element)
      fun s' o => ∀ ty, IsInfo W s.heap element ty → ElementOk κ ty →
        IsInfo W s'.heap o (.carArray ty) := by
  -- what is no array, or has no element, is refused
  by_cases hq : q = .arrayOf
  swap
  · have heq : acquireCarArrayInfo q element s = (throw .invalidArgument : Call Nat) s := if_pos hq
    exact (good_throw hinv fun h => hq (hfin h).1).congr heq
  subst hq
  cases hinfo : s.heap[element]? with
  | none =>
    have heq : acquireCarArrayInfo .arrayOf element s = (throw .undefined : Call Nat) s := by
      simp [acquireCarArrayInfo, hinfo, Call.throw]
    refine (good_throw hinv fun h => ?_).congr heq
    rcases (hfin h).2 with ⟨info, h⟩
    rw [hinfo] at h
    cases h
  | some info =>
    -- an element has one data type
    have htype : ∀ ty, IsInfo W s.heap element ty → ty.dataType = info.dataType := by
      intro ty hty
      rcases hty.dataType with ⟨info', hinfo', heq⟩
      rw [hinfo] at hinfo'
      cases hinfo'
      exact heq.symm
    -- an array of structs is looked for by its element, any other one by the type of it
    by_cases hstruct : info.dataType = .struct
    · refine Good.congr ?_ (acquireCarArrayInfo_struct hinfo hstruct)
      refine good_cached hinv ?_ (good_new hinv _) ?_
      · intro o ho ty hty _
        have hfound := List.find?_some ho
        exact ⟨element, .struct, of_decide_eq_true hfound, hty⟩
      · intro o s' hinv' hgrows ho
        refine ⟨{ hinv' with }, rfl, rfl, ?_⟩
        intro ty hty _
        exact ⟨element, .struct, ho, hty.mono hgrows⟩
    · rcases hok info hinfo hstruct with ⟨ty, hty, hκ⟩
      have hκ' : ∀ ty, IsInfo W s.heap element ty → ElementOk κ ty → κ info.dataType = ty := by
        intro ty hty hok
        rw [← htype ty hty]
        refine hok ?_
        rw [htype ty hty]
        exact hstruct
      refine Good.congr ?_ (acquireCarArrayInfo_other hinfo hstruct)
      refine good_cached hinv ?_ (good_new hinv _) ?_
      · intro o ho ty hty hok
        rw [← hκ' ty hty hok]
        exact hinv.carArrays _ o ho
      · intro o s' hinv' hgrows ho
        have harray : IsInfo W s'.heap o (.carArray (κ info.dataType)) := by
          rw [hκ' ty hty hκ]
          exact ⟨element, info.dataType, ho, hty.mono hgrows⟩
        refine ⟨{ hinv' with carArrays := forall_update hinv'.carArrays harray }, rfl, rfl, ?_⟩
        intro ty hty hok
        rw [← hκ' ty hty hok]
        exact harray

/-- The list of the original types says nothing about the infos. -/
theorem good_initOrgType (hinv : Inv W κ s) (m : Nat) (t : TypePtr) :
    Good W κ fin s (initOrgType W m t) fun _ _ => True := by
  cases hd : content byteLevels (W.module m) t with
  | none =>
    have heq : initOrgType W m t s = (pure () : Call Unit) s := by
      rw [initOrgType, hd]
      rfl
    exact (good_pure hinv trivial).congr heq
  | some d =>
    by_cases hinit : d.type = .typeAlias ∧ (W.module m).aliases ≠ [] ∧ s.aliasLists m = false
    · have hgood : Good W κ fin s
          (alloc >>= fun _ s =>
            (.ok (), { s with aliasLists := Function.update s.aliasLists m true }))
          fun _ _ => True := by
        refine (good_alloc hinv).bind ?_
        intro _ s' hinv' _ _
        constructor
        · exact hinv'.grow (List.prefix_refl _)
        · exact List.prefix_refl _
        · exact fun _ _ => trivial
        · exact fun _ hs => ⟨⟨(), rfl⟩, hs⟩
      refine hgood.congr ?_
      rw [initOrgType, hd]
      exact if_pos hinit
    · refine (good_pure hinv trivial).congr (y := (pure () : Call Unit)) ?_
      rw [initOrgType, hd]
      exact if_neg hinit

/-- The object describes what the descriptor stands for. -/
def Denotes (W : World) (ty : Option Ty) (s : Caches) (o : Nat) : Prop :=
  ∃ t, ty = some t ∧ IsInfo W s.heap o t

theorem good_byType (hinv : Inv W κ s) {sub : TypePtr → Bool → Call Nat}
    {dsub : TypePtr → Bool → Option Ty} {m : Nat} {r : Resolved} {check : Bool}
    (hsub : ∀ p ∈ parts W m r check, ∀ s, Inv W κ s →
      Good W κ fin s (sub p.1 p.2) (Denotes W (dsub p.1 p.2)))
    (hnested : fin → r.type = .arrayOf → r.desc.nested ≠ none)
    (helement : r.type = .arrayOf → ∀ a, r.desc.nested = some a →
      ∀ element, dsub (.desc a) false = some element → ElementOk κ element) :
    Good W κ fin s (acquireByType W sub m r check) (Denotes W (denoteByType W dsub m r check)) := by
  rcases r with ⟨ptr, desc, type, pointer⟩
  dsimp only at hnested helement
  -- one case for each branch of `AcquireDataTypeInfo`; those with parts ask for these first
  cases type with
  | localPtr => exact (good_localPtr hinv _ _ _).mono id fun _ _ ho => ⟨_, rfl, ho⟩
  | localType => exact (good_localType hinv _ _).mono id fun _ _ ho => ⟨_, rfl, ho⟩
  | interface => exact (good_interface hinv _ _).mono id fun _ _ ho => ⟨_, rfl, ho⟩
  | enum => exact (good_enum hinv _ _).mono id fun _ _ ho => ⟨_, rfl, ho⟩
  | struct =>
    refine (good_struct m desc.index ?_ hinv).mono id fun _ _ ho => ⟨_, rfl, ho⟩
    intro a ha s hinv
    have hpart := hsub (.desc a, true) (List.mem_map_of_mem ha) s hinv
    exact hpart.mono id fun _ _ _ => trivial
  | cppVector =>
    refine (hsub _ (List.mem_singleton_self _) s hinv).bind ?_
    rintro e s' hinv' - ⟨ty, hty, he⟩
    refine (good_cppVector hinv' e _).mono id ?_
    intro s'' o ho
    refine ⟨.cppVector _ ty, ?_, ho ty he⟩
    simp only [denoteByType, hty, Option.map_some]
  | arrayOf =>
    cases hn : desc.nested with
    | none =>
      have heq : acquireByType W sub m ⟨ptr, desc, .arrayOf, pointer⟩ check =
          Call.throw .invalidArgument := by
        simp only [acquireByType, hn]
      rw [heq]
      exact good_throw hinv fun h => hnested h rfl hn
    | some a =>
      have heq : acquireByType W sub m ⟨ptr, desc, .arrayOf, pointer⟩ check =
          sub (.desc a) false >>= acquireCarArrayInfo .arrayOf := by
        simp only [acquireByType, hn]
      rw [heq]
      have hmem : (TypePtr.desc a, false) ∈ parts W m ⟨ptr, desc, .arrayOf, pointer⟩ check := by
        simp [parts, hn]
      refine (hsub _ hmem s hinv).bind ?_
      rintro e s' hinv' - ⟨ty, hty, he⟩
      have hok := helement rfl a hn ty hty
      rcases he.dataType with ⟨info, hinfo, -⟩
      refine (good_carArray hinv' (fun _ => ⟨rfl, info, hinfo⟩) fun _ _ _ => ⟨ty, he, hok⟩).mono id ?_
      intro s'' o ho
      refine ⟨.carArray ty, ?_, ho ty he hok⟩
      simp only [denoteByType, hn, Option.bind_some, hty, Option.map_some]
  | _ => exact (good_intrinsic hinv _ _).mono id fun _ _ ho => ⟨_, rfl, ho⟩

/-- What is acquired describes the descriptor. -/
theorem good_acquire (hW : NoWrap W) {m n : Nat} {t : TypePtr} {check : Bool} (hinv : Inv W κ s)
    (hasks : AsksOnly W κ n m t check) :
    Good W κ (Finite W n m t check) s (acquireDataTypeInfo W n m t check)
      (Denotes W (denote W n m t check)) := by
  -- by induction on the depth: the parts are acquired before the info is looked for
  induction n generalizing s t check with
  | zero => exact good_throw hinv id
  | succ n ih =>
    refine (good_initOrgType hinv m t).bind ?_
    intro _ s' hinv' _ _
    rw [resolveType_eq W hW]
    cases hr : resolveType natLevels (W.module m) t check with
    | error e =>
      refine Good.congr (y := throw e) (good_throw hinv' ?_) rfl
      rintro ⟨r, hr', -⟩
      rw [hr] at hr'
      cases hr'
    | ok r =>
      have hfin : Finite W (n + 1) m t check →
          (r.type = .arrayOf → r.desc.nested ≠ none) ∧
            ∀ p ∈ parts W m r check, Finite W n m p.1 p.2 := by
        rintro ⟨r', hr', hfin⟩
        rw [hr] at hr'
        cases hr'
        exact hfin
      rcases hasks r hr with ⟨hparts, helement⟩
      have hdenote : denote W (n + 1) m t check = denoteByType W (denote W n m) m r check := by
        rw [denote, hr]
      rw [hdenote]
      refine Good.congr (y := acquireByType W (acquireDataTypeInfo W n m) m r check) ?_ rfl
      refine good_byType hinv' ?_ (fun h => (hfin h).1) helement
      intro p hp s hinv
      exact (ih hinv (hparts p hp)).mono (fun h => (hfin h).2 p hp) fun _ _ h => h

end Calls

/-! ## Runs -/

section Runs

variable {W} {κ : CarDataType → Ty} {s : Caches}

/-- A call that asks only for arrays whose element type is the one that its data
type is used with. -/
def OpOk (W : World) (κ : CarDataType → Ty) (depth : Nat) (s : Caches) (e : Op × List Bool) : Prop :=
  match e.1 with
  | .dataType m t check => AsksOnly W κ depth m t check
  | .staticStruct m index =>
    ∀ a ∈ (W.module m).structs index, AsksOnly W κ depth m (.desc a) true
  | .carArray _ element =>
    ∀ info, s.heap[element]? = some info → info.dataType ≠ .struct →
      ∃ ty, IsInfo W s.heap element ty ∧ ElementOk κ ty
  | _ => True

/-- `AcquireDataTypeInfo` returns an object that describes the descriptor, and does
return one when there is memory and the type is a finite one. -/
def OpFaithful (W : World) (depth : Nat) (s : Caches) (e : Op × List Bool) : Prop :=
  match e.1 with
  | .dataType m t check =>
    let r := acquireDataTypeInfo W depth m t check { s with allocs := e.2 }
    (∀ o, r.1 = .ok o → Denotes W (denote W depth m t check) r.2 o) ∧
      (Finite W depth m t check → e.2 = [] → ∃ o, r.1 = .ok o)
  | _ => True

theorem Inv.release (hinv : Inv W κ s) (o : Nat) : Inv W κ (s.release o) := by
  have hkeep : ∀ {ι : Type} {table : ι → Option Nat} {p : ι → Nat → Prop},
      (∀ k o, table k = some o → p k o) →
        ∀ k o', (table k).filter (· ≠ o) = some o' → p k o' := by
    intro ι table p h k o' ho'
    exact h k o' (Option.filter_eq_some_iff.mp ho').1
  constructor
  · exact hinv.dataTypes
  · exact hinv.localTypes
  · exact hinv.carArrays
  · exact hkeep hinv.structs
  · exact hkeep hinv.enums
  · exact hkeep hinv.interfaces
  · exact hkeep hinv.localPtrs

/-- A call of which no result is promised. -/
theorem inv_of_good {α : Type} {x : Call α} {post : Caches → α → Prop}
    (h : Good W κ False s x post) : Inv W κ (x s).2 := h.inv

/-- No call breaks the invariant. -/
theorem inv_step (hW : NoWrap W) {depth : Nat} {e : Op × List Bool} (hinv : Inv W κ s)
    (hok : OpOk W κ depth s e) : Inv W κ ((objInfoList W depth).step s e) := by
  have hinv' : Inv W κ { s with allocs := e.2 } := hinv.grow (List.prefix_refl _)
  rcases e with ⟨op, allocs⟩
  cases op with
  | dataType m t check => exact (good_acquire hW hinv' hok).inv
  | intrinsic d size => exact inv_of_good (good_intrinsic hinv' d size)
  | localType type size => exact inv_of_good (good_localType hinv' type size)
  | localPtr m t pointer => exact inv_of_good (good_localPtr hinv' m t pointer)
  | staticStruct m index =>
    refine inv_of_good (good_struct m index ?_ hinv')
    intro a ha s hinv
    exact (good_acquire hW hinv (hok a ha)).mono False.elim fun _ _ _ => trivial
  | staticEnum m index => exact inv_of_good (good_enum hinv' m index)
  | interface m index => exact inv_of_good (good_interface hinv' m index)
  | cppVector element length => exact inv_of_good (good_cppVector hinv' element length)
  | carArray q element => exact inv_of_good (good_carArray hinv' False.elim hok)
  | dynamic isEnum => exact inv_of_good (good_new hinv' _)
  | release o => exact hinv'.release o

theorem opFaithful_of_inv (hW : NoWrap W) {depth : Nat} {e : Op × List Bool} (hinv : Inv W κ s)
    (hok : OpOk W κ depth s e) : OpFaithful W depth s e := by
  have hinv' : Inv W κ { s with allocs := e.2 } := hinv.grow (List.prefix_refl _)
  rcases e with ⟨op, allocs⟩
  cases op with
  | dataType m t check =>
    have hgood := good_acquire hW hinv' hok
    exact ⟨hgood.post, fun hfin hallocs => (hgood.total hfin hallocs).1⟩
  | _ => trivial

theorem inv_empty : Inv W κ Caches.empty := by
  constructor <;> exact fun _ _ h => nomatch h

end Runs

/-- Whatever was acquired before, an info describes its descriptor, as long as
each data type but the struct is the data type of one element type of arrays. -/
theorem acquired_infos_faithful (W : World) (hW : NoWrap W) (κ : CarDataType → Ty) (depth : Nat)
    (events : List (Op × List Bool))
    (hok : (objInfoList W depth).AllSteps (OpOk W κ depth) Caches.empty events) :
    (objInfoList W depth).AllSteps (OpFaithful W depth) Caches.empty events :=
  (objInfoList W depth).allSteps_of_invariant (I := Inv W κ) (fun _ _ => inv_step hW)
    (fun _ _ => opFaithful_of_inv hW) inv_empty hok

/-- Two arrays, of an enumeration each. -/
def enumArrays : World where
  module _ :=
    { desc := fun a =>
        { type := if a < 10 then .arrayOf else .enum
          index := a - 10
          pointer := 0
          nested := if a < 10 then some (a + 10) else none }
      structs := fun _ => []
      arrays := fun _ => (0, 0)
      aliases := []
      iid := id }
  typeSize _ := 4
  dataTypeSize _ := 0

theorem acquired_infos_faithful_enumArray :
    (objInfoList enumArrays 2).AllSteps (OpFaithful enumArrays 2) Caches.empty
      [(.dataType 0 (.desc 0) true, []), (.dataType 0 (.desc 0) false, [])] := by
  have hparts : ∀ check, AsksOnly enumArrays (fun _ => .enum 0 0) 2 0 (.desc 0) check := by
    intro check r hr
    cases check <;> cases hr
    all_goals
      constructor
      · intro p hp
        cases List.mem_singleton.mp hp
        intro r hr
        cases hr
        exact ⟨nofun, nofun⟩
      · rintro - a ha element helement -
        cases ha
        cases helement
        rfl
  refine acquired_infos_faithful enumArrays ?_ (fun _ => .enum 0 0) 2 _ ?_
  · intro m a ha
    cases ha
  · exact ⟨hparts true, hparts false, trivial⟩

/-- The array of the second enumeration is answered with the info of the first. -/
theorem carArray_of_other_enum :
    ¬ (objInfoList enumArrays 2).AllSteps (OpFaithful enumArrays 2) Caches.empty
      [(.dataType 0 (.desc 0) true, []), (.dataType 0 (.desc 1) true, [])] := by
  rintro ⟨-, ⟨hpost, -⟩, -⟩
  rcases hpost 1 rfl with ⟨ty, hty, hinfo⟩
  cases hty
  rcases hinfo with ⟨e, d, harray, helement⟩
  cases harray
  cases helement

end SuperExe.Reflection.TypeInfo
