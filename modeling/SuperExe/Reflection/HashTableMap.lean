import SuperExe.Lib.Trace
import SuperExe.Reflection.HashTable
import Mathlib.Data.List.TakeWhile

/-! # The hash table is a finite map

The invariant of the table is that of chained buckets: every entry stands in the
bucket of its hash, no key stands there twice, and the counter is the number of
entries. It is kept by every operation, whatever allocations fail, as long as no
table of `2^30` or more buckets is asked for: the size of such a table does not
fit 32 bits, and less is allocated.
-/

namespace SuperExe.Reflection

open SuperExe.Core SuperExe.Lib

variable {T : Type} (P : Platform) (type : KeyType)

/-! ## Keys -/

instance decIsKey (key : Bytes) : (type : KeyType) → Decidable (IsKey type key)
  | .uint32 => inferInstanceAs (Decidable (_ = _))
  | .uint64 => inferInstanceAs (Decidable (_ = _))
  | .string => inferInstanceAs (Decidable (_ ∉ _))
  | .emuid => inferInstanceAs (Decidable (_ = _))

variable {type} in
theorem keyBytes_of_isKey {key : Bytes} (h : IsKey type key) : keyBytes type key = key := by
  cases type with
  | uint32 => exact List.take_of_length_le (Nat.le_of_eq h)
  | uint64 => exact List.take_of_length_le (Nat.le_of_eq h)
  | emuid => exact List.take_of_length_le (Nat.le_of_eq h)
  | string =>
    refine List.takeWhile_eq_self_iff.mpr ?_
    intro c hc
    simp only [decide_eq_true_eq]
    rintro rfl
    exact h hc

variable {type} in
/-- What is stored is compared as the key. -/
theorem keyBytes_keycpy {key : Bytes} (h : IsKey type key) :
    keyBytes type (keycpy type key) = key := by
  have hkey := keyBytes_of_isKey h
  cases type with
  | uint32 => exact (congrArg (keyBytes .uint32) hkey).trans hkey
  | uint64 => exact (congrArg (keyBytes .uint64) hkey).trans hkey
  | emuid => exact (congrArg (keyBytes .emuid) hkey).trans hkey
  | string =>
    have hall : ∀ c ∈ key, decide (c ≠ 0) = true := by
      intro c hc
      simp only [decide_eq_true_eq]
      rintro rfl
      exact h hc
    rw [keycpy, hkey, keyBytes, List.takeWhile_append_of_pos hall]
    simp

/-- The key of an entry. -/
def HashEntry.keyOf (e : HashEntry T) : Bytes := keyBytes type e.key

/-- The bucket of a key. -/
def slotOf (capacity : Int) (key : Bytes) : Nat := bucketOf (hash P type key) capacity

theorem bucketOf_lt {capacity : Int} (hc : 0 < capacity) (hash : UInt32) :
    bucketOf hash capacity < capacity.toNat := by
  unfold bucketOf
  have hlt := Int.tmod_lt_of_pos ((hash &&& 0x7FFFFFFF).toNat : Int) hc
  have hnn : 0 ≤ Int.tmod ((hash &&& 0x7FFFFFFF).toNat : Int) capacity :=
    Int.tmod_nonneg capacity (Int.natCast_nonneg _)
  omega

theorem bucketsFor_eq {capacity : Int} (hc : 0 < capacity) (hsmall : capacity < 2 ^ 30) :
    bucketsFor capacity = capacity.toNat := by
  unfold bucketsFor
  omega

/-! ## The invariant -/

/-- A table and the map it holds. -/
structure TableOk (capacity count : Int) (t : List (List (HashEntry T)))
    (m : Finmap fun _ : Bytes => T) : Prop where
  buckets : t.length = capacity.toNat
  placed : Placed (HashEntry.keyOf type) (slotOf P type capacity) t
  hashes : ∀ e ∈ t.flatten, e.hash = hash P type (e.keyOf type)
  map : Represents (HashEntry.keyOf type) HashEntry.value t.flatten m
  count : count = t.flatten.length

/-- The invariant of a hash table. -/
structure Inv (h : HashTable T) (m : Finmap fun _ : Bytes => T) : Prop where
  capacity : 0 < h.capacity
  bounded : h.count < 2 ^ 31
  fresh : h.table = none → m = ∅ ∧ h.count = 0
  table : ∀ t, h.table = some t → TableOk P type h.capacity h.count t m

/-- The four lookups answer as the map does. -/
structure Refines (h : HashTable T) (m : Finmap fun _ : Bytes => T) : Prop where
  get : ∀ key, IsKey type key → h.get P type (some key) = some (m.lookup key)
  contains : ∀ key, IsKey type key → h.contains P type (some key) = some (m.lookup key).isSome
  size : h.size = m.keys.card
  isEmpty : h.isEmpty = decide (m.keys.card = 0)

section Lookup

variable {P type} {capacity count : Int} {t : List (List (HashEntry T))}
  {m : Finmap fun _ : Bytes => T} {key : Bytes} {b : List (HashEntry T)}

theorem TableOk.isEntryOf_iff (hok : TableOk P type capacity count t m) (hkey : IsKey type key)
    {e : HashEntry T} (he : e ∈ t.flatten) :
    HashTable.isEntryOf P type key e = true ↔ e.keyOf type = key := by
  have hhash := hok.hashes e he
  simp only [HashTable.isEntryOf, keycmp, Bool.and_eq_true, decide_eq_true_eq,
    keyBytes_of_isKey hkey]
  constructor
  · exact fun h => h.2
  · intro h
    exact ⟨by rw [hhash, h], h⟩

theorem TableOk.bucket (hok : TableOk P type capacity count t m) (hc : 0 < capacity)
    (key : Bytes) : ∃ b, t[slotOf P type capacity key]? = some b := by
  have hlt := bucketOf_lt hc (hash P type key)
  rw [← hok.buckets] at hlt
  exact ⟨_, List.getElem?_eq_getElem hlt⟩

/-- A search finds the entry of the key. -/
theorem TableOk.find (hok : TableOk P type capacity count t m) (hkey : IsKey type key)
    (hb : t[slotOf P type capacity key]? = some b) :
    (∃ e, b.find? (HashTable.isEntryOf P type key) = some e ∧ e ∈ t.flatten ∧
        e.keyOf type = key ∧ m.lookup key = some e.value) ∨
      (b.any (HashTable.isEntryOf P type key) = false ∧
        b.find? (HashTable.isEntryOf P type key) = none ∧ m.lookup key = none ∧
        key ∉ t.flatten.map (HashEntry.keyOf type)) := by
  cases hf : b.find? (HashTable.isEntryOf P type key) with
  | some e =>
    have he : e ∈ t.flatten := mem_flatten_of_chain hb (List.mem_of_find?_eq_some hf)
    have hke := (hok.isEntryOf_iff hkey he).mp (List.find?_some hf)
    exact Or.inl ⟨e, rfl, he, hke, (hok.map key e.value).mpr ⟨e, he, hke, rfl⟩⟩
  | none =>
    have hno : key ∉ t.flatten.map (HashEntry.keyOf type) := by
      intro hmem
      obtain ⟨e, he, rfl⟩ := List.mem_map.mp hmem
      have heb := (hok.placed.mem_chain hb).mp he
      exact List.find?_eq_none.mp hf e heb ((hok.isEntryOf_iff hkey he).mpr rfl)
    refine Or.inr ⟨?_, rfl, ?_, hno⟩
    · rw [List.any_eq_false]
      exact List.find?_eq_none.mp hf
    · rw [Finmap.lookup_eq_none, hok.map.mem_iff]
      exact hno

theorem any_of_find {p : HashEntry T → Bool} {e : HashEntry T} (h : b.find? p = some e) :
    b.any p = true :=
  List.any_eq_true.mpr ⟨e, List.mem_of_find?_eq_some h, List.find?_some h⟩

theorem Inv.refines {h : HashTable T} (hinv : Inv P type h m) : Refines P type h m := by
  cases ht : h.table with
  | none =>
    obtain ⟨rfl, hcount⟩ := hinv.fresh ht
    constructor
    · intro key _
      simp [HashTable.get, ht]
    · intro key _
      simp [HashTable.contains, ht]
    · simp [HashTable.size, hcount]
    · simp [HashTable.isEmpty, hcount]
  | some t =>
    have hok := hinv.table t ht
    have hcard := hok.map.card hok.placed.unique
    constructor
    · intro key hkey
      obtain ⟨b, hb⟩ := hok.bucket hinv.capacity key
      have hb' : t[bucketOf (hash P type key) h.capacity]? = some b := hb
      simp only [HashTable.get, ht, hb', Option.map_some]
      rcases hok.find hkey hb with ⟨e, hf, -, -, hm⟩ | ⟨-, hf, hm, -⟩
      · rw [hf, hm]
        rfl
      · rw [hf, hm]
        rfl
    · intro key hkey
      obtain ⟨b, hb⟩ := hok.bucket hinv.capacity key
      have hb' : t[bucketOf (hash P type key) h.capacity]? = some b := hb
      simp only [HashTable.contains, ht, hb', Option.map_some]
      rcases hok.find hkey hb with ⟨e, hf, -, -, hm⟩ | ⟨ha, -, hm, -⟩
      · rw [any_of_find hf, hm]
        rfl
      · rw [ha, hm]
        rfl
    · rw [HashTable.size, hok.count, hcard]
    · rw [HashTable.isEmpty, hok.count, hcard]
      exact decide_eq_decide.mpr Int.natCast_eq_zero

end Lookup

/-! ## The operations -/

section Operations

variable {P type} {h : HashTable T} {capacity count : Int} {t : List (List (HashEntry T))}
  {m : Finmap fun _ : Bytes => T} {key : Bytes} {b : List (HashEntry T)} (value : T)
  {alloc : HashTable.Alloc}

theorem tableOk_empty {n : Nat} (hn : n = capacity.toNat) :
    TableOk (T := T) P type capacity 0 (List.replicate n []) ∅ where
  buckets := by rw [List.length_replicate, hn]
  placed := placed_empty _
  hashes := by
    intro e he
    rw [List.flatten_replicate_nil] at he
    cases he
  map := by
    rw [List.flatten_replicate_nil]
    exact represents_nil
  count := by
    rw [List.flatten_replicate_nil]
    rfl

/-- `Put` on a key that is there. -/
theorem TableOk.replace (hok : TableOk P type capacity count t m)
    (hb : t[slotOf P type capacity key]? = some b) {e : HashEntry T}
    (hf : b.find? (HashTable.isEntryOf P type key) = some e) (hke : e.keyOf type = key) :
    TableOk P type capacity count
      (t.set (slotOf P type capacity key)
        (updateFirst (HashTable.isEntryOf P type key) (fun e => { e with value := value }) b))
      (m.insert key value) := by
  obtain ⟨others, hold, hnew, -⟩ := chain_split hb hf fun e => { e with value := value }
  have hnodup := (hold.map (HashEntry.keyOf type)).nodup_iff.mp hok.placed.unique
  rw [List.map_cons, List.nodup_cons] at hnodup
  refine ⟨?_, hok.placed.update hb hf rfl, ?_, ?_, ?_⟩
  · rw [List.length_set]
    exact hok.buckets
  · intro x hx
    rcases List.mem_cons.mp (hnew.mem_iff.mp hx) with rfl | hx
    · exact hok.hashes e (hold.mem_iff.mpr (by simp))
    · exact hok.hashes x (hold.mem_iff.mpr (List.mem_cons_of_mem e hx))
  · have hrep : Represents (HashEntry.keyOf type) HashEntry.value
        ({ e with value := value } :: others) (m.insert (e.keyOf type) value) :=
      (hok.map.perm hold).replace hnodup.1 rfl
    rw [hke] at hrep
    exact hrep.perm hnew.symm
  · rw [hok.count, hold.length_eq, hnew.length_eq]
    rfl

/-- `Remove` on a key that is there. -/
theorem TableOk.erase (hok : TableOk P type capacity count t m)
    (hb : t[slotOf P type capacity key]? = some b) {e : HashEntry T}
    (hf : b.find? (HashTable.isEntryOf P type key) = some e) (hke : e.keyOf type = key) :
    TableOk P type capacity (count - 1)
      (t.set (slotOf P type capacity key) (b.eraseP (HashTable.isEntryOf P type key)))
      (m.erase key) := by
  obtain ⟨others, hold, -, hnew⟩ := chain_split hb hf id
  have hnodup := (hold.map (HashEntry.keyOf type)).nodup_iff.mp hok.placed.unique
  rw [List.map_cons, List.nodup_cons] at hnodup
  refine ⟨?_, hok.placed.erase hb hf, ?_, ?_, ?_⟩
  · rw [List.length_set]
    exact hok.buckets
  · intro x hx
    exact hok.hashes x (hold.mem_iff.mpr (List.mem_cons_of_mem e (hnew.mem_iff.mp hx)))
  · have hrep := (hok.map.perm hold).tail hnodup.1
    rw [hke] at hrep
    exact hrep.perm hnew.symm
  · rw [hok.count, hold.length_eq, hnew.length_eq, List.length_cons]
    omega

/-- The new entry of a `Put`. -/
theorem TableOk.push (hok : TableOk P type capacity count t m) (hkey : IsKey type key)
    (hb : t[slotOf P type capacity key]? = some b)
    (hno : key ∉ t.flatten.map (HashEntry.keyOf type)) :
    TableOk P type capacity (count + 1)
      (t.set (slotOf P type capacity key)
        ({ hash := hash P type key, value := value, key := keycpy type key } :: b))
      (m.insert key value) := by
  have hkeyOf : HashEntry.keyOf type
      { hash := hash P type key, value := value, key := keycpy type key } = key :=
    keyBytes_keycpy hkey
  have hnew : HashEntry.keyOf type
      { hash := hash P type key, value := value, key := keycpy type key } ∉
        t.flatten.map (HashEntry.keyOf type) := by
    rw [hkeyOf]
    exact hno
  obtain ⟨hplaced, hperm⟩ := hok.placed.push hb (by rw [hkeyOf]) hnew
  refine ⟨?_, hplaced, ?_, ?_, ?_⟩
  · rw [List.length_set]
    exact hok.buckets
  · intro x hx
    rcases List.mem_cons.mp (hperm.mem_iff.mp hx) with rfl | hx
    · rw [hkeyOf]
    · exact hok.hashes x hx
  · have hrep := hok.map.cons hnew
    rw [hkeyOf] at hrep
    exact hrep.perm hperm.symm
  · rw [hok.count, hperm.length_eq, List.length_cons]
    omega

/-- `Rehash` moves the entries and keeps the map. -/
theorem rehash_ok (hok : TableOk P type h.capacity h.count t m) (hcap : 0 < h.capacity)
    (hsmall : h.capacity < 2 ^ 29) :
    ∃ h' t', HashTable.rehash P h t = some h' ∧ h'.table = some t' ∧ 0 < h'.capacity ∧
      h'.count = h.count ∧ TableOk P type h'.capacity h'.count t' m := by
  have hnew : toInt32 (h.capacity * 2 + 1) = h.capacity * 2 + 1 :=
    toInt32_eq (by omega) (by omega)
  have hfor : bucketsFor (h.capacity * 2 + 1) = (h.capacity * 2 + 1).toNat :=
    bucketsFor_eq (by omega) (by omega)
  have hall : t.take h.capacity.toNat = t := List.take_of_length_le (by rw [hok.buckets])
  have hentries : t.reverse.flatten.Perm t.flatten := (List.reverse_perm t).flatten
  have hplace : ∀ e ∈ t.reverse.flatten, bucketOf e.hash (h.capacity * 2 + 1) =
      slotOf P type (h.capacity * 2 + 1) (e.keyOf type) := by
    intro e he
    rw [slotOf, ← hok.hashes e (hentries.mem_iff.mp he)]
  have hempty : Placed (HashEntry.keyOf (T := T) type) (slotOf P type (h.capacity * 2 + 1))
      (List.replicate (bucketsFor (h.capacity * 2 + 1)) []) := placed_empty _
  have hslots : ∀ k, slotOf P type (h.capacity * 2 + 1) k <
      (List.replicate (bucketsFor (h.capacity * 2 + 1)) ([] : List (HashEntry T))).length := by
    intro k
    rw [List.length_replicate, hfor]
    exact bucketOf_lt (by omega) _
  -- the entries are pushed into the new buckets one after the other
  obtain ⟨t', hfold, hplaced, hlen, hperm⟩ := hempty.move hplace hslots (by
    rw [List.flatten_replicate_nil, List.append_nil, (hentries.map _).nodup_iff]
    exact hok.placed.unique)
  rw [List.flatten_replicate_nil, List.append_nil] at hperm
  refine ⟨{ h with
    table := some t'
    capacity := h.capacity * 2 + 1
    threshold := P.threshold (h.capacity * 2 + 1)
    modCount := h.modCount + 1 }, t', ?_, rfl, ?_, rfl, ?_⟩
  · rw [HashTable.rehash, if_neg (by rw [hok.buckets]; omega), hnew, hall]
    dsimp only
    rw [hfold]
    rfl
  · dsimp only
    omega
  · refine ⟨?_, hplaced, ?_, hok.map.perm (hperm.trans hentries).symm, ?_⟩
    · rw [hlen, List.length_replicate, hfor]
    · intro e he
      exact hok.hashes e ((hperm.trans hentries).mem_iff.mp he)
    · rw [(hperm.trans hentries).length_eq]
      exact hok.count

theorem TableOk.inv (hcap : 0 < h.capacity) (hbound : h.count < 2 ^ 31) (ht : h.table = some t)
    (hok : TableOk P type h.capacity h.count t m) : Inv P type h m where
  capacity := hcap
  bounded := hbound
  fresh := by
    intro hnone
    rw [ht] at hnone
    cases hnone
  table := by
    intro t' ht'
    rw [ht] at ht'
    cases ht'
    exact hok

/-- The end of `Put`, for a key that is not there. -/
theorem addEntry_ok (hcap : 0 < h.capacity) (hbound : h.count < 2 ^ 31) (ht : h.table = some t)
    (hok : TableOk P type h.capacity h.count t m) (hkey : IsKey type key) (hno : key ∉ m)
    (hcount : alloc.entry = true → h.count < 2 ^ 31 - 1) :
    ∃ r h', HashTable.addEntry P type h key value alloc = some (r, h') ∧
      Inv P type h' (if r then m.insert key value else m) ∧ (alloc.entry = true → r = true) := by
  unfold HashTable.addEntry
  by_cases halloc : alloc.entry = false
  · rw [if_pos halloc]
    refine ⟨false, h, rfl, hok.inv hcap hbound ht, ?_⟩
    intro hentry
    rw [halloc] at hentry
    cases hentry
  · rw [if_neg halloc, ht]
    obtain ⟨b, hb⟩ := hok.bucket hcap key
    have hb' : t[bucketOf (hash P type key) h.capacity]? = some b := hb
    have hhigh : h.count < 2 ^ 31 - 1 := hcount (by simpa using halloc)
    have hadd : toInt32 (h.count + 1) = h.count + 1 := by
      have hlow := hok.count
      exact toInt32_eq (by omega) (by omega)
    have hpush := hok.push value hkey hb (by rw [← hok.map.mem_iff]; exact hno)
    simp only [pushFront, hb', Option.map_some, hadd]
    exact ⟨true, _, rfl, TableOk.inv hcap (by dsimp only; omega) rfl hpush, fun _ => rfl⟩

/-- The allocations of a `Put` that reaches them ask for what fits 32 bits. -/
def Fits (h : HashTable T) (m : Finmap fun _ : Bytes => T) (key : Bytes)
    (alloc : HashTable.Alloc) : Prop :=
  (h.table = none → alloc.table = true → h.capacity < 2 ^ 30) ∧
    (h.table ≠ none ∨ alloc.table = true → key ∉ m →
      (h.threshold ≤ h.count → alloc.rehash = true → h.capacity < 2 ^ 29) ∧
      ((h.threshold ≤ h.count → alloc.rehash = true) → alloc.entry = true →
        h.count < 2 ^ 31 - 1))

/-- `Put` with a table. -/
theorem putIn_ok (hcap : 0 < h.capacity) (hbound : h.count < 2 ^ 31)
    (hok : TableOk P type h.capacity h.count t m) (hkey : IsKey type key)
    (hfits : key ∉ m →
      (h.threshold ≤ h.count → alloc.rehash = true → h.capacity < 2 ^ 29) ∧
      ((h.threshold ≤ h.count → alloc.rehash = true) → alloc.entry = true →
        h.count < 2 ^ 31 - 1)) :
    ∃ r h', HashTable.putIn P type h t key value alloc = some (r, h') ∧
      Inv P type h' (if r then m.insert key value else m) ∧
      (alloc.rehash = true → alloc.entry = true → r = true) := by
  obtain ⟨b, hb⟩ := hok.bucket hcap key
  have hb' : t[bucketOf (hash P type key) h.capacity]? = some b := hb
  simp only [HashTable.putIn, hb']
  -- a key that is there gets the new value
  rcases hok.find hkey hb with ⟨e, hf, -, hke, -⟩ | ⟨hany, -, hnone, -⟩
  · rw [if_pos (any_of_find hf)]
    exact ⟨true, _, rfl, TableOk.inv hcap hbound rfl (hok.replace value hb hf hke),
      fun _ _ => rfl⟩
  · have hno : key ∉ m := by rwa [← Finmap.lookup_eq_none]
    obtain ⟨hgrow, hcount⟩ := hfits hno
    rw [hany, if_neg (by simp)]
    -- a new one may need a larger table
    split
    · rename_i hfull
      split
      · rename_i halloc
        refine ⟨false, _, rfl, TableOk.inv hcap hbound rfl hok, ?_⟩
        intro hrehash
        rw [halloc] at hrehash
        cases hrehash
      · rename_i halloc
        have hrehash : alloc.rehash = true := by simpa using halloc
        obtain ⟨h', t', hre, ht', hcap', hsame, hok'⟩ :=
          rehash_ok (h := { h with table := some t, modCount := h.modCount + 1 }) hok hcap
            (hgrow hfull hrehash)
        rw [hre, Option.bind_some]
        obtain ⟨r, h'', hadd, hinv, hr⟩ := addEntry_ok value hcap'
          (by rw [hsame]; exact hbound) ht' hok' hkey hno
          (by rw [hsame]; exact hcount fun _ => hrehash)
        exact ⟨r, h'', hadd, hinv, fun _ => hr⟩
    · rename_i hroom
      obtain ⟨r, h', hadd, hinv, hr⟩ :=
        addEntry_ok (h := { h with table := some t, modCount := h.modCount + 1 }) value
          hcap hbound rfl hok hkey hno (hcount fun hfull => absurd hfull hroom)
      exact ⟨r, h', hadd, hinv, fun _ => hr⟩

/-- `Put` -/
theorem put_ok (hinv : Inv P type h m) (hkey : IsKey type key) (hfits : Fits h m key alloc) :
    ∃ r h', h.put P type (some key) (some value) alloc = some (r, h') ∧
      Inv P type h' (if r then m.insert key value else m) ∧
      (alloc = ⟨true, true, true⟩ → r = true) := by
  cases ht : h.table with
  | some t =>
    obtain ⟨r, h', hput, hinv', hr⟩ := putIn_ok value hinv.capacity hinv.bounded
      (hinv.table t ht) hkey (hfits.2 (Or.inl (by rw [ht]; simp)))
    refine ⟨r, h', by simpa only [HashTable.put, ht] using hput, hinv', ?_⟩
    rintro rfl
    exact hr rfl rfl
  | none =>
    obtain ⟨rfl, hzero⟩ := hinv.fresh ht
    simp only [HashTable.put, ht]
    split
    · rename_i halloc
      refine ⟨false, h, rfl, hinv, ?_⟩
      rintro rfl
      cases halloc
    · rename_i halloc
      have htable : alloc.table = true := by simpa using halloc
      have hok : TableOk P type h.capacity h.count
          (List.replicate (bucketsFor h.capacity) ([] : List (HashEntry T))) ∅ := by
        rw [hzero]
        exact tableOk_empty (bucketsFor_eq hinv.capacity (hfits.1 ht htable))
      obtain ⟨r, h', hput, hinv', hr⟩ :=
        putIn_ok value hinv.capacity hinv.bounded hok hkey (hfits.2 (Or.inr htable))
      refine ⟨r, h', hput, hinv', ?_⟩
      rintro rfl
      exact hr rfl rfl

theorem erase_of_notMem {m : Finmap fun _ : Bytes => T} (hno : key ∉ m) : m.erase key = m := by
  apply Finmap.ext_lookup
  intro k
  by_cases hk : k = key
  · rw [hk, Finmap.lookup_erase, Finmap.lookup_eq_none.mpr hno]
  · rw [Finmap.lookup_erase_ne hk]

/-- `Remove` -/
theorem remove_ok (hinv : Inv P type h m) (hkey : IsKey type key) :
    ∃ h', h.remove P type (some key) = some (decide (key ∈ m), h') ∧
      Inv P type h' (m.erase key) := by
  cases ht : h.table with
  | none =>
    obtain ⟨rfl, -⟩ := hinv.fresh ht
    have hno : key ∉ (∅ : Finmap fun _ : Bytes => T) := Finmap.notMem_empty
    rw [decide_eq_false hno, erase_of_notMem hno]
    refine ⟨h, by simp [HashTable.remove, ht], ?_⟩
    exact hinv
  | some t =>
    have hok := hinv.table t ht
    obtain ⟨b, hb⟩ := hok.bucket hinv.capacity key
    have hb' : t[bucketOf (hash P type key) h.capacity]? = some b := hb
    simp only [HashTable.remove, ht, hb', Option.map_some]
    rcases hok.find hkey hb with ⟨e, hf, he, hke, hm⟩ | ⟨hany, -, hnone, -⟩
    · have hmem : key ∈ m := Finmap.mem_iff.mpr ⟨e.value, hm⟩
      have hsub : toInt32 (h.count - 1) = h.count - 1 := by
        have hpos := List.length_pos_of_mem he
        have hlow := hok.count
        have hhigh := hinv.bounded
        exact toInt32_eq (by omega) (by omega)
      rw [if_pos (any_of_find hf), hsub, decide_eq_true hmem]
      have hlow := hinv.bounded
      exact ⟨_, rfl, TableOk.inv hinv.capacity (by dsimp only; omega) rfl (hok.erase hb hf hke)⟩
    · have hno : key ∉ m := by rwa [← Finmap.lookup_eq_none]
      rw [hany, if_neg (by simp), decide_eq_false hno, erase_of_notMem hno]
      exact ⟨h, rfl, hinv⟩

/-- `Clear` -/
theorem clear_ok (hinv : Inv P type h m) : ∃ h', h.clear = some h' ∧ Inv P type h' ∅ := by
  cases ht : h.table with
  | none =>
    obtain ⟨rfl, -⟩ := hinv.fresh ht
    exact ⟨h, by simp [HashTable.clear, ht], hinv⟩
  | some t =>
    have hlen := (hinv.table t ht).buckets
    simp only [HashTable.clear, ht]
    rw [if_neg (by omega), hlen]
    exact ⟨_, rfl, TableOk.inv hinv.capacity (by simp) rfl (tableOk_empty rfl)⟩

end Operations

/-! ## Runs -/

/-- The operations that may change a table. -/
inductive Op (T : Type) where
  | put (key : Option Bytes) (value : Option T) (alloc : HashTable.Alloc)
  | remove (key : Option Bytes)
  | clear

/-- What a call answers and leaves. -/
def HashTable.apply (h : HashTable T) : Op T → Option (Bool × HashTable T)
  | .put key value alloc => h.put P type key value alloc
  | .remove key => h.remove P type key
  | .clear => h.clear.map fun h => (true, h)

/-- The operation on a finite map; a `Put` that answered `FALSE` is none. -/
def Op.onMap (answer : Bool) (m : Finmap fun _ : Bytes => T) : Op T → Finmap fun _ : Bytes => T
  | .put (some key) (some value) _ => if answer then m.insert key value else m
  | .remove (some key) => m.erase key
  | .clear => ∅
  | _ => m

/-- A table and the map after the same operations. There is no table after an
operation that has gone out of bounds. -/
structure Tracked (T : Type) where
  table : Option (HashTable T)
  map : Finmap fun _ : Bytes => T

def track : Machine (Tracked T) (Op T) where
  step s op :=
    match s.table.bind fun h => h.apply P type op with
    | none => { s with table := none }
    | some (answer, h) => { table := some h, map := op.onMap answer s.map }

/-- A new table and the empty map. -/
def Tracked.new (T : Type) (initialCapacity : Int) : Tracked T :=
  { table := some (HashTable.new P T initialCapacity), map := ∅ }

/-- The keys are keys of the table's type. -/
def Op.KeyOk : Op T → Prop
  | .put (some key) _ _ => IsKey type key
  | .remove (some key) => IsKey type key
  | _ => True

instance decKeyOk : (op : Op T) → Decidable (op.KeyOk type)
  | .put (some key) _ _ => decIsKey key type
  | .put none _ _ => .isTrue trivial
  | .remove (some key) => decIsKey key type
  | .remove none => .isTrue trivial
  | .clear => .isTrue trivial

/-- Nothing that does not fit is asked for. -/
def OpFits (s : Tracked T) (op : Op T) : Prop :=
  match s.table, op with
  | some h, .put (some key) (some _) alloc => Fits h s.map key alloc
  | _, _ => True

/-- There is a table, and its lookups answer as the map does. -/
def Tracked.Refined (s : Tracked T) : Prop := ∃ h, s.table = some h ∧ Refines P type h s.map

/-- The answers: a `Put` fails only for want of memory, a `Remove` if the key is
not there. -/
def Answers (s : Tracked T) (op : Op T) : Prop :=
  ∃ h answer h', s.table = some h ∧ h.apply P type op = some (answer, h') ∧
    match op with
    | .put (some _) (some _) alloc => alloc = ⟨true, true, true⟩ → answer = true
    | .put _ _ _ => answer = false
    | .remove (some key) => answer = decide (key ∈ s.map)
    | .remove none => answer = false
    | .clear => True

section Runs

variable {P type}

def Tracked.Inv (P : Platform) (type : KeyType) (s : Tracked T) : Prop :=
  ∃ h, s.table = some h ∧ Reflection.Inv P type h s.map

theorem inv_new (initialCapacity : Int) : (Tracked.new P T initialCapacity).Inv P type := by
  refine ⟨_, rfl, ?_, ?_, fun _ => ⟨rfl, rfl⟩, ?_⟩
  · simp only [HashTable.new]
    split <;> omega
  · simp [HashTable.new]
  · intro t ht
    cases ht

/-- What one operation does. -/
theorem apply_ok {h : HashTable T} {m : Finmap fun _ : Bytes => T} {op : Op T}
    (hinv : Inv P type h m) (hkey : op.KeyOk type) (hfits : OpFits ⟨some h, m⟩ op) :
    Answers P type ⟨some h, m⟩ op ∧
      ∃ answer h', h.apply P type op = some (answer, h') ∧
        Inv P type h' (op.onMap answer m) := by
  rcases op with ⟨_ | key, value, alloc⟩ | ⟨_ | key⟩ | _
  · exact ⟨⟨h, false, h, rfl, rfl, rfl⟩, false, h, rfl, hinv⟩
  · rcases value with _ | value
    · exact ⟨⟨h, false, h, rfl, rfl, rfl⟩, false, h, rfl, hinv⟩
    · obtain ⟨answer, h', hput, hinv', hall⟩ := put_ok value hinv hkey hfits
      exact ⟨⟨h, answer, h', rfl, hput, hall⟩, answer, h', hput, hinv'⟩
  · exact ⟨⟨h, false, h, rfl, rfl, rfl⟩, false, h, rfl, hinv⟩
  · obtain ⟨h', hremove, hinv'⟩ := remove_ok hinv hkey
    exact ⟨⟨h, _, h', rfl, hremove, rfl⟩, _, h', hremove, hinv'⟩
  · obtain ⟨h', hclear, hinv'⟩ := clear_ok hinv
    have happly : h.apply P type .clear = some (true, h') := by
      rw [HashTable.apply, hclear]
      rfl
    exact ⟨⟨h, true, h', rfl, happly, trivial⟩, true, h', happly, hinv'⟩

theorem answers_of_inv (s : Tracked T) (op : Op T) (hinv : s.Inv P type)
    (hg : op.KeyOk type ∧ OpFits s op) : Answers P type s op := by
  rcases s with ⟨_, m⟩
  obtain ⟨h, rfl, hinv⟩ := hinv
  exact (apply_ok hinv hg.1 hg.2).1

theorem inv_step (s : Tracked T) (op : Op T) (hinv : s.Inv P type)
    (hg : op.KeyOk type ∧ OpFits s op) : ((track P type).step s op).Inv P type := by
  rcases s with ⟨_, m⟩
  obtain ⟨h, rfl, hinv⟩ := hinv
  obtain ⟨-, answer, h', happly, hinv'⟩ := apply_ok hinv hg.1 hg.2
  refine ⟨h', ?_, ?_⟩
  · simp only [track, Option.bind_some, happly]
  · simpa only [track, Option.bind_some, happly] using hinv'

end Runs

/-- As long as every allocation asks for what fits, a hash table is a finite
map: in every state of every run the lookups answer as the map after the same
operations does, whatever allocations fail. -/
theorem hashTable_refines_map (initialCapacity : Int) (ops : List (Op T))
    (hkeys : ∀ op ∈ ops, op.KeyOk type)
    (hfits : (track P type).AllSteps OpFits (Tracked.new P T initialCapacity) ops) :
    (track P type).AllStates (Tracked.Refined P type) (Tracked.new P T initialCapacity) ops ∧
      (track P type).AllSteps (Answers P type) (Tracked.new P T initialCapacity) ops := by
  have hguard := (Machine.allSteps_of_forall_mem (track P type) (Tracked.new P T initialCapacity)
    (G := fun _ op => op.KeyOk type) fun op hop _ => hkeys op hop).and hfits
  constructor
  · refine ((track P type).allStates_of_allSteps inv_step (inv_new initialCapacity) hguard).mono ?_
    rintro s ⟨h, hs, hinv⟩
    exact ⟨h, hs, hinv.refines⟩
  · exact (track P type).allSteps_of_invariant inv_step answers_of_inv (inv_new initialCapacity)
      hguard

/-- A platform where a `char` has no sign and the load factor is `3/4`. -/
def plain : Platform := { char := UInt8.toUInt32, threshold := fun capacity => capacity * 3 / 4 }

/-- A table of capacity 1 grows before its first entry; a `Put` fails, a key is
replaced, and one is removed. -/
theorem hashTable_refines_map_growing :
    (track plain .uint32).AllStates (Tracked.Refined plain .uint32) (Tracked.new plain Nat 1)
        [.put (some [7, 0, 0, 0]) (some 1) ⟨true, true, true⟩,
          .put (some [8, 0, 0, 0]) (some 2) ⟨true, true, false⟩,
          .put (some [7, 0, 0, 0]) (some 3) ⟨true, true, true⟩,
          .remove (some [7, 0, 0, 0]), .clear] :=
  (hashTable_refines_map plain .uint32 1 _ (by decide) (by
    refine ⟨?_, ?_, ?_, trivial, trivial, trivial⟩
    · exact ⟨fun _ _ => by decide, fun _ _ => ⟨fun _ _ => by decide, fun _ _ => by decide⟩⟩
    · exact ⟨fun _ _ => by decide, fun _ _ => ⟨fun _ _ => by decide, fun _ _ => by decide⟩⟩
    · exact ⟨fun _ _ => by decide, fun _ _ => ⟨fun _ _ => by decide, fun _ _ => by decide⟩⟩)).1

/-- With an initial capacity of `2^30` the table has no bytes at all, and the
first `Put` reads a bucket behind it. -/
theorem hashTable_capacity_wraps :
    ¬ ∀ ops : List (Op Nat), (∀ op ∈ ops, op.KeyOk .uint32) →
      (track plain .uint32).AllStates (Tracked.Refined plain .uint32)
        (Tracked.new plain Nat (2 ^ 30)) ops := by
  intro h
  have hkeys : ∀ op ∈ [Op.put (some [7, 0, 0, 0]) (some 1) ⟨true, true, true⟩],
      op.KeyOk .uint32 := by decide
  obtain ⟨t, ht, -⟩ := (h _ hkeys).last
  have hnone : ((track plain .uint32).run (Tracked.new plain Nat (2 ^ 30))
      [Op.put (some [7, 0, 0, 0]) (some 1) ⟨true, true, true⟩]).table = none := by
    decide
  rw [hnone] at ht
  cases ht

end SuperExe.Reflection
