import Mathlib.Data.Finmap
import Mathlib.Data.List.Nodup

/-! # Chained buckets

A table of chains: each entry stands in the chain its key belongs to, and no key
stands in the table twice. `Placed` is that invariant, `Represents` relates a
table to a finite map. The rules below say what adding an entry in front of a
chain, replacing an entry, taking one out and moving all of them to another
table do to both.
-/

namespace SuperExe.Lib

universe u v w

variable {ε : Type u} {κ : Type v} {ν : Type w} {key : ε → κ} {val : ε → ν} {slot : κ → Nat}
  {t : List (List ε)} {b b' : List ε} {i : Nat} {e : ε} {k : κ}

/-- Every entry stands in the chain of its key, and no key stands there twice. -/
structure Placed (key : ε → κ) (slot : κ → Nat) (t : List (List ε)) : Prop where
  slots : ∀ i b, t[i]? = some b → ∀ e ∈ b, slot (key e) = i
  unique : (t.flatten.map key).Nodup

/-- The entries are those of the map. -/
def Represents [DecidableEq κ] (key : ε → κ) (val : ε → ν) (l : List ε)
    (m : Finmap fun _ : κ => ν) : Prop :=
  ∀ k v, m.lookup k = some v ↔ ∃ e ∈ l, key e = k ∧ val e = v

/-! ## Tables -/

/-- A chain and the rest of its table. -/
theorem flatten_perm_chain (h : t[i]? = some b) :
    ∃ rest, t.flatten.Perm (b ++ rest) ∧ ∀ b', (t.set i b').flatten.Perm (b' ++ rest) := by
  obtain ⟨hi, rfl⟩ := List.getElem?_eq_some_iff.mp h
  refine ⟨(t.take i).flatten ++ (t.drop (i + 1)).flatten, ?_, ?_⟩
  · have hsplit : t.flatten = (t.take i).flatten ++ (t[i] ++ (t.drop (i + 1)).flatten) := by
      conv_lhs => rw [← List.take_append_drop i t, List.drop_eq_getElem_cons hi]
      rw [List.flatten_append, List.flatten_cons]
    rw [hsplit]
    exact List.perm_append_comm_assoc _ _ _
  · intro b'
    rw [List.set_eq_take_append_cons_drop, if_pos hi, List.flatten_append, List.flatten_cons]
    exact List.perm_append_comm_assoc _ _ _

theorem mem_flatten_of_chain (h : t[i]? = some b) (he : e ∈ b) : e ∈ t.flatten :=
  List.mem_flatten.mpr ⟨b, List.mem_of_getElem? h, he⟩

/-- The entries of a key stand in its chain. -/
theorem Placed.mem_chain (hp : Placed key slot t) (h : t[slot (key e)]? = some b) :
    e ∈ t.flatten ↔ e ∈ b := by
  constructor
  · intro he
    obtain ⟨c, hc, hec⟩ := List.mem_flatten.mp he
    obtain ⟨j, hj⟩ := List.mem_iff_getElem?.mp hc
    have hslot := hp.slots j c hj e hec
    rw [hslot, hj] at h
    cases h
    exact hec
  · exact mem_flatten_of_chain h

/-- One chain is put in place of another. -/
theorem Placed.slots_set (hp : Placed key slot t) (h : t[i]? = some b)
    (hslots : ∀ e ∈ b', slot (key e) = i) :
    ∀ j c, (t.set i b')[j]? = some c → ∀ e ∈ c, slot (key e) = j := by
  intro j c hc e he
  by_cases hij : i = j
  · subst hij
    obtain ⟨hi, -⟩ := List.getElem?_eq_some_iff.mp h
    rw [List.getElem?_set_self hi] at hc
    cases hc
    exact hslots e he
  · rw [List.getElem?_set_ne hij] at hc
    exact hp.slots j c hc e he

theorem placed_empty (n : Nat) : Placed key slot (List.replicate n []) where
  slots := by
    intro i b h e he
    rw [List.getElem?_replicate] at h
    split at h
    · cases h
      cases he
    · cases h
  unique := by simp

/-! ## Changes of one chain -/

/-- The first entry that satisfies `p` is changed. -/
def updateFirst (p : ε → Bool) (f : ε → ε) : List ε → List ε
  | [] => []
  | e :: es => if p e then f e :: es else e :: updateFirst p f es

theorem updateFirst_append {p : ε → Bool} {f : ε → ε} {as bs : List ε} (has : ∀ a ∈ as, p a = false)
    (he : p e = true) : updateFirst p f (as ++ e :: bs) = as ++ f e :: bs := by
  induction as with
  | nil => simp [updateFirst, he]
  | cons a as ih =>
    have ha := has a (by simp)
    simp only [List.cons_append, updateFirst, ha, Bool.false_eq_true, if_false]
    rw [ih fun x hx => has x (List.mem_cons_of_mem a hx)]

/-- The entry a search finds, and all the others. -/
theorem chain_split {p : ε → Bool} (h : t[i]? = some b) (hfind : b.find? p = some e) (f : ε → ε) :
    ∃ others, t.flatten.Perm (e :: others) ∧
      (t.set i (updateFirst p f b)).flatten.Perm (f e :: others) ∧
      (t.set i (b.eraseP p)).flatten.Perm others := by
  obtain ⟨rest, hb, hb'⟩ := flatten_perm_chain h
  obtain ⟨he, as, bs, rfl, has⟩ := List.find?_eq_some_iff_append.mp hfind
  have has : ∀ a ∈ as, p a = false := fun a ha => by simpa using has a ha
  refine ⟨as ++ bs ++ rest, ?_, ?_, ?_⟩
  · refine hb.trans ?_
    rw [List.append_assoc, List.append_assoc]
    exact List.perm_middle
  · refine (hb' _).trans ?_
    rw [updateFirst_append has he, List.append_assoc, List.append_assoc]
    exact List.perm_middle
  · refine (hb' _).trans ?_
    rw [List.eraseP_append_right _ (fun a ha => by simp [has a ha]), List.eraseP_cons_of_pos he]

theorem Placed.update (hp : Placed key slot t) {p : ε → Bool} (h : t[i]? = some b)
    (hfind : b.find? p = some e) {f : ε → ε} (hf : key (f e) = key e) :
    Placed key slot (t.set i (updateFirst p f b)) where
  slots := by
    obtain ⟨he, as, bs, rfl, has⟩ := List.find?_eq_some_iff_append.mp hfind
    have has : ∀ a ∈ as, p a = false := fun a ha => by simpa using has a ha
    refine hp.slots_set h ?_
    rw [updateFirst_append has he]
    intro x hx
    rcases List.mem_append.mp hx with hx | hx
    · exact hp.slots i _ h x (List.mem_append_left _ hx)
    · rcases List.mem_cons.mp hx with rfl | hx
      · rw [hf]
        exact hp.slots i _ h e (by simp)
      · exact hp.slots i _ h x (by simp [hx])
  unique := by
    obtain ⟨others, hold, hnew, -⟩ := chain_split h hfind f
    have hkeys : (f e :: others).map key = (e :: others).map key := by simp [hf]
    rw [(hnew.map key).nodup_iff, hkeys, ← (hold.map key).nodup_iff]
    exact hp.unique

theorem Placed.erase (hp : Placed key slot t) {p : ε → Bool} (h : t[i]? = some b)
    (hfind : b.find? p = some e) : Placed key slot (t.set i (b.eraseP p)) where
  slots := by
    refine hp.slots_set h ?_
    intro x hx
    exact hp.slots i b h x (List.mem_of_mem_eraseP hx)
  unique := by
    obtain ⟨others, hold, -, hnew⟩ := chain_split h hfind id
    have hnodup := (hold.map key).nodup_iff.mp hp.unique
    exact (hnew.map key).nodup_iff.mpr (List.nodup_cons.mp hnodup).2

/-- A new entry in front of its chain. -/
theorem Placed.push (hp : Placed key slot t) (h : t[i]? = some b) (hslot : slot (key e) = i)
    (hnew : key e ∉ t.flatten.map key) :
    Placed key slot (t.set i (e :: b)) ∧ (t.set i (e :: b)).flatten.Perm (e :: t.flatten) := by
  obtain ⟨rest, hb, hb'⟩ := flatten_perm_chain h
  have hperm : (t.set i (e :: b)).flatten.Perm (e :: t.flatten) :=
    (hb' (e :: b)).trans (hb.symm.cons e)
  refine ⟨⟨hp.slots_set h ?_, ?_⟩, hperm⟩
  · intro x hx
    rcases List.mem_cons.mp hx with rfl | hx
    · exact hslot
    · exact hp.slots i b h x hx
  · rw [(hperm.map key).nodup_iff, List.map_cons, List.nodup_cons]
    exact ⟨hnew, hp.unique⟩

/-! ## Moving all entries -/

/-- An entry is put in front of chain `i`, if there is one. -/
def pushFront (t : List (List ε)) (i : Nat) (e : ε) : Option (List (List ε)) :=
  (t[i]?).map fun b => t.set i (e :: b)

theorem pushFront_eq_some {t' : List (List ε)} (h : pushFront t i e = some t') :
    ∃ b, t[i]? = some b ∧ t' = t.set i (e :: b) := by
  obtain ⟨b, hb, rfl⟩ := Option.map_eq_some_iff.mp h
  exact ⟨b, hb, rfl⟩

/-- Entries moved one after the other into a table that has a chain for each of
them. -/
theorem Placed.move {place : ε → Nat} {es : List ε} (hplace : ∀ e ∈ es, place e = slot (key e))
    (hp : Placed key slot t) (hslots : ∀ k, slot k < t.length)
    (hnodup : ((es ++ t.flatten).map key).Nodup) :
    ∃ t', es.foldlM (fun t e => pushFront t (place e) e) t = some t' ∧
      Placed key slot t' ∧ t'.length = t.length ∧ t'.flatten.Perm (es ++ t.flatten) := by
  induction es generalizing t with
  | nil => exact ⟨t, rfl, hp, rfl, List.Perm.refl _⟩
  | cons e es ih =>
    obtain ⟨b, hb⟩ : ∃ b, t[slot (key e)]? = some b :=
      ⟨_, List.getElem?_eq_getElem (hslots (key e))⟩
    rw [List.cons_append, List.map_cons, List.nodup_cons] at hnodup
    obtain ⟨hfresh, hnodup⟩ := hnodup
    have hnew : key e ∉ t.flatten.map key := by
      intro hmem
      apply hfresh
      rw [List.map_append]
      exact List.mem_append_right _ hmem
    obtain ⟨hp', hperm⟩ := hp.push hb rfl hnew
    have hmid : (es ++ (t.set (slot (key e)) (e :: b)).flatten).Perm
        (e :: (es ++ t.flatten)) := (hperm.append_left es).trans List.perm_middle
    have hnodup' : ((es ++ (t.set (slot (key e)) (e :: b)).flatten).map key).Nodup := by
      rw [(hmid.map key).nodup_iff, List.map_cons, List.nodup_cons]
      exact ⟨hfresh, hnodup⟩
    obtain ⟨t', hfold, hpt, hlen, hpermt⟩ :=
      ih (fun x hx => hplace x (List.mem_cons_of_mem e hx)) hp'
        (by rw [List.length_set]; exact hslots) hnodup'
    refine ⟨t', ?_, hpt, by rw [hlen, List.length_set], hpermt.trans hmid⟩
    rw [List.foldlM_cons, pushFront, hplace e (by simp), hb]
    exact hfold

/-! ## Finite maps -/

section Map

variable [DecidableEq κ] {l l' : List ε} {m : Finmap fun _ : κ => ν}

theorem Represents.perm (h : Represents key val l m) (hperm : l.Perm l') :
    Represents key val l' m := by
  intro k v
  rw [h k v]
  constructor
  · rintro ⟨e, he, hkv⟩
    exact ⟨e, hperm.mem_iff.mp he, hkv⟩
  · rintro ⟨e, he, hkv⟩
    exact ⟨e, hperm.mem_iff.mpr he, hkv⟩

theorem represents_nil : Represents key val [] (∅ : Finmap fun _ : κ => ν) := by
  intro k v
  simp

/-- A key is in the map if an entry has it. -/
theorem Represents.mem_iff (h : Represents key val l m) : k ∈ m ↔ k ∈ l.map key := by
  rw [Finmap.mem_iff, List.mem_map]
  constructor
  · rintro ⟨v, hv⟩
    obtain ⟨e, he, hk, -⟩ := (h k v).mp hv
    exact ⟨e, he, hk⟩
  · rintro ⟨e, he, rfl⟩
    exact ⟨val e, (h (key e) (val e)).mpr ⟨e, he, rfl, rfl⟩⟩

/-- The number of entries is that of the keys. -/
theorem Represents.card (h : Represents key val l m) (hnodup : (l.map key).Nodup) :
    m.keys.card = l.length := by
  have hkeys : m.keys = (l.map key).toFinset := by
    ext k
    rw [Finmap.mem_keys, h.mem_iff, List.mem_toFinset]
  rw [hkeys, List.toFinset_card_of_nodup hnodup, List.length_map]

theorem Represents.cons (h : Represents key val l m) (hnew : key e ∉ l.map key) :
    Represents key val (e :: l) (m.insert (key e) (val e)) := by
  intro k v
  by_cases hk : k = key e
  · subst hk
    rw [Finmap.lookup_insert]
    constructor
    · intro hv
      exact ⟨e, by simp, rfl, Option.some.inj hv⟩
    · rintro ⟨x, hx, hkx, rfl⟩
      rcases List.mem_cons.mp hx with rfl | hx
      · rfl
      · exact absurd (hkx ▸ List.mem_map_of_mem hx) hnew
  · rw [Finmap.lookup_insert_of_ne _ hk, h k v]
    constructor
    · rintro ⟨x, hx, hkv⟩
      exact ⟨x, List.mem_cons_of_mem e hx, hkv⟩
    · rintro ⟨x, hx, hkx, hv⟩
      rcases List.mem_cons.mp hx with rfl | hx
      · exact absurd hkx.symm hk
      · exact ⟨x, hx, hkx, hv⟩

theorem Represents.tail (h : Represents key val (e :: l) m) (hnew : key e ∉ l.map key) :
    Represents key val l (m.erase (key e)) := by
  intro k v
  by_cases hk : k = key e
  · subst hk
    rw [Finmap.lookup_erase]
    constructor
    · intro hv
      cases hv
    · rintro ⟨x, hx, hkx, -⟩
      exact absurd (hkx ▸ List.mem_map_of_mem hx) hnew
  · rw [Finmap.lookup_erase_ne hk, h k v]
    constructor
    · rintro ⟨x, hx, hkx, hv⟩
      rcases List.mem_cons.mp hx with rfl | hx
      · exact absurd hkx.symm hk
      · exact ⟨x, hx, hkx, hv⟩
    · rintro ⟨x, hx, hkv⟩
      exact ⟨x, List.mem_cons_of_mem e hx, hkv⟩

/-- An entry with another value under the same key. -/
theorem Represents.replace {e' : ε} (h : Represents key val (e :: l) m)
    (hnew : key e ∉ l.map key) (hkey : key e' = key e) :
    Represents key val (e' :: l) (m.insert (key e) (val e')) := by
  have hcons : Represents key val (e' :: l) ((m.erase (key e)).insert (key e') (val e')) :=
    (h.tail hnew).cons (by rw [hkey]; exact hnew)
  have hsame : (m.erase (key e)).insert (key e') (val e') = m.insert (key e) (val e') := by
    rw [hkey]
    apply Finmap.ext_lookup
    intro k
    by_cases hk : k = key e
    · rw [hk, Finmap.lookup_insert, Finmap.lookup_insert]
    · rw [Finmap.lookup_insert_of_ne _ hk, Finmap.lookup_insert_of_ne _ hk,
        Finmap.lookup_erase_ne hk]
  rwa [hsame] at hcons

end Map

end SuperExe.Lib
