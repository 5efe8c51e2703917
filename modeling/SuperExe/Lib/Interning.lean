import Mathlib.Tactic.Common
import Mathlib.Data.List.Basic

/-! # Objects that stand for a key and a value

A registry gives out one live object for a key with a value. A key names its object, so
that it cannot be asked for with another value, unless it is an anonymous one, which
objects of different values share.
-/

namespace SuperExe.Lib.Interning

universe u v w x

/-- A live object with what it stands for. -/
structure Live (ι : Type u) (K : Type v) (D : Type w) where
  id : ι
  key : K
  val : D
deriving DecidableEq

variable {ι : Type u} {K : Type v} {D : Type w} {ε : Type x}

/-- The objects are different, and two of one key are anonymous and of different values. -/
def Consistent (anonymous : K → Prop) (live : List (Live ι K D)) : Prop :=
  live.Pairwise fun a b => a.id ≠ b.id ∧ (a.key = b.key → anonymous a.key ∧ a.val ≠ b.val)

/-- How a request for a key with a value is to be answered, and what is live then: by the
live object that stands for them, by the error if the key names an object of another value,
and else by a new object that stands for them. -/
inductive Serves (anonymous : K → Prop) (exist : ε) (live : List (Live ι K D)) (key : K) (val : D) :
    Except ε ι → List (Live ι K D) → Prop
  | same {e : Live ι K D} (member : e ∈ live) (hkey : e.key = key) (hval : e.val = val) :
      Serves anonymous exist live key val (.ok e.id) live
  | clash {e : Live ι K D} (member : e ∈ live) (hkey : e.key = key) (named : ¬ anonymous key)
      (other : ∀ e ∈ live, e.key = key → e.val ≠ val) :
      Serves anonymous exist live key val (.error exist) live
  | made {o : ι} (fresh : ∀ e ∈ live, e.id ≠ o)
      (missing : ∀ e ∈ live, e.key = key → anonymous key ∧ e.val ≠ val) :
      Serves anonymous exist live key val (.ok o) (⟨o, key, val⟩ :: live)

/-- What a walk over the live objects may end with: with nothing where none has the key,
with an object of the key and the value, or with the error where one has the key and another
value. -/
def Lookup (exist : ε) (live : List (Live ι K D)) (key : K) (val : D) :
    Option (Except ε ι) → Prop
  | none => ∀ e ∈ live, e.key ≠ key
  | some (.ok o) => ∃ e ∈ live, e.id = o ∧ e.key = key ∧ e.val = val
  | some (.error ec) => ec = exist ∧ ∃ e ∈ live, e.key = key ∧ e.val ≠ val

variable {anonymous : K → Prop} {exist : ε} {live live' : List (Live ι K D)} {key : K} {val : D}
  {answer : Except ε ι}

theorem consistent_nil : Consistent anonymous ([] : List (Live ι K D)) := List.Pairwise.nil

theorem Consistent.sublist (h : Consistent anonymous live) (hsub : live'.Sublist live) :
    Consistent anonymous live' :=
  List.Pairwise.sublist hsub h

/-- Two live objects are one, or differ as they have to. -/
theorem Consistent.eq_or (h : Consistent anonymous live) {a b : Live ι K D} (ha : a ∈ live)
    (hb : b ∈ live) :
    a = b ∨ a.id ≠ b.id ∧ (a.key = b.key → anonymous a.key ∧ a.val ≠ b.val) := by
  induction live with
  | nil => cases ha
  | cons e live ih =>
    rcases List.pairwise_cons.mp h with ⟨hhead, htail⟩
    rcases List.mem_cons.mp ha with rfl | hmem
    · rcases List.mem_cons.mp hb with rfl | hmem'
      · exact Or.inl rfl
      · exact Or.inr (hhead b hmem')
    · rcases List.mem_cons.mp hb with rfl | hmem'
      · have hba := hhead a hmem
        refine Or.inr ⟨hba.1.symm, ?_⟩
        intro hkey
        have hdiff := hba.2 hkey.symm
        rw [← hkey] at hdiff
        exact ⟨hdiff.1, hdiff.2.symm⟩
      · exact ih htail hmem hmem'

/-- Objects of one number are one object. -/
theorem Consistent.eq_of_id (h : Consistent anonymous live) {a b : Live ι K D} (ha : a ∈ live)
    (hb : b ∈ live) (hid : a.id = b.id) : a = b := by
  rcases h.eq_or ha hb with heq | ⟨hne, -⟩
  · exact heq
  · exact absurd hid hne

/-- There is one object of a key that names it. -/
theorem Consistent.eq_of_key (h : Consistent anonymous live) {a b : Live ι K D} (ha : a ∈ live)
    (hb : b ∈ live) (hkey : a.key = b.key) (hnamed : ¬ anonymous a.key) : a = b := by
  rcases h.eq_or ha hb with heq | ⟨-, hdiff⟩
  · exact heq
  · exact absurd (hdiff hkey).1 hnamed

/-- An answered request leaves the live objects as they have to be. -/
theorem Serves.consistent (h : Serves anonymous exist live key val answer live')
    (hlive : Consistent anonymous live) : Consistent anonymous live' := by
  cases h with
  | same => exact hlive
  | clash => exact hlive
  | made fresh missing =>
    refine List.Pairwise.cons ?_ hlive
    intro e he
    refine ⟨(fresh e he).symm, ?_⟩
    intro hkey
    have hmiss := missing e he hkey.symm
    exact ⟨hmiss.1, hmiss.2.symm⟩

/-- A walk passes an object of another key. -/
theorem Lookup.cons {r : Option (Except ε ι)} (h : Lookup exist live key val r) {a : Live ι K D}
    (ha : a.key ≠ key) : Lookup exist (a :: live) key val r := by
  match r, h with
  | none, h =>
    intro e he
    rcases List.mem_cons.mp he with rfl | he
    · exact ha
    · exact h e he
  | some (.ok o), ⟨e, he, hfound⟩ => exact ⟨e, List.mem_cons_of_mem a he, hfound⟩
  | some (.error ec), ⟨hec, e, he, hfound⟩ =>
    exact ⟨hec, e, List.mem_cons_of_mem a he, hfound⟩

theorem Lookup.exists_key (h : Lookup exist live key val (some answer)) :
    ∃ e ∈ live, e.key = key := by
  match answer, h with
  | .ok _, ⟨e, he, _, hkey, _⟩ => exact ⟨e, he, hkey⟩
  | .error _, ⟨_, e, he, hkey, _⟩ => exact ⟨e, he, hkey⟩

/-- What a walk finds for a key that names its object is the answer. -/
theorem Lookup.serves (h : Lookup exist live key val (some answer))
    (hlive : Consistent anonymous live) (hnamed : ¬ anonymous key) :
    Serves anonymous exist live key val answer live := by
  match answer, h with
  | .ok _, ⟨e, he, rfl, hkey, hval⟩ => exact .same he hkey hval
  | .error _, ⟨rfl, e, he, hkey, hval⟩ =>
    refine .clash he hkey hnamed ?_
    intro e' he' hkey'
    have heq : e' = e := hlive.eq_of_key he' he (hkey'.trans hkey.symm) (by rwa [hkey'])
    rwa [heq]

/-- Where no object has the key, a request for it makes one. -/
theorem Serves.eq_made (h : Serves anonymous exist live key val answer live')
    (hmissing : ∀ e ∈ live, e.key ≠ key) : ∃ o, live' = ⟨o, key, val⟩ :: live := by
  cases h with
  | same member hkey => exact absurd hkey (hmissing _ member)
  | clash member hkey => exact absurd hkey (hmissing _ member)
  | @made o => exact ⟨o, rfl⟩

/-- A request that changes nothing has found its object. -/
theorem Serves.eq_same {o : ι} (h : Serves anonymous exist live key val (.ok o) live')
    (hlive : live' = live) : ∃ e ∈ live, e.id = o ∧ e.key = key ∧ e.val = val := by
  cases h with
  | same member hkey hval => exact ⟨_, member, rfl, hkey, hval⟩
  | made =>
    have hlen := congrArg List.length hlive
    rw [List.length_cons] at hlen
    omega

end SuperExe.Lib.Interning
