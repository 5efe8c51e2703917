import Mathlib.Data.List.Chain
import Mathlib.Data.List.Nodup
import Mathlib.Logic.Function.Basic

/-! # Doubly linked rings

Lists threaded through their own nodes: each node has a forward and a backward
link, and a head node closes the ring. A node that is not yet in the ring is
appended in front of the head; `Ring.add` says that this gives the ring with one
node more, and `Ring.walk` that a traversal meets each node once and then ends.
Appending a node that is in the ring already gives no ring at all, so `Ring.add`
has no converse.

What appending nodes again leads to is said by `next_linkAll`: the successor of a
node is what was appended behind its last time. A traversal then still ends
(`walk_linkAll`), unless the last node was appended twice in a row: it is its own
successor, and the traversal never leaves it (`visit_linkAll`).
-/

namespace SuperExe.Lib

variable {α : Type*} [DecidableEq α]

/-- The links of all nodes; `none` is a null pointer. -/
structure Links (α : Type*) where
  next : α → Option α
  prev : α → Option α

namespace Links

def setNext (L : Links α) (x y : α) : Links α := { L with next := Function.update L.next x (some y) }

def setPrev (L : Links α) (x y : α) : Links α := { L with prev := Function.update L.prev x (some y) }

/-- Nothing is linked but the head, to itself. -/
def init (head : α) : Links α :=
  ((⟨fun _ => none, fun _ => none⟩ : Links α).setNext head head).setPrev head head

/-- Link `new` in between the last node and the head. The four assignments are
made in this order, whether `new` is one of the nodes already or not. -/
def add (L : Links α) (new head : α) : Links α :=
  match L.prev head with
  | none => L
  | some prev => (((L.setPrev head new).setNext new head).setPrev new prev).setNext prev new

/-- The nodes a traversal meets from `x` on; `none` when the head is not reached
within `n` steps. -/
def walk (L : Links α) (head : α) : Nat → Option α → Option (List α)
  | n + 1, some x => if x = head then some [] else (walk L head n (L.next x)).map (x :: ·)
  | _, _ => none

/-- Take `x` out from between its neighbours. -/
def remove (L : Links α) (x : α) : Links α :=
  match L.prev x, L.next x with
  | some p, some n =>
    { next := Function.update (Function.update L.next p (some n)) x none
      prev := Function.update (Function.update L.prev n (some p)) x none }
  | _, _ => L

/-- `x` and `y` are neighbours. -/
def Linked (L : Links α) (x y : α) : Prop := L.next x = some y ∧ L.prev y = some x

/-- The ring of `head` with the members `qs`, each of them once. -/
structure Ring (L : Links α) (head : α) (qs : List α) : Prop where
  linked : (head :: (qs ++ [head])).IsChain L.Linked
  nodup : (head :: qs).Nodup

section Ring

variable {L : Links α} {head new : α} {qs : List α}

theorem ring_init (head : α) : (init head).Ring head [] where
  linked := by simp [init, setNext, setPrev, Linked]
  nodup := by simp

/-- The links behind an `add` of a node that is not linked yet. -/
theorem add_links {p : α} (hprev : L.prev head = some p) (hp : p ≠ new) (hhead : head ≠ new) :
    (L.add new head).Linked p new ∧ (L.add new head).Linked new head ∧
      (∀ a, a ≠ p → a ≠ new → (L.add new head).next a = L.next a) ∧
      ∀ b, b ≠ head → b ≠ new → (L.add new head).prev b = L.prev b := by
  unfold Links.add
  simp only [hprev, setNext, setPrev, Linked]
  refine ⟨⟨?_, ?_⟩, ⟨?_, ?_⟩, ?_, ?_⟩
  · rw [Function.update_self]
  · rw [Function.update_self]
  · rw [Function.update_of_ne (Ne.symm hp), Function.update_self]
  · rw [Function.update_of_ne hhead, Function.update_self]
  · intro a hap han
    rw [Function.update_of_ne hap, Function.update_of_ne han]
  · intro b hbh hbn
    rw [Function.update_of_ne hbn, Function.update_of_ne hbh]

/-- A new node is appended. -/
theorem Ring.add (h : L.Ring head qs) (hnew : new ∉ head :: qs) :
    (L.add new head).Ring head (qs ++ [new]) := by
  -- `p` is the last node, the head itself in an empty ring
  rcases List.eq_nil_or_concat (head :: qs) with hnil | ⟨us, p, hlast⟩
  · cases hnil
  rw [List.concat_eq_append] at hlast
  have hchain := h.linked
  rw [← List.cons_append, hlast, List.append_assoc, List.singleton_append,
    List.isChain_append_cons_cons] at hchain
  rcases hchain with ⟨hfront, ⟨hnext, hprev⟩, -⟩
  have hp : p ≠ new := by
    rintro rfl
    exact hnew (by simp [hlast])
  have hhead : head ≠ new := by
    rintro rfl
    exact hnew (by simp)
  rcases add_links hprev hp hhead with ⟨hlink, hclose, hnext', hprev'⟩
  constructor
  · rw [List.append_assoc, ← List.cons_append, hlast, List.append_assoc]
    simp only [List.singleton_append, List.isChain_append_cons_cons, List.isChain_cons_cons]
    refine ⟨?_, hlink, hclose, .singleton _⟩
    -- no other link has changed
    refine hfront.imp_of_mem_tail_imp ?_
    intro x y hx hy hxy
    rw [← hlast] at hx hy
    have hyh : y ≠ head := by
      rintro rfl
      exact (List.nodup_cons.mp h.nodup).1 hy
    have hxp : x ≠ p := by
      rintro rfl
      exact hyh (Option.some.inj (hxy.1.symm.trans hnext))
    have hxn : x ≠ new := fun hxn => hnew (hxn ▸ hx)
    have hyn : y ≠ new := fun hyn => hnew (hyn ▸ List.mem_of_mem_tail hy)
    exact ⟨(hnext' x hxp hxn).trans hxy.1, (hprev' y hyh hyn).trans hxy.2⟩
  · rw [← List.cons_append, List.nodup_append_comm]
    exact List.nodup_cons.mpr ⟨hnew, h.nodup⟩

/-- The links behind a `remove`. -/
theorem remove_links {p n x : α} (hp : L.Linked p x) (hn : L.Linked x n) (hpx : p ≠ x)
    (hnx : n ≠ x) :
    (L.remove x).Linked p n ∧
      ∀ a b, L.Linked a b → a ≠ x → b ≠ x → (L.remove x).Linked a b := by
  have hremove : L.remove x =
      { next := Function.update (Function.update L.next p (some n)) x none
        prev := Function.update (Function.update L.prev n (some p)) x none } := by
    rw [Links.remove, hp.2, hn.1]
  rw [hremove]
  constructor
  · constructor
    · show Function.update (Function.update L.next p (some n)) x none p = some n
      rw [Function.update_of_ne hpx, Function.update_self]
    · show Function.update (Function.update L.prev n (some p)) x none n = some p
      rw [Function.update_of_ne hnx, Function.update_self]
  · intro a b hab ha hb
    have hap : a ≠ p := by
      rintro rfl
      exact hb (Option.some.inj (hab.1.symm.trans hp.1))
    have hbn : b ≠ n := by
      rintro rfl
      exact ha (Option.some.inj (hab.2.symm.trans hn.2))
    constructor
    · show Function.update (Function.update L.next p (some n)) x none a = some b
      rw [Function.update_of_ne ha, Function.update_of_ne hap]
      exact hab.1
    · show Function.update (Function.update L.prev n (some p)) x none b = some a
      rw [Function.update_of_ne hb, Function.update_of_ne hbn]
      exact hab.2

omit [DecidableEq α] in
/-- The neighbours of a member. -/
theorem Ring.neighbours {us vs : List α} {x : α} (h : L.Ring head (us ++ x :: vs)) :
    ∃ fs p n bs, head :: us = fs ++ [p] ∧ vs ++ [head] = n :: bs ∧ L.Linked p x ∧ L.Linked x n ∧
      (fs ++ [p]).IsChain L.Linked ∧ (n :: bs).IsChain L.Linked ∧ x ∉ fs ++ [p] ∧ x ∉ n :: bs := by
  rcases List.eq_nil_or_concat (head :: us) with hnil | ⟨fs, p, hfront⟩
  · cases hnil
  rw [List.concat_eq_append] at hfront
  rcases List.exists_cons_of_ne_nil (List.append_ne_nil_of_right_ne_nil vs (List.cons_ne_nil head []))
    with ⟨n, bs, hback⟩
  have hnodup := h.nodup
  have hchain := h.linked
  rw [← List.cons_append, hfront] at hnodup
  rw [List.append_assoc, List.cons_append, hback, ← List.cons_append, hfront, List.append_assoc,
    List.singleton_append, List.isChain_append_cons_cons, List.isChain_cons_cons] at hchain
  have hx : x ∉ fs ++ [p] := fun hmem =>
    List.disjoint_of_nodup_append hnodup hmem List.mem_cons_self
  refine ⟨fs, p, n, bs, hfront, hback, hchain.2.1, hchain.2.2.1, hchain.1, hchain.2.2.2, hx, ?_⟩
  rw [← hback, List.mem_append, not_or, List.mem_singleton]
  constructor
  · exact (List.nodup_cons.mp (List.nodup_append.mp hnodup).2.1).1
  · rintro rfl
    exact hx (hfront ▸ List.mem_cons_self)

omit [DecidableEq α] in
/-- The head closes the ring. -/
theorem Ring.prev_head (h : L.Ring head qs) : L.prev head = (head :: qs).getLast? := by
  rcases List.eq_nil_or_concat (head :: qs) with hnil | ⟨fs, p, hlast⟩
  · cases hnil
  rw [List.concat_eq_append] at hlast
  have hchain := h.linked
  rw [← List.cons_append, hlast, List.append_assoc, List.singleton_append,
    List.isChain_append_cons_cons] at hchain
  rw [hlast, List.getLast?_concat]
  exact hchain.2.1.2

/-- A member is taken out. -/
theorem Ring.remove {us vs : List α} {x : α} (h : L.Ring head (us ++ x :: vs)) :
    (L.remove x).Ring head (us ++ vs) := by
  rcases h.neighbours with ⟨fs, p, n, bs, hfront, hback, hp, hn, hfs, hbs, hxf, hxb⟩
  have hpx : p ≠ x := by
    rintro rfl
    exact hxf (List.mem_append_right fs List.mem_cons_self)
  have hnx : n ≠ x := by
    rintro rfl
    exact hxb List.mem_cons_self
  rcases remove_links hp hn hpx hnx with ⟨hlink, hkeep⟩
  have hall : ∀ {l : List α}, l.IsChain L.Linked → x ∉ l → l.IsChain (L.remove x).Linked := by
    intro l hl hx
    refine hl.imp_of_mem_tail_imp fun a b ha hb hab => hkeep a b hab ?_ ?_
    · rintro rfl
      exact hx ha
    · rintro rfl
      exact hx (List.mem_of_mem_tail hb)
  constructor
  · rw [List.append_assoc, ← List.cons_append, hfront, hback, List.append_assoc,
      List.singleton_append, List.isChain_append_cons_cons]
    exact ⟨hall hfs hxf, hlink, hall hbs hxb⟩
  · refine h.nodup.sublist ?_
    exact ((List.sublist_cons_self x vs).append_left us).cons_cons head

/-- A traversal of a ring meets its members in order. -/
theorem Ring.walk (h : L.Ring head qs) :
    L.walk head (qs.length + 1) (L.next head) = some qs := by
  suffices hfrom : ∀ (qs : List α) (x : α), head ∉ qs →
      (x :: (qs ++ [head])).IsChain L.Linked →
      L.walk head (qs.length + 1) (L.next x) = some qs from
    hfrom qs head (List.nodup_cons.mp h.nodup).1 h.linked
  intro qs
  induction qs with
  | nil =>
    intro x _ hchain
    have hx : L.next x = some head := (List.isChain_cons_cons.mp hchain).1.1
    simp [Links.walk, hx]
  | cons q qs ih =>
    intro x hno hchain
    rcases List.isChain_cons_cons.mp hchain with ⟨⟨hx, -⟩, hrest⟩
    have hq : q ≠ head := by
      rintro rfl
      exact hno List.mem_cons_self
    rw [hx, List.length_cons, Links.walk, if_neg hq,
      ih q (fun hmem => hno (List.mem_cons_of_mem _ hmem)) hrest]
    rfl

/-- Appending nodes one after the other, none of them twice. -/
theorem ring_foldl {ns : List α} (hns : (head :: ns).Nodup) :
    (ns.foldl (fun L n => L.add n head) (init head)).Ring head ns := by
  induction ns using List.reverseRecOn with
  | nil => exact ring_init head
  | append_singleton ns n ih =>
    rw [List.foldl_append]
    rw [← List.cons_append, List.nodup_append_comm, List.singleton_append, List.nodup_cons] at hns
    exact (ih hns.2).add hns.1

end Ring

/-! ## Appending nodes again -/

section Again

/-- The first `n` nodes a traversal meets from `x` on. -/
def visit (L : Links α) (head : α) : Nat → Option α → List α
  | n + 1, some x => if x = head then [] else x :: visit L head n (L.next x)
  | _, _ => []

/-- The links after some nodes have been appended, new ones or not. -/
def linkAll (head : α) (ns : List α) : Links α := ns.foldl (fun L n => L.add n head) (init head)

/-- The last node was appended twice in a row. -/
def EndsTwice (ns : List α) : Prop := ∃ us x, ns = us ++ [x, x]

variable {L : Links α} {head new p x : α} {ns us vs : List α}

theorem next_add (hprev : L.prev head = some p) :
    (L.add new head).next x =
      if x = p then some new else if x = new then some head else L.next x := by
  unfold Links.add
  simp only [hprev, setNext, setPrev, Function.update_apply]

theorem prev_add_head (hprev : L.prev head = some p) (hne : head ≠ new) :
    (L.add new head).prev head = some new := by
  unfold Links.add
  simp only [hprev, setNext, setPrev]
  rw [Function.update_of_ne hne, Function.update_self]

theorem prev_linkAll (hhead : head ∉ ns) :
    (linkAll head ns).prev head = (head :: ns).getLast? := by
  induction ns using List.reverseRecOn with
  | nil => simp [linkAll, init, setNext, setPrev]
  | append_singleton ns y ih =>
    rw [List.mem_append, not_or, List.mem_singleton] at hhead
    have hprev := ih hhead.1
    rw [List.getLast?_eq_some_getLast (List.cons_ne_nil head ns)] at hprev
    rw [linkAll, List.foldl_append]
    rw [show (List.foldl _ _ [y]) = (linkAll head ns).add y head from rfl,
      prev_add_head hprev hhead.2, ← List.cons_append, List.getLast?_concat]

omit [DecidableEq α] in
/-- A list with a node at the end twice, seen from the end. -/
theorem endsTwice_concat {y : α} : EndsTwice (ns ++ [y]) ↔ ns.getLast? = some y := by
  constructor
  · rintro ⟨us, x, h⟩
    rw [show us ++ [x, x] = (us ++ [x]) ++ [x] by simp] at h
    rcases List.append_inj' h rfl with ⟨rfl, hy⟩
    rw [List.getLast?_concat, List.singleton_inj.mp hy]
  · intro h
    rcases List.getLast?_eq_some_iff.mp h with ⟨us, rfl⟩
    exact ⟨us, y, by simp⟩

/-- Behind a node comes what was appended after its last time. -/
theorem next_linkAll (hhead : head ∉ ns) (hsplit : head :: ns = us ++ x :: vs) (hx : x ∉ vs) :
    (∀ y ws, vs = y :: ws → (linkAll head ns).next x = some y) ∧
      (vs = [] → EndsTwice (head :: ns) → (linkAll head ns).next x = some x) ∧
      (vs = [] → ¬ EndsTwice (head :: ns) → (linkAll head ns).next x = some head) := by
  induction ns using List.reverseRecOn generalizing us x vs with
  | nil =>
    have hus : us = [] ∧ x = head ∧ vs = [] := by
      cases us with
      | nil => simpa using hsplit.symm
      | cons u us => simp at hsplit
    rcases hus with ⟨rfl, rfl, rfl⟩
    refine ⟨by simp, fun _ h => ?_, fun _ _ => by simp [linkAll, init, setNext, setPrev]⟩
    rcases h with ⟨us, y, h⟩
    simpa using congrArg List.length h
  | append_singleton ns y ih =>
    rw [List.mem_append, not_or, List.mem_singleton] at hhead
    have hne : head :: ns ≠ [] := List.cons_ne_nil head ns
    have hprev := prev_linkAll hhead.1
    rw [List.getLast?_eq_some_getLast hne] at hprev
    have hnext : ∀ z, (linkAll head (ns ++ [y])).next z =
        if z = (head :: ns).getLast hne then some y else if z = y then some head
        else (linkAll head ns).next z := by
      intro z
      rw [linkAll, List.foldl_append]
      exact next_add hprev
    rw [← List.cons_append] at hsplit ⊢
    rw [endsTwice_concat, List.getLast?_eq_some_getLast hne, hnext]
    rcases List.eq_nil_or_concat vs with rfl | ⟨ws, w, rfl⟩
    · -- the node is the new one
      have hy := List.append_inj' hsplit rfl
      have hxy : x = y := (List.singleton_inj.mp hy.2).symm
      subst hxy
      refine ⟨by simp, fun _ h => ?_, fun _ h => ?_⟩
      · rw [if_pos (Option.some.inj h).symm]
      · rw [if_neg fun hlast => h (congrArg some hlast.symm), if_pos rfl]
    · rw [List.concat_eq_append] at hsplit hx ⊢
      rw [← List.cons_append, ← List.append_assoc] at hsplit
      have hy := List.append_inj' hsplit rfl
      have hwy : w = y := (List.singleton_inj.mp hy.2).symm
      subst hwy
      rw [List.mem_append, not_or, List.mem_singleton] at hx
      refine ⟨fun z zs hz => ?_, by simp, by simp⟩
      cases ws with
      | nil =>
        -- the node was the last one
        have hlast : (head :: ns).getLast hne = x := by simp [hy.1]
        rw [List.nil_append, List.cons.injEq] at hz
        rw [if_pos hlast.symm, hz.1]
      | cons v ws =>
        have hlast : (head :: ns).getLast hne ∈ v :: ws := by
          have : (head :: ns).getLast hne = (v :: ws).getLast (List.cons_ne_nil v ws) := by
            simp [hy.1]
          rw [this]
          exact List.getLast_mem _
        have hxlast : x ≠ (head :: ns).getLast hne := by
          rintro hx'
          rw [← hx'] at hlast
          exact hx.1 hlast
        rw [List.cons_append, List.cons.injEq] at hz
        rw [if_neg hxlast, if_neg hx.2, (ih hhead.1 hy.1 hx.1).1 v ws rfl, hz.1]

omit [DecidableEq α] in
/-- A member of a list stands in it a last time. -/
theorem exists_last (h : x ∈ ns) : ∃ us vs, ns = us ++ x :: vs ∧ x ∉ vs := by
  rcases List.eq_append_cons_of_mem (List.mem_reverse.mpr h) with ⟨as, bs, hsplit, hx⟩
  refine ⟨bs.reverse, as.reverse, ?_, fun hmem => hx (List.mem_reverse.mp hmem)⟩
  rw [← List.reverse_reverse ns, hsplit]
  simp

omit [DecidableEq α] in
/-- What stands behind a member is not the first one. -/
theorem mem_of_behind {y : α} (hsplit : head :: ns = us ++ x :: vs) (hy : y ∈ vs) : y ∈ ns := by
  cases us with
  | nil =>
    rw [List.nil_append, List.cons.injEq] at hsplit
    rw [hsplit.2]
    exact hy
  | cons u us =>
    rw [List.cons_append, List.cons.injEq] at hsplit
    rw [hsplit.2]
    exact List.mem_append_right us (List.mem_cons_of_mem x hy)

/-- The successor of a node is a node. -/
theorem mem_next (hhead : head ∉ ns) (hx : x ∈ head :: ns) :
    ∃ y ∈ head :: ns, (linkAll head ns).next x = some y := by
  rcases exists_last hx with ⟨us, vs, hsplit, hlast⟩
  rcases next_linkAll hhead hsplit hlast with ⟨hmore, htwice, honce⟩
  cases vs with
  | cons y ws =>
    refine ⟨y, ?_, hmore y ws rfl⟩
    rw [hsplit]
    simp
  | nil =>
    by_cases h : EndsTwice (head :: ns)
    · exact ⟨x, hx, htwice rfl h⟩
    · exact ⟨head, List.mem_cons_self, honce rfl h⟩

/-- From a node a traversal that ends meets nodes appended later, each of them
once. -/
theorem walk_from (hhead : head ∉ ns) (hends : ¬ EndsTwice (head :: ns))
    (hsplit : head :: ns = us ++ x :: vs) (hx : x ∉ vs) :
    ∃ qs, (∀ n, vs.length < n → (linkAll head ns).walk head n ((linkAll head ns).next x) = some qs) ∧
      qs.Nodup ∧ qs ⊆ vs := by
  induction hlen : vs.length using Nat.strongRecOn generalizing us x vs with
  | ind l ih =>
    rcases next_linkAll hhead hsplit hx with ⟨hmore, -, honce⟩
    cases vs with
    | nil =>
      refine ⟨[], ?_, List.nodup_nil, List.nil_subset _⟩
      intro n hn
      obtain ⟨m, rfl⟩ : ∃ m, n = m + 1 := ⟨n - 1, by omega⟩
      rw [honce rfl hends, walk, if_pos rfl]
    | cons y ws =>
      have hy : y ∈ y :: ws := List.mem_cons_self
      rcases exists_last hy with ⟨us', vs', hsplit', hy'⟩
      have hlen' : vs'.length < l := by
        have := congrArg List.length hsplit'
        simp only [List.length_append, List.length_cons] at this hlen
        omega
      rcases ih vs'.length hlen' (by rw [hsplit, hsplit', ← List.cons_append, ← List.append_assoc])
        hy' rfl with ⟨qs, hwalk, hnodup, hsub⟩
      have hsub' : vs' ⊆ y :: ws := by
        rw [hsplit']
        exact fun z hz => List.mem_append_right _ (List.mem_cons_of_mem _ hz)
      have hyhead : y ≠ head := by
        rintro rfl
        exact hhead (mem_of_behind hsplit hy)
      refine ⟨y :: qs, ?_, List.nodup_cons.mpr ⟨fun hmem => hy' (hsub hmem), hnodup⟩, ?_⟩
      · intro n hn
        obtain ⟨m, rfl⟩ : ∃ m, n = m + 1 := ⟨n - 1, by omega⟩
        rw [hmore y ws rfl, walk, if_neg hyhead, hwalk m (by omega)]
        rfl
      · intro z hz
        rcases List.mem_cons.mp hz with rfl | hz
        · exact hy
        · exact hsub' (hsub hz)

/-- A traversal meets nodes that were appended, each of them at most once, and
ends. -/
theorem walk_linkAll (hhead : head ∉ ns) (hends : ¬ EndsTwice (head :: ns)) :
    ∃ qs, (∀ n, ns.length < n →
        (linkAll head ns).walk head n ((linkAll head ns).next head) = some qs) ∧
      qs.Nodup ∧ qs ⊆ ns :=
  walk_from hhead hends (List.nil_append (head :: ns)).symm hhead

/-- From a node of a list that ends twice a traversal comes to the last node, and
stays there. -/
theorem visit_from (hhead : head ∉ ns) (hends : EndsTwice (head :: ns))
    (hsplit : head :: ns = us ++ x :: vs) (hx : x ∉ vs) :
    ∃ qs z, qs.length ≤ vs.length ∧ z ∈ ns ∧ ∀ n,
      (linkAll head ns).walk head n ((linkAll head ns).next x) = none ∧
      (linkAll head ns).visit head (qs.length + n) ((linkAll head ns).next x) =
        qs ++ List.replicate n z := by
  induction hlen : vs.length using Nat.strongRecOn generalizing us x vs with
  | ind l ih =>
    rcases next_linkAll hhead hsplit hx with ⟨hmore, htwice, -⟩
    cases vs with
    | nil =>
      -- the last node, which is its own successor
      have hmem : x ∈ ns := by
        rcases hends with ⟨ws, y, htail⟩
        rw [hsplit, show ws ++ [y, y] = (ws ++ [y]) ++ [y] by simp] at htail
        have hy := List.append_inj' htail rfl
        rw [hy.1, List.append_assoc, List.singleton_append] at hsplit
        exact mem_of_behind hsplit List.mem_cons_self
      have hxhead : x ≠ head := by
        rintro rfl
        exact hhead hmem
      refine ⟨[], x, Nat.zero_le _, hmem, fun n => ?_⟩
      rw [htwice rfl hends, List.length_nil, Nat.zero_add, List.nil_append]
      induction n with
      | zero => exact ⟨rfl, rfl⟩
      | succ n ihn =>
        rw [walk, if_neg hxhead, visit, if_neg hxhead, htwice rfl hends, ihn.1, ihn.2]
        exact ⟨rfl, rfl⟩
    | cons y ws =>
      have hy : y ∈ y :: ws := List.mem_cons_self
      rcases exists_last hy with ⟨us', vs', hsplit', hy'⟩
      have hlen' : vs'.length < l := by
        have := congrArg List.length hsplit'
        simp only [List.length_append, List.length_cons] at this hlen
        omega
      rcases ih vs'.length hlen' (by rw [hsplit, hsplit', ← List.cons_append, ← List.append_assoc])
        hy' rfl with ⟨qs, z, hle, hz, hvisit⟩
      have hyhead : y ≠ head := by
        rintro rfl
        exact hhead (mem_of_behind hsplit hy)
      refine ⟨y :: qs, z, by rw [List.length_cons]; omega, hz, fun n => ⟨?_, ?_⟩⟩
      · rw [hmore y ws rfl]
        cases n with
        | zero => rfl
        | succ n => rw [walk, if_neg hyhead, (hvisit n).1, Option.map_none]
      · rw [hmore y ws rfl, List.length_cons, Nat.add_right_comm, visit, if_neg hyhead,
          (hvisit n).2, List.cons_append]

/-- A traversal of a list that ends twice comes to the last node after at most
one turn for each node, and never leaves it. -/
theorem visit_linkAll (hhead : head ∉ ns) (hends : EndsTwice (head :: ns)) :
    ∃ qs z, qs.length ≤ ns.length ∧ z ∈ ns ∧ ∀ n,
      (linkAll head ns).walk head n ((linkAll head ns).next head) = none ∧
      (linkAll head ns).visit head (qs.length + n) ((linkAll head ns).next head) =
        qs ++ List.replicate n z :=
  visit_from hhead hends (List.nil_append (head :: ns)).symm hhead

/-- A traversal that ends has met the nodes it visits; its last turn only sees the
head. -/
theorem visit_of_walk {n : Nat} {y : Option α} {qs : List α}
    (h : L.walk head (n + 1) y = some qs) : L.visit head n y = qs := by
  induction n generalizing y qs with
  | zero =>
    cases y with
    | none => simp [walk] at h
    | some x =>
      rw [walk] at h
      split at h
      · exact Option.some.inj h
      · simp [walk] at h
  | succ n ih =>
    cases y with
    | none => simp [walk] at h
    | some x =>
      rw [walk] at h
      rw [visit]
      split at h
      · next hx =>
        rw [if_pos hx]
        exact Option.some.inj h
      · next hx =>
        rcases Option.map_eq_some_iff.mp h with ⟨ps, hps, rfl⟩
        rw [if_neg hx, ih hps]

/-- More turns visit more nodes behind the same first ones. -/
theorem visit_prefix {n m : Nat} (hnm : n ≤ m) (y : Option α) :
    L.visit head n y <+: L.visit head m y := by
  induction n generalizing m y with
  | zero => exact List.nil_prefix
  | succ n ih =>
    obtain ⟨k, rfl⟩ : ∃ k, m = k + 1 := ⟨m - 1, by omega⟩
    cases y with
    | none => exact List.nil_prefix
    | some x =>
      rw [visit, visit]
      split
      · exact List.nil_prefix
      · exact List.cons_prefix_cons.mpr ⟨rfl, ih (by omega) (L.next x)⟩

omit [DecidableEq α] in
/-- Whether a list ends twice does not depend on a head in front of it. -/
theorem endsTwice_cons_some {β : Type*} {bs : List β} :
    EndsTwice (none :: bs.map some) ↔ EndsTwice bs := by
  constructor
  · rintro ⟨us, x, h⟩
    cases us with
    | nil =>
      rw [List.nil_append, List.cons.injEq] at h
      have hmem : x ∈ bs.map some := by simp [h.2]
      rw [← h.1] at hmem
      simp at hmem
    | cons u us =>
      rw [List.cons_append, List.cons.injEq] at h
      rcases List.map_eq_append_iff.mp h.2 with ⟨as, cs, rfl, -, hcs⟩
      rcases List.map_eq_cons_iff.mp hcs with ⟨b, ds, rfl, hb, hds⟩
      rcases List.map_eq_singleton_iff.mp hds with ⟨c, rfl, hc⟩
      rw [← hb, Option.some.injEq] at hc
      exact ⟨as, b, by rw [hc]⟩
  · rintro ⟨us, x, rfl⟩
    exact ⟨none :: us.map some, some x, by simp⟩

end Again

end Links

end SuperExe.Lib
