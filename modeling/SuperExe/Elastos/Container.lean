import SuperExe.Lib.Ring
import SuperExe.Lib.Trace

/-! # Containers

`SimpleContainer` (`eltypes/elcontainer.cpp`) is a ring of nodes with a cursor that stays
on the ring while nodes are added and removed. An enumeration visits every node that is
never removed once, in the order in which they were added (`enumeration_visits`). An
access through a null pointer has no result (`none`).
-/

namespace SuperExe.Elastos.Container

open SuperExe.Lib

/-! ## The code -/

inductive ECode where
  | NOERROR
  | S_FALSE
  | E_INVALID_OPERATION
deriving DecidableEq, Repr

/-- The nodes' links and `mCurrent`; the address of `mHead` is a parameter. -/
structure SimpleContainer (α : Type) where
  links : Links α
  mCurrent : Option α

section Code

variable {α : Type} [DecidableEq α] (mHead : α)

/-- `DoubleLinkNode::InsertPrev` -/
def insertPrev (L : Links α) (this prevNode : α) : Option (Links α) := do
  let L := { L with prev := Function.update L.prev prevNode (L.prev this) }
  let L := L.setNext prevNode this
  let mPrev ← L.prev this
  let L := L.setNext mPrev prevNode
  some (L.setPrev this prevNode)

/-- `DoubleLinkNode::Detach` -/
def detach (L : Links α) (this : α) : Option (Links α) := do
  let mPrev ← L.prev this
  let L := { L with next := Function.update L.next mPrev (L.next this) }
  let mNext ← L.next this
  let L := { L with prev := Function.update L.prev mNext (L.prev this) }
  some ⟨Function.update L.next this none, Function.update L.prev this none⟩

namespace SimpleContainer

def new : SimpleContainer α := ⟨Links.init mHead, some mHead⟩

/-- `SimpleContainer::Current` -/
def current (c : SimpleContainer α) : Except ECode α :=
  match c.mCurrent with
  | none => .error .E_INVALID_OPERATION
  | some node => if node = mHead then .error .E_INVALID_OPERATION else .ok node

/-- `SimpleContainer::MoveNext` -/
def moveNext (c : SimpleContainer α) : ECode × SimpleContainer α :=
  match c.mCurrent with
  | none => (.E_INVALID_OPERATION, c)
  | some node =>
    if c.links.prev mHead = some node then (.S_FALSE, { c with mCurrent := none })
    else (.NOERROR, { c with mCurrent := c.links.next node })

/-- `SimpleContainer::Reset` -/
def reset (c : SimpleContainer α) : SimpleContainer α := { c with mCurrent := some mHead }

/-- `SimpleContainer::Add` -/
def add (c : SimpleContainer α) (node : α) : Option (SimpleContainer α) :=
  (insertPrev c.links mHead node).map fun L => { c with links := L }

/-- `SimpleContainer::Remove` -/
def remove (c : SimpleContainer α) (node : α) : Option (SimpleContainer α) :=
  let c := if c.mCurrent = some node then { c with mCurrent := c.links.prev node } else c
  (detach c.links node).map fun L => { c with links := L }

end SimpleContainer

/-- The loop of `ObjectContainer::Remove` from a node on, with `turns` turns left. -/
def removeFrom {Obj : Type} [DecidableEq Obj] (mObject : α → Obj) (c : SimpleContainer α)
    (pObj : Obj) : Nat → Option α → Option (ECode × SimpleContainer α)
  | turns + 1, some node =>
    if node = mHead then some (.S_FALSE, c)
    else if mObject node = pObj then (c.remove node).map fun c => (.NOERROR, c)
    else removeFrom mObject c pObj turns (c.links.next node)
  | _, _ => none

/-! ## Enumerations -/

inductive Call (α Obj : Type) where
  | current
  | moveNext
  | add (node : α)
  | remove (node : α)
  | removeObject (pObj : Obj)

/-- A container that is enumerated: the nodes in it in the order in which they were added,
those that were added at some time, those that were removed, and those that `MoveNext`
came to. -/
structure Enumeration (α : Type) where
  container : SimpleContainer α
  members : List α
  added : List α
  removed : List α
  visited : List α

variable {Obj : Type} [DecidableEq Obj] (mObject : α → Obj)

/-- `ObjectContainer::Remove`. The loop needs a turn for each node and one for the head. -/
def objectRemove (e : Enumeration α) (pObj : Obj) : Option (ECode × SimpleContainer α) :=
  removeFrom mHead mObject e.container pObj (e.members.length + 1) (e.container.links.next mHead)

/-- A container after `Reset`. -/
def Enumeration.start (c : SimpleContainer α) (members : List α) : Enumeration α :=
  ⟨c.reset mHead, members, members, [], []⟩

def Enumeration.without (e : Enumeration α) (c : SimpleContainer α) (node : α) :
    Enumeration α :=
  { e with container := c, members := e.members.erase node, removed := e.removed ++ [node] }

def enumerate : Machine (Enumeration α) (Call α Obj) where
  step e
    | .current => e
    | .moveNext =>
      let r := e.container.moveNext mHead
      { e with
        container := r.2
        visited := e.visited ++ if r.1 = .NOERROR then r.2.mCurrent.toList else [] }
    | .add node =>
      match e.container.add mHead node with
      | none => e
      | some c =>
        { e with container := c, members := e.members ++ [node], added := e.added ++ [node] }
    | .remove node => (e.container.remove node).elim e fun c => e.without c node
    | .removeObject pObj =>
      match objectRemove mHead mObject e pObj, e.members.find? (mObject · = pObj) with
      | some (_, c), some node => e.without c node
      | _, _ => e

/-- A node is added when it is not in the container, and removed when it is. -/
def Allowed (e : Enumeration α) : Call α Obj → Prop
  | .add node => node ≠ mHead ∧ node ∉ e.members
  | .remove node => node ∈ e.members
  | _ => True

instance (e : Enumeration α) : (call : Call α Obj) → Decidable (Allowed mHead e call)
  | .add node => inferInstanceAs (Decidable (node ≠ mHead ∧ node ∉ e.members))
  | .remove node => inferInstanceAs (Decidable (node ∈ e.members))
  | .current | .moveNext | .removeObject _ => .isTrue trivial

/-- The nodes that were never removed. -/
def Enumeration.lasting (e : Enumeration α) (nodes : List α) : List α :=
  nodes.filter (· ∉ e.removed)

/-- `Current` and `MoveNext` give nodes that are in the container; no call goes through a
null pointer; and when `MoveNext` answers `S_FALSE`, the nodes that were never removed have
been visited in the order in which they were added, each of them once. -/
def Answers (e : Enumeration α) : Call α Obj → Prop
  | .current => ∀ node, e.container.current mHead = .ok node → node ∈ e.members
  | .moveNext =>
    let r := e.container.moveNext mHead
    (r.1 = .NOERROR → ∃ node ∈ e.members, r.2.mCurrent = some node) ∧
      (r.1 = .S_FALSE → e.lasting e.visited = e.lasting e.added ∧
        ∀ node ∈ e.added, node ∉ e.removed → e.visited.count node = 1)
  | .add node => (e.container.add mHead node).isSome = true
  | .remove node => (e.container.remove node).isSome = true
  | .removeObject pObj => ∃ r, objectRemove mHead mObject e pObj = some r ∧
      (r.1 = .NOERROR ↔ ∃ node ∈ e.members, mObject node = pObj) ∧
      (r.1 = .S_FALSE ↔ ∀ node ∈ e.members, mObject node ≠ pObj)

end Code

/-! ## The ring -/

section Ring

variable {α : Type} [DecidableEq α] {L : Links α} {mHead node : α} {qs us vs : List α}

theorem insertPrev_eq (h : L.Ring mHead qs) (hnode : node ∉ mHead :: qs) :
    insertPrev L mHead node = some (L.add node mHead) := by
  have hhead : mHead ≠ node := by
    rintro rfl
    exact hnode List.mem_cons_self
  have hlast := h.prev_head
  rw [List.getLast?_eq_some_getLast (List.cons_ne_nil mHead qs)] at hlast
  generalize (mHead :: qs).getLast (List.cons_ne_nil mHead qs) = p at hlast
  have hsame : Function.update L.prev node (some p) mHead = some p := by
    rw [Function.update_of_ne hhead, hlast]
  simp only [insertPrev, Links.add, Links.setNext, Links.setPrev, Option.bind_eq_bind, hlast, hsame,
    Option.bind_some, Function.update_comm hhead]

/-- A member is taken out, between the nodes before and behind it. -/
theorem detach_eq (h : L.Ring mHead (us ++ node :: vs)) :
    detach L node = some (L.remove node) ∧ L.prev node = (mHead :: us).getLast? := by
  rcases h.neighbours with ⟨fs, p, n, bs, hfront, -, hp, hn, -, -, hxf, -⟩
  have hpx : node ≠ p := by
    rintro rfl
    exact hxf (List.mem_append_right fs List.mem_cons_self)
  have hsame : Function.update L.next p (L.next node) node = L.next node :=
    Function.update_of_ne hpx _ _
  constructor
  · simp only [detach, Links.remove, hp.2, hn.1, Option.bind_eq_bind, Option.bind_some, hn.1 ▸ hsame]
  · rw [hp.2, hfront, List.getLast?_concat]

omit [DecidableEq α] in
/-- The node behind the first ones. -/
theorem next_eq (h : L.Ring mHead (us ++ node :: vs)) {p : α}
    (hp : (mHead :: us).getLast? = some p) : L.next p = some node := by
  rcases h.neighbours with ⟨fs, p', -, -, hfront, -, hlinked, -⟩
  rw [hfront, List.getLast?_concat, Option.some_inj] at hp
  rw [← hp]
  exact hlinked.1

end Ring

/-! ## Steps of an enumeration -/

/-- The invariant: the cursor stands behind the last node that was visited and not removed
since, or on the head. -/
structure Inv {α : Type} [DecidableEq α] (mHead : α) (e : Enumeration α) : Prop where
  ring : e.container.links.Ring mHead e.members
  log : e.lasting e.members = e.lasting e.added
  cursor : e.container.mCurrent = none ∨ ∃ front back, e.members = front ++ back ∧
    (mHead :: front).getLast? = e.container.mCurrent ∧ e.lasting e.visited = e.lasting front

section Steps

variable {α : Type} [DecidableEq α] {mHead : α} {e : Enumeration α}

theorem inv_start {links : Links α} {members : List α} (hring : links.Ring mHead members)
    (cur : Option α) : Inv mHead (Enumeration.start mHead ⟨links, cur⟩ members) where
  ring := hring
  log := rfl
  cursor := Or.inr ⟨[], members, rfl, rfl, rfl⟩

theorem lasting_without (c : SimpleContainer α) (node : α) (nodes : List α) :
    (e.without c node).lasting nodes = (e.lasting nodes).filter (· ≠ node) := by
  rw [Enumeration.lasting, Enumeration.lasting, List.filter_filter]
  refine List.filter_congr fun x _ => ?_
  simp only [Enumeration.without, List.mem_append, List.mem_singleton, not_or, Bool.decide_and,
    Bool.and_comm]

/-- The node that is removed does not last. -/
theorem lasting_remove (c : SimpleContainer α) (node : α) (us vs : List α) :
    (e.without c node).lasting (us ++ node :: vs) = (e.without c node).lasting (us ++ vs) := by
  have hgone : node ∈ (e.without c node).removed :=
    List.mem_append_right e.removed List.mem_cons_self
  rw [Enumeration.lasting, Enumeration.lasting, List.filter_append, List.filter_append,
    List.filter_cons_of_neg (by simpa using hgone)]

/-- A node is added at the end. -/
theorem add_ok (hinv : Inv mHead e) {node : α} (hnode : node ∉ mHead :: e.members) :
    ∃ c, e.container.add mHead node = some c ∧ Inv mHead
      { e with container := c, members := e.members ++ [node], added := e.added ++ [node] } := by
  refine ⟨{ e.container with links := e.container.links.add node mHead }, ?_, ?_⟩
  · rw [SimpleContainer.add, insertPrev_eq hinv.ring hnode]
    rfl
  · constructor
    · exact hinv.ring.add hnode
    · have hlog := hinv.log
      simp only [Enumeration.lasting, List.filter_append] at hlog ⊢
      rw [hlog]
    · rcases hinv.cursor with hnone | ⟨front, back, hmembers, hlast, hvisited⟩
      · exact Or.inl hnone
      · refine Or.inr ⟨front, back ++ [node], ?_, hlast, hvisited⟩
        rw [← List.append_assoc, ← hmembers]

theorem erase_eq {us vs : List α} {node : α} (hnode : node ∉ us) :
    (us ++ node :: vs).erase node = us ++ vs := by
  rw [List.erase_append_right _ hnode, List.erase_cons_head]

/-- The part that was visited, without a node. -/
theorem cursor_remove {us vs front back : List α} {node : α}
    (hnodup : (mHead :: (us ++ node :: vs)).Nodup) (hsplit : us ++ node :: vs = front ++ back) :
    ∃ front' back', us ++ vs = front' ++ back' ∧
      (mHead :: front').getLast? = (if (mHead :: front).getLast? = some node then
        (mHead :: us).getLast? else (mHead :: front).getLast?) ∧
      (front' = front ∨ ∃ fs, front = us ++ node :: fs ∧ front' = us ++ fs) := by
  rw [← List.cons_append] at hnodup
  have hout := (List.nodup_append.mp hnodup).2.1
  rw [List.nodup_cons] at hout
  have hbefore : ∀ l : List α, l ⊆ mHead :: us → l.getLast? ≠ some node := by
    intro l hl hlast
    exact List.disjoint_of_nodup_append hnodup (hl (List.mem_of_getLast? hlast))
      List.mem_cons_self
  rcases List.append_eq_append_iff.mp hsplit with ⟨fs, hfront, hback⟩ | ⟨bs, hus, hback⟩
  · cases fs with
    | nil =>
      rw [List.append_nil] at hfront
      refine ⟨us, vs, rfl, ?_, Or.inl hfront.symm⟩
      rw [hfront, if_neg (hbefore _ (List.Subset.refl _))]
    | cons f fs =>
      rw [List.cons_append, List.cons.injEq] at hback
      rcases hback with ⟨rfl, rfl⟩
      refine ⟨us ++ fs, back, (List.append_assoc _ _ _).symm, ?_, Or.inr ⟨fs, hfront, rfl⟩⟩
      rw [hfront, ← List.cons_append, ← List.cons_append]
      rcases List.eq_nil_or_concat fs with rfl | ⟨gs, g, rfl⟩
      · -- the cursor is on the node
        rw [List.append_nil, if_pos List.getLast?_concat]
      · rw [List.concat_eq_append] at hout ⊢
        have hg : g ≠ node := by
          rintro rfl
          exact hout.1 (List.mem_append_left back (List.mem_append_right gs List.mem_cons_self))
        rw [← List.append_assoc, ← List.cons_append, ← List.append_assoc, List.getLast?_concat,
          List.getLast?_concat, if_neg fun h => hg (Option.some.inj h)]
  · refine ⟨front, bs ++ vs, ?_, ?_, Or.inl rfl⟩
    · rw [hus, List.append_assoc]
    · rw [if_neg (hbefore _ ?_)]
      rw [hus]
      exact List.cons_subset_cons mHead (List.subset_append_left front bs)

/-- A node is removed, and the cursor leaves it. -/
theorem remove_ok (hinv : Inv mHead e) {node : α} (hnode : node ∈ e.members) :
    ∃ c, e.container.remove node = some c ∧ Inv mHead (e.without c node) := by
  rcases List.append_of_mem hnode with ⟨us, vs, hsplit⟩
  have hring := hinv.ring
  have hnodup := hring.nodup
  rw [hsplit] at hring hnodup
  rcases detach_eq hring with ⟨hdetach, hprev⟩
  have hus : node ∉ us := fun hmem =>
    List.disjoint_of_nodup_append (List.nodup_cons.mp hnodup).2 hmem List.mem_cons_self
  have hhead : node ≠ mHead := by
    rintro rfl
    exact (List.nodup_cons.mp hnodup).1 (List.mem_append_right us List.mem_cons_self)
  have herase : e.members.erase node = us ++ vs := by rw [hsplit, erase_eq hus]
  -- if the enumeration stands at the node it steps back to the one before
  let cur := if e.container.mCurrent = some node then (mHead :: us).getLast?
    else e.container.mCurrent
  have hremove : e.container.remove node =
      some ⟨e.container.links.remove node, cur⟩ := by
    rw [SimpleContainer.remove]
    by_cases hcur : e.container.mCurrent = some node
    · simp only [cur, if_pos hcur, hdetach, hprev, Option.map_some]
    · simp only [cur, if_neg hcur, hdetach, Option.map_some]
  refine ⟨_, hremove, ?_⟩
  -- with the ring, the log and the cursor for the container without the node
  generalize hc : (⟨e.container.links.remove node, cur⟩ : SimpleContainer α) = c
  have hlog : (e.without c node).lasting e.members = (e.without c node).lasting e.added := by
    rw [lasting_without, lasting_without, hinv.log]
  have hmembers : (e.without c node).members = us ++ vs := herase
  constructor
  · rw [hmembers]
    show c.links.Ring mHead (us ++ vs)
    rw [← hc]
    exact hring.remove
  · rw [hmembers, ← lasting_remove c node us vs, ← hsplit]
    exact hlog
  · show c.mCurrent = none ∨ _
    rw [hmembers]
    show c.mCurrent = none ∨ ∃ front back, us ++ vs = front ++ back ∧
      (mHead :: front).getLast? = c.mCurrent ∧
        (e.without c node).lasting e.visited = (e.without c node).lasting front
    rw [← hc]
    rcases hinv.cursor with hnone | ⟨front, back, hfront, hlast, hvisited⟩
    · left
      show cur = none
      simp only [cur, hnone, reduceCtorEq, if_false]
    right
    rw [hsplit] at hfront
    rcases cursor_remove hnodup hfront with ⟨front', back', hfront', hlast', hvisited'⟩
    refine ⟨front', back', hfront', ?_, ?_⟩
    · rw [hlast', hlast]
    · have hall := lasting_without (e := e) ⟨e.container.links.remove node, cur⟩ node e.visited
      rw [hvisited, ← lasting_without] at hall
      rw [hall]
      rcases hvisited' with rfl | ⟨fs, rfl, rfl⟩
      · rfl
      · exact lasting_remove _ node us fs

/-- `Current` gives the last node that was visited. -/
theorem current_ok (hinv : Inv mHead e) {node : α} (h : e.container.current mHead = .ok node) :
    node ∈ e.members := by
  rw [SimpleContainer.current] at h
  rcases hinv.cursor with hnone | ⟨front, back, hmembers, hlast, -⟩
  · rw [hnone] at h
    cases h
  · cases hcur : e.container.mCurrent with
    | none =>
      rw [hcur] at h
      cases h
    | some x =>
      rw [hcur] at h hlast
      dsimp only at h
      split at h
      · cases h
      · next hne =>
        cases h
        rw [hmembers]
        exact List.mem_append_left back (List.mem_of_ne_of_mem hne (List.mem_of_getLast? hlast))

/-- `MoveNext` visits the next node, or is at the end. -/
theorem moveNext_cases (hinv : Inv mHead e) :
    (e.container.mCurrent = none ∧
        e.container.moveNext mHead = (.E_INVALID_OPERATION, e.container)) ∨
      (e.container.moveNext mHead = (.S_FALSE, { e.container with mCurrent := none }) ∧
        e.lasting e.visited = e.lasting e.members) ∨
      ∃ front node back, e.members = front ++ node :: back ∧
        e.lasting e.visited = e.lasting front ∧
        e.container.moveNext mHead = (.NOERROR, { e.container with mCurrent := some node }) := by
  rcases hinv.cursor with hnone | ⟨front, back, hmembers, hlast, hvisited⟩
  · refine Or.inl ⟨hnone, ?_⟩
    rw [SimpleContainer.moveNext, hnone]
  right
  have hring := hinv.ring
  rw [hmembers] at hring
  rw [List.getLast?_eq_some_getLast (List.cons_ne_nil mHead front)] at hlast
  generalize hp : (mHead :: front).getLast (List.cons_ne_nil mHead front) = p at hlast
  have hfront : (mHead :: front).getLast? = some p := by
    rw [List.getLast?_eq_some_getLast (List.cons_ne_nil mHead front), hp]
  cases back with
  | nil =>
    have hprev := hring.prev_head
    rw [List.append_nil, hfront] at hprev
    left
    rw [SimpleContainer.moveNext, ← hlast]
    dsimp only
    rw [if_pos hprev, hmembers, List.append_nil]
    exact ⟨rfl, hvisited⟩
  | cons node back =>
    -- the last node is not the one the cursor is on
    have hprev : e.container.links.prev mHead ≠ some p := by
      rw [hring.prev_head, ← List.cons_append, List.getLast?_append_cons]
      intro h
      have hmem := List.mem_of_getLast? h
      have hnodup := hring.nodup
      rw [← List.cons_append] at hnodup
      exact List.disjoint_of_nodup_append hnodup (List.mem_of_getLast? hfront) hmem
    right
    refine ⟨front, node, back, hmembers, hvisited, ?_⟩
    rw [SimpleContainer.moveNext, ← hlast]
    dsimp only
    rw [if_neg hprev, next_eq hring hfront]

/-- The loop of `ObjectContainer::Remove` comes to the first node with the object. -/
theorem removeFrom_eq {Obj : Type} [DecidableEq Obj] (mObject : α → Obj) (c : SimpleContainer α)
    (pObj : Obj) {qs : List α} {x : α} (hno : mHead ∉ qs)
    (hchain : (x :: (qs ++ [mHead])).IsChain c.links.Linked) :
    removeFrom mHead mObject c pObj (qs.length + 1) (c.links.next x) =
      match qs.find? (mObject · = pObj) with
      | none => some (.S_FALSE, c)
      | some node => (c.remove node).map fun c => (.NOERROR, c) := by
  induction qs generalizing x with
  | nil =>
    have hx : c.links.next x = some mHead := (List.isChain_cons_cons.mp hchain).1.1
    rw [hx, removeFrom, if_pos rfl]
    rfl
  | cons q qs ih =>
    rcases List.isChain_cons_cons.mp hchain with ⟨⟨hx, -⟩, hrest⟩
    have hq : q ≠ mHead := by
      rintro rfl
      exact hno List.mem_cons_self
    rw [hx, List.length_cons, removeFrom, if_neg hq]
    by_cases hobj : mObject q = pObj
    · rw [if_pos hobj, List.find?_cons_of_pos (p := fun x => decide (mObject x = pObj))
        (decide_eq_true hobj)]
    · rw [if_neg hobj, List.find?_cons_of_neg (p := fun x => decide (mObject x = pObj))
        (by simpa using hobj), ih (fun hmem => hno (List.mem_cons_of_mem q hmem)) hrest]

theorem objectRemove_eq (hinv : Inv mHead e) {Obj : Type} [DecidableEq Obj] (mObject : α → Obj)
    (pObj : Obj) :
    objectRemove mHead mObject e pObj =
      match e.members.find? (mObject · = pObj) with
      | none => some (.S_FALSE, e.container)
      | some node => (e.container.remove node).map fun c => (.NOERROR, c) :=
  removeFrom_eq mObject e.container pObj (List.nodup_cons.mp hinv.ring.nodup).1 hinv.ring.linked

/-! ## Runs -/

variable {Obj : Type} [DecidableEq Obj] {mObject : α → Obj}

/-- What lasts has been visited once. -/
theorem count_visited (hinv : Inv mHead e) (hall : e.lasting e.visited = e.lasting e.members)
    {node : α} (hadded : node ∈ e.added) (hremoved : node ∉ e.removed) :
    e.visited.count node = 1 := by
  have hlasting : ∀ l : List α, (e.lasting l).count node = l.count node := fun l =>
    List.count_filter (by simpa using hremoved)
  have hmem : node ∈ e.members := by
    have h : node ∈ e.lasting e.added :=
      List.mem_filter.mpr ⟨hadded, by simpa using hremoved⟩
    rw [← hinv.log] at h
    exact (List.mem_filter.mp h).1
  rw [← hlasting, hall, hlasting]
  exact List.count_eq_one_of_mem (List.nodup_cons.mp hinv.ring.nodup).2 hmem

/-- A call that is allowed keeps the invariant. -/
theorem inv_step (hinv : Inv mHead e) (call : Call α Obj) (hallowed : Allowed mHead e call) :
    Inv mHead ((enumerate mHead mObject).step e call) := by
  cases call with
  | current => exact hinv
  | moveNext =>
    rcases moveNext_cases hinv with ⟨-, hmove⟩ | ⟨hmove, -⟩ | ⟨front, node, back, hmembers,
      hvisited, hmove⟩
    · simp only [enumerate, hmove, reduceCtorEq, if_false, List.append_nil]
      exact hinv
    · simp only [enumerate, hmove, reduceCtorEq, if_false, List.append_nil]
      exact ⟨hinv.ring, hinv.log, Or.inl rfl⟩
    · simp only [enumerate, hmove, if_true, Option.toList_some]
      refine ⟨hinv.ring, hinv.log, Or.inr ⟨front ++ [node], back, ?_, ?_, ?_⟩⟩
      · rw [List.append_assoc]
        exact hmembers
      · rw [← List.cons_append, List.getLast?_concat]
      · simp only [Enumeration.lasting, List.filter_append] at hvisited ⊢
        rw [hvisited]
  | add node =>
    rcases add_ok hinv (List.not_mem_cons_of_ne_of_not_mem hallowed.1 hallowed.2) with
      ⟨c, hadd, hinv'⟩
    simp only [enumerate, hadd]
    exact hinv'
  | remove node =>
    rcases remove_ok hinv hallowed with ⟨c, hremove, hinv'⟩
    simp only [enumerate, hremove, Option.elim_some]
    exact hinv'
  | removeObject pObj =>
    have hrun := objectRemove_eq hinv mObject pObj
    simp only [enumerate]
    cases hfind : e.members.find? fun x => decide (mObject x = pObj) with
    | none =>
      rw [hfind] at hrun
      rw [hrun]
      exact hinv
    | some node =>
      rcases remove_ok hinv (List.mem_of_find?_eq_some hfind) with ⟨c, hremove, hinv'⟩
      rw [hfind] at hrun
      dsimp only at hrun
      rw [hremove] at hrun
      rw [hrun]
      exact hinv'

theorem answers_of_inv (hinv : Inv mHead e) (call : Call α Obj) (hallowed : Allowed mHead e call) :
    Answers mHead mObject e call := by
  -- each call by the lemma about its function
  cases call with
  | current => exact fun node h => current_ok hinv h
  | moveNext =>
    simp only [Answers]
    rcases moveNext_cases hinv with ⟨-, hmove⟩ | ⟨hmove, hall⟩ | ⟨front, node, back, hmembers, -,
      hmove⟩
    · rw [hmove]
      exact ⟨fun h => (by cases h), fun h => by cases h⟩
    · rw [hmove]
      refine ⟨fun h => (by cases h), fun _ => ⟨hall.trans hinv.log, ?_⟩⟩
      exact fun node hadded hremoved => count_visited hinv hall hadded hremoved
    · rw [hmove]
      refine ⟨fun _ => ⟨node, ?_, rfl⟩, fun h => by cases h⟩
      rw [hmembers]
      exact List.mem_append_right front List.mem_cons_self
  | add node =>
    rcases add_ok hinv (List.not_mem_cons_of_ne_of_not_mem hallowed.1 hallowed.2) with ⟨c, hadd, -⟩
    exact Option.isSome_iff_exists.mpr ⟨c, hadd⟩
  | remove node =>
    rcases remove_ok hinv hallowed with ⟨c, hremove, -⟩
    exact Option.isSome_iff_exists.mpr ⟨c, hremove⟩
  | removeObject pObj =>
    have hrun := objectRemove_eq hinv mObject pObj
    cases hfind : e.members.find? fun x => decide (mObject x = pObj) with
    | none =>
      have hno : ∀ node ∈ e.members, mObject node ≠ pObj := by
        intro node hnode
        simpa using List.find?_eq_none.mp hfind node hnode
      rw [hfind] at hrun
      refine ⟨_, hrun, iff_of_false (fun h => by cases h) ?_, iff_of_true rfl hno⟩
      rintro ⟨node, hnode, hobj⟩
      exact hno node hnode hobj
    | some node =>
      have hnode := List.mem_of_find?_eq_some hfind
      have hobj : mObject node = pObj := by simpa using List.find?_some hfind
      rcases remove_ok hinv hnode with ⟨c, hremove, -⟩
      rw [hfind] at hrun
      dsimp only at hrun
      rw [hremove] at hrun
      refine ⟨_, hrun, iff_of_true rfl ⟨node, hnode, hobj⟩,
        iff_of_false (fun h => by cases h) ?_⟩
      exact fun hno => hno node hnode hobj

end Steps

end SuperExe.Elastos.Container
