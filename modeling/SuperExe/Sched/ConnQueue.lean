import SuperExe.Core.RbTreeRun
import SuperExe.Sched.Timeout

/-! # The connections of a worker in their tree

`mk_sched_add_connection` looks for the place of a connection in `rb_queue` by its
descriptor, links it there and rebalances; `mk_sched_remove_client` erases its node, and
`mk_sched_get_connection` looks a descriptor up (`mk_server/mk_scheduler.c`). The other
modules take `rb_queue` for a function from descriptors to connections, which these two
update: `connQueue_refines` is that it is one, in every run.
-/

namespace SuperExe.Sched

open SuperExe.Core SuperExe.Core.RbTree SuperExe.Lib SuperExe.Lib.RedBlack

universe u

variable {α : Type u} [DecidableEq α]

/-! ## The code -/

section Code

variable (fd : α → Int) (turns : Nat)

/-- The loop of `mk_sched_add_connection`, at `*new` with `parent` and `new`: where to link
the node. `none` if the descriptor is in the tree (`mk_bug`). -/
def findPlace (key : Int) (r : RbRoot α) : Nat → Option α → Option α → RbTree.Link α →
    Option (Option α × RbTree.Link α)
  | 0, _, _, _ => none
  | _ + 1, none, parent, new => some (parent, new)
  | turns + 1, some this, _, _ =>
    if key < fd this then
      findPlace key r turns (r.child .left this) (some this) (.child .left this)
    else if key > fd this then
      findPlace key r turns (r.child .right this) (some this) (.child .right this)
    else none

/-- What `mk_sched_add_connection` does to `rb_queue`. -/
def queueAdd (r : RbRoot α) (conn : α) : Option (RbRoot α) := do
  let (parent, new) ← findPlace fd (fd conn) r turns r.rbNode none .root
  rbInsertColor turns (rbLinkNode r conn parent new) conn

/-- The loop of `mk_sched_get_connection`. -/
def findConn (remoteFd : Int) (r : RbRoot α) : Nat → Option α → Option (Option α)
  | 0, _ => none
  | _ + 1, none => some none
  | turns + 1, some this =>
    if remoteFd < fd this then findConn remoteFd r turns (r.child .left this)
    else if remoteFd > fd this then findConn remoteFd r turns (r.child .right this)
    else some (some this)

/-- `mk_sched_get_connection` -/
def mkSchedGetConnection (r : RbRoot α) (remoteFd : Int) : Option (Option α) :=
  findConn fd remoteFd r turns r.rbNode

end Code

/-! ## Ways down the tree -/

section Ways

variable {fd : α → Int} {key : Int} {turns : Nat} {r : RbRoot α} {t : RedBlack.Tree α}
  {p : RedBlack.Path α} {F : PointsTo.Piece α (RbNode α)}

/-- The descriptors grow from left to right. -/
def Sorted (fd : α → Int) (keys : List α) : Prop := keys.Pairwise fun x y => fd x < fd y

/-- The hole is where a node with the descriptor belongs. -/
structure Belongs (fd : α → Int) (key : Int) (p : RedBlack.Path α) : Prop where
  before : ∀ y ∈ p.before, fd y < key
  after : ∀ y ∈ p.after, key < fd y

omit [DecidableEq α] in
theorem child_of_shows {c : Color} {l u : RedBlack.Tree α} {x : α}
    (h : Shows r p (.node c l x u) F) : r.child .left x = top l ∧ r.child .right x = top u := by
  have hcell := Holds.to h (N := PointsTo.cell x (RbNode.on .left (up p) c (top l) (top u)) +
    (treeCells (some x) l + treeCells (some x) u + pathCells p (some x) + F))
    (by simp only [treeCells, top_node]; ac_rfl)
  exact ⟨hcell.child, hcell.child_other⟩

omit [DecidableEq α] in
theorem sorted_fill {c : Color} {l u : RedBlack.Tree α} {x : α}
    (h : Sorted fd (RedBlack.Path.fill p (.node c l x u)).keys) :
    (∀ y ∈ l.keys, fd y < fd x) ∧ ∀ y ∈ u.keys, fd x < fd y := by
  rw [RedBlack.Path.keys_fill, Sorted, List.pairwise_append, List.pairwise_append,
    RedBlack.Tree.keys_node, List.pairwise_append, List.pairwise_cons] at h
  exact ⟨fun y hy => h.1.2.1.2.2 y hy x List.mem_cons_self, h.1.2.1.2.1.1⟩

omit [DecidableEq α] in
/-- Down to the left of a node with a greater descriptor. -/
theorem Belongs.left {c : Color} {u : RedBlack.Tree α} {x : α} (h : Belongs fd key p)
    (hlt : key < fd x) (hu : ∀ y ∈ u.keys, fd x < fd y) :
    Belongs fd key (⟨.left, c, x, u⟩ :: p) where
  before y hy := h.before y (by simpa [RedBlack.Path.before, Side.pick] using hy)
  after y hy := by
    simp only [RedBlack.Path.after, Side.pick, List.cons_append, List.mem_cons,
      List.mem_append] at hy
    rcases hy with rfl | hy | hy
    · exact hlt
    · exact hlt.trans (hu y hy)
    · exact h.after y hy

omit [DecidableEq α] in
theorem Belongs.right {c : Color} {l : RedBlack.Tree α} {x : α} (h : Belongs fd key p)
    (hgt : fd x < key) (hl : ∀ y ∈ l.keys, fd y < fd x) :
    Belongs fd key (⟨.right, c, x, l⟩ :: p) where
  before y hy := by
    simp only [RedBlack.Path.before, Side.pick, List.mem_append, List.mem_singleton] at hy
    rcases hy with hy | hy | rfl
    · exact h.before y hy
    · exact (hl y hy).trans hgt
    · exact hgt
  after y hy := h.after y (by simpa [RedBlack.Path.after, Side.pick] using hy)

omit [DecidableEq α] in
/-- A descriptor that is not in the tree gets the place where it belongs. -/
theorem findPlace_spec (h : Shows r p t F) (hsorted : Sorted fd (RedBlack.Path.fill p t).keys)
    (hp : Belongs fd key p) (hnew : ∀ y ∈ t.keys, fd y ≠ key) (hturns : t.depth < turns) :
    ∃ q, RedBlack.Path.fill q .nil = RedBlack.Path.fill p t ∧ Belongs fd key q ∧
      findPlace fd key r turns (top t) (up p) (linkOf p) = some (up q, linkOf q) := by
  induction t generalizing p turns with
  | nil =>
    obtain ⟨turns, rfl⟩ := Nat.exists_eq_succ_of_ne_zero (show turns ≠ 0 by omega)
    exact ⟨p, rfl, hp, rfl⟩
  | node c l x u ihl ihu =>
    rw [RedBlack.Tree.depth] at hturns
    obtain ⟨turns, rfl⟩ := Nat.exists_eq_succ_of_ne_zero (show turns ≠ 0 by omega)
    obtain ⟨hleft, hright⟩ := child_of_shows h
    obtain ⟨hl, hu⟩ := sorted_fill hsorted
    have hx : fd x ≠ key := hnew x (by simp)
    rw [top_node, findPlace]
    by_cases hlt : key < fd x
    · rw [if_pos hlt, hleft]
      exact ihl (p := ⟨.left, c, x, u⟩ :: p) (shows_cons.mpr h) hsorted (hp.left hlt hu)
        (fun y hy => hnew y (by simp [hy]))
        (by omega)
    · have hgt : key > fd x := by omega
      rw [if_neg hlt, if_pos hgt, hright]
      exact ihu (p := ⟨.right, c, x, l⟩ :: p) (shows_cons.mpr h) hsorted (hp.right hgt hl)
        (fun y hy => hnew y (by simp [hy]))
        (by omega)

omit [DecidableEq α] in
/-- The loop finds the node with the descriptor, if there is one. -/
theorem findConn_spec (h : Shows r p t F) (hsorted : Sorted fd (RedBlack.Path.fill p t).keys)
    (hturns : t.depth < turns) :
    ∃ res, findConn fd key r turns (top t) = some res ∧
      ∀ x, res = some x ↔ x ∈ t.keys ∧ fd x = key := by
  induction t generalizing p turns with
  | nil =>
    obtain ⟨turns, rfl⟩ := Nat.exists_eq_succ_of_ne_zero (show turns ≠ 0 by omega)
    exact ⟨none, rfl, fun x => by simp⟩
  | node c l x u ihl ihu =>
    rw [RedBlack.Tree.depth] at hturns
    obtain ⟨turns, rfl⟩ := Nat.exists_eq_succ_of_ne_zero (show turns ≠ 0 by omega)
    obtain ⟨hleft, hright⟩ := child_of_shows h
    obtain ⟨hl, hu⟩ := sorted_fill hsorted
    simp only [top_node, findConn, RedBlack.Tree.keys_node, List.mem_append, List.mem_cons]
    rcases lt_trichotomy key (fd x) with hlt | rfl | hgt
    · obtain ⟨res, hres, hiff⟩ := @ihl turns (⟨.left, c, x, u⟩ :: p) (shows_cons.mpr h) hsorted
        (by omega)
      rw [if_pos hlt, hleft]
      refine ⟨res, hres, fun y => (hiff y).trans ⟨fun hy => ⟨Or.inl hy.1, hy.2⟩, ?_⟩⟩
      rintro ⟨hy | rfl | hy, rfl⟩
      · exact ⟨hy, rfl⟩
      · exact absurd hlt (lt_irrefl _)
      · exact absurd (hu y hy) (lt_asymm hlt)
    · rw [if_neg (lt_irrefl _), if_neg (lt_irrefl _)]
      refine ⟨some x, rfl, fun y => ?_⟩
      rw [Option.some_inj]
      constructor
      · rintro rfl
        exact ⟨Or.inr (Or.inl rfl), rfl⟩
      · rintro ⟨hy | rfl | hy, heq⟩
        · exact absurd (hl y hy) (by omega)
        · rfl
        · exact absurd (hu y hy) (by omega)
    · obtain ⟨res, hres, hiff⟩ := @ihu turns (⟨.right, c, x, l⟩ :: p) (shows_cons.mpr h) hsorted
        (by omega)
      rw [if_neg (lt_asymm hgt), if_pos hgt, hright]
      refine ⟨res, hres, fun y => (hiff y).trans ⟨fun hy => ⟨Or.inr (Or.inr hy.1), hy.2⟩, ?_⟩⟩
      rintro ⟨hy | rfl | hy, rfl⟩
      · exact absurd (hl y hy) (lt_asymm hgt)
      · exact absurd hgt (lt_irrefl _)
      · exact ⟨hy, rfl⟩

end Ways

/-! ## Runs -/

/-- What happens to the tree. -/
inductive QueueEvent (α : Type u) where
  | add (conn : α)
  /-- `rb_erase` in `mk_sched_remove_client` -/
  | remove (conn : α)

/-- The tree, and the function from descriptors to connections that it stands for. -/
structure ConnQueue (α : Type u) where
  tree : Option (RbRoot α)
  conns : Int → Option α

/-- One call, on both. -/
def ConnQueue.step (fd : α → Int) (turns : Nat) (q : ConnQueue α) : QueueEvent α → ConnQueue α
  | .add conn =>
    { tree := q.tree.bind fun r => queueAdd fd turns r conn
      conns := Function.update q.conns (fd conn) (some conn) }
  | .remove conn =>
    { tree := q.tree.bind fun r => rbErase turns r conn
      conns := Function.update q.conns (fd conn) none }

section Step

variable (fd : α → Int) (turns : Nat) (q : ConnQueue α) (conn : α)

@[simp] theorem conns_add : (q.step fd turns (.add conn)).conns =
    Function.update q.conns (fd conn) (some conn) := rfl

@[simp] theorem conns_remove : (q.step fd turns (.remove conn)).conns =
    Function.update q.conns (fd conn) none := rfl

end Step

def queueMachine (fd : α → Int) (turns : Nat) : Machine (ConnQueue α) (QueueEvent α) :=
  ⟨ConnQueue.step fd turns⟩

/-- The kernel gives out no descriptor that is in use, and only a registered connection is
removed. -/
def ConnQueue.Accepts (fd : α → Int) (nodes : Finset α) (q : ConnQueue α) : QueueEvent α → Prop
  | .add conn => conn ∈ nodes ∧ q.conns (fd conn) = none
  | .remove conn => q.conns (fd conn) = some conn

/-- A look-up in the tree is one in the function. -/
def ConnQueue.Refines (fd : α → Int) (turns : Nat) (q : ConnQueue α) : Prop :=
  ∃ r, q.tree = some r ∧ ∀ remoteFd, mkSchedGetConnection fd turns r remoteFd =
    some (q.conns remoteFd)

section Runs

variable {fd : α → Int} {turns : Nat} {nodes : Finset α} {q : ConnQueue α}

/-- The tree is sorted and has the connections of the function. -/
structure QueueHas (fd : α → Int) (nodes : Finset α) (q : ConnQueue α) (r : RbRoot α)
    (t : RedBlack.Tree α) : Prop where
  tree : q.tree = some r
  has : HasTree nodes r t
  sorted : Sorted fd t.keys
  conns : ∀ key x, q.conns key = some x ↔ x ∈ t.keys ∧ fd x = key

omit [DecidableEq α] in
/-- A connection between those with smaller and those with greater descriptors. -/
theorem sorted_put {before after : List α} {conn : α} : Sorted fd (before ++ conn :: after) ↔
    Sorted fd (before ++ after) ∧ (∀ y ∈ before, fd y < fd conn) ∧ ∀ y ∈ after, fd conn < fd y := by
  simp only [Sorted, List.pairwise_append, List.pairwise_cons, List.mem_cons, forall_eq_or_imp]
  constructor
  · rintro ⟨h1, ⟨h2, h3⟩, h4⟩
    exact ⟨⟨h1, h3, fun y hy => (h4 y hy).2⟩, fun y hy => (h4 y hy).1, h2⟩
  · rintro ⟨⟨h1, h3, h4⟩, h5, h2⟩
    exact ⟨h1, ⟨h2, h3⟩, fun y hy => ⟨h5 y hy, h4 y hy⟩⟩

omit [DecidableEq α] in
theorem QueueHas.refines {r : RbRoot α} {t : RedBlack.Tree α} (h : QueueHas fd nodes q r t)
    (hturns : 2 * Nat.log 2 (nodes.card + 1) < turns) : q.Refines fd turns := by
  refine ⟨r, h.tree, fun remoteFd => ?_⟩
  have hdepth := h.has.depth_lt hturns
  obtain ⟨F, hstands, -⟩ := h.has
  obtain ⟨res, hres, hiff⟩ := @findConn_spec α fd remoteFd turns r t [] F hstands.shows h.sorted
    hdepth
  have hroot : r.rbNode = top t := hstands.shows.root
  rw [mkSchedGetConnection, hroot, hres, Option.some_inj]
  exact Option.ext fun x => (hiff x).trans (h.conns remoteFd x).symm

theorem QueueHas.add {r : RbRoot α} {t : RedBlack.Tree α} (h : QueueHas fd nodes q r t)
    (hturns : 2 * Nat.log 2 (nodes.card + 1) < turns) {conn : α} (hconn : conn ∈ nodes)
    (hnone : q.conns (fd conn) = none) :
    ∃ r' t', QueueHas fd nodes (q.step fd turns (.add conn)) r' t' := by
  have hfree : ∀ y ∈ t.keys, fd y ≠ fd conn := by
    intro y hy heq
    have hsome := (h.conns (fd conn) y).mpr ⟨hy, heq⟩
    rw [hnone] at hsome
    cases hsome
  have hdepth := h.has.depth_lt hturns
  obtain ⟨F, hstands, -⟩ := h.has
  obtain ⟨p, rfl, hbelongs, hplace⟩ := @findPlace_spec α fd (fd conn) turns r t [] F hstands.shows
    h.sorted ⟨by simp [RedBlack.Path.before], by simp [RedBlack.Path.after]⟩ hfree hdepth
  have hroot : r.rbNode = top (RedBlack.Path.fill p .nil) := hstands.shows.root
  obtain ⟨r', t', hrun, hhas, hkeys⟩ := h.has.insert hturns hconn fun hmem => hfree conn hmem rfl
  have hold : (RedBlack.Path.fill p .nil).keys = p.before ++ p.after := by
    rw [RedBlack.Path.keys_fill, RedBlack.Tree.keys_nil, List.append_nil]
  refine ⟨r', t', ⟨?_, hhas, ?_, fun key x => ?_⟩⟩
  · have hadd : queueAdd fd turns r conn = some r' := by
      rw [queueAdd, hroot]
      exact (congrArg (fun o => Option.bind o _) hplace).trans hrun
    rw [ConnQueue.step, h.tree]
    exact hadd
  · rw [hkeys, sorted_put, ← hold]
    exact ⟨h.sorted, hbelongs.before, hbelongs.after⟩
  · have hput : x ∈ t'.keys ↔ x = conn ∨ x ∈ (RedBlack.Path.fill p .nil).keys := by
      rw [hkeys, hold]
      simp only [List.mem_append, List.mem_cons]
      tauto
    rw [hput, conns_add]
    by_cases hkey : key = fd conn
    · -- the descriptor was free
      subst hkey
      rw [Function.update_self, Option.some_inj]
      exact ⟨fun heq => ⟨Or.inl heq.symm, by rw [heq]⟩, fun hx => (hx.1.resolve_right
        fun hmem => hfree x hmem hx.2).symm⟩
    · rw [Function.update_of_ne hkey, h.conns]
      exact ⟨fun hx => ⟨Or.inr hx.1, hx.2⟩, fun hx => ⟨hx.1.resolve_left
        fun heq => hkey (by rw [← hx.2, heq]), hx.2⟩⟩

theorem QueueHas.remove {r : RbRoot α} {t : RedBlack.Tree α} (h : QueueHas fd nodes q r t)
    (hturns : 2 * Nat.log 2 (nodes.card + 1) < turns) {conn : α}
    (hsome : q.conns (fd conn) = some conn) :
    ∃ r' t', QueueHas fd nodes (q.step fd turns (.remove conn)) r' t' := by
  obtain ⟨p, c, l, u, rfl⟩ := RedBlack.Path.exists_fill ((h.conns _ _).mp hsome).1
  obtain ⟨r', t', hrun, hhas, hkeys⟩ := h.has.erase hturns
  have hold : (RedBlack.Path.fill p (.node c l conn u)).keys =
      (p.before ++ l.keys) ++ conn :: (u.keys ++ p.after) := by
    simp only [RedBlack.Path.keys_fill, RedBlack.Tree.keys_node, List.append_assoc,
      List.cons_append]
  have hnew : t'.keys = (p.before ++ l.keys) ++ (u.keys ++ p.after) := by
    simp only [hkeys, List.append_assoc]
  have hsorted := h.sorted
  rw [hold, sorted_put] at hsorted
  obtain ⟨hrest, hbefore, hafter⟩ := hsorted
  refine ⟨r', t', ⟨?_, hhas, hnew ▸ hrest, fun key x => ?_⟩⟩
  · rw [ConnQueue.step, h.tree]
    exact hrun
  · have hput : x ∈ (RedBlack.Path.fill p (.node c l conn u)).keys ↔ x = conn ∨ x ∈ t'.keys := by
      rw [hold, hnew]
      simp only [List.mem_append, List.mem_cons]
      tauto
    have hapart : x ∈ t'.keys → fd x ≠ fd conn := by
      rw [hnew, List.mem_append]
      rintro (hx | hx)
      · exact (hbefore x hx).ne
      · exact (hafter x hx).ne'
    rw [conns_remove]
    by_cases hkey : key = fd conn
    · subst hkey
      rw [Function.update_self]
      exact iff_of_false (by simp) fun hx => hapart hx.1 hx.2
    · rw [Function.update_of_ne hkey, h.conns, hput]
      exact ⟨fun hx => ⟨hx.1.resolve_left fun heq => hkey (by rw [← hx.2, heq]), hx.2⟩,
        fun hx => ⟨Or.inr hx.1, hx.2⟩⟩

/-- In every run from an empty tree on, `mk_sched_get_connection` returns, within twice the
logarithm of the number of connections, and gives the connection that was registered last
with the descriptor and is not removed, or NULL. -/
theorem connQueue_refines (hturns : 2 * Nat.log 2 (nodes.card + 1) < turns) {r : RbRoot α}
    (hr : r.rbNode = none) {events : List (QueueEvent α)}
    (hevents : (queueMachine fd turns).AllSteps (ConnQueue.Accepts fd nodes) ⟨some r, fun _ => none⟩
      events) :
    (queueMachine fd turns).AllStates (ConnQueue.Refines fd turns) ⟨some r, fun _ => none⟩
      events := by
  have hstart : QueueHas fd nodes ⟨some r, fun _ => none⟩ r .nil :=
    ⟨rfl, hasTree_empty hr, List.Pairwise.nil, fun key x => by simp⟩
  have hinv := (queueMachine fd turns).allStates_of_allSteps
    (I := fun q => ∃ r t, QueueHas fd nodes q r t) ?_ ⟨r, .nil, hstart⟩ hevents
  · exact hinv.mono fun q ⟨r, t, h⟩ => h.refines hturns
  · rintro q (conn | conn) ⟨r, t, h⟩ hcareful
    · exact h.add hturns hcareful.1 hcareful.2
    · exact h.remove hturns hcareful

instance (fd : α → Int) (nodes : Finset α) (q : ConnQueue α) :
    (e : QueueEvent α) → Decidable (ConnQueue.Accepts fd nodes q e)
  | .add _ => inferInstanceAs (Decidable (_ ∧ _))
  | .remove _ => inferInstanceAs (Decidable (_ = _))

/-- Three connections with the descriptors 5, 6 and 7; the one in the middle is closed and
its descriptor is given out again. -/
def threeConns : List (QueueEvent Nat) := [.add 6, .add 5, .add 7, .remove 6, .add 16]

/-- The connection 16 has the descriptor 6. -/
def threeFd (conn : Nat) : Int := (conn % 10 : Nat)

def emptyTree : RbRoot Nat := ⟨none, fun _ => ⟨none, .black, none, none⟩⟩

theorem connQueue_refines_three :
    (queueMachine threeFd 6).AllStates (ConnQueue.Refines threeFd 6) ⟨some emptyTree, fun _ => none⟩
      threeConns ∧
    ((queueMachine threeFd 6).run ⟨some emptyTree, fun _ => none⟩ threeConns).conns 6 = some 16 :=
  ⟨@connQueue_refines Nat _ threeFd 6 {5, 6, 7, 16} (by decide) emptyTree rfl _ (by decide),
    by decide⟩

end Runs

/-! ## The worker -/

section Tracks

variable {fd : α → Int} {turns : Nat} {q : ConnQueue α} {w : Worker} {conn : α} {n : Nat}

/-- The worker of the other modules has a connection where the tree has one. -/
def Tracks (q : ConnQueue α) (w : Worker) : Prop :=
  ∀ n : Nat, (q.conns n).isSome = (w.conns n).isSome

theorem Tracks.add (h : Tracks q w) (hn : fd conn = n) (hfree : w.conns n = none) :
    Tracks (q.step fd turns (.add conn)) (mkSchedAddConnection w n) := by
  intro m
  rw [conns_add, hn, mkSchedAddConnection, hfree]
  by_cases hm : m = n
  · subst hm
    simp [mkSchedConnTimeoutAdd, Worker.put]
  · have hm' : (m : Int) ≠ n := fun heq => hm (by omega)
    simp [mkSchedConnTimeoutAdd, Worker.put, Function.update_of_ne hm, Function.update_of_ne hm',
      h m]

theorem Tracks.remove (h : Tracks q w) (hn : fd conn = n) :
    Tracks (q.step fd turns (.remove conn)) (mkSchedDropConnection w n) := by
  intro m
  rw [conns_remove, hn, mkSchedDropConnection]
  by_cases hm : m = n
  · subst hm
    cases hc : w.conns m with
    | none => simp [hc]
    | some c => simp
  · have hm' : (m : Int) ≠ n := fun heq => hm (by omega)
    rw [Function.update_of_ne hm', h m]
    cases hc : w.conns n with
    | none => rfl
    | some c =>
      simp only [mkSchedConnTimeoutDel, Worker.put]
      split <;> simp [Function.update_of_ne hm]

end Tracks

end SuperExe.Sched
