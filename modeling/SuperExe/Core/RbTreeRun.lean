import SuperExe.Core.RbTreeErase
import SuperExe.Core.RbTreeInsert
import SuperExe.Lib.Trace
import Mathlib.Data.Finset.Card

/-! # Runs of the red-black tree

A caller of the tree keeps two rules: a node is linked at a hole of the tree and is not
in the tree yet, and only a node of the tree is removed. In every run of such calls, from
an empty tree on, the memory has a red-black tree, no call reads through NULL, and every
loop ends within twice the logarithm of the number of nodes: `sound_run`.
-/

namespace SuperExe.Core.RbTree

open SuperExe.Lib SuperExe.Lib.RedBlack SuperExe.Lib.PointsTo

universe u

variable {α : Type u} [DecidableEq α]

inductive Call (α : Type u) where
  /-- `rb_link_node(node, parent, link); rb_insert_color(node, root);` -/
  | insert (node : α) (parent : Option α) (link : Link α)
  /-- `rb_erase(node, root);` -/
  | erase (node : α)

/-- A call; `none` once a call has failed. -/
def callStep (turns : Nat) (s : Option (RbRoot α)) (call : Call α) : Option (RbRoot α) := do
  let r ← s
  match call with
  | .insert node parent link => rbInsertColor turns (rbLinkNode r node parent link) node
  | .erase node => rbErase turns r node

def callMachine (turns : Nat) : Machine (Option (RbRoot α)) (Call α) := ⟨callStep turns⟩

/-- The rules for a call on the tree `t`. -/
def Call.Allowed (nodes : Finset α) (t : RedBlack.Tree α) : Call α → Prop
  | .insert node parent link =>
    node ∈ nodes ∧ node ∉ t.keys ∧ ∃ p, t = RedBlack.Path.fill p .nil ∧ parent = up p ∧ link =
      linkOf p
  | .erase node => node ∈ t.keys

/-- The caller keeps the rules for the tree in memory. -/
def KeepsRules (nodes : Finset α) (s : Option (RbRoot α)) (call : Call α) : Prop :=
  ∀ r t F, s = some r → Shows r [] t F → call.Allowed nodes t

/-- The memory has the red-black tree `t` with some of the nodes, and the other nodes. -/
def HasTree (nodes : Finset α) (r : RbRoot α) (t : RedBlack.Tree α) : Prop :=
  ∃ F, Stands r t F ∧ (t.keys : Multiset α) + F.map Prod.fst = nodes.val

/-- No call has failed, and the memory has a red-black tree with some of the nodes. -/
def Sound (nodes : Finset α) (s : Option (RbRoot α)) : Prop :=
  ∃ r t, s = some r ∧ HasTree nodes r t

section Run

variable {nodes : Finset α} {turns : Nat} {r : RbRoot α} {t : RedBlack.Tree α}
  {p : RedBlack.Path α} {x : α}

omit [DecidableEq α] in
theorem coe_put (l m : List α) (x : α) :
    ((l ++ x :: m : List α) : Multiset α) = ↑(l ++ m) + {x} := by
  rw [← Multiset.coe_singleton, Multiset.coe_add, Multiset.coe_eq_coe]
  exact List.perm_middle.trans (List.perm_append_singleton x _).symm

omit [DecidableEq α] in
/-- The turns are enough for every tree with some of the nodes. -/
theorem HasTree.log_lt (h : HasTree nodes r t) (hturns : 2 * Nat.log 2 (nodes.card + 1) < turns) :
    2 * Nat.log 2 (t.keys.length + 1) < turns := by
  obtain ⟨F, -, hnodes⟩ := h
  have hcard := congrArg Multiset.card hnodes
  rw [Multiset.card_add, Multiset.coe_card] at hcard
  have hle : t.keys.length + 1 ≤ nodes.card + 1 := by
    rw [Finset.card_def]
    omega
  have hmono := Nat.log_mono_right hle (b := 2)
  omega

omit [DecidableEq α] in
theorem HasTree.depth_lt (h : HasTree nodes r t)
    (hturns : 2 * Nat.log 2 (nodes.card + 1) < turns) : t.depth < turns := by
  have hlog := h.log_lt hturns
  obtain ⟨F, hstands, -⟩ := h
  obtain ⟨n, hbal⟩ := hstands.balanced
  exact hbal.depth_le_log.trans_lt hlog

/-- A node is linked at the hole. -/
theorem HasTree.insert (h : HasTree nodes r (RedBlack.Path.fill p .nil))
    (hturns : 2 * Nat.log 2 (nodes.card + 1) < turns) (hx : x ∈ nodes)
    (hnew : x ∉ (RedBlack.Path.fill p .nil).keys) :
    ∃ r' t', rbInsertColor turns (rbLinkNode r x (up p) (linkOf p)) x = some r' ∧
      HasTree nodes r' t' ∧ t'.keys = p.before ++ x :: p.after := by
  have hlog := h.log_lt hturns
  obtain ⟨F, hstands, hnodes⟩ := h
  have hfree : x ∈ F.map Prod.fst := by
    have hmem : x ∈ nodes.val := hx
    rw [← hnodes, Multiset.mem_add] at hmem
    exact hmem.resolve_left hnew
  obtain ⟨⟨x, n⟩, hn, rfl⟩ := Multiset.mem_map.mp hfree
  obtain ⟨F, rfl⟩ := Multiset.exists_cons_of_mem hn
  rw [← Multiset.singleton_add] at hstands hnodes
  obtain ⟨r', t', hrun, hstands', hkeys⟩ := hstands.insert hlog
  refine ⟨r', t', hrun, ⟨F, hstands', ?_⟩, hkeys⟩
  rw [← hnodes, hkeys, RedBlack.Path.keys_fill, Multiset.map_add, Multiset.map_singleton, ←
    add_assoc, coe_put, RedBlack.Tree.keys_nil, List.append_nil]

/-- A node of the tree is removed. -/
theorem HasTree.erase {c : Color} {l u : RedBlack.Tree α}
    (h : HasTree nodes r (RedBlack.Path.fill p (.node c l x u)))
    (hturns : 2 * Nat.log 2 (nodes.card + 1) < turns) :
    ∃ r' t', rbErase turns r x = some r' ∧ HasTree nodes r' t' ∧
      t'.keys = p.before ++ (l.keys ++ u.keys) ++ p.after := by
  have hlog := h.log_lt hturns
  obtain ⟨F, hstands, hnodes⟩ := h
  obtain ⟨r', t', hrun, hstands', hkeys⟩ := hstands.erase hlog.le
  refine ⟨r', t', hrun, ⟨_, hstands', ?_⟩, hkeys⟩
  have hput := coe_put (p.before ++ l.keys) (u.keys ++ p.after) x
  simp only [List.append_assoc] at hput
  rw [← hnodes, hkeys, RedBlack.Path.keys_fill, Multiset.map_add, map_cell, ← add_assoc]
  simp only [RedBlack.Tree.keys_node, List.append_assoc, List.cons_append, hput]

omit [DecidableEq α] in
theorem hasTree_empty (hr : r.rbNode = none) : HasTree nodes r .nil := by
  have haddr : (nodes.val.map fun x => (x, r.mem x)).map Prod.fst = nodes.val := by simp
  have hhas : Has r.mem (nodes.val.map fun x => (x, r.mem x)) := by
    refine ⟨by rw [haddr]; exact nodes.nodup, fun c hc => ?_⟩
    obtain ⟨x, -, rfl⟩ := Multiset.mem_map.mp hc
    rfl
  have hshows : Shows r [] .nil (nodes.val.map fun x => (x, r.mem x)) :=
    Holds.to ⟨hr, hhas⟩ (by simp only [pathCells, treeCells]; ac_rfl)
  exact ⟨_, ⟨hshows, 0, .nil⟩, by rw [haddr]; simp⟩

/-- A call that keeps the rules. -/
theorem Sound.step (hturns : 2 * Nat.log 2 (nodes.card + 1) < turns) {s : Option (RbRoot α)}
    {call : Call α} (h : Sound nodes s) (hcall : KeepsRules nodes s call) :
    Sound nodes ((callMachine turns).step s call) := by
  obtain ⟨r, t, rfl, hhas⟩ := h
  have hallowed := hcall r t _ rfl hhas.choose_spec.1.shows
  cases call with
  | insert x parent link =>
    obtain ⟨hx, hnew, p, rfl, rfl, rfl⟩ := hallowed
    obtain ⟨r', t', hrun, hhas', -⟩ := hhas.insert hturns hx hnew
    exact ⟨r', t', hrun, hhas'⟩
  | erase x =>
    obtain ⟨p, c, l, u, rfl⟩ := RedBlack.Path.exists_fill hallowed
    obtain ⟨r', t', hrun, hhas', -⟩ := hhas.erase hturns
    exact ⟨r', t', hrun, hhas'⟩

/-- In every run from an empty tree the memory has a red-black tree. -/
theorem sound_run (hturns : 2 * Nat.log 2 (nodes.card + 1) < turns) (hr : r.rbNode = none)
    {calls : List (Call α)}
    (hcalls : (callMachine turns).AllSteps (KeepsRules nodes) (some r) calls) :
    (callMachine turns).AllStates (Sound nodes) (some r) calls :=
  (callMachine turns).allStates_of_allSteps (fun _ _ h hcall => h.step hturns hcall)
    ⟨r, .nil, rfl, hasTree_empty hr⟩ hcalls

end Run

end SuperExe.Core.RbTree
