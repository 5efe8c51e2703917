import SuperExe.Lib.RedBlack
import Mathlib.Logic.Function.Basic

/-! # The red-black tree of the core

Model of `mk_rbtree.c`, `mk_rbtree.h` and `mk_rbtree_augmented.h`. The nodes lie in
memory and point at their children and their parent; `α` is the type of the pointers
that are not NULL. `__rb_parent_color` keeps a parent and a color in one word, here
they are two fields. A function gives `none` where the C function reads through NULL,
and a loop where its turns run out. The callbacks for augmented trees are left out:
`rb_insert_color` and `rb_erase` pass functions that do nothing.

The C functions have every case twice, for the left and for the right. The halves
differ in nothing but the names of the children, so there is one definition for both,
with the side as an argument.
-/

namespace SuperExe.Core.RbTree

open SuperExe.Lib.RedBlack

universe u

variable {α : Type u} [DecidableEq α]

/-- `struct rb_node`; `parent` and `color` are the parts of `__rb_parent_color`. -/
structure RbNode (α : Type u) where
  parent : Option α
  color : Color
  rbRight : Option α
  rbLeft : Option α

/-- `struct rb_root`, and the memory with the nodes. -/
structure RbRoot (α : Type u) where
  rbNode : Option α
  mem : α → RbNode α

/-- `->rb_left` or `->rb_right` -/
def RbNode.child (n : RbNode α) (s : Side) : Option α := s.pick n.rbLeft n.rbRight

def RbNode.setChild (n : RbNode α) (s : Side) (child : Option α) : RbNode α :=
  match s with
  | .left => { n with rbLeft := child }
  | .right => { n with rbRight := child }

namespace RbRoot

def set (r : RbRoot α) (x : α) (n : RbNode α) : RbRoot α :=
  { r with mem := Function.update r.mem x n }

/-- `rb_parent`; `rb_red_parent` is the same on a red node. -/
def rbParent (r : RbRoot α) (x : α) : Option α := (r.mem x).parent

def child (r : RbRoot α) (s : Side) (x : α) : Option α := (r.mem x).child s

def setChild (r : RbRoot α) (s : Side) (x : α) (child : Option α) : RbRoot α :=
  r.set x ((r.mem x).setChild s child)

def rbIsRed (r : RbRoot α) (x : α) : Bool := (r.mem x).color = .red

/-- `rb_set_parent` -/
def rbSetParent (r : RbRoot α) (x : α) (p : Option α) : RbRoot α :=
  r.set x { r.mem x with parent := p }

/-- `rb_set_parent_color` -/
def rbSetParentColor (r : RbRoot α) (x : α) (p : Option α) (color : Color) : RbRoot α :=
  r.set x { r.mem x with parent := p, color := color }

/-- `rb_set_black` -/
def rbSetBlack (r : RbRoot α) (x : α) : RbRoot α := r.set x { r.mem x with color := .black }

/-- `new->__rb_parent_color = old->__rb_parent_color`, with what was in `old`. -/
def copyWord (r : RbRoot α) (new : α) (old : RbNode α) : RbRoot α :=
  r.rbSetParentColor new old.parent old.color

/-- `if (x) rb_set_parent_color(x, p, RB_BLACK);` -/
def adopt (r : RbRoot α) (x : Option α) (p : α) : RbRoot α :=
  match x with
  | some x => r.rbSetParentColor x (some p) .black
  | none => r

/-- `if (x) rb_set_parent(x, p);` -/
def foster (r : RbRoot α) (x : Option α) (p : α) : RbRoot α :=
  match x with
  | some x => r.rbSetParent x (some p)
  | none => r

/-- `__rb_change_child` -/
def rbChangeChild (r : RbRoot α) (old : α) (new parent : Option α) : RbRoot α :=
  match parent with
  | some p => if (r.mem p).rbLeft = some old then r.setChild .left p new else r.setChild .right p new
  | none => { r with rbNode := new }

/-- `__rb_rotate_set_parents` -/
def rbRotateSetParents (r : RbRoot α) (old new : α) (color : Color) : RbRoot α :=
  let parent := r.rbParent old
  ((r.copyWord new (r.mem old)).rbSetParentColor old (some new) color).rbChangeChild old (some new)
    parent

end RbRoot

open RbRoot

/-! ## Insertion -/

/-- Where `rb_link` points. -/
inductive Link (α : Type u) where
  | root
  | child (s : Side) (parent : α)

/-- `*rb_link = node;` -/
def Link.store (link : Link α) (r : RbRoot α) (node : α) : RbRoot α :=
  match link with
  | .root => { r with rbNode := some node }
  | .child s parent => r.setChild s parent (some node)

/-- `rb_link_node` -/
def rbLinkNode (r : RbRoot α) (node : α) (parent : Option α) (link : Link α) : RbRoot α :=
  link.store (r.set node ⟨parent, .red, none, none⟩) node

/-- How a turn of a loop ends: it goes on with these variables, or it breaks. -/
inductive Turn (α : Type u) (σ : Type u) where
  | goOn (vars : σ) (r : RbRoot α)
  | stop (r : RbRoot α)

/-- The rest of a turn of `__rb_insert` at a red parent on the side `s` of `gparent`. -/
def insertSide (s : Side) (r : RbRoot α) (node parent gparent : α) : Turn α (α × Option α) :=
  let tmp := r.child s.other gparent
  match tmp.filter r.rbIsRed with
  | some tmp =>
    -- Case 1
    let r := r.rbSetParentColor tmp (some gparent) .black
    let r := r.rbSetParentColor parent (some gparent) .black
    .goOn (gparent, r.rbParent gparent) (r.rbSetParentColor gparent (r.rbParent gparent) .red)
  | none =>
    let finish (r : RbRoot α) (parent : α) (tmp : Option α) : RbRoot α :=
      -- Case 3
      let r := r.setChild s gparent tmp
      let r := r.setChild s.other parent (some gparent)
      (r.adopt tmp gparent).rbRotateSetParents gparent parent .red
    let tmp := r.child s.other parent
    if tmp = some node then
      -- Case 2
      let tmp := r.child s node
      let r := r.setChild s.other parent tmp
      let r := r.setChild s node (some parent)
      let r := (r.adopt tmp parent).rbSetParentColor parent (some node) .red
      .stop (finish r node (r.child s.other node))
    else .stop (finish r parent tmp)

/-- A turn of the loop of `__rb_insert`. -/
def insertTurn (r : RbRoot α) (node : α) : Option α → Option (Turn α (α × Option α))
  | none => some (.stop (r.rbSetParentColor node none .black))
  | some parent => do
    if r.rbIsRed parent then
      let gparent ← r.rbParent parent
      if r.child .right gparent ≠ some parent then some (insertSide .left r node parent gparent)
      else some (insertSide .right r node parent gparent)
    else some (.stop r)

/-- `__rb_insert` with `turns` turns left. -/
def insertLoop : Nat → RbRoot α → α → Option α → Option (RbRoot α)
  | 0, _, _, _ => none
  | turns + 1, r, node, parent => do
    match ← insertTurn r node parent with
    | .goOn (node, parent) r => insertLoop turns r node parent
    | .stop r => some r

/-- `rb_insert_color` -/
def rbInsertColor (turns : Nat) (r : RbRoot α) (node : α) : Option (RbRoot α) :=
  insertLoop turns r node (r.rbParent node)

/-! ## Removal -/

/-- A turn of `____rb_erase_color` from `tmp1 = sibling->rb_right;` on, with `node` on
the side `s` of `parent` and a black `sibling`. -/
def eraseSibling (s : Side) (r : RbRoot α) (parent sibling : α) : Turn α (Option α × α) :=
  let finish (r : RbRoot α) (sibling tmp1 : α) : RbRoot α :=
    -- Case 4
    let tmp2 := r.child s sibling
    let r := r.setChild s.other parent tmp2
    let r := r.setChild s sibling (some parent)
    let r := r.rbSetParentColor tmp1 (some sibling) .black
    let r := r.foster tmp2 parent
    r.rbRotateSetParents parent sibling .black
  match (r.child s.other sibling).filter r.rbIsRed with
  | some tmp1 => .stop (finish r sibling tmp1)
  | none =>
    match (r.child s sibling).filter r.rbIsRed with
    | some tmp2 =>
      -- Case 3
      let tmp1 := r.child s.other tmp2
      let r := r.setChild s sibling tmp1
      let r := r.setChild s.other tmp2 (some sibling)
      let r := r.setChild s.other parent (some tmp2)
      .stop (finish (r.adopt tmp1 sibling) tmp2 sibling)
    | none =>
      -- Case 2
      let r := r.rbSetParentColor sibling (some parent) .red
      if r.rbIsRed parent then .stop (r.rbSetBlack parent)
      else
        match r.rbParent parent with
        | some up => .goOn (some parent, up) r
        | none => .stop r

/-- The rest of a turn of `____rb_erase_color` with `node` on the side `s` of
`parent`. -/
def eraseSide (s : Side) (r : RbRoot α) (parent : α) : Option (Turn α (Option α × α)) := do
  let sibling ← r.child s.other parent
  if r.rbIsRed sibling then
    -- Case 1
    let tmp1 := r.child s sibling
    let r := r.setChild s.other parent tmp1
    let r := r.setChild s sibling (some parent)
    let tmp1 ← tmp1
    let r := r.rbSetParentColor tmp1 (some parent) .black
    eraseSibling s (r.rbRotateSetParents parent sibling .red) parent tmp1
  else eraseSibling s r parent sibling

/-- A turn of the loop of `____rb_erase_color`. -/
def eraseTurn (r : RbRoot α) (node : Option α) (parent : α) : Option (Turn α (Option α × α)) :=
  if node ≠ r.child .right parent then eraseSide .left r parent else eraseSide .right r parent

/-- `____rb_erase_color` with `turns` turns left. -/
def eraseLoop : Nat → RbRoot α → Option α → α → Option (RbRoot α)
  | 0, _, _, _ => none
  | turns + 1, r, node, parent => do
    match ← eraseTurn r node parent with
    | .goOn (node, parent) r => eraseLoop turns r node parent
    | .stop r => some r

/-- `do { parent = successor; successor = tmp; tmp = tmp->rb_left; } while (tmp);` -/
def successorLoop (r : RbRoot α) : Nat → α → α → Option (α × α)
  | 0, _, _ => none
  | turns + 1, successor, tmp =>
    match r.child .left tmp with
    | some next => successorLoop r turns tmp next
    | none => some (successor, tmp)

/-- `__rb_erase_augmented`: the nodes behind it, and where to rebalance. -/
def rbEraseAugmented (turns : Nat) (r : RbRoot α) (node : α) : Option (RbRoot α × Option α) :=
  let pc := r.mem node
  match r.child .left node, r.child .right node with
  | none, child =>
    -- Case 1
    let r := r.rbChangeChild node child pc.parent
    match child with
    | some child => some (r.copyWord child pc, none)
    | none => some (r, if pc.color = .black then pc.parent else none)
  | some tmp, none => some ((r.copyWord tmp pc).rbChangeChild node (some tmp) pc.parent, none)
  | some tmp, some child => do
    let (r, parent, successor, child2) ←
      match r.child .left child with
      | none => some (r, child, child, r.child .right child) -- Case 2
      | some next => do
        -- Case 3
        let (parent, successor) ← successorLoop r turns child next
        let child2 := r.child .right successor
        let r := r.setChild .left parent child2
        let r := r.setChild .right successor (some child)
        some (r.rbSetParent child (some successor), parent, successor, child2)
    let r := r.setChild .left successor (some tmp)
    let r := r.rbSetParent tmp (some successor)
    let pc := r.mem node
    let r := r.rbChangeChild node (some successor) pc.parent
    match child2 with
    | some child2 =>
      some ((r.copyWord successor pc).rbSetParentColor child2 (some parent) .black, none)
    | none =>
      let pc2 := r.mem successor
      some (r.copyWord successor pc, if pc2.color = .black then some parent else none)

/-- `rb_erase` -/
def rbErase (turns : Nat) (r : RbRoot α) (node : α) : Option (RbRoot α) := do
  let (r, rebalance) ← rbEraseAugmented turns r node
  match rebalance with
  | some parent => eraseLoop turns r none parent
  | none => some r

end SuperExe.Core.RbTree
