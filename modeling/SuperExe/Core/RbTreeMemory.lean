import SuperExe.Core.RbTree
import SuperExe.Lib.PointsTo

/-! # Red-black trees in memory

`Shows r p t F` says that the memory of `r` has the tree that is cut at a place into
the path `p` and the subtree `t`, every node with its parent, its color and its
children, and the nodes `F` besides. Each write to a node has a rule, `Holds.…`, which
leaves the rest as it is; the rules do not depend on where the tree is cut.
-/

namespace SuperExe.Core.RbTree

open SuperExe.Lib SuperExe.Lib.RedBlack SuperExe.Lib.PointsTo RbRoot

universe u

variable {α : Type u} [DecidableEq α]

/-- A node seen from one side. -/
def RbNode.on (s : Side) (parent : Option α) (color : Color) (near far : Option α) : RbNode α :=
  ⟨parent, color, s.pick far near, s.pick near far⟩

section Node

variable (s : Side) (p : Option α) (c : Color) (near far x : Option α)

omit [DecidableEq α]

@[simp] theorem RbNode.parent_on : (RbNode.on s p c near far).parent = p := rfl

@[simp] theorem RbNode.color_on : (RbNode.on s p c near far).color = c := rfl

@[simp] theorem RbNode.child_on : (RbNode.on s p c near far).child s = near := by
  cases s <;> rfl

@[simp] theorem RbNode.child_other_on : (RbNode.on s p c near far).child s.other = far := by
  cases s <;> rfl

@[simp] theorem RbNode.setChild_on :
    (RbNode.on s p c near far).setChild s x = RbNode.on s p c x far := by
  cases s <;> rfl

@[simp] theorem RbNode.setChild_other_on :
    (RbNode.on s p c near far).setChild s.other x = RbNode.on s p c near x := by
  cases s <;> rfl

theorem RbNode.on_other : RbNode.on s.other p c near far = RbNode.on s p c far near := by
  cases s <;> rfl

end Node

/-! ## Trees in memory -/

/-- The pointer to a tree. -/
def top : RedBlack.Tree α → Option α
  | .nil => none
  | .node _ _ x _ => some x

/-- The nodes of a tree below `parent`. -/
def treeCells (parent : Option α) : RedBlack.Tree α → Piece α (RbNode α)
  | .nil => 0
  | .node c l x r =>
    cell x (RbNode.on .left parent c (top l) (top r)) + treeCells (some x) l + treeCells (some x) r

/-- The pointer to the node above the hole. -/
def up : RedBlack.Path α → Option α
  | [] => none
  | f :: _ => some f.key

/-- The pointer to the whole tree, if there is `hole` in the hole. -/
def pathTop : RedBlack.Path α → Option α → Option α
  | [], hole => hole
  | f :: p, _ => pathTop p (some f.key)

/-- The nodes around the hole. -/
def pathCells : RedBlack.Path α → Option α → Piece α (RbNode α)
  | [], _ => 0
  | f :: p, hole =>
    cell f.key (RbNode.on f.side (up p) f.color hole (top f.far)) + treeCells (some f.key) f.far +
      pathCells p (some f.key)

section Cells

omit [DecidableEq α]

variable (s : Side) (c : Color) (near far t : RedBlack.Tree α) (x : α) (q : Option α)

@[simp] theorem top_nil : top (.nil : RedBlack.Tree α) = none := rfl

@[simp] theorem top_node (l r : RedBlack.Tree α) : top (.node c l x r) = some x := rfl

@[simp] theorem top_on : top (.on s c near x far) = some x := by
  cases s <;> rfl

@[simp] theorem top_paint : top (t.paint c) = top t := by
  cases t <;> rfl

theorem treeCells_on : treeCells q (.on s c near x far) =
    cell x (RbNode.on s q c (top near) (top far)) + treeCells (some x) near +
      treeCells (some x) far := by
  cases s with
  | left => rfl
  | right =>
    show _ + _ + _ = _
    rw [add_right_comm]
    rfl

theorem treeCells_top {t : RedBlack.Tree α} {y : α} (h : top t = some y) (q : Option α) :
    ∃ n, (y, n) ∈ treeCells q t := by
  cases t with
  | nil => cases h
  | node c l x r =>
    cases h
    exact ⟨.on .left q c (top l) (top r), by simp [treeCells]⟩

theorem exists_top {t : RedBlack.Tree α} (h : t.color = .red) : ∃ x, top t = some x := by
  cases t with
  | nil => cases h
  | node c l x r => exact ⟨x, rfl⟩

theorem paint_black {t : RedBlack.Tree α} (h : t.color = .black) : t.paint .black = t := by
  have hpaint := t.paint_color
  rwa [h] at hpaint

end Cells

/-- The root pointer, and what the memory has. -/
structure Holds (r : RbRoot α) (root : Option α) (M : Piece α (RbNode α)) : Prop where
  root : r.rbNode = root
  has : Has r.mem M

section Rules

variable {r : RbRoot α} {root p : Option α} {M N F : Piece α (RbNode α)} {x y : α} {n : RbNode α}
  {s : Side} {c : Color} {a b : Option α} {t : RedBlack.Tree α}

omit [DecidableEq α] in
theorem Holds.to (h : Holds r root M) (hMN : M = N) : Holds r root N := hMN ▸ h

omit [DecidableEq α] in
theorem Holds.get (h : Holds r root (cell x n + M)) : r.mem x = n := h.has.get

omit [DecidableEq α] in
theorem Holds.top_ne (h : Holds r root (N + treeCells p t + M)) (hx : (x, n) ∈ N) :
    top t ≠ some x := by
  intro htop
  obtain ⟨n', hn'⟩ := treeCells_top htop p
  exact h.has.left.apart hx hn' rfl

omit [DecidableEq α] in
theorem Holds.child (h : Holds r root (cell x (RbNode.on s p c a b) + M)) : r.child s x = a := by
  rw [RbRoot.child, h.get, RbNode.child_on]

omit [DecidableEq α] in
theorem Holds.child_other (h : Holds r root (cell x (RbNode.on s p c a b) + M)) :
    r.child s.other x = b := by
  rw [RbRoot.child, h.get, RbNode.child_other_on]

omit [DecidableEq α] in
theorem Holds.parent (h : Holds r root (cell x (RbNode.on s p c a b) + M)) : r.rbParent x = p := by
  rw [rbParent, h.get, RbNode.parent_on]

theorem Holds.set (h : Holds r root (cell x n + M)) (n' : RbNode α) :
    Holds (r.set x n') root (cell x n' + M) :=
  ⟨h.root, h.has.set n'⟩

theorem Holds.setChild (h : Holds r root (cell x (RbNode.on s p c a b) + M)) (a' : Option α) :
    Holds (r.setChild s x a') root (cell x (RbNode.on s p c a' b) + M) := by
  rw [RbRoot.setChild, h.get, RbNode.setChild_on]
  exact h.set _

theorem Holds.setChild_other (h : Holds r root (cell x (RbNode.on s p c a b) + M)) (b' : Option α) :
    Holds (r.setChild s.other x b') root (cell x (RbNode.on s p c a b') + M) := by
  rw [RbRoot.setChild, h.get, RbNode.setChild_other_on]
  exact h.set _

theorem Holds.rbSetParentColor (h : Holds r root (cell x (RbNode.on s p c a b) + M)) (p' : Option α)
    (c' : Color) : Holds (r.rbSetParentColor x p' c') root (cell x (RbNode.on s p' c' a b) +
      M) := by
  rw [RbRoot.rbSetParentColor, h.get]
  exact h.set _

theorem Holds.repaint (h : Holds r root (treeCells p t + M)) (hx : top t = some x) (p' : Option α)
    (c : Color) : Holds (r.rbSetParentColor x p' c) root (treeCells p' (t.paint c) + M) := by
  cases t with
  | nil => cases hx
  | node d l y r =>
    cases hx
    have hcell := h.to (N := cell x (RbNode.on .left p d (top l) (top r)) +
      (treeCells (some x) l + treeCells (some x) r + M)) (by simp only [treeCells]; ac_rfl)
    refine (hcell.rbSetParentColor p' c).to ?_
    simp only [RedBlack.Tree.paint, treeCells]
    ac_rfl

/-- A tree gets another parent and a black root. -/
theorem Holds.adopt (h : Holds r root (treeCells p t + M)) (x : α) :
    Holds (r.adopt (top t) x) root (treeCells (some x) (t.paint .black) + M) := by
  cases t with
  | nil => exact h
  | node c l y r => exact h.repaint rfl (some x) .black

theorem Holds.rbSetParent (h : Holds r root (cell x (RbNode.on s p c a b) + M)) (p' : Option α) :
    Holds (r.rbSetParent x p') root (cell x (RbNode.on s p' c a b) + M) := by
  rw [RbRoot.rbSetParent, h.get]
  exact h.set _

theorem Holds.rbSetBlack (h : Holds r root (cell x (RbNode.on s p c a b) + M)) :
    Holds (r.rbSetBlack x) root (cell x (RbNode.on s p .black a b) + M) := by
  rw [RbRoot.rbSetBlack, h.get]
  exact h.set _

/-- A tree gets another parent. -/
theorem Holds.foster (h : Holds r root (treeCells p t + M)) (x : α) :
    Holds (r.foster (top t) x) root (treeCells (some x) t + M) := by
  cases t with
  | nil => exact h
  | node c l y r =>
    have hcell := h.to (N := cell y (RbNode.on .left p c (top l) (top r)) +
      (treeCells (some y) l + treeCells (some y) r + M)) (by simp only [treeCells]; ac_rfl)
    refine (hcell.rbSetParent (some x)).to ?_
    simp only [treeCells]
    ac_rfl

/-- The pointer to a tree is turned to another. -/
theorem Holds.rbChangeChild {path : RedBlack.Path α} {old : α} (new : Option α)
    (h : Holds r (pathTop path (some old)) (pathCells path (some old) + (cell old n + M))) :
    Holds (r.rbChangeChild old new (up path)) (pathTop path new)
      (pathCells path new + (cell old n + M)) := by
  cases path with
  | nil => exact ⟨rfl, h.has⟩
  | cons f path =>
    obtain ⟨side, color, key, far⟩ := f
    have hcell := h.to (N := cell key (RbNode.on side (up path) color (some old) (top far)) +
      (treeCells (some key) far + pathCells path (some key) + (cell old n + M)))
      (by simp only [pathCells]; ac_rfl)
    have hset := (hcell.setChild new).to (N := pathCells (⟨side, color, key, far⟩ :: path) new +
      (cell old n + M)) (by simp only [pathCells]; ac_rfl)
    have hfar := h.to (N := cell old n + treeCells (some key) far +
      (cell key (RbNode.on side (up path) color (some old) (top far)) + pathCells path (some key) +
        M))
      (by simp only [pathCells]; ac_rfl)
    -- `old` is a node of its own, so it is not the child on the other side
    have hstep : r.rbChangeChild old new (some key) = r.setChild side key new := by
      simp only [RbRoot.rbChangeChild, hcell.get]
      cases side with
      | left => exact if_pos rfl
      | right => exact if_neg (hfar.top_ne (mem_cell ..))
    rw [up, hstep]
    exact ⟨hset.root, hset.has⟩

theorem Holds.rbRotateSetParents {path : RedBlack.Path α} {old new : α} {s' : Side} {d : Color}
    {a' b' : Option α}
    (h : Holds r (pathTop path (some old)) (cell old (RbNode.on s (up path) c a b) +
      (cell new (RbNode.on s' p d a' b') + (pathCells path (some old) + M)))) (c' : Color) :
    Holds (r.rbRotateSetParents old new c') (pathTop path (some new))
      (cell old (RbNode.on s (some new) c' a b) +
        (cell new (RbNode.on s' (up path) c a' b') + (pathCells path (some new) + M))) := by
  have hnew := (h.to (add_left_comm _ _ _)).rbSetParentColor (up path) c
  have hold := (hnew.to (add_left_comm _ _ _)).rbSetParentColor (some new) c'
  rw [RbRoot.rbRotateSetParents, h.parent, h.get]
  have hpath := hold.to (N := pathCells path (some old) +
    (cell old (RbNode.on s (some new) c' a b) +
    (cell new (RbNode.on s' (up path) c a' b') + M))) (by ac_rfl)
  exact (hpath.rbChangeChild (some new)).to (by ac_rfl)

omit [DecidableEq α] in
/-- The side of a child. -/
theorem Holds.child_eq_iff {far : RedBlack.Tree α} {q : Option α}
    (h : Holds r root (cell y (RbNode.on s p c (some x) (top far)) + (cell x n + treeCells q far +
      M)))
    (s' : Side) : r.child s' y = some x ↔ s' = s := by
  have hfar := h.to (N := cell x n + treeCells q far +
    (cell y (RbNode.on s p c (some x) (top far)) + M))
    (by ac_rfl)
  have hne : top far ≠ some x := hfar.top_ne (mem_cell ..)
  rw [RbRoot.child, h.get]
  rcases Decidable.em (s' = s) with rfl | hs
  · simp
  · rw [Side.ne_iff.mp hs, RbNode.child_other_on]
    exact ⟨fun heq => absurd heq hne, fun heq => absurd heq (by cases s <;> decide)⟩

omit [DecidableEq α] in
theorem Holds.filter_red (h : Holds r root (treeCells p t + M)) :
    (top t).filter r.rbIsRed = if t.color = .red then top t else none := by
  cases t with
  | nil => rfl
  | node c l y r' =>
    have hcell := h.to (N := cell y (RbNode.on .left p c (top l) (top r')) +
      (treeCells (some y) l + treeCells (some y) r' + M)) (by simp only [treeCells]; ac_rfl)
    have hcolor : r.rbIsRed y = decide (c = .red) := by
      rw [rbIsRed, hcell.get]
      rfl
    cases c with
    | red => simp [top, Option.filter, RedBlack.Tree.color, hcolor]
    | black => simp [top, Option.filter, RedBlack.Tree.color, hcolor]

end Rules

/-- The memory has the tree that is cut at a place into `p` and `t`, and `F` besides. -/
def Shows (r : RbRoot α) (p : RedBlack.Path α) (t : RedBlack.Tree α)
    (F : Piece α (RbNode α)) : Prop :=
  Holds r (pathTop p (top t)) (pathCells p (top t) + treeCells (up p) t + F)

section Shows

variable {r : RbRoot α} {p : RedBlack.Path α} {f : Frame α} {t : RedBlack.Tree α}
  {F : Piece α (RbNode α)}

omit [DecidableEq α]

theorem shows_cons :
    Shows r (f :: p) t F ↔ Shows r p (.on f.side f.color t f.key f.far) F := by
  have hcells : pathCells (f :: p) (top t) + treeCells (up (f :: p)) t + F =
      pathCells p (some f.key) + treeCells (up p) (.on f.side f.color t f.key f.far) + F := by
    simp only [pathCells, treeCells_on, up]
    ac_rfl
  unfold Shows
  rw [hcells, top_on]
  rfl

/-- Where the tree is cut makes no difference. -/
theorem shows_fill : Shows r p t F ↔ Shows r [] (RedBlack.Path.fill p t) F := by
  induction p generalizing t with
  | nil => rfl
  | cons f p ih => rw [shows_cons, ih, RedBlack.Path.fill_cons]

end Shows

/-- A red-black tree in memory, and `F` besides. -/
structure Stands (r : RbRoot α) (t : RedBlack.Tree α) (F : Piece α (RbNode α)) : Prop where
  shows : Shows r [] t F
  balanced : ∃ n, Balanced t .black n

/-! ## Rotations -/

/-- The last part of a rotation at `gparent`, with `tmp` as the child that changes its
parent. -/
def rotate (s : Side) (r : RbRoot α) (gparent parent : α) (tmp : Option α) : RbRoot α :=
  let r := r.setChild s gparent tmp
  let r := r.setChild s.other parent (some gparent)
  (r.adopt tmp gparent).rbRotateSetParents gparent parent .red

theorem Holds.rotate {r : RbRoot α} {path : RedBlack.Path α} {s : Side} {g q : α} {c d : Color}
    {a b a' b' p p' : Option α} {t : RedBlack.Tree α} {M : Piece α (RbNode α)}
    (h : Holds r (pathTop path (some g)) (cell g (RbNode.on s (up path) c a b) +
      (cell q (RbNode.on s p d a' b') + (treeCells p' t + (pathCells path (some g) + M))))) :
    Holds (rotate s r g q (top t)) (pathTop path (some q))
      (cell g (RbNode.on s (some q) .red (top t) b) +
      (cell q (RbNode.on s (up path) c a' (some g)) +
        (treeCells (some g) (t.paint .black) + (pathCells path (some q) + M)))) := by
  have hg := h.setChild (top t)
  have hq := (hg.to (add_left_comm _ _ _)).setChild_other (some g)
  have ht := (hq.to (N := treeCells p' t + (cell g (RbNode.on s (up path) c (top t) b) +
    (cell q (RbNode.on s p d a' (some g)) + (pathCells path (some g) + M)))) (by ac_rfl)).adopt g
  have hpath := ht.to (N := cell g (RbNode.on s (up path) c (top t) b) +
    (cell q (RbNode.on s p d a' (some g)) +
    (pathCells path (some g) + (treeCells (some g) (t.paint .black) + M)))) (by ac_rfl)
  exact (hpath.rbRotateSetParents .red).to (by ac_rfl)

end SuperExe.Core.RbTree
