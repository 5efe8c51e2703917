import SuperExe.Core.RbTreeMemory

/-! # Insertion into the red-black tree

`rb_link_node` and `rb_insert_color`, on a tree in memory, are `insertColor` on the
tree. `Stands.insert` puts the two together: the new tree is a red-black tree, it has
the old nodes in their order and the new one at its place, nothing else is written, and
the loop ends within twice the logarithm of the number of nodes.
-/

namespace SuperExe.Core.RbTree

open SuperExe.Lib SuperExe.Lib.RedBlack SuperExe.Lib.PointsTo RbRoot

universe u

variable {α : Type u} [DecidableEq α]

section Turn

variable {r : RbRoot α} {p : RedBlack.Path α} {f g : Frame α} {t : RedBlack.Tree α}
  {F : Piece α (RbNode α)} {x : α}
  {s : Side} {parent gparent : α}

theorem insertSide_red {u : α} (h : (r.child s.other gparent).filter r.rbIsRed = some u) :
    insertSide s r x parent gparent =
      let r := (r.adopt (some u) gparent).rbSetParentColor parent (some gparent) .black
      .goOn (gparent, r.rbParent gparent)
        (r.rbSetParentColor gparent (r.rbParent gparent) .red) := by
  simp only [insertSide, h, adopt]

/-- The rotation at the parent, if `node` is its child on the inner side. -/
theorem insertSide_inner (h : (r.child s.other gparent).filter r.rbIsRed = none)
    (hx : r.child s.other parent = some x) :
    insertSide s r x parent gparent =
      let tmp := r.child s x
      let r := r.setChild s.other parent tmp
      let r := r.setChild s x (some parent)
      let r := (r.adopt tmp parent).rbSetParentColor parent (some x) .red
      .stop (rotate s r gparent x (r.child s.other x)) := by
  simp only [insertSide, h, hx, if_true]
  rfl

theorem insertSide_outer (h : (r.child s.other gparent).filter r.rbIsRed = none)
    (hx : r.child s.other parent ≠ some x) :
    insertSide s r x parent gparent =
      .stop (rotate s r gparent parent (r.child s.other parent)) := by
  simp only [insertSide, h, if_neg hx]
  rfl

theorem insertTurn_red (hred : r.rbIsRed parent = true) (hg : r.rbParent parent = some gparent)
    (hside : r.child .right gparent = some parent ↔ Side.right = s) :
    insertTurn r x (some parent) = some (insertSide s r x parent gparent) := by
  cases s <;> simp [insertTurn, hred, hg, hside]

omit [DecidableEq α] in
/-- The memory at a node in the hole, its parent and its grandparent. -/
theorem Shows.holds (h : Shows r (f :: g :: p) t F) :
    Holds r (pathTop p (some g.key))
      (cell g.key (RbNode.on g.side (up p) g.color (some f.key) (top g.far)) +
        (cell f.key (RbNode.on f.side (some g.key) f.color (top t) (top f.far)) +
          (treeCells (some f.key) t + treeCells (some f.key) f.far + treeCells (some g.key) g.far +
            pathCells p (some g.key) + F))) :=
  h.to (by simp only [pathCells, up]; ac_rfl)

theorem Shows.insertTurn (h : Shows r (f :: g :: p) t F) (hf : f.color = .red) :
    insertTurn r x (some f.key) = some (insertSide g.side r x f.key g.key) := by
  have hg := h.holds
  have hfar := hg.to (N := cell g.key (RbNode.on g.side (up p) g.color (some f.key) (top g.far)) +
    (cell f.key (RbNode.on f.side (some g.key) f.color (top t) (top f.far)) +
      treeCells (some g.key) g.far +
      (treeCells (some f.key) t + treeCells (some f.key) f.far + pathCells p (some g.key) + F)))
    (by ac_rfl)
  have hcell := hg.to (add_left_comm _ _ _)
  refine insertTurn_red ?_ hcell.parent (hfar.child_eq_iff .right)
  rw [rbIsRed, hcell.get, RbNode.color_on, hf]
  rfl

omit [DecidableEq α] in
/-- The uncle, if it is red. -/
theorem Shows.uncle (h : Shows r (f :: g :: p) t F) :
    (r.child g.side.other g.key).filter r.rbIsRed =
      if g.far.color = .red then top g.far else none := by
  have hfar := h.holds.to (N := treeCells (some g.key) g.far +
    (cell g.key (RbNode.on g.side (up p) g.color (some f.key) (top g.far)) +
      (cell f.key (RbNode.on f.side (some g.key) f.color (top t) (top f.far)) +
        (treeCells (some f.key) t + treeCells (some f.key) f.far + pathCells p (some g.key) + F))))
    (by ac_rfl)
  rw [h.holds.child_other]
  exact hfar.filter_red

/-- Three colors change. -/
theorem Shows.insertSide_red (h : Shows r (f :: g :: p) t F) (hred : g.far.color = .red) :
    ∃ r', insertSide g.side r x f.key g.key = .goOn (g.key, up p) r' ∧
      Shows r' p
        (.on g.side .red (.on f.side .black t f.key f.far) g.key (g.far.paint .black)) F := by
  obtain ⟨u, hu⟩ := exists_top hred
  have huncle := h.uncle
  rw [if_pos hred, hu] at huncle
  have hfar := h.holds.to (N := treeCells (some g.key) g.far +
    (cell g.key (RbNode.on g.side (up p) g.color (some f.key) (top g.far)) +
      (cell f.key (RbNode.on f.side (some g.key) f.color (top t) (top f.far)) +
        (treeCells (some f.key) t + treeCells (some f.key) f.far + pathCells p (some g.key) + F))))
    (by ac_rfl)
  have hblack := hfar.adopt g.key
  have hf := (hblack.to
    (N := cell f.key (RbNode.on f.side (some g.key) f.color (top t) (top f.far)) +
    (cell g.key (RbNode.on g.side (up p) g.color (some f.key) (top g.far)) +
      (treeCells (some g.key) (g.far.paint .black) +
        (treeCells (some f.key) t + treeCells (some f.key) f.far + pathCells p (some g.key) + F))))
    (by ac_rfl)).rbSetParentColor (some g.key) .black
  have hgcell := hf.to (add_left_comm _ _ _)
  have hg := hgcell.rbSetParentColor (up p) .red
  have hparent := hgcell.parent
  rw [hu] at hg hparent
  refine ⟨((r.adopt (some u) g.key).rbSetParentColor f.key (some g.key) .black).rbSetParentColor
    g.key (up p) .red, ?_, ?_⟩
  · rw [RbTree.insertSide_red huncle]
    simp only [hparent]
  · unfold Shows
    rw [top_on]
    refine hg.to ?_
    simp only [treeCells_on, top_on, top_paint, hu]
    ac_rfl

/-- A rotation at the grandparent. -/
theorem Shows.insertSide_outer (h : Shows r (f :: g :: p) t F) (hx : top t = some x)
    (hside : f.side = g.side) (hffar : f.far.color = .black) (hg : g.color = .black)
    (hgfar : g.far.color = .black) :
    ∃ r', insertSide g.side r x f.key g.key = .stop r' ∧
      Shows r' p (.on g.side .black t f.key (.on g.side .red f.far g.key g.far)) F := by
  have huncle := h.uncle
  rw [hgfar, if_neg (by decide)] at huncle
  have hholds := h.holds
  rw [hside, hg] at hholds
  have hchild := (hholds.to (add_left_comm _ _ _)).child_other
  obtain ⟨n, hn⟩ := treeCells_top hx (some f.key)
  have hinner : r.child g.side.other f.key ≠ some x := by
    rw [hchild]
    have hboth := hholds.to (N := treeCells (some f.key) t + treeCells (some f.key) f.far +
      (cell g.key (RbNode.on g.side (up p) .black (some f.key) (top g.far)) +
        (cell f.key (RbNode.on g.side (some g.key) f.color (top t) (top f.far)) +
          (treeCells (some g.key) g.far + pathCells p (some g.key) + F)))) (by ac_rfl)
    exact hboth.top_ne hn
  refine ⟨_, RbTree.insertSide_outer huncle hinner, ?_⟩
  have hrot := (hholds.to
    (N := cell g.key (RbNode.on g.side (up p) .black (some f.key) (top g.far)) +
    (cell f.key (RbNode.on g.side (some g.key) f.color (top t) (top f.far)) +
      (treeCells (some f.key) f.far + (pathCells p (some g.key) +
        (treeCells (some f.key) t + treeCells (some g.key) g.far + F))))) (by ac_rfl)).rotate
  unfold Shows
  rw [top_on, hchild]
  refine hrot.to ?_
  simp only [treeCells_on, top_on, paint_black hffar]
  ac_rfl

/-- A rotation at the parent, and one at the grandparent. -/
theorem Shows.insertSide_inner {near far : RedBlack.Tree α} {c : Color}
    (h : Shows r (f :: g :: p) (.on g.side c near x far) F) (hside : f.side ≠ g.side)
    (hnear : near.color = .black) (hfar : far.color = .black) (hg : g.color = .black)
    (hgfar : g.far.color = .black) :
    ∃ r', insertSide g.side r x f.key g.key = .stop r' ∧
      Shows r' p (.on g.side .black (.on g.side .red f.far f.key near) x
        (.on g.side .red far g.key g.far)) F := by
  have huncle := h.uncle
  rw [hgfar, if_neg (by decide)] at huncle
  have hholds := h.holds
  rw [Side.ne_iff.mp hside, RbNode.on_other, hg, top_on, treeCells_on] at hholds
  have hx := hholds.to (N := cell x (RbNode.on g.side (some f.key) c (top near) (top far)) +
    (cell f.key (RbNode.on g.side (some g.key) f.color (top f.far) (some x)) +
      (cell g.key (RbNode.on g.side (up p) .black (some f.key) (top g.far)) +
        (treeCells (some x) near + treeCells (some x) far + treeCells (some f.key) f.far +
          treeCells (some g.key) g.far + pathCells p (some g.key) + F)))) (by ac_rfl)
  have hstop := RbTree.insertSide_inner huncle (hx.to (add_left_comm _ _ _)).child_other
  simp only [hx.child] at hstop
  -- the rotation at the parent
  have h₁ := (hx.to (add_left_comm _ _ _)).setChild_other (top near)
  have h₂ := (h₁.to (add_left_comm _ _ _)).setChild (some f.key)
  have h₃ := (h₂.to (N := treeCells (some x) near +
    (cell x (RbNode.on g.side (some f.key) c (some f.key) (top far)) +
      (cell f.key (RbNode.on g.side (some g.key) f.color (top f.far) (top near)) +
        (cell g.key (RbNode.on g.side (up p) .black (some f.key) (top g.far)) +
          (treeCells (some x) far + treeCells (some f.key) f.far +
            treeCells (some g.key) g.far + pathCells p (some g.key) +
              F))))) (by ac_rfl)).adopt f.key
  have h₄ := (h₃.to
    (N := cell f.key (RbNode.on g.side (some g.key) f.color (top f.far) (top near)) +
    (cell x (RbNode.on g.side (some f.key) c (some f.key) (top far)) +
      (treeCells (some f.key) (near.paint .black) +
        (cell g.key (RbNode.on g.side (up p) .black (some f.key) (top g.far)) +
          (treeCells (some x) far + treeCells (some f.key) f.far +
            treeCells (some g.key) g.far + pathCells p (some g.key) + F)))))
    (by ac_rfl)).rbSetParentColor (some x) .red
  -- the node stands above its parent now; the rotation at the grandparent
  rw [(h₄.to (add_left_comm _ _ _)).child_other] at hstop
  refine ⟨_, hstop, ?_⟩
  have hrot := (h₄.to (N := cell g.key (RbNode.on g.side (up p) .black (some f.key) (top g.far)) +
    (cell x (RbNode.on g.side (some f.key) c (some f.key) (top far)) +
      (treeCells (some x) far + (pathCells p (some g.key) +
        (cell f.key (RbNode.on g.side (some x) .red (top f.far) (top near)) +
          treeCells (some f.key) (near.paint .black) + treeCells (some f.key) f.far +
            treeCells (some g.key) g.far + F))))) (by ac_rfl)).rotate
  unfold Shows
  rw [top_on]
  refine hrot.to ?_
  simp only [treeCells_on, top_on, paint_black hnear, paint_black hfar]
  ac_rfl

theorem Shows.insertTurn_black (h : Shows r (f :: p) t F) (hf : f.color = .black) :
    RbTree.insertTurn r x (some f.key) = some (.stop r) := by
  have hcell := h.to (N := cell f.key (RbNode.on f.side (up p) f.color (top t) (top f.far)) +
    (treeCells (some f.key) f.far + pathCells p (some f.key) + treeCells (some f.key) t + F))
    (by simp only [pathCells, up]; ac_rfl)
  have hblack : r.rbIsRed f.key = false := by
    rw [rbIsRed, hcell.get, RbNode.color_on, hf]
    rfl
  simp [RbTree.insertTurn, hblack]

/-- A red root becomes black. -/
theorem Shows.insertTurn_root (h : Shows r [] t F) (hx : top t = some x) :
    ∃ r', RbTree.insertTurn r x none = some (.stop r') ∧ Shows r' [] (t.paint .black) F := by
  cases t with
  | nil => cases hx
  | node c l y r' =>
    cases hx
    have hcell := h.to (N := cell x (RbNode.on .left none c (top l) (top r')) +
      (treeCells (some x) l + treeCells (some x) r' + F))
      (by simp only [pathCells, treeCells, up]; ac_rfl)
    refine ⟨_, rfl, (hcell.rbSetParentColor none .black).to ?_⟩
    simp only [pathCells, treeCells, up, RedBlack.Tree.paint]
    ac_rfl

/-- The rotation of two red nodes in a row. -/
theorem Shows.insertSide_black {n : Nat} (h : Shows r (f :: g :: p) t F) (hx : top t = some x)
    (hp : Fits (f :: g :: p) .black n) (ht : Balanced t .red n) (hf : f.color ≠ .black)
    (hgfar : g.far.color = .black) :
    ∃ r', insertSide g.side r x f.key g.key = .stop r' ∧ Shows r' p (insertRotate f g t) F := by
  have hffar := (hp.grandparent hf).1.color_eq
  have hg : g.color = .black := by
    cases hp with
    | black => exact absurd rfl hf
    | red _ hrest =>
      cases hrest with
      | black => rfl
  unfold insertRotate
  split
  · next hside => exact h.insertSide_outer hx hside hffar hg hgfar
  · next hside =>
    cases ht with
    | @red l r' y _ hl hr =>
      cases hx
      rw [← RedBlack.Tree.on_pick g.side] at h
      exact h.insertSide_inner hside (hl.pick hr _).color_eq (hl.pick hr _).color_eq hg hgfar

theorem insertLoop_stop {turns : Nat} {r' : RbRoot α} {q : Option α}
    (h : RbTree.insertTurn r x q = some (.stop r')) : insertLoop (turns + 1) r x q = some r' := by
  simp [insertLoop, h]

theorem insertLoop_goOn {turns : Nat} {r' : RbRoot α} {q q' : Option α} {y : α}
    (h : RbTree.insertTurn r x q = some (.goOn (y, q') r')) :
    insertLoop (turns + 1) r x q = insertLoop turns r' y q' := by
  simp [insertLoop, h]

/-- The loop ends within the depth of its node, with the tree of the walk. -/
theorem Shows.insertLoop {n turns : Nat} (h : Shows r p t F) (hx : top t = some x)
    (hp : Fits p .black n) (ht : Balanced t .red n) (hturns : p.length < turns) :
    ∃ r', RbTree.insertLoop turns r x (up p) = some r' ∧ Shows r' [] (insertColor p t) F := by
  obtain ⟨turns, rfl⟩ := Nat.exists_eq_succ_of_ne_zero (Nat.ne_of_gt (Nat.zero_lt_of_lt hturns))
  induction p, t using insertColor.induct generalizing r n x turns with
  | case1 t =>
    obtain ⟨r', hturn, hshows⟩ := h.insertTurn_root hx
    exact ⟨r', insertLoop_stop hturn, hshows⟩
  | case2 f t =>
    -- a red root has no hole for a black subtree
    have hf : f.color = .black := by
      cases hp with
      | red _ hnil => cases hnil
      | black => rfl
    exact ⟨r, insertLoop_stop (h.insertTurn_black hf), shows_fill.mp h⟩
  | case3 f g rest t hf =>
    rw [insertColor, if_pos hf]
    exact ⟨r, insertLoop_stop (h.insertTurn_black hf), shows_fill.mp h⟩
  | case4 f g rest t hf hred ih =>
    -- a red uncle: the grandparent becomes red, and the next turn is about it
    rw [insertColor, if_neg hf, if_pos hred]
    have hturn := h.insertTurn (x := x) (Color.eq_red_of_ne hf)
    obtain ⟨r', hside, hshows⟩ := h.insertSide_red (x := x) hred
    rw [hside] at hturn
    obtain ⟨hffar, hgfar, hrest⟩ := hp.grandparent hf
    rw [hred] at hgfar
    simp only [List.length_cons] at hturns
    obtain ⟨turns, rfl⟩ := Nat.exists_eq_succ_of_ne_zero (show turns ≠ 0 by omega)
    obtain ⟨r'', hloop, hend⟩ := ih hshows (top_on ..) hrest
      (.on_red (.on_black ht hffar) hgfar.paint_red) turns (by omega)
    exact ⟨r'', (insertLoop_goOn hturn).trans hloop, hend⟩
  | case5 f g rest t hf hblack =>
    rw [insertColor, if_neg hf, if_neg hblack]
    have hturn := h.insertTurn (x := x) (Color.eq_red_of_ne hf)
    obtain ⟨r', hside, hshows⟩ := h.insertSide_black hx hp ht hf (Color.eq_black_of_ne hblack)
    rw [hside] at hturn
    exact ⟨r', insertLoop_stop hturn, shows_fill.mp hshows⟩

end Turn

/-- Where `rb_link` points for a hole. -/
def linkOf : RedBlack.Path α → Link α
  | [] => .root
  | f :: _ => .child f.side f.key

section Insert

variable {r : RbRoot α} {p : RedBlack.Path α} {F : Piece α (RbNode α)} {x : α} {n : RbNode α}

/-- The node is put in the hole, red and without children. -/
theorem Shows.rbLinkNode (h : Shows r p .nil (cell x n + F)) :
    Shows (rbLinkNode r x (up p) (linkOf p)) p (.node .red .nil x .nil) F := by
  have hcell := (h.to (N := cell x n + (pathCells p none + F))
    (by simp only [top, treeCells]; ac_rfl)).set (RbNode.on .left (up p) .red none none)
  cases p with
  | nil =>
    refine ⟨rfl, (hcell.to ?_).has⟩
    simp only [pathCells, treeCells, top]
    ac_rfl
  | cons f p =>
    have hlink := (hcell.to (N := cell f.key (RbNode.on f.side (up p) f.color none (top f.far)) +
      (cell x (RbNode.on .left (some f.key) .red none none) + (treeCells (some f.key) f.far +
        pathCells p (some f.key) + F))) (by simp only [pathCells, up]; ac_rfl)).setChild (some x)
    refine hlink.to ?_
    simp only [pathCells, treeCells, top, up]
    ac_rfl

/-- The loop starts at the new node. -/
theorem Shows.rbInsertColor {turns m : Nat} {t : RedBlack.Tree α} (h : Shows r p t F)
    (hx : top t = some x)
    (hp : Fits p .black m) (ht : Balanced t .red m) (hturns : p.length < turns) :
    ∃ r', rbInsertColor turns r x = some r' ∧ Shows r' [] (insertColor p t) F := by
  have hparent : r.rbParent x = up p := by
    cases t with
    | nil => cases hx
    | node c l y r' =>
      cases hx
      exact (h.to (N := cell x (RbNode.on .left (up p) c (top l) (top r')) + (pathCells p (some x) +
        treeCells (some x) l + treeCells (some x) r' + F))
        (by simp only [treeCells, top_node]; ac_rfl)).parent
  rw [RbTree.rbInsertColor, hparent]
  exact h.insertLoop hx hp ht hturns

/-- A new node at a hole of a red-black tree. -/
theorem Stands.insert {turns : Nat} (h : Stands r (RedBlack.Path.fill p .nil) (cell x n + F))
    (hturns : 2 * Nat.log 2 ((RedBlack.Path.fill p .nil).keys.length + 1) < turns) :
    ∃ r' t, RbTree.rbInsertColor turns (rbLinkNode r x (up p) (linkOf p)) x = some r' ∧
      Stands r' t F ∧ t.keys = p.before ++ x :: p.after := by
  obtain ⟨m, hbal⟩ := h.balanced
  obtain ⟨c, k, hp, hnil⟩ := exists_fits hbal
  cases hnil
  have hlength : p.length < turns := by
    have hdepth := RedBlack.Path.length_add_depth_le p .nil
    have hlog := hbal.depth_le_log
    omega
  have hred : Balanced (.node .red .nil x .nil) .red 0 := .red .nil .nil
  have hlink := (shows_fill.mpr h.shows).rbLinkNode
  obtain ⟨r', hrun, hshows⟩ := hlink.rbInsertColor rfl hp hred hlength
  refine ⟨r', _, hrun, ⟨hshows, hp.insertColor hred⟩, ?_⟩
  rw [keys_insertColor, RedBlack.Path.keys_fill]
  simp

end Insert

end SuperExe.Core.RbTree
