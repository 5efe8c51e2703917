import SuperExe.Core.RbTreeMemory

/-! # Removal from the red-black tree

`rb_erase` on a tree in memory is `erase` on the tree. First the loop of
`____rb_erase_color`, case by case and then as a whole, which is `eraseColor`; then
`__rb_erase_augmented`, where a node with two children gives its place to its successor.
`Stands.erase` says that the rest of the nodes is a red-black tree again, in the same
order, that the removed node keeps its contents and nothing else is written, and that the
loops end within twice the logarithm of the number of nodes.
-/

namespace SuperExe.Core.RbTree

open SuperExe.Lib SuperExe.Lib.RedBlack SuperExe.Lib.PointsTo RbRoot

universe u

variable {α : Type u} [DecidableEq α]

/-- Case 4 of `____rb_erase_color`. -/
def eraseRotate (s : Side) (r : RbRoot α) (parent sibling tmp1 : α) : RbRoot α :=
  let tmp2 := r.child s sibling
  let r := r.setChild s.other parent tmp2
  let r := r.setChild s sibling (some parent)
  let r := r.rbSetParentColor tmp1 (some sibling) .black
  let r := r.foster tmp2 parent
  r.rbRotateSetParents parent sibling .black

theorem Holds.eraseRotate {r : RbRoot α} {path : RedBlack.Path α} {s : Side} {g q y : α}
    {c d : Color}
    {a b p pa pb : Option α} {near far : RedBlack.Tree α} {M : Piece α (RbNode α)}
    (h : Holds r (pathTop path (some g)) (cell g (RbNode.on s (up path) c a b) +
      (cell q (RbNode.on s p d (top near) (top far)) +
        (treeCells pa near + (treeCells pb far + (pathCells path (some g) + M))))))
    (hy : top far = some y) :
    Holds (eraseRotate s r g q y) (pathTop path (some q))
      (cell g (RbNode.on s (some q) .black a (top near)) +
        (cell q (RbNode.on s (up path) c (some g) (top far)) +
        (treeCells (some g) near + (treeCells (some q) (far.paint .black) +
          (pathCells path (some q) + M))))) := by
  have hadopt (r : RbRoot α) : r.rbSetParentColor y (some q) .black = r.adopt (top far) q := by
    rw [hy]
    rfl
  have hnear := (h.to (add_left_comm _ _ _)).child
  have h₁ := h.setChild_other (top near)
  have h₂ := (h₁.to (add_left_comm _ _ _)).setChild (some g)
  have h₃ := (h₂.to (N := treeCells pb far + (cell q (RbNode.on s p d (some g) (top far)) +
    (cell g (RbNode.on s (up path) c a (top near)) + (treeCells pa near +
      (pathCells path (some g) + M))))) (by ac_rfl)).adopt q
  have h₄ := (h₃.to (N := treeCells pa near + (cell q (RbNode.on s p d (some g) (top far)) +
    (cell g (RbNode.on s (up path) c a (top near)) + (treeCells (some q) (far.paint .black) +
      (pathCells path (some g) + M))))) (by ac_rfl)).foster g
  have h₅ := (h₄.to (N := cell g (RbNode.on s (up path) c a (top near)) +
    (cell q (RbNode.on s p d (some g) (top far)) + (pathCells path (some g) +
      (treeCells (some g) near +
      (treeCells (some q) (far.paint .black) + M))))) (by ac_rfl)).rbRotateSetParents .black
  simp only [RbTree.eraseRotate, hnear, hadopt]
  exact h₅.to (by ac_rfl)

section Sibling

variable {r : RbRoot α} {p : RedBlack.Path α} {t a b near far l l' : RedBlack.Tree α}
  {F : Piece α (RbNode α)}
  {s : Side} {c d : Color} {k y z : α}

omit [DecidableEq α] in
/-- The memory at the parent and the sibling of the hole. -/
theorem Shows.sibling (h : Shows r (⟨s, c, k, .on s d near y far⟩ :: p) t F) :
    Holds r (pathTop p (some k)) (cell k (RbNode.on s (up p) c (top t) (some y)) +
      (cell y (RbNode.on s (some k) d (top near) (top far)) + (treeCells (some y) near +
        (treeCells (some y) far + (pathCells p (some k) + (treeCells (some k) t + F)))))) :=
  h.to (by simp only [pathCells, up, top_on, treeCells_on]; ac_rfl)

omit [DecidableEq α] in
/-- The far child of the sibling, if it is red. -/
theorem Shows.filter_far (h : Shows r (⟨s, c, k, .on s d near y far⟩ :: p) t F) :
    (r.child s.other y).filter r.rbIsRed = if far.color = .red then top far else none := by
  rw [(h.sibling.to (add_left_comm _ _ _)).child_other]
  exact (h.sibling.to (N := treeCells (some y) far +
    (cell k (RbNode.on s (up p) c (top t) (some y)) +
    (cell y (RbNode.on s (some k) d (top near) (top far)) + (treeCells (some y) near +
      (pathCells p (some k) + (treeCells (some k) t + F)))))) (by ac_rfl)).filter_red

omit [DecidableEq α] in
/-- The near child of the sibling, if it is red. -/
theorem Shows.filter_near (h : Shows r (⟨s, c, k, .on s d near y far⟩ :: p) t F) :
    (r.child s y).filter r.rbIsRed = if near.color = .red then top near else none := by
  rw [(h.sibling.to (add_left_comm _ _ _)).child]
  exact (h.sibling.to (N := treeCells (some y) near +
    (cell k (RbNode.on s (up p) c (top t) (some y)) +
    (cell y (RbNode.on s (some k) d (top near) (top far)) + (treeCells (some y) far +
      (pathCells p (some k) + (treeCells (some k) t + F)))))) (by ac_rfl)).filter_red

/-- Case 4 -/
theorem Shows.eraseSibling_outer (h : Shows r (⟨s, c, k, .on s .black a y b⟩ :: p) t F)
    (hb : b.color = .red) :
    ∃ r', eraseSibling s r k y = .stop r' ∧
      Shows r' p (.on s c (.on s .black t k a) y (b.paint .black)) F := by
  obtain ⟨w, hw⟩ := exists_top hb
  have hfar := h.filter_far
  rw [if_pos hb, hw] at hfar
  refine ⟨RbTree.eraseRotate s r k y w, by simp only [eraseSibling, hfar]; rfl, ?_⟩
  unfold Shows
  rw [top_on]
  refine (h.sibling.eraseRotate hw).to ?_
  simp only [treeCells_on, top_on, top_paint]
  ac_rfl

/-- Case 3 -/
theorem Shows.eraseSibling_inner
    (h : Shows r (⟨s, c, k, .on s .black (.on s .red l z l') y b⟩ :: p) t F)
    (hb : b.color = .black) (hl' : l'.color = .black) :
    ∃ r', eraseSibling s r k y = .stop r' ∧
      Shows r' p (.on s c (.on s .black t k l) z (.on s .black l' y b)) F := by
  have hfar := h.filter_far
  have hnear := h.filter_near
  rw [hb, if_neg (by decide)] at hfar
  rw [RedBlack.Tree.color_on, if_pos rfl, top_on] at hnear
  have hall := h.sibling.to (N := cell z (RbNode.on s (some y) .red (top l) (top l')) +
    (cell y (RbNode.on s (some k) .black (some z) (top b)) +
      (cell k (RbNode.on s (up p) c (top t) (some y)) +
      (treeCells (some z) l + (treeCells (some z) l' + (treeCells (some y) b +
        (pathCells p (some k) + (treeCells (some k) t + F))))))))
    (by simp only [treeCells_on, top_on]; ac_rfl)
  -- the rotation at the sibling, whose near child comes to stand above it
  have h₁ := (hall.to (add_left_comm _ _ _)).setChild (top l')
  have h₂ := (h₁.to (add_left_comm _ _ _)).setChild_other (some y)
  have h₃ := (h₂.to (N := cell k (RbNode.on s (up p) c (top t) (some y)) +
    (cell z (RbNode.on s (some y) .red (top l) (some y)) +
      (cell y (RbNode.on s (some k) .black (top l') (top b)) + (treeCells (some z) l +
        (treeCells (some z) l' + (treeCells (some y) b + (pathCells p (some k) +
          (treeCells (some k) t + F)))))))) (by ac_rfl)).setChild_other (some z)
  have h₄ := (h₃.to (N := treeCells (some z) l' + (cell k (RbNode.on s (up p) c (top t) (some z)) +
    (cell z (RbNode.on s (some y) .red (top l) (some y)) +
      (cell y (RbNode.on s (some k) .black (top l') (top b)) + (treeCells (some z) l +
        (treeCells (some y) b + (pathCells p (some k) + (treeCells (some k) t + F))))))))
    (by ac_rfl)).adopt y
  rw [paint_black hl'] at h₄
  -- the rotation at the parent
  have h₅ := (h₄.to (N := cell k (RbNode.on s (up p) c (top t) (some z)) +
    (cell z (RbNode.on s (some y) .red (top l) (top (.on s .black l' y b))) +
      (treeCells (some z) l +
      (treeCells (some k) (.on s .black l' y b) +
        (pathCells p (some k) + (treeCells (some k) t + F))))))
    (by simp only [treeCells_on, top_on]; ac_rfl)).eraseRotate (top_on ..)
  refine ⟨_, by simp only [eraseSibling, hfar, hnear, hall.child_other]; rfl, ?_⟩
  unfold Shows
  rw [top_on]
  refine h₅.to ?_
  rw [paint_black (RedBlack.Tree.color_on ..)]
  simp only [treeCells_on, top_on]
  ac_rfl

/-- Case 2 -/
theorem Shows.eraseSibling_flip (h : Shows r (⟨s, c, k, .on s .black a y b⟩ :: p) t F)
    (ha : a.color = .black) (hb : b.color = .black) :
    ∃ r', Shows r' p (.on s .black t k (.on s .red a y b)) F ∧
      eraseSibling s r k y =
        if c = .red then .stop r'
        else
          match up p with
          | some up => .goOn (some k, up) r'
          | none => .stop r' := by
  have hfar := h.filter_far
  have hnear := h.filter_near
  rw [hb, if_neg (by decide)] at hfar
  rw [ha, if_neg (by decide)] at hnear
  have hy := (h.sibling.to (add_left_comm _ _ _)).rbSetParentColor (some k) .red
  have hk := hy.to (add_left_comm _ _ _)
  have hred : (r.rbSetParentColor y (some k) .red).rbIsRed k = decide (c = .red) := by
    rw [rbIsRed, hk.get]
    rfl
  cases c with
  | red =>
    refine ⟨_, ?_, by simp only [eraseSibling, hfar, hnear, hred]; rfl⟩
    unfold Shows
    rw [top_on]
    refine hk.rbSetBlack.to ?_
    simp only [treeCells_on, top_on]
    ac_rfl
  | black =>
    refine ⟨_, ?_, by simp only [eraseSibling, hfar, hnear, hred, hk.parent]; rfl⟩
    unfold Shows
    rw [top_on]
    refine hk.to ?_
    simp only [treeCells_on, top_on]
    ac_rfl

/-- A turn with a black sibling mends the tree. -/
theorem Shows.eraseSibling {n : Nat} (h : Shows r (⟨s, c, k, .on s .black a y b⟩ :: p) t F)
    (ha : Balanced a d n) (far : RedBlack.Tree α) :
    ∃ r', Shows r' p (eraseMend ⟨s, c, k, far⟩ t a y b).1 F ∧
      RbTree.eraseSibling s r k y =
        if (eraseMend ⟨s, c, k, far⟩ t a y b).2 then .stop r'
        else
          match up p with
          | some up => .goOn (some k, up) r'
          | none => .stop r' := by
  unfold eraseMend
  split
  · next hbcolor =>
    split
    · next l z l' =>
      cases ha with
      | red hl hl' =>
        rw [← RedBlack.Tree.on_pick s] at h
        obtain ⟨r', hstop, hshows⟩ := h.eraseSibling_inner hbcolor (hl.pick hl' _).color_eq
        exact ⟨r', hshows, hstop⟩
    · next hred =>
      have hacolor : a.color = .black := by
        refine Color.eq_black_of_ne fun hcolor => ?_
        cases a with
        | nil => cases hcolor
        | node c l z l' =>
          cases hcolor
          exact hred l z l' rfl
      obtain ⟨r', hshows, hturn⟩ := h.eraseSibling_flip hacolor hbcolor
      refine ⟨r', hshows, ?_⟩
      simpa using hturn
  · next hbcolor =>
    obtain ⟨r', hstop, hshows⟩ := h.eraseSibling_outer (Color.eq_red_of_ne hbcolor)
    exact ⟨r', hshows, hstop⟩

omit [DecidableEq α] in
theorem Shows.sibling_red (h : Shows r (⟨s, c, k, .on s d near y far⟩ :: p) t F) :
    r.rbIsRed y = decide (d = .red) := by
  rw [rbIsRed, (h.sibling.to (add_left_comm _ _ _)).get]
  rfl

theorem Shows.eraseSide_black (h : Shows r (⟨s, c, k, .on s .black near y far⟩ :: p) t F) :
    eraseSide s r k = some (RbTree.eraseSibling s r k y) := by
  have hblack : r.rbIsRed y = false := h.sibling_red
  simp [eraseSide, h.sibling.child_other, hblack]

/-- Case 1: a red sibling goes up. -/
theorem Shows.eraseSide_red
    (h : Shows r (⟨s, c, k, .on s .red (.on s .black a z b) y far⟩ :: p) t F) :
    ∃ r', eraseSide s r k = some (RbTree.eraseSibling s r' k z) ∧
      Shows r' (⟨s, .red, k, .on s .black a z b⟩ :: ⟨s, c, y, far⟩ :: p) t F := by
  have hred : r.rbIsRed y = true := h.sibling_red
  have hnear := (h.sibling.to (add_left_comm _ _ _)).child
  refine ⟨rotate s.other r k y (some z), ?_, ?_⟩
  · simp only [eraseSide, h.sibling.child_other, Option.bind_eq_bind, Option.bind_some, hred, hnear,
      top_on, if_true]
    cases s <;> rfl
  · have hall := h.sibling.to (N := cell k (RbNode.on s.other (up p) c (some y) (top t)) +
      (cell y (RbNode.on s.other (some k) .red (top far) (some z)) +
        (treeCells (some y) (.on s .black a z b) + (pathCells p (some k) +
          (treeCells (some y) far + (treeCells (some k) t + F))))))
      (by simp only [RbNode.on_other, top_on]; ac_rfl)
    have hrot := hall.rotate
    rw [top_on, paint_black (RedBlack.Tree.color_on ..)] at hrot
    refine hrot.to ?_
    simp only [RbNode.on_other, pathCells, up, top_on]
    ac_rfl

/-- The side of the hole. -/
theorem Shows.eraseTurn (h : Shows r (⟨s, c, k, .on s d near y far⟩ :: p) t F) :
    eraseTurn r (top t) k = eraseSide s r k := by
  unfold RbTree.eraseTurn
  cases s with
  | right => rw [h.sibling.child, if_neg (not_not.mpr rfl)]
  | left =>
    have hother : r.child .right k = some y := h.sibling.child_other
    have htop := h.sibling.to (N := cell y (RbNode.on .left (some k) d (top near) (top far)) +
      treeCells (some k) t + (cell k (RbNode.on .left (up p) c (top t) (some y)) +
        (treeCells (some y) near + treeCells (some y) far + pathCells p (some k) + F))) (by ac_rfl)
    rw [hother, if_pos (htop.top_ne (mem_cell ..))]

end Sibling

section Loop

variable {r : RbRoot α} {p : RedBlack.Path α} {f : Frame α} {t : RedBlack.Tree α}
  {F : Piece α (RbNode α)}
  {turns : Nat}

theorem eraseLoop_stop {r' : RbRoot α} {node : Option α} {k : α}
    (h : eraseTurn r node k = some (.stop r')) : eraseLoop (turns + 1) r node k = some r' := by
  simp [eraseLoop, h]

theorem eraseLoop_goOn {r' : RbRoot α} {node node' : Option α} {k k' : α}
    (h : eraseTurn r node k = some (.goOn (node', k') r')) :
    eraseLoop (turns + 1) r node k = eraseLoop turns r' node' k' := by
  simp [eraseLoop, h]

omit [DecidableEq α] in
theorem top_eraseMend {a b : RedBlack.Tree α} {y : α} (h : (eraseMend f t a y b).2 = false) :
    top (eraseMend f t a y b).1 = some f.key := by
  unfold eraseMend at h ⊢
  split at h
  · next hb =>
    rw [if_pos hb]
    split at h
    · cases h
    · exact top_on ..
  · cases h

/-- How a turn ends: with the tree mended, or with a tree that is one black node short
at the parent. -/
inductive ErasePass (r : RbRoot α) (f : Frame α) (p : RedBlack.Path α) (t : RedBlack.Tree α)
    (F : Piece α (RbNode α)) (n : Nat) : Prop
  | stop (r' : RbRoot α) :
      RbTree.eraseTurn r (top t) f.key = some (.stop r') → Shows r' [] (eraseColor (f :: p) t) F →
      ErasePass r f p t F n
  | goOn (r' : RbRoot α) (g : Frame α) (q : RedBlack.Path α) (t' : RedBlack.Tree α) :
      p = g :: q → RbTree.eraseTurn r (top t) f.key = some (.goOn (top t', g.key) r') →
      Shows r' p t' F → Fits p .black (n + 2) → Balanced t' .black (n + 1) →
      eraseColor (f :: p) t = eraseColor p t' → ErasePass r f p t F n

section Pass

variable {s : Side} {c : Color} {k y : α} {l l' : RedBlack.Tree α} {n : Nat}

/-- A turn with a black sibling. -/
theorem Shows.erasePass_black (h : Shows r (⟨s, c, k, .node .black l y l'⟩ :: p) t F)
    (hp : Fits (⟨s, c, k, .node .black l y l'⟩ :: p) .black (n + 1)) (ht : Balanced t .black n) :
    ErasePass r ⟨s, c, k, .node .black l y l'⟩ p t F n := by
  obtain ⟨d, hfar, -⟩ := hp.far
  obtain ⟨a, b, hnear, hother⟩ := hfar.children s
  obtain ⟨-, hshort⟩ := eraseMend_spec hp.frame ht hnear hother (y := y)
  rw [← RedBlack.Tree.on_pick s .black l y l'] at h
  obtain ⟨r', hshows, hturn⟩ := h.eraseSibling hnear (.node .black l y l')
  have hrun := h.eraseTurn.trans h.eraseSide_black
  rw [hturn] at hrun
  cases hmend : (eraseMend ⟨s, c, k, .node .black l y l'⟩ t (s.pick l l') y
      (s.other.pick l l')).2 with
  | true =>
    rw [hmend, if_pos rfl] at hrun
    refine .stop r' hrun ?_
    simp only [eraseColor, hmend, if_true]
    exact shows_fill.mp hshows
  | false =>
    obtain ⟨-, hfits, hbal⟩ := hshort hmend
    rw [hmend, if_neg (by decide)] at hrun
    have hcolor : eraseColor (⟨s, c, k, .node .black l y l'⟩ :: p) t = eraseColor p
        (eraseMend ⟨s, c, k, .node .black l y l'⟩ t (s.pick l l') y (s.other.pick l l')).1 := by
      simp only [eraseColor, hmend, Bool.false_eq_true, if_false]
    cases p with
    | nil =>
      -- at the root the whole tree is one black node lower
      refine .stop r' hrun ?_
      rw [hcolor]
      exact hshows
    | cons g q =>
      refine .goOn r' g q _ rfl ?_ hshows hfits hbal hcolor
      rw [top_eraseMend hmend]
      exact hrun

/-- A turn with a red sibling, which is the last one. -/
theorem Shows.erasePass_red (h : Shows r (⟨s, c, k, .node .red l y l'⟩ :: p) t F)
    (hp : Fits (⟨s, c, k, .node .red l y l'⟩ :: p) .black (n + 1)) (ht : Balanced t .black n) :
    ErasePass r ⟨s, c, k, .node .red l y l'⟩ p t F n := by
  -- the parent of a red node is black
  cases hp with
  | red hfar => cases hfar
  | black hfar hrest =>
    cases hfar with
    | red hl hl' =>
      have hnear := hl.pick hl' s
      cases hpick : s.pick l l' with
      | nil =>
        rw [hpick] at hnear
        cases hnear
      | node d a z b =>
        rw [← RedBlack.Tree.on_pick s .red l y l', hpick] at h
        rw [hpick] at hnear
        have hd : d = .black := hnear.color_eq
        subst hd
        rw [← RedBlack.Tree.on_pick s .black a z b] at h
        obtain ⟨r₁, hside, hred⟩ := h.eraseSide_red
        obtain ⟨ca, cb, hnear', hother'⟩ := hnear.children s
        obtain ⟨r', hshows, hturn⟩ := hred.eraseSibling hnear' (.node .black a z b)
        have hfits : Fits (⟨s, .black, y, s.other.pick l l'⟩ :: p) .red (n + 1) :=
          .black (hl.pick hl' s.other) hrest
        obtain ⟨-, hshort⟩ := eraseMend_spec (f := ⟨s, .red, k, .node .black a z b⟩) (y := z)
          (.inl ⟨rfl, hfits⟩) ht hnear' hother'
        have hrun := h.eraseTurn.trans hside
        rw [hturn] at hrun
        cases hmend : (eraseMend ⟨s, .red, k, .node .black a z b⟩ t (s.pick a b) z
            (s.other.pick a b)).2 with
        | false => cases (hshort hmend).1
        | true =>
          rw [hmend, if_pos rfl] at hrun
          refine .stop r' hrun ?_
          simp only [eraseColor, hpick]
          exact shows_fill.mp hshows

end Pass

theorem Shows.erasePass {n : Nat} (h : Shows r (f :: p) t F) (hp : Fits (f :: p) .black (n + 1))
    (ht : Balanced t .black n) : ErasePass r f p t F n := by
  obtain ⟨s, c, k, far⟩ := f
  cases far with
  | nil =>
    -- the sibling is there: the hole is one black node short
    obtain ⟨d, hfar, -⟩ := hp.far
    cases hfar
  | node d l y l' =>
    cases d with
    | black => exact h.erasePass_black hp ht
    | red => exact h.erasePass_red hp ht

/-- The loop ends within the depth of the hole, with the tree of the walk. -/
theorem Shows.eraseLoop {n : Nat} (h : Shows r (f :: p) t F) (hp : Fits (f :: p) .black (n + 1))
    (ht : Balanced t .black n) (hturns : p.length < turns) :
    ∃ r', RbTree.eraseLoop turns r (top t) f.key = some r' ∧
      Shows r' [] (eraseColor (f :: p) t) F := by
  induction p generalizing r f t n turns with
  | nil =>
    obtain ⟨turns, rfl⟩ := Nat.exists_eq_succ_of_ne_zero (Nat.ne_of_gt (Nat.zero_lt_of_lt hturns))
    cases h.erasePass hp ht with
    | stop r' hstop hshows => exact ⟨r', eraseLoop_stop hstop, hshows⟩
    | goOn r' g q t' hnil => cases hnil
  | cons g p ih =>
    obtain ⟨turns, rfl⟩ := Nat.exists_eq_succ_of_ne_zero (Nat.ne_of_gt (Nat.zero_lt_of_lt hturns))
    cases h.erasePass hp ht with
    | stop r' hstop hshows => exact ⟨r', eraseLoop_stop hstop, hshows⟩
    | goOn r' g' q t' hcons hgo hshows hfits hbal hcolor =>
      cases hcons
      obtain ⟨r'', hloop, hend⟩ := ih hshows hfits hbal (Nat.lt_of_succ_lt_succ hturns)
      rw [hcolor]
      exact ⟨r'', (eraseLoop_goOn hgo).trans hloop, hend⟩

end Loop

/-! ## The removal of a node -/

/-- `up` for a path whose top has a parent. -/
def upFrom (parent : Option α) : RedBlack.Path α → Option α
  | [] => parent
  | f :: _ => some f.key

/-- `pathCells` for a path whose top has a parent. -/
def pathCellsFrom (parent : Option α) : RedBlack.Path α → Option α → Piece α (RbNode α)
  | [], _ => 0
  | f :: p, hole =>
    cell f.key (RbNode.on f.side (upFrom parent p) f.color hole (top f.far)) +
      treeCells (some f.key) f.far + pathCellsFrom parent p (some f.key)

section From

omit [DecidableEq α]

variable (p q : RedBlack.Path α) (f : Frame α) (t : RedBlack.Tree α) (hole parent : Option α)

theorem up_append : up (q ++ f :: p) = upFrom (some f.key) q := by
  cases q <;> rfl

theorem pathTop_append : pathTop (q ++ f :: p) hole = pathTop (f :: p) (pathTop q hole) := by
  induction q generalizing hole with
  | nil => rfl
  | cons g q ih => exact ih _

theorem pathCells_append : pathCells (q ++ f :: p) hole =
    pathCellsFrom (some f.key) q hole + pathCells (f :: p) (pathTop q hole) := by
  induction q generalizing hole with
  | nil => exact (zero_add _).symm
  | cons g q ih =>
    rw [List.cons_append, pathCells, ih, up_append, pathCellsFrom, pathTop]
    ac_rfl

theorem top_fill : top (RedBlack.Path.fill q t) = pathTop q (top t) := by
  induction q generalizing t with
  | nil => rfl
  | cons g q ih => rw [RedBlack.Path.fill_cons, ih, top_on, pathTop]

theorem treeCells_fill : treeCells parent (RedBlack.Path.fill q t) =
    pathCellsFrom parent q (top t) + treeCells (upFrom parent q) t := by
  induction q generalizing t with
  | nil => exact (zero_add _).symm
  | cons g q ih =>
    rw [RedBlack.Path.fill_cons, ih, top_on, treeCells_on, pathCellsFrom, upFrom]
    ac_rfl

end From

/-- The top of a path gets another parent. -/
theorem Holds.reparent {r : RbRoot α} {root a hole : Option α} {q : RedBlack.Path α} {f : Frame α}
    {x : α} {M : Piece α (RbNode α)} (h : Holds r root (pathCellsFrom a (f :: q) hole + M))
    (hx : pathTop (f :: q) hole = some x) (b : Option α) :
    Holds (r.rbSetParent x b) root (pathCellsFrom b (f :: q) hole + M) := by
  induction q generalizing f hole M with
  | nil =>
    cases hx
    have hcell := h.to (N := cell f.key (RbNode.on f.side a f.color hole (top f.far)) +
      (treeCells (some f.key) f.far + M)) (by simp only [pathCellsFrom, upFrom]; ac_rfl)
    refine (hcell.rbSetParent b).to ?_
    simp only [pathCellsFrom, upFrom]
    ac_rfl
  | cons g q ih =>
    have hrest := h.to (N := pathCellsFrom a (g :: q) (some f.key) +
      (cell f.key (RbNode.on f.side (some g.key) f.color hole (top f.far)) +
        treeCells (some f.key) f.far + M)) (by simp only [pathCellsFrom, upFrom]; ac_rfl)
    refine (ih hrest hx).to ?_
    simp only [pathCellsFrom, upFrom]
    ac_rfl

/-- Where `____rb_erase_color` begins. -/
def rebalance (p : RedBlack.Path α) (c : Color) : RedBlack.Tree α → Option α
  | .nil => if c = .black then up p else none
  | .node _ _ _ _ => none

section Erase

variable {r r' : RbRoot α} {p q : RedBlack.Path α} {c c' d e : Color} {l t t' : RedBlack.Tree α}
  {x s : α}
  {n turns : Nat} {F : Piece α (RbNode α)}

/-- The rest of a removal, once the node is out of the tree. -/
theorem Shows.rebalance (side : Side) (h : Shows r' p (t.paint c) F) (hp : Fits p e n)
    (ht : Balanced (.on side c .nil s t) e n) (hturns : p.length ≤ turns)
    (hrun : rbEraseAugmented turns r x = some (r', rebalance p c t)) :
    ∃ r'', rbErase turns r x = some r'' ∧ Shows r'' [] (splice p c t) F := by
  cases t with
  | node d l y l' =>
    refine ⟨r', by simp [rbErase, hrun, RbTree.rebalance], shows_fill.mp h⟩
  | nil =>
    cases c with
    | red => exact ⟨r', by simp [rbErase, hrun, RbTree.rebalance], shows_fill.mp h⟩
    | black =>
      cases p with
      | nil => exact ⟨r', by simp [rbErase, hrun, RbTree.rebalance, up], h⟩
      | cons f p =>
        -- the hole is one black node short
        obtain ⟨r'', hloop, hshows⟩ := Shows.eraseLoop (t := .nil) h (hp.of_leaf ht) .nil hturns
        refine ⟨r'', ?_, hshows⟩
        simpa [rbErase, hrun, RbTree.rebalance, up] using hloop

omit [DecidableEq α] in
/-- The memory at a node. -/
theorem Shows.node (h : Shows r p (.node c l x t) F) :
    Holds r (pathTop p (some x)) (cell x (RbNode.on .left (up p) c (top l) (top t)) +
      (pathCells p (some x) + (treeCells (some x) l + (treeCells (some x) t + F)))) :=
  h.to (by simp only [treeCells, top_node]; ac_rfl)

/-- A node without a left child. -/
theorem Shows.erase_right (h : Shows r p (.node c .nil x t) F) :
    ∃ r', rbEraseAugmented turns r x = some (r', RbTree.rebalance p c t) ∧
      Shows r' p (t.paint c) (cell x (r.mem x) + F) := by
  have hx := h.node
  have hleft : r.child .left x = none := hx.child
  have hright : r.child .right x = top t := hx.child_other
  have hchange := (hx.to (N := pathCells p (some x) +
    (cell x (RbNode.on .left (up p) c none (top t)) +
    (treeCells (some x) t + F))) (by simp only [treeCells, top_nil]; ac_rfl)).rbChangeChild (top t)
  rw [hx.get]
  cases t with
  | nil =>
    refine ⟨r.rbChangeChild x none (up p), ?_, hchange.to ?_⟩
    · simp [rbEraseAugmented, hleft, hright, hx.get, top, RbTree.rebalance]
    · simp only [RedBlack.Tree.paint, treeCells, top_nil]
      ac_rfl
  | node d a y b =>
    have hword := (hchange.to (N := treeCells (some x) (.node d a y b) + (pathCells p (some y) +
      (cell x (RbNode.on .left (up p) c none (some y)) + F))) (by
        simp only [top_node]
        ac_rfl)).repaint rfl (up p) c
    refine ⟨(r.rbChangeChild x (some y) (up p)).rbSetParentColor y (up p) c, ?_, hword.to ?_⟩
    · simp [rbEraseAugmented, hleft, hright, hx.get, top, RbTree.rebalance, copyWord]
    · simp only [top_nil, top_node, top_paint]
      ac_rfl

/-- A node with a left child only. -/
theorem Shows.erase_left (h : Shows r p (.node c l x .nil) F) (hs : top l = some s) :
    ∃ r', rbEraseAugmented turns r x = some (r', none) ∧
      Shows r' p (l.paint c) (cell x (r.mem x) + F) := by
  have hx := h.node
  have hleft : r.child .left x = some s := hx.child.trans hs
  have hright : r.child .right x = none := hx.child_other
  have hword := (hx.to (N := treeCells (some x) l +
    (cell x (RbNode.on .left (up p) c (top l) none) +
    (pathCells p (some x) + F))) (by simp only [treeCells, top_nil]; ac_rfl)).repaint hs (up p) c
  have hchange := (hword.to (N := pathCells p (some x) +
    (cell x (RbNode.on .left (up p) c (top l) none) +
    (treeCells (up p) (l.paint c) + F))) (by ac_rfl)).rbChangeChild (some s)
  rw [hx.get]
  refine ⟨(r.rbSetParentColor s (up p) c).rbChangeChild x (some s) (up p), ?_, ?_⟩
  · simp [rbEraseAugmented, hleft, hright, hx.get, copyWord]
  · unfold Shows
    rw [top_paint, hs]
    refine hchange.to ?_
    simp only [hs, top_nil]
    ac_rfl

omit [DecidableEq α] in
/-- The loop for the successor goes down as `leftmost` does. -/
theorem Holds.successorLoop {root a : Option α} {M : Piece α (RbNode α)} {y : α} {g : Frame α}
    (h : Holds r root (treeCells a l + M)) (hy : top l = some y)
    (hsome : leftmost l (g :: p) = some (q, c', s, t)) (hg : g.side = .left)
    (hturns : l.depth ≤ turns) :
    ∃ g' q', q = g' :: q' ∧ g'.side = .left ∧
      RbTree.successorLoop r turns g.key y = some (g'.key, s) := by
  induction l generalizing a M y g p turns with
  | nil => cases hy
  | node d l z l' ihl _ =>
    cases hy
    simp only [RedBlack.Tree.depth] at hturns
    obtain ⟨turns, rfl⟩ := Nat.exists_eq_succ_of_ne_zero (show turns ≠ 0 by omega)
    have hchild : r.child .left z = top l := (h.to
      (N := cell z (RbNode.on .left a d (top l) (top l')) +
      (treeCells (some z) l + treeCells (some z) l' + M)) (by simp only [treeCells]; ac_rfl)).child
    cases l with
    | nil =>
      simp only [leftmost, Option.some.injEq, Prod.mk.injEq] at hsome
      obtain ⟨rfl, -, rfl, -⟩ := hsome
      exact ⟨g, p, rfl, hg, by simp [RbTree.successorLoop, hchild, top]⟩
    | node d' a' z' b' =>
      rw [leftmost] at hsome
      have hl := h.to (N := treeCells (some z) (.node d' a' z' b') +
        (cell z (RbNode.on .left a d (some z') (top l')) + treeCells (some z) l' + M))
        (by simp only [treeCells, top_node]; ac_rfl)
      obtain ⟨g', q', hq, hside, hloop⟩ := ihl hl rfl hsome rfl (show _ ≤ turns by omega)
      exact ⟨g', q', hq, hside, by simpa [RbTree.successorLoop, hchild, top] using hloop⟩

/-- The first half of `__rb_erase_augmented` for a node with two children. -/
def takeSuccessor (turns : Nat) (r : RbRoot α) (child : α) :
    Option (RbRoot α × α × α × Option α) :=
  match r.child .left child with
  | none => some (r, child, child, r.child .right child)
  | some next => do
    let (parent, successor) ← RbTree.successorLoop r turns child next
    let child2 := r.child .right successor
    let r := r.setChild .left parent child2
    let r := r.setChild .right successor (some child)
    some (r.rbSetParent child (some successor), parent, successor, child2)

/-- The second half. -/
def putSuccessor (r : RbRoot α) (node tmp parent successor : α) (child2 : Option α) :
    RbRoot α × Option α :=
  let r := r.setChild .left successor (some tmp)
  let r := r.rbSetParent tmp (some successor)
  let pc := r.mem node
  let r := r.rbChangeChild node (some successor) pc.parent
  match child2 with
  | some child2 => ((r.copyWord successor pc).rbSetParentColor child2 (some parent) .black, none)
  | none =>
    let pc2 := r.mem successor
    (r.copyWord successor pc, if pc2.color = .black then some parent else none)

theorem rbEraseAugmented_both {tmp child parent : α} {child2 : Option α}
    (hleft : r.child .left x = some tmp) (hright : r.child .right x = some child)
    (htake : takeSuccessor turns r child = some (r', parent, s, child2)) :
    rbEraseAugmented turns r x = some (putSuccessor r' x tmp parent s child2) := by
  cases hnext : r.child .left child with
  | none =>
    simp only [takeSuccessor, hnext] at htake
    cases htake
    simp only [rbEraseAugmented, hleft, hright, hnext, Option.bind_eq_bind, Option.bind_some]
    cases r.child .right s <;> rfl
  | some next =>
    simp only [takeSuccessor, hnext, Option.bind_eq_bind, Option.bind_eq_some_iff] at htake
    obtain ⟨⟨k, s'⟩, hloop, heq⟩ := htake
    cases heq
    simp only [rbEraseAugmented, hleft, hright, hnext, hloop, Option.bind_eq_bind,
      Option.bind_some]
    cases r.child .right s' <;> rfl

/-- The successor is taken out of its place. -/
theorem Shows.takeSuccessor {child : α} (h : Shows r p (.node c l x t') F)
    (hsome : leftmost t' [] = some (q, c', s, t)) (hchild : top t' = some child)
    (hturns : t'.depth ≤ turns) :
    ∃ r' k P, RbTree.takeSuccessor turns r child = some (r', k, s, top t) ∧
      upFrom (some s) q = some k ∧
      Holds r' (pathTop p (some x)) (cell s (RbNode.on .left P c' none (pathTop q (top t))) +
        (cell x (RbNode.on .left (up p) c (top l) (top t')) + (pathCellsFrom (some s) q (top t) +
          (treeCells (some s) t + (pathCells p (some x) + (treeCells (some x) l + F)))))) := by
  have hx := h.node
  obtain ⟨hfill, -⟩ := leftmost_spec hsome
  rw [RedBlack.Path.fill_nil] at hfill
  have hs := hx.to (N := cell s (RbNode.on .left (upFrom (some x) q) c' none (top t)) +
    (pathCellsFrom (some x) q (some s) + (treeCells (some s) t +
      (cell x (RbNode.on .left (up p) c (top l) (top t')) + (pathCells p (some x) +
        (treeCells (some x) l + F)))))) (by
      rw [← hfill, treeCells_fill, top_node, treeCells, treeCells, top_nil]
      ac_rfl)
  cases t' with
  | nil => cases hchild
  | node d a y b =>
    cases hchild
    have hleft : r.child .left child = top a := (hx.to
      (N := cell child (RbNode.on .left (some x) d (top a) (top b)) +
        (treeCells (some child) a + treeCells (some child) b +
          (cell x (RbNode.on .left (up p) c (top l) (some child)) + (pathCells p (some x) +
            (treeCells (some x) l + F))))) (by simp only [treeCells, top_node]; ac_rfl)).child
    cases a with
    | nil =>
      -- the right child is the successor, and nothing moves yet
      simp only [leftmost, Option.some.injEq, Prod.mk.injEq] at hsome
      obtain ⟨rfl, rfl, rfl, rfl⟩ := hsome
      have hright := hs.child_other
      refine ⟨r, child, some x, ?_, rfl, hs.to ?_⟩
      · rw [RbTree.takeSuccessor, hleft]
        exact congrArg (fun o => some (r, child, child, o)) hright
      · simp only [pathCellsFrom, pathTop, upFrom]
        ac_rfl
    | node d' a' z b' =>
      have hl := hx.to (N := treeCells (some child) (.node d' a' z b') +
        (cell child (RbNode.on .left (some x) d (some z) (top b)) + treeCells (some child) b +
          (cell x (RbNode.on .left (up p) c (top l) (some child)) + (pathCells p (some x) +
            (treeCells (some x) l + F))))) (by simp only [treeCells, top_node]; ac_rfl)
      rw [leftmost] at hsome
      have hdepth : (RedBlack.Tree.node d' a' z b').depth ≤ turns := by
        rw [RedBlack.Tree.depth] at hturns
        omega
      -- the successor lies further down, and leaves its place to its right child
      obtain ⟨g, q, rfl, hside, hloop⟩ := hl.successorLoop rfl hsome rfl hdepth
      obtain ⟨side, color, k, far⟩ := g
      cases hside
      have htop : pathTop (⟨.left, color, k, far⟩ :: q) (top t) = some child :=
        (top_fill (_ :: q) (.node c' .nil s t)).symm.trans (congrArg top hfill)
      have h₁ := (hs.to
        (N := cell k (RbNode.on .left (upFrom (some x) q) color (some s) (top far)) +
        (cell s (RbNode.on .left (some k) c' none (top t)) + (treeCells (some k) far +
          pathCellsFrom (some x) q (some k) + (treeCells (some s) t +
            (cell x (RbNode.on .left (up p) c (top l) (some child)) + (pathCells p (some x) +
              (treeCells (some x) l + F))))))) (by
          simp only [pathCellsFrom, upFrom, top_node]
          ac_rfl)).setChild (top t)
      have h₂ := (h₁.to (add_left_comm _ _ _)).setChild_other (some child)
      have h₃ := (h₂.to (N := pathCellsFrom (some x) (⟨.left, color, k, far⟩ :: q) (top t) +
        (cell s (RbNode.on .left (some k) c' none (some child)) + (treeCells (some s) t +
          (cell x (RbNode.on .left (up p) c (top l) (some child)) + (pathCells p (some x) +
            (treeCells (some x) l + F)))))) (by
          simp only [pathCellsFrom]
          ac_rfl)).reparent htop (some s)
      refine ⟨_, k, some k, ?_, rfl, h₃.to ?_⟩
      · have hright : r.child .right s = top t := hs.child_other
        simp only [RbTree.takeSuccessor, hleft, top_node, hloop, Option.bind_eq_bind,
          Option.bind_some, hright]
        rfl
      · rw [htop, top_node]
        ac_rfl

/-- The successor is put in the place of the node. -/
theorem Holds.putSuccessor {tmp k : α} {P : Option α}
    (h : Holds r (pathTop p (some x)) (cell s (RbNode.on .left P c' none (pathTop q (top t))) +
      (cell x (RbNode.on .left (up p) c (top l) (top t')) + (pathCellsFrom (some s) q (top t) +
        (treeCells (some s) t + (pathCells p (some x) + (treeCells (some x) l + F)))))))
    (htmp : top l = some tmp) (hk : upFrom (some s) q = some k) (ht : t ≠ .nil → c' = .black) :
    ∃ r', RbTree.putSuccessor r x tmp k s (top t) =
        (r', RbTree.rebalance (q ++ ⟨.right, c, s, l⟩ :: p) c' t) ∧
      Shows r' (q ++ ⟨.right, c, s, l⟩ :: p) (t.paint c')
        (cell x (RbNode.on .left (up p) c (top l) (top t')) + F) := by
  have h₁ := h.setChild (some tmp)
  have h₂ := (h₁.to (N := treeCells (some x) l +
    (cell s (RbNode.on .left P c' (some tmp) (pathTop q (top t))) +
      (cell x (RbNode.on .left (up p) c (top l) (top t')) + (pathCellsFrom (some s) q (top t) +
        (treeCells (some s) t + (pathCells p (some x) + F)))))) (by ac_rfl)).foster s
  have hx := (h₂.to (N := cell x (RbNode.on .left (up p) c (top l) (top t')) +
    (cell s (RbNode.on .left P c' (some tmp) (pathTop q (top t))) + (treeCells (some s) l +
      (pathCellsFrom (some s) q (top t) + (treeCells (some s) t + (pathCells p (some x) + F))))))
    (by ac_rfl)).get
  have h₃ := (h₂.to (N := pathCells p (some x) +
    (cell x (RbNode.on .left (up p) c (top l) (top t')) +
    (cell s (RbNode.on .left P c' (some tmp) (pathTop q (top t))) + (treeCells (some s) l +
      (pathCellsFrom (some s) q (top t) + (treeCells (some s) t + F)))))) (by ac_rfl)).rbChangeChild
        (some s)
  have hs := h₃.to (N := cell s (RbNode.on .left P c' (some tmp) (pathTop q (top t))) +
    (pathCells p (some s) + (cell x (RbNode.on .left (up p) c (top l) (top t')) +
      (treeCells (some s) l +
      (pathCellsFrom (some s) q (top t) + (treeCells (some s) t + F)))))) (by ac_rfl)
  -- the node itself is not written to, so its parent and color can still be read
  have h₄ := hs.rbSetParentColor (up p) c
  rw [htmp] at hx h₄ hs
  have hput (child2 : Option α) : RbTree.putSuccessor r x tmp k s child2 =
      let r := ((r.setChild .left s (some tmp)).foster (some tmp) s).rbChangeChild x (some s) (up p)
      match child2 with
      | some y => ((r.rbSetParentColor s (up p) c).rbSetParentColor y (some k) .black, none)
      | none =>
        (r.rbSetParentColor s (up p) c, if (r.mem s).color = .black then some k else none) := by
    simp only [RbTree.putSuccessor, copyWord]
    have hword : ((r.setChild .left s (some tmp)).rbSetParent tmp (some s)).mem x = _ := hx
    rw [hword]
    rfl
  have hcells : pathCells (q ++ ⟨.right, c, s, l⟩ :: p) (top t) = pathCellsFrom (some s) q (top t) +
      (cell s (RbNode.on .left (up p) c (some tmp) (pathTop q (top t))) + treeCells (some s) l +
        pathCells p (some s)) := by
    rw [pathCells_append, pathCells, ← htmp]
    rfl
  unfold Shows
  rw [top_paint, pathTop_append, up_append, hk, hcells, hput]
  cases t with
  | nil =>
    refine ⟨_, ?_, h₄.to ?_⟩
    · simp only [top_nil, hs.get, RbNode.color_on, RbTree.rebalance, up_append, hk]
    · simp only [RedBlack.Tree.paint, treeCells, htmp]
      ac_rfl
  | node d a y b =>
    have hblack := ht (by simp)
    have h₅ := (h₄.to (N := treeCells (some s) (.node d a y b) +
      (cell s (RbNode.on .left (up p) c (some tmp) (pathTop q (some y))) + (pathCells p (some s) +
        (cell x (RbNode.on .left (up p) c (some tmp) (top t')) + (treeCells (some s) l +
          (pathCellsFrom (some s) q (some y) + F)))))) (by
        simp only [top_node]
        ac_rfl)).repaint rfl (some k) .black
    refine ⟨_, rfl, h₅.to ?_⟩
    rw [hblack, htmp]
    simp only [top_node]
    ac_rfl

/-- The removal of a node in memory is its removal from the tree. -/
theorem Shows.rbErase (h : Shows r p (.node c l x t') F) (hp : Fits p e n)
    (hbal : Balanced (.node c l x t') e n)
    (hturns : p.length + (RedBlack.Tree.node c l x t').depth ≤ turns) :
    ∃ r', RbTree.rbErase turns r x = some r' ∧
      Shows r' [] (erase p c l t') (cell x (r.mem x) + F) := by
  rw [RedBlack.Tree.depth] at hturns
  cases l with
  | nil =>
    obtain ⟨r', hrun, hshows⟩ := h.erase_right
    exact hshows.rebalance .left hp hbal (by omega) hrun
  | node d a y b =>
    cases hsome : leftmost t' [] with
    | none =>
      rw [leftmost_eq_none] at hsome
      subst hsome
      obtain ⟨r', hrun, hshows⟩ := h.erase_left rfl
      exact hshows.rebalance .right hp hbal (by omega) hrun
    | some v =>
      obtain ⟨q, c', s, t⟩ := v
      obtain ⟨child, hchild⟩ : ∃ child, top t' = some child := by
        cases t' with
        | nil => cases hsome
        | node d' a' child b' => exact ⟨child, rfl⟩
      obtain ⟨e', n', hfits, hnode⟩ := hp.leftmost hbal hsome
      obtain ⟨r₁, k, P, htake, hk, hholds⟩ := h.takeSuccessor hsome hchild (show _ ≤ turns by omega)
      have hleft : Balanced (.on .left c' .nil s t) e' n' := hnode
      obtain ⟨r', hput, hshows⟩ := hholds.putSuccessor rfl hk fun hne => (hleft.only_child hne).1
      have hrun := rbEraseAugmented_both h.node.child (h.node.child_other.trans hchild) htake
      have hlength : (q ++ ⟨.right, c, s, .node d a y b⟩ :: p).length ≤ turns := by
        have hq := RedBlack.Path.length_add_depth_le q (.node c' .nil s t)
        rw [(leftmost_spec hsome).1, RedBlack.Path.fill_nil] at hq
        simp only [List.length_append, List.length_cons]
        omega
      rw [hput] at hrun
      have herase : erase p c (.node d a y b) t' =
          splice (q ++ ⟨.right, c, s, .node d a y b⟩ :: p) c' t := by
        simp only [erase, hsome]
      rw [h.node.get, herase]
      exact hshows.rebalance .left hfits hnode hlength hrun

/-- A node leaves a red-black tree. -/
theorem Stands.erase (h : Stands r (RedBlack.Path.fill p (.node c l x t)) F)
    (hturns : 2 * Nat.log 2 ((RedBlack.Path.fill p (.node c l x t)).keys.length + 1) ≤ turns) :
    ∃ r' t', RbTree.rbErase turns r x = some r' ∧ Stands r' t' (cell x (r.mem x) + F) ∧
      t'.keys = p.before ++ (l.keys ++ t.keys) ++ p.after := by
  obtain ⟨m, hbal⟩ := h.balanced
  obtain ⟨e, n, hp, hnode⟩ := exists_fits hbal
  have hdepth := (RedBlack.Path.length_add_depth_le p _).trans (hbal.depth_le_log.trans hturns)
  obtain ⟨r', hrun, hshows⟩ := (shows_fill.mpr h.shows).rbErase hp hnode hdepth
  exact ⟨r', _, hrun, ⟨hshows, hp.erase hnode⟩, keys_erase p c l t⟩

end Erase

end SuperExe.Core.RbTree