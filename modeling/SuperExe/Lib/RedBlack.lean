import Mathlib.Algebra.Group.Nat.Defs
import Mathlib.Data.Nat.Log
import Mathlib.Tactic.Common

/-! # Red-black trees with a hole

A tree is cut in two at one of its places: the path from the place up to the root,
and the subtree below it. What an insertion or a removal disturbs is then mended by
a walk up the path, `insertColor` and `eraseColor`. Both sides of a node are treated
alike: `Tree.on` builds a node as it is seen from one side.

`Fits p c n` says that the path `p` has a hole for a subtree of the color `c` and the
black height `n`. `Fits.insertColor` and `Fits.eraseColor` say that the walks
end with a red-black tree, `keys_insertColor` and `keys_eraseColor` that no key moves,
and `Balanced.depth_le_log` that no node lies deeper than twice the logarithm of their
number.
-/

namespace SuperExe.Lib.RedBlack

universe u

inductive Color where
  | red
  | black
deriving DecidableEq, Repr

theorem Color.eq_black_of_ne {c : Color} (h : c ≠ .red) : c = .black := by
  cases c with
  | red => exact absurd rfl h
  | black => rfl

theorem Color.eq_red_of_ne {c : Color} (h : c ≠ .black) : c = .red := by
  cases c with
  | red => rfl
  | black => exact absurd rfl h

inductive Side where
  | left
  | right
deriving DecidableEq, Repr

namespace Side

def other : Side → Side
  | .left => .right
  | .right => .left

/-- The one of two that is on this side. -/
def pick {β : Type u} (s : Side) (l r : β) : β :=
  match s with
  | .left => l
  | .right => r

theorem ne_iff {s t : Side} : s ≠ t ↔ s = t.other := by
  cases s <;> cases t <;> decide

end Side

inductive Tree (α : Type u) where
  | nil
  | node (color : Color) (left : Tree α) (key : α) (right : Tree α)

variable {α : Type u}

namespace Tree

/-- A node seen from one side: the child on that side comes first. -/
def on (s : Side) (c : Color) (near : Tree α) (x : α) (far : Tree α) : Tree α :=
  match s with
  | .left => .node c near x far
  | .right => .node c far x near

/-- The keys in order. -/
def keys : Tree α → List α
  | .nil => []
  | .node _ l x r => l.keys ++ x :: r.keys

def color : Tree α → Color
  | .nil => .black
  | .node c _ _ _ => c

/-- Another color for the root. -/
def paint (c : Color) : Tree α → Tree α
  | .nil => .nil
  | .node _ l x r => .node c l x r

/-- The longest way down. -/
def depth : Tree α → Nat
  | .nil => 0
  | .node _ l _ r => max l.depth r.depth + 1

@[simp] theorem keys_nil : (nil : Tree α).keys = [] := rfl

@[simp] theorem keys_node (c : Color) (l : Tree α) (x : α) (r : Tree α) :
    (node c l x r).keys = l.keys ++ x :: r.keys := rfl

@[simp] theorem keys_paint (c : Color) (t : Tree α) : (t.paint c).keys = t.keys := by
  cases t <;> rfl

@[simp] theorem color_on (s : Side) (c : Color) (near : Tree α) (x : α) (far : Tree α) :
    (on s c near x far).color = c := by
  cases s <;> rfl

@[simp] theorem paint_color (t : Tree α) : t.paint t.color = t := by
  cases t <;> rfl

/-- Every node can be seen from either side. -/
theorem on_pick (s : Side) (c : Color) (l : Tree α) (x : α) (r : Tree α) :
    on s c (s.pick l r) x (s.other.pick l r) = .node c l x r := by
  cases s <;> rfl

theorem keys_on (s : Side) (c : Color) (near : Tree α) (x : α) (far : Tree α) :
    (on s c near x far).keys =
      s.pick (near.keys ++ x :: far.keys) (far.keys ++ x :: near.keys) := by
  cases s <;> rfl

end Tree

/-! ## Balance -/

/-- The color of the root and the number of black nodes on every way down. -/
inductive Balanced : Tree α → Color → Nat → Prop
  | nil : Balanced .nil .black 0
  | red {l r : Tree α} {x : α} {n : Nat} : Balanced l .black n → Balanced r .black n →
      Balanced (.node .red l x r) .red n
  | black {l r : Tree α} {x : α} {c d : Color} {n : Nat} : Balanced l c n → Balanced r d n →
      Balanced (.node .black l x r) .black (n + 1)

section Balance

variable {s : Side} {t near far : Tree α} {x : α} {c d : Color} {n : Nat}

theorem Balanced.color_eq (h : Balanced t c n) : t.color = c := by
  cases h <;> rfl

theorem Balanced.on_red (hnear : Balanced near .black n) (hfar : Balanced far .black n) :
    Balanced (.on s .red near x far) .red n := by
  cases s with
  | left => exact .red hnear hfar
  | right => exact .red hfar hnear

theorem Balanced.on_black (hnear : Balanced near c n) (hfar : Balanced far d n) :
    Balanced (.on s .black near x far) .black (n + 1) := by
  cases s with
  | left => exact .black hnear hfar
  | right => exact .black hfar hnear

theorem Balanced.of_on_red (h : Balanced (.on s .red near x far) c n) :
    c = .red ∧ Balanced near .black n ∧ Balanced far .black n := by
  cases s with
  | left => cases h with | red hl hr => exact ⟨rfl, hl, hr⟩
  | right => cases h with | red hl hr => exact ⟨rfl, hr, hl⟩

theorem Balanced.of_on_black (h : Balanced (.on s .black near x far) c n) :
    c = .black ∧ ∃ m a b, n = m + 1 ∧ Balanced near a m ∧ Balanced far b m := by
  cases s with
  | left => cases h with | black hl hr => exact ⟨rfl, _, _, _, rfl, hl, hr⟩
  | right => cases h with | black hl hr => exact ⟨rfl, _, _, _, rfl, hr, hl⟩

theorem Balanced.pick {l r : Tree α} (hl : Balanced l c n) (hr : Balanced r c n) (s : Side) :
    Balanced (s.pick l r) c n := by
  cases s with
  | left => exact hl
  | right => exact hr

/-- A red root may become black. -/
theorem Balanced.paint_black (h : Balanced t c n) : ∃ m, Balanced (t.paint .black) .black m := by
  cases h with
  | nil => exact ⟨0, .nil⟩
  | red hl hr => exact ⟨_, .black hl hr⟩
  | black hl hr => exact ⟨_, .black hl hr⟩

theorem Balanced.paint_red (h : Balanced t .red n) : Balanced (t.paint .black) .black (n + 1) := by
  cases h with
  | red hl hr => exact .black hl hr

/-- With `n` black nodes on every way down there are no more than as many red ones,
and one more at a red root. -/
theorem Balanced.depth_le (h : Balanced t c n) :
    t.depth ≤ 2 * n + if c = .red then 1 else 0 := by
  induction h with
  | nil => exact Nat.zero_le _
  | red _ _ ihl ihr =>
    simp only [Tree.depth, if_true, reduceCtorEq, if_false] at ihl ihr ⊢
    omega
  | @black l r x c d n _ _ ihl ihr =>
    have hone : ∀ c : Color, (if c = .red then 1 else 0) ≤ 1 := by
      intro c
      split <;> omega
    have hc := hone c
    have hd := hone d
    simp only [Tree.depth, reduceCtorEq, if_false]
    omega

theorem Balanced.pow_le (h : Balanced t c n) : 2 ^ n ≤ t.keys.length + 1 := by
  induction h with
  | nil => simp
  | red _ _ ihl ihr =>
    simp only [Tree.keys_node, List.length_append, List.length_cons]
    omega
  | black _ _ ihl ihr =>
    simp only [Tree.keys_node, List.length_append, List.length_cons, Nat.pow_succ]
    omega

/-- No node lies deeper than twice the logarithm of the number of nodes. -/
theorem Balanced.depth_le_log (h : Balanced t .black n) :
    t.depth ≤ 2 * Nat.log 2 (t.keys.length + 1) := by
  have hdepth := h.depth_le
  have hlog : n ≤ Nat.log 2 (t.keys.length + 1) := Nat.le_log_of_pow_le (by omega) h.pow_le
  simp only [reduceCtorEq, if_false] at hdepth
  omega

end Balance

/-! ## Paths -/

/-- A node above the hole: the side of the hole and the other child. -/
structure Frame (α : Type u) where
  side : Side
  color : Color
  key : α
  far : Tree α

/-- The path from the hole up to the root. -/
abbrev Path (α : Type u) := List (Frame α)

namespace Path

/-- The tree with `t` in the hole. -/
def fill : Path α → Tree α → Tree α
  | [], t => t
  | f :: p, t => fill p (.on f.side f.color t f.key f.far)

@[simp] theorem fill_nil (t : Tree α) : fill [] t = t := rfl

@[simp] theorem fill_cons (f : Frame α) (p : Path α) (t : Tree α) :
    fill (f :: p) t = fill p (.on f.side f.color t f.key f.far) := rfl

theorem fill_append (p q : Path α) (t : Tree α) : fill (p ++ q) t = fill q (fill p t) := by
  induction p generalizing t with
  | nil => rfl
  | cons f p ih => exact ih _

/-- The keys that come before the hole. -/
def before : Path α → List α
  | [] => []
  | f :: p => before p ++ f.side.pick [] (f.far.keys ++ [f.key])

/-- The keys that come behind the hole. -/
def after : Path α → List α
  | [] => []
  | f :: p => f.side.pick (f.key :: f.far.keys) [] ++ after p

theorem keys_fill (p : Path α) (t : Tree α) :
    (fill p t).keys = before p ++ t.keys ++ after p := by
  induction p generalizing t with
  | nil => simp [before, after]
  | cons f p ih =>
    rw [fill_cons, ih, Tree.keys_on]
    cases hside : f.side <;> simp [before, after, Side.pick, hside]

/-- What has the same keys can stand in the hole. -/
theorem keys_fill_congr (p : Path α) {t t' : Tree α} (h : t.keys = t'.keys) :
    (fill p t).keys = (fill p t').keys := by
  rw [keys_fill, keys_fill, h]

/-- A key stands at a place of the tree. -/
theorem exists_fill {t : Tree α} {x : α} (h : x ∈ t.keys) :
    ∃ p c l r, t = fill p (.node c l x r) := by
  induction t with
  | nil => cases h
  | node c l y r ihl ihr =>
    rw [Tree.keys_node, List.mem_append, List.mem_cons] at h
    rcases h with h | rfl | h
    · obtain ⟨p, c', l', r', rfl⟩ := ihl h
      exact ⟨p ++ [⟨.left, c, y, r⟩], c', l', r', by rw [fill_append]; rfl⟩
    · exact ⟨[], c, l, r, rfl⟩
    · obtain ⟨p, c', l', r', rfl⟩ := ihr h
      exact ⟨p ++ [⟨.right, c, y, l⟩], c', l', r', by rw [fill_append]; rfl⟩

/-- Every way down from the hole is part of a way down the tree. -/
theorem length_add_depth_le (p : Path α) (t : Tree α) : p.length + t.depth ≤ (fill p t).depth := by
  induction p generalizing t with
  | nil => simp
  | cons f p ih =>
    have hdepth := ih (.on f.side f.color t f.key f.far)
    have hon : t.depth + 1 ≤ (Tree.on f.side f.color t f.key f.far).depth := by
      cases f.side with
      | left => exact Nat.succ_le_succ (Nat.le_max_left ..)
      | right => exact Nat.succ_le_succ (Nat.le_max_right ..)
    simp only [fill_cons, List.length_cons]
    omega

end Path

open SuperExe.Lib.RedBlack.Path

/-- The path has a hole for a subtree of this color and black height. -/
inductive Fits : Path α → Color → Nat → Prop
  | nil {n : Nat} : Fits [] .black n
  | red {s : Side} {x : α} {far : Tree α} {p : Path α} {n : Nat} :
      Balanced far .black n → Fits p .red n → Fits (⟨s, .red, x, far⟩ :: p) .black n
  | black {s : Side} {x : α} {far : Tree α} {p : Path α} {c d : Color} {n : Nat} :
      Balanced far d n → Fits p .black (n + 1) → Fits (⟨s, .black, x, far⟩ :: p) c n

section Fits

variable {p : Path α} {t : Tree α} {c : Color} {n m : Nat}

theorem Fits.fill (hp : Fits p c n) (ht : Balanced t c n) : ∃ m, Balanced (fill p t) .black m := by
  induction hp generalizing t with
  | nil => exact ⟨_, ht⟩
  | red hfar _ ih => exact ih (.on_red ht hfar)
  | black hfar _ ih => exact ih (.on_black ht hfar)

/-- A red-black tree can be cut at every place. -/
theorem exists_fits (h : Balanced (Path.fill p t) .black m) : ∃ c n, Fits p c n ∧ Balanced t c n := by
  induction p generalizing t with
  | nil => exact ⟨_, _, .nil, h⟩
  | cons f p ih =>
    obtain ⟨s, color, x, far⟩ := f
    obtain ⟨c, n, hp, ht⟩ := ih h
    cases color with
    | red =>
      obtain ⟨rfl, hnear, hfar⟩ := ht.of_on_red
      exact ⟨_, _, .red hfar hp, hnear⟩
    | black =>
      obtain ⟨rfl, k, a, b, rfl, hnear, hfar⟩ := ht.of_on_black
      exact ⟨_, _, .black hfar hp, hnear⟩

/-- Where a red subtree fits, a black one does. -/
theorem Fits.of_red (h : Fits p .red n) : Fits p .black n := by
  cases h with
  | black hfar hp => exact .black hfar hp

/-- Above a red parent there is a black node, which has the other child `g.far`. -/
theorem Fits.grandparent {f g : Frame α} {rest : Path α} (h : Fits (f :: g :: rest) .black n)
    (hf : f.color ≠ .black) :
    Balanced f.far .black n ∧ Balanced g.far g.far.color n ∧ Fits rest .black (n + 1) := by
  cases h with
  | black => exact absurd rfl hf
  | red hfar hg =>
    cases hg with
    | black hgfar hrest =>
      rw [hgfar.color_eq]
      exact ⟨hfar, hgfar, hrest⟩

end Fits

/-! ## Insertion -/

/-- The rotation at a red subtree `t` under the red `p` and the black `g`. -/
def insertRotate (p g : Frame α) (t : Tree α) : Tree α :=
  if p.side = g.side then .on g.side .black t p.key (.on g.side .red p.far g.key g.far)
  else
    match t with
    | .nil => .on g.side g.color (.on p.side p.color .nil p.key p.far) g.key g.far
    | .node _ l x r =>
      .on g.side .black (.on g.side .red p.far p.key (g.side.pick l r)) x
        (.on g.side .red (g.side.other.pick l r) g.key g.far)

/-- The walk up from a red subtree `t` that may have a red parent. -/
def insertColor : Path α → Tree α → Tree α
  | [], t => t.paint .black
  | [p], t => fill [p] t
  | p :: g :: rest, t =>
    if p.color = .black then fill (p :: g :: rest) t
    else if g.far.color = .red then
      insertColor rest
        (.on g.side .red (.on p.side .black t p.key p.far) g.key (g.far.paint .black))
    else fill rest (insertRotate p g t)

theorem keys_insertRotate (p g : Frame α) (t : Tree α) :
    (insertRotate p g t).keys =
      (Tree.on g.side g.color (.on p.side p.color t p.key p.far) g.key g.far).keys := by
  unfold insertRotate
  split
  · next hside =>
    rw [hside]
    cases g.side <;> simp [Tree.keys_on, Side.pick]
  · next hside =>
    split
    · rfl
    · rw [Side.ne_iff.mp hside]
      cases g.side <;> simp [Tree.keys_on, Side.pick, Side.other]

/-- No key moves. -/
theorem keys_insertColor (p : Path α) (t : Tree α) :
    (insertColor p t).keys = (fill p t).keys := by
  induction p, t using insertColor.induct with
  | case1 t => simp [insertColor]
  | case2 t p => simp [insertColor]
  | case3 p g rest t hblack => simp [insertColor, hblack]
  | case4 p g rest t hblack hred ih =>
    rw [insertColor, if_neg hblack, if_pos hred, ih]
    refine keys_fill_congr rest ?_
    simp [Tree.keys_on]
  | case5 p g rest t hblack hred =>
    rw [insertColor, if_neg hblack, if_neg hred]
    exact keys_fill_congr rest (keys_insertRotate p g t)

/-- Two red nodes in a row are parted. -/
theorem Balanced.insertRotate {p g : Frame α} {t : Tree α} {n : Nat} (ht : Balanced t .red n)
    (hp : Balanced p.far .black n) (hg : Balanced g.far .black n) :
    Balanced (insertRotate p g t) .black (n + 1) := by
  unfold RedBlack.insertRotate
  split
  · exact .on_black ht (.on_red hp hg)
  · cases ht with
    | red hl hr => exact .on_black (.on_red hp (hl.pick hr _)) (.on_red (hl.pick hr _) hg)

/-- The walk ends with a red-black tree. -/
theorem Fits.insertColor {p : Path α} {t : Tree α} {n : Nat} (hp : Fits p .black n)
    (ht : Balanced t .red n) : ∃ m, Balanced (insertColor p t) .black m := by
  induction p, t using RedBlack.insertColor.induct generalizing n with
  | case1 t => exact ht.paint_black
  | case2 t p =>
    -- a red root has no hole for a black subtree
    cases hp with
    | red hfar hnil => cases hnil
    | black hfar hnil => exact ⟨_, .on_black ht hfar⟩
  | case3 p g rest t hblack =>
    rw [RedBlack.insertColor, if_pos hblack]
    cases hp with
    | red => cases hblack
    | black hfar hrest => exact Fits.fill (.black hfar hrest) ht
  | case4 p g rest t hblack hred ih =>
    rw [RedBlack.insertColor, if_neg hblack, if_pos hred]
    obtain ⟨hpfar, hgfar, hrest⟩ := hp.grandparent hblack
    rw [hred] at hgfar
    exact ih hrest (.on_red (.on_black ht hpfar) hgfar.paint_red)
  | case5 p g rest t hblack hred =>
    rw [RedBlack.insertColor, if_neg hblack, if_neg hred]
    obtain ⟨hpfar, hgfar, hrest⟩ := hp.grandparent hblack
    rw [Color.eq_black_of_ne hred] at hgfar
    exact hrest.fill (ht.insertRotate hpfar hgfar)

/-! ## Removal -/

/-- One turn at the parent of a subtree `t` that is one black node short, whose other
child is `on f.side .black a y b`: the new subtree, and whether it is not short. -/
def eraseMend (f : Frame α) (t a : Tree α) (y : α) (b : Tree α) : Tree α × Bool :=
  if b.color = .black then
    match a with
    | .node .red l z r =>
      (.on f.side f.color (.on f.side .black t f.key (f.side.pick l r)) z
        (.on f.side .black (f.side.other.pick l r) y b), true)
    | a => (.on f.side .black t f.key (.on f.side .red a y b), f.color = .red)
  else (.on f.side f.color (.on f.side .black t f.key a) y (b.paint .black), true)

/-- The walk up from a subtree `t` that is one black node short. -/
def eraseColor : Path α → Tree α → Tree α
  | [], t => t
  | f :: p, t =>
    match f.far with
    | .nil => fill (f :: p) t
    | .node .black l y r =>
      let turn := eraseMend f t (f.side.pick l r) y (f.side.other.pick l r)
      if turn.2 then fill p turn.1 else eraseColor p turn.1
    | .node .red l y r =>
      -- the red child goes up, and its near child is the new brother
      match f.side.pick l r with
      | .nil => fill (f :: p) t
      | .node _ l' y' r' =>
        fill (⟨f.side, f.color, y, f.side.other.pick l r⟩ :: p)
          (eraseMend ⟨f.side, .red, f.key, f.side.pick l r⟩ t (f.side.pick l' r') y'
            (f.side.other.pick l' r')).1

theorem keys_eraseMend (f : Frame α) (t a : Tree α) (y : α) (b : Tree α) :
    (eraseMend f t a y b).1.keys =
      (Tree.on f.side f.color t f.key (.on f.side .black a y b)).keys := by
  unfold eraseMend
  split
  · split
    · cases f.side <;> simp [Tree.keys_on, Side.pick, Side.other]
    · cases f.side <;> simp [Tree.keys_on, Side.pick]
  · cases f.side <;> simp [Tree.keys_on, Side.pick]

/-- No key moves. -/
theorem keys_eraseColor (p : Path α) (t : Tree α) :
    (eraseColor p t).keys = (fill p t).keys := by
  induction p generalizing t with
  | nil => rfl
  | cons f p ih =>
    unfold eraseColor
    split
    · rfl
    · next l y r hfar =>
      have hturn : (fill p (eraseMend f t (f.side.pick l r) y (f.side.other.pick l r)).1).keys =
          (fill (f :: p) t).keys := by
        rw [fill_cons, hfar]
        refine keys_fill_congr p ?_
        rw [keys_eraseMend, Tree.on_pick]
      simp only
      split
      · exact hturn
      · rw [ih, hturn]
    · next l y r hfar =>
      split
      · rfl
      · next l' y' r' hnear =>
        rw [fill_cons, fill_cons, hfar]
        refine keys_fill_congr p ?_
        rw [← Tree.on_pick f.side .red l y r, hnear]
        simp only [Tree.keys_on, keys_eraseMend]
        cases f.side <;> simp [Side.pick, Side.other]

section Erase

variable {p : Path α} {f : Frame α} {t a b : Tree α} {y : α} {c d : Color} {n : Nat}

/-- What is asked of the tree at a frame whose hole takes black height `n + 1`. -/
theorem Fits.frame (hp : Fits (f :: p) .black (n + 1)) :
    f.color = .red ∧ Fits p .red (n + 1) ∨ f.color = .black ∧ Fits p .black (n + 2) := by
  cases hp with
  | red _ hrest => exact .inl ⟨rfl, hrest⟩
  | black _ hrest => exact .inr ⟨rfl, hrest⟩

/-- What stands beside a hole for a black subtree. -/
theorem Fits.far (hp : Fits (f :: p) .black n) :
    ∃ d, Balanced f.far d n ∧ (f.color = .red → d = .black) := by
  cases hp with
  | red hfar _ => exact ⟨_, hfar, fun _ => rfl⟩
  | black hfar _ => exact ⟨_, hfar, fun h => absurd h (by simp)⟩

/-- A turn mends the tree, or leaves a tree one black node short to the parent. -/
theorem eraseMend_spec
    (hp : f.color = .red ∧ Fits p .red (n + 1) ∨ f.color = .black ∧ Fits p .black (n + 2))
    (ht : Balanced t .black n) (ha : Balanced a c n) (hb : Balanced b d n) :
    ((eraseMend f t a y b).2 = true →
      ∃ e k, Fits p e k ∧ Balanced (eraseMend f t a y b).1 e k) ∧
    ((eraseMend f t a y b).2 = false →
      f.color = .black ∧ Fits p .black (n + 2) ∧ Balanced (eraseMend f t a y b).1 .black (n + 1)) := by
  -- a node of the parent's color over two black subtrees
  have hroot : ∀ {l r : Tree α} {x : α}, Balanced l .black (n + 1) → Balanced r .black (n + 1) →
      ∃ e k, Fits p e k ∧ Balanced (.on f.side f.color l x r) e k := by
    intro l r x hl hr
    rcases hp with ⟨hcolor, hp⟩ | ⟨hcolor, hp⟩
    · rw [hcolor]
      exact ⟨_, _, hp, .on_red hl hr⟩
    · rw [hcolor]
      exact ⟨_, _, hp, .on_black hl hr⟩
  unfold eraseMend
  split
  · next hbcolor =>
    have hd : d = .black := hb.color_eq.symm.trans hbcolor
    subst hd
    split
    · next l z r =>
      cases ha with
      | red hl hr =>
        refine ⟨fun _ => hroot (.on_black ht (hl.pick hr _)) (.on_black (hl.pick hr _) hb), ?_⟩
        intro hfalse
        cases hfalse
    · next hred =>
      have hc : c = .black := by
        refine Color.eq_black_of_ne ?_
        rintro rfl
        cases ha with
        | red => exact hred _ _ _ rfl
      subst hc
      have hflip : Balanced (.on f.side .black t f.key (.on f.side .red a y b)) .black (n + 1) :=
        .on_black ht (.on_red ha hb)
      constructor
      · intro hdone
        rcases hp with ⟨-, hp⟩ | ⟨hcolor, -⟩
        · exact ⟨_, _, hp.of_red, hflip⟩
        · simp [hcolor] at hdone
      · intro hshort
        rcases hp with ⟨hcolor, -⟩ | ⟨hcolor, hp⟩
        · simp [hcolor] at hshort
        · exact ⟨hcolor, hp, hflip⟩
  · next hbcolor =>
    have hd : d = .red := hb.color_eq.symm.trans (Color.eq_red_of_ne hbcolor)
    subst hd
    refine ⟨fun _ => hroot (.on_black ht ha) hb.paint_red, ?_⟩
    intro hfalse
    cases hfalse

/-- Both children of a black node, seen from one side. -/
theorem Balanced.children {l r : Tree α} {x : α} (h : Balanced (.node .black l x r) c (n + 1))
    (s : Side) : ∃ a b, Balanced (s.pick l r) a n ∧ Balanced (s.other.pick l r) b n := by
  cases h with
  | black hl hr =>
    cases s with
    | left => exact ⟨_, _, hl, hr⟩
    | right => exact ⟨_, _, hr, hl⟩

/-- The walk ends with a red-black tree. -/
theorem Fits.eraseColor (hp : Fits p .black (n + 1)) (ht : Balanced t .black n) :
    ∃ m, Balanced (eraseColor p t) .black m := by
  induction p generalizing t n with
  | nil => exact ⟨_, ht⟩
  | cons f p ih =>
    have hframe := hp.frame
    obtain ⟨d, hfar, hred⟩ := hp.far
    unfold RedBlack.eraseColor
    split
    · next hnil =>
      rw [hnil] at hfar
      cases hfar
    · next l y r heq =>
      rw [heq] at hfar
      obtain ⟨a, b, hnear, hother⟩ := hfar.children f.side
      obtain ⟨hdone, hshort⟩ := eraseMend_spec hframe ht hnear hother (y := y)
      simp only
      split
      · next hturn =>
        obtain ⟨e, k, hfits, hbal⟩ := hdone hturn
        exact hfits.fill hbal
      · next hturn =>
        obtain ⟨-, hfits, hbal⟩ := hshort (by simpa using hturn)
        exact ih hfits hbal
    · next l y r heq =>
      rw [heq] at hfar
      -- the parent of a red node is black
      have hblack : f.color = .black := by
        refine Color.eq_black_of_ne fun hcolor => ?_
        rw [hred hcolor] at hfar
        cases hfar
      have hrest : Fits p .black (n + 2) := by
        rcases hframe with ⟨hcolor, -⟩ | ⟨-, hrest⟩
        · rw [hblack] at hcolor
          cases hcolor
        · exact hrest
      cases hfar with
      | red hl hr =>
        have hnear := hl.pick hr f.side
        have hother := hl.pick hr f.side.other
        split
        · next hnil =>
          rw [hnil] at hnear
          cases hnear
        · next c' l' y' r' heq' =>
          have hc' := (heq' ▸ hnear).color_eq
          simp only [Tree.color] at hc'
          subst hc'
          rw [heq'] at hnear
          obtain ⟨a, b, hnear', hother'⟩ := hnear.children f.side
          have hfits : Fits (⟨f.side, f.color, y, f.side.other.pick l r⟩ :: p) .red (n + 1) := by
            rw [hblack]
            exact .black hother hrest
          obtain ⟨hdone, hshort⟩ := eraseMend_spec
            (f := ⟨f.side, .red, f.key, f.side.pick l r⟩) (y := y') (.inl ⟨rfl, hfits⟩) ht
            hnear' hother'
          cases hturn : (eraseMend ⟨f.side, .red, f.key, f.side.pick l r⟩ t (f.side.pick l' r') y'
            (f.side.other.pick l' r')).2 with
          | false => cases (hshort hturn).1
          | true =>
            obtain ⟨e, k, hfits, hbal⟩ := hdone hturn
            exact hfits.fill hbal

end Erase

/-- The leftmost node of a tree: the path down to it, its color, its key and its
right child. -/
def leftmost : Tree α → Path α → Option (Path α × Color × α × Tree α)
  | .nil, _ => none
  | .node c .nil x r, p => some (p, c, x, r)
  | .node c (.node c' l' x' r') x r, p =>
    leftmost (.node c' l' x' r') (⟨.left, c, x, r⟩ :: p)

/-- A node of the color `c` with at most this child is taken out of the hole of `p`. -/
def splice (p : Path α) (c : Color) (child : Tree α) : Tree α :=
  match child with
  | .nil => if c = .black then eraseColor p .nil else fill p .nil
  | .node _ l x r => fill p (.node c l x r)

/-- A node of the color `c` with these children is taken out of the hole of `p`. One
with two children leaves its place and its color to its successor. -/
def erase (p : Path α) (c : Color) (l r : Tree α) : Tree α :=
  match l, leftmost r [] with
  | .nil, _ => splice p c r
  | l, none => splice p c l
  | l, some (q, c', s, r') => splice (q ++ ⟨.right, c, s, l⟩ :: p) c' r'

section Leftmost

variable {p q : Path α} {t l r : Tree α} {c c' : Color} {s : α} {n : Nat}

theorem leftmost_eq_none : leftmost t p = none ↔ t = .nil := by
  induction t, p using leftmost.induct with
  | case1 p => simp [leftmost]
  | case2 c x r p => simp [leftmost]
  | case3 c c' l' x' r' x r p ih => simpa [leftmost] using ih

/-- The path leads to a node without a left child, and no key is left of it. -/
theorem leftmost_spec (h : leftmost t p = some (q, c', s, r)) :
    fill q (.node c' .nil s r) = fill p t ∧ before q = before p := by
  induction t, p using leftmost.induct with
  | case1 p => simp [leftmost] at h
  | case2 c x r p =>
    simp only [leftmost, Option.some.injEq, Prod.mk.injEq] at h
    obtain ⟨rfl, rfl, rfl, rfl⟩ := h
    exact ⟨rfl, rfl⟩
  | case3 c c' l' x' r' x r p ih =>
    rw [leftmost] at h
    obtain ⟨hfill, hbefore⟩ := ih h
    refine ⟨by rw [hfill]; rfl, ?_⟩
    rw [hbefore]
    simp [before, Side.pick]

theorem keys_splice (p : Path α) (c : Color) (child : Tree α) :
    (splice p c child).keys = (fill p child).keys := by
  unfold splice
  split
  · split
    · exact keys_eraseColor p .nil
    · rfl
  · exact keys_fill_congr p rfl

/-- All keys stay but the one taken out. -/
theorem keys_erase (p : Path α) (c : Color) (l r : Tree α) :
    (erase p c l r).keys = before p ++ (l.keys ++ r.keys) ++ after p := by
  unfold erase
  split
  · rw [keys_splice, keys_fill, Tree.keys_nil, List.nil_append]
  · next hnone =>
    rw [leftmost_eq_none.mp hnone, keys_splice, keys_fill, Tree.keys_nil, List.append_nil]
  · next l _ _ q c' s r' _ hsome =>
    obtain ⟨hfill, hbefore⟩ := leftmost_spec hsome
    have hkeys : s :: (fill q r').keys = r.keys := by
      have := congrArg Tree.keys hfill
      rw [keys_fill, fill_nil, hbefore] at this
      rw [← this, keys_fill, hbefore]
      simp [before]
    rw [keys_splice, fill_append, fill_cons, keys_fill, Tree.keys_on, ← hkeys]
    simp [Side.pick]

/-- An only child is red, and its parent is black. -/
theorem Balanced.only_child {side : Side} {child : Tree α} {x : α} {e : Color}
    (h : Balanced (.on side c .nil x child) e n) (hne : child ≠ .nil) :
    c = .black ∧ e = .black ∧ n = 1 ∧ Balanced child .red 0 := by
  cases c with
  | red =>
    obtain ⟨-, hnil, hchild⟩ := h.of_on_red
    cases hnil
    cases hchild
    exact absurd rfl hne
  | black =>
    obtain ⟨he, m, a, b, hn, hnil, hchild⟩ := h.of_on_black
    cases hnil
    cases hchild with
    | nil => exact absurd rfl hne
    | red hl hr => exact ⟨rfl, he, hn, .red hl hr⟩

/-- A black node without children leaves a hole that is one black node short. -/
theorem Fits.of_leaf {side : Side} {x : α} {e : Color} (hp : Fits p e n)
    (h : Balanced (.on side .black .nil x .nil) e n) : Fits p .black 1 := by
  obtain ⟨rfl, m, a, b, rfl, hnil, -⟩ := h.of_on_black
  cases hnil
  exact hp

theorem Fits.splice (side : Side) {child : Tree α} {x : α} {e : Color} (hp : Fits p e n)
    (h : Balanced (.on side c .nil x child) e n) :
    ∃ m, Balanced (splice p c child) .black m := by
  unfold RedBlack.splice
  split
  · cases c with
    | red =>
      obtain ⟨rfl, hnil, -⟩ := h.of_on_red
      exact hp.of_red.fill hnil
    | black => exact (hp.of_leaf h).eraseColor .nil
  · next d l y r =>
    obtain ⟨rfl, rfl, rfl, hchild⟩ := h.only_child (by simp)
    exact hp.fill hchild.paint_red

/-- Only colors and children count for the balance. -/
theorem Balanced.rekey {x : α} {e : Color} (h : Balanced (.node c l x r) e n) (y : α) :
    Balanced (.node c l y r) e n := by
  cases h with
  | red hl hr => exact .red hl hr
  | black hl hr => exact .black hl hr

/-- The successor's place, when the successor stands for the node. -/
theorem Fits.leftmost {x : α} {e : Color} (hp : Fits p e n) (h : Balanced (.node c l x r) e n)
    (hsome : leftmost r [] = some (q, c', s, t)) :
    ∃ e' n', Fits (q ++ ⟨.right, c, s, l⟩ :: p) e' n' ∧ Balanced (.node c' .nil s t) e' n' := by
  obtain ⟨hfill, -⟩ := leftmost_spec hsome
  have hwhole : Path.fill (q ++ ⟨.right, c, s, l⟩ :: p) (.node c' .nil s t) =
      Path.fill p (.node c l s r) := by
    rw [fill_append, hfill]
    rfl
  obtain ⟨m, hbal⟩ := hp.fill (h.rekey s)
  rw [← hwhole] at hbal
  exact exists_fits hbal

/-- The tree without the node is a red-black tree. -/
theorem Fits.erase {x : α} {e : Color} (hp : Fits p e n) (h : Balanced (.node c l x r) e n) :
    ∃ m, Balanced (erase p c l r) .black m := by
  unfold RedBlack.erase
  split
  · exact hp.splice .left h
  · next hnone =>
    rw [leftmost_eq_none.mp hnone] at h
    exact hp.splice .right h
  · next l _ _ q c' s r' _ hsome =>
    obtain ⟨e', n', hfits, hnode⟩ := hp.leftmost h hsome
    exact hfits.splice .left hnode

end Leftmost

end SuperExe.Lib.RedBlack
