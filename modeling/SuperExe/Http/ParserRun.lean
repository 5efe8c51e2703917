import SuperExe.Http.Framing

/-! # Invariants of a parser that is called again and again

`feed_rule` is the rule for `feed`: what one turn of the loop keeps, and what it
gives when it answers, holds after any number of calls. The proofs about what an
accepted request looks like all have this shape.
-/

namespace SuperExe.Http

open SuperExe.Core SuperExe.Lib

/-- A turn keeps `I` where the parser will go on, in this call or in the next one,
and gives `Q` where it has answered. -/
def Leads (I : ParserSt → Prop) (Q : ParserRet → ParserSt → Prop) :
    Outcome ParserSt ParserRet → Prop
  | .next s => I s
  | .halt .pending s => I s
  | .halt r s => Q r s

section Leads

variable {I J : ParserSt → Prop} {Q R : ParserRet → ParserSt → Prop} {o : Outcome ParserSt ParserRet}

/-- The two halves of `Leads` can be proved apart. -/
theorem leads_of_leaves (hI : Leaves I o)
    (hQ : ∀ r s, o = .halt r s → r ≠ .pending → Q r s) : Leads I Q o := by
  cases o with
  | next s => exact hI
  | halt r s =>
    cases r with
    | pending => exact hI
    | error => exact hQ _ s rfl (by decide)
    | ok => exact hQ _ s rfl (by decide)

theorem Leads.leaves (h : Leads I Q o) : Leaves I o := by
  cases o with
  | next s => exact h
  | halt r s =>
    cases r with
    | pending => exact h
    | error => trivial
    | ok => trivial

theorem Leads.and_leaves (h : Leads I Q o) (hJ : Leaves J o) : Leads (fun s => J s ∧ I s) Q o := by
  cases o with
  | next s => exact ⟨hJ, h⟩
  | halt r s =>
    cases r with
    | pending => exact ⟨hJ, h⟩
    | error => exact h
    | ok => exact h

theorem Leaves.and (hI : Leaves I o) (hJ : Leaves J o) : Leaves (fun s => I s ∧ J s) o := by
  cases o with
  | next s => exact ⟨hI, hJ⟩
  | halt r s =>
    cases r with
    | pending => exact ⟨hI, hJ⟩
    | error => trivial
    | ok => trivial

theorem Leaves.imp (h : Leaves I o) (himp : ∀ s, I s → J s) : Leaves J o := by
  cases o with
  | next s => exact himp s h
  | halt r s =>
    cases r with
    | pending => exact himp s h
    | error => trivial
    | ok => trivial

/-- The same for the one state the turn leaves. -/
theorem Leaves.imp_state (h : Leaves I o) (himp : I o.state → J o.state) : Leaves J o := by
  cases o with
  | next s => exact himp h
  | halt r s =>
    cases r with
    | pending => exact himp h
    | error => trivial
    | ok => trivial

/-- A turn does not move the cursor back, and an answer is given inside the bytes
received. -/
theorem parserTurn_forward (len : Nat) (s : ParserSt) :
    Leaves (fun e => s.p.i ≤ e.p.i) (parserTurn len s) := by
  cases hturn : parserTurn len s with
  | next e => exact Nat.le_of_lt (parserTurn_next hturn).2
  | halt r e =>
    cases r with
    | pending =>
      rcases parserTurn_pending hturn with ⟨-, rfl⟩ | ⟨-, -, -, rfl⟩
      · exact Nat.le_refl _
      · exact Nat.le_refl _
    | error => trivial
    | ok => trivial

theorem parserTurn_answer {len : Nat} {s e : ParserSt} {r : ParserRet}
    (h : parserTurn len s = .halt r e) (hr : r ≠ .pending) : s.p.i < len := by
  by_contra hi
  rw [parserTurn, if_neg hi] at h
  cases h
  exact hr rfl

end Leads

variable {I : ParserSt → Prop} {Q : Nat → ParserRet → ParserSt → Prop}

/-- One call. -/
theorem mkHttpParser_rule (turn : ∀ len s, I s → Leads I (Q len) (parserTurn len s)) (len : Nat)
    {s : ParserSt} (h : I s) :
    (mkHttpParser len s).1 = .pending ∧ I (mkHttpParser len s).2 ∨
      (mkHttpParser len s).1 ≠ .pending ∧ Q len (mkHttpParser len s).1 (mkHttpParser len s).2 := by
  refine Loop.run_invariant (M := parserLoop len) (I := I)
    (Q := fun r e => r = .pending ∧ I e ∨ r ≠ .pending ∧ Q len r e) ?_ ?_ h
  · intro s s' hI hb
    have hturn := turn len s hI
    rwa [show parserTurn len s = .next s' from hb] at hturn
  · intro s r s' hI hb
    have hturn := turn len s hI
    rw [show parserTurn len s = .halt r s' from hb] at hturn
    cases r with
    | pending => exact .inl ⟨rfl, hturn⟩
    | error => exact .inr ⟨by decide, hturn⟩
    | ok => exact .inr ⟨by decide, hturn⟩

/-- Any number of calls. -/
theorem feed_rule (turn : ∀ len s, I s → Leads I (Q len) (parserTurn len s)) {s : ParserSt}
    (h : I s) (l : Nat) (ls : List Nat) :
    (feed s l ls).1.1 = .pending ∧ I (feed s l ls).1.2 ∨
      (feed s l ls).1.1 ≠ .pending ∧
        Q (feed s l ls).2 (feed s l ls).1.1 (feed s l ls).1.2 := by
  induction ls generalizing s l with
  | nil => exact mkHttpParser_rule turn l h
  | cons l' ls ih =>
    have hcall := mkHttpParser_rule turn l h
    rcases hrun : mkHttpParser l s with ⟨r, e⟩
    rw [hrun] at hcall
    rcases hcall with ⟨hr, hI⟩ | ⟨hr, hQ⟩
    · simp only at hr
      subst hr
      rw [feed_cons_pending hrun]
      exact ih hI l'
    · rw [feed_cons_stop hrun hr]
      exact .inr ⟨hr, hQ⟩

/-- The rule for an accepted request. -/
theorem feed_rule_ok (turn : ∀ len s, I s → Leads I (Q len) (parserTurn len s)) {s : ParserSt}
    (h : I s) {l : Nat} {ls : List Nat} {e : ParserSt} {len : Nat}
    (hfeed : feed s l ls = ((.ok, e), len)) : Q len .ok e := by
  have hall := feed_rule turn h l ls
  rw [hfeed] at hall
  rcases hall with ⟨hr, -⟩ | ⟨-, hQ⟩
  · cases hr
  · exact hQ

end SuperExe.Http
