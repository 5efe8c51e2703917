import SuperExe.Http.ParserRun
import SuperExe.Http.ParserFrame

/-! # The slice of the query string

The parser ends a query string at the first blank. `feed_query` says so for an
accepted request, however it was cut: the slice holds no blank, the byte behind
it is one, and it has been received. Keys that are lower-cased later on do not
change this, since lower-casing neither makes nor removes a blank.
-/

namespace SuperExe.Http

open SuperExe.Core SuperExe.Lib

/-- A slice before `i` that runs up to the next blank. -/
def UpToBlank (buf : Nat → UInt8) (i : Nat) (q : MkPtr) : Prop :=
  ∀ a, q.data = some a →
    ∃ n : Nat, q.len = n ∧ a + n < i ∧ buf (a + n) = 32 ∧ ∀ k < n, buf (a + k) ≠ 32

/-- No blank has been read since the `?`. -/
def ReadingQuery (s : ParserSt) : Prop :=
  s.p.stage = 2 → ∀ x, s.p.start ≤ x → x < s.p.i → s.buffer x ≠ 32

/-- The invariant. -/
def QueryInv (s : ParserSt) : Prop :=
  Placed s.p ∧ ReadingQuery s ∧ UpToBlank s.buffer s.p.i s.req.queryString

theorem UpToBlank.mono {buf buf' : Nat → UInt8} {i i' : Nat} {q : MkPtr} (h : UpToBlank buf i q)
    (hbuf : ∀ x, buf' x = 32 ↔ buf x = 32) (hi : i ≤ i') : UpToBlank buf' i' q := by
  intro a ha
  rcases h a ha with ⟨n, hn, hlt, hblank, hno⟩
  exact ⟨n, hn, by omega, (hbuf _).mpr hblank, fun k hk h32 => hno k hk ((hbuf _).mp h32)⟩

theorem findByte_before {rd : Nat → UInt8} {c : UInt8} {n x y : Nat}
    (h : findByte rd c n x = some y) : ∀ z, x ≤ z → z < y → rd z ≠ c := by
  induction n generalizing x with
  | zero => simp [findByte] at h
  | succ n ih =>
    unfold findByte at h
    intro z hz hzy
    split at h
    · cases h
      omega
    · next hne =>
      by_cases hzx : z = x
      · rwa [hzx]
      · exact ih h z (by omega) hzy

theorem charLookup_eq {len : Nat} {s : ParserSt} {c : UInt8} {y : Nat}
    (h : findByte (s.rd len) c (len - s.p.i) s.p.i = some y) : charLookup len s c = y := by
  unfold charLookup
  rw [h]
  rfl

theorem charLookup_stays {len : Nat} {s : ParserSt} {c : UInt8}
    (h : findByte (s.rd len) c (len - s.p.i) s.p.i = none) : charLookup len s c = s.p.i := by
  unfold charLookup
  rw [h]
  rfl

theorem stage_query {p : Parser} (h : p.stage = 2) :
    p.level = .first ∧ p.status = .reqQueryString := by
  unfold Parser.stage at h
  split at h
  all_goals simp_all

section Turn

variable (len : Nat) {s : ParserSt}

theorem headerLookup_req : (headerLookup len s).1.req = s.req := by
  unfold headerLookup
  split
  · rfl
  · simp only
    split <;> rfl

theorem methodLookup_queryString : (methodLookup len s).queryString = s.req.queryString := by
  unfold methodLookup
  simp only
  repeat' split
  all_goals rfl

/-- Only the turns inside a query string assign it. -/
theorem parserTurn_queryString (h : s.p.stage ≠ 2) :
    (parserTurn len s).state.req.queryString = s.req.queryString := by
  have hmethod := fun p : Parser => methodLookup_queryString len (s := { s with p := p })
  have hheader := fun p : Parser => headerLookup_req len (s := { s with p := p })
  unfold parserTurn endLevel bodyLevel firstLine headersLevel headerKeyTurn headerValTurn
    mkHttpParserOk
  simp only
  repeat' split
  all_goals first
    | rfl
    | exact hmethod _
    | exact congrArg ParsedRequest.queryString (hheader _)
    | simp_all [Parser.stage]

/-- A turn that enters the query string has just read the `?`. -/
theorem readingQuery_other (h : s.p.stage ≠ 2) : Leaves ReadingQuery (parserTurn len s) := by
  by_cases h4 : s.p.stage = 4
  · refine (stage_parserTurn len h4).imp ?_
    intro e he h2
    omega
  · have hl : s.p.level = .first := by
      by_contra hl
      exact h4 (stage_of_level hl)
    unfold parserTurn
    split
    · simp only [hl]
      unfold firstLine
      simp only
      repeat' split
      all_goals first
        | trivial
        | exact leaves_mkHttpParserOk _ _
        | (intro h2 x hx hxi
           rcases stage_query h2 with ⟨-, hst⟩
           simp only at hst hx hxi
           first
             | omega
             | simp_all [Parser.stage])
    · intro h2
      exact absurd h2 h

/-- Inside a query string: the blank has come and the slice is complete, or it has
not and the cursor moves over another byte. -/
theorem queryTurn (hl : s.p.level = .first) (hst : s.p.status = .reqQueryString)
    (hi : s.p.i < len) (hp : s.p.start ≤ s.p.i) (hread : ReadingQuery s)
    (hold : UpToBlank s.buffer s.p.i s.req.queryString) :
    Leaves (fun e => ReadingQuery e ∧ UpToBlank e.buffer e.p.i e.req.queryString)
      (firstLine len s) := by
  have hno := hread (by simp only [Parser.stage, hl, hst])
  -- the blank is among the bytes that have come, or not yet
  cases hf : findByte (s.rd len) 32 (len - s.p.i) s.p.i with
  | some y =>
    rcases findByte_some hf with ⟨hle, hlt, hblank⟩
    have hbefore := findByte_before hf
    rw [queryString_found hst (charLookup_eq hf) hblank]
    refine ⟨?_, ?_⟩
    · intro h2
      simp [Parser.stage, hl] at h2
    · intro a ha
      have ha' : s.p.start = a := Option.some.inj ha
      subst ha'
      refine ⟨y - s.p.start, ?_, ?_, ?_, ?_⟩
      · simp only
        omega
      · simp only
        omega
      · rw [show s.p.start + (y - s.p.start) = y by omega]
        exact (rd_received len s y (by decide) hblank).1
      · intro k hk
        by_cases hki : s.p.start + k < s.p.i
        · exact hno _ (by omega) hki
        · have hne := hbefore (s.p.start + k) (by omega) (by omega)
          rwa [ParserSt.rd, if_pos (by omega)] at hne
  | none =>
    have hne : s.rd len s.p.i ≠ 32 := by
      intro hc
      rw [findByte_here hi hc] at hf
      cases hf
    simp only [firstLine, hst, charLookup_stays hf, if_neg hne]
    split
    · trivial
    · refine ⟨?_, hold.mono (fun x => Iff.rfl) (Nat.le_succ _)⟩
      intro _ x hx hxi
      simp only at hx hxi
      by_cases hxe : x = s.p.i
      · rw [ParserSt.rd, if_pos hi] at hne
        rwa [hxe]
      · exact hno x hx (by omega)

/-- One turn keeps the slice, and has read its blank when it answers. -/
theorem parserTurn_query (h : QueryInv s) :
    Leads QueryInv (fun _ e => UpToBlank e.buffer len e.req.queryString) (parserTurn len s) := by
  rcases h with ⟨hp, hread, hold⟩
  have hblank := fun x => parserTurn_control len s x (d := 32) (by decide)
  refine leads_of_leaves ((placed_parserTurn len hp).and ?_) ?_
  · by_cases h2 : s.p.stage = 2
    · rcases stage_query h2 with ⟨hl, hst⟩
      by_cases hi : s.p.i < len
      · rw [parserTurn, if_pos hi, hl]
        exact queryTurn len hl hst hi hp.1 hread hold
      · rw [parserTurn, if_neg hi]
        exact ⟨hread, hold⟩
    · refine (readingQuery_other len h2).and ?_
      have hkept := parserTurn_queryString len h2
      refine (parserTurn_forward len s).imp_state ?_
      intro hforward
      rw [hkept]
      exact hold.mono hblank hforward
  · intro r e hturn hr
    have hi := parserTurn_answer hturn hr
    have hkept : e.req.queryString = s.req.queryString := by
      by_cases h2 : s.p.stage = 2
      · rcases stage_query h2 with ⟨hl, hst⟩
        rw [parserTurn, if_pos hi, hl] at hturn
        simp only [firstLine, hst] at hturn
        repeat' split at hturn
        all_goals cases hturn
        rfl
      · have hkept := parserTurn_queryString len h2
        rwa [hturn] at hkept
    rw [hturn] at hblank
    rw [hkept]
    exact hold.mono hblank (Nat.le_of_lt hi)

end Turn

/-- The query string of an accepted request, however it was cut. -/
theorem feed_query (B : Bytes) {l len : Nat} {ls : List Nat} {e : ParserSt}
    (hfeed : feed (parserFresh parsedRequestZero B) l ls = ((.ok, e), len)) :
    UpToBlank e.buffer len e.req.queryString := by
  refine feed_rule_ok (I := QueryInv) (Q := fun len _ e => UpToBlank e.buffer len e.req.queryString)
    (fun len s => parserTurn_query len) ⟨placed_init, ?_, ?_⟩ hfeed
  · intro h2
    simp [Parser.stage, parserFresh, mkHttpParserInit] at h2
  · intro a ha
    cases ha

/-- A query string that is not `NULL` stays so. -/
theorem feed_query_isSome {q : ParsedRequest} (hq : q.queryString.data.isSome = true) (B : Bytes)
    (l : Nat) (ls : List Nat) :
    (feed (parserFresh q B) l ls).1.2.req.queryString.data.isSome = true := by
  have hrule := feed_rule (I := fun s => s.req.queryString.data.isSome = true)
    (Q := fun _ _ s => s.req.queryString.data.isSome = true) ?_
    (s := parserFresh q B) hq l ls
  · rcases hrule with ⟨-, h⟩ | ⟨-, h⟩
    · exact h
    · exact h
  · intro len s hs
    have hstate : (parserTurn len s).state.req.queryString.data.isSome = true := by
      by_cases h2 : s.p.stage = 2
      · rcases stage_query h2 with ⟨hl, hst⟩
        unfold parserTurn
        split
        · simp only [hl, firstLine, hst]
          repeat' split
          all_goals first
            | exact hs
            | rfl
        · exact hs
      · rwa [parserTurn_queryString len h2]
    cases hturn : parserTurn len s with
    | next e => rwa [hturn] at hstate
    | halt r e =>
      rw [hturn] at hstate
      cases r with
      | pending => exact hstate
      | error => exact hstate
      | ok => exact hstate

end SuperExe.Http
