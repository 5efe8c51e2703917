import Mathlib.Data.List.Find
import SuperExe.Http.RowsRun

/-! # Which methods are recognised

`method_lookup` confirms the method that the first byte suggests with a `strncmp`
over the rest of the token, as long as the token is: a token that is a proper
part of the suggested name passes, and so does the name with a NUL behind it.
Everything else is compared with the whole table. `method_exact_iff` says that
these are the only tokens that are taken for something they are not.
-/

namespace SuperExe.Http

open SuperExe.Core SuperExe.Lib

/-! ## Comparing with a name -/

/-- The token is the beginning of the name, or the name with a NUL behind it. -/
def SameStart (tok name : Bytes) : Prop := tok <+: name ∨ name ++ [0] <+: tok

instance (tok name : Bytes) : Decidable (SameStart tok name) :=
  inferInstanceAs (Decidable (_ ∨ _))

/-- `strncmp` over the length of the token, against a name without NULs. -/
theorem strncmpEq_iff {tok name : Bytes} (hname : 0 ∉ name) :
    strncmpEq (cstr tok) (cstr name) tok.length = true ↔ SameStart tok name := by
  induction name generalizing tok with
  | nil =>
    cases tok with
    | nil => simp [strncmpEq, SameStart]
    | cons c tok =>
      by_cases hc : c = 0
      · simp [strncmpEq, SameStart, cstr, hc]
      · simp [strncmpEq, SameStart, cstr, hc, List.cons_prefix_cons, Ne.symm hc]
  | cons d name ih =>
    simp only [List.mem_cons, not_or] at hname
    cases tok with
    | nil => simp [strncmpEq, SameStart]
    | cons c tok =>
      have hrest : strncmpEq (cstr (c :: tok)) (cstr (d :: name)) (tok.length + 1) =
          if c ≠ d then false else if c = 0 then true
          else strncmpEq (cstr tok) (cstr name) tok.length := rfl
      rw [List.length_cons, hrest]
      by_cases hc : c = d
      · subst hc
        rw [if_neg (not_not.mpr rfl), if_neg (Ne.symm hname.1), ih hname.2]
        simp [SameStart, List.cons_prefix_cons]
      · simp [SameStart, List.cons_prefix_cons, hc, Ne.symm hc]

theorem sameStart_of_length {tok name : Bytes} (hlen : name.length = tok.length) :
    SameStart tok name ↔ tok = name := by
  constructor
  · rintro (h | h)
    · exact h.eq_of_length hlen.symm
    · have := h.length_le
      simp only [List.length_append, List.length_singleton] at this
      omega
  · rintro rfl
    exact .inl (List.prefix_refl _)

/-! ## The look-up -/

/-- The name of a method. -/
def methodName (m : Method) : Bytes :=
  ((methodsTable.find? fun r => r.1 = m).map Prod.snd).getD []

/-- What `method_lookup` makes of a token. -/
def methodOf (tok : Bytes) : Method :=
  match (methodGuess (cstr tok 0) none).filter fun m => SameStart tok (methodName m) with
  | some m => m
  | none =>
    match methodsTable.find? fun r => tok = r.2 with
    | some r => r.1
    | none => .unknown

/-- The index of the row that is the token, byte for byte. -/
def MethodExact (tok : Bytes) (method : Method) : Prop :=
  (∀ r ∈ methodsTable, method = r.1 ↔ tok = r.2) ∧
    ((∀ r ∈ methodsTable, tok ≠ r.2) → method = .unknown)

/-- A token that passes for a name that it is not. `PUT` is never suggested. -/
def Abbreviated (tok : Bytes) : Prop :=
  ∃ r ∈ methodsTable, r.1 ≠ .put ∧ tok ≠ r.2 ∧ SameStart tok r.2

theorem methodGuess_row {c : UInt8} {m : Method} (h : methodGuess c none = some m) :
    (m, methodName m) ∈ methodsTable ∧ m ≠ .put ∧ 0 ∉ methodName m ∧ cstr (methodName m) 0 = c := by
  unfold methodGuess at h
  repeat' split at h
  all_goals cases h
  all_goals
    next hc =>
    subst hc
    decide

theorem methodGuess_of_row {r : Method × Bytes} (hr : r ∈ methodsTable) (hput : r.1 ≠ .put) :
    methodGuess (cstr r.2 0) none = some r.1 ∧ r.2 ≠ [] ∧ methodName r.1 = r.2 := by
  revert r
  decide

theorem methodsTable_inj : ∀ r ∈ methodsTable, r.1 ≠ .unknown ∧ ∀ q ∈ methodsTable,
    (r.1 = q.1 ↔ r.2 = q.2) ∧ (SameStart r.2 q.2 → r.2 = q.2) := by
  decide

theorem SameStart.first {tok name : Bytes} (h : SameStart tok name) (htok : tok ≠ [])
    (hname : name ≠ []) : cstr tok 0 = cstr name 0 := by
  cases tok with
  | nil => exact absurd rfl htok
  | cons c tok =>
    cases name with
    | nil => exact absurd rfl hname
    | cons d name =>
      rcases h with h | h
      · exact (List.cons_prefix_cons.mp h).1
      · exact (List.cons_prefix_cons.mp h).1.symm

/-- The look-up is exact for all other tokens. -/
theorem methodOf_exact {tok : Bytes} (htok : tok ≠ []) :
    MethodExact tok (methodOf tok) ↔ ¬ Abbreviated tok := by
  -- the guess by the first letter, confirmed or not
  cases hg : (methodGuess (cstr tok 0) none).filter fun m => SameStart tok (methodName m) with
  | some m =>
    have hof : methodOf tok = m := by simp only [methodOf, hg]
    rcases Option.filter_eq_some_iff.mp hg with ⟨hguess, hsame⟩
    rcases methodGuess_row hguess with ⟨hrow, hput, -, -⟩
    have hstart : SameStart tok (methodName m) := by simpa using hsame
    rw [hof]
    constructor
    · rintro ⟨hexact, -⟩ ⟨r, hr, hrput, hne, hs⟩
      -- a guess that is confirmed is right unless the text is only the start of the name
      have htm : tok = methodName m := (hexact _ hrow).mp rfl
      rw [htm] at hne hs
      exact hne (((methodsTable_inj _ hrow).2 r hr).2 hs)
    · intro habb
      have htm : tok = methodName m := by
        by_contra hne
        exact habb ⟨_, hrow, hput, hne, hstart⟩
      refine ⟨?_, fun hno => absurd htm (hno _ hrow)⟩
      intro r hr
      rw [htm]
      exact ((methodsTable_inj _ hrow).2 r hr).1
  | none =>
    have hno : ∀ m, methodGuess (cstr tok 0) none = some m → ¬ SameStart tok (methodName m) := by
      intro m hm
      rw [Option.filter_eq_none_iff] at hg
      simpa using hg m hm
    have habb : ¬ Abbreviated tok := by
      rintro ⟨r, hr, hput, -, hs⟩
      rcases methodGuess_of_row hr hput with ⟨hguess, hne, hname⟩
      rw [← hs.first htok hne] at hguess
      exact hno _ hguess (hname ▸ hs)
    refine ⟨fun _ => habb, fun _ => ?_⟩
    -- otherwise the text is a name of the table, or none
    cases hf : methodsTable.find? fun r => tok = r.2 with
    | none =>
      have hnone := List.find?_eq_none.mp hf
      have hof : methodOf tok = .unknown := by simp only [methodOf, hg, hf]
      rw [hof]
      refine ⟨?_, fun _ => rfl⟩
      intro r hr
      have hne : tok ≠ r.2 := by simpa using hnone r hr
      simp only [hne, iff_false]
      exact (methodsTable_inj r hr).1.symm
    | some q =>
      have hq := List.mem_of_find?_eq_some hf
      have htq : tok = q.2 := by simpa using List.find?_some hf
      have hof : methodOf tok = q.1 := by simp only [methodOf, hg, hf]
      rw [hof]
      refine ⟨?_, fun hno => absurd htq (hno q hq)⟩
      intro r hr
      rw [htq]
      exact ((methodsTable_inj q hq).2 r hr).1

/-! ## Along the request line -/

/-- The comparison starts behind the first byte, which the guess has seen. -/
theorem strncmpEq_tail {tok name : Bytes} (hfirst : cstr tok 0 = cstr name 0)
    (h0 : cstr name 0 ≠ 0) (htok : tok ≠ []) :
    strncmpEq (fun k => cstr tok (k + 1)) (fun k => cstr name (k + 1)) (tok.length - 1) =
      strncmpEq (cstr tok) (cstr name) tok.length := by
  cases tok with
  | nil => exact absurd rfl htok
  | cons c tok =>
    rw [List.length_cons, Nat.add_sub_cancel]
    conv => rhs; unfold strncmpEq
    rw [if_neg (not_not.mpr hfirst), if_neg (hfirst ▸ h0)]

theorem cstr_take {B : Bytes} {m k : Nat} (hk : k < m) : cstr (B.take m) k = cstr B k := by
  simp [cstr, hk]

section Run

variable {B : Bytes} {len : Nat} {s : ParserSt}

variable (len s) in
theorem methodLookup_method : (methodLookup len s).method =
    match s.p.method.bind fun m =>
      if strncmpEq (fun k => s.rd len (s.p.start + 1 + k)) (fun k => cstr (methodName m) (k + 1))
        (s.p.end_ - s.p.start - 1) then some m else none with
    | some m => m
    | none =>
      match methodsTable.find? fun r => r.2.length = s.p.end_ - s.p.start ∧
        strncmpEq (fun k => s.rd len (s.p.start + k)) (cstr r.2) (s.p.end_ - s.p.start) with
      | some r => r.1
      | none => .unknown := by
  unfold methodLookup
  change (match s.p.method.bind fun m =>
      if strncmpEq (fun k => s.rd len (s.p.start + 1 + k)) (fun k => cstr (methodName m) (k + 1))
        (s.p.end_ - s.p.start - 1) then some m else none with
    | some m => _
    | none => _ : ParsedRequest).method = _
  cases s.p.method.bind fun m =>
      if strncmpEq (fun k => s.rd len (s.p.start + 1 + k)) (fun k => cstr (methodName m) (k + 1))
        (s.p.end_ - s.p.start - 1) then some m else none with
  | some m => rfl
  | none =>
    cases methodsTable.find? fun r => r.2.length = s.p.end_ - s.p.start ∧
        strncmpEq (fun k => s.rd len (s.p.start + k)) (cstr r.2) (s.p.end_ - s.p.start) with
    | some r => rfl
    | none => rfl

/-- `method_lookup` at the blank behind the token. -/
theorem methodLookup_eq (hbuf : s.buffer = cstr B) (hstart : s.p.start = 0) (hend : s.p.end_ ≤ len)
    (hB : s.p.end_ ≤ B.length) (h0 : 0 < s.p.end_)
    (hguess : s.p.method = methodGuess (cstr B 0) none) :
    (methodLookup len s).method = methodOf (B.take s.p.end_) := by
  have htok : (B.take s.p.end_).length = s.p.end_ := by
    rw [List.length_take]
    omega
  have hne : B.take s.p.end_ ≠ [] := by
    intro hnil
    rw [hnil] at htok
    simp at htok
    omega
  have hrd : ∀ k < s.p.end_, s.rd len k = cstr (B.take s.p.end_) k := by
    intro k hk
    rw [ParserSt.rd, if_pos (by omega), hbuf, cstr_take hk]
  generalize B.take s.p.end_ = tok at htok hne hrd
  have hfirst : cstr tok 0 = cstr B 0 := by
    rw [← hrd 0 h0, ParserSt.rd, if_pos (by omega), hbuf]
  -- the guess by the first letter is confirmed from the second one on
  have hfilter : (s.p.method.bind fun m =>
      if strncmpEq (fun k => s.rd len (s.p.start + 1 + k)) (fun k => cstr (methodName m) (k + 1))
        (s.p.end_ - s.p.start - 1) then some m else none) =
      (methodGuess (cstr tok 0) none).filter fun m => SameStart tok (methodName m) := by
    rw [hguess, hfirst]
    cases hg : methodGuess (cstr B 0) none with
    | none => rfl
    | some m =>
      rcases methodGuess_row hg with ⟨-, -, hnul, hname⟩
      have hc0 : cstr (methodName m) 0 ≠ 0 := by
        intro hz
        rw [hz] at hname
        rw [← hname] at hg
        cases hg
      have hcmp : strncmpEq (fun k => s.rd len (s.p.start + 1 + k))
          (fun k => cstr (methodName m) (k + 1)) (s.p.end_ - s.p.start - 1) = true ↔
          SameStart tok (methodName m) := by
        rw [← strncmpEq_iff hnul, ← strncmpEq_tail (hfirst.trans hname.symm) hc0 hne, htok, hstart,
          Nat.sub_zero]
        rw [strncmpEq_congr]
        intro k hk
        rw [Nat.zero_add, Nat.add_comm 1 k]
        exact hrd (k + 1) (by omega)
      simp only [Option.bind_some, Option.filter_some, hcmp, decide_eq_true_eq]
  -- without a guess the whole table is searched
  have hfind : (methodsTable.find? fun r => r.2.length = s.p.end_ - s.p.start ∧
      strncmpEq (fun k => s.rd len (s.p.start + k)) (cstr r.2) (s.p.end_ - s.p.start)) =
      methodsTable.find? fun r => tok = r.2 := by
    apply List.find?_congr
    intro r hr
    have hnul : 0 ∉ r.2 := by
      revert r
      decide
    rw [decide_eq_decide, hstart, Nat.sub_zero, ← htok]
    have hcongr : strncmpEq (fun k => s.rd len (0 + k)) (cstr r.2) tok.length =
        strncmpEq (cstr tok) (cstr r.2) tok.length := by
      apply strncmpEq_congr
      intro k hk
      rw [Nat.zero_add]
      exact hrd k (by omega)
    rw [hcongr, strncmpEq_iff hnul]
    constructor
    · rintro ⟨hlen, hs⟩
      exact (sameStart_of_length hlen).mp hs
    · rintro rfl
      exact ⟨rfl, (sameStart_of_length rfl).mpr rfl⟩
  rw [methodOf, ← hfilter, ← hfind, methodLookup_method]

/-- The method of a request whose token ends at the first blank. -/
def TokenRead (B : Bytes) (s : ParserSt) : Prop :=
  ∃ m, 2 ≤ m ∧ FirstBlank B m ∧ s.req.method = methodOf (B.take m)

/-- While the token is read the first byte has made its suggestion, then the method
is known. -/
def MethodInv (B : Bytes) (s : ParserSt) : Prop :=
  (s.p.stage = 0 → s.p.method = if s.p.i = 0 then none else methodGuess (cstr B 0) none) ∧
    (s.p.stage ≠ 0 → TokenRead B s)

/-- The request line has been read to its end. -/
def LineAccepted (s : ParserSt) : Prop := s.p.level ≠ .first ∨ s.p.status = .blockEnd

theorem stage_method {p : Parser} (h : p.stage = 0) : p.level = .first ∧ p.status = .reqMethod := by
  unfold Parser.stage at h
  split at h
  all_goals simp_all

variable (len) in
/-- Only `method_lookup` assigns the method. -/
theorem parserTurn_method (h : s.p.stage ≠ 0) :
    (parserTurn len s).state.req.method = s.req.method := by
  have hheader := fun p : Parser => headerLookup_req len (s := { s with p := p })
  unfold parserTurn endLevel bodyLevel firstLine headersLevel headerKeyTurn headerValTurn
    mkHttpParserOk
  simp only
  repeat' split
  all_goals first
    | rfl
    | exact congrArg ParsedRequest.method (hheader _)
    | simp_all [Parser.stage]

variable (len) in
theorem stage_ne_zero (h : s.p.stage ≠ 0) : Leaves (fun e => e.p.stage ≠ 0) (parserTurn len s) := by
  by_cases h4 : s.p.stage = 4
  · refine (stage_parserTurn len h4).imp ?_
    intro e he
    omega
  · have hl : s.p.level = .first := by
      by_contra hl
      exact h4 (stage_of_level hl)
    unfold parserTurn
    split
    · simp only [hl]
      unfold firstLine
      simp only
      repeat' split
      all_goals first
        | trivial
        | exact leaves_mkHttpParserOk _ _
        | (intro h0
           rcases stage_method h0 with ⟨-, hst⟩
           simp only at hst
           simp_all [Parser.stage])
    · exact h

/-- A turn inside the token. -/
theorem tokenTurn (hi : s.p.i < len) (h0 : s.p.stage = 0) (hread : OnLine B s)
    (hm : MethodInv B s) :
    Leads (MethodInv B) (fun _ e => LineAccepted e → TokenRead B e) (firstLine len s) := by
  rcases stage_method h0 with ⟨hl, hst⟩
  simp only [OnLine, hl, FirstLine, hst] at hread
  rcases hread with ⟨hbuf, hstart, hchars, hno⟩
  have hguess := hm.1 h0
  have hrd := rd_here hi hbuf
  simp only [firstLine, hst, hrd]
  split
  -- the first byte gives the guess
  · have hi0 : s.p.i = 0 := by omega
    rw [if_pos hi0] at hguess
    refine ⟨fun _ => ?_, fun hne => absurd ?_ hne⟩
    · simp only [hguess, hi0]
      rfl
    · simp [Parser.stage, hl]
  · next hne =>
    have hi0 : s.p.i ≠ 0 := by omega
    rw [if_neg hi0] at hguess
    split
    -- the blank ends the token, and the method is looked up
    · next hblank =>
      split
      · rintro (h | h)
        · exact absurd hl h
        · simp at h
      · next hend =>
        simp only [markEnd] at hend
        refine ⟨fun hz => ?_, fun _ => ?_⟩
        · simp [Parser.stage, hl, markEnd] at hz
        · have hlt : s.p.i < B.length := lt_length_of_cstr (by rw [hblank]; decide)
          refine ⟨s.p.i, by omega, ⟨by omega, hblank, hno⟩, ?_⟩
          exact methodLookup_eq (s := { s with p := { markEnd s.p with status := .reqUri } })
            hbuf hstart (Nat.le_of_lt hi) (Nat.le_of_lt hlt) (Nat.pos_of_ne_zero hi0) hguess
    · split
      · rintro (h | h)
        · exact absurd hl h
        · simp [hst] at h
      · refine ⟨fun _ => ?_, fun hz => absurd ?_ hz⟩
        · simp only [hguess]
          rfl
        · simp [Parser.stage, hl, hst]

theorem methodInv_turn (hread : ∃ rs, Reading B rs s) (hm : MethodInv B s) :
    Leads (MethodInv B) (fun _ e => LineAccepted e → TokenRead B e) (parserTurn len s) := by
  by_cases h0 : s.p.stage = 0
  · rcases hread with ⟨rs, hread⟩
    rcases stage_method h0 with ⟨hl, hst⟩
    by_cases hi : s.p.i < len
    · simp only [parserTurn, hi, if_true, hl]
      simp only [Reading, hl] at hread
      exact tokenTurn hi h0 hread.2 hm
    · simp only [parserTurn, hi, if_false]
      exact hm
  · have hkept := parserTurn_method len h0
    rcases hm.2 h0 with ⟨m, h2, hblank, hmethod⟩
    refine leads_of_leaves ?_ ?_
    · refine (stage_ne_zero len h0).imp_state ?_
      intro hne
      exact ⟨fun hz => absurd hz hne, fun _ => ⟨m, h2, hblank, hkept.trans hmethod⟩⟩
    · intro a e hturn _ _
      rw [hturn] at hkept
      exact ⟨m, h2, hblank, hkept.trans hmethod⟩

end Run

/-- The method of a request whose first line is accepted, after any number of calls. -/
theorem feed_method (req : ParsedRequest) (B : Bytes) (l : Nat) (ls : List Nat)
    (hline : LineAccepted (feed (parserFresh req B) l ls).1.2) :
    TokenRead B (feed (parserFresh req B) l ls).1.2 := by
  have hJ : LookupKeeps B (fun _ _ => True) := fun _ _ _ _ _ _ _ _ => trivial
  have hturn : ∀ len s, RowsInv B (fun _ _ => True) s ∧ MethodInv B s →
      Leads (fun s => RowsInv B (fun _ _ => True) s ∧ MethodInv B s)
        (fun _ e => LineAccepted e → TokenRead B e) (parserTurn len s) := by
    rintro len s ⟨hrows, hm⟩
    refine Leads.and_leaves ?_ (rowsInv_turn hJ len s hrows).leaves
    rcases hrows with ⟨rs, hread, -, -⟩
    exact methodInv_turn ⟨rs, hread⟩ hm
  have hstart : RowsInv B (fun _ _ => True) (parserFresh req B) ∧ MethodInv B (parserFresh req B) :=
    ⟨⟨[], ⟨rfl, onLine_fresh req B⟩, registered_fresh req B, trivial⟩,
      ⟨fun _ => rfl, fun hne => absurd rfl hne⟩⟩
  rcases feed_rule hturn hstart l ls with ⟨-, -, hm⟩ | ⟨-, hQ⟩
  · refine hm.2 ?_
    intro h0
    rcases stage_method h0 with ⟨hl, hst⟩
    rcases hline with h | h
    · exact h hl
    · rw [hst] at h
      cases h
  · exact hQ hline

/-- The bytes in front of the first blank; the first byte is part of the token
whatever it is. -/
def methodToken (B : Bytes) : Bytes := B.take ((findByte (cstr B) 32 B.length 1).getD 0)

/-- Recognition is exact unless the token passes for a name that it is not. -/
theorem method_exact_iff (req : ParsedRequest) (B : Bytes) (l : Nat) (ls : List Nat)
    (hline : LineAccepted (feed (parserFresh req B) l ls).1.2) :
    MethodExact (methodToken B) (feed (parserFresh req B) l ls).1.2.req.method ↔
      ¬ Abbreviated (methodToken B) := by
  rcases feed_method req B l ls hline with ⟨m, h2, hblank, hmethod⟩
  have hlt : m < B.length := lt_length_of_cstr (by rw [hblank.2.1]; decide)
  have htok : methodToken B = B.take m := by
    rw [methodToken, findByte_first hblank.1 (by omega) hblank.2.1 hblank.2.2]
    rfl
  have hne : B.take m ≠ [] := by
    intro hnil
    have hlen := congrArg List.length hnil
    simp only [List.length_take, List.length_nil] at hlen
    omega
  rw [hmethod, htok]
  exact methodOf_exact hne

theorem method_exact_getQuery :
    MethodExact (methodToken getQuery)
      (feed (parserFresh parsedRequestZero getQuery) 5 [33]).1.2.req.method := by
  refine (method_exact_iff parsedRequestZero getQuery 5 [33] (.inl ?_)).mpr ?_
  · decide
  · rw [show methodToken getQuery = bytes "GET" by decide]
    rintro ⟨r, hr, -, hne, hs⟩
    exact hne (((methodsTable_inj (.get, bytes "GET") (by decide)).2 r hr).2 hs)

/-- A method nobody knows. -/
def geRequest : Bytes := bytes "GE / HTTP/1.1\r\n\r\n"

/-- It is served as `GET`. -/
theorem method_abbreviated :
    (feed (parserFresh parsedRequestZero geRequest) 17 []).1.1 = .ok ∧
      methodToken geRequest = bytes "GE" ∧
      (feed (parserFresh parsedRequestZero geRequest) 17 []).1.2.req.method = .get ∧
      ¬ MethodExact (methodToken geRequest)
        (feed (parserFresh parsedRequestZero geRequest) 17 []).1.2.req.method := by
  have htok : methodToken geRequest = bytes "GE" := by decide
  have hget : (feed (parserFresh parsedRequestZero geRequest) 17 []).1.2.req.method = .get := by
    decide
  refine ⟨by decide, htok, hget, ?_⟩
  rw [htok, hget]
  rintro ⟨hexact, -⟩
  have hge := (hexact (.get, bytes "GET") (by decide)).mp rfl
  revert hge
  decide

end SuperExe.Http
