import SuperExe.Http.Framing

/-! # What the parser writes into the request record

The parser fills in a record that earlier requests have used. `Patch` collects
what it has assigned so far; the record is then the old one with the patch over
it (`Patch.over`). `feed_over` says that the patch, the parser context and the
answer do not depend on the old record, and which fields an accepted request has
assigned: all but the query string of a URI without `?` and the body slice of a
request without a body.
-/

namespace SuperExe.Http

open SuperExe.Core SuperExe.Lib

/-- The fields assigned so far. `mk_http_request_init` resets the method and the
protocol, so these two are always known. -/
structure Patch where
  method : Method
  protocol : Protocol
  methodP : Option MkPtr
  uri : Option MkPtr
  queryString : Option MkPtr
  protocolP : Option MkPtr
  data : Option MkPtr

def Patch.over (a : Patch) (q : ParsedRequest) : ParsedRequest where
  method := a.method
  methodP := a.methodP.getD q.methodP
  uri := a.uri.getD q.uri
  queryString := a.queryString.getD q.queryString
  protocol := a.protocol
  protocolP := a.protocolP.getD q.protocolP
  data := a.data.getD q.data

/-- The parser state without the old record. -/
structure ParserCore where
  a : Patch
  p : Parser
  buffer : Nat → UInt8
  raised : List Int

/-- A parser state over an old record. -/
def ParserCore.over (c : ParserCore) (q : ParsedRequest) : ParserSt where
  req := c.a.over q
  p := c.p
  buffer := c.buffer
  raised := c.raised

/-- An outcome over an old record. -/
def overOutcome (q : ParsedRequest) : Outcome ParserCore ParserRet → Outcome ParserSt ParserRet
  | .next c => .next (c.over q)
  | .halt r c => .halt r (c.over q)

@[simp] theorem rd_over (c : ParserCore) (q : ParsedRequest) (len x : Nat) :
    (c.over q).rd len x = if x < len then c.buffer x else 0 := rfl

/-- How far the request line has been read: method, URI, query string, protocol,
everything. -/
def Parser.stage (p : Parser) : Nat :=
  match p.level, p.status with
  | .first, .reqMethod => 0
  | .first, .reqUri => 1
  | .first, .reqQueryString => 2
  | .first, .reqProtVersion => 3
  | _, _ => 4

/-! ## Turns that leave the record alone -/

/-- The state without the record, given the patch. -/
def ParserSt.core (a : Patch) (s : ParserSt) : ParserCore := ⟨a, s.p, s.buffer, s.raised⟩

def coreOutcome (a : Patch) : Outcome ParserSt ParserRet → Outcome ParserCore ParserRet
  | .next s => .next (s.core a)
  | .halt r s => .halt r (s.core a)

/-- The same outcome over another record. -/
def reover (a : Patch) (q : ParsedRequest) (o : Outcome ParserSt ParserRet) :
    Outcome ParserSt ParserRet := overOutcome q (coreOutcome a o)

section Reover

variable (a : Patch) (q : ParsedRequest)

@[simp] theorem reover_goOn (s : ParserSt) (p : Parser) :
    reover a q (goOn s p) = goOn ((s.core a).over q) p := rfl

end Reover

section Over

variable (c : ParserCore) (q q' : ParsedRequest) (len : Nat)

@[simp] theorem core_over : ((c.over q').core c.a).over q = c.over q := rfl

@[simp] theorem over_p : (c.over q).p = c.p := rfl

theorem rd_any (x : Nat) : (c.over q).rd len x = (c.over q').rd len x := rfl

theorem charLookup_over (ch : UInt8) : charLookup len (c.over q) ch = charLookup len (c.over q') ch :=
  rfl

@[simp] theorem rd_core (a : Patch) (s : ParserSt) (x : Nat) :
    ((s.core a).over q).rd len x = s.rd len x := rfl

@[simp] theorem core_p (a : Patch) (s : ParserSt) : (s.core a).p = s.p := rfl

theorem headerLookup_over :
    headerLookup len (c.over q) =
      (((headerLookup len (c.over q')).1.core c.a).over q, (headerLookup len (c.over q')).2) := by
  have hmatch : headerMatch len (c.over q) = headerMatch len (c.over q') := rfl
  unfold headerLookup
  rw [hmatch]
  cases headerMatch len (c.over q') with
  | some n => rfl
  | none =>
    by_cases hroom : c.p.headersExtra.length < headerExtraSize
    · simp only [ParserCore.over, ParserSt.core, hroom, if_true]
    · simp only [ParserCore.over, ParserSt.core, hroom, if_false]

theorem headerKeyTurn_over :
    headerKeyTurn len (c.over q) = reover c.a q (headerKeyTurn len (c.over q')) := by
  unfold headerKeyTurn
  simp only [rd_any c q q', charLookup_over c q q', over_p]
  by_cases hcr : (c.over q').rd len c.p.i = 13
  · by_cases hch : c.p.chars = 0
    · simp only [hcr, hch, if_true]
      rfl
    · simp only [hcr, hch, if_true, if_false]
      rfl
  · by_cases hch : c.p.chars = 0
    · simp only [hcr, hch, if_true, if_false, reover_goOn, core_over]
    · by_cases hsep : (c.over q').rd len (charLookup len (c.over q') 58) = 58
      · by_cases hshort : (charLookup len (c.over q') 58 : Int) - c.p.start < 1
        · simp only [hcr, hch, hsep, markEnd, hshort, if_true, if_false]
          rfl
        · simp only [hcr, hch, hsep, markEnd, hshort, if_true, if_false]
          rfl
      · simp only [hcr, hch, hsep, if_false, reover_goOn, core_over]

theorem headerValTurn_over :
    headerValTurn len (c.over q) = reover c.a q (headerValTurn len (c.over q')) := by
  have hlookup : headerLookup len { c.over q with p := markEnd c.p } = _ :=
    headerLookup_over { c with p := markEnd c.p } q q' len
  obtain ⟨t, n, ht⟩ : ∃ t n, headerLookup len { c.over q' with p := markEnd c.p } = (t, n) :=
    ⟨_, _, rfl⟩
  have ht' : headerLookup len (({ c with p := markEnd c.p } : ParserCore).over q') = (t, n) := ht
  unfold headerValTurn
  simp only [over_p, rd_any c q q', hlookup, ht', ht, rd_core, core_p]
  by_cases hcr : (c.over q').rd len c.p.i = 13
  · by_cases hshort : ((markEnd c.p).end_ : Int) - (markEnd c.p).start ≤ 0
    · simp only [hcr, hshort, if_true]
      rfl
    · by_cases hn : n = 0
      · by_cases hlf : t.p.i + 1 < len ∧ t.rd len (t.p.i + 1) = 10
        · simp only [hcr, hshort, hn, hlf, ne_eq, not_true, and_self, if_true, if_false]
          rfl
        · simp only [hcr, hshort, hn, hlf, ne_eq, not_true, if_true, if_false]
          rfl
      · by_cases hraise : n < -1
        · simp only [hcr, hshort, hn, hraise, ne_eq, not_false_eq_true, if_true, if_false]
          rfl
        · simp only [hcr, hshort, hn, hraise, ne_eq, not_false_eq_true, if_true, if_false]
          rfl
  · by_cases hlf : (c.over q').rd len c.p.i = 10 ∧ (c.over q').rd len (c.p.i - 1) ≠ 13
    · simp only [hlf, ne_eq, not_false_eq_true, and_self, if_true]
      rfl
    · simp only [hcr, hlf, if_false]
      rfl

theorem headersLevel_over :
    headersLevel len (c.over q) = reover c.a q (headersLevel len (c.over q')) := by
  unfold headersLevel
  simp only [over_p, rd_any c q q']
  cases c.p.status with
  | headerKey => exact headerKeyTurn_over c q q' len
  | headerValStarts => exact headerValTurn_over c q q' len
  | headerValue =>
    by_cases hend : (c.over q').rd len c.p.i = 13 ∨ (c.over q').rd len c.p.i = 10
    · simp only [hend, if_true]
      rfl
    · by_cases hsp : (c.over q').rd len c.p.i = 32
      · simp only [hsp, ne_eq, not_true, if_false]
        rfl
      · simp only [hend, hsp, ne_eq, not_false_eq_true, if_true, if_false]
        rfl
  | headerEnd =>
    by_cases hlf : (c.over q').rd len c.p.i = 10
    · simp only [hlf, if_true]
      rfl
    · simp only [hlf, if_false]
      rfl
  | _ => rfl

theorem mkHttpParserOk_over :
    mkHttpParserOk (c.over q) = reover c.a q (mkHttpParserOk (c.over q')) := by
  unfold mkHttpParserOk
  have hreq : (c.over q).req.protocol = c.a.protocol ∧ (c.over q).req.method = c.a.method :=
    ⟨rfl, rfl⟩
  have hreq' : (c.over q').req.protocol = c.a.protocol ∧ (c.over q').req.method = c.a.method :=
    ⟨rfl, rfl⟩
  simp only [hreq.1, hreq.2, hreq'.1, hreq'.2, over_p]
  by_cases hproto : c.a.protocol = .unknown
  · simp only [hproto, if_true]
    rfl
  · by_cases hlen : (c.a.method = .post ∨ c.a.method = .put) ∧ (c.p.headers .contentLength).type = 0
    · simp only [hproto, hlen, and_self, if_true, if_false]
      rfl
    · simp only [hproto, hlen, if_false]
      rfl

theorem endLevel_over : endLevel len (c.over q) = reover c.a q (endLevel len (c.over q')) := by
  unfold endLevel
  simp only [over_p, rd_any c q q']
  by_cases hlf : (c.over q').rd len c.p.i = 10
  · by_cases hbody : c.p.headerContentLength > 0
    · simp only [hlf, hbody, if_true]
      rfl
    · simp only [hlf, hbody, if_true, if_false]
      exact mkHttpParserOk_over c q q'
  · simp only [hlf, if_false]
    rfl

/-- The end of the request line, and the LF that ends a request without headers. -/
theorem lineEnd_over (hl : c.p.level = .first) (hstage : c.p.stage = 4) :
    firstLine len (c.over q) = reover c.a q (firstLine len (c.over q')) := by
  unfold firstLine
  simp only [over_p, rd_any c q q']
  cases hst : c.p.status with
  | reqMethod => simp [Parser.stage, hl, hst] at hstage
  | reqUri => simp [Parser.stage, hl, hst] at hstage
  | reqQueryString => simp [Parser.stage, hl, hst] at hstage
  | reqProtVersion => simp [Parser.stage, hl, hst] at hstage
  | firstContinue =>
    by_cases hcr : (c.over q').rd len c.p.i = 13
    · simp only [hcr, if_true]
      rfl
    · simp only [hcr, if_false]
      rfl
  | firstFinalizing =>
    by_cases hlf : (c.over q').rd len c.p.i = 10
    · simp only [hlf, if_true]
      rfl
    · simp only [hlf, if_false]
      rfl
  | blockEnd =>
    by_cases hlf : (c.over q').rd len c.p.i = 10
    · simp only [hlf, if_true]
      exact mkHttpParserOk_over c q q'
    · simp only [hlf, if_false]
      rfl
  | _ => rfl

/-- Behind the protocol the record is left alone until the body. -/
theorem parserTurn_over (hstage : c.p.stage = 4) (hbody : c.p.level ≠ .body) :
    parserTurn len (c.over q) = reover c.a q (parserTurn len (c.over q')) := by
  unfold parserTurn
  simp only [over_p, rd_any c q q']
  by_cases hi : c.p.i < len
  · simp only [hi, if_true]
    cases hl : c.p.level with
    | first => exact lineEnd_over c q q' len hl hstage
    | body => exact absurd hl hbody
    | cont =>
      by_cases hcr : (c.over q').rd len c.p.i = 13
      · simp only [hcr, if_true]
        rfl
      · simp only [hcr, if_false]
        exact headersLevel_over { c with p := { c.p with level := .headers, status := .headerKey,
                                                         chars := 0 } } q q' len
    | headers => exact headersLevel_over c q q' len
    | end_ => exact endLevel_over c q q' len
  · simp only [hi, if_false]
    rfl

end Over

/-! ## Is there a query string? -/

/-- A `?` stands between the first two blanks of the request; the method has at
least one byte. -/
def hasQuery (B : Bytes) : Bool :=
  match findByte (cstr B) 32 B.length 1 with
  | none => false
  | some m =>
    match findByte (cstr B) 63 B.length (m + 1), findByte (cstr B) 32 B.length (m + 1) with
    | some x, some e => x < e
    | some _, none => true
    | none, _ => false

/-- Position `m` is the blank behind the method. -/
def FirstBlank (B : Bytes) (m : Nat) : Prop :=
  1 ≤ m ∧ cstr B m = 32 ∧ ∀ j, 1 ≤ j → j < m → cstr B j ≠ 32

theorem findByte_first {rd : Nat → UInt8} {c : UInt8} {n x y : Nat} (hxy : x ≤ y) (hn : y < x + n)
    (hy : rd y = c) (hno : ∀ j, x ≤ j → j < y → rd j ≠ c) : findByte rd c n x = some y := by
  induction n generalizing x with
  | zero => omega
  | succ n ih =>
    unfold findByte
    by_cases hx : x = y
    · rw [if_pos (hx ▸ hy), hx]
    · rw [if_neg (hno x (Nat.le_refl x) (by omega))]
      exact ih (by omega) (by omega) fun j hj => hno j (by omega)

theorem lt_length_of_cstr {B : Bytes} {x : Nat} (h : cstr B x ≠ 0) : x < B.length := by
  by_contra hx
  exact h (by simp [cstr, List.getElem?_eq_none (Nat.le_of_not_lt hx)])

section HasQuery

variable {B : Bytes} {m x : Nat} (hm : FirstBlank B m) (hmx : m < x)
include hm hmx

theorem FirstBlank.findByte (hx : x < B.length) : findByte (cstr B) 32 B.length 1 = some m :=
  findByte_first hm.1 (by omega) hm.2.1 hm.2.2

theorem hasQuery_true (hx : cstr B x = 63)
    (hno : ∀ j, m < j → j < x → cstr B j ≠ 32 ∧ cstr B j ≠ 63) : hasQuery B = true := by
  have hlen : x < B.length := lt_length_of_cstr (by rw [hx]; decide)
  have hmark : Http.findByte (cstr B) 63 B.length (m + 1) = some x :=
    findByte_first hmx (by omega) hx fun j hj hjx => (hno j hj hjx).2
  unfold hasQuery
  simp only [hm.findByte hmx hlen, hmark]
  split
  · next x' e hx' he =>
    obtain ⟨h1, h2, h3⟩ := findByte_some he
    cases hx'
    -- the second blank cannot stand before the `?`
    have hne : e ≠ x := by
      rintro rfl
      rw [hx] at h3
      exact absurd h3 (by decide)
    by_contra hlt
    exact (hno e (by omega) (by simp at hlt; omega)).1 h3
  · rfl
  · simp_all

theorem hasQuery_false (hx : cstr B x = 32)
    (hno : ∀ j, m < j → j < x → cstr B j ≠ 32 ∧ cstr B j ≠ 63) : hasQuery B = false := by
  have hlen : x < B.length := lt_length_of_cstr (by rw [hx]; decide)
  have hblank : Http.findByte (cstr B) 32 B.length (m + 1) = some x :=
    findByte_first hmx (by omega) hx fun j hj hjx => (hno j hj hjx).1
  unfold hasQuery
  simp only [hm.findByte hmx hlen, hblank]
  split
  · next y e hy he =>
    obtain ⟨h1, h2, h3⟩ := findByte_some hy
    cases he
    by_contra hlt
    exact (hno y (by omega) (by simpa using hlt)).2 h3
  · simp_all
  · rfl

end HasQuery

/-! ## What has been assigned -/

/-- The part of the request line that has been read. -/
structure LineRead (B : Bytes) (p : Parser) : Prop where
  inMethod : p.stage = 0 → p.chars = (p.i : Int) - 1 ∧ ∀ j, 1 ≤ j → j < p.i → cstr B j ≠ 32
  inUri : p.stage = 1 → ∃ m, FirstBlank B m ∧ m < p.i ∧
    ∀ j, m < j → j < p.i → cstr B j ≠ 32 ∧ cstr B j ≠ 63
  inQuery : p.stage = 2 → hasQuery B = true

/-- The slices assigned at a stage. -/
structure Filled (B : Bytes) (stage : Nat) (a : Patch) : Prop where
  methodP : 1 ≤ stage → a.methodP.isSome = true
  uri : 2 ≤ stage → a.uri.isSome = true
  queryString : a.queryString.isSome = (decide (3 ≤ stage) && hasQuery B)
  protocolP : 4 ≤ stage → a.protocolP.isSome = true
  data : a.data = none

/-- What an accepted request has assigned. -/
structure AllFilled (B : Bytes) (c : ParserCore) : Prop where
  methodP : c.a.methodP.isSome = true
  uri : c.a.uri.isSome = true
  queryString : c.a.queryString.isSome = hasQuery B
  protocolP : c.a.protocolP.isSome = true
  data : c.a.data.isSome = decide (0 < c.p.headerContentLength)

/-- The invariant of the loop, and what it gives when the request is accepted. -/
def FrameKeeps (B : Bytes) : Outcome ParserCore ParserRet → Prop
  | .next c => LineRead B c.p ∧ Filled B c.p.stage c.a
  | .halt .pending c => LineRead B c.p ∧ Filled B c.p.stage c.a
  | .halt .ok c => AllFilled B c
  | .halt .error _ => True

theorem LineRead.of_stage {B : Bytes} {p : Parser} (h : 3 ≤ p.stage) : LineRead B p where
  inMethod h0 := by omega
  inUri h1 := by omega
  inQuery h2 := by omega

section Filled

variable {B : Bytes} {a : Patch} (ptr : MkPtr)

theorem Filled.method (m : Method) (h : Filled B 0 a) :
    Filled B 1 { a with method := m, methodP := some ptr } where
  methodP _ := rfl
  uri h2 := by omega
  queryString := h.queryString
  protocolP h4 := by omega
  data := h.data

theorem Filled.toQuery (h : Filled B 1 a) : Filled B 2 { a with uri := some ptr } where
  methodP _ := h.methodP (by omega)
  uri _ := rfl
  queryString := h.queryString
  protocolP h4 := by omega
  data := h.data

theorem Filled.toProtocol (h : Filled B 1 a) (hq : hasQuery B = false) :
    Filled B 3 { a with uri := some ptr } where
  methodP _ := h.methodP (by omega)
  uri _ := rfl
  queryString := by simpa [hq] using h.queryString
  protocolP h4 := by omega
  data := h.data

theorem Filled.query (h : Filled B 2 a) (hq : hasQuery B = true) :
    Filled B 3 { a with queryString := some ptr } where
  methodP _ := h.methodP (by omega)
  uri _ := h.uri (by omega)
  queryString := by simp [hq]
  protocolP h4 := by omega
  data := h.data

theorem Filled.protocol (v : Protocol) (h : Filled B 3 a) :
    Filled B 4 { a with protocol := v, protocolP := some ptr } where
  methodP _ := h.methodP (by omega)
  uri _ := h.uri (by omega)
  queryString := h.queryString
  protocolP _ := rfl
  data := h.data

/-- Everything but the body. -/
theorem Filled.all (h : Filled B 4 a) {p : Parser} {buffer : Nat → UInt8} {raised : List Int}
    (hcl : p.headerContentLength ≤ 0) : AllFilled B ⟨a, p, buffer, raised⟩ where
  methodP := h.methodP (by omega)
  uri := h.uri (by omega)
  queryString := by simpa using h.queryString
  protocolP := h.protocolP (by omega)
  data := by
    have hno : ¬ 0 < p.headerContentLength := by omega
    simp only [h.data, hno, decide_false, Option.isSome_none]

end Filled

theorem methodLookup_over (len : Nat) (c : ParserCore) :
    ∃ m ptr, ∀ q, methodLookup len (c.over q) =
      { c.a with method := m, methodP := some ptr : Patch }.over q := by
  have hsame : ∀ q q', methodLookup len (c.over q) =
      { (c.over q).req with method := (methodLookup len (c.over q')).method
                            methodP := (methodLookup len (c.over q')).methodP } := by
    intro q q'
    unfold methodLookup
    simp only [rd_any c q q', over_p]
    repeat' split
    all_goals first
      | rfl
      | grind
  refine ⟨_, _, fun q => hsame q parsedRequestZero⟩

section FirstLine

variable {B : Bytes} {len : Nat} {c : ParserCore}
  (hl : c.p.level = .first) (hi : c.p.i < len)
  (hsame : ∀ x (d : UInt8), d < 65 → (c.buffer x = d ↔ cstr B x = d))
  (hread : LineRead B c.p) (hfill : Filled B c.p.stage c.a)
include hl hi hsame hread hfill

/-- What is to be shown of a turn: it does the same over every old record, and
the next state keeps the invariant. -/
theorem methodTurn_keeps (hst : c.p.status = .reqMethod) :
    ∃ o, (∀ q, firstLine len (c.over q) = overOutcome q o) ∧ FrameKeeps B o := by
  have hstage : c.p.stage = 0 := by simp only [Parser.stage, hl, hst]
  obtain ⟨hchars, hno⟩ := hread.inMethod hstage
  have hc : (if c.p.i < len then c.buffer c.p.i else 0) = c.buffer c.p.i := if_pos hi
  simp only [firstLine, over_p, hst, rd_over, hc]
  rw [hstage] at hfill
  -- the first byte, the blank behind the method, or a byte of it
  by_cases hfirst : c.p.chars = -1
  · refine ⟨.next { c with p := { c.p with
        status := .reqMethod, method := methodGuess (c.buffer c.p.i) c.p.method
        i := c.p.i + 1, chars := c.p.chars + 1 } }, ?_, ⟨?_, ?_, ?_⟩, ?_⟩
    · intro q
      rw [if_pos hfirst]
      rfl
    · intro _
      refine ⟨by simp only; omega, ?_⟩
      intro j h1 hj
      simp only at hj
      exact hno j h1 (by omega)
    · simp [Parser.stage, hl]
    · simp [Parser.stage, hl]
    · simpa [Parser.stage, hl] using hfill
  · by_cases hsp : c.buffer c.p.i = 32
    · by_cases hshort : c.p.i < 2
      · refine ⟨.halt .error { c with p := { markEnd c.p with status := .reqUri } }, ?_, trivial⟩
        intro q
        simp only [hfirst, hsp, markEnd, hshort, if_true, if_false]
        rfl
      · obtain ⟨m, ptr, hmethod⟩ :=
          methodLookup_over len { c with p := { markEnd c.p with status := .reqUri } }
        refine ⟨.next { c with
          a := { c.a with method := m, methodP := some ptr }
          p := { c.p with status := .reqUri, end_ := c.p.i, start := c.p.i + 1,
                          i := c.p.i + 1, chars := 0 } }, ?_, ⟨?_, ?_, ?_⟩, ?_⟩
        · intro q
          have hq : methodLookup len { c.over q with p := { markEnd c.p with status := .reqUri } } = _ :=
            hmethod q
          have hshort' : ¬ (markEnd c.p).end_ < 2 := hshort
          simp only [hfirst, hsp, hshort', hq, if_true, if_false]
          rfl
        · simp [Parser.stage, hl]
        · intro _
          refine ⟨c.p.i, ⟨by omega, (hsame _ _ (by decide)).mp hsp, hno⟩, Nat.lt_succ_self _, ?_⟩
          intro j h1 hj
          simp only at hj
          omega
        · simp [Parser.stage, hl]
        · simpa [Parser.stage, hl] using hfill.method ptr m
    · by_cases hlong : (c.p.i : Int) - c.p.start > 10
      · refine ⟨.halt .error c, ?_, trivial⟩
        intro q
        simp only [hfirst, hsp, hlong, if_true, if_false]
        rfl
      · refine ⟨.next { c with p := { c.p with i := c.p.i + 1, chars := c.p.chars + 1 } }, ?_,
          ⟨?_, ?_, ?_⟩, ?_⟩
        · intro q
          simp only [hfirst, hsp, hlong, if_false]
          rfl
        · intro _
          refine ⟨by simp only; omega, ?_⟩
          intro j h1 hj
          simp only at hj
          by_cases hji : j = c.p.i
          · rw [hji]
            exact fun h32 => hsp ((hsame _ _ (by decide)).mpr h32)
          · exact hno j h1 (by omega)
        · simp [Parser.stage, hl, hst]
        · simp [Parser.stage, hl, hst]
        · simpa [Parser.stage, hl, hst] using hfill

theorem uriTurn_keeps (hst : c.p.status = .reqUri) :
    ∃ o, (∀ q, firstLine len (c.over q) = overOutcome q o) ∧ FrameKeeps B o := by
  have hstage : c.p.stage = 1 := by simp only [Parser.stage, hl, hst]
  obtain ⟨m, hblank, hmi, hno⟩ := hread.inUri hstage
  have hc : (if c.p.i < len then c.buffer c.p.i else 0) = c.buffer c.p.i := if_pos hi
  have h32 := hsame c.p.i 32 (by decide)
  have h63 := hsame c.p.i 63 (by decide)
  simp only [firstLine, over_p, hst, rd_over, hc]
  rw [hstage] at hfill
  -- a blank ends the URI, a `?` starts the query string
  by_cases hsp : c.buffer c.p.i = 32
  · by_cases hshort : (c.p.i : Int) - c.p.start < 1
    · refine ⟨.halt .error { c with p := { markEnd c.p with status := .reqProtVersion } }, ?_,
        trivial⟩
      intro q
      simp only [hsp, markEnd, hshort, if_true]
      rfl
    · -- no `?` before the blank: the query string is not assigned
      have hquery := hasQuery_false hblank hmi (h32.mp hsp) hno
      refine ⟨.next { c with
        a := { c.a with uri := some (requestSet (markEnd c.p)) }
        p := { c.p with status := .reqProtVersion, end_ := c.p.i, start := c.p.i + 1,
                        i := c.p.i + 1, chars := 0 } }, ?_, LineRead.of_stage ?_, ?_⟩
      · intro q
        simp only [hsp, markEnd, hshort, if_true, if_false]
        rfl
      · simp [Parser.stage, hl]
      · simpa [Parser.stage, hl] using hfill.toProtocol _ hquery
  · by_cases hmark : c.buffer c.p.i = 63
    · have hquery := hasQuery_true hblank hmi (h63.mp hmark) hno
      refine ⟨.next { c with
        a := { c.a with uri := some (requestSet (markEnd c.p)) }
        p := { c.p with status := .reqQueryString, end_ := c.p.i, start := c.p.i + 1,
                        i := c.p.i + 1, chars := 0 } }, ?_, ⟨?_, ?_, ?_⟩, ?_⟩
      · intro q
        rw [if_neg hsp, if_pos hmark]
        rfl
      · simp [Parser.stage, hl]
      · simp [Parser.stage, hl]
      · exact fun _ => hquery
      · simpa [Parser.stage, hl] using hfill.toQuery _
    · by_cases heol : c.buffer c.p.i = 13 ∨ c.buffer c.p.i = 10
      · refine ⟨.halt .error { c with raised := c.raised ++ [clientBadRequest] }, ?_, trivial⟩
        intro q
        rw [if_neg hsp, if_neg hmark, if_pos heol]
        rfl
      · refine ⟨.next { c with p := { c.p with i := c.p.i + 1, chars := c.p.chars + 1 } }, ?_,
          ⟨?_, ?_, ?_⟩, ?_⟩
        · intro q
          rw [if_neg hsp, if_neg hmark, if_neg heol]
          rfl
        · simp [Parser.stage, hl, hst]
        · intro _
          refine ⟨m, hblank, Nat.lt_succ_of_lt hmi, ?_⟩
          intro j h1 hj
          simp only at hj
          by_cases hji : j = c.p.i
          · rw [hji]
            exact ⟨fun h => hsp (h32.mpr h), fun h => hmark (h63.mpr h)⟩
          · exact hno j h1 (by omega)
        · simp [Parser.stage, hl, hst]
        · simpa [Parser.stage, hl, hst] using hfill

omit hi hsame in
theorem queryTurn_keeps (hst : c.p.status = .reqQueryString) :
    ∃ o, (∀ q, firstLine len (c.over q) = overOutcome q o) ∧ FrameKeeps B o := by
  have hstage : c.p.stage = 2 := by simp only [Parser.stage, hl, hst]
  have hquery := hread.inQuery hstage
  -- the look-ahead reads the buffer and not the record
  obtain ⟨y, hy⟩ : ∃ y, ∀ q, charLookup len (c.over q) 32 = y := ⟨_, fun q => charLookup_over c q parsedRequestZero len 32⟩
  obtain ⟨d, hd⟩ : ∃ d, d = if y < len then c.buffer y else 0 := ⟨_, rfl⟩
  simp only [firstLine, over_p, hst, rd_over, hy, ← hd]
  rw [hstage] at hfill
  by_cases hsp : d = 32
  · refine ⟨.next { c with
      a := { c.a with queryString := some (requestSet (markEnd { c.p with i := y })) }
      p := { c.p with status := .reqProtVersion, end_ := y, start := y + 1, i := y + 1,
                      chars := 0 } }, ?_, LineRead.of_stage ?_, ?_⟩
    · intro q
      simp only [hsp, if_true]
      rfl
    · simp [Parser.stage, hl]
    · simpa [Parser.stage, hl] using hfill.query _ hquery
  · by_cases heol : d = 13 ∨ d = 10
    · refine ⟨.halt .error { c with p := { c.p with status := .reqQueryString, i := y }
                                    raised := c.raised ++ [clientBadRequest] }, ?_, trivial⟩
      intro q
      simp only [hsp, heol, if_true, if_false]
      rfl
    · refine ⟨.next { c with p := { c.p with status := .reqQueryString, i := y + 1,
                                             chars := c.p.chars + 1 } }, ?_, ⟨?_, ?_, ?_⟩, ?_⟩
      · intro q
        simp only [hsp, heol, if_false]
        rfl
      · simp [Parser.stage, hl]
      · simp [Parser.stage, hl]
      · exact fun _ => hquery
      · simpa [Parser.stage, hl] using hfill

omit hi hsame hread in
theorem protTurn_keeps (hst : c.p.status = .reqProtVersion) :
    ∃ o, (∀ q, firstLine len (c.over q) = overOutcome q o) ∧ FrameKeeps B o := by
  have hstage : c.p.stage = 3 := by simp only [Parser.stage, hl, hst]
  simp only [firstLine, over_p, hst]
  rw [hstage] at hfill
  by_cases hfew : c.p.start + 6 ≥ c.p.i
  · refine ⟨.next { c with p := { c.p with i := c.p.i + 1, chars := c.p.chars + 1 } }, ?_,
      LineRead.of_stage ?_, ?_⟩
    · intro q
      simp only [hfew, if_true]
      rfl
    · simp [Parser.stage, hl, hst]
    · simpa [Parser.stage, hl, hst] using hfill
  · by_cases hhttp : (List.range 7).map (fun k => (c.over parsedRequestZero).rd len (c.p.start + k)) =
        bytes "HTTP/1."
    · refine ⟨.next { c with
        a := { c.a with protocol := minorVersion ((c.over parsedRequestZero).rd len (c.p.start + 7))
                        protocolP := some { requestSet c.p with len := 8 } }
        p := { c.p with status := .firstContinue, i := c.p.i + 1, chars := c.p.chars + 1 } }, ?_,
        LineRead.of_stage ?_, ?_⟩
      · intro q
        simp only [hfew, rd_any c q parsedRequestZero, hhttp, if_true, if_false]
        rfl
      · simp [Parser.stage, hl]
      · simpa [Parser.stage, hl] using hfill.protocol _ _
    · refine ⟨.halt .error { c with raised := c.raised ++ [serverHttpVersionUnsup] }, ?_, trivial⟩
      intro q
      simp only [hfew, rd_any c q parsedRequestZero, hhttp, if_false]
      rfl

end FirstLine

/-! ## Behind the request line -/

theorem stage_of_level {p : Parser} (h : p.level ≠ .first) : p.stage = 4 := by
  unfold Parser.stage
  split <;> simp_all

theorem stage_headersLevel (len : Nat) {s : ParserSt} (h : s.p.level = .headers) :
    Leaves (fun t => t.p.stage = 4) (headersLevel len s) := by
  have hlookup : (headerLookup len { s with p := markEnd s.p }).1.p.level ≠ .first := by
    obtain ⟨_, _, _, _, _, _, _, hp⟩ := headerLookup_p len { s with p := markEnd s.p }
    rw [hp]
    simp [markEnd, h]
  unfold headersLevel headerKeyTurn headerValTurn
  simp only
  repeat' split
  all_goals first
    | trivial
    | exact stage_of_level hlookup
    | (apply stage_of_level
       simp [markEnd, h])

/-- The stages only go up. -/
theorem stage_parserTurn (len : Nat) {s : ParserSt} (h : s.p.stage = 4) :
    Leaves (fun t => t.p.stage = 4) (parserTurn len s) := by
  have hok := leaves_mkHttpParserOk (fun t => t.p.stage = 4)
  unfold parserTurn
  split
  · split
    · next hl =>
      -- on the request line only an empty one is left
      unfold firstLine
      simp only
      cases hst : s.p.status with
      | reqMethod => simp [Parser.stage, hl, hst] at h
      | reqUri => simp [Parser.stage, hl, hst] at h
      | reqQueryString => simp [Parser.stage, hl, hst] at h
      | reqProtVersion => simp [Parser.stage, hl, hst] at h
      | blockEnd =>
        simp only
        split
        · exact hok s
        · trivial
      | _ =>
        simp only
        repeat' split
        all_goals first
          | trivial
          | simp [Leaves, goOn, Parser.stage, hl]
    · split
      · rfl
      · exact stage_headersLevel len rfl
    · next hl => exact stage_headersLevel len hl
    · next hl =>
      unfold endLevel
      repeat' split
      all_goals first
        | trivial
        | exact hok s
    · unfold bodyLevel
      simp only
      repeat' split
      all_goals first
        | exact h
        | exact hok _
  · exact h

/-- An outcome that leaves the record alone keeps what is assigned. -/
theorem keeps_core {B : Bytes} {a : Patch} (h : Filled B 4 a) {o : Outcome ParserSt ParserRet}
    (hstage : Leaves (fun t => t.p.stage = 4) o)
    (hok : ∀ s, o = .halt .ok s → s.p.headerContentLength ≤ 0) : FrameKeeps B (coreOutcome a o) := by
  cases o with
  | next s =>
    have hs : s.p.stage = 4 := hstage
    refine ⟨LineRead.of_stage ?_, ?_⟩
    · exact hs.ge.trans' (by decide)
    · exact hs ▸ h
  | halt r s =>
    cases r with
    | pending =>
      have hs : s.p.stage = 4 := hstage
      refine ⟨LineRead.of_stage ?_, ?_⟩
      · exact hs.ge.trans' (by decide)
      · exact hs ▸ h
    | error => trivial
    | ok => exact h.all (hok s rfl)

theorem mkHttpParserOk_keeps {B : Bytes} {c : ParserCore} (h : AllFilled B c) :
    ∃ o, (∀ q, mkHttpParserOk (c.over q) = overOutcome q o) ∧ FrameKeeps B o := by
  refine ⟨_, fun q => mkHttpParserOk_over c q parsedRequestZero, ?_⟩
  unfold mkHttpParserOk
  split
  · trivial
  · split
    · trivial
    · exact h

/-- `REQ_LEVEL_BODY` assigns the body. -/
theorem bodyTurn_keeps {B : Bytes} {len : Nat} {c : ParserCore} (hl : c.p.level = .body)
    (hfill : Filled B 4 c.a) :
    ∃ o, (∀ q, bodyLevel len (c.over q) = overOutcome q o) ∧ FrameKeeps B o := by
  unfold bodyLevel
  simp only [over_p]
  by_cases hcl : c.p.headerContentLength > 0
  · simp only [hcl, if_true]
    by_cases hfew : (len : Int) - c.p.start < c.p.headerContentLength
    · refine ⟨.halt .pending { c with p := { c.p with bodyReceived := (len : Int) - c.p.start } }, ?_,
        LineRead.of_stage ?_, ?_⟩
      · intro q
        simp only [hfew, if_true]
        rfl
      · simp [Parser.stage, hl]
      · simpa [Parser.stage, hl] using hfill
    · simp only [hfew, if_false]
      refine mkHttpParserOk_keeps (c := { c with
        a := { c.a with data := some { data := some c.p.start, len := (len : Int) - c.p.start } }
        p := { c.p with bodyReceived := (len : Int) - c.p.start
                        i := c.p.i + ((len : Int) - c.p.start).toNat } }) ?_
      -- everything but the body is assigned already, as for a request without one
      have hall : AllFilled B ⟨c.a, { c.p with headerContentLength := 0 }, c.buffer, c.raised⟩ :=
        hfill.all (by simp)
      exact ⟨hall.methodP, hall.uri, hall.queryString, hall.protocolP, by simp only [hcl]; simp⟩
  · simp only [hcl, if_false]
    exact mkHttpParserOk_keeps (hfill.all (by omega))

/-! ## One turn, one call, all calls -/

/-- The invariant of the loop, without the old record. -/
structure FrameInv (B : Bytes) (c : ParserCore) : Prop where
  framing : FramingInv B (c.over parsedRequestZero)
  same : ∀ x (d : UInt8), d < 65 → (c.buffer x = d ↔ cstr B x = d)
  read : LineRead B c.p
  filled : Filled B c.p.stage c.a

section Turn

variable {B : Bytes} {len : Nat} {c : ParserCore} (h : FrameInv B c)
include h

theorem firstLine_keeps (hl : c.p.level = .first) (hi : c.p.i < len) :
    ∃ o, (∀ q, parserTurn len (c.over q) = overOutcome q o) ∧ FrameKeeps B o := by
  have hturn : ∀ q, parserTurn len (c.over q) = firstLine len (c.over q) := by
    intro q
    simp only [parserTurn, over_p, hi, hl, if_true]
  simp only [hturn]
  cases hst : c.p.status with
  | reqMethod => exact methodTurn_keeps hl hi h.same h.read h.filled hst
  | reqUri => exact uriTurn_keeps hl hi h.same h.read h.filled hst
  | reqQueryString => exact queryTurn_keeps hl h.read h.filled hst
  | reqProtVersion => exact protTurn_keeps hl h.filled hst
  | _ =>
    have hstage : c.p.stage = 4 := by simp only [Parser.stage, hl, hst]
    refine ⟨_, fun q => lineEnd_over c q parsedRequestZero len hl hstage, ?_⟩
    refine keeps_core (hstage ▸ h.filled) ?_ ?_
    · have hleaves := stage_parserTurn len (s := c.over parsedRequestZero) hstage
      rwa [hturn] at hleaves
    · intro s hok
      have hlines := h.framing.2.1
      simp only [ParserSt.lines, over_p, hl] at hlines
      rw [firstLine_ok hok]
      exact hlines.1

variable (len) in
theorem parserTurn_keeps :
    ∃ o, (∀ q, parserTurn len (c.over q) = overOutcome q o) ∧ FrameKeeps B o := by
  by_cases hi : c.p.i < len
  · by_cases hl : c.p.level = .first
    · exact firstLine_keeps h hl hi
    · have hstage := stage_of_level hl
      by_cases hbody : c.p.level = .body
      · have hturn : ∀ q, parserTurn len (c.over q) = bodyLevel len (c.over q) := by
          intro q
          simp only [parserTurn, over_p, hi, hbody, if_true]
        simp only [hturn]
        exact bodyTurn_keeps hbody (hstage ▸ h.filled)
      · refine ⟨_, fun q => parserTurn_over c q parsedRequestZero len hstage hbody, ?_⟩
        refine keeps_core (hstage ▸ h.filled) (stage_parserTurn len hstage) ?_
        intro s hok
        -- with a length declared the parser accepts only in the body level
        by_contra hcl
        exact hbody (parserTurn_ok h.framing.2.1 hok (by omega)).1
  · refine ⟨.halt .pending c, ?_, h.read, h.filled⟩
    intro q
    simp only [parserTurn, over_p, hi, if_false]
    rfl

/-- The state a turn leaves keeps the whole invariant. -/
theorem frameInv_turn {o : Outcome ParserCore ParserRet}
    (ho : ∀ q, parserTurn len (c.over q) = overOutcome q o) (hk : FrameKeeps B o) :
    (∀ c', o = .next c' → FrameInv B c') ∧ (∀ c', o = .halt .pending c' → FrameInv B c') := by
  obtain ⟨hp, hl, hs⟩ := h.framing
  have hplaced := placed_parserTurn len hp
  have hlines := lines_parserTurn len hp hl
  have hsame := hs.parserTurn len
  have hcontrol := fun x (d : UInt8) (hd : d < 65) =>
    (parserTurn_control len (c.over parsedRequestZero) x hd).trans (h.same x d hd)
  rw [ho] at hplaced hlines hsame hcontrol
  constructor
  · rintro c' rfl
    exact ⟨⟨hplaced, hlines, hsame⟩, hcontrol, hk.1, hk.2⟩
  · rintro c' rfl
    exact ⟨⟨hplaced, hlines, hsame⟩, hcontrol, hk.1, hk.2⟩

end Turn

/-- One call does the same over every old record. -/
theorem mkHttpParser_over {B : Bytes} (len : Nat) {c : ParserCore} (h : FrameInv B c) :
    ∃ r e, (∀ q, mkHttpParser len (c.over q) = (r, e.over q)) ∧
      (r = .pending → FrameInv B e) ∧ (r = .ok → AllFilled B e) := by
  suffices hall : ∀ s : ParserSt, ∀ c : ParserCore, s = c.over parsedRequestZero → FrameInv B c →
      ∃ r e, (∀ q, mkHttpParser len (c.over q) = (r, e.over q)) ∧
        (r = .pending → FrameInv B e) ∧ (r = .ok → AllFilled B e) from hall _ c rfl h
  intro s
  -- along the run over the zero record
  refine Loop.run_induction (M := parserLoop len) (P := fun s => ∀ c : ParserCore,
    s = c.over parsedRequestZero → FrameInv B c →
      ∃ r e, (∀ q, mkHttpParser len (c.over q) = (r, e.over q)) ∧
        (r = .pending → FrameInv B e) ∧ (r = .ok → AllFilled B e)) ?_ ?_ s
  · rintro s r s' hb c rfl h
    obtain ⟨o, ho, hk⟩ := parserTurn_keeps len h
    have hzero : overOutcome parsedRequestZero o = .halt r s' := (ho _).symm.trans hb
    cases o with
    | next c' => simp [overOutcome] at hzero
    | halt r' e =>
      refine ⟨r', e, fun q => Loop.run_halt (M := parserLoop len) (ho q), ?_, ?_⟩
      · rintro rfl
        exact (frameInv_turn h ho hk).2 e rfl
      · rintro rfl
        exact hk
  · rintro s s' hb ih c rfl h
    obtain ⟨o, ho, hk⟩ := parserTurn_keeps len h
    have hzero : overOutcome parsedRequestZero o = .next s' := (ho _).symm.trans hb
    cases o with
    | halt r e => simp [overOutcome] at hzero
    | next c' =>
      obtain ⟨r, e, hrun, hrest⟩ := ih c' (by simpa [overOutcome] using hzero.symm)
        ((frameInv_turn h ho hk).1 c' rfl)
      exact ⟨r, e, fun q => (Loop.run_next (M := parserLoop len) (ho q)).trans (hrun q), hrest⟩

/-- Any number of calls do the same over every old record. -/
theorem feed_over_inv {B : Bytes} {c : ParserCore} (h : FrameInv B c) (l : Nat) (ls : List Nat) :
    ∃ r e n, (∀ q, feed (c.over q) l ls = ((r, e.over q), n)) ∧ (r = .ok → AllFilled B e) := by
  induction ls generalizing c l with
  | nil =>
    obtain ⟨r, e, hrun, -, hok⟩ := mkHttpParser_over l h
    exact ⟨r, e, l, fun q => by simp only [feed, hrun], hok⟩
  | cons l' ls ih =>
    obtain ⟨r, e, hrun, hpending, hok⟩ := mkHttpParser_over l h
    by_cases hr : r = .pending
    · subst hr
      obtain ⟨r', e', n, hfeed, hok'⟩ := ih (hpending rfl) l'
      exact ⟨r', e', n, fun q => (feed_cons_pending (hrun q)).trans (hfeed q), hok'⟩
    · exact ⟨r, e, l, fun q => feed_cons_stop (hrun q) hr, hok⟩

/-- The parser context of a fresh request. -/
def parserCoreFresh (B : Bytes) : ParserCore where
  a := { method := .unknown, protocol := .unknown, methodP := none, uri := none,
         queryString := none, protocolP := none, data := none }
  p := mkHttpParserInit
  buffer := cstr B
  raised := []

theorem frameInv_fresh (B : Bytes) : FrameInv B (parserCoreFresh B) where
  framing := framingInv_fresh _ B
  same x d _ := Iff.rfl
  read :=
    { inMethod := fun _ => ⟨rfl, fun j h1 hj => absurd hj (Nat.not_lt_zero j)⟩
      inUri := fun h => by simp [Parser.stage, parserCoreFresh, mkHttpParserInit] at h
      inQuery := fun h => by simp [Parser.stage, parserCoreFresh, mkHttpParserInit] at h }
  filled := by
    constructor <;> simp [Parser.stage, parserCoreFresh, mkHttpParserInit]

/-- What the parser does with a request does not depend on the record it writes
to, and an accepted request has assigned all but an absent query string and an
absent body. -/
theorem feed_over (B : Bytes) (l : Nat) (ls : List Nat) :
    ∃ r c n, (∀ q : ParsedRequest, q.method = .unknown → q.protocol = .unknown →
      feed (parserFresh q B) l ls = ((r, c.over q), n)) ∧ (r = .ok → AllFilled B c) := by
  obtain ⟨r, c, n, hfeed, hok⟩ := feed_over_inv (frameInv_fresh B) l ls
  refine ⟨r, c, n, ?_, hok⟩
  rintro ⟨method, methodP, uri, queryString, protocol, protocolP, data⟩ rfl rfl
  exact hfeed ⟨.unknown, methodP, uri, queryString, .unknown, protocolP, data⟩

end SuperExe.Http
