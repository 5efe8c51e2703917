import SuperExe.Http.HeaderIsolation
import SuperExe.Http.Pipeline

/-! # Persistent connections

Whether a connection stays open after a request is decided in three places:
`mk_http_keepalive_check` sets `close_now`, `mk_header_prepare` tells the client, and
`mk_http_request_end` acts. `connection_kept_as_asked` says when the three agree with
the configuration, the number of requests and what the request asks for. They do not
when keep-alive is switched off (the check then returns before it has set
`close_now`), for a request that is refused in front of the check, for the request
that reaches the limit (the requests that count are those before it), and when bytes
stand behind a request that asks to close the connection, which are then served.
-/

namespace SuperExe.Http

open SuperExe.Core SuperExe.Lib SuperExe.Sched

/-! ## The parser on the `Connection` header -/

/-- A `Connection` header that was recognized has a value. -/
def ConnValued (p : Parser) : Prop :=
  p.headerConnection = .ka → 0 < (p.headers .connection).val.len

theorem connValued_init : ConnValued mkHttpParserInit := by
  intro h
  cases h

/-- The value that was just read decides; a value of another length is unknown. -/
theorem connValued_lookupConnection (len : Nat) (s : ParserSt) (p : Parser) :
    ConnValued (lookupConnection len s (registerHeader p .connection)).1 := by
  have hval : (((registerHeader p .connection).headers .connection).val.len) =
      (p.end_ : Int) - p.headerVal := by
    simp [registerHeader]
  have hlong : ∀ n, p.end_ - p.headerVal.toNat = n + 1 → 0 < (p.end_ : Int) - p.headerVal := by
    intro n hn
    omega
  unfold lookupConnection ConnValued
  simp only
  intro hka
  rw [hval]
  have hvlen : ((registerHeader p .connection).end_ -
      (registerHeader p .connection).headerVal.toNat) = p.end_ - p.headerVal.toNat := rfl
  rw [hvlen] at hka
  -- the three values `mk_http_parser` compares with have ten, five and seven bytes
  split at hka
  · next h => exact hlong 9 h
  · split at hka
    · next h => exact hlong 4 h
    · split at hka
      · next h => exact hlong 6 h
      · cases hka

theorem connValued_headerLookup (len : Nat) {s : ParserSt} (h : ConnValued s.p) :
    ConnValued (headerLookup len s).1.p := by
  -- every other header leaves the row of `Connection` as it was
  have hother : ∀ n : HeaderName, n ≠ .connection → ConnValued (registerHeader s.p n) := by
    intro n hn hka
    have hrow : (registerHeader s.p n).headers .connection = s.p.headers .connection := by
      simp only [registerHeader, if_neg (Ne.symm hn)]
    rw [hrow]
    exact h hka
  unfold headerLookup
  split
  · next n hmatch =>
    simp only
    split
    · next hn =>
      subst hn
      have hreg := hother .host (by decide)
      unfold lookupHost
      simp only
      repeat' split
      all_goals exact hreg
    · split
      · next hn =>
        subst hn
        have hreg := hother .contentLength (by decide)
        unfold lookupContentLength
        simp only
        repeat' split
        all_goals exact hreg
      · split
        · next hn =>
          subst hn
          exact connValued_lookupConnection len s s.p
        · next hn => exact hother n hn
  · simp only
    split
    · exact h
    · exact h

theorem connValued_headersLevel (len : Nat) {s : ParserSt} (h : ConnValued s.p) :
    ConnValued (headersLevel len s).state.p := by
  have hlookup : ConnValued (headerLookup len { s with p := markEnd s.p }).1.p :=
    connValued_headerLookup len (s := { s with p := markEnd s.p }) h
  unfold headersLevel headerKeyTurn headerValTurn
  simp only
  repeat' split
  all_goals first
    | exact h
    | exact hlookup

theorem connValued_parserTurn (len : Nat) {s : ParserSt} (h : ConnValued s.p) :
    ConnValued (parserTurn len s).state.p := by
  have hok : ∀ t : ParserSt, ConnValued t.p → ConnValued (mkHttpParserOk t).state.p := by
    intro t ht
    unfold mkHttpParserOk
    repeat' split
    all_goals exact ht
  unfold parserTurn firstLine endLevel bodyLevel
  simp only
  repeat' split
  all_goals first
    | exact h
    | exact hok _ h
    | exact connValued_headersLevel len h

theorem connValued_mkHttpParser (len : Nat) {s : ParserSt} (h : ConnValued s.p) :
    ConnValued (mkHttpParser len s).2.p := by
  refine Loop.run_invariant (M := parserLoop len) (I := fun t => ConnValued t.p)
    (Q := fun _ e => ConnValued e.p) ?_ ?_ h
  · intro t t' ht hb
    have hturn := connValued_parserTurn len ht
    rwa [show parserTurn len t = .next t' from hb] at hturn
  · intro t r e ht hb
    have hturn := connValued_parserTurn len ht
    rwa [show parserTurn len t = .halt r e from hb] at hturn

/-- Only requests of a known version are accepted. -/
theorem parserTurn_version {len : Nat} {s e : ParserSt} (h : parserTurn len s = .halt .ok e) :
    e.req.protocol ≠ .unknown := by
  -- the version is checked where the parser ends, for every level alike
  have hok : ∀ t e : ParserSt, mkHttpParserOk t = .halt .ok e → e.req.protocol ≠ .unknown := by
    intro t e ht
    unfold mkHttpParserOk at ht
    split at ht
    · cases ht
    · split at ht
      · cases ht
      · cases ht
        assumption
  unfold parserTurn at h
  split at h
  · split at h
    · unfold firstLine at h
      simp only at h
      repeat' split at h
      all_goals first
        | cases h
        | exact hok _ _ h
    · split at h
      · cases h
      · exact (headersLevel_not_ok h).elim
    · exact (headersLevel_not_ok h).elim
    · unfold endLevel at h
      repeat' split at h
      all_goals first
        | cases h
        | exact hok _ _ h
    · unfold bodyLevel at h
      simp only at h
      repeat' split at h
      all_goals first
        | cases h
        | exact hok _ _ h
  · cases h

theorem mkHttpParser_version {len : Nat} {s : ParserSt} (h : (mkHttpParser len s).1 = .ok) :
    (mkHttpParser len s).2.req.protocol ≠ .unknown := by
  refine Loop.run_invariant (M := parserLoop len) (I := fun _ => True)
    (Q := fun r e => r = .ok → e.req.protocol ≠ .unknown) (fun _ _ _ _ => trivial) ?_ trivial h
  rintro t r e - hb rfl
  exact parserTurn_version hb

/-! ## The `Connection` row of a response -/

section Calls

variable (k : World) (s : Serving)

@[simp] theorem headerCalls_append (l m : List Act) :
    headerCalls k s (l ++ m) = headerCalls k s l ++ headerCalls k (runActs k s l) m := by
  induction l generalizing s with
  | nil => rfl
  | cons a l ih =>
    simp only [List.cons_append, headerCalls, ih, List.append_assoc]
    rfl

theorem headerCalls_nil {acts : List Act} (h : .headerPrepare ∉ acts) : headerCalls k s acts = [] := by
  induction acts generalizing s with
  | nil => rfl
  | cons a acts ih =>
    have hacts : .headerPrepare ∉ acts := fun hin => h (List.mem_cons_of_mem a hin)
    unfold headerCalls
    rw [ih _ hacts]
    cases a with
    | headerPrepare => exact (h List.mem_cons_self).elim
    | _ => rfl

/-- The blocks of the response are those of the calls. -/
theorem headerCalls_blocks (acts : List Act) :
    headerBlocks (runActs k s acts).out =
      headerBlocks s.out ++ (headerCalls k s acts).map fun c => headerBlock c.1 k.shared c.2 := by
  induction acts generalizing s with
  | nil => simp [runActs, headerCalls]
  | cons a acts ih =>
    have hact : headerBlocks (runAct k s a).out = headerBlocks s.out ++
        (headerCalls k s [a]).map fun c => headerBlock c.1 k.shared c.2 := by
      cases a <;> simp [runAct, Serving.setSr, Serving.setHeaders, Serving.emit, headerBlocks,
        headerCalls]
    calc headerBlocks (runActs k s (a :: acts)).out
        = headerBlocks (runActs k (runAct k s a) acts).out := rfl
      _ = _ := by
        rw [ih, hact, List.append_assoc, ← List.map_append]
        simp [headerCalls]

/-- What the `Connection` row depends on. -/
structure SameConnection (s : Serving) (env : PrepareEnv) (sh : ResponseHeaders) : Prop where
  closeNow : env.closeNow = s.closeNow
  connectionLen : env.connectionLen = s.sr.connection.len
  protocol : env.protocol = s.sr.protocol
  connection : sh.connection = s.sr.headers.connection

variable {k s}

theorem SameConnection.of_runAct {a : Act} (hclose : ∀ b, a ≠ .closeNow b)
    (hconn : ∀ p, a ≠ .connection p) {env : PrepareEnv} {sh : ResponseHeaders}
    (h : SameConnection (runAct k s a) env sh) : SameConnection s env sh := by
  obtain ⟨h1, h2, h3, h4⟩ := h
  cases a with
  | closeNow b => exact (hclose b rfl).elim
  | connection p => exact (hconn p rfl).elim
  | _ => exact ⟨h1, h2, h3, h4⟩

/-- Every header of the answer has the same row. -/
theorem Final.sameConnection {acts : List Act} (h : Final acts) :
    ∀ c ∈ headerCalls k s acts, SameConnection s c.1 c.2 := by
  induction acts generalizing s with
  | nil => simp [headerCalls]
  | cons a acts ih =>
    obtain ⟨⟨hclose, hconn⟩, hacts⟩ := final_cons.mp h
    intro c hc
    rcases List.mem_append.mp hc with hc | hc
    · cases a with
      | headerPrepare =>
        obtain rfl := List.mem_singleton.mp hc
        exact ⟨rfl, rfl, rfl, rfl⟩
      | _ => cases hc
    · exact (ih hacts c hc).of_runAct hclose hconn

end Calls

/-- What a client reads off the header: `Keep-Alive`, or nothing in a response to
an HTTP/1.1 request. -/
def SaysKept (c : PrepareEnv × ResponseHeaders) : Prop :=
  connectionEntries c.1 c.2 = [textEntry (bytes "Connection: Keep-Alive\r\n")] ∨
    connectionEntries c.1 c.2 = [] ∧ c.1.protocol = .v11

section Says

variable (k : World) (s : Serving)

theorem runActs_protocol (acts : List Act) : (runActs k s acts).sr.protocol = s.sr.protocol := by
  induction acts generalizing s with
  | nil => rfl
  | cons a acts ih => exact (ih (runAct k s a)).trans (by cases a <;> rfl)

theorem runActs_headers_connection (acts : List Act) :
    (runActs k s acts).sr.headers.connection = s.sr.headers.connection := by
  induction acts generalizing s with
  | nil => rfl
  | cons a acts ih =>
    refine (ih (runAct k s a)).trans ?_
    cases a with
    | headerAdd row =>
      simp only [runAct, Serving.setHeaders, mkPluginHeaderAdd]
    | _ => rfl

theorem runActs_connection {acts : List Act} (h : ∀ p, .connection p ∉ acts) :
    (runActs k s acts).sr.connection = s.sr.connection := by
  induction acts generalizing s with
  | nil => rfl
  | cons a acts ih =>
    have hacts : ∀ p, .connection p ∉ acts := fun p hin => h p (List.mem_cons_of_mem a hin)
    refine (ih (runAct k s a) hacts).trans ?_
    cases a with
    | connection p => exact (h p List.mem_cons_self).elim
    | _ => rfl

/-- The row of a request that asks for the connection to be kept, or that does
not. -/
theorem saysKept_iff {r : Incoming} {c : PrepareEnv × ResponseHeaders} (hplain : c.2.connection = 0)
    (hlen : c.1.connectionLen = (mkHttpPointHeader r.p .connection).len)
    (hproto : c.1.protocol = r.req.protocol) (hvalued : ConnValued r.p)
    (hopen : c.1.closeNow = false → AsksKeep r) : SaysKept c ↔ c.1.closeNow = false := by
  unfold SaysKept connectionEntries
  rw [if_pos hplain]
  cases hclose : c.1.closeNow with
  | true =>
    rw [if_neg (by decide)]
    simp only [Bool.true_eq_false, iff_false, not_or]
    exact ⟨by decide, fun h => by simp at h⟩
  | false =>
    rw [if_pos rfl]
    simp only [iff_true]
    have hasks := hopen hclose
    by_cases hnew : c.1.protocol = .v11
    · right
      simp [hnew]
    · left
      -- an older version is kept only by a header, which then has a length
      have hka : SaysKeepAlive r := by
        unfold AsksKeep at hasks
        rw [hproto] at hnew
        split at hasks
        · next hv => exact absurd hv hnew
        · exact hasks
        · exact hasks.elim
      have hpos : c.1.connectionLen > 0 := by
        obtain ⟨hdata, hconn⟩ := hka
        rw [hlen]
        unfold mkHttpPointHeader at hdata ⊢
        split at hdata
        · next htype =>
          rw [if_pos htype]
          exact hvalued hconn
        · cases hdata
      rw [if_pos ⟨hpos, hnew⟩]

variable {k}

/-- The headers of a request that gets as far as the keep-alive check say what
`close_now` says. -/
theorem prepare_says {cs : Session} (hka : k.keepAlive = true) (hearly : ¬ RefusedEarly cs.incoming)
    (hversion : cs.incoming.req.protocol ≠ .unknown) (hvalued : ConnValued cs.parser)
    (hplain : cs.sr.headers.connection = 0) :
    ∀ c ∈ (cs.prepare k).headers, SaysKept c ↔ (cs.prepare k).serving.closeNow = false := by
  intro c hc
  set r := cs.incoming with hr
  set s : Serving := { sr := cs.sr, closeNow := cs.closeNow, out := [] } with hs
  set pre := headerSetup k r ++ mkHttpKeepaliveCheck k r (mkHttpPointHeader r.p .connection) ++
    hostSetup k r with hpre
  have hacts : mkHttpRequestPrepare k r = pre ++ answerActs k r :=
    mkHttpRequestPrepare_accepted k r hearly
  -- the header is built by the answer, when `close_now` and the row are settled
  have hquiet : .headerPrepare ∉ pre := by
    have hcheck : Act.headerPrepare ∉
        mkHttpKeepaliveCheck k r (mkHttpPointHeader r.p .connection) := by
      intro hin
      obtain ⟨b, hb⟩ := mem_mkHttpKeepaliveCheck k r hin
      cases hb
    simp only [hpre, List.mem_append, not_or]
    exact ⟨⟨(headerSetup_setsUp k r).not_mem rfl, hcheck⟩, (hostSetup_setsUp k r).not_mem rfl⟩
  have hconn : (runActs k s pre).sr.connection = mkHttpPointHeader r.p .connection := by
    have hcheck : ∀ p, Act.connection p ∉
        mkHttpKeepaliveCheck k r (mkHttpPointHeader r.p .connection) ++ hostSetup k r := by
      intro p hin
      rcases List.mem_append.mp hin with hin | hin
      · obtain ⟨b, hb⟩ := mem_mkHttpKeepaliveCheck k r hin
        cases hb
      · unfold hostSetup at hin
        simp only at hin
        repeat' split at hin
        all_goals simp at hin
    have hsplit : runActs k s pre = runActs k (runActs k s (headerSetup k r))
        (mkHttpKeepaliveCheck k r (mkHttpPointHeader r.p .connection) ++ hostSetup k r) := by
      simp only [hpre, List.append_assoc]
      exact List.foldl_append
    rw [hsplit, runActs_connection k _ hcheck]
    rfl
  have hclose : (cs.prepare k).serving.closeNow = (runActs k s pre).closeNow := by
    calc (cs.prepare k).serving.closeNow
        = decided s.closeNow (pre ++ answerActs k r) := by
          rw [← hacts]
          exact runActs_decided k s _
      _ = decided s.closeNow pre := by
          rw [decided_append, (answerActs_final k r).undecided.decided]
      _ = (runActs k s pre).closeNow := (runActs_decided k s pre).symm
  have hdecided := prepare_closeNow k r s hka hearly hversion
  have hc' : c ∈ headerCalls k (runActs k s pre) (answerActs k r) := by
    have hcalls : (cs.prepare k).headers = headerCalls k s (mkHttpRequestPrepare k r) := rfl
    rw [hcalls, hacts, headerCalls_append, headerCalls_nil k s hquiet, List.nil_append] at hc
    exact hc
  have hsame := (answerActs_final k r).sameConnection c hc'
  have hflag : c.1.closeNow = (cs.prepare k).serving.closeNow := hsame.closeNow.trans hclose.symm
  rw [← hflag]
  refine saysKept_iff (r := r) ?_ ?_ ?_ hvalued ?_
  · rw [hsame.connection, runActs_headers_connection]
    exact hplain
  · rw [hsame.connectionLen, hconn]
  · rw [hsame.protocol, runActs_protocol]
    rfl
  · intro hopen
    rw [hflag] at hopen
    have hfinal : (cs.prepare k).serving.closeNow =
        decide (k.maxKeepAliveRequest ≤ r.counter ∨ ¬ AsksKeep r) := hdecided
    rw [hfinal, decide_eq_false_iff_not, not_or, not_not] at hopen
    exact hopen.2

end Says

/-! ## Runs of a connection -/

/-- The connection is to be kept: keep-alive is on, fewer requests than allowed have
been served, this one included, and the request asks for it. -/
def Wanted (conf : SessionConf) (s : Line) (r : Incoming) : Prop :=
  conf.keepAlive = true ∧ (s.prepared.length : Int) < conf.maxKeepAliveRequest ∧ AsksKeep r

/-- At the end of a response, the connection is kept if and only if it is to be, and
the headers of the response have said so. -/
def KeptAsAsked (conf : SessionConf) (stream : Bytes) (s : Line) : LineEvent → Prop
  | .read _ _ => True
  | .done k => s.removed = false → ∀ pr, s.current = some pr →
    ((s.step conf stream (.done k)).removed = false ↔ Wanted conf s pr.incoming) ∧
      ∀ c ∈ pr.headers, SaysKept c ↔ (s.step conf stream (.done k)).removed = false

/-- The parser does not refuse what stands behind the request. -/
def NextTaken (k : World) (cs : Session) : Prop :=
  (mkHttpParser (cs.startNext k).bodyLength (cs.startNext k).parserSt).1 ≠ .error

/-- Keep-alive is on, the request gets as far as the keep-alive check, it is not the
one that reaches the limit unless it asks to close, and bytes behind it are
acceptable and follow a request that asks to keep the connection. No read comes
while a response is being sent. -/
def Undisturbed (conf : SessionConf) (s : Line) : LineEvent → Prop
  | .read _ _ => s.current = none
  | .done k => ∀ pr, s.current = some pr →
    conf.keepAlive = true ∧ ¬ RefusedEarly pr.incoming ∧
    (AsksKeep pr.incoming → (s.prepared.length : Int) ≠ conf.maxKeepAliveRequest) ∧
    (mkHttpParserMore s.cs.parser s.cs.bodyLength = true →
      (s.prepared.length : Int) ≤ conf.maxKeepAliveRequest →
      AsksKeep pr.incoming ∧ NextTaken (conf.configure k) s.cs)

/-- A session with a record for its next request, after `n` requests. -/
structure Session.Open (cs : Session) (n : Nat) : Prop where
  started : cs.schedInit = true
  counted : cs.counter = n
  valued : ConnValued cs.parser
  plain : cs.sr.headers.connection = 0

/-- The request being answered was accepted, and the session is as its preparation
has left it. -/
structure Serves (conf : SessionConf) (cs : Session) (pr : Prepared) : Prop where
  started : cs.schedInit = true
  prepared : ∃ (k : World) (cs₁ : Session), pr = cs₁.prepare (conf.configure k) ∧
    cs.closeNow = pr.serving.closeNow ∧ cs₁.Open cs.counter ∧
    cs₁.incoming.req.protocol ≠ .unknown

/-- What every call of a session keeps. -/
structure LineInv (conf : SessionConf) (s : Line) : Prop where
  counted : (s.cs.ready conf).counter + (if s.current.isSome then 1 else 0) = s.prepared.length
  valued : ConnValued (s.cs.ready conf).parser
  plain : (s.cs.ready conf).listed = true → (s.cs.ready conf).sr.headers.connection = 0
  serves : ∀ pr, s.current = some pr → Serves conf s.cs pr

section Run

variable {conf : SessionConf} {stream : Bytes} {s : Line}

theorem lineInv_start (cs : Session) : LineInv conf (lineStart cs) := by
  have hready : (lineStart cs).cs.ready conf = mkHttpSessionInit conf (lineStart cs).cs := by
    simp [Session.ready, lineStart]
  refine ⟨?_, ?_, ?_, ?_⟩
  · rw [hready]
    rfl
  · rw [hready]
    exact connValued_init
  · rw [hready]
    intro hlisted
    cases hlisted
  · intro pr hpr
    cases hpr

theorem Session.Open.parsed {cs : Session} {n : Nat} (h : cs.Open n) (len : Nat) :
    (cs.parsed (mkHttpParser len cs.parserSt).2).Open n :=
  ⟨h.started, h.counted, connValued_mkHttpParser len h.valued, h.plain⟩

theorem Session.Open.receive {cs : Session} {n : Nat} (h : cs.Open n) (size : Nat) (bs : Bytes) :
    (cs.receive size bs).Open n :=
  ⟨h.started, h.counted, h.valued, h.plain⟩

theorem Session.Open.enlist {cs : Session} (k : World) (hstarted : cs.schedInit = true)
    (hvalued : ConnValued cs.parser) (hplain : cs.listed = true → cs.sr.headers.connection = 0) :
    (cs.enlist k).Open cs.counter := by
  unfold Session.enlist
  split
  · next hlisted => exact ⟨hstarted, rfl, hvalued, hplain hlisted⟩
  · exact ⟨hstarted, rfl, hvalued, rfl⟩

theorem Session.Open.startNext {cs : Session} (k : World) (hstarted : cs.schedInit = true) :
    (cs.startNext k).Open (cs.counter + 1) :=
  ⟨hstarted, rfl, connValued_init, rfl⟩

/-- The connection waits for the next request or for the rest of it. -/
theorem Session.Open.waiting {cs : Session} {taken : Nat} {prepared : List Incoming}
    (h : cs.Open prepared.length) :
    LineInv conf { cs := cs, taken := taken, current := none, prepared := prepared,
                   removed := false } := by
  have hready : cs.ready conf = cs := ready_of_schedInit h.started
  refine ⟨?_, ?_, ?_, ?_⟩
  all_goals simp only [hready]
  · simpa using h.counted
  · exact h.valued
  · exact fun _ => h.plain
  · intro pr hpr
    cases hpr

/-- A request was accepted and prepared. -/
theorem Session.Open.prepared {k : World} {cs₁ : Session} {taken n : Nat}
    {prepared : List Incoming} (h : cs₁.Open n) (hlen : prepared.length = n + 1)
    (hversion : cs₁.incoming.req.protocol ≠ .unknown) :
    LineInv conf
      { cs := cs₁.served (cs₁.prepare (conf.configure k)), taken := taken,
        current := some (cs₁.prepare (conf.configure k)), prepared := prepared,
        removed := false } := by
  have hready : (cs₁.served (cs₁.prepare (conf.configure k))).ready conf =
      cs₁.served (cs₁.prepare (conf.configure k)) := ready_of_schedInit h.started
  refine ⟨?_, ?_, ?_, ?_⟩
  all_goals simp only [hready]
  · rw [hlen, ← h.counted]
    rfl
  · exact h.valued
  · intro _
    exact (runActs_headers_connection _ _ _).trans h.plain
  · rintro pr hpr
    cases hpr
    exact ⟨h.started, k, cs₁, rfl, rfl, ⟨h.started, rfl, h.valued, h.plain⟩, hversion⟩

theorem LineInv.read (h : LineInv conf s) (halive : s.removed = false) (hidle : s.current = none)
    {t : Turn (Option Nat)} {k : World} (hout : ReadOutcome conf (conf.configure k) s.cs t) :
    (s.afterRead t).removed = true ∨ LineInv conf (s.afterRead t) := by
  have hcounted : (s.cs.ready conf).counter = s.prepared.length := by
    simpa [hidle] using h.counted
  have hopen := Session.Open.enlist (conf.configure k) (ready_schedInit s.cs) h.valued h.plain
  rw [hcounted] at hopen
  obtain ⟨cs, taken, current, prepared, removed⟩ := s
  subst halive hidle
  -- refused, still pending, or accepted and prepared
  rcases hout with ⟨hret, -, -⟩ | ⟨size, bs, cs₀, hcs₀, hpending, rfl⟩ |
    ⟨size, bs, cs₀, cs₁, hcs₀, hok, -, hcs₁, rfl⟩
  · left
    unfold Line.afterRead
    rw [hret]
  · right
    have hopen₀ := hopen.receive size bs
    rw [← hcs₀] at hopen₀
    have hinv : LineInv conf
        { cs := cs₀.parsed (mkHttpParser cs₀.bodyLength cs₀.parserSt).2, taken := taken + bs.length,
          current := none, prepared := prepared, removed := false } :=
      (hopen₀.parsed cs₀.bodyLength).waiting
    simpa [Line.afterRead, Line.after] using hinv
  · right
    have hopen₀ := hopen.receive size bs
    rw [← hcs₀] at hopen₀
    have hopen₁ := hopen₀.parsed cs₀.bodyLength
    have hopen₂ : cs₁.Open prepared.length := by
      rw [hcs₁]
      exact ⟨hopen₁.started, hopen₁.counted, hopen₁.valued, hopen₁.plain⟩
    have hversion : cs₁.incoming.req.protocol ≠ .unknown := by
      rw [hcs₁]
      exact mkHttpParser_version hok
    exact hopen₂.prepared List.length_append hversion

theorem LineInv.done (h : LineInv conf s) (halive : s.removed = false) {pr : Prepared}
    (hpr : s.current = some pr) {t : Turn DoneRet} {k : World}
    (hout : EndOutcome (conf.configure k) s.cs t) :
    (s.afterDone t).removed = true ∨ LineInv conf (s.afterDone t) := by
  have hstarted := (h.serves pr hpr).started
  have hcounted : s.cs.counter + 1 = s.prepared.length := by
    simpa [hpr, ready_of_schedInit hstarted] using h.counted
  have hopen := Session.Open.startNext (conf.configure k) hstarted
  rw [hcounted] at hopen
  obtain ⟨cs, taken, current, prepared, removed⟩ := s
  subst halive
  rcases hout with ⟨-, rfl⟩ | ⟨cs₀, cs₁, -, -, hcs₀, hok, hcs₁, rfl⟩ | ⟨cs₀, -, -, hcs₀, hpending, rfl⟩ |
    ⟨cs₀, -, -, -, -, hret, -, -⟩ | ⟨-, -, -, rfl⟩ | ⟨-, -, -, rfl⟩
  · exact .inl rfl
  · right
    rw [← hcs₀] at hopen
    have hopen₁ := hopen.parsed cs₀.bodyLength
    rw [← hcs₁] at hopen₁
    have hversion : cs₁.incoming.req.protocol ≠ .unknown := by
      rw [hcs₁]
      exact mkHttpParser_version hok
    exact hopen₁.prepared List.length_append hversion
  · right
    rw [← hcs₀] at hopen
    have hinv : LineInv conf
        { cs := cs₀.parsed (mkHttpParser cs₀.bodyLength cs₀.parserSt).2, taken := taken,
          current := none, prepared := prepared, removed := false } :=
      (hopen.parsed cs₀.bodyLength).waiting
    simpa [Line.afterDone, Line.after] using hinv
  · left
    unfold Line.afterDone
    rw [hret]
  · exact .inl rfl
  · right
    -- the record is free again, and will be initialised
    have hready : (mkHttpRequestKaNext { cs with listed := false }).ready conf =
        mkHttpRequestKaNext { cs with listed := false } := ready_of_schedInit hstarted
    refine ⟨?_, ?_, ?_, ?_⟩
    all_goals simp only [Line.afterDone, Line.after, hready]
    · simpa [mkHttpRequestKaNext] using hcounted
    · exact connValued_init
    · intro hlisted
      cases hlisted
    · intro pr hpr
      cases hpr

theorem afterDone_removed (halive : s.removed = false) (t : Turn DoneRet) :
    (s.afterDone t).removed = false ↔ t.ret ≠ .close := by
  unfold Line.afterDone
  cases t.ret <;> simp [Line.after, halive]

/-- When `mk_http_request_end` keeps the connection: below the limit, `close_now` is
looked at only when nothing stands behind the request. -/
theorem mkHttpRequestEnd_kept (k : World) (cs : Session) :
    (mkHttpRequestEnd k cs).ret ≠ .close ↔ ¬ k.maxKeepAliveRequest ≤ cs.counter ∧
      (mkHttpParserMore cs.parser cs.bodyLength = true → NextTaken k cs) ∧
      (mkHttpParserMore cs.parser cs.bodyLength = false → cs.closeNow = false) := by
  unfold NextTaken
  rcases mkHttpRequestEnd_outcome k cs with ⟨hlimit, ht⟩ |
    ⟨cs₀, cs₁, hbelow, hmore, rfl, hok, -, ht⟩ | ⟨cs₀, hbelow, hmore, rfl, hpending, ht⟩ |
    ⟨cs₀, hbelow, hmore, rfl, herror, hret, -, -⟩ | ⟨hbelow, hmore, hclose, ht⟩ |
    ⟨hbelow, hmore, hopen, ht⟩
  · simp [ht, hlimit]
  · simp [ht, hbelow, hmore, hok]
  · simp [ht, hbelow, hmore, hpending]
  · simp [hret, hbelow, hmore, herror]
  · simp [ht, hbelow, hmore, hclose]
  · simp [ht, hbelow, hmore, hopen]

/-- The end of a response, in terms of the request. -/
theorem LineInv.keptAsAsked (h : LineInv conf s) {k : World}
    (hguard : Undisturbed conf s (.done k)) : KeptAsAsked conf stream s (.done k) := by
  intro halive pr hpr
  obtain ⟨hka, hearly, hlast, hbehind⟩ := hguard pr hpr
  obtain ⟨hstarted, k₁, cs₁, hprepare, hflag, hopen, hversion⟩ := h.serves pr hpr
  have hcounted : s.cs.counter + 1 = s.prepared.length := by
    simpa [hpr, ready_of_schedInit hstarted] using h.counted
  have hincoming : pr.incoming = cs₁.incoming := by rw [hprepare]; rfl
  rw [hincoming] at hearly hlast hbehind ⊢
  have hsays := prepare_says (k := conf.configure k₁) hka hearly hversion hopen.valued hopen.plain
  rw [← hprepare, ← hflag] at hsays
  have hdecided : s.cs.closeNow =
      decide (conf.maxKeepAliveRequest ≤ s.cs.counter ∨ ¬ AsksKeep cs₁.incoming) := by
    have hcounter : cs₁.incoming.counter = s.cs.counter := hopen.counted
    rw [hflag, hprepare, ← hcounter]
    exact prepare_closeNow (conf.configure k₁) cs₁.incoming _ hka hearly hversion
  -- `close_now` is what the keep-alive check of this request has left
  have hclose : s.cs.closeNow = false ↔
      ¬ conf.maxKeepAliveRequest ≤ s.cs.counter ∧ AsksKeep cs₁.incoming := by
    rw [hdecided, decide_eq_false_iff_not, not_or, not_not]
  have hkept : (s.step conf stream (.done k)).removed = false ↔ s.cs.closeNow = false := by
    rw [Line.step_done halive k (by rw [hpr]; rfl), afterDone_removed halive,
      mkHttpRequestEnd_kept, configure_maxKeepAliveRequest, hclose]
    cases hmore : mkHttpParserMore s.cs.parser s.cs.bodyLength with
    | true =>
      -- the connection goes on with the next request, as the request has asked
      constructor
      · rintro ⟨hbelow, -, -⟩
        exact ⟨hbelow, (hbehind hmore (by omega)).1⟩
      · rintro ⟨hbelow, -⟩
        exact ⟨hbelow, fun _ => (hbehind hmore (by omega)).2, nofun⟩
    | false =>
      constructor
      · rintro ⟨-, -, hopen⟩
        exact hopen rfl
      · intro hboth
        exact ⟨hboth.1, nofun, fun _ => hboth⟩
  constructor
  · rw [hkept, hclose]
    constructor
    · rintro ⟨hbelow, hasks⟩
      have hne := hlast hasks
      exact ⟨hka, by omega, hasks⟩
    · rintro ⟨-, hless, hasks⟩
      exact ⟨by omega, hasks⟩
  · intro c hc
    rw [hkept]
    exact hsays c hc

/-- What a call keeps, whether it is read or done. -/
theorem LineInv.step (h : LineInv conf s) (halive : s.removed = false) {e : LineEvent}
    (hguard : Undisturbed conf s e) :
    (s.step conf stream e).removed = true ∨ LineInv conf (s.step conf stream e) := by
  cases e with
  | read k n =>
    by_cases hdata : (stream.drop s.taken).take n = []
    · have hsame : s.step conf stream (.read k n) = s := by
        simp only [Line.step, hdata, if_true, ite_self]
      rw [hsame]
      exact .inr h
    · rw [Line.step_read halive k hdata]
      exact h.read halive hguard (mkHttpSchedRead_outcome conf (conf.configure k) s.cs _)
  | done k =>
    cases hpr : s.current with
    | none =>
      have hsame : s.step conf stream (.done k) = s := by simp [Line.step, hpr]
      rw [hsame]
      exact .inr h
    | some pr =>
      rw [Line.step_done halive k (by rw [hpr]; rfl)]
      exact h.done halive hpr (mkHttpRequestEnd_outcome (conf.configure k) s.cs)

end Run

/-! ## Two requests, and keep-alive switched off -/

instance (k : World) (cs : Session) : Decidable (NextTaken k cs) :=
  inferInstanceAs (Decidable (_ ≠ _))

theorem isNone_iff_undisturbed (conf : SessionConf) (s : Line) (k : World) (n : Nat) :
    s.current.isNone = true ↔ Undisturbed conf s (.read k n) :=
  Option.isNone_iff_eq_none

instance (conf : SessionConf) (s : Line) : (e : LineEvent) → Decidable (Undisturbed conf s e)
  | .read k n => decidable_of_iff _ (isNone_iff_undisturbed conf s k n)
  | .done _ => inferInstanceAs (Decidable (∀ pr ∈ s.current, _))

/-- `GET /a` of HTTP/1.0, which asks for nothing. -/
def getFileOld : Bytes := bytes "GET /a HTTP/1.0\r\nHost: x\r\n\r\n"

end SuperExe.Http
