import SuperExe.Lib.Trace
import SuperExe.Http.Interleaving
import SuperExe.Http.ParserFrame
import SuperExe.Http.Record

/-! # One record for all requests of a connection

`cs->sr_fixed` is used for every request of a connection: `mk_http_request_init`
resets part of it, the parser and `mk_http_request_prepare` assign more, and what
none of them assigns is still the value of an earlier request. `serve` is what
happens to the record from the first byte of a request to its answer;
`Arrival.assigned` lists the fields a request assigns.
-/

namespace SuperExe.Http

open SuperExe.Core SuperExe.Lib SuperExe.Vhost

/-! ## A connection -/

/-- A request as it arrives on a connection: the bytes that come in, how many of
them are there at each call of the parser, and the world it finds. The parser
accepts it. -/
structure Arrival where
  world : World
  bytes : Bytes
  first : Nat
  rest : List Nat
  ok : (feed (parserFresh parsedRequestZero bytes) first rest).1.1 = .ok

/-- The record, `cs->close_now`, `cs->counter_connections` and what the last
request has sent off. -/
structure ConnSt where
  sr : HttpRequest
  closeNow : Bool
  counter : Nat
  out : List Out

/-- What the parser leaves when it writes into `q`. -/
def Arrival.parse (e : Arrival) (q : ParsedRequest) : ParserSt :=
  (feed (parserFresh q e.bytes) e.first e.rest).1.2

/-- The accepted request, as `mk_http_request_prepare` finds it. -/
def Arrival.incoming (e : Arrival) (q : ParsedRequest) (counter : Nat) : Incoming where
  req := (e.parse q).req
  p := (e.parse q).p
  buffer := (e.parse q).buffer
  counter := counter

/-- `mk_http_request_init` and `mk_http_parser`. -/
def received (s : ConnSt) (e : Arrival) : HttpRequest :=
  let sr := mkHttpRequestInit e.world s.sr
  { sr with toParsedRequest := (e.parse sr.toParsedRequest).req }

/-- One request: the record is reset, the parser fills it in and
`mk_http_request_prepare` answers. -/
def serve (s : ConnSt) (e : Arrival) : ConnSt :=
  let q := (mkHttpRequestInit e.world s.sr).toParsedRequest
  let s' := runActs e.world { sr := received s e, closeNow := s.closeNow, out := [] }
    (mkHttpRequestPrepare e.world (e.incoming q s.counter))
  { sr := s'.sr, closeNow := s'.closeNow, counter := s.counter + 1, out := s'.out }

/-- All requests of a connection, one after the other. -/
def connection : Machine ConnSt Arrival where
  step := serve

/-- A record that has just been allocated. -/
def httpRequestZero : HttpRequest where
  toParsedRequest := parsedRequestZero
  status := false
  userHome := false
  port := 0
  uriProcessed := none
  contentLengthP := .null
  contentType := []
  connection := .null
  host := .null
  ifModifiedSince := .null
  range := .null
  realPath := none
  stage30Blocked := false
  stage30Handler := none
  fileInfo := { present := false, isFile := false, isLink := false, isDirectory := false,
                execAccess := false, readAccess := false, size := 0, lastModification := 0 }
  fileStream := { fd := 0, bytesTotal := 0, bytesOffset := 0, preserve := false }
  hostConf := none
  hostAlias := none
  headers := responseHeadersZero

/-- `mk_http_session_init` -/
def connStart : ConnSt where
  sr := httpRequestZero
  closeNow := false
  counter := 0
  out := []

/-! ## What a request assigns -/

/-- What `mk_http_request_prepare` does with the request. -/
def Arrival.acts (e : Arrival) (counter : Nat) : List Act :=
  mkHttpRequestPrepare e.world (e.incoming parsedRequestZero counter)

/-- The fields the parser assigns. -/
def Arrival.parserFields (e : Arrival) : List Field :=
  [.method, .methodP, .uri, .protocol, .protocolP] ++
    (if hasQuery e.bytes then [.queryString] else []) ++
    (if 0 < (e.parse parsedRequestZero).p.headerContentLength then [.data] else [])

/-- All fields a request assigns; the number of earlier requests makes no
difference. -/
def Arrival.assigned (e : Arrival) : List Field :=
  initFields ++ e.parserFields ++ actsFields (e.acts 0)

/-- The parser writes the same into every record. -/
theorem Arrival.parse_over (e : Arrival) :
    ∃ c, (∀ q : ParsedRequest, q.method = .unknown → q.protocol = .unknown →
      e.parse q = c.over q) ∧ AllFilled e.bytes c := by
  obtain ⟨r, c, n, hfeed, hok⟩ := feed_over e.bytes e.first e.rest
  refine ⟨c, ?_, hok ?_⟩
  · intro q hm hp
    rw [Arrival.parse, hfeed q hm hp]
  · have hacc := e.ok
    rwa [hfeed parsedRequestZero rfl rfl] at hacc

/-- Every record gives the same request. -/
theorem Arrival.sameRequest (e : Arrival) (q q' : ParsedRequest) (counter counter' : Nat)
    (hm : q.method = .unknown) (hp : q.protocol = .unknown)
    (hm' : q'.method = .unknown) (hp' : q'.protocol = .unknown) :
    SameRequest (e.incoming q counter) (e.incoming q' counter') := by
  obtain ⟨c, hparse, hall⟩ := e.parse_over
  obtain ⟨u, hu⟩ := Option.isSome_iff_exists.mp hall.uri
  have huri : ∀ q, (c.over q).req.uri = u := by
    intro q
    simp only [ParserCore.over, Patch.over, hu, Option.getD_some]
  constructor
  all_goals simp only [Arrival.incoming, hparse q hm hp, hparse q' hm' hp']
  · rfl
  · rw [huri, huri]
  · rfl
  · rfl
  · rfl

/-- What the parser leaves in the record, and how much of it is its own. -/
theorem Arrival.received_over (e : Arrival) :
    ∃ a : Patch, (∀ s, (received s e).toParsedRequest =
        a.over (mkHttpRequestInit e.world s.sr).toParsedRequest) ∧
      a.methodP.isSome = true ∧ a.uri.isSome = true ∧ a.protocolP.isSome = true ∧
      a.queryString.isSome = decide (.queryString ∈ e.parserFields) ∧
      a.data.isSome = decide (.data ∈ e.parserFields) := by
  obtain ⟨c, hparse, hall⟩ := e.parse_over
  refine ⟨c.a, ?_, hall.methodP, hall.uri, hall.protocolP, ?_, ?_⟩
  · intro s
    have hp := hparse (mkHttpRequestInit e.world s.sr).toParsedRequest rfl rfl
    simp only [received, hp]
    rfl
  · rw [hall.queryString]
    cases hq : hasQuery e.bytes <;> simp [Arrival.parserFields, hq]
  · have hp : (e.parse parsedRequestZero).p = c.p := by rw [hparse parsedRequestZero rfl rfl]; rfl
    rw [hall.data]
    by_cases hcl : 0 < c.p.headerContentLength <;> simp [Arrival.parserFields, hp, hcl]

section Serve

variable (s t : ConnSt) (e : Arrival) {f : Field}

/-- Before the acts, a field that is not assigned is as it was. -/
theorem received_other (hinit : f ∉ initFields) (hparser : f ∉ e.parserFields) :
    (received s e).get f = s.sr.get f := by
  obtain ⟨a, hover, -, -, -, hquery, hdata⟩ := e.received_over
  cases f with
  | queryString =>
    have hnone : a.queryString = none := by
      rw [← Option.not_isSome_iff_eq_none, hquery]
      simpa using hparser
    calc (received s e).queryString
      _ = (a.over (mkHttpRequestInit e.world s.sr).toParsedRequest).queryString := by rw [hover]
      _ = s.sr.queryString := by simp only [Patch.over, hnone, Option.getD_none]; rfl
  | data =>
    have hnone : a.data = none := by
      rw [← Option.not_isSome_iff_eq_none, hdata]
      simpa using hparser
    calc (received s e).data
      _ = (a.over (mkHttpRequestInit e.world s.sr).toParsedRequest).data := by rw [hover]
      _ = s.sr.data := by simp only [Patch.over, hnone, Option.getD_none]; rfl
  | methodP => simp [Arrival.parserFields] at hparser
  | uri => simp [Arrival.parserFields] at hparser
  | protocolP => simp [Arrival.parserFields] at hparser
  | _ => first
    | rfl
    | simp [initFields] at hinit

/-- Before the acts, an assigned field does not depend on the old record. -/
theorem received_assigned (h : f ∈ initFields ∨ f ∈ e.parserFields) :
    (received s e).get f = (received t e).get f := by
  obtain ⟨a, hover, hmethod, huri, hprotocol, hquery, hdata⟩ := e.received_over
  -- what the patch holds is the same in both records
  have hslice : ∀ {o : Option MkPtr}, o.isSome = true → ∀ x y, o.getD x = o.getD y := by
    intro o ho x y
    obtain ⟨v, rfl⟩ := Option.isSome_iff_exists.mp ho
    rfl
  have hboth : ∀ {α : Type} (g : ParsedRequest → α), (∀ q q', g (a.over q) = g (a.over q')) →
      g (received s e).toParsedRequest = g (received t e).toParsedRequest := by
    intro α g hg
    rw [hover, hover]
    exact hg _ _
  cases f with
  | method => exact hboth (·.method) fun _ _ => rfl
  | protocol => exact hboth (·.protocol) fun _ _ => rfl
  | methodP => exact hboth (·.methodP) fun _ _ => hslice hmethod _ _
  | uri => exact hboth (·.uri) fun _ _ => hslice huri _ _
  | protocolP => exact hboth (·.protocolP) fun _ _ => hslice hprotocol _ _
  | queryString =>
    have hsome : a.queryString.isSome = true := by
      rw [hquery]
      simpa [initFields] using h
    exact hboth (·.queryString) fun _ _ => hslice hsome _ _
  | data =>
    have hsome : a.data.isSome = true := by
      rw [hdata]
      simpa [initFields] using h
    exact hboth (·.data) fun _ _ => hslice hsome _ _
  | _ => first
    | rfl
    | (simp [initFields, Arrival.parserFields] at h)

/-- The acts of a request on the record are the same on every connection. -/
theorem serve_filter (g : Field) :
    (serve s e).sr.get g = (runActs e.world ⟨received s e, s.closeNow, []⟩
      ((e.acts 0).filter Act.onRecord)).sr.get g := by
  have hsame := e.sameRequest (mkHttpRequestInit e.world s.sr).toParsedRequest parsedRequestZero
    s.counter 0 rfl rfl rfl rfl
  rw [Arrival.acts, ← mkHttpRequestPrepare_filter hsame]
  exact runActs_filter fun _ => rfl

theorem mem_actsFields_filter (acts : List Act) :
    f ∈ actsFields (acts.filter Act.onRecord) ↔ f ∈ actsFields acts := by
  simp only [actsFields, List.mem_flatMap, List.mem_filter]
  constructor
  · rintro ⟨a, ⟨ha, -⟩, hf⟩
    exact ⟨a, ha, hf⟩
  · rintro ⟨a, ha, hf⟩
    refine ⟨a, ⟨ha, ?_⟩, hf⟩
    cases a <;> simp_all [Act.onRecord, Act.fields]

/-- A field that a request does not assign still holds the value of an earlier
request. -/
theorem serve_other (h : f ∉ e.assigned) : (serve s e).sr.get f = s.sr.get f := by
  simp only [Arrival.assigned, List.mem_append, not_or] at h
  obtain ⟨⟨hinit, hparser⟩, hacts⟩ := h
  rw [serve_filter, runActs_other (by rwa [mem_actsFields_filter])]
  exact received_other s e hinit hparser

/-- A field that a request assigns is the same after every history. -/
theorem serve_assigned (h : f ∈ e.assigned) : (serve s e).sr.get f = (serve t e).sr.get f := by
  simp only [Arrival.assigned, List.mem_append] at h
  rw [serve_filter, serve_filter]
  refine runActs_agree (received_assigned s t e (.inl (by decide))) ?_
  rw [mem_actsFields_filter]
  exact h.symm.imp_right (received_assigned s t e)

end Serve

/-- Three fields that no act assigns: the parser's optional slices and
`custom_status`. -/
theorem unassigned_acts (acts : List Act) :
    .queryString ∉ actsFields acts ∧ .data ∉ actsFields acts ∧ .shCustomStatus ∉ actsFields acts := by
  have hact : ∀ a : Act, .queryString ∉ a.fields ∧ .data ∉ a.fields ∧ .shCustomStatus ∉ a.fields := by
    intro a
    cases a with
    | fileInfo stat => cases stat <;> simp [Act.fields]
    | _ => simp [Act.fields]
  simp only [actsFields, List.mem_flatMap, not_exists, not_and]
  exact ⟨fun a _ => (hact a).1, fun a _ => (hact a).2.1, fun a _ => (hact a).2.2⟩

/-- The query string is stale when the request line has no `?`. -/
theorem queryString_assigned (e : Arrival) : .queryString ∈ e.assigned ↔ hasQuery e.bytes = true := by
  cases hq : hasQuery e.bytes <;>
    simp [Arrival.assigned, Arrival.parserFields, initFields, unassigned_acts, hq]

/-- The body slice is stale when the request declares no body. -/
theorem data_assigned (e : Arrival) :
    .data ∈ e.assigned ↔ 0 < (e.parse parsedRequestZero).p.headerContentLength := by
  by_cases hcl : 0 < (e.parse parsedRequestZero).p.headerContentLength <;>
    simp [Arrival.assigned, Arrival.parserFields, initFields, unassigned_acts, hcl]

/-- Two histories of a connection leave the same record behind the next request
iff they leave the same value in every field that this request does not assign. -/
theorem request_isolation_iff (es fs : List Arrival) (e : Arrival) :
    (∀ f, (connection.run connStart (es ++ [e])).sr.get f =
        (connection.run connStart (fs ++ [e])).sr.get f) ↔
      ∀ f, f ∉ e.assigned →
        (connection.run connStart es).sr.get f = (connection.run connStart fs).sr.get f := by
  simp only [Machine.run_concat]
  generalize connection.run connStart es = s
  generalize connection.run connStart fs = t
  constructor
  · intro h f hf
    calc s.sr.get f
      _ = (serve s e).sr.get f := (serve_other s e hf).symm
      _ = (serve t e).sr.get f := h f
      _ = t.sr.get f := serve_other t e hf
  · intro h f
    by_cases hf : f ∈ e.assigned
    · exact serve_assigned s t e hf
    · calc (serve s e).sr.get f
        _ = s.sr.get f := serve_other s e hf
        _ = t.sr.get f := h f hf
        _ = (serve t e).sr.get f := (serve_other t e hf).symm

/-! ## A stale query string -/

/-- A site with one file, `/a`. -/
def worldSite : World where
  defaultHost := { documentroot := bytes "/srv", serverNames := [bytes "x"], headerRedirect := none,
                   errorPages := [], handlers := [] }
  hosts := []
  keepAlive := true
  maxKeepAliveRequest := 10
  userDir := none
  resume := true
  symlink := false
  indexFiles := none
  standardPort := 80
  serverSignature := bytes "Monkey"
  ssl := false
  mimetypeFind := fun _ => none
  mimetypeDefault := bytes "Content-Type: text/plain\r\n"
  fileStat := fun path => if path = bytes "/srv/a" then
    .found { present := true, isFile := true, isLink := false, isDirectory := false,
             execAccess := false, readAccess := true, size := 5, lastModification := 16 }
    else .missing false
  access := fun _ => false
  readlink := fun _ => false
  openFile := fun _ => -1
  vhostOpen := fun _ => 7
  gmt2utime := fun _ => -1
  getpwnam := fun _ => none
  stage20Close := false
  stage30 := fun _ => .notMe
  utime2gmt := fun _ => bytes "Thu, 01 Jan 1970 00:00:16 GMT\r\n"
  shared := sharedMonkey

/-- `GET /a?q` -/
def getAQuery : Arrival where
  world := worldSite
  bytes := bytes "GET /a?q HTTP/1.1\r\nHost: x\r\n\r\n"
  first := 31
  rest := []
  ok := by decide

/-- `GET /b` -/
def getB : Arrival where
  world := worldSite
  bytes := bytes "GET /b HTTP/1.1\r\nHost: x\r\n\r\n"
  first := 29
  rest := []
  ok := by decide

/-- Behind `GET /a?q`, the record of `GET /b` has a query string. -/
theorem request_isolation_stale_query :
    ¬ ∀ (es fs : List Arrival) (e : Arrival) (f : Field),
      (connection.run connStart (es ++ [e])).sr.get f =
        (connection.run connStart (fs ++ [e])).sr.get f := by
  intro h
  have hquery : (connection.run connStart ([getAQuery] ++ [getB])).sr.queryString =
      (connection.run connStart ([] ++ [getB])).sr.queryString := h [getAQuery] [] getB .queryString
  revert hquery
  decide

end SuperExe.Http
