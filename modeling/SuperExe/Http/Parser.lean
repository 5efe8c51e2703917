import SuperExe.Lib.Loop
import SuperExe.Http.Types

/-! # The HTTP request parser

Model of `mk_server/mk_http_parser.c`. One turn of the `for` loop of
`mk_http_parser` is `parserTurn`; the loop runs over the first `len` bytes of
the receive buffer and can be entered again when more bytes have arrived.

`buffer` is the byte sequence of the connection, of which only the first `len`
bytes are there: every access goes through `ParserSt.rd`, which gives the NUL
that the read handler puts behind the received bytes. The buffer is part of the
state because the keys of unknown headers are lower-cased in place. `raised`
collects the status codes of the `mk_http_error` calls.
-/

namespace SuperExe.Http

open SuperExe.Core SuperExe.Lib

structure ParserSt where
  req : ParsedRequest
  p : Parser
  buffer : Nat → UInt8
  raised : List Int

/-- `buffer[x]`. Behind the bytes received this is the NUL that a read sets; where
`memmove` has left old bytes there instead, only `strtol` on a blank
`Content-Length` would see them. -/
def ParserSt.rd (len : Nat) (s : ParserSt) (x : Nat) : UInt8 := if x < len then s.buffer x else 0

/-! ## Initialisation -/

/-- `mk_http_parser_init` -/
def mkHttpParserInit : Parser where
  i := 0
  level := .first
  status := .reqMethod
  method := none
  start := 0
  end_ := 0
  chars := -1
  headerHostPort := 0
  bodyReceived := 0
  headerContentLength := -1
  headerConnection := .empty
  headerKey := -1
  headerSep := -1
  headerVal := -1
  headerMin := -1
  headerMax := -1
  headers := fun _ => { type := 0, key := .null, val := .null }
  headerCount := 0
  headerList := []
  headersExtra := []

/-! ## Lookups -/

/-- The first of `n` positions from `x` on that holds `c`. -/
def findByte (rd : Nat → UInt8) (c : UInt8) : Nat → Nat → Option Nat
  | 0, _ => none
  | n + 1, x => if rd x = c then some x else findByte rd c n (x + 1)

/-- `char_lookup`: the new value of `p->i`. -/
def charLookup (len : Nat) (s : ParserSt) (c : UInt8) : Nat :=
  (findByte (s.rd len) c (len - s.p.i) s.p.i).getD s.p.i

/-- `str_searchr` -/
def strSearchr (buf : Nat → UInt8) (c : UInt8) : Nat → Int
  | 0 => -1
  | n + 1 => if buf n = c then n else strSearchr buf c n

/-- `header_cmp(expected, value, n) == 0` -/
def headerCmp (expected value : Nat → UInt8) (n : Nat) : Bool :=
  (List.range n).all fun k => expected k == tolower (value k)

/-- `method_lookup` -/
def methodLookup (len : Nat) (s : ParserSt) : ParsedRequest :=
  let flen := s.p.end_ - s.p.start
  let req := { s.req with method := .unknown, methodP := { data := some s.p.start, len := flen } }
  let name (m : Method) : Bytes := ((methodsTable.find? fun r => r.1 = m).map Prod.snd).getD []
  let guess := s.p.method.bind fun m =>
    if strncmpEq (fun k => s.rd len (s.p.start + 1 + k)) (fun k => cstr (name m) (k + 1)) (flen - 1)
    then some m else none
  match guess with
  | some m => { req with method := m }
  | none =>
    match methodsTable.find? fun r => r.2.length = flen ∧
        strncmpEq (fun k => s.rd len (s.p.start + k)) (cstr r.2) flen with
    | some r => { req with method := r.1 }
    | none => req

/-! ## Headers -/

/-- The rows of the table between `header_min` and `header_max` whose name is
the key that was read; `-1` is no row. -/
def headerMatch (len : Nat) (s : ParserSt) : Option HeaderName :=
  let klen := s.p.headerSep - s.p.headerKey
  (List.finRange headerSizeof).find? fun n =>
    s.p.headerMin ≤ n ∧ n ≤ s.p.headerMax ∧
      let name := headersTable.getD n []
      name.length = klen ∧
        headerCmp (fun k => cstr name (k + 1))
          (fun k => s.rd len (s.p.headerKey.toNat + 1 + k)) (name.length - 1)

/-- Register a known header: its row, the counter and the list. -/
def registerHeader (p : Parser) (n : HeaderName) : Parser :=
  { p with
    headers := fun m => if m = n then
      { type := n, key := { data := some p.headerKey.toNat, len := p.headerSep - p.headerKey },
        val := { data := some p.headerVal.toNat, len := p.end_ - p.headerVal } }
      else p.headers m
    headerCount := p.headerCount + 1
    headerList := p.headerList ++ [.known n] }

/-- The port of a `Host` header, `host:port`. -/
def lookupHost (len : Nat) (s : ParserSt) (p : Parser) : Parser × Int :=
  let val := p.headerVal.toNat
  let vlen := p.end_ - val
  let sep := strSearchr (fun k => s.rd len (val + k)) 58 vlen
  if sep > 0 then
    -- a port has one to five digits, and nothing behind them
    let plen := (vlen : Int) - sep - 1
    if plen ≤ 0 ∨ plen ≥ 6 then (p, -clientBadRequest)
    else
      let port := (List.range plen.toNat).map fun k => s.rd len (val + sep.toNat + 1 + k)
      let r := strtol (cstr port) port.length 0
      if r.erange then (p, -clientBadRequest)
      else if r.endptr = 0 ∨ cstr port r.endptr ≠ 0 then (p, -clientBadRequest)
      else
        ({ p with
           headerHostPort := r.val
           headers := fun m => if m = HeaderName.host then
             { p.headers m with val := { (p.headers m).val with len := sep } } else p.headers m }, 0)
  else (p, 0)

/-- The number of a `Content-Length` header. -/
def lookupContentLength (len : Nat) (s : ParserSt) (p : Parser) : Parser × Int :=
  let r := strtol (s.rd len) len p.headerVal.toNat
  if r.erange then (p, -clientRequestEntityTooLarge)
  -- no digit, or a negative number: an error without a page
  else if r.endptr = p.headerVal.toNat then (p, -1)
  else if r.val < 0 then (p, -1)
  else ({ p with headerContentLength := r.val }, 0)

/-- `MK_CONN_KEEP_ALIVE`, `MK_CONN_CLOSE` and `MK_CONN_UPGRADE` -/
def connKeepAlive : Bytes := bytes "keep-alive"
def connClose : Bytes := bytes "close"
def connUpgrade : Bytes := bytes "upgrade"

/-- The value of a `Connection` header. -/
def lookupConnection (len : Nat) (s : ParserSt) (p : Parser) : Parser × Int :=
  let val := p.headerVal.toNat
  let vlen := p.end_ - val
  let is (name : Bytes) : Bool := headerCmp (cstr name) (fun k => s.rd len (val + k)) vlen
  let conn :=
    -- a value of one of the three lengths that is another word leaves the old one
    if vlen = connKeepAlive.length then
      if is connKeepAlive then .ka else p.headerConnection
    else if vlen = connClose.length then
      if is connClose then .close else p.headerConnection
    else if vlen = connUpgrade.length then
      if is connUpgrade then .upgrade else p.headerConnection
    else .unknown
  ({ p with headerConnection := conn }, 0)

/-- Lower-case `n` bytes of the buffer from `from_` on. -/
def lowerBytes (buffer : Nat → UInt8) (from_ n : Nat) : Nat → UInt8 :=
  fun x => if from_ ≤ x ∧ x < from_ + n then tolower (buffer x) else buffer x

/-- `header_lookup` -/
def headerLookup (len : Nat) (s : ParserSt) : ParserSt × Int :=
  match headerMatch len s with
  | some n =>
    let p := registerHeader s.p n
    let r := if n = HeaderName.host then lookupHost len s p
      else if n = HeaderName.contentLength then lookupContentLength len s p
      else if n = HeaderName.connection then lookupConnection len s p
      else (p, 0)
    ({ s with p := r.1 }, r.2)
  | none =>
    let p := s.p
    if p.headersExtra.length < headerExtraSize then
      let klen := p.headerSep - p.headerKey
      let header : HttpHeader :=
        { type := 0, key := { data := some p.headerKey.toNat, len := klen },
          val := { data := some p.headerVal.toNat, len := p.end_ - p.headerVal } }
      -- an unknown key is lower-cased where it stands
      ({ s with
         buffer := lowerBytes s.buffer p.headerKey.toNat klen.toNat
         p := { p with
           headersExtra := p.headersExtra ++ [header]
           headerCount := p.headerCount + 1
           headerList := p.headerList ++ [.extra p.headersExtra.length] } }, 0)
    else (s, -clientRequestEntityTooLarge)

/-! ## The loop -/

/-- `mk_http_error` raised by the parser. -/
def raise (s : ParserSt) (code : Int) : ParserSt := { s with raised := s.raised ++ [code] }

/-- `mk_http_parser_ok` -/
def mkHttpParserOk (s : ParserSt) : Outcome ParserSt ParserRet :=
  if s.req.protocol = .unknown then .halt .error (raise s serverHttpVersionUnsup)
  else if (s.req.method = .post ∨ s.req.method = .put) ∧
      (s.p.headers .contentLength).type = 0 then .halt .error (raise s clientLengthRequired)
  else .halt .ok s

/-- `continue`: the loop moves on to the next byte. -/
def goOn (s : ParserSt) (p : Parser) : Outcome ParserSt ParserRet :=
  .next { s with p := { p with i := p.i + 1, chars := p.chars + 1 } }

/-- `mark_end()` -/
def markEnd (p : Parser) : Parser := { p with end_ := p.i, chars := -1 }

/-- `start_next()` -/
def startNext (s : ParserSt) (p : Parser) : Outcome ParserSt ParserRet :=
  goOn s { p with start := p.i + 1 }

/-- `request_set` -/
def requestSet (p : Parser) : MkPtr := { data := some p.start, len := (p.end_ : Int) - p.start }

/-- The method the first byte of a request suggests. -/
def methodGuess (c : UInt8) (old : Option Method) : Option Method :=
  if c = 71 then some .get
  else if c = 80 then some .post
  else if c = 72 then some .head
  else if c = 68 then some .delete
  else if c = 79 then some .options
  else old

/-- `mk_http_set_minor_version` -/
def minorVersion (c : UInt8) : Protocol := if c = 49 then .v11 else if c = 48 then .v10 else .unknown

/-- `REQ_LEVEL_FIRST` -/
def firstLine (len : Nat) (s : ParserSt) : Outcome ParserSt ParserRet :=
  let p := s.p
  let c := s.rd len p.i
  match p.status with
  | .reqMethod =>
    -- the first byte only suggests a method; the look-up comes at the blank
    if p.chars = -1 then goOn s { p with method := methodGuess c p.method }
    else if c = 32 then
      let p := { markEnd p with status := .reqUri }
      if p.end_ < 2 then .halt .error { s with p := p }
      else startNext { s with req := methodLookup len { s with p := p } } p
    else if (p.i : Int) - p.start > 10 then .halt .error s
    else goOn s p
  | .reqUri =>
    if c = 32 then
      let p := { markEnd p with status := .reqProtVersion }
      if (p.end_ : Int) - p.start < 1 then .halt .error { s with p := p }
      else startNext { s with req := { s.req with uri := requestSet p } } p
    -- `?` ends the URI and starts the query string
    else if c = 63 then
      let p := markEnd p
      startNext { s with req := { s.req with uri := requestSet p } }
        { p with status := .reqQueryString }
    else if c = 13 ∨ c = 10 then .halt .error (raise s clientBadRequest)
    else goOn s p
  | .reqQueryString =>
    -- the cursor jumps to the blank, if it has come
    let p := { p with i := charLookup len s 32 }
    let c := s.rd len p.i
    if c = 32 then
      let p := markEnd p
      startNext { s with req := { s.req with queryString := requestSet p } }
        { p with status := .reqProtVersion }
    else if c = 13 ∨ c = 10 then .halt .error (raise { s with p := p } clientBadRequest)
    else goOn s p
  | .reqProtVersion =>
    -- `HTTP/1.` and one byte more, which is the minor version
    if p.start + 6 ≥ p.i then goOn s p
    else if (List.range 7).map (fun k => s.rd len (p.start + k)) = bytes "HTTP/1." then
      goOn { s with req := { s.req with
          protocolP := { requestSet p with len := 8 }
          protocol := minorVersion (s.rd len (p.start + 7)) } }
        { p with status := .firstContinue }
    else .halt .error (raise s serverHttpVersionUnsup)
  | .firstContinue =>
    if c = 13 then goOn s { p with status := .firstFinalizing } else .halt .error s
  | .firstFinalizing =>
    if c = 10 then startNext s { p with level := .cont } else .halt .error s
  | .blockEnd => if c = 10 then mkHttpParserOk s else .halt .error s
  | _ => goOn s p

/-- `header_min` and `header_max` for the first byte of a key. -/
def headerScope (c : UInt8) : Int × Int :=
  let c := tolower c
  if c = 97 then (HeaderName.accept, HeaderName.authorization)
  else if c = 99 then (HeaderName.cacheControl, HeaderName.contentType)
  else if c = 104 then (HeaderName.host, HeaderName.host)
  else if c = 105 then (HeaderName.ifModifiedSince, HeaderName.ifModifiedSince)
  else if c = 108 then (HeaderName.lastModified, HeaderName.lastModifiedSince)
  else if c = 114 then (HeaderName.range, HeaderName.referer)
  else if c = 117 then (HeaderName.upgrade, HeaderName.userAgent)
  else (-1, -1)

/-- `MK_ST_HEADER_KEY` -/
def headerKeyTurn (len : Nat) (s : ParserSt) : Outcome ParserSt ParserRet :=
  let p := s.p
  let c := s.rd len p.i
  if c = 13 then
    if p.chars = 0 then startNext s { p with level := .end_ } else .halt .error s
  else if p.chars = 0 then
    -- the default branch also clears `header_sep`; no other branch does
    let p := if headerScope c = (-1, -1) then { p with headerSep := -1 } else p
    goOn s { p with headerMin := (headerScope c).1, headerMax := (headerScope c).2,
                    headerKey := p.i }
  else
    -- the cursor jumps to the colon, if it has come
    let p := { p with i := charLookup len s 58 }
    if s.rd len p.i = 58 then
      let p := markEnd { p with headerSep := p.i }
      if (p.end_ : Int) - p.start < 1 then .halt .error { s with p := p }
      else startNext s { p with status := .headerValue }
    else goOn s p

/-- `MK_ST_HEADER_VAL_STARTS` -/
def headerValTurn (len : Nat) (s : ParserSt) : Outcome ParserSt ParserRet :=
  let p := s.p
  let c := s.rd len p.i
  if c = 13 then
    let p := markEnd p
    if (p.end_ : Int) - p.start ≤ 0 then .halt .error { s with p := p }
    else
      -- the whole value is there: the row is registered
      let r := headerLookup len { s with p := p }
      let s := r.1
      if r.2 ≠ 0 then
        .halt .error (if r.2 < -1 then raise s (-r.2) else s)
      else if s.p.i + 1 < len ∧ s.rd len (s.p.i + 1) = 10 then
        -- the LF is there already
        startNext s { s.p with i := s.p.i + 1, status := .headerKey, chars := -1 }
      else startNext s { s.p with status := .headerEnd }
  else if c = 10 ∧ s.rd len (p.i - 1) ≠ 13 then .halt .error s
  else goOn s p

/-- `REQ_LEVEL_HEADERS` -/
def headersLevel (len : Nat) (s : ParserSt) : Outcome ParserSt ParserRet :=
  let p := s.p
  let c := s.rd len p.i
  match p.status with
  | .headerKey => headerKeyTurn len s
  | .headerValue =>
    if c = 13 ∨ c = 10 then .halt .error s
    else if c ≠ 32 then goOn s { p with status := .headerValStarts, start := p.i, headerVal := p.i }
    else goOn s p
  | .headerValStarts => headerValTurn len s
  | .headerEnd =>
    if c = 10 then startNext s { p with status := .headerKey, chars := -1 } else .halt .error s
  | _ => goOn s p

/-- `REQ_LEVEL_END` -/
def endLevel (len : Nat) (s : ParserSt) : Outcome ParserSt ParserRet :=
  if s.rd len s.p.i = 10 then
    if s.p.headerContentLength > 0 then startNext s { s.p with level := .body, chars := -1 }
    else mkHttpParserOk s
  else .halt .error s

/-- `REQ_LEVEL_BODY`: the body is taken to be everything received so far. -/
def bodyLevel (len : Nat) (s : ParserSt) : Outcome ParserSt ParserRet :=
  if s.p.headerContentLength > 0 then
    let received : Int := (len : Int) - s.p.start
    let s := { s with p := { s.p with bodyReceived := received } }
    if received < s.p.headerContentLength then .halt .pending s
    else
      mkHttpParserOk { s with
        p := { s.p with i := s.p.i + received.toNat }
        req := { s.req with data := { data := some s.p.start, len := received } } }
  else mkHttpParserOk s

/-- One turn of the loop. -/
def parserTurn (len : Nat) (s : ParserSt) : Outcome ParserSt ParserRet :=
  if s.p.i < len then
    match s.p.level with
    | .first => firstLine len s
    | .cont =>
      if s.rd len s.p.i = 13 then goOn s { s.p with level := .first, status := .blockEnd }
      else
        -- the same byte starts the first header key
        headersLevel len { s with p := { s.p with level := .headers, status := .headerKey,
                                                  chars := 0 } }
    | .headers => headersLevel len s
    | .end_ => endLevel len s
    | .body => bodyLevel len s
  else .halt .pending s

/-! ## Turns that end the loop -/

theorem mkHttpParserOk_halt (s : ParserSt) :
    ∃ r s', mkHttpParserOk s = .halt r s' ∧ r ≠ .pending := by
  unfold mkHttpParserOk
  repeat' split
  all_goals exact ⟨_, _, rfl, by decide⟩

/-- The body level waits for more bytes or ends the request. -/
theorem bodyLevel_halt (len : Nat) (s : ParserSt) : ∃ r s', bodyLevel len s = .halt r s' := by
  unfold bodyLevel
  simp only
  split
  · split
    · exact ⟨_, _, rfl⟩
    · obtain ⟨r, s', h, -⟩ := mkHttpParserOk_halt { s with
        p := { s.p with i := s.p.i + ((len : Int) - s.p.start).toNat
                        bodyReceived := (len : Int) - s.p.start }
        req := { s.req with data := { data := some s.p.start, len := (len : Int) - s.p.start } } }
      exact ⟨r, s', h⟩
  · obtain ⟨r, s', h, -⟩ := mkHttpParserOk_halt s
    exact ⟨r, s', h⟩

/-! ## The cursor moves forward -/

theorem findByte_some {rd : Nat → UInt8} {c : UInt8} {n x y : Nat}
    (h : findByte rd c n x = some y) : x ≤ y ∧ y < x + n ∧ rd y = c := by
  induction n generalizing x with
  | zero => simp [findByte] at h
  | succ n ih =>
    unfold findByte at h
    by_cases hc : rd x = c
    · rw [if_pos hc] at h
      have hy : x = y := Option.some.inj h
      subst hy
      exact ⟨Nat.le_refl _, by omega, hc⟩
    · rw [if_neg hc] at h
      obtain ⟨h1, h2, h3⟩ := ih h
      exact ⟨by omega, by omega, h3⟩

theorem le_charLookup (len : Nat) (s : ParserSt) (c : UInt8) : s.p.i ≤ charLookup len s c := by
  unfold charLookup
  cases h : findByte (s.rd len) c (len - s.p.i) s.p.i with
  | none => exact Nat.le_refl _
  | some y => exact (findByte_some h).1

/-- The next state, if the turn goes on, is past position `i`. -/
def Past (i : Nat) : Outcome ParserSt ParserRet → Prop
  | .next s => i < s.p.i
  | .halt _ _ => True

theorem past_goOn {i : Nat} {s : ParserSt} {p : Parser} (h : i ≤ p.i) : Past i (goOn s p) :=
  Nat.lt_succ_of_le h

theorem past_startNext {i : Nat} {s : ParserSt} {p : Parser} (h : i ≤ p.i) :
    Past i (startNext s p) := Nat.lt_succ_of_le h

theorem past_mkHttpParserOk (i : Nat) (s : ParserSt) : Past i (mkHttpParserOk s) := by
  obtain ⟨r, s', h, -⟩ := mkHttpParserOk_halt s
  rw [h]
  trivial

theorem headerLookup_i (len : Nat) (s : ParserSt) : (headerLookup len s).1.p.i = s.p.i := by
  unfold headerLookup
  split
  · simp only
    split
    · simp only [lookupHost]
      repeat' split
      all_goals rfl
    · split
      · simp only [lookupContentLength]
        repeat' split
        all_goals rfl
      · split <;> rfl
  · simp only
    split <;> rfl

theorem past_firstLine (len : Nat) (s : ParserSt) : Past s.p.i (firstLine len s) := by
  have hlookup := le_charLookup len s 32
  unfold firstLine
  simp only
  repeat' split
  all_goals first
    | trivial
    | exact past_mkHttpParserOk _ _
    | exact past_goOn (Nat.le_refl _)
    | exact past_startNext (Nat.le_refl _)
    | exact past_goOn hlookup

theorem past_headersLevel (len : Nat) (s : ParserSt) : Past s.p.i (headersLevel len s) := by
  have hlookup := le_charLookup len s 58
  unfold headersLevel
  simp only
  split
  · unfold headerKeyTurn
    simp only
    repeat' split
    all_goals first
      | trivial
      | exact past_goOn (Nat.le_refl _)
      | exact past_startNext (Nat.le_refl _)
      | exact past_goOn hlookup
  · repeat' split
    all_goals first
      | trivial
      | exact past_goOn (Nat.le_refl _)
  · unfold headerValTurn
    have hi := headerLookup_i len { s with p := markEnd s.p }
    have hi' : (headerLookup len { s with p := markEnd s.p }).1.p.i = s.p.i := hi
    simp only
    repeat' split
    all_goals first
      | trivial
      | exact past_goOn (Nat.le_refl _)
      | exact past_startNext (by simp only; omega)
  · repeat' split
    all_goals first
      | trivial
      | exact past_startNext (Nat.le_refl _)
  · exact past_goOn (Nat.le_refl _)

theorem past_parserTurn (len : Nat) (s : ParserSt) : Past s.p.i (parserTurn len s) := by
  unfold parserTurn
  split
  · split
    · exact past_firstLine len s
    · split
      · exact past_goOn (Nat.le_refl _)
      · exact past_headersLevel len _
    · exact past_headersLevel len s
    · unfold endLevel
      repeat' split
      all_goals first
        | trivial
        | exact past_mkHttpParserOk _ _
        | exact past_startNext (Nat.le_refl _)
    · obtain ⟨r, s', h⟩ := bodyLevel_halt len s
      rw [h]
      trivial
  · trivial

theorem parserTurn_next {len : Nat} {s s' : ParserSt} (h : parserTurn len s = .next s') :
    s.p.i < len ∧ s.p.i < s'.p.i := by
  have hpast := past_parserTurn len s
  rw [h] at hpast
  refine ⟨?_, hpast⟩
  by_contra hlen
  simp [parserTurn, hlen] at h

/-! ## The parser -/

/-- The `for` loop of `mk_http_parser` over the first `len` bytes. -/
def parserLoop (len : Nat) : Loop ParserSt ParserRet where
  body := parserTurn len
  rank s := len - s.p.i
  falls h := by
    have := parserTurn_next h
    omega

/-- `mk_http_parser` -/
def mkHttpParser (len : Nat) (s : ParserSt) : ParserRet × ParserSt := (parserLoop len).run s

/-- `mk_http_parser_more`: is there something behind the request? -/
def mkHttpParserMore (p : Parser) (len : Nat) : Bool := ((len : Int) - p.i).natAbs - 1 > 0

end SuperExe.Http
