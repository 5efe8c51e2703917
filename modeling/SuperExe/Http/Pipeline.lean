import SuperExe.Http.KeepAlive
import SuperExe.Http.Prefix
import SuperExe.Http.Session

/-! # Pipelined requests

A client sends requests one after the other, without waiting for the responses;
the reads of the server cut them anywhere, and a response may end before or after
the next request has come. Between two calls a connection is in one of two phases
(`Waiting`, `Answering`), and each call moves it on to the next phase or leaves it
in its own. The parser may be stopped inside a request any number of times
(`Session.Reads`), at cuts behind which it can go on (`Resumes`), and what stands
behind a request in the buffer is moved to its front at the end of the response.

One path does not fit: when a response ends and the buffer holds a part of the next
request, `mk_http_request_end` returns with `cs->status` still
`MK_REQUEST_STATUS_COMPLETED`, and `mk_http_sched_read` aborts the connection as soon
as the rest has come. `pipelined_in_order` is about the runs that do not take it.
-/

namespace SuperExe.Http

open SuperExe.Core SuperExe.Lib SuperExe.Sched

/-! ## The parser of a session -/

section Parse

variable {r : Bytes} (rest : Bytes)

theorem trim_buffer {L : Nat} {s t : ParserSt} (h : s.trim L = t.trim L) {x : Nat} (hx : x < L) :
    s.buffer x = t.buffer x := by
  have hbuf := congrArg (fun u => u.buffer x) h
  simp only [ParserSt.trim, ParserSt.rd, hx, if_true] at hbuf
  exact hbuf

theorem trim_congr {L : Nat} {s t : ParserSt} (hreq : s.req = t.req) (hpar : s.p = t.p)
    (hraised : s.raised = t.raised) (hbuf : ∀ x < L, s.buffer x = t.buffer x) :
    s.trim L = t.trim L := by
  have hrd : s.rd L = t.rd L := by
    funext x
    unfold ParserSt.rd
    split
    · next hx => exact hbuf x hx
    · rfl
  unfold ParserSt.trim
  rw [hrd, hreq, hpar, hraised]

theorem Accepted.of_trim {L : Nat} {s t : ParserSt} (hL : r.length ≤ L) (h : s.trim L = t.trim L)
    (ht : Accepted r t) : Accepted r s where
  parser := (congrArg ParserSt.p h).trans ht.parser
  method := (congrArg (fun u => u.req.method) h).trans ht.method
  uri := (congrArg (fun u => u.req.uri) h).trans ht.uri
  protocol := (congrArg (fun u => u.req.protocol) h).trans ht.protocol
  text x hx := (trim_buffer h (by omega)).trans (ht.text x hx)

/-- The parser goes on where it was stopped inside a request: it waits until the
request is whole, and then accepts it and leaves what follows it alone. -/
theorem WellFormed.resume (h : WellFormed r) {q : ParsedRequest} (hm : q.method = .unknown)
    (hp : q.protocol = .unknown) {l L : Nat} (hcut : Resumes r l) (hlL : l ≤ L)
    (hnext : L < r.length → Resumes r L) {t : ParserSt}
    (ht : t.trim L = (mkHttpParser l (parserFresh q (r ++ rest))).2.trim L) :
    (L < r.length → (mkHttpParser L t).1 = .pending ∧
      (mkHttpParser L t).2.trim L = (mkHttpParser L (parserFresh q (r ++ rest))).2.trim L) ∧
    (r.length ≤ L → (mkHttpParser L t).1 = .ok ∧ Accepted r (mkHttpParser L t).2 ∧
      ∀ x, r.length ≤ x → x < L → (mkHttpParser L t).2.buffer x = cstr (r ++ rest) x) := by
  -- parsing in two calls is parsing in one, up to the bytes beyond `L`
  obtain ⟨hret, hst⟩ := mkHttpParser_congr ht
  rw [← (hcut rest q hm hp).2 L hlL] at hret hst
  constructor
  · intro hL
    exact ⟨hret.trans (hnext hL rest q hm hp).1, hst⟩
  · intro hL
    obtain ⟨e, he, hacc, hbehind⟩ := h.in_stream rest hm hp hL
    rw [he] at hret hst
    refine ⟨hret, hacc.of_trim hL hst, ?_⟩
    intro x hx hxL
    exact (trim_buffer hst hxL).trans (hbehind x hx)

/-- The bytes the session has received are those of a request and of what follows
it, and have gone through the parser. -/
def Session.Reads (r rest : Bytes) (cs : Session) : Prop :=
  ∃ q : ParsedRequest, q.method = .unknown ∧ q.protocol = .unknown ∧
    cs.parserSt.trim cs.bodyLength =
      (mkHttpParser cs.bodyLength (parserFresh q (r ++ rest))).2.trim cs.bodyLength

/-- More bytes arrive. -/
theorem Session.Reads.receive {cs : Session} (hreads : cs.Reads r rest) (h : WellFormed r)
    (hcut : Resumes r cs.bodyLength) {bs : Bytes} (hbs : bs <+: (r ++ rest).drop cs.bodyLength)
    (hnext : cs.bodyLength + bs.length < r.length → Resumes r (cs.bodyLength + bs.length))
    (size : Nat) :
    let cs' := cs.receive size bs
    let t := mkHttpParser cs'.bodyLength cs'.parserSt
    (cs'.bodyLength < r.length → t.1 = .pending ∧ (cs'.parsed t.2).Reads r rest) ∧
    (r.length ≤ cs'.bodyLength → t.1 = .ok ∧ Accepted r t.2 ∧
      ∀ x, r.length ≤ x → x < cs'.bodyLength → t.2.buffer x = cstr (r ++ rest) x) := by
  intro cs' t
  obtain ⟨q, hm, hp, hold⟩ := hreads
  set l := cs.bodyLength with hl
  have hlen : cs'.bodyLength = l + bs.length := rfl
  have htrim : cs'.parserSt.trim cs'.bodyLength =
      (mkHttpParser l (parserFresh q (r ++ rest))).2.trim cs'.bodyLength := by
    have hreq := congrArg ParserSt.req hold
    have hpar := congrArg ParserSt.p hold
    have hraised := congrArg ParserSt.raised hold
    refine trim_congr hreq hpar hraised ?_
    intro x hx
    by_cases hxl : x < l
    · have hbuf := trim_buffer hold hxl
      simpa [cs', Session.receive, Session.parserSt, ← hl, hxl] using hbuf
    · -- the parser has not touched what lies ahead of it
      have hahead : (mkHttpParser l (parserFresh q (r ++ rest))).2.buffer x = cstr (r ++ rest) x :=
        mkHttpParser_ahead placed_init (by omega)
      rw [hahead]
      obtain ⟨tail, htail⟩ := hbs
      have hbyte : bs[x - l]? = (r ++ rest)[x]? := by
        have hget := congrArg (fun ys => ys[x - l]?) htail
        simp only [List.getElem?_drop] at hget
        rw [List.getElem?_append_left (by omega)] at hget
        rw [hget]
        congr 1
        omega
      simp [cs', Session.receive, Session.parserSt, ← hl, hxl, cstr, List.getD_eq_getElem?_getD,
        hbyte]
  obtain ⟨hwait, hwhole⟩ := h.resume rest hm hp hcut (by omega) hnext htrim
  refine ⟨?_, hwhole⟩
  intro hL
  obtain ⟨hret, hst⟩ := hwait hL
  refine ⟨hret, q, hm, hp, ?_⟩
  -- a pending parser has raised no error, so the session keeps its whole state
  have hraised : t.2.raised = [] := mkHttpParser_raised hret
  have hsame : (cs'.parsed t.2).parserSt = t.2 := by
    unfold Session.parsed Session.parserSt
    rw [← hraised]
  rw [hsame]
  exact hst

end Parse

/-! ## Room for a request -/

section Room

variable {conf : SessionConf} {cs : Session}

/-- The buffer has one of the sizes it grows through. -/
structure Session.Roomy (conf : SessionConf) (cs : Session) : Prop where
  length_le : cs.bodyLength ≤ cs.bodySize
  grown : ∃ j, cs.bodySize = conf.firstSize + j * conf.bufferSize

/-- The buffer can grow to the size of the request. -/
def Fits (conf : SessionConf) (r : Bytes) : Prop :=
  ∃ j, r.length ≤ conf.firstSize + j * conf.bufferSize ∧
    (j = 0 ∨ conf.firstSize + j * conf.bufferSize ≤ conf.maxRequestSize)

/-- There is room for the next byte of a request that fits. -/
theorem Session.Roomy.roomFor (h : cs.Roomy conf) {r : Bytes} (hfits : Fits conf r)
    (hlt : cs.bodyLength < r.length) :
    ∃ size, roomFor conf cs = some size ∧ cs.bodyLength < size ∧
      ∃ j, size = conf.firstSize + j * conf.bufferSize := by
  obtain ⟨i, hi⟩ := h.grown
  unfold Http.roomFor
  by_cases hfull : cs.bodySize ≤ cs.bodyLength
  · obtain ⟨j, hj, hmax⟩ := hfits
    have hlen := h.length_le
    -- a full buffer is smaller than the request, so the next size is still allowed
    have hmul : i * conf.bufferSize < j * conf.bufferSize := by omega
    have hij : i < j := Nat.lt_of_mul_lt_mul_right hmul
    have hnext : (i + 1) * conf.bufferSize ≤ j * conf.bufferSize := Nat.mul_le_mul_right _ hij
    have hsucc : (i + 1) * conf.bufferSize = i * conf.bufferSize + conf.bufferSize :=
      Nat.succ_mul i conf.bufferSize
    have hpos : 0 < conf.bufferSize := by
      by_contra hzero
      have hnone : conf.bufferSize = 0 := by omega
      rw [hnone] at hmul
      omega
    rw [if_pos hfull, if_neg (by omega)]
    exact ⟨_, rfl, by omega, i + 1, by omega⟩
  · rw [if_neg hfull]
    exact ⟨_, rfl, by omega, i, hi⟩

theorem Session.Roomy.receive {size : Nat} {bs : Bytes} (hsize : cs.bodyLength + bs.length ≤ size)
    (hgrown : ∃ j, size = conf.firstSize + j * conf.bufferSize) :
    (cs.receive size bs).Roomy conf where
  length_le := hsize
  grown := hgrown

end Room

/-! ## One call -/

section Calls

variable {conf : SessionConf} {k : World}

theorem mkHttpSchedRead_receive {cs : Session} {data : Bytes} {size : Nat}
    (hroom : roomFor conf (cs.ready conf) = some size)
    (hfree : (cs.ready conf).bodyLength < size) (hdata : data ≠ []) :
    let bs := data.take (size - (cs.ready conf).bodyLength)
    bs ≠ [] ∧ mkHttpSchedRead conf k cs data =
      readParsed k (((cs.ready conf).enlist k).receive size bs) bs.length := by
  intro bs
  have hbs : bs ≠ [] := by
    intro hnil
    rcases List.take_eq_nil_iff.mp hnil with hzero | hnone
    · omega
    · exact hdata hnone
  refine ⟨hbs, ?_⟩
  have hread : mkHttpHandlerRead conf (cs.ready conf) data =
      (some bs.length, (cs.ready conf).receive size bs) := by
    unfold mkHttpHandlerRead
    rw [hroom]
    exact if_neg hbs
  unfold mkHttpSchedRead
  rw [hread]
  simp only [enlist_receive]

theorem readParsed_pending {cs : Session} (n : Nat)
    (h : (mkHttpParser cs.bodyLength cs.parserSt).1 = .pending) :
    readParsed k cs n = { ret := some n, cs := cs.parsed (mkHttpParser cs.bodyLength cs.parserSt).2,
                          prepared := none, timeout := none } := by
  unfold readParsed
  simp only [h]

theorem readParsed_ok {cs : Session} (n : Nat) (hnew : cs.completed = false)
    (h : (mkHttpParser cs.bodyLength cs.parserSt).1 = .ok) :
    let cs' : Session :=
      { cs.parsed (mkHttpParser cs.bodyLength cs.parserSt).2 with completed := true }
    readParsed k cs n = { ret := some n, cs := cs'.served (cs'.prepare k),
                          prepared := some (cs'.prepare k), timeout := some .del } := by
  intro cs'
  unfold readParsed
  simp only [h]
  have hcompleted : (cs.parsed (mkHttpParser cs.bodyLength cs.parserSt).2).completed = false := hnew
  rw [if_neg (by rw [hcompleted]; decide)]

theorem endNext_ok {cs : Session} (h : (mkHttpParser cs.bodyLength cs.parserSt).1 = .ok) :
    let cs' := cs.parsed (mkHttpParser cs.bodyLength cs.parserSt).2
    endNext k cs = { ret := .more, cs := cs'.served (cs'.prepare k),
                     prepared := some (cs'.prepare k), timeout := none } := by
  intro cs'
  unfold endNext
  simp only [h]
  rfl

end Calls

/-! ## The two phases of a connection -/

/-- The parser state of an accepted request. -/
def Incoming.st (inc : Incoming) : ParserSt where
  req := inc.req
  p := inc.p
  buffer := inc.buffer
  raised := []

/-- The requests have been prepared, one for one. -/
def PreparedAll (prepared : List Incoming) (rs : List Bytes) : Prop :=
  List.Forall₂ (fun inc r => Accepted r inc.st) prepared rs

/-- Nothing is being sent; of the next request, some bytes may have come. -/
structure Waiting (conf : SessionConf) (pre post : List Bytes) (s : Line) : Prop where
  alive : s.removed = false
  idle : s.current = none
  prepared : PreparedAll s.prepared pre
  incomplete : (s.cs.ready conf).completed = false
  stays : (s.cs.ready conf).closeNow = false
  roomy : (s.cs.ready conf).Roomy conf
  counter : (s.cs.ready conf).counter = pre.length
  taken : s.taken = pre.flatten.length + (s.cs.ready conf).bodyLength
  part : match post with
    | [] => (s.cs.ready conf).bodyLength = 0
    | r :: rest => (s.cs.ready conf).bodyLength < r.length ∧
        Resumes r (s.cs.ready conf).bodyLength ∧
        ∀ k, ((s.cs.ready conf).enlist k).Reads r rest.flatten

/-- The response to `r` is being sent; bytes of what follows may have come. -/
structure Answering (conf : SessionConf) (pre : List Bytes) (r : Bytes) (rest : List Bytes)
    (s : Line) : Prop where
  alive : s.removed = false
  current : s.current.isSome
  prepared : PreparedAll s.prepared (pre ++ [r])
  started : s.cs.schedInit = true
  stays : s.cs.closeNow = false
  roomy : s.cs.Roomy conf
  counter : s.cs.counter = pre.length
  taken : s.taken = pre.flatten.length + s.cs.bodyLength
  accepted : s.cs.parser.i + 1 = r.length
  whole : r.length ≤ s.cs.bodyLength
  received : s.cs.bodyLength ≤ (r ++ rest.flatten).length
  behind : ∀ x, r.length ≤ x → x < s.cs.bodyLength → s.cs.body x = cstr (r ++ rest.flatten) x

/-- A connection that serves the requests as they come. -/
inductive InStep (conf : SessionConf) (rs : List Bytes) (s : Line) : Prop where
  | waiting (pre post : List Bytes) (hrs : rs = pre ++ post) (h : Waiting conf pre post s)
  | answering (pre : List Bytes) (r : Bytes) (rest : List Bytes) (hrs : rs = pre ++ r :: rest)
      (h : Answering conf pre r rest s)

section Steps

variable {conf : SessionConf} {rs : List Bytes}

/-- An accepted request that does not ask to close leaves the connection open. -/
theorem prepare_open {cs : Session} {r : Bytes} (k : World) (hacc : Accepted r cs.parserSt)
    (hwf : WellFormed r) (hopen : cs.closeNow = false)
    (hbelow : (cs.counter : Int) < k.maxKeepAliveRequest) :
    (cs.prepare k).serving.closeNow = false := by
  refine prepare_keeps k cs.incoming _ hopen ?_ hbelow
  have hversion : cs.incoming.req.protocol = .v11 := hacc.protocol.trans hwf.version
  have hconn : cs.incoming.p.headerConnection ≠ .close := by
    have hp : cs.incoming.p = (alone r).2.p := hacc.parser
    rw [hp]
    exact hwf.keepAlive
  simp only [AsksKeep, hversion]
  exact fun hclose => hconn hclose.2

theorem preparedAll_concat {prepared : List Incoming} {pre : List Bytes} {inc : Incoming} {r : Bytes}
    (h : PreparedAll prepared pre) (hacc : Accepted r inc.st) :
    PreparedAll (prepared ++ [inc]) (pre ++ [r]) :=
  List.rel_append (R := fun (inc : Incoming) r => Accepted r inc.st) h (.cons hacc .nil)

theorem waiting_start (cs : Session) (hwf : ∀ r ∈ rs, WellFormed r) :
    InStep conf rs (lineStart cs) := by
  have hready : (lineStart cs).cs.ready conf = mkHttpSessionInit conf (lineStart cs).cs := by
    simp [Session.ready, lineStart]
  refine .waiting [] rs rfl ⟨rfl, rfl, .nil, ?_, ?_, ?_, ?_, ?_, ?_⟩
  all_goals rw [hready]
  · rfl
  · rfl
  · exact ⟨Nat.zero_le _, 0, by simp [mkHttpSessionInit]⟩
  · rfl
  · rfl
  · cases rs with
    | nil => rfl
    | cons r rest =>
      have hwhole := (hwf r List.mem_cons_self).whole
      refine ⟨?_, resumes_zero r, fun k => ?_⟩
      · simp only [mkHttpSessionInit]
        omega
      · exact ⟨_, rfl, rfl, rfl⟩

/-- The place in the stream behind the bytes that a read of `n` bytes takes. -/
def Line.readTo (s : Line) (conf : SessionConf) (stream : Bytes) (n : Nat) : Nat :=
  match roomFor conf (s.cs.ready conf) with
  | none => s.taken
  | some size =>
    s.taken + min (min n (stream.length - s.taken)) (size - (s.cs.ready conf).bodyLength)

/-- A read while the connection waits for `r`. -/
theorem Waiting.read {pre rest : List Bytes} {r : Bytes} {s : Line}
    (h : Waiting conf pre (r :: rest) s) (hrs : rs = pre ++ r :: rest) (hwf : WellFormed r)
    (hfits : Fits conf r) (hbelow : (pre.length : Int) < conf.maxKeepAliveRequest) (k : World)
    {n : Nat} (hdata : (rs.flatten.drop s.taken).take n ≠ [])
    (hcut : s.readTo conf rs.flatten n - pre.flatten.length < r.length →
      Resumes r (s.readTo conf rs.flatten n - pre.flatten.length)) :
    InStep conf rs (s.step conf rs.flatten (.read k n)) := by
  obtain ⟨hlt, hresumes, hreads⟩ := h.part
  obtain ⟨size, hroom, hfree, hgrown⟩ := h.roomy.roomFor hfits hlt
  obtain ⟨hbs, hread⟩ := mkHttpSchedRead_receive (k := conf.configure k) hroom hfree hdata
  obtain ⟨sr, henlist⟩ := enlist_eq (k := conf.configure k) (s.cs.ready conf)
  have hreads' := hreads (conf.configure k)
  rw [henlist] at hread hreads'
  set cs₀ : Session := { s.cs.ready conf with listed := true, sr := sr } with hcs₀
  set bs := ((rs.flatten.drop s.taken).take n).take (size - (s.cs.ready conf).bodyLength) with hbs₀
  -- what arrives continues what has come
  have hstream : rs.flatten.drop s.taken = (r ++ rest.flatten).drop cs₀.bodyLength := by
    rw [hrs, h.taken, List.flatten_append, List.flatten_cons, List.drop_length_add_append]
  have hnext : bs <+: (r ++ rest.flatten).drop cs₀.bodyLength := by
    rw [← hstream]
    exact (List.take_prefix _ _).trans (List.take_prefix _ _)
  have hlen : cs₀.bodyLength + bs.length ≤ size := by
    have hle : bs.length ≤ size - (s.cs.ready conf).bodyLength := List.length_take_le _ _
    simp only [hcs₀]
    omega
  have hroomy : (cs₀.receive size bs).Roomy conf := Session.Roomy.receive hlen hgrown
  have hto : s.readTo conf rs.flatten n - pre.flatten.length = cs₀.bodyLength + bs.length := by
    have htaken := h.taken
    have hbody : cs₀.bodyLength = (s.cs.ready conf).bodyLength := rfl
    simp only [Line.readTo, hroom, hbs₀, List.length_take, List.length_drop]
    omega
  rw [hto] at hcut
  obtain ⟨hwait, hwhole⟩ := hreads'.receive rest.flatten hwf hresumes hnext hcut size
  have hinit : (s.cs.ready conf).schedInit = true := ready_schedInit s.cs
  rw [Line.step_read h.alive k hdata, hread]
  -- the request is still in part, or whole with what follows it
  by_cases hL : (cs₀.receive size bs).bodyLength < r.length
  · obtain ⟨hpend, hreads''⟩ := hwait hL
    rw [readParsed_pending bs.length hpend]
    refine .waiting pre (r :: rest) hrs ?_
    set cs₁ := (cs₀.receive size bs).parsed
      (mkHttpParser (cs₀.receive size bs).bodyLength (cs₀.receive size bs).parserSt).2 with hcs₁
    have hready : cs₁.ready conf = cs₁ := ready_of_schedInit hinit
    have henl : ∀ w, cs₁.enlist w = cs₁ := fun w => enlist_of_listed rfl
    refine ⟨h.alive, ?_, ?_, ?_, ?_, ?_, ?_, ?_, ?_⟩
    · exact h.idle
    · simpa [Line.afterRead, Line.after] using h.prepared
    all_goals simp only [Line.afterRead, Line.after, hready]
    · exact h.incomplete
    · exact h.stays
    · exact ⟨hroomy.length_le, hroomy.grown⟩
    · exact h.counter
    · rw [h.taken, Nat.add_assoc]
      rfl
    · exact ⟨hL, hcut hL, fun w => by rw [henl w]; exact hreads''⟩
  · obtain ⟨hok, hacc, hbehind⟩ := hwhole (by omega)
    have hnew : (cs₀.receive size bs).completed = false := h.incomplete
    rw [readParsed_ok bs.length hnew hok]
    refine .answering pre r rest hrs ?_
    set t := mkHttpParser (cs₀.receive size bs).bodyLength (cs₀.receive size bs).parserSt with ht
    set cs₁ : Session := { (cs₀.receive size bs).parsed t.2 with completed := true } with hcs₁
    have hacc₁ : Accepted r cs₁.parserSt := ⟨hacc.1, hacc.2, hacc.3, hacc.4, hacc.5⟩
    have hcounter : cs₁.counter = pre.length := h.counter
    have hclose := prepare_open (conf.configure k) hacc₁ hwf h.stays (by rw [hcounter]; exact hbelow)
    refine ⟨h.alive, rfl, ?_, hinit, hclose, ⟨hroomy.length_le, hroomy.grown⟩, hcounter, ?_, ?_, ?_,
      ?_, hbehind⟩
    · exact preparedAll_concat h.prepared ⟨hacc.1, hacc.2, hacc.3, hacc.4, hacc.5⟩
    · simp only [Line.afterRead, Line.after]
      rw [h.taken, Nat.add_assoc]
      rfl
    · have hpar : cs₁.parser = (alone r).2.p := hacc.parser
      change cs₁.parser.i + 1 = r.length
      rw [hpar]
      exact hwf.whole
    · change r.length ≤ (cs₀.receive size bs).bodyLength
      omega
    · have hle := hnext.length_le
      have hsum : (cs₀.receive size bs).bodyLength = cs₀.bodyLength + bs.length := rfl
      have hlt₀ : cs₀.bodyLength < r.length := hlt
      change (cs₀.receive size bs).bodyLength ≤ (r ++ rest.flatten).length
      rw [List.length_drop] at hle
      rw [List.length_append] at hle ⊢
      omega

/-- The bytes behind an accepted request. -/
theorem bytes_behind {i len : Nat} {r : Bytes} (hi : i + 1 = r.length) (hlen : r.length ≤ len) :
    ((len : Int) - i).natAbs - 1 = len - r.length := by
  omega

/-- What `mk_http_request_end` hands to the parser is what follows the request. -/
theorem startNext_parserSt {cs : Session} (k : World) {r tail : Bytes}
    (hi : cs.parser.i + 1 = r.length) (hwhole : r.length ≤ cs.bodyLength)
    (hbehind : ∀ x, r.length ≤ x → x < cs.bodyLength → cs.body x = cstr (r ++ tail) x) :
    (cs.startNext k).bodyLength = cs.bodyLength - r.length ∧
    (cs.startNext k).parserSt.trim (cs.bodyLength - r.length) =
      (parserFresh (mkHttpRequestInit k cs.sr).toParsedRequest tail).trim
        (cs.bodyLength - r.length) := by
  have hn := bytes_behind hi hwhole
  refine ⟨hn, trim_congr rfl rfl rfl ?_⟩
  intro x hx
  -- `memmove` brings the rest to the front of the buffer
  have hshift : (cs.startNext k).parserSt.buffer x = cs.body (x + cs.parser.i + 1) := by
    simp only [Session.startNext, Session.shift, Session.parserSt, hn, hx, if_true]
  have hpos : x + cs.parser.i + 1 = r.length + x := by omega
  rw [hshift, hpos, hbehind _ (by omega) (by omega)]
  simp only [parserFresh, cstr, List.getD_eq_getElem?_getD]
  rw [List.getElem?_append_right (Nat.le_add_right _ _), Nat.add_sub_cancel_left]

/-- The end of a response with nothing behind the request. -/
theorem Answering.keep {pre rest : List Bytes} {r : Bytes} {s : Line}
    (h : Answering conf pre r rest s) (hrs : rs = pre ++ r :: rest)
    (hbelow : (pre.length : Int) < conf.maxKeepAliveRequest) (hwf : ∀ r ∈ rest, WellFormed r)
    (k : World) (hexact : s.cs.bodyLength = r.length) :
    InStep conf rs (s.step conf rs.flatten (.done k)) := by
  -- nothing is left, so `close_now` decides, and it is not set
  have hmore : mkHttpParserMore s.cs.parser s.cs.bodyLength = false := by
    simp only [mkHttpParserMore, bytes_behind h.accepted h.whole, decide_eq_false_iff_not]
    omega
  have hend : mkHttpRequestEnd (conf.configure k) s.cs =
      { ret := .keep, cs := mkHttpRequestKaNext { s.cs with listed := false }, prepared := none,
        timeout := some .add } := by
    have hlimit : ¬ (conf.configure k).maxKeepAliveRequest ≤ s.cs.counter := by
      rw [h.counter]
      exact not_le.mpr hbelow
    simp only [mkHttpRequestEnd, hlimit, hmore, endShutdown, h.stays, Bool.false_eq_true, if_false]
  rw [Line.step_done h.alive k h.current, hend]
  refine .waiting (pre ++ [r]) rest (by simp [hrs]) ?_
  set cs₁ := mkHttpRequestKaNext { s.cs with listed := false } with hcs₁
  have hready : cs₁.ready conf = cs₁ := ready_of_schedInit h.started
  refine ⟨h.alive, rfl, ?_, ?_, ?_, ?_, ?_, ?_, ?_⟩
  · simpa [Line.afterDone, Line.after] using h.prepared
  all_goals simp only [Line.afterDone, Line.after, hready]
  · rfl
  · exact h.stays
  · exact ⟨Nat.zero_le _, h.roomy.grown⟩
  · simp [hcs₁, mkHttpRequestKaNext, h.counter]
  · simp [hcs₁, mkHttpRequestKaNext, h.taken, hexact]
  · cases rest with
    | nil => rfl
    | cons next more =>
      have hwhole := (hwf next List.mem_cons_self).whole
      refine ⟨?_, resumes_zero next, fun w => ?_⟩
      · simp only [hcs₁, mkHttpRequestKaNext]
        omega
      · exact ⟨_, rfl, rfl, rfl⟩

/-- The end of a response with the whole next request in the buffer. -/
theorem Answering.next {pre more : List Bytes} {r next : Bytes} {s : Line}
    (h : Answering conf pre r (next :: more) s) (hrs : rs = pre ++ r :: next :: more)
    (hbelow : (pre.length : Int) + 1 < conf.maxKeepAliveRequest) (hwf : WellFormed next)
    (k : World) (hnext : r.length + next.length ≤ s.cs.bodyLength) :
    InStep conf rs (s.step conf rs.flatten (.done k)) := by
  have hpos := hwf.whole
  obtain ⟨hlen, htrim⟩ := startNext_parserSt (conf.configure k) h.accepted h.whole h.behind
  set cs₀ := s.cs.startNext (conf.configure k) with hcs₀
  have hmore : mkHttpParserMore s.cs.parser s.cs.bodyLength = true := by
    simp only [mkHttpParserMore, bytes_behind h.accepted h.whole, decide_eq_true_eq]
    omega
  have hlimit : ¬ (conf.configure k).maxKeepAliveRequest ≤ s.cs.counter := by
    rw [h.counter, configure_maxKeepAliveRequest]
    omega
  -- the parser starts afresh on what follows
  obtain ⟨-, hwhole⟩ := hwf.resume more.flatten (l := 0) (L := s.cs.bodyLength - r.length)
    (q := (mkHttpRequestInit (conf.configure k) s.cs.sr).toParsedRequest) rfl rfl (resumes_zero next)
    (by omega) (by omega) htrim
  rw [← hlen] at hwhole
  obtain ⟨hok, hacc, hbehind⟩ := hwhole (by omega)
  rw [Line.step_done h.alive k h.current]
  have hend : mkHttpRequestEnd (conf.configure k) s.cs = endNext (conf.configure k) cs₀ := by
    simp only [mkHttpRequestEnd, hlimit, hmore, if_false, if_true]
    rfl
  rw [hend, endNext_ok hok]
  refine .answering (pre ++ [r]) next more (by simp [hrs]) ?_
  set cs₁ := cs₀.parsed (mkHttpParser cs₀.bodyLength cs₀.parserSt).2 with hcs₁
  have hacc₁ : Accepted next cs₁.parserSt := ⟨hacc.1, hacc.2, hacc.3, hacc.4, hacc.5⟩
  have hcounter : cs₁.counter = (pre ++ [r]).length := by
    have hplus : cs₁.counter = s.cs.counter + 1 := rfl
    rw [hplus, h.counter]
    simp
  have hclose := prepare_open (conf.configure k) hacc₁ hwf h.stays
    (by rw [hcounter, configure_maxKeepAliveRequest]; simpa using hbelow)
  refine ⟨h.alive, rfl, ?_, h.started, hclose, ?_, hcounter, ?_, ?_, ?_, ?_, hbehind⟩
  · exact preparedAll_concat h.prepared ⟨hacc.1, hacc.2, hacc.3, hacc.4, hacc.5⟩
  · have hsize := h.roomy.length_le
    refine ⟨?_, h.roomy.grown⟩
    change cs₀.bodyLength ≤ s.cs.bodySize
    omega
  · change s.taken = (pre ++ [r]).flatten.length + cs₀.bodyLength
    have hw := h.whole
    rw [h.taken, hlen]
    simp
    omega
  · have hpar : cs₁.parser = (alone next).2.p := hacc.parser
    change cs₁.parser.i + 1 = next.length
    rw [hpar]
    exact hwf.whole
  · change next.length ≤ cs₀.bodyLength
    omega
  · have hle := h.received
    rw [List.length_append, List.flatten_cons] at hle
    change cs₀.bodyLength ≤ (next ++ more.flatten).length
    omega

end Steps

/-! ## Whole runs -/

/-- What is expected of a connection: it is not aborted, the requests are prepared
in their order, each once, and when no response is being sent none is left that
has come as a whole. -/
structure InOrder (rs : List Bytes) (s : Line) : Prop where
  alive : s.removed = false
  prepared : PreparedAll s.prepared (rs.take s.prepared.length)
  caughtUp : s.current = none → s.prepared.length < rs.length →
    s.taken < (rs.take (s.prepared.length + 1)).flatten.length

/-- No read while a response is being sent. At the end of a response, either
nothing or at least the whole next request stands behind the request in the
buffer. -/
def Orderly (rs : List Bytes) (s : Line) : LineEvent → Prop
  | .read _ _ => s.current = none
  | .done _ => s.current.isSome →
    s.taken = (rs.take s.prepared.length).flatten.length ∨
      (rs.take (s.prepared.length + 1)).flatten.length ≤ s.taken

/-- A read that ends inside the request that is waited for ends at a cut with `P`. -/
def CutAt (P : Bytes → Nat → Prop) (conf : SessionConf) (rs : List Bytes) (s : Line) :
    LineEvent → Prop
  | .read _ n => ∀ r ∈ rs[s.prepared.length]?,
    s.readTo conf rs.flatten n - (rs.take s.prepared.length).flatten.length < r.length →
      P r (s.readTo conf rs.flatten n - (rs.take s.prepared.length).flatten.length)
  | .done _ => True

section Run

variable {conf : SessionConf} {rs : List Bytes}

theorem CutAt.mono {P Q : Bytes → Nat → Prop} (hPQ : ∀ r ∈ rs, ∀ l < r.length, P r l → Q r l)
    {s : Line} {e : LineEvent} (h : CutAt P conf rs s e) : CutAt Q conf rs s e := by
  cases e with
  | done k => trivial
  | read k n =>
    intro r hr hl
    exact hPQ r (List.mem_of_getElem? hr) _ hl (h r hr hl)

theorem PreparedAll.length_eq {prepared : List Incoming} {pre : List Bytes}
    (h : PreparedAll prepared pre) : prepared.length = pre.length :=
  List.Forall₂.length_eq h

theorem InStep.inOrder {s : Line} (h : InStep conf rs s) : InOrder rs s := by
  rcases h with ⟨pre, post, rfl, h⟩ | ⟨pre, r, rest, rfl, h⟩
  · have hlen := h.prepared.length_eq
    refine ⟨h.alive, ?_, ?_⟩
    · rw [hlen, List.take_left]
      exact h.prepared
    · intro _ hmore
      have hpart := h.part
      cases post with
      | nil => simp [hlen] at hmore
      | cons r rest =>
        rw [hlen, List.take_length_add_append, h.taken]
        simpa using hpart.1
  · have hlen := h.prepared.length_eq
    refine ⟨h.alive, ?_, ?_⟩
    · have hsplit : pre ++ r :: rest = pre ++ [r] ++ rest := by simp
      rw [hlen, hsplit, List.take_left]
      exact h.prepared
    · intro hnone
      have hcurrent := h.current
      simp [hnone] at hcurrent

/-- The buffer, in terms of the requests. -/
theorem Answering.orderly {pre rest : List Bytes} {r : Bytes} {s : Line}
    (h : Answering conf pre r rest s) (hrs : rs = pre ++ r :: rest) {k : World}
    (hdone : Orderly rs s (.done k)) :
    s.cs.bodyLength = r.length ∨
      ∃ next more, rest = next :: more ∧ r.length + next.length ≤ s.cs.bodyLength := by
  have hlen : s.prepared.length = pre.length + 1 := by simpa using h.prepared.length_eq
  have hsplit : ∀ j, rs.take (pre.length + 1 + j) = pre ++ r :: rest.take j := by
    intro j
    rw [hrs, Nat.add_assoc, Nat.add_comm 1, List.take_length_add_append, List.take_succ_cons]
  have hwhole := h.whole
  have htaken := h.taken
  -- lengths of the stream turn into lengths of the buffer
  rcases hdone h.current with hexact | hnext
  · rw [hlen, show pre.length + 1 = pre.length + 1 + 0 from rfl, hsplit 0] at hexact
    left
    simp only [List.take_zero, List.flatten_append, List.flatten_cons, List.flatten_nil,
      List.length_append, List.length_nil] at hexact
    omega
  · rw [hlen, hsplit 1] at hnext
    cases rest with
    -- the last request: no more has come than it has
    | nil =>
      have hle := h.received
      simp only [List.take_nil, List.flatten_append, List.flatten_cons, List.flatten_nil,
        List.length_append, List.length_nil] at hnext hle
      left
      omega
    | cons next more =>
      refine .inr ⟨next, more, rfl, ?_⟩
      simp only [List.take_succ_cons, List.take_zero, List.flatten_append, List.flatten_cons,
        List.flatten_nil, List.length_append, List.length_nil] at hnext
      omega

variable (hwf : ∀ r ∈ rs, WellFormed r) (hfits : ∀ r ∈ rs, Fits conf r)
  (hmax : (rs.length : Int) < conf.maxKeepAliveRequest)
include hwf hfits hmax

theorem InStep.step {s : Line} (h : InStep conf rs s) {e : LineEvent} (he : Orderly rs s e)
    (hcut : CutAt Resumes conf rs s e) : InStep conf rs (s.step conf rs.flatten e) := by
  rcases h with ⟨pre, post, hrs, h⟩ | ⟨pre, r, rest, hrs, h⟩
  · cases e with
    | done k =>
      have hidle : s.step conf rs.flatten (.done k) = s := by
        simp [Line.step, h.idle]
      rw [hidle]
      exact .waiting pre post hrs h
    | read k n =>
      by_cases hdata : (rs.flatten.drop s.taken).take n = []
      · have hidle : s.step conf rs.flatten (.read k n) = s := by
          simp only [Line.step, hdata, if_true, ite_self]
        rw [hidle]
        exact .waiting pre post hrs h
      · cases post with
        | nil =>
          -- the stream is exhausted
          have hall : rs.flatten.drop s.taken = [] := by
            rw [List.drop_eq_nil_iff, h.taken, hrs]
            simp
          rw [hall] at hdata
          simp at hdata
        | cons r rest =>
          have hr : r ∈ rs := by simp [hrs]
          have hbelow : (pre.length : Int) < conf.maxKeepAliveRequest := by
            have hpre : pre.length < rs.length := by simp [hrs]
            omega
          have hlen := h.prepared.length_eq
          have hat : r ∈ rs[s.prepared.length]? := by simp [hrs, hlen]
          have hcut' := hcut r hat
          have hpre : rs.take s.prepared.length = pre := by simp [hrs, hlen]
          rw [hpre] at hcut'
          exact h.read hrs (hwf r hr) (hfits r hr) hbelow k hdata hcut'
  · cases e with
    | read k n =>
      have hcurrent := h.current
      rw [show s.current = none from he] at hcurrent
      cases hcurrent
    | done k =>
      rcases h.orderly hrs he with hexact | ⟨next, more, rfl, hnext⟩
      · have hbelow : (pre.length : Int) < conf.maxKeepAliveRequest := by
          have hpre : pre.length < rs.length := by simp [hrs]
          omega
        exact h.keep hrs hbelow (fun r' hr' => hwf r' (by simp [hrs, hr'])) k hexact
      · have hbelow : (pre.length : Int) + 1 < conf.maxKeepAliveRequest := by
          have hpre : pre.length + 1 < rs.length := by simp [hrs]
          omega
        exact h.next hrs hbelow (hwf next (by simp [hrs])) k hnext

theorem inOrder_run (cs : Session) (es : List LineEvent)
    (hsteps : (lineMachine conf rs.flatten).AllSteps
      (fun s e => Orderly rs s e ∧ CutAt Resumes conf rs s e) (lineStart cs) es) :
    (lineMachine conf rs.flatten).AllStates (InOrder rs) (lineStart cs) es := by
  have hrun : (lineMachine conf rs.flatten).AllStates (InStep conf rs) (lineStart cs) es :=
    (lineMachine conf rs.flatten).allStates_of_allSteps
      (fun s e h he => h.step hwf hfits hmax he.1 he.2) (waiting_start cs hwf) hsteps
  exact hrun.mono fun s h => h.inOrder

/-- Every cut of a sequence of requests into reads and every placement of the ends
of the responses, as long as no read comes while a response is being sent, no
response ends while the buffer holds a part of the next request, and the cuts inside
a request are clean: the requests are prepared in order, each once, and the connection
stays. -/
theorem pipelined_in_order (cs : Session) (es : List LineEvent)
    (hsteps : (lineMachine conf rs.flatten).AllSteps
      (fun s e => Orderly rs s e ∧ CutAt CleanCut conf rs s e) (lineStart cs) es) :
    (lineMachine conf rs.flatten).AllStates (InOrder rs) (lineStart cs) es := by
  refine inOrder_run hwf hfits hmax cs es (hsteps.mono ?_)
  rintro s e ⟨horderly, hcut⟩
  exact ⟨horderly, hcut.mono fun r hr l hl hclean => (hwf r hr).resumes_clean hclean hl⟩

/-- Requests of which no proper prefix is rejected may be cut anywhere. -/
theorem pipelined_growing (hgrow : ∀ r ∈ rs, Growing r) (cs : Session) (es : List LineEvent)
    (horderly : (lineMachine conf rs.flatten).AllSteps (Orderly rs) (lineStart cs) es) :
    (lineMachine conf rs.flatten).AllStates (InOrder rs) (lineStart cs) es := by
  refine inOrder_run hwf hfits hmax cs es (horderly.mono ?_)
  intro s e he
  refine ⟨he, CutAt.mono (P := fun _ _ => True) ?_ ?_⟩
  · exact fun r hr l hl _ => (hwf r hr).resumes (hgrow r hr) hl
  · cases e with
    | read k n => exact fun _ _ _ => trivial
    | done k => trivial

end Run

/-! ## Two requests -/

instance (rs : List Bytes) (s : Line) : (e : LineEvent) → Decidable (Orderly rs s e)
  | .read _ _ => decidable_of_iff (s.current.isNone) (by simp [Orderly])
  | .done _ => inferInstanceAs (Decidable (_ → _))

instance (r : Bytes) (l : Nat) : Decidable (CleanCut r l) :=
  inferInstanceAs (Decidable (_ ∧ CutsOk _ _ _))

instance (P : Bytes → Nat → Prop) [∀ r l, Decidable (P r l)] (conf : SessionConf) (rs : List Bytes)
    (s : Line) : (e : LineEvent) → Decidable (CutAt P conf rs s e)
  | .read _ _ => inferInstanceAs (Decidable (∀ r ∈ rs[_]?, _ → _))
  | .done _ => .isTrue trivial

/-- `GET /a`, a file of the site. -/
def getFile : Bytes := bytes "GET /a HTTP/1.1\r\nHost: x\r\n\r\n"

theorem getFile_wellFormed : WellFormed getFile :=
  ⟨by decide, by decide, by decide, by decide, by decide⟩

theorem getFile_growing : Growing getFile := by
  unfold Growing
  decide

def confSite : SessionConf where
  bufferSize := 4096
  maxRequestSize := 32768
  keepAlive := true
  maxKeepAliveRequest := 50

theorem getFile_fits : Fits confSite getFile := ⟨0, by decide, .inl rfl⟩

theorem getBareKey_wellFormed : WellFormed getBareKey :=
  ⟨by decide, by decide, by decide, by decide, by decide⟩

theorem getBareKey_fits : Fits confSite getBareKey := ⟨0, by decide, .inl rfl⟩

/-- The first request has a key without a colon, which the parser rejects while the
next row is missing. It comes in three reads: up to the URI, up to the value of that
row, and the rest together with the second request. -/
theorem pipelined_in_order_two :
    (lineMachine confSite [getBareKey, getFile].flatten).AllStates (InOrder [getBareKey, getFile])
      (lineStart sessionZero)
      [.read worldSite 10, .read worldSite 16, .read worldSite 33, .done worldSite,
        .done worldSite] := by
  refine pipelined_in_order (by simp [getBareKey_wellFormed, getFile_wellFormed])
    (by simp [getBareKey_fits, getFile_fits]) (by decide) sessionZero _ ?_
  decide

/-- Requests without such a key: the first one in two reads, the second one together
with its end. -/
example : (lineMachine confSite [getFile, getFile].flatten).AllStates (InOrder [getFile, getFile])
    (lineStart sessionZero)
    [.read worldSite 20, .read worldSite 36, .done worldSite, .done worldSite] := by
  refine pipelined_growing (by simp [getFile_wellFormed]) (by simp [getFile_fits]) (by decide)
    (by simp [getFile_growing]) sessionZero _ ?_
  decide

/-- The first response ends when ten bytes of the second request have come; the
read of the rest aborts the connection. -/
theorem pipelined_in_order_part_behind :
    ¬ ∀ (conf : SessionConf) (rs : List Bytes) (cs : Session) (es : List LineEvent),
      (∀ r ∈ rs, WellFormed r) → (∀ r ∈ rs, Fits conf r) →
      (rs.length : Int) < conf.maxKeepAliveRequest →
      (lineMachine conf rs.flatten).AllStates (InOrder rs) (lineStart cs) es := by
  intro h
  have hrun := h confSite [getFile, getFile] sessionZero
    [.read worldSite 38, .done worldSite, .read worldSite 18] (by simp [getFile_wellFormed])
    (by simp [getFile_fits]) (by decide)
  have halive := hrun.last.alive
  revert halive
  decide

end SuperExe.Http
