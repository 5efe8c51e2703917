import SuperExe.FastCgi.ParamsDecode
import SuperExe.Http.HeaderList
import SuperExe.Http.Prepare

/-! # Encoding a request

`fcgi_encode_request` up to the body: the begin record, the parameters of the
server and of the connection, one parameter for each node of `header_list`, and
the closing record. The iov is created for 128 entries and three more for each
header row; the traversal of `header_list` goes along its links, so it meets a
row that was sent again at one place only, and it does not end when the list
does not.
-/

namespace SuperExe.FastCgi

open SuperExe.Core SuperExe.Lib
open SuperExe.Http (Incoming HeaderName HeaderNode HeaderRef HttpHeader MkPtr Parser headerLinks)

/-! ## The code -/

def fcgiBeginRequest : UInt8 := 1

/-- `FCGI_RESPONDER` -/
def fcgiResponder : Nat := 1

/-- `handler->header_request` as `fcgi_build_header` and
`fcgi_build_request_body` leave it. -/
def beginRequest : Bytes :=
  buildHeader fcgiBeginRequest 1 8 ++ (encode16 fcgiResponder ++ [0, 0, 0, 0, 0, 0])

/-- What `fcgi_encode_request` reads besides the request the parser has read: the
configuration, the results of `mk_http_request_prepare`, and for each end of the
connection its address and its port, where it can be asked for. -/
structure EncodeEnv where
  serverSignature : Bytes
  hostAlias : Bytes
  documentRoot : Bytes
  sockName : Option (Bytes × Bytes)
  peerName : Option (Bytes × Bytes)
  realPath : Bytes
  uriProcessed : Bytes
  ssl : Bool
  contentLengthP : MkPtr

/-- The parameters in front of those of the connection. -/
def firstParams (e : EncodeEnv) : List Add :=
  [.param (bytes "GATEWAY_INTERFACE") (bytes "CGI/1.1"),
    .param (bytes "REDIRECT_STATUS") (bytes "200"),
    .param (bytes "SERVER_SOFTWARE") e.serverSignature,
    .param (bytes "SERVER_PROTOCOL") (bytes "HTTP/1.1"),
    .param (bytes "SERVER_NAME") e.hostAlias,
    .param (bytes "DOCUMENT_ROOT") e.documentRoot]

/-- What `fcgi_add_param_net` adds. -/
def netParams (e : EncodeEnv) : List Add :=
  match e.sockName with
  | none => []
  | some (addr, port) =>
    [.param (bytes "SERVER_ADDR") addr, .param (bytes "SERVER_PORT") port] ++
    match e.peerName with
    | none => []
    | some (addr, port) =>
      [.param (bytes "REMOTE_ADDR") addr, .param (bytes "REMOTE_PORT") port]

/-- `fcgi_add_param_net` returns `-1`. -/
def netFails (e : EncodeEnv) : Bool := e.sockName.isNone || e.peerName.isNone

/-- The parameters between those of the connection and the headers. -/
def lastParams (e : EncodeEnv) (r : Incoming) : List Add :=
  let header := r.p.headers HeaderName.contentType
  [.param (bytes "SCRIPT_FILENAME") e.realPath,
    .param (bytes "SCRIPT_NAME") e.uriProcessed,
    .param (bytes "REQUEST_METHOD") (r.slice r.req.methodP),
    .param (bytes "REQUEST_URI") (r.slice r.req.uri)] ++
  (if r.req.queryString.len > 0 then
    [.param (bytes "QUERY_STRING") (r.slice r.req.queryString)] else []) ++
  (if e.ssl then [.param (bytes "HTTPS") (bytes "on")] else []) ++
  (if e.contentLengthP.data.isSome then
    [.param (bytes "CONTENT_LENGTH") (r.slice e.contentLengthP)] else []) ++
  (if header.type = (HeaderName.contentType : Nat) then
    [.param (bytes "CONTENT_TYPE") (r.slice header.val)] else [])

/-- `mk_list_entry` of a node of `header_list`. -/
def listEntry (p : Parser) : HeaderRef → HttpHeader
  | .known n => p.headers n
  | .extra k => p.headersExtra.getD k { type := 0, key := .null, val := .null }

/-- The call for a node of `header_list`. -/
def headerAdd (r : Incoming) (ref : HeaderRef) : Add :=
  .header (r.slice (listEntry r.p ref).key) (r.slice (listEntry r.p ref).val)

/-- At most `n` turns of the `mk_list_foreach` over `header_list`, and whether it
has come back to the head; `none` is a null pointer, or a write behind one of
the arrays. -/
def headerTurns (r : Incoming) : Nat → Params → Option HeaderNode → Option (Params × Bool)
  | _, _, none => none
  | _, h, some none => some (h, true)
  | 0, h, some (some _) => some (h, false)
  | n + 1, h, some (some ref) =>
    ((headerAdd r ref).run h).bind fun (h, _) =>
    headerTurns r n h ((headerLinks r.p).next (some ref))

/-- Where `fcgi_encode_request` stands: in the loop, back with `-1`, or in front
of `fcgi_add_stdin`. -/
inductive Encoding where
  | looping (h : Params)
  | failed (h : Params)
  | encoded (h : Params)

/-- The iov `fcgi_handler_new` creates. -/
def iovEntries (r : Incoming) : Nat := 128 + r.p.headerCount * 3

/-- `fcgi_encode_request` up to `fcgi_add_stdin`, for at most `n` turns of its
loop; `none` is a write behind one of the arrays. -/
def fcgiEncodeRequest (n : Nat) (e : EncodeEnv) (r : Incoming) : Option Encoding :=
  let h := newParams (iovEntries r)
  (iovAdd h.iov (.arg beginRequest) 0 beginRequest.length).bind fun iov =>
  (addAll { h with iov } (firstParams e)).bind fun (h, _) =>
  (addAll h (netParams e)).bind fun (h, _) =>
  if netFails e then some (.failed h)
  else
    (addAll h (lastParams e r)).bind fun (h, _) =>
    (headerTurns r n h ((headerLinks r.p).next none)).bind fun (h, ended) =>
    if ended then (addParamEmpty h).map .encoded else some (.looping h)

/-- A handler that `fcgi_encode_request` has added the parameters to: there is
something to send, and the iov has room for what `fcgi_add_stdin` adds. -/
structure Prepared where
  params : Params
  inside : params.Inside
  ok : params.iov.Ok
  begun : 0 < params.iov.len
  slots : params.iov.io.length + 4 ≤ params.iov.size

/-! ## Sequences of calls -/

section Calls

/-- `buf_len` after the calls, starting from `bufLen`. -/
def bufAfter : Nat → List Add → Nat
  | bufLen, [] => bufLen
  | bufLen, a :: as =>
    if a.refused bufLen then bufAfter bufLen as else bufAfter (bufLen + a.bufUse) as

/-- The entries of the iov the calls take. -/
def entriesAfter : Nat → List Add → Nat
  | _, [] => 0
  | bufLen, a :: as =>
    if a.refused bufLen then entriesAfter bufLen as
    else a.entries + entriesAfter (bufLen + a.bufUse) as

theorem bufAfter_append (bufLen : Nat) (as bs : List Add) :
    bufAfter bufLen (as ++ bs) = bufAfter (bufAfter bufLen as) bs := by
  induction as generalizing bufLen with
  | nil => rfl
  | cons a as ih =>
    rw [List.cons_append, bufAfter, bufAfter]
    split
    · exact ih bufLen
    · exact ih (bufLen + a.bufUse)

theorem entriesAfter_append (bufLen : Nat) (as bs : List Add) :
    entriesAfter bufLen (as ++ bs) =
      entriesAfter bufLen as + entriesAfter (bufAfter bufLen as) bs := by
  induction as generalizing bufLen with
  | nil => simp [entriesAfter, bufAfter]
  | cons a as ih =>
    rw [List.cons_append, entriesAfter, entriesAfter, bufAfter]
    split
    · exact ih bufLen
    · rw [ih, Nat.add_assoc]

theorem le_bufAfter (bufLen : Nat) (as : List Add) : bufLen ≤ bufAfter bufLen as := by
  induction as generalizing bufLen with
  | nil => exact Nat.le_refl _
  | cons a as ih =>
    rw [bufAfter]
    split
    · exact ih bufLen
    · exact Nat.le_trans (Nat.le_add_right _ _) (ih (bufLen + a.bufUse))

theorem Add.entries_le (a : Add) : a.entries ≤ 4 := by
  unfold Add.entries paramEntries
  split <;> omega

theorem entriesAfter_le (bufLen : Nat) (as : List Add) :
    entriesAfter bufLen as ≤ 4 * as.length := by
  induction as generalizing bufLen with
  | nil => exact Nat.le_refl 0
  | cons a as ih =>
    have ha := a.entries_le
    rw [entriesAfter, List.length_cons]
    split
    · have := ih bufLen
      omega
    · have := ih (bufLen + a.bufUse)
      omega

/-- Parameters of the server take at most 16 bytes each. -/
theorem bufAfter_params_le (bufLen : Nat) {as : List Add}
    (hp : ∀ a ∈ as, ∃ key val, a = .param key val) :
    bufAfter bufLen as ≤ bufLen + 16 * as.length := by
  induction as generalizing bufLen with
  | nil => exact Nat.le_refl _
  | cons a as ih =>
    rcases hp a List.mem_cons_self with ⟨key, val, rfl⟩
    have hrest := ih (bufLen + (Add.param key val).bufUse)
      fun a ha => hp a (List.mem_cons_of_mem _ ha)
    have huse : (Add.param key val).bufUse ≤ 16 := length_paramHeader_le _ _
    rw [bufAfter, if_neg (by simp [Add.refused]), List.length_cons]
    omega

/-- A header that is not refused has room in the buffer. -/
theorem header_fits {bufLen : Nat} {key val : Bytes}
    (hr : (Add.header key val).refused bufLen = false) :
    bufLen + (Add.header key val).bufUse ≤ bufSize := by
  have hname : (headerName key).length = key.length + 5 := by
    simp only [headerName, List.length_append, List.length_map]
    exact Nat.add_comm 5 key.length
  have hsp : ¬ ((bufSize : Int) - bufLen < headerSize + 8 + (key.length + 5)) := by
    simpa [Add.refused, noSpace] using hr
  have hhead := length_paramHeader_le (headerName key).length val.length
  simp only [Add.bufUse, headerSize] at hsp ⊢
  omega

/-- So headers alone never fill more than the buffer. -/
theorem bufAfter_headers_le {bufLen : Nat} (hle : bufLen ≤ bufSize) {as : List Add}
    (hh : ∀ a ∈ as, ∃ key val, a = .header key val) : bufAfter bufLen as ≤ bufSize := by
  induction as generalizing bufLen with
  | nil => exact hle
  | cons a as ih =>
    rcases hh a List.mem_cons_self with ⟨key, val, rfl⟩
    have hrest : ∀ a ∈ as, ∃ key val, a = .header key val :=
      fun a ha => hh a (List.mem_cons_of_mem _ ha)
    rw [bufAfter]
    split
    · exact ih hle hrest
    · next hr => exact ih (header_fits (by simpa using hr)) hrest

/-- A header added again and again is refused at last: each time takes more than
one byte. -/
theorem entriesAfter_replicate {bufLen : Nat} (key val : Bytes) {n : Nat}
    (hn : bufSize < bufLen + n) (m : Nat) :
    entriesAfter (bufAfter bufLen (List.replicate n (.header key val)))
      (List.replicate m (.header key val)) = 0 := by
  have hrefused : ∀ {bufLen m}, (Add.header key val).refused bufLen = true →
      entriesAfter bufLen (List.replicate m (.header key val)) = 0 := by
    intro bufLen m hr
    induction m with
    | zero => rfl
    | succ m ih => rw [List.replicate_succ, entriesAfter, if_pos hr, ih]
  induction n generalizing bufLen with
  | zero =>
    refine hrefused ?_
    by_contra hr
    have hr' : (Add.header key val).refused bufLen = false := Bool.eq_false_of_not_eq_true hr
    have := header_fits hr'
    omega
  | succ n ih =>
    rw [List.replicate_succ, bufAfter]
    split
    · next hr =>
      have hsame : ∀ k, bufAfter bufLen (List.replicate k (.header key val)) = bufLen := by
        intro k
        induction k with
        | zero => rfl
        | succ k ihk => rw [List.replicate_succ, bufAfter, if_pos hr, ihk]
      rw [hsame]
      exact hrefused hr
    · refine ih ?_
      have : 1 ≤ (Add.header key val).bufUse := by
        simp only [Add.bufUse, headerName, List.length_append]
        simp [bytes]
        omega
      omega

end Calls

/-! ## The handler between two calls -/

section Sound

/-- What every function that adds to the handler keeps. -/
structure Sound (h : Params) : Prop where
  inside : h.Inside
  ok : h.iov.Ok
  begun : 0 < h.iov.len
  fits : h.bufData.length ≤ bufSize
  room : h.iov.io.length ≤ h.iov.size

variable {h h' : Params}

/-- A handler in which something has been added behind what was there. -/
theorem Sound.grows (hs : Sound h) {b : Bytes} (hin : h'.Inside) (hok : h'.iov.Ok)
    (hbytes : h'.bytes = h.bytes ++ b) (hfits : h'.bufData.length ≤ bufSize)
    (hroom : h'.iov.io.length ≤ h'.iov.size) : Sound h' := by
  refine ⟨hin, hok, ?_, hfits, hroom⟩
  have hlength := congrArg List.length hbytes
  have hbegun := hs.begun
  rw [Params.bytes, MkIov.bytes_length, List.length_append, Params.bytes, MkIov.bytes_length]
    at hlength
  omega

/-- A sequence of calls stays inside the arrays exactly if what it leaves does. -/
theorem addAll_spec (hs : Sound h) (as : List Add) :
    ((addAll h as).isSome ↔ bufAfter h.bufData.length as ≤ bufSize ∧
      h.iov.io.length + entriesAfter h.bufData.length as ≤ h.iov.size) ∧
    ∀ h' ps, addAll h as = some (h', ps) → Sound h' ∧
      h'.bufData.length = bufAfter h.bufData.length as ∧
      h'.iov.io.length = h.iov.io.length + entriesAfter h.bufData.length as ∧
      h'.iov.size = h.iov.size := by
  -- by induction on the headers
  induction as generalizing h with
  | nil =>
    constructor
    · simp only [addAll, Option.isSome_some, true_iff, bufAfter, entriesAfter]
      exact ⟨hs.fits, hs.room⟩
    · intro h' ps heq
      cases heq
      exact ⟨hs, rfl, rfl, rfl⟩
  | cons a as ih =>
    rw [addAll, bufAfter, entriesAfter]
    -- one that is refused adds nothing
    cases hr : a.refused h.bufData.length with
    | true =>
      rw [run_refused hr, Option.bind_some]
      simp only [if_true, List.nil_append, Option.isSome_map, Option.map_eq_some_iff,
        Prod.exists, Prod.mk.injEq]
      refine ⟨(ih hs).1, ?_⟩
      rintro h' ps ⟨h'', ps', hall, rfl, rfl⟩
      exact (ih hs).2 _ _ hall
    | false =>
      have hle := le_bufAfter (h.bufData.length + a.bufUse) as
      -- one that is added needs room for its bytes and for its entries
      by_cases hroom : h.bufData.length + a.bufUse ≤ bufSize ∧
          h.iov.io.length + a.entries ≤ h.iov.size
      · rcases run_ran hr hroom.1 hroom.2 with ⟨g, hrun, hran⟩
        have hg : Sound g := by
          refine hs.grows (hran.inside hs.inside) (hran.ok hs.ok) (hran.bytes hs.inside) ?_ ?_
          · rw [hran.bufData]
            exact hroom.1
          · rw [hran.io, hran.size]
            exact hroom.2
        have hih := ih hg
        rw [hran.bufData, hran.io, hran.size, Nat.add_assoc h.iov.io.length] at hih
        rw [hrun, Option.bind_some]
        simp only [Bool.false_eq_true, if_false, Option.isSome_map, Option.map_eq_some_iff,
          Prod.exists, Prod.mk.injEq]
        refine ⟨hih.1, ?_⟩
        rintro h' ps ⟨h'', ps', hall, rfl, rfl⟩
        exact hih.2 _ _ hall
      · rw [run_none hr hroom, Option.bind_none]
        simp only [Bool.false_eq_true, if_false, Option.isSome_none, false_iff, reduceCtorEq,
          false_implies, implies_true, and_true]
        rintro ⟨h1, h2⟩
        exact hroom ⟨by omega, by omega⟩

theorem addParamEmpty_eq (h : Params) : addParamEmpty h = h.addRecord closing [] := by
  unfold addParamEmpty Params.addRecord
  simp [addEntries, headerSize, closing, buildHeader, encode16, Option.map_eq_bind]

theorem addAll_append (h : Params) (as bs : List Add) :
    addAll h (as ++ bs) = (addAll h as).bind fun x =>
      (addAll x.1 bs).map fun y => (y.1, x.2 ++ y.2) := by
  induction as generalizing h with
  | nil => simp [addAll]
  | cons a as ih =>
    rw [List.cons_append, addAll, addAll]
    cases a.run h with
    | none => rfl
    | some x =>
      simp only [Option.bind_some, ih]
      cases addAll x.1 as with
      | none => rfl
      | some y =>
        simp only [Option.bind_some, Option.map_some]
        cases addAll y.1 bs with
        | none => rfl
        | some z => simp

end Sound

/-! ## The traversal of the headers -/

section Traversal

variable {r : Incoming}

theorem headerLinks_eq (p : Parser) :
    headerLinks p = Links.linkAll none (p.headerList.map some) := by
  rw [headerLinks, Links.linkAll, List.foldl_map]

theorem head_notMem (p : Parser) : (none : HeaderNode) ∉ p.headerList.map some := by
  simp

/-- The calls for the first `n` nodes from `x` on. -/
def visitedAdds (r : Incoming) (n : Nat) (x : Option HeaderNode) : List Add :=
  ((headerLinks r.p).visit none n x).filterMap fun node => node.map (headerAdd r)

/-- The loop adds the headers of the nodes it visits, and ends where the
traversal does. -/
theorem headerTurns_eq {x : HeaderNode} (hx : x ∈ none :: r.p.headerList.map some) (n : Nat)
    (h : Params) :
    headerTurns r n h (some x) = (addAll h (visitedAdds r n (some x))).map fun y =>
      (y.1, ((headerLinks r.p).walk none (n + 1) (some x)).isSome) := by
  induction n generalizing x h with
  | zero =>
    cases x with
    | none => simp [headerTurns, visitedAdds, Links.visit, Links.walk, addAll]
    | some ref => simp [headerTurns, visitedAdds, Links.visit, Links.walk, addAll]
  | succ n ih =>
    cases x with
    | none => simp [headerTurns, visitedAdds, Links.visit, Links.walk, addAll]
    | some ref =>
      have hnext := Links.mem_next (head_notMem r.p) hx
      rw [← headerLinks_eq] at hnext
      rcases hnext with ⟨y, hy, hnext⟩
      have hadds : visitedAdds r (n + 1) (some (some ref)) =
          headerAdd r ref :: visitedAdds r n (some y) := by
        rw [visitedAdds, Links.visit, if_neg (by simp), hnext]
        rfl
      rw [headerTurns, hadds, addAll, Links.walk, if_neg (by simp), hnext, Option.isSome_map]
      cases (headerAdd r ref).run h with
      | none => rfl
      | some z =>
        simp only [Option.bind_some, ih hy, Option.map_map]
        rfl

theorem visitedAdds_header (r : Incoming) (n : Nat) (x : Option HeaderNode) :
    ∀ a ∈ visitedAdds r n x, ∃ key val, a = .header key val := by
  intro a ha
  rcases List.mem_filterMap.mp ha with ⟨node, -, hnode⟩
  rcases Option.map_eq_some_iff.mp hnode with ⟨ref, -, rfl⟩
  exact ⟨_, _, rfl⟩

/-- A traversal that ends has met each header of the request at most once. -/
theorem visitedAdds_ends (hends : ¬ Links.EndsTwice r.p.headerList) :
    ∃ refs : List HeaderRef, refs.Nodup ∧ refs ⊆ r.p.headerList ∧
      ∀ n, r.p.headerList.length ≤ n →
        (headerLinks r.p).walk none (n + 1) ((headerLinks r.p).next none) =
          some (refs.map some) ∧
        visitedAdds r n ((headerLinks r.p).next none) = refs.map (headerAdd r) := by
  rcases Links.walk_linkAll (head_notMem r.p) (Links.endsTwice_cons_some.not.mpr hends) with
    ⟨qs, hwalk, hnodup, hsub⟩
  rw [← headerLinks_eq, List.length_map] at hwalk
  -- every node met is that of a header
  have hsome : ∃ refs : List HeaderRef, qs = refs.map some := by
    refine ⟨qs.filterMap id, ?_⟩
    have hall : ∀ q ∈ qs, ∃ ref, q = some ref := by
      intro q hq
      rcases List.mem_map.mp (hsub hq) with ⟨ref, -, rfl⟩
      exact ⟨ref, rfl⟩
    clear hwalk hnodup hsub
    induction qs with
    | nil => rfl
    | cons q qs ih =>
      rcases hall q List.mem_cons_self with ⟨ref, rfl⟩
      show some ref :: qs = some ref :: (qs.filterMap id).map some
      rw [← ih fun q hq => hall q (List.mem_cons_of_mem _ hq)]
  rcases hsome with ⟨refs, rfl⟩
  refine ⟨refs, hnodup.of_map some, ?_, fun n hn => ?_⟩
  · intro ref href
    have := hsub (List.mem_map_of_mem (f := some) href)
    simpa using this
  · have hw := hwalk (n + 1) (by omega)
    refine ⟨hw, ?_⟩
    rw [visitedAdds, Links.visit_of_walk hw, List.filterMap_map]
    simp

/-- A traversal that does not end visits one header again and again. -/
theorem visitedAdds_loops (hends : Links.EndsTwice r.p.headerList) :
    ∃ (m : Nat) (as : List Add) (key val : Bytes), m ≤ r.p.headerList.length ∧ ∀ n,
      (headerLinks r.p).walk none n ((headerLinks r.p).next none) = none ∧
      visitedAdds r (m + n) ((headerLinks r.p).next none) =
        as ++ List.replicate n (.header key val) := by
  rcases Links.visit_linkAll (head_notMem r.p) (Links.endsTwice_cons_some.mpr hends) with
    ⟨qs, z, hlen, hz, hvisit⟩
  rw [← headerLinks_eq, List.length_map] at *
  rcases List.mem_map.mp hz with ⟨ref, -, rfl⟩
  refine ⟨qs.length, qs.filterMap fun node => node.map (headerAdd r),
    r.slice (listEntry r.p ref).key, r.slice (listEntry r.p ref).val, hlen, fun n =>
      ⟨(hvisit n).1, ?_⟩⟩
  have hadd : (some ref : HeaderNode).map (headerAdd r) = some (headerAdd r ref) := rfl
  have hrep : ((List.replicate n (some ref : HeaderNode)).filterMap fun node =>
      node.map (headerAdd r)) = List.replicate n (headerAdd r ref) :=
    List.filterMap_replicate_of_some hadd
  rw [visitedAdds, (hvisit n).2, List.filterMap_append, hrep]
  rfl

end Traversal

/-! ## What the parser admits -/

section Admitted

/-- What holds of `header_list` in every state of the parser: it has an entry for
each header row, and at most 27 different nodes. -/
structure Admitted (p : Parser) : Prop where
  count : p.headerList.length = p.headerCount
  nodes : ∀ refs : List HeaderRef, refs.Nodup → refs ⊆ p.headerList → refs.length ≤ 27

/-- A number for each node. -/
def nodeNumber : HeaderRef → Nat
  | .known n => n
  | .extra k => Http.headerSizeof + k

theorem nodeNumber_injective : Function.Injective nodeNumber := by
  intro a b h
  cases a with
  | known n =>
    cases b with
    | known m => exact congrArg HeaderRef.known (Fin.ext h)
    | extra k =>
      have := n.isLt
      simp only [nodeNumber] at h
      omega
  | extra k =>
    cases b with
    | known m =>
      have := m.isLt
      simp only [nodeNumber] at h
      omega
    | extra j =>
      simp only [nodeNumber] at h
      exact congrArg HeaderRef.extra (by omega)

/-- The request the parser has read from the bytes `B`, cut into calls in any
way. -/
def parsedRequest (req : Http.ParsedRequest) (B : Bytes) (l : Nat) (ls : List Nat)
    (counter : Nat) : Incoming :=
  let s := (Http.feed (Http.parserFresh req B) l ls).1.2
  { req := s.req, p := s.p, buffer := s.buffer, counter }

theorem parsedRequest_admitted (req : Http.ParsedRequest) (B : Bytes) (l : Nat) (ls : List Nat)
    (counter : Nat) : Admitted (parsedRequest req B l ls counter).p := by
  rcases Http.feed_looked req B l ls with ⟨rs, -, hreg⟩
  refine ⟨?_, fun refs hnodup hsub => ?_⟩
  · show (Http.feed (Http.parserFresh req B) l ls).1.2.p.headerList.length = _
    rw [hreg.list, Http.length_headerRefs, ← hreg.count]
    rfl
  · -- known names come from the table, extra headers have eight places
    have hbound : ∀ n ∈ refs.map nodeNumber, n ∈ List.range 27 := by
      intro n hn
      rcases List.mem_map.mp hn with ⟨ref, href, rfl⟩
      have hmem : ref ∈ Http.headerRefs B rs 0 := hreg.list ▸ hsub href
      rw [List.mem_range]
      cases ref with
      | known m =>
        have hm : (m : Nat) < 19 := m.isLt
        simp only [nodeNumber]
        omega
      | extra k =>
        have hk := (Http.mem_headerRefs_extra 0).mp hmem
        have hextra := hreg.bound
        simp only [nodeNumber, Http.headerExtraSize, Http.headerSizeof] at hextra ⊢
        omega
    have hle := (hnodup.map nodeNumber_injective).subperm hbound |>.length_le
    rwa [List.length_map, List.length_range] at hle

end Admitted

/-! ## The whole call -/

section Encode

variable {e : EncodeEnv} {r : Incoming}

/-- The handler behind the begin record. -/
def begun (r : Incoming) : Params :=
  { newParams (iovEntries r) with
    iov := mkIovAdd (newParams (iovEntries r)).iov (.arg beginRequest) 0 beginRequest.length }

theorem begun_sound (r : Incoming) : Sound (begun r) := by
  refine ⟨?_, ?_, ?_, ?_, ?_⟩
  · intro x hx hbase
    rw [show (begun r).iov.io = [⟨.arg beginRequest, 0, beginRequest.length⟩] from rfl,
      List.mem_singleton] at hx
    rw [hx] at hbase
    cases hbase
  · have hnew : (newParams (iovEntries r)).iov.Ok := ⟨rfl⟩
    exact hnew.add _ _ _
  · show 0 < 16 + 0
    omega
  · show 8 ≤ bufSize
    unfold bufSize
    omega
  · show 1 ≤ 128 + r.p.headerCount * 3
    omega

/-- All parameters in front of the headers. -/
def serverParams (e : EncodeEnv) (r : Incoming) : List Add :=
  firstParams e ++ netParams e ++ lastParams e r

theorem serverParams_param (e : EncodeEnv) (r : Incoming) :
    ∀ a ∈ serverParams e r, ∃ key val, a = .param key val := by
  have hopt : ∀ (c : Prop) [Decidable c] (key val : Bytes), ∀ a ∈ (if c then [Add.param key val] else []),
      ∃ key val, a = .param key val := by
    intro c _ key val a ha
    split at ha
    · exact ⟨key, val, List.mem_singleton.mp ha⟩
    · cases ha
  intro a ha
  simp only [serverParams, lastParams, List.mem_append] at ha
  rcases ha with (ha | ha) | (((ha | ha) | ha) | ha) | ha
  · simp only [firstParams, List.mem_cons, List.not_mem_nil, or_false] at ha
    rcases ha with rfl | rfl | rfl | rfl | rfl | rfl <;> exact ⟨_, _, rfl⟩
  · unfold netParams at ha
    split at ha
    · cases ha
    · rcases List.mem_append.mp ha with ha | ha
      · simp only [List.mem_cons, List.not_mem_nil, or_false] at ha
        rcases ha with rfl | rfl <;> exact ⟨_, _, rfl⟩
      · split at ha
        · cases ha
        · simp only [List.mem_cons, List.not_mem_nil, or_false] at ha
          rcases ha with rfl | rfl <;> exact ⟨_, _, rfl⟩
  · simp only [List.mem_cons, List.not_mem_nil, or_false] at ha
    rcases ha with rfl | rfl | rfl | rfl <;> exact ⟨_, _, rfl⟩
  · exact hopt _ _ _ a ha
  · exact hopt _ _ _ a ha
  · exact hopt _ _ _ a ha
  · exact hopt _ _ _ a ha

theorem length_serverParams (e : EncodeEnv) (r : Incoming) : (serverParams e r).length ≤ 18 := by
  have hopt : ∀ (c : Prop) [Decidable c] (a : Add), (if c then [a] else []).length ≤ 1 := by
    intro c _ a
    split
    · exact Nat.le_refl 1
    · exact Nat.zero_le 1
  have hnet : (netParams e).length ≤ 4 := by
    unfold netParams
    split
    · exact Nat.zero_le 4
    · split
      · exact (by decide : 2 ≤ 4)
      · exact Nat.le_refl 4
  have hfirst : (firstParams e).length = 6 := rfl
  simp only [serverParams, lastParams, List.length_append, List.length_cons, List.length_nil]
  have h1 := hopt (r.req.queryString.len > 0)
    (.param (bytes "QUERY_STRING") (r.slice r.req.queryString))
  have h2 := hopt (e.ssl = true) (.param (bytes "HTTPS") (bytes "on"))
  have h3 := hopt (e.contentLengthP.data.isSome = true)
    (.param (bytes "CONTENT_LENGTH") (r.slice e.contentLengthP))
  have h4 := hopt ((r.p.headers HeaderName.contentType).type = (HeaderName.contentType : Nat))
    (.param (bytes "CONTENT_TYPE") (r.slice (r.p.headers HeaderName.contentType).val))
  omega

/-- The parameters the call adds up to the end of at most `n` turns. -/
def allAdds (n : Nat) (e : EncodeEnv) (r : Incoming) : List Add :=
  serverParams e r ++ visitedAdds r n ((headerLinks r.p).next none)

/-- The whole call in one sequence. -/
theorem fcgiEncodeRequest_eq (n : Nat) (e : EncodeEnv) (r : Incoming) :
    fcgiEncodeRequest n e r =
      if netFails e then
        (addAll (begun r) (firstParams e ++ netParams e)).map fun x => .failed x.1
      else (addAll (begun r) (allAdds n e r)).bind fun x =>
        if ((headerLinks r.p).walk none (n + 1) ((headerLinks r.p).next none)).isSome then
          (addParamEmpty x.1).map .encoded
        else some (.looping x.1) := by
  have hadd : iovAdd (newParams (iovEntries r)).iov (.arg beginRequest) 0 beginRequest.length =
      some (begun r).iov := by
    exact if_pos (show 0 < 128 + r.p.headerCount * 3 by omega)
  rcases Links.mem_next (head_notMem r.p) List.mem_cons_self with ⟨y, hy, hnext⟩
  rw [← headerLinks_eq] at hnext
  unfold fcgiEncodeRequest
  dsimp only
  rw [hadd, Option.bind_some]
  rw [show ({ newParams (iovEntries r) with iov := (begun r).iov } : Params) = begun r from rfl]
  unfold allAdds serverParams
  simp only [List.append_assoc, addAll_append, hnext, headerTurns_eq hy]
  cases addAll (begun r) (firstParams e) with
  | none => simp
  | some x =>
    simp only [Option.bind_some]
    cases addAll x.1 (netParams e) with
    | none => simp
    | some y =>
      simp only [Option.bind_some, Option.map_some]
      split
      · rfl
      · cases addAll y.1 (lastParams e r) with
        | none => simp
        | some z =>
          simp only [Option.bind_some]
          cases addAll z.1 (visitedAdds r n (some _)) with
          | none => simp
          | some w => simp

theorem visitedAdds_prefix {n m : Nat} (hnm : n ≤ m) (x : Option HeaderNode) :
    visitedAdds r n x <+: visitedAdds r m x :=
  (Links.visit_prefix hnm x).filterMap _

/-- The check in front of a header covers it: the parameters never go beyond the
buffer. -/
theorem bufAfter_allAdds_le (n : Nat) (e : EncodeEnv) (r : Incoming) :
    bufAfter headerSize (allAdds n e r) ≤ bufSize := by
  have hserver := length_serverParams e r
  have hbuf := bufAfter_params_le headerSize (serverParams_param e r)
  unfold allAdds
  rw [bufAfter_append]
  apply bufAfter_headers_le
  · unfold headerSize at hbuf ⊢
    unfold bufSize
    omega
  · exact visitedAdds_header r n _

/-- A list that does not end twice leaves room in the iov for the closing record
and a record of the body as well. -/
theorem encode_slots (hadm : Admitted r.p) (hends : ¬ Links.EndsTwice r.p.headerList) (n : Nat)
    (e : EncodeEnv) : 1 + entriesAfter headerSize (allAdds n e r) + 5 ≤ iovEntries r := by
  rcases visitedAdds_ends hends with ⟨refs, hnodup, hsub, hvisit⟩
  have hfew := hadm.nodes refs hnodup hsub
  have hcount : refs.length ≤ r.p.headerCount := by
    have := (hnodup.subperm hsub).length_le
    rwa [hadm.count] at this
  have hvisited : (visitedAdds r n ((headerLinks r.p).next none)).length ≤ refs.length := by
    have hpre := visitedAdds_prefix (r := r) (Nat.le_max_left n r.p.headerList.length)
      ((headerLinks r.p).next none)
    rw [(hvisit _ (Nat.le_max_right n r.p.headerList.length)).2] at hpre
    simpa using hpre.length_le
  have hserver := length_serverParams e r
  have h1 := entriesAfter_le headerSize (serverParams e r)
  have h2 := entriesAfter_le (bufAfter headerSize (serverParams e r))
    (visitedAdds r n ((headerLinks r.p).next none))
  unfold allAdds
  rw [entriesAfter_append]
  unfold iovEntries
  omega

/-- What the call hands over to `fcgi_add_stdin` is a handler with room for it. -/
theorem encoded_prepared (hadm : Admitted r.p) {n : Nat} {h : Params}
    (hrun : fcgiEncodeRequest n e r = some (.encoded h)) :
    (∃ q : Prepared, q.params = h) ∧
      h.bufData.length = bufAfter headerSize (allAdds n e r) + headerSize ∧
      ¬ Links.EndsTwice r.p.headerList := by
  rw [fcgiEncodeRequest_eq] at hrun
  split at hrun
  · rcases Option.map_eq_some_iff.mp hrun with ⟨x, -, hx⟩
    cases hx
  · rcases Option.bind_eq_some_iff.mp hrun with ⟨⟨g, ps⟩, hall, hrest⟩
    split at hrest
    · next hwalk =>
      -- a walk that ends does not meet a node twice
      have hends : ¬ Links.EndsTwice r.p.headerList := by
        intro htwice
        rcases visitedAdds_loops htwice with ⟨m, as, key, val, -, hloop⟩
        rw [(hloop (n + 1)).1] at hwalk
        cases hwalk
      rcases Option.map_eq_some_iff.mp hrest with ⟨h', hempty, hh⟩
      cases hh
      rcases (addAll_spec (begun_sound r) (allAdds n e r)).2 g ps hall with
        ⟨hsound, hbuf, hio, hsize⟩
      have hslots := encode_slots hadm hends n e
      rw [addParamEmpty_eq] at hempty
      rcases addRecord_eq_some hempty with ⟨-, -, ha⟩
      have hcount := ha.length_io
      have hlength := ha.length_bufData
      have hbytes := ha.bytes hsound.inside
      have hbegun := hsound.begun
      refine ⟨⟨⟨h, ha.inside hsound.inside fun x hx => absurd hx List.not_mem_nil,
        ha.ok hsound.ok, ?_, ?_⟩, rfl⟩, ?_, hends⟩
      · have hlen := congrArg List.length hbytes
        simp only [Params.bytes, MkIov.bytes_length, List.length_append] at hlen
        omega
      · have hone : (begun r).iov.io.length = 1 := rfl
        have hentries : (begun r).iov.size = iovEntries r := rfl
        have hstart : (begun r).bufData.length = headerSize := rfl
        rw [hstart] at hio
        rw [ha.size, hsize, hcount, hio, hone, hentries, List.length_nil]
        omega
      · rw [hlength, hbuf]
        rfl
    · cases hrest

/-- All headers are visited with as many turns as there are header rows. -/
theorem allAdds_eq (hadm : Admitted r.p) (hends : ¬ Links.EndsTwice r.p.headerList) {n : Nat}
    (hn : r.p.headerCount ≤ n) (e : EncodeEnv) :
    ((headerLinks r.p).walk none (n + 1) ((headerLinks r.p).next none)).isSome ∧
      allAdds n e r = allAdds r.p.headerCount e r := by
  rcases visitedAdds_ends hends with ⟨refs, -, -, hvisit⟩
  rw [hadm.count] at hvisit
  unfold allAdds
  rw [(hvisit n hn).1, (hvisit n hn).2, (hvisit _ (Nat.le_refl _)).2]
  exact ⟨rfl, rfl⟩

/-- More turns take more of the buffer. -/
theorem bufAfter_allAdds_mono {n m : Nat} (hnm : n ≤ m) (e : EncodeEnv) (r : Incoming) :
    bufAfter headerSize (allAdds n e r) ≤ bufAfter headerSize (allAdds m e r) := by
  rcases visitedAdds_prefix hnm ((headerLinks r.p).next none) with ⟨cs, hcs⟩
  unfold allAdds
  rw [← hcs, ← List.append_assoc, bufAfter_append _ (serverParams e r ++ visitedAdds r n _) cs]
  exact le_bufAfter _ cs

/-- With room for the closing record the call stays inside. -/
theorem encode_some (hadm : Admitted r.p) (hends : ¬ Links.EndsTwice r.p.headerList)
    (hnet : netFails e = false) {n : Nat}
    (hfits : bufAfter headerSize (allAdds n e r) + headerSize ≤ bufSize) :
    fcgiEncodeRequest n e r ≠ none := by
  have hslots := encode_slots hadm hends n e
  have hstart : (begun r).bufData.length = headerSize := rfl
  have hone : (begun r).iov.io.length = 1 := rfl
  have hentries : (begun r).iov.size = iovEntries r := rfl
  rcases addAll_spec (begun_sound r) (allAdds n e r) with ⟨hsome, hspec⟩
  rw [hstart, hone, hentries] at hsome
  rcases Option.isSome_iff_exists.mp (hsome.mpr ⟨bufAfter_allAdds_le n e r, by omega⟩) with
    ⟨⟨g, ps⟩, hall⟩
  rcases hspec g ps hall with ⟨-, hbuf, hio, hsize⟩
  rw [hstart] at hbuf hio
  rw [fcgiEncodeRequest_eq, hnet, if_neg Bool.false_ne_true, hall, Option.bind_some]
  dsimp only
  split
  · have hclosing : closing.length = headerSize := rfl
    rcases addRecord_some (show g.bufData.length + closing.length ≤ bufSize by omega)
      (show g.iov.io.length + (([] : List (IoVec Src)).length + 1) ≤ g.iov.size by
        rw [hio, hsize, hone, hentries, List.length_nil]
        omega) with ⟨h, hadd, -⟩
    rw [addParamEmpty_eq, hadd, Option.map_some]
    exact Option.some_ne_none _
  · exact Option.some_ne_none _

/-- Where the network answers and the traversal ends, all depends on the room for
the closing record. -/
theorem encode_ends (hadm : Admitted r.p) (hnet : netFails e = false)
    (hends : ¬ Links.EndsTwice r.p.headerList) {n : Nat} (hn : r.p.headerCount ≤ n) :
    (bufAfter headerSize (allAdds n e r) + headerSize ≤ bufSize →
      ∃ h, fcgiEncodeRequest n e r = some (.encoded h)) ∧
    (¬ bufAfter headerSize (allAdds n e r) + headerSize ≤ bufSize →
      fcgiEncodeRequest n e r = none) := by
  have hrun : fcgiEncodeRequest n e r = (addAll (begun r) (allAdds n e r)).bind fun x =>
      (addParamEmpty x.1).map .encoded := by
    rw [fcgiEncodeRequest_eq, hnet, if_neg Bool.false_ne_true]
    simp only [(allAdds_eq hadm hends hn e).1, if_true]
  constructor
  · intro hfits
    rcases Option.ne_none_iff_exists'.mp (encode_some hadm hends hnet hfits) with ⟨x, hx⟩
    rw [hx, eq_comm, Option.bind_eq_some_iff] at hrun
    rcases hrun with ⟨y, -, hy⟩
    rcases Option.map_eq_some_iff.mp hy with ⟨h, -, rfl⟩
    exact ⟨h, hx⟩
  · intro hfull
    rw [hrun]
    cases hall : addAll (begun r) (allAdds n e r) with
    | none => rfl
    | some x =>
      have hbuf := ((addAll_spec (begun_sound r) (allAdds n e r)).2 x.1 x.2 hall).2.1
      rw [show (begun r).bufData.length = headerSize from rfl] at hbuf
      have hclosing : closing.length = headerSize := rfl
      rw [Option.bind_some, addParamEmpty_eq, addRecord_none fun h => hfull (by omega),
        Option.map_none]

end Encode

end SuperExe.FastCgi
