import SuperExe.Http.SingleResponse

/-! # The framing of error responses

`mk_http_error` decides in one place on the length it announces and in another
on the page it queues. `ErrorFramed` says that the two agree for a request: what
is queued behind the header block has the announced number of bytes, and is
nothing for `HEAD`.
-/

namespace SuperExe.Http

open SuperExe.Core SuperExe.Vhost

/-! ## mk_http_error on a request -/

/-- The text a `mk_ptr_t` covers. -/
def ptrText (buffer : Nat → UInt8) (p : MkPtr) : Bytes :=
  match p.data with
  | some off => (List.range p.len.toNat).map fun j => buffer (off + j)
  | none => []

/-- The page for this status quotes the URI. -/
def quotesUri (status : Int) : Bool :=
  status = 403 ∨ status = 405 ∨ status = 500 ∨ status = 501

/-- The virtual host of the request; `mk_http_request_init` sets it. -/
def HttpRequest.errorHost (k : World) (sr : HttpRequest) : Host := sr.hostConf.getD k.defaultHost

/-- `mk_http_error` builds a page from the URI when there is none: `mk_ptr_to_buf`
copies `uri.len` bytes, which is not reset with `uri.data`, from `NULL`. -/
def UriMissing (k : World) (sr : HttpRequest) (status : Int) : Prop :=
  customErrorPage k (sr.errorHost k) status = none ∧ quotesUri status = true ∧
    sr.uri.data = none ∧ sr.uri.len ≠ 0

/-- The acts of `mk_http_error` for a request record. -/
def errorActs (k : World) (buffer : Nat → UInt8) (sr : HttpRequest) (status : Int) : List Act :=
  mkHttpError k (sr.errorHost k) sr.method (ptrText buffer sr.uri) status

/-! ## Announced and queued -/

/-- The number in the `Content-Length` row, if `mk_header_prepare` writes one. -/
def announcedLength (sh : ResponseHeaders) : Option Int :=
  if sh.hasContentLength then some sh.contentLength else none

/-- The bytes a list of what was sent off will put on the wire, header blocks
apart. -/
def queuedBytes (out : List Out) : Int :=
  (out.map fun
    | .page bs => (bs.length : Int)
    | .file fs => fs.bytesTotal
    | _ => 0).sum

/-- The acts in front of the first header block. -/
def beforeHeader (acts : List Act) : List Act := acts.takeWhile fun a => !a.isHeaderPrepare

/-- What is sent off behind the first header block. -/
def bodyOut (k : World) (s : Serving) (acts : List Act) : List Out :=
  (runActs k s acts).out.drop ((runActs k s (beforeHeader acts)).out.length + 1)

/-- The error response of a request is framed: the process survives it, the
status has its line, the announced length is the queued one, and nothing is
queued for `HEAD`. -/
structure ErrorFramed (k : World) (buffer : Nat → UInt8) (s : Serving) (status : Int) : Prop where
  alive : ¬ UriMissing k s.sr status
  listed : (statusEntry (runActs k s (beforeHeader (errorActs k buffer s.sr status))).sr.headers).isSome
  length : announcedLength (runActs k s (beforeHeader (errorActs k buffer s.sr status))).sr.headers =
    some (queuedBytes (bodyOut k s (errorActs k buffer s.sr status)))
  head : s.sr.method = .head → queuedBytes (bodyOut k s (errorActs k buffer s.sr status)) = 0

/-- The statuses of `status_response` that are errors. -/
def errorStatuses : List Int := (statusResponse.map Prod.fst).filter fun n => 400 ≤ n

/-- `stat(2)` gives no negative size. -/
def SizesNonneg (k : World) : Prop :=
  ∀ path info, k.fileStat path = .found info → 0 ≤ info.size

/-- When the two decisions of `mk_http_error` agree. -/
structure ErrorAgrees (k : World) (sr : HttpRequest) (status : Int) : Prop where
  uri : ¬ UriMissing k sr status
  plain : sr.headers.transferEncoding ≠ headerTeTypeChunked
  /-- a customized page is sent to `HEAD` as well -/
  custom : ∀ fd info, customErrorPage k (sr.errorHost k) status = some (fd, info) →
    sr.method = .head → info.size = 0
  /-- a generated page is sent to an unknown method with length `0` -/
  generated : customErrorPage k (sr.errorHost k) status = none → sr.method = .unknown →
    errorPage k.serverSignature [] status = none

variable {k : World} {buffer : Nat → UInt8} {s : Serving} {status : Int}

theorem customErrorPage_size (hsize : SizesNonneg k) {host : Host} {fd : Int} {info : FileInfo}
    (h : customErrorPage k host status = some (fd, info)) : 0 ≤ info.size := by
  unfold customErrorPage at h
  split at h
  · obtain ⟨entry, -, hentry⟩ := Option.bind_eq_some_iff.mp h
    split at hentry
    · next hstat =>
      split at hentry
      · cases hentry
      · obtain ⟨-, rfl⟩ := Prod.mk.inj (Option.some.inj hentry)
        exact hsize _ _ hstat
    · cases hentry
  · cases h

/-- Whether there is a page does not depend on the URI. -/
theorem errorPage_isNone (signature uri uri' : Bytes) (status : Int) :
    errorPage signature uri status = none ↔ errorPage signature uri' status = none := by
  unfold errorPage
  repeat' split
  all_goals simp

theorem requestDefaultPage_length (title message signature : Bytes) :
    0 < (requestDefaultPage title message signature).length := by
  have hend : 0 < (bytes "</ADDRESS></BODY></HTML>").length := by decide
  unfold requestDefaultPage
  rw [List.length_append]
  omega

theorem errorPage_length {signature uri page : Bytes} {status : Int}
    (h : errorPage signature uri status = some page) : 0 < page.length := by
  unfold errorPage at h
  repeat' split at h
  all_goals first
    | (obtain rfl := Option.some.inj h
       exact requestDefaultPage_length _ _ _)
    | cases h

theorem listed_status (h : status ∈ errorStatuses) {sh : ResponseHeaders} (hsh : sh.status = status) :
    (statusEntry sh).isSome := by
  have hin : status ∈ statusResponse.map Prod.fst := List.mem_of_mem_filter h
  obtain ⟨row, hrow, hfst⟩ := List.mem_map.mp hin
  unfold statusEntry
  split
  · rfl
  · rw [Option.isSome_map, List.find?_isSome]
    exact ⟨row, hrow, by simp [hfst, hsh]⟩

variable (buffer) in
/-- A customized page: its size is announced, and it is queued. -/
theorem custom_framed {fd : Int} {info : FileInfo} (hsize : 0 ≤ info.size)
    (hcustom : customErrorPage k (s.sr.errorHost k) status = some (fd, info)) :
    (runActs k s (beforeHeader (errorActs k buffer s.sr status))).sr.headers.status = status ∧
    announcedLength (runActs k s (beforeHeader (errorActs k buffer s.sr status))).sr.headers =
      (if s.sr.headers.transferEncoding ≠ headerTeTypeChunked then some info.size else none) ∧
    queuedBytes (bodyOut k s (errorActs k buffer s.sr status)) = info.size := by
  -- the page is queued after the header, without a look at the method
  have hacts : errorActs k buffer s.sr status = [.status status, .contentLength info.size,
      .realLength info.size, .headerPrepare,
      .fileStream { fd := fd, bytesTotal := info.size, bytesOffset := 0, preserve := false },
      .queueFile] := by
    simp only [errorActs, mkHttpError, hcustom]
  have hbefore : beforeHeader (errorActs k buffer s.sr status) =
      [.status status, .contentLength info.size, .realLength info.size] := by
    rw [hacts]
    rfl
  refine ⟨?_, ?_, ?_⟩
  · rw [hbefore]
    rfl
  · rw [hbefore]
    simp only [announcedLength, ResponseHeaders.hasContentLength, runActs, List.foldl_cons,
      List.foldl_nil, runAct, Serving.setHeaders, hsize, true_and, headerTeTypeChunked]
    rfl
  · unfold bodyOut
    rw [hbefore, hacts]
    simp [runActs, runAct, Serving.setHeaders, Serving.setSr, Serving.emit, queuedBytes]

/-- The length `mk_http_error` announces for a generated page. -/
def generatedLength (method : Method) (page : Option Bytes) : Int :=
  match page with
  | some page => if method ≠ .head ∧ method ≠ .unknown then page.length else 0
  | none => 0

theorem generatedLength_nonneg (method : Method) (page : Option Bytes) :
    0 ≤ generatedLength method page := by
  unfold generatedLength
  repeat' split
  all_goals omega

variable (buffer) in
/-- A generated page, or none. -/
theorem generated_framed (hcustom : customErrorPage k (s.sr.errorHost k) status = none) :
    let page := errorPage k.serverSignature (ptrText buffer s.sr.uri) status
    (runActs k s (beforeHeader (errorActs k buffer s.sr status))).sr.headers.status = status ∧
    announcedLength (runActs k s (beforeHeader (errorActs k buffer s.sr status))).sr.headers =
      (if s.sr.headers.transferEncoding ≠ headerTeTypeChunked then
        some (generatedLength s.sr.method page) else none) ∧
    queuedBytes (bodyOut k s (errorActs k buffer s.sr status)) =
      if s.sr.method ≠ .head then ((page.getD []).length : Int) else 0 := by
  intro page
  have hbefore : beforeHeader (errorActs k buffer s.sr status) =
      [.status status, .contentLength (generatedLength s.sr.method page), .location none,
        .cgi shNocgi, .pconnectionsLeft 0, .lastModified (-1),
        .contentType (if page.isNone then [] else bytes "Content-Type: text/html\r\n")] := by
    simp only [errorActs, mkHttpError, hcustom]
    cases hpage : errorPage k.serverSignature (ptrText buffer s.sr.uri) status with
    | none =>
      have hnone : page = none := hpage
      rw [hnone]
      rfl
    | some bs =>
      have hsome : page = some bs := hpage
      rw [hsome]
      simp only [generatedLength, errorPage_length hpage, true_and]
      rfl
  refine ⟨?_, ?_, ?_⟩
  · rw [hbefore]
    rfl
  · rw [hbefore]
    have hnonneg := generatedLength_nonneg s.sr.method page
    simp only [announcedLength, ResponseHeaders.hasContentLength, runActs, List.foldl_cons,
      List.foldl_nil, runAct, Serving.setHeaders, hnonneg, true_and, headerTeTypeChunked]
    rfl
  · unfold bodyOut
    rw [hbefore]
    simp only [errorActs, mkHttpError, hcustom]
    cases hpage : errorPage k.serverSignature (ptrText buffer s.sr.uri) status with
    | none =>
      have hnone : page = none := hpage
      simp [hnone, runActs, runAct, Serving.setHeaders, Serving.emit, queuedBytes]
    | some bs =>
      have hsome : page = some bs := hpage
      -- the page goes into the response unless the method is `HEAD`
      by_cases hhead : s.sr.method = .head
      · simp [hsome, hhead, runActs, runAct, Serving.setHeaders, Serving.emit, queuedBytes]
      · simp [hsome, hhead, runActs, runAct, Serving.setHeaders, Serving.emit, queuedBytes]

/-! ## The result -/

/-- For every request record, error status and configuration: the error response
is framed iff the two decisions agree. -/
theorem error_framing_iff (k : World) (buffer : Nat → UInt8) (s : Serving) (status : Int)
    (hstatus : status ∈ errorStatuses) (hsize : SizesNonneg k) :
    ErrorFramed k buffer s status ↔ ErrorAgrees k s.sr status := by
  cases hcustom : customErrorPage k (s.sr.errorHost k) status with
  | some page =>
    obtain ⟨fd, info⟩ := page
    obtain ⟨hcode, hannounced, hqueued⟩ :=
      custom_framed buffer (customErrorPage_size hsize hcustom) hcustom
    constructor
    · rintro ⟨halive, -, hlength, hhead⟩
      rw [hannounced, hqueued] at hlength
      rw [hqueued] at hhead
      refine ⟨halive, ?_, ?_, ?_⟩
      · intro hchunked
        simp [hchunked] at hlength
      · intro fd' info' heq hm
        obtain ⟨-, rfl⟩ := Prod.mk.inj (Option.some.inj (hcustom.symm.trans heq))
        exact hhead hm
      · intro hnone
        rw [hcustom] at hnone
        cases hnone
    · rintro ⟨huri, hplain, hempty, -⟩
      refine ⟨huri, listed_status hstatus hcode, ?_, ?_⟩
      · rw [hannounced, hqueued, if_pos hplain]
      · rw [hqueued]
        exact hempty fd info hcustom
  | none =>
    obtain ⟨hcode, hannounced, hqueued⟩ := generated_framed buffer hcustom
    constructor
    · rintro ⟨halive, -, hlength, -⟩
      rw [hannounced, hqueued] at hlength
      refine ⟨halive, ?_, ?_, ?_⟩
      · intro hchunked
        simp [hchunked] at hlength
      · intro fd info hsome
        rw [hcustom] at hsome
        cases hsome
      · intro _ hm
        rw [errorPage_isNone _ _ (ptrText buffer s.sr.uri)]
        -- a page has at least one byte, `0` is announced for it
        cases hpage : errorPage k.serverSignature (ptrText buffer s.sr.uri) status with
        | none => rfl
        | some bs =>
          have hpos := errorPage_length hpage
          have heq : s.sr.headers.transferEncoding ≠ headerTeTypeChunked ∧ (0 : Int) = bs.length := by
            simpa [hpage, hm, generatedLength] using hlength
          omega
    · rintro ⟨huri, hplain, -, hempty⟩
      refine ⟨huri, listed_status hstatus hcode, ?_, ?_⟩
      · rw [hannounced, hqueued, if_pos hplain]
        cases hpage : errorPage k.serverSignature (ptrText buffer s.sr.uri) status with
        | none => simp [generatedLength]
        | some bs =>
          -- an unknown method with a page would be announced with `0`
          have hknown : s.sr.method ≠ .unknown := by
            intro hm
            have hnone := (errorPage_isNone _ _ (ptrText buffer s.sr.uri) _).mp (hempty hcustom hm)
            rw [hpage] at hnone
            cases hnone
          by_cases hhead : s.sr.method = .head
          · simp [generatedLength, hhead]
          · simp [generatedLength, hhead, hknown]
      · intro hhead
        rw [hqueued]
        simp [hhead]

/-- A record as it is when `mk_http_init` meets it. -/
def servingOf (e : Arrival) : Serving := { sr := received connStart e, closeNow := false, out := [] }

theorem sizesNonneg_worldSite : SizesNonneg worldSite := by
  intro path info h
  simp only [worldSite] at h
  split at h
  · obtain rfl := FileStat.found.inj h
    decide
  · cases h

/-- `GET /b` gets a framed `404`. -/
theorem error_framing_iff_not_found :
    ErrorFramed worldSite (getB.parse parsedRequestZero).buffer (servingOf getB) 404 := by
  refine (error_framing_iff worldSite _ (servingOf getB) 404 (by decide)
    sizesNonneg_worldSite).mpr ⟨?_, ?_, ?_, ?_⟩
  · rintro ⟨-, h, -⟩
    revert h
    decide
  · decide
  · intro fd info h
    cases h
  · intro _ h
    revert h
    decide

/-- `FOO /a` -/
def fooA : Arrival where
  world := worldSite
  bytes := bytes "FOO /a HTTP/1.1\r\nHost: x\r\n\r\n"
  first := 29
  rest := []
  ok := by decide

/-- The `501` for an unknown method announces no byte and has a page. -/
theorem error_framing_unknown_method :
    ¬ ∀ (k : World) (buffer : Nat → UInt8) (s : Serving) (status : Int),
      status ∈ errorStatuses → SizesNonneg k → ErrorFramed k buffer s status := by
  intro h
  have hframed := h worldSite (fooA.parse parsedRequestZero).buffer (servingOf fooA) 501 (by decide)
    sizesNonneg_worldSite
  have hlength := hframed.length
  revert hlength
  decide +kernel

end SuperExe.Http
