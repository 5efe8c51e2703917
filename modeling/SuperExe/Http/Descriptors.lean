import SuperExe.Http.Answer
import SuperExe.Http.Isolation
import SuperExe.Vhost.FdtFiles

/-! # The descriptors of a request

A request opens files in two places: `mk_http_init` opens the static file through
the table of its virtual host, and `mk_http_error` opens a customized error page
with a plain `open(2)`. Both store what they get in `file_stream.fd`, and
`mk_http_request_free` gives back one descriptor, by the rule of the table when
the request went through it.

`requestFd` is the way a request takes as far as descriptors are concerned; it
is computed from the same decisions as the acts of `mk_http_request_prepare`
(`requestFd_stored`).
-/

namespace SuperExe.Http

open SuperExe.Core SuperExe.Lib SuperExe.Vhost

/-! ## The way of a request -/

/-- The customized page of a status, if `mk_file_get_info` finds its file. -/
def errorPageFile (k : World) (host : Host) (status : Int) : Option Path :=
  if status ≠ clientLengthRequired ∧ status ≠ clientBadRequest ∧
      status ≠ clientRequestEntityTooLarge then
    (host.errorPages.find? fun entry => entry.1 = status).bind fun entry =>
      match k.fileStat entry.2 with
      | .found _ => some entry.2
      | _ => none
  else none

/-- The calls of a request that may open a file. -/
inductive FdWay where
  /-- none -/
  | idle
  /-- `mk_http_error`, with its customized page -/
  | error (page : Option Path)
  /-- `mk_http_error` twice for one status -/
  | errorTwice (page : Option Path)
  /-- `mk_vhost_open`; then `mk_http_error` with the page `forbidden` when it
  fails, or with the page `refused` when the range is refused -/
  | sendFile (path : Path) (forbidden refused : Option Path)
deriving DecidableEq, Repr

/-- The page of the error that answers a range which does not fit. -/
def refusedPage (k : World) (r : Incoming) (f : Found) (info : FileInfo) : Option Path :=
  let range := mkHttpPointHeader r.p .range
  if range.data.isSome ∧ k.resume = true then
    let tail := (List.range 32).map fun j => r.buffer ((range.data.getD 0) + range.len.toNat + j)
    match mkHttpRangeParse (r.slice range) tail info.size with
    | none => errorPageFile k f.host clientBadRequest
    | some (ranges, _) =>
      match mkHttpRangeSet ranges info.size with
      | none => errorPageFile k f.host 416
      | some _ => none
  else none

/-- `mk_http_init` behind the stage 30 handlers, for an existing file. -/
def serveFileFd (k : World) (r : Incoming) (f : Found) (path : Bytes) (info : FileInfo) : FdWay :=
  let err := fun status => FdWay.error (errorPageFile k f.host status)
  if info.isLink ∧ (k.symlink = false ∨ k.readlink path = false) then err 403
  else if r.req.method = .put ∨ r.req.method = .delete then err 405
  else if r.req.method = .unknown then err 501
  else if r.req.method = .options then .idle
  else if info.readAccess = false then err 403
  else if info.isDirectory then err 403
  else if info.size = 0 then err 404
  else
    let since := mkHttpPointHeader r.p .ifModifiedSince
    let date := k.gmt2utime (r.slice since)
    if since.data.isSome ∧ r.req.method = .get ∧ info.lastModification ≤ date ∧ date > 0 then
      .idle
    else
      .sendFile path (errorPageFile k f.host 403)
        (if r.req.method = .get ∨ r.req.method = .head then refusedPage k r f info else none)

/-- The stage 30 loop; nothing when no plugin takes the request. -/
def stage30Fd (k : World) (r : Incoming) (f : Found) : List Handler → Option FdWay
  | [] => none
  | h :: hs =>
    if h.regexec (cString f.uri) then
      let ans := k.stage30 h.plugin
      match (ans.acts r.req.protocol).2 with
      | .continue_ => some .idle
      | .end_ => some .idle
      | .closeConx =>
        some (.error (errorPageFile k f.host (if ans.closeStatus > 0 then ans.closeStatus else 403)))
      | .notMe => stage30Fd k r f hs
    else stage30Fd k r f hs

/-- `mk_http_init` -/
def mkHttpInitFd (k : World) (r : Incoming) (f : Found) : FdWay :=
  let err := fun status => FdWay.error (errorPageFile k f.host status)
  let path := f.home.getD (f.host.documentroot ++ f.uri)
  if bytes ".." <:+: f.uri then err 403
  else if (mkHttpPointHeader r.p .contentLength).data.isSome ∧ r.req.method ≠ .post ∧
      r.req.method ≠ .put then err clientBadRequest
  else
    match stage30Fd k r f f.host.handlers with
    | some way => way
    | none =>
      match k.fileStat (cString path) with
      | .found info =>
        if info.isDirectory then
          if f.uri.getLast? ≠ some 47 then .idle
          else
            match mkHttpIndexLookup k path with
            | some index =>
              match k.fileStat (cString index) with
              | .found info => serveFileFd k r f index info
              | _ => err 403
            | none => serveFileFd k r f path info
        else serveFileFd k r f path info
      | _ => err 404

/-- `mk_http_request_prepare` from the check for a user's home directory on. -/
def prepareHostFd (k : World) (r : Incoming) (f : Found) : FdWay :=
  let stage20 (f : Found) : FdWay := if k.stage20Close then .idle else mkHttpInitFd k r f
  match k.userDir with
  | some userDir =>
    if f.uri.length > 2 ∧ f.uri[1]? = some 126 then
      let after := if (mkUtilsUrlDecode r.uriText).isSome then [0, 0] else
        (List.range 2).map fun j => r.buffer ((r.req.uri.data.getD 0) + r.req.uri.len.toNat + j)
      match mkUserInit k.getpwnam userDir f.uri after with
      | .refused => .error (errorPageFile k f.host 404)
      | .unknownUser => .errorTwice (errorPageFile k f.host 404)
      | .home path => stage20 { f with home := some path }
    else stage20 f
  | none => stage20 f

/-- `mk_http_request_prepare` -/
def requestFd (k : World) (r : Incoming) : FdWay :=
  if RefusedEarly r then .error (errorPageFile k k.defaultHost clientBadRequest)
  else
    match hostRedirect k r with
    | some _ => .idle
    | none => prepareHostFd k r (foundFor k r)

/-! ## The acts of a request store the same descriptors -/

/-- `file_stream.fd` after an act. -/
def Act.storesFd (fd : Int) : Act → Int
  | .fileStream s => s.fd
  | _ => fd

/-- `file_stream.fd` after a list of acts. -/
def storedFd (fd : Int) (acts : List Act) : Int := acts.foldl Act.storesFd fd

@[simp] theorem storedFd_nil (fd : Int) : storedFd fd [] = fd := rfl

@[simp] theorem storedFd_cons (fd : Int) (a : Act) (acts : List Act) :
    storedFd fd (a :: acts) = storedFd (a.storesFd fd) acts := rfl

@[simp] theorem storedFd_append (fd : Int) (l m : List Act) :
    storedFd fd (l ++ m) = storedFd (storedFd fd l) m := List.foldl_append

theorem runAct_fd (k : World) (s : Serving) (a : Act) :
    (runAct k s a).sr.fileStream.fd = a.storesFd s.sr.fileStream.fd := by
  cases a <;> rfl

theorem runActs_fd (k : World) (s : Serving) (acts : List Act) :
    (runActs k s acts).sr.fileStream.fd = storedFd s.sr.fileStream.fd acts := by
  induction acts generalizing s with
  | nil => rfl
  | cons a acts ih =>
    rw [storedFd_cons, ← runAct_fd k s a]
    exact ih (runAct k s a)

/-- The descriptor of a page, with the answer of `open(2)` as the world has it. -/
def pageFd (k : World) (page : Option Path) : Option Int :=
  page.bind fun path => if k.openFile path = -1 then none else some (k.openFile path)

/-- `file_stream.fd` at the end of a way. -/
def FdWay.storedFd (k : World) (fd : Int) : FdWay → Int
  | .idle => fd
  | .error page => (pageFd k page).getD fd
  | .errorTwice page => (pageFd k page).getD fd
  | .sendFile path forbidden refused =>
    if k.vhostOpen path = -1 then (pageFd k forbidden).getD (-1)
    else (pageFd k refused).getD (k.vhostOpen path)

section Stored

variable (k : World) (r : Incoming) (f : Found) (fd : Int)

theorem customErrorPage_eq (host : Host) (status : Int) :
    (customErrorPage k host status).map Prod.fst = pageFd k (errorPageFile k host status) := by
  unfold customErrorPage errorPageFile pageFd
  split
  · cases host.errorPages.find? fun entry => decide (entry.1 = status) with
    | none => rfl
    | some entry =>
      simp only [Option.bind_some]
      cases k.fileStat entry.2 <;> simp
      split <;> simp
  · rfl

@[simp] theorem mkHttpError_stored (host : Host) (method : Method) (uri : Bytes) (status : Int) :
    storedFd fd (mkHttpError k host method uri status) =
      (pageFd k (errorPageFile k host status)).getD fd := by
  rw [← customErrorPage_eq]
  unfold mkHttpError
  simp only
  cases customErrorPage k host status with
  | some page => simp [Act.storesFd]
  | none =>
    simp only [Option.map_none, Option.getD_none]
    repeat' split
    all_goals simp [Act.storesFd]

theorem pluginActs_stored (protocol : Protocol) (ans : PluginAnswer) :
    storedFd fd (ans.acts protocol).1 = fd := by
  cases ans <;> simp only [PluginAnswer.acts]
  all_goals repeat' split
  all_goals simp [Act.storesFd]

theorem stage30Acts_stored (hs : List Handler) :
    storedFd fd (stage30Acts k r f hs).1 = ((stage30Fd k r f hs).getD .idle).storedFd k fd ∧
      (stage30Acts k r f hs).2 = (stage30Fd k r f hs).isSome := by
  induction hs with
  | nil => simp [stage30Acts, stage30Fd, FdWay.storedFd]
  | cons h hs ih =>
    have hacts := pluginActs_stored fd r.req.protocol (k.stage30 h.plugin)
    unfold stage30Acts stage30Fd
    simp only
    split
    · split <;> simp_all [Act.storesFd, FdWay.storedFd]
    · exact ih

theorem rangeActs_stored (info : FileInfo) :
    storedFd fd (rangeActs k r f info fd).1 = (pageFd k (refusedPage k r f info)).getD fd := by
  unfold rangeActs refusedPage
  simp only
  repeat' split
  all_goals simp_all [Act.storesFd, pageFd]

theorem sendFileActs_stored (path : Bytes) (info : FileInfo) :
    storedFd fd (sendFileActs k r f path info) =
      FdWay.storedFd k fd (.sendFile path (errorPageFile k f.host 403)
        (if r.req.method = .get ∨ r.req.method = .head then refusedPage k r f info else none)) := by
  have hranges := rangeActs_stored k r f (k.vhostOpen path) info
  unfold sendFileActs
  simp only [FdWay.storedFd]
  by_cases hfd : k.vhostOpen path = -1
  · simp [hfd, Act.storesFd]
  · by_cases hmethod : r.req.method = .get ∨ r.req.method = .head
    · simp only [hfd, hmethod, if_true, if_false]
      repeat' split
      all_goals simp_all [Act.storesFd]
    · simp only [hfd, hmethod, if_false]
      split <;> simp [Act.storesFd, pageFd]

theorem serveFileActs_stored (path : Bytes) (info : FileInfo) :
    storedFd fd (serveFileActs k r f path info) = (serveFileFd k r f path info).storedFd k fd := by
  have hsend := sendFileActs_stored k r f fd path info
  unfold serveFileActs serveFileFd
  simp only
  repeat' split
  all_goals simp_all [Act.storesFd, FdWay.storedFd]

theorem mkHttpDirectoryRedirect_stored : storedFd fd (mkHttpDirectoryRedirect k r f) = fd := by
  unfold mkHttpDirectoryRedirect
  simp only
  split <;> simp [Act.storesFd]

theorem mkHttpInit_stored :
    storedFd fd (mkHttpInit k r f) = (mkHttpInitFd k r f).storedFd k fd := by
  obtain ⟨hplugins, htaken⟩ := stage30Acts_stored k r f fd f.host.handlers
  have hserve := serveFileActs_stored k r f fd
  have hredirect := mkHttpDirectoryRedirect_stored k r f fd
  unfold mkHttpInit mkHttpInitFd
  simp only [storedFd_cons, Act.storesFd]
  split
  · simp [FdWay.storedFd]
  split
  · simp [FdWay.storedFd]
  cases hway : stage30Fd k r f f.host.handlers with
  | some way => simp_all [Act.storesFd]
  | none =>
    simp only [hway, Option.getD_none, FdWay.storedFd, Option.isSome_none] at hplugins htaken
    simp only [storedFd_cons, Act.storesFd, storedFd_append, hplugins, htaken]
    repeat' split
    all_goals simp_all [Act.storesFd, FdWay.storedFd]

theorem prepareHost_stored :
    storedFd fd (prepareHost k r f) = (prepareHostFd k r f).storedFd k fd := by
  have hinit := fun f => mkHttpInit_stored k r f fd
  unfold prepareHost prepareHostFd
  simp only
  repeat' split
  all_goals simp_all [Act.storesFd, FdWay.storedFd]
  all_goals cases pageFd k (errorPageFile k f.host 404) <;> rfl

end Stored

theorem SetsUp.storedFd {acts : List Act} (h : SetsUp acts) (fd : Int) : storedFd fd acts = fd := by
  induction acts with
  | nil => rfl
  | cons a acts ih =>
    obtain ⟨ha, hacts⟩ := setsUp_cons.mp h
    have hstores : a.storesFd fd = fd := by
      cases a <;> simp_all [Act.setsUp, Act.storesFd]
    rw [storedFd_cons, hstores]
    exact ih hacts

theorem mkHttpKeepaliveCheck_stored (k : World) (r : Incoming) (connection : MkPtr) (fd : Int) :
    storedFd fd (mkHttpKeepaliveCheck k r connection) = fd := by
  have hacts : ∀ a ∈ mkHttpKeepaliveCheck k r connection, ∃ b, a = .closeNow b :=
    fun a ha => mem_mkHttpKeepaliveCheck k r ha
  generalize mkHttpKeepaliveCheck k r connection = acts at hacts
  induction acts with
  | nil => rfl
  | cons a acts ih =>
    obtain ⟨b, rfl⟩ := hacts a List.mem_cons_self
    exact ih fun a ha => hacts a (List.mem_cons_of_mem _ ha)

/-- The record of the request ends with the descriptor its way leaves. -/
theorem requestFd_stored (k : World) (r : Incoming) (s : Serving) :
    (runActs k s (mkHttpRequestPrepare k r)).sr.fileStream.fd =
      (requestFd k r).storedFd k s.sr.fileStream.fd := by
  rw [runActs_fd]
  unfold requestFd
  by_cases hearly : RefusedEarly r
  · obtain ⟨setup, hsetup, heq⟩ := mkHttpRequestPrepare_refused k r hearly
    simp [heq, if_pos hearly, hsetup.storedFd, FdWay.storedFd]
  · rw [if_neg hearly, mkHttpRequestPrepare_accepted k r hearly]
    simp only [storedFd_append, (headerSetup_setsUp k r).storedFd, mkHttpKeepaliveCheck_stored,
      (hostSetup_setsUp k r).storedFd]
    unfold answerActs
    cases hostRedirect k r with
    | some target => simp [Act.storesFd, FdWay.storedFd]
    | none => exact prepareHost_stored k r (foundFor k r) _

end SuperExe.Http
