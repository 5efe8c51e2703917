import SuperExe.Http.Header
import SuperExe.Http.Parser
import SuperExe.Vhost.Open

/-! # Answering a request

Model of `mk_http_request_prepare` and of what it calls in `mk_server/mk_http.c`:
the checks of the request, the look-up of the virtual host and of the file, the
error and redirect pages, ranges and the static file.

Each function reads the parsed request and the outside world (`World`) and gives
the list of what it does, one `Act` for each assignment or call of the source
and in its order. `runActs` carries such a list out on the request record of the
connection, which is reused in place from request to request.
-/

namespace SuperExe.Http

open SuperExe.Core SuperExe.Vhost

/-! ## The outside world -/

/-- `struct file_info` -/
structure FileInfo where
  present : Bool
  isFile : Bool
  isLink : Bool
  isDirectory : Bool
  execAccess : Bool
  readAccess : Bool
  size : Int
  lastModification : Int
deriving DecidableEq, Repr

/-- What `lstat(2)` and `stat(2)` say about a path: no such file (or no access
to it), a symbolic link whose target is missing, or a file. -/
inductive FileStat where
  | missing (denied : Bool)
  | dangling
  | found (info : FileInfo)
deriving DecidableEq, Repr

/-- What `mk_file_get_info` leaves in `f_info`. -/
def mkFileGetInfo (info : FileInfo) : FileStat → FileInfo
  | .missing denied => { info with present := denied }
  | .dangling =>
    { info with present := true, isFile := false, isLink := true, isDirectory := false,
                execAccess := false, readAccess := false }
  | .found info' => info'

/-- `struct mk_host_handler`: a compiled pattern and a plugin. -/
structure Handler where
  regexec : Bytes → Bool
  plugin : Nat

/-- `struct host` -/
structure Host where
  documentroot : Bytes
  serverNames : List Bytes
  headerRedirect : Option Bytes
  errorPages : List (Int × Bytes)
  handlers : List Handler

/-- What the plugins of the server do when their `stage30` is called, up to and
including the headers they send later. -/
inductive PluginAnswer where
  /-- `MK_PLUGIN_RET_NOT_ME` -/
  | notMe
  /-- `auth`: credentials are required; the header to add -/
  | auth (row : Bytes)
  /-- `mandril`: the URL is blocked -/
  | mandril
  /-- `cgi` cannot start the script -/
  | cgiFailed (status : Int)
  /-- `cgi` runs a script; its MIME type parameter and the status it prints -/
  | cgi (mimetype : Option Bytes) (status : Option Int)
  /-- `fastcgi`: the status of the backend -/
  | fastcgi (status : Int)
  /-- `dirlisting` and `ElastosSuperExe`: a page in the default MIME type -/
  | listing (mime : Bytes)
  /-- `opendir(3)` failed -/
  | listingFailed
deriving DecidableEq, Repr

/-- Configuration, file system, user database, clock and plugins, as one request
finds them. -/
structure World where
  defaultHost : Host
  hosts : List Host
  keepAlive : Bool
  maxKeepAliveRequest : Int
  userDir : Option Bytes
  resume : Bool
  symlink : Bool
  indexFiles : Option (List Bytes)
  standardPort : Int
  serverSignature : Bytes
  ssl : Bool
  mimetypeFind : Bytes → Option Bytes
  mimetypeDefault : Bytes
  fileStat : Bytes → FileStat
  access : Bytes → Bool
  readlink : Bytes → Bool
  openFile : Bytes → Int
  vhostOpen : Bytes → Int
  gmt2utime : Bytes → Int
  getpwnam : Bytes → Option Bytes
  stage20Close : Bool
  stage30 : Nat → PluginAnswer
  utime2gmt : Int → Bytes
  shared : Shared

/-! ## The request record -/

/-- The part of `file_stream` that the request set-up writes. -/
structure FileStream where
  fd : Int
  bytesTotal : Int
  bytesOffset : Int
  preserve : Bool
deriving DecidableEq, Repr

/-- `struct mk_http_request` -/
structure HttpRequest extends ParsedRequest where
  status : Bool
  userHome : Bool
  port : Int
  uriProcessed : Option Bytes
  contentLengthP : MkPtr
  contentType : Bytes
  connection : MkPtr
  host : MkPtr
  ifModifiedSince : MkPtr
  range : MkPtr
  realPath : Option Bytes
  stage30Blocked : Bool
  stage30Handler : Option Nat
  fileInfo : FileInfo
  fileStream : FileStream
  hostConf : Option Host
  hostAlias : Option Bytes
  headers : ResponseHeaders

/-- `mk_http_request_init` -/
def mkHttpRequestInit (k : World) (request : HttpRequest) : HttpRequest :=
  { request with
    port := 0
    status := true
    uri := { request.uri with data := none }
    method := .unknown
    protocol := .unknown
    connection := { request.connection with len := -1 }
    fileInfo := { request.fileInfo with size := -1 }
    fileStream := { fd := 0, bytesTotal := -1, bytesOffset := 0, preserve := false }
    host := { request.host with data := none }
    stage30Blocked := false
    hostConf := some k.defaultHost
    uriProcessed := none
    realPath := none
    headers := mkHeaderResponseReset request.headers }

/-! ## What the code does -/

/-- One assignment to a field of the request or of its response headers, or one
call. -/
inductive Act where
  -- struct mk_http_request
  | uriProcessed (bs : Bytes)
  | hostConf (h : Host)
  | hostAlias (name : Option Bytes)
  | userHome (b : Bool)
  | host (p : MkPtr)
  | connection (p : MkPtr)
  | range (p : MkPtr)
  | ifModifiedSince (p : MkPtr)
  | contentLengthP (p : MkPtr)
  | contentLengthPNull
  | port (n : Int)
  | realPath (path : Bytes)
  | contentTypeP (mime : Bytes)
  | fileInfo (stat : FileStat)
  | fileStream (s : FileStream)
  | stage30Handler (plugin : Nat)
  -- struct mk_http_session
  | closeNow (b : Bool)
  -- struct response_headers
  | status (n : Int)
  | contentLength (n : Int)
  | realLength (n : Int)
  | location (l : Option Bytes)
  | cgi (n : Int)
  | breakline (n : Int)
  | pconnectionsLeft (n : Int)
  | lastModified (n : Int)
  | contentType (bs : Bytes)
  | transferEncoding (n : Int)
  | ranges (first last : Int)
  | etag (bs : Bytes)
  | allowMethodsReset
  | headerAdd (row : Bytes)
  -- calls
  | headerPrepare
  | iovAddPage (page : Bytes)
  | queueFile
  | channelWrite
  /-- undefined behaviour that ends the process -/
  | crash

/-- What leaves the request set-up: header blocks (`none` is the `mk_bug` of an
unlisted status), pages, the file and the calls of `mk_channel_write`. -/
inductive Out where
  | block (b : Option Bytes)
  | page (bs : Bytes)
  | file (s : FileStream)
  | write
  | crash

/-- The record in use, `cs->close_now` and what has been sent off. -/
structure Serving where
  sr : HttpRequest
  closeNow : Bool
  out : List Out

/-- What `mk_header_prepare` reads besides the response headers. -/
def prepareEnv (k : World) (s : Serving) : PrepareEnv where
  utime2gmt := k.utime2gmt
  resume := k.resume
  closeNow := s.closeNow
  connectionLen := s.sr.connection.len
  protocol := s.sr.protocol

/-- Assign to the request record. -/
def Serving.setSr (s : Serving) (sr : HttpRequest) : Serving := { s with sr := sr }

/-- Assign to the response headers. -/
def Serving.setHeaders (s : Serving) (sh : ResponseHeaders) : Serving :=
  { s with sr := { s.sr with headers := sh } }

def Serving.emit (s : Serving) (o : Out) : Serving := { s with out := s.out ++ [o] }

def runAct (k : World) (s : Serving) (a : Act) : Serving :=
  let sr := s.sr
  let sh := s.sr.headers
  match a with
  | .uriProcessed bs => s.setSr { sr with uriProcessed := some bs }
  | .hostConf h => s.setSr { sr with hostConf := some h }
  | .hostAlias name => s.setSr { sr with hostAlias := name }
  | .userHome b => s.setSr { sr with userHome := b }
  | .host p => s.setSr { sr with host := p }
  | .connection p => s.setSr { sr with connection := p }
  | .range p => s.setSr { sr with range := p }
  | .ifModifiedSince p => s.setSr { sr with ifModifiedSince := p }
  | .contentLengthP p => s.setSr { sr with contentLengthP := p }
  | .contentLengthPNull =>
    s.setSr { sr with contentLengthP := { sr.contentLengthP with data := none } }
  | .port n => s.setSr { sr with port := n }
  | .realPath path => s.setSr { sr with realPath := some path }
  | .contentTypeP mime => s.setSr { sr with contentType := mime }
  | .fileInfo stat => s.setSr { sr with fileInfo := mkFileGetInfo sr.fileInfo stat }
  | .fileStream fs => s.setSr { sr with fileStream := fs }
  | .stage30Handler plugin => s.setSr { sr with stage30Handler := some plugin }
  | .closeNow b => { s with closeNow := b }
  | .status n => s.setHeaders { sh with status := n }
  | .contentLength n => s.setHeaders { sh with contentLength := n }
  | .realLength n => s.setHeaders { sh with realLength := n }
  | .location l => s.setHeaders { sh with location := l }
  | .cgi n => s.setHeaders { sh with cgi := n }
  | .breakline n => s.setHeaders { sh with breakline := n }
  | .pconnectionsLeft n => s.setHeaders { sh with pconnectionsLeft := n }
  | .lastModified n => s.setHeaders { sh with lastModified := n }
  | .contentType bs => s.setHeaders { sh with contentType := bs }
  | .transferEncoding n => s.setHeaders { sh with transferEncoding := n }
  | .ranges first last => s.setHeaders { sh with ranges := (first, last) }
  | .etag bs => s.setHeaders { sh with etag := bs }
  | .allowMethodsReset => s.setHeaders { sh with allowMethods := [] }
  | .headerAdd row => s.setHeaders (mkPluginHeaderAdd sh row)
  | .headerPrepare =>
    (s.emit (.block (headerBlock (prepareEnv k s) k.shared sh))).setHeaders { sh with sent := true }
  | .iovAddPage page => s.emit (.page page)
  | .queueFile => s.emit (.file sr.fileStream)
  | .channelWrite => s.emit .write
  | .crash => s.emit .crash

/-- Carry out a list of acts. -/
def runActs (k : World) (s : Serving) (acts : List Act) : Serving := acts.foldl (runAct k) s

/-! ## Errors -/

/-- `MK_REQUEST_DEFAULT_PAGE` -/
def requestDefaultPage (title message signature : Bytes) : Bytes :=
  bytes "<HTML><HEAD><STYLE type=\"text/css\"> body \x7bfont-size: 12px;\x7d </STYLE></HEAD><BODY><H1>" ++
    title ++ bytes "</H1>" ++ message ++ bytes "<BR><HR><ADDRESS>Powered by " ++ signature ++
    bytes "</ADDRESS></BODY></HTML>"

/-- The page `mk_http_error` generates for a status; `uri` is the text of
`sr->uri`. -/
def errorPage (signature uri : Bytes) (status : Int) : Option Bytes :=
  if status = 403 then some (requestDefaultPage (bytes "Forbidden") (cString uri) signature)
  else if status = 404 then
    some (requestDefaultPage (bytes "Not Found")
      (bytes "The requested URL was not found on this server.") signature)
  else if status = 413 then
    some (requestDefaultPage (bytes "Entity too large")
      (bytes "The request entity is too large.") signature)
  else if status = 405 then
    some (requestDefaultPage (bytes "Method Not Allowed") (cString uri) signature)
  else if status = 501 then
    some (requestDefaultPage (bytes "Method Not Implemented") (cString uri) signature)
  else if status = 500 then
    some (requestDefaultPage (bytes "Internal Server Error") (cString uri) signature)
  else none

/-- The customized error page: the first entry for the status, if its file can be
opened. -/
def customErrorPage (k : World) (host : Host) (status : Int) : Option (Int × FileInfo) :=
  if status ≠ clientLengthRequired ∧ status ≠ clientBadRequest ∧
      status ≠ clientRequestEntityTooLarge then
    (host.errorPages.find? fun entry => entry.1 = status).bind fun entry =>
      match k.fileStat entry.2 with
      | .found info => if k.openFile entry.2 = -1 then none else some (k.openFile entry.2, info)
      | _ => none
  else none

/-- `mk_http_error` -/
def mkHttpError (k : World) (host : Host) (method : Method) (uri : Bytes) (status : Int) :
    List Act :=
  .status status ::
  match customErrorPage k host status with
  | some (fd, info) =>
    [.contentLength info.size, .realLength info.size, .headerPrepare,
      .fileStream { fd := fd, bytesTotal := info.size, bytesOffset := 0, preserve := false },
      .queueFile]
  | none =>
    let page := errorPage k.serverSignature uri status
    [.contentLength (match page with
        | some page =>
          if page.length > 0 ∧ method ≠ .head ∧ method ≠ .unknown then page.length else 0
        | none => 0),
      .location none, .cgi shNocgi, .pconnectionsLeft 0, .lastModified (-1),
      .contentType (if page.isNone then [] else bytes "Content-Type: text/html\r\n"),
      .headerPrepare] ++
    (match page with
      | some page => if method ≠ .head then [.iovAddPage page] else []
      | none => []) ++
    [.channelWrite]

end SuperExe.Http
