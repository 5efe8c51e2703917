import SuperExe.Lib.Trace
import SuperExe.Plugins.Client

/-! # Reading the output of a CGI program

`process_cgi_data`, `cb_cgi_read` (`plugins/cgi/event.c`) and `cgi_finish`
(`plugins/cgi/cgi.c`). The output is collected in `in_buf` until the header part
is there; a first line that starts with `Status: ` or `HTTP` is taken off it.
After that every read is sent at once.
-/

namespace SuperExe.Cgi

open SuperExe.Core SuperExe.Http SuperExe.Lib SuperExe.Plugins

/-- `BUFLEN` -/
def bufLen : Nat := 4096

/-- `struct cgi_request`, with the status of its request and what it has written
to the client's channel. -/
structure CgiRequest where
  inBuf : Nat → UInt8
  inLen : Nat
  /-- `sr->headers.status` -/
  status : Int
  active : Bool
  statusDone : Bool
  allHeadersDone : Bool
  chunked : Bool
  /-- The pipe is closed and the request is deleted. -/
  finished : Bool
  out : List ClientOut

namespace CgiRequest

/-- `channel_write` -/
def write (r : CgiRequest) (bs : Bytes) : CgiRequest := { r with out := r.out ++ [.copy bs] }

/-- `header_prepare` -/
def headerPrepare (r : CgiRequest) : CgiRequest :=
  { r with out := r.out ++ [.prepare (some r.status) r.chunked] }

/-- The bytes from `outptr` on. -/
def dataAt (r : CgiRequest) (outptr : Nat) : Bytes :=
  window (fun i => r.inBuf (outptr + i)) r.inLen

end CgiRequest

/-- `atoi(buf + pos)` -/
def atoiAt (buf : Nat → UInt8) (pos : Nat) : Int := toInt32 (strtol buf bufLen pos).val

/-- `memchr(buf + 8, '\n', len - 8)` and `endl++`, counted from `buf`. -/
def lineEnd (bs : Bytes) : Option Nat := ((bs.drop 8).findIdx? (· = 10)).map (· + 9)

/-- Where the number of the status line starts: behind `Status: ` or behind
`HTTP/x.y`. -/
def statusNumber (bs : Bytes) : Option Nat :=
  if bs.take 8 = bytes "Status: " then some 8
  else if bs.take 4 = bytes "HTTP" then some 9
  else none

/-- The status line. The second value is `outptr`, and `none` when the function
returns because the line is not complete. -/
def statusPart (r : CgiRequest) : CgiRequest × Option Nat :=
  if r.statusDone = false ∧ 8 ≤ r.inLen then
    match statusNumber (r.dataAt 0) with
    | some pos =>
      let r := { r with status := atoiAt r.inBuf pos }
      match lineEnd (r.dataAt 0) with
      | none => (r, none)
      | some endl =>
        ({ { r with inLen := r.inLen - endl }.headerPrepare with statusDone := true }, some endl)
    | none => ({ r.headerPrepare with statusDone := true }, some 0)
  else (r, some 0)

/-- The body, from `outptr` on. -/
def bodyPart (r : CgiRequest) (outptr : Nat) : CgiRequest :=
  let data := r.dataAt outptr
  let r := if r.chunked then r.write (hexText data.length ++ bytes "\r\n") else r
  let r := { r.write data with inLen := 0 }
  if r.chunked then r.write (bytes "\r\n") else r

/-- The header part, from `outptr` on, and what follows it. -/
def headersPart (r : CgiRequest) (outptr : Nat) : CgiRequest :=
  if r.allHeadersDone = false then
    match getearliestbreak (r.dataAt outptr) with
    | none => r
    | some (pos, advance) =>
      let len := pos + advance
      let r := r.write ((r.dataAt outptr).take len)
      let r := { r with inLen := r.inLen - len, allHeadersDone := true }
      if r.inLen = 0 then r else bodyPart r (outptr + len)
  else bodyPart r outptr

/-- `process_cgi_data` -/
def processCgiData (r : CgiRequest) : CgiRequest :=
  match statusPart r with
  | (r, none) => r
  | (r, some outptr) => headersPart r outptr

/-- `cgi_finish` -/
def cgiFinish (r : CgiRequest) : CgiRequest :=
  let r := { r with finished := true }
  if r.chunked ∧ r.active then r.write (bytes "0\r\n\r\n") else r

/-- What `read` puts into the buffer. -/
def CgiRequest.append (r : CgiRequest) (got : Bytes) : CgiRequest :=
  { r with inBuf := writeAt r.inBuf r.inLen got, inLen := r.inLen + got.length }

/-- `cb_cgi_read`, given what `read` returns. -/
def cbCgiRead (r : CgiRequest) (got : Bytes) : CgiRequest :=
  if r.active = false then r
  else if bufLen - r.inLen < 1 then cgiFinish r
  else if got = [] then cgiFinish r
  else processCgiData (r.append got)

/-! ## The pipe -/

/-- The request and the part of the program's output it has not read yet. -/
structure Pipe where
  request : CgiRequest
  pending : Bytes

/-- What `read` returns when `k` bytes of the output are in the pipe. -/
def Pipe.got (s : Pipe) (k : Nat) : Bytes :=
  (s.pending.take k).take (bufLen - s.request.inLen)

/-- The event loop at a moment when `k` unread bytes are in the pipe. When the
whole output has been read the pipe is at its end, and `read` returns zero. -/
def Pipe.readable (s : Pipe) (k : Nat) : Pipe :=
  if s.request.finished ∨ (s.pending ≠ [] ∧ s.pending.take k = []) then s
  else
    { request := cbCgiRead s.request (s.got k)
      pending := s.pending.drop (s.got k).length }

/-- The runs of the reader. -/
def pipe : Machine Pipe Nat where
  step := Pipe.readable

end SuperExe.Cgi
