import SuperExe.Http.Prepare
import SuperExe.Plugins.Break

/-! # What a plugin sends the client

The CGI and the FastCGI plugin put the same things on the client's channel: the
server's header through `header_prepare`, copied buffers, and the pieces of a
body as chunks.
-/

namespace SuperExe.Plugins

open SuperExe.Core SuperExe.Http SuperExe.Lib

/-- What is put on the client's channel: the server's own header with the status
`header_set_http_status` was given, or a copied buffer. A status that no number
was read into is indeterminate. -/
inductive ClientOut where
  | prepare (status : Option Int) (chunked : Bool)
  | copy (bs : Bytes)
deriving DecidableEq, Repr

/-- The copied bytes of what is on the client's channel. -/
def copied (out : List ClientOut) : Bytes :=
  out.flatMap fun
    | .copy bs => bs
    | .prepare _ _ => []

/-- How often the server's header was prepared. -/
def prepares (out : List ClientOut) : Nat :=
  out.countP fun
    | .copy _ => false
    | .prepare _ _ => true

/-- A piece of a body as a chunk: its size, the piece and CRLF. -/
def bodyOut (data : Bytes) : List ClientOut :=
  if data = [] then []
  else [.copy (hexText data.length ++ bytes "\r\n"), .copy data, .copy (bytes "\r\n")]

theorem copied_append (as bs : List ClientOut) : copied (as ++ bs) = copied as ++ copied bs :=
  List.flatMap_append

theorem prepares_append (as bs : List ClientOut) : prepares (as ++ bs) = prepares as + prepares bs :=
  List.countP_append

theorem copied_bodyOut (data : Bytes) : copied (bodyOut data) = chunk hexText data := by
  unfold bodyOut chunk
  split
  · rfl
  · have hcrlf : bytes "\r\n" = Lib.crlf := rfl
    simp [copied, hcrlf]

theorem prepares_bodyOut (data : Bytes) : prepares (bodyOut data) = 0 := by
  unfold bodyOut
  split <;> rfl

/-- A body in pieces, and the last chunk if the client expects one. -/
def bodyOuts (chunked : Bool) (pieces : List Bytes) : List ClientOut :=
  pieces.flatMap bodyOut ++ if chunked then [.copy lastChunk] else []

theorem copied_bodyOuts (chunked : Bool) (pieces : List Bytes) :
    copied (bodyOuts chunked pieces) =
      chunks hexText pieces ++ if chunked then lastChunk else [] := by
  rw [bodyOuts, copied_append]
  congr 1
  · induction pieces with
    | nil => rfl
    | cons p ps ih =>
      rw [List.flatMap_cons, copied_append, ih, copied_bodyOut]
      rfl
  · cases chunked <;> rfl

theorem prepares_bodyOuts (chunked : Bool) (pieces : List Bytes) :
    prepares (bodyOuts chunked pieces) = 0 := by
  rw [bodyOuts, prepares_append]
  have htail : prepares (if chunked then [.copy lastChunk] else []) = 0 := by
    cases chunked <;> rfl
  rw [htail, Nat.add_zero]
  induction pieces with
  | nil => rfl
  | cons p ps ih => rw [List.flatMap_cons, prepares_append, ih, prepares_bodyOut]

end SuperExe.Plugins
