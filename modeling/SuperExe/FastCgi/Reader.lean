import SuperExe.FastCgi.Record
import SuperExe.Http.Prepare
import SuperExe.Lib.Loop
import SuperExe.Lib.Trace
import SuperExe.Plugins.Client

/-! # Reading the backend's answer

`cb_fastcgi_on_read` and `fcgi_response` (`plugins/fastcgi/fcgi_handler.c`). The
reader collects bytes in a buffer of `FCGI_BUF_SIZE` bytes and handles the
records it finds in front of it; what it sends goes to the client's channel, in
the order of the `mk_stream_set` calls.

The buffer is modelled with the bytes behind `buf_len`: `fcgi_read_header` reads
eight bytes even where fewer have arrived, and `sscanf` does not stop at the end
of the content.
-/

namespace SuperExe.FastCgi

open SuperExe.Core SuperExe.Http SuperExe.Lib SuperExe.Plugins

/-! ## What the client gets -/

/-- The fields of `struct fcgi_handler` that `fcgi_response` reads and writes,
with the request's protocol and the streams it has set. -/
structure Reply where
  /-- `sr->protocol >= MK_HTTP_PROTOCOL_11` -/
  protocol11 : Bool
  chunked : Bool
  headersSet : Bool
  writeRounds : Nat
  out : List ClientOut
deriving DecidableEq, Repr

namespace Reply

def send (h : Reply) (o : ClientOut) : Reply := { h with out := h.out ++ [o] }

/-- `fcgi_write` -/
def fcgiWrite (h : Reply) (buf : Bytes) : Reply :=
  let h := h.send (.copy buf)
  if h.headersSet then h.send (.copy (bytes "\r\n")) else h

end Reply

/-- `sscanf(p + pos, "%d", &n)`; nothing is stored when there is no number. The
string is in a buffer of `len` bytes. -/
def sscanfInt (p : Nat → UInt8) (len pos : Nat) : Option Int :=
  let n := strtol p len pos
  if n.endptr = pos then none else some (toInt32 n.val)

/-- The status `fcgi_response` sets. -/
def responseStatus (buf : Nat → UInt8) : Option Int :=
  if strncasecmpEq buf (cstr (bytes "Status: ")) 8 then sscanfInt buf (bufSize - headerSize) 8
  else some 200

/-- `fcgi_response`; `none` when it returns `-1`, which leaves the handler as it
was. -/
def fcgiResponse (h : Reply) (buf : Nat → UInt8) (len : Nat) : Option Reply :=
  if len = 0 ∧ h.chunked ∧ h.headersSet then some (h.send (.copy (bytes "0\r\n\r\n")))
  else
    let body (h : Reply) (p : Bytes) : Reply :=
      if 0 < p.length then (h.send (.copy (hexText p.length ++ bytes "\r\n"))).fcgiWrite p else h
    if h.headersSet then some (body h (window buf len))
    else
      match getearliestbreak (window buf len) with
      | none => none
      | some (pos, advance) =>
        let h := if h.protocol11 then { h with chunked := true } else h
        let h := h.send (.prepare (responseStatus buf) h.protocol11)
        let diff := pos + advance
        let h := h.fcgiWrite ((window buf len).take diff)
        let h := { h with writeRounds := h.writeRounds + 1, headersSet := true }
        some (body h ((window buf len).drop diff))

/-! ## The reader -/

/-- The handler while it waits for the answer. -/
structure Handler extends Reply where
  active : Bool
  /-- `server_fd` is closed and no longer watched. -/
  closed : Bool
  bufLen : Nat
  bufData : Nat → UInt8

namespace Handler

/-- The reader's side of `fcgi_exit`: the backend's event is deleted and its
socket closed. -/
def fcgiExit (h : Handler) : Handler := { h with closed := true }

/-- `fcgi_buffer_consume` -/
def bufferConsume (h : Handler) (bytes : Nat) : Handler :=
  if h.bufLen ≤ bytes then { h with bufLen := 0 }
  else
    { h with
      bufData := fun i => if i < h.bufLen - bytes then h.bufData (bytes + i) else h.bufData i
      bufLen := h.bufLen - bytes }

/-- `buf_data` up to `buf_len`. -/
def buffered (h : Handler) : Bytes := window h.bufData h.bufLen

/-- What `read` puts into the buffer. -/
def append (h : Handler) (got : Bytes) : Handler :=
  { h with bufData := writeAt h.bufData h.bufLen got, bufLen := h.bufLen + got.length }

/-- The rest of the buffer, `avail`. -/
def avail (h : Handler) : Nat := bufSize - h.bufLen

end Handler

/-- The types the reader knows. -/
def Known (type : UInt8) : Prop := type = fcgiStdout ∨ type = fcgiStderr ∨ type = fcgiEndRequest

instance (type : UInt8) : Decidable (Known type) := inferInstanceAs (Decidable (_ ∨ _))

/-- One turn of the reader's loop. `END_REQUEST` falls through to the `default`
case and is not consumed; nor is a record `fcgi_response` has refused. -/
def readTurn (h : Handler) : Outcome Handler Unit :=
  let header := readHeader h.bufData
  let body := fun i => h.bufData (headerSize + i)
  let offset := headerSize + header.contentLength + header.paddingLength.toNat
  if ¬ Known header.type then .halt () h.fcgiExit
  else if h.bufLen < headerSize + header.contentLength then .halt () h
  else if header.type = fcgiStdout then
    if header.contentLength ≠ 0 then
      match fcgiResponse h.toReply body header.contentLength with
      | none => .halt () h
      | some reply => .next (Handler.bufferConsume { h with toReply := reply } offset)
    else .next (h.bufferConsume offset)
  else if header.type = fcgiStderr then .next (h.bufferConsume offset)
  else .halt () { h with toReply := (fcgiResponse h.toReply body 0).getD h.toReply }

theorem bufLen_bufferConsume (h : Handler) (n : Nat) :
    (h.bufferConsume n).bufLen = h.bufLen - n := by
  unfold Handler.bufferConsume
  split
  · dsimp only
    omega
  · rfl

/-- A turn that goes on consumes at least a header. -/
theorem readTurn_falls {h h' : Handler} (hb : readTurn h = .next h') : h'.bufLen < h.bufLen := by
  have hfall : ∀ (r : Reply) (k m : Nat), ¬ h.bufLen < headerSize + k →
      (Handler.bufferConsume { h with toReply := r } (headerSize + k + m)).bufLen < h.bufLen := by
    intro r k m hlen
    rw [bufLen_bufferConsume]
    simp only [headerSize] at hlen ⊢
    omega
  unfold readTurn at hb
  dsimp only at hb
  split at hb
  · cases hb
  · split at hb
    · cases hb
    · next hlen =>
      split at hb
      · split at hb
        · split at hb
          · cases hb
          · cases hb
            exact hfall _ _ _ hlen
        · cases hb
          exact hfall h.toReply _ _ hlen
      · split at hb
        · cases hb
          exact hfall h.toReply _ _ hlen
        · cases hb

/-- `while (1)` -/
def readLoop : Loop Handler Unit where
  body := readTurn
  rank := Handler.bufLen
  falls := readTurn_falls

/-- `cb_fastcgi_on_read`, given what `read` has returned. -/
def cbFastcgiOnRead (h : Handler) (got : Bytes) : Handler :=
  if h.active = false then h.fcgiExit
  else if got = [] then h.fcgiExit
  else
    let h := h.append got
    if h.bufLen < headerSize then h else (readLoop.run h).2

/-! ## The backend's socket -/

/-- The handler and the part of the backend's stream it has not read yet. -/
structure Backend where
  handler : Handler
  pending : Bytes

/-- What `read` returns when `k` bytes of the stream have arrived. -/
def Backend.got (s : Backend) (k : Nat) : Bytes := (s.pending.take k).take s.handler.avail

/-- The event loop at a moment when `k` unread bytes of the stream have arrived.
A socket that is closed or has nothing to read is not reported. -/
def Backend.readable (s : Backend) (k : Nat) : Backend :=
  if s.handler.closed ∨ s.pending.take k = [] then s
  else
    { handler := cbFastcgiOnRead s.handler (s.got k)
      pending := s.pending.drop (s.got k).length }

/-- The runs of the reader: at each event some number of bytes has arrived. -/
def backend : Machine Backend Nat where
  step := Backend.readable

/-! ## The buffer -/

section Buffer

variable {h : Handler} {more : Bytes}

@[simp] theorem length_buffered (h : Handler) : h.buffered.length = h.bufLen := length_window _ _

theorem buffered_append (h : Handler) (got : Bytes) :
    (h.append got).buffered = h.buffered ++ got :=
  window_writeAt h.bufData h.bufLen got

theorem buffered_bufferConsume (h : Handler) (n : Nat) :
    (h.bufferConsume n).buffered = h.buffered.drop n := by
  refine window_eq (by simp [bufLen_bufferConsume]) ?_
  intro i hi
  rw [bufLen_bufferConsume] at hi
  unfold Handler.bufferConsume
  rw [if_neg (by omega), List.getElem?_drop, Handler.buffered, getElem?_window _ (by omega)]
  simp [hi]

/-- Consuming touches the buffer only. -/
theorem bufferConsume_frame (h : Handler) (n : Nat) :
    (h.bufferConsume n).toReply = h.toReply ∧ (h.bufferConsume n).active = h.active ∧
      (h.bufferConsume n).closed = h.closed := by
  unfold Handler.bufferConsume
  split <;> exact ⟨rfl, rfl, rfl⟩

/-- The second byte of a header is the old one as long as less than two bytes
are left. -/
theorem bufferConsume_stale (h : Handler) {n : Nat} (hn : h.bufLen - n < 2) :
    (h.bufferConsume n).bufData 1 = h.bufData 1 := by
  unfold Handler.bufferConsume
  split
  · rfl
  · dsimp only
    rw [if_neg (by omega)]

/-- Memory that starts a stream holds its bytes. -/
theorem bufData_of_stream {bs : Bytes} (hs : h.buffered ++ more = bs) {i : Nat} (hi : i < h.bufLen) :
    bs[i]? = some (h.bufData i) := by
  rw [← hs, List.getElem?_append_left (by simpa using hi), Handler.buffered, getElem?_window _ hi]

end Buffer

/-! ## Records in front of the buffer -/

section Front

variable {h : Handler} {r : Record} {more rest : Bytes}

theorem Record.getElem?_bytes_header {i : Nat} (hi : i < headerSize) :
    (r.bytes ++ rest)[i]? = r.header[i]? := by
  simp only [headerSize] at hi
  rw [Record.bytes, List.append_assoc, List.append_assoc, List.getElem?_append_left (by simpa using hi)]

/-- The type of a record whose first two bytes have arrived. -/
theorem type_of_front (hs : h.buffered ++ more = r.bytes ++ rest) (hlen : 2 ≤ h.bufLen) :
    h.bufData 1 = r.type := by
  have h1 := bufData_of_stream hs (show 1 < h.bufLen by omega)
  rw [Record.getElem?_bytes_header (by decide)] at h1
  exact (Option.some.inj h1).symm

/-- The header of a record whose first eight bytes have arrived. -/
theorem readHeader_of_front (hwf : r.WellFormed) (hs : h.buffered ++ more = r.bytes ++ rest)
    (hlen : headerSize ≤ h.bufLen) :
    (readHeader h.bufData).type = r.type ∧
      (readHeader h.bufData).contentLength = r.content.length ∧
      (readHeader h.bufData).paddingLength.toNat = r.padding.length := by
  obtain ⟨-, hc, hp⟩ := hwf
  have hbyte : ∀ i < headerSize, r.header[i]? = some (h.bufData i) := by
    intro i hi
    rw [← Record.getElem?_bytes_header hi]
    exact bufData_of_stream hs (by omega)
  have h4 : UInt8.ofNat (r.content.length / 256) = h.bufData 4 :=
    Option.some.inj (hbyte 4 (by decide))
  have h5 : UInt8.ofNat r.content.length = h.bufData 5 := Option.some.inj (hbyte 5 (by decide))
  have h6 : UInt8.ofNat r.padding.length = h.bufData 6 := Option.some.inj (hbyte 6 (by decide))
  refine ⟨type_of_front hs (by simp only [headerSize] at hlen; omega), ?_, ?_⟩
  · simp only [readHeader, ← h4, ← h5]
    exact encode16_value hc
  · simp only [readHeader, ← h6, UInt8.toNat_ofNat']
    omega

/-- The content of a record that has arrived up to its padding. -/
theorem content_of_front (hs : h.buffered ++ more = r.bytes ++ rest) (hlen : r.size ≤ h.bufLen) :
    ∀ i < r.content.length, h.bufData (headerSize + i) = cstr r.content i := by
  intro i hi
  have hpos : headerSize + i < h.bufLen := by
    simp only [Record.size] at hlen
    omega
  have hi' := bufData_of_stream hs hpos
  have hcontent : (r.bytes ++ rest)[headerSize + i]? = r.content[i]? := by
    rw [Record.bytes, List.append_assoc, List.append_assoc,
      List.getElem?_append_right (by simp [headerSize]), List.getElem?_append_left (by simpa [headerSize] using hi)]
    simp [headerSize]
  rw [hcontent] at hi'
  simp [cstr, hi']

end Front

end SuperExe.FastCgi
