import SuperExe.FastCgi.Reader

/-! # The records one by one

`process` is what the reader does with the records of a stream one after the
other. `Front` says where the reader stands after a read: it has handled some
of the records (`Reaches`) and waits in front of the rest, or it has stopped
there. `readable_front` is the step: a read leads from front to front, unless
it ends inside the padding of a record that is handled. The reader checks that
the content is there without the padding, and consumes both.
-/

namespace SuperExe.FastCgi

open SuperExe.Core SuperExe.Http SuperExe.Lib SuperExe.Plugins

/-! ## Records one by one -/

/-- `fcgi_response` on the content of a record. -/
def respond (h : Reply) (content : Bytes) : Option Reply :=
  fcgiResponse h (cstr content) content.length

/-- What is left of a run: what the client was sent and, if the backend is still
watched, what stands in the buffer. -/
structure Final where
  reply : Reply
  buffered : Bytes
  closed : Bool
deriving DecidableEq, Repr

/-- Handling one record after the other. A record whose content `fcgi_response`
refuses stays in front of the buffer, and what follows is collected behind it
until the buffer is full; an `END_REQUEST` record stays there too. -/
def process (h : Reply) : List Record → Final
  | [] => { reply := h, buffered := [], closed := false }
  | r :: rs =>
    if r.type = fcgiStdout then
      if r.content = [] then process h rs
      else
        match respond h r.content with
        | some h' => process h' rs
        | none =>
          if (stream (r :: rs)).length ≤ bufSize then
            { reply := h, buffered := stream (r :: rs), closed := false }
          else { reply := h, buffered := [], closed := true }
    else if r.type = fcgiStderr then process h rs
    else if r.type = fcgiEndRequest then
      { reply := (respond h []).getD h, buffered := r.bytes, closed := false }
    else { reply := h, buffered := [], closed := true }

/-- Where a run stands. -/
def Backend.final (s : Backend) : Final where
  reply := s.handler.toReply
  buffered := if s.handler.closed then [] else s.handler.buffered
  closed := s.handler.closed

/-- Everything there was to read has been read. -/
def Backend.Complete (s : Backend) : Prop := s.handler.closed = true ∨ s.pending = []

/-! ## The condition -/

/-- Whether the headers have been sent after a record, and `none` for a record
that is not consumed. -/
def afterRecord (headersSet : Bool) (r : Record) : Option Bool :=
  if r.type = fcgiStdout then
    if r.content = [] ∨ headersSet then some headersSet
    else if (getearliestbreak r.content).isSome then some true else none
  else if r.type = fcgiStderr then some headersSet
  else none

/-- The record is handled when its content is there. -/
def Handled (headersSet : Bool) (r : Record) : Prop :=
  (afterRecord headersSet r).isSome ∨ r.type = fcgiEndRequest

instance (headersSet : Bool) (r : Record) : Decidable (Handled headersSet r) :=
  inferInstanceAs (Decidable (_ ∨ _))

/-- A read that leaves `left` bytes of the stream ends inside the padding of a
record that is handled: its content is there, its padding is not. -/
def CutsPadding : Bool → List Record → Nat → Prop
  | _, [], _ => False
  | headersSet, r :: rs, left =>
    (Handled headersSet r ∧ (stream rs).length < left ∧
      left ≤ (stream rs).length + r.padding.length) ∨
    match afterRecord headersSet r with
    | some headersSet' => CutsPadding headersSet' rs left
    | none => False

instance decCutsPadding : (headersSet : Bool) → (rs : List Record) → (left : Nat) →
    Decidable (CutsPadding headersSet rs left)
  | _, [], _ => .isFalse id
  | headersSet, r :: rs, left =>
    have : Decidable (match afterRecord headersSet r with
        | some headersSet' => CutsPadding headersSet' rs left
        | none => False) :=
      match afterRecord headersSet r with
      | some headersSet' => decCutsPadding headersSet' rs left
      | none => .isFalse id
    inferInstanceAs (Decidable (_ ∨ _))

/-- The number of a `Status:` line ends before the content does. -/
def StatusInside (content : Bytes) : Prop :=
  strncasecmpEq (cstr content) (cstr (bytes "Status: ")) 8 = true →
    strtolStop (cstr content) content.length 8 < content.length

instance (content : Bytes) : Decidable (StatusInside content) :=
  inferInstanceAs (Decidable (_ → _))

/-- Nothing follows an `END_REQUEST` record, and the record with the header says
its status itself. -/
def Orderly : Bool → List Record → Prop
  | _, [] => True
  | headersSet, r :: rs =>
    (r.type = fcgiEndRequest → rs = []) ∧
    (r.type = fcgiStdout → headersSet = false → (getearliestbreak r.content).isSome →
      StatusInside r.content) ∧
    match afterRecord headersSet r with
    | some headersSet' => Orderly headersSet' rs
    | none => True

instance decOrderly : (headersSet : Bool) → (rs : List Record) → Decidable (Orderly headersSet rs)
  | _, [] => .isTrue trivial
  | headersSet, r :: rs =>
    have : Decidable (match afterRecord headersSet r with
        | some headersSet' => Orderly headersSet' rs
        | none => True) :=
      match afterRecord headersSet r with
      | some headersSet' => decOrderly headersSet' rs
      | none => .isTrue trivial
    inferInstanceAs (Decidable (_ ∧ _ ∧ _))

/-- A record that is handled fits the buffer with its padding. -/
def Fits : Bool → List Record → Prop
  | _, [] => True
  | headersSet, r :: rs =>
    (Handled headersSet r → r.bytes.length ≤ bufSize) ∧
    match afterRecord headersSet r with
    | some headersSet' => Fits headersSet' rs
    | none => True

/-- The read at this event, if there is one, does not end inside a padding. -/
def CleanCut (rs : List Record) (s : Backend) (k : Nat) : Prop :=
  s.handler.closed = false → s.got k ≠ [] →
    ¬ CutsPadding false rs (s.pending.length - (s.got k).length)

instance (rs : List Record) (s : Backend) (k : Nat) : Decidable (CleanCut rs s k) :=
  inferInstanceAs (Decidable (_ → _))

/-- The reads when each record arrives by itself. What did not fit the buffer is
reported once more. -/
def recordReads (rs : List Record) : List Nat := rs.map (fun r => r.bytes.length) ++ [1]

/-! ## What a record does -/

section Respond

variable {h : Reply} {content : Bytes} {buf : Nat → UInt8}

/-- A text with a line feed in its first eight bytes is no `Status:` line. -/
theorem not_status_of_lf {i : Nat} (hi : i < 8) (hlf : buf i = 10) :
    strncasecmpEq buf (cstr (bytes "Status: ")) 8 = false := by
  have hbytes : ∀ j < 8, tolower (cstr (bytes "Status: ") j) ≠ 0 ∧
      tolower (cstr (bytes "Status: ") j) ≠ 10 := by decide
  by_contra hst
  rw [Bool.not_eq_false] at hst
  have heq := strncmpEq_get hst (fun j hj => Or.inr (hbytes j hj).1) i hi
  rw [hlf] at heq
  exact (hbytes i hi).2 heq.symm

/-- A text with a break has a line feed in it. -/
theorem exists_lf_of_break (hbreak : (getearliestbreak content).isSome = true) :
    ∃ i < content.length, cstr content i = 10 := by
  obtain ⟨⟨i, adv⟩, hi⟩ := Option.isSome_iff_exists.mp hbreak
  obtain ⟨hb, hle, -⟩ := getearliestbreak_eq_some.mp hi
  have hlen := hb.length_le hle
  have hbyte : ∀ k, (content.drop i)[k]? = content[i + k]? := fun k => List.getElem?_drop
  rcases hb with ⟨rfl, t, ht⟩ | ⟨rfl, t, ht⟩
  · refine ⟨i, by omega, ?_⟩
    have h0 := hbyte 0
    rw [← ht, Nat.add_zero] at h0
    simp [cstr, ← h0, lflf]
  · refine ⟨i + 1, by omega, ?_⟩
    have h1 := hbyte 1
    rw [← ht] at h1
    simp [cstr, ← h1, crlfcrlf]

/-- The status does not depend on what stands behind the content. -/
theorem responseStatus_eq (hbuf : ∀ i < content.length, buf i = cstr content i)
    (hlen : content.length < 65536) (hbreak : (getearliestbreak content).isSome = true)
    (hst : StatusInside content) : responseStatus buf = responseStatus (cstr content) := by
  have hcmp : strncasecmpEq buf (cstr (bytes "Status: ")) 8 =
      strncasecmpEq (cstr content) (cstr (bytes "Status: ")) 8 := by
    by_cases h8 : 8 ≤ content.length
    · refine strncmpEq_congr ?_
      intro i hi
      rw [hbuf i (by omega)]
    · obtain ⟨i, hi, hlf⟩ := exists_lf_of_break hbreak
      rw [not_status_of_lf (by omega) ((hbuf i hi).trans hlf), not_status_of_lf (by omega) hlf]
  unfold responseStatus
  rw [hcmp]
  split
  · next hs =>
    have hstop := hst hs
    have hmax : content.length ≤ bufSize - headerSize := by
      simp only [bufSize, headerSize]
      omega
    have h1 : strtol buf (bufSize - headerSize) 8 = strtol (cstr content) content.length 8 :=
      strtol_congr (fun i hi => (hbuf i hi).symm) hmax hstop
    have h2 : strtol (cstr content) (bufSize - headerSize) 8 =
        strtol (cstr content) content.length 8 := strtol_congr (fun i _ => rfl) hmax hstop
    simp only [sscanfInt, h1, h2]
  · rfl

/-- `fcgi_response` looks at the content only. -/
theorem fcgiResponse_eq_respond (hbuf : ∀ i < content.length, buf i = cstr content i)
    (hlen : content.length < 65536)
    (hst : h.headersSet = false → (getearliestbreak content).isSome = true → StatusInside content) :
    fcgiResponse h buf content.length = respond h content := by
  have hwin : window buf content.length = window (cstr content) content.length :=
    window_congr hbuf
  unfold respond fcgiResponse
  rw [hwin, window_cstr]
  by_cases hset : h.headersSet = true
  · simp [hset]
  · have hset : h.headersSet = false := by simpa using hset
    cases hb : getearliestbreak content with
    | none => simp [hset]
    | some x =>
      have hbreak : (getearliestbreak content).isSome = true := by simp [hb]
      rw [responseStatus_eq hbuf hlen hbreak (hst hset hbreak)]

theorem fcgiResponse_nil : fcgiResponse h buf 0 = respond h [] := by
  have hbuf : ∀ i < ([] : Bytes).length, buf i = cstr [] i := fun i hi => absurd hi (Nat.not_lt_zero i)
  refine fcgiResponse_eq_respond hbuf (by decide) ?_
  intro _ hbreak
  cases hbreak

@[simp] theorem headersSet_fcgiWrite (h : Reply) (bs : Bytes) :
    (h.fcgiWrite bs).headersSet = h.headersSet := by
  unfold Reply.fcgiWrite
  dsimp only
  split <;> rfl

/-- When `fcgi_response` takes a record, and that the headers are set after it. -/
theorem respond_headersSet (h : Reply) (content : Bytes) :
    (respond h content).map Reply.headersSet =
      if h.headersSet = true ∨ (getearliestbreak content).isSome = true then some true else none := by
  unfold respond fcgiResponse
  rw [window_cstr]
  by_cases hset : h.headersSet = true
  · rw [if_pos (Or.inl hset)]
    split
    · simp [Reply.send, hset]
    · dsimp only
      split <;> simp [Reply.send, hset]
  · cases hb : getearliestbreak content with
    | none => simp [hset]
    | some x =>
      simp only [hset, Option.isSome_some, or_true, if_true, and_false, if_false, Bool.false_eq_true]
      split <;> simp [Reply.send]

theorem afterRecord_eq_respond {r : Record} (ht : r.type = fcgiStdout) (hc : r.content ≠ []) :
    afterRecord h.headersSet r = (respond h r.content).map Reply.headersSet := by
  rw [respond_headersSet, afterRecord, if_pos ht]
  by_cases hset : h.headersSet = true
  · simp [hset]
  · simp [hset, hc]

end Respond

/-! ## One turn -/

section Turn

variable {x : Handler} {r : Record} {rs : List Record} {more rest : Bytes}

theorem readTurn_unknown (ht : ¬ Known (x.bufData 1)) : readTurn x = .halt () x.fcgiExit := by
  unfold readTurn
  exact if_pos ht

/-- A header that has not arrived whole, or whose content has not. -/
theorem readTurn_short (ht : Known (x.bufData 1))
    (hlen : x.bufLen < headerSize + (readHeader x.bufData).contentLength) :
    readTurn x = .halt () x := by
  have hk : Known (readHeader x.bufData).type := ht
  unfold readTurn
  dsimp only
  rw [if_neg (not_not.mpr hk), if_pos hlen]

/-- What a turn does with a record whose content has arrived. -/
structure Arrived (x : Handler) (r : Record) (more rest : Bytes) : Prop where
  wf : r.WellFormed
  front : x.buffered ++ more = r.bytes ++ rest
  size : r.size ≤ x.bufLen

namespace Arrived

theorem readHeader (ha : Arrived x r more rest) :
    (readHeader x.bufData).type = r.type ∧ (readHeader x.bufData).contentLength = r.content.length ∧
      headerSize + r.content.length + (readHeader x.bufData).paddingLength.toNat =
        r.bytes.length := by
  have hsize := ha.size
  have hlen : headerSize ≤ x.bufLen := by
    simp only [Record.size] at hsize
    omega
  obtain ⟨h1, h2, h3⟩ := readHeader_of_front ha.wf ha.front hlen
  refine ⟨h1, h2, ?_⟩
  rw [h3, Record.length_bytes, Record.size]

/-- The turn in terms of the record. -/
theorem readTurn_eq (ha : Arrived x r more rest) (hk : Known r.type) :
    readTurn x =
      if r.type = fcgiStdout then
        if r.content.length ≠ 0 then
          match fcgiResponse x.toReply (fun i => x.bufData (headerSize + i)) r.content.length with
          | none => .halt () x
          | some reply => .next (Handler.bufferConsume { x with toReply := reply } r.bytes.length)
        else .next (x.bufferConsume r.bytes.length)
      else if r.type = fcgiStderr then .next (x.bufferConsume r.bytes.length)
      else .halt () { x with toReply := (respond x.toReply []).getD x.toReply } := by
  obtain ⟨h1, h2, h3⟩ := ha.readHeader
  have hsize := ha.size
  simp only [Record.size] at hsize
  unfold readTurn
  dsimp only
  rewrite [h1, h2, h3, if_neg (not_not.mpr hk), if_neg (by omega), fcgiResponse_nil]
  rfl

/-- A record that is dropped. -/
theorem readTurn_dropped (ha : Arrived x r more rest)
    (hd : r.type = fcgiStdout ∧ r.content = [] ∨ r.type = fcgiStderr) :
    readTurn x = .next (x.bufferConsume r.bytes.length) := by
  rcases hd with ⟨ht, hc⟩ | ht
  · rw [ha.readTurn_eq (Or.inl ht), if_pos ht, if_neg (by simp [hc])]
  · rw [ha.readTurn_eq (Or.inr (Or.inl ht)), if_neg (by simp [ht, fcgiStderr, fcgiStdout]), if_pos ht]

theorem readTurn_stdout (ha : Arrived x r more rest) (ht : r.type = fcgiStdout)
    (hc : r.content ≠ [])
    (hst : x.headersSet = false → (getearliestbreak r.content).isSome = true →
      StatusInside r.content) :
    readTurn x =
      match respond x.toReply r.content with
      | none => .halt () x
      | some reply => .next (Handler.bufferConsume { x with toReply := reply } r.bytes.length) := by
  have hne : r.content.length ≠ 0 := by simpa using hc
  rw [ha.readTurn_eq (Or.inl ht), if_pos ht, if_pos hne,
    fcgiResponse_eq_respond (content_of_front ha.front ha.size) ha.wf.2.1 hst]

theorem readTurn_end (ha : Arrived x r more rest) (ht : r.type = fcgiEndRequest) :
    readTurn x = .halt () { x with toReply := (respond x.toReply []).getD x.toReply } := by
  rw [ha.readTurn_eq (Or.inr (Or.inr ht)), if_neg (by simp [ht, fcgiEndRequest, fcgiStdout]),
    if_neg (by simp [ht, fcgiEndRequest, fcgiStderr])]

end Arrived

end Turn

/-! ## Where the reader stands -/

/-- The records from `rs` to `rest` have been handled and consumed, and the client
has got what `h` says. -/
inductive Reaches : Reply → List Record → Reply → List Record → Prop
  | refl (h : Reply) (rs : List Record) : Reaches h rs h rs
  | cons {h h' h'' : Reply} {r : Record} {rs rest : List Record}
      (after : afterRecord h.headersSet r = some h'.headersSet)
      (same : process h (r :: rs) = process h' rs) (fit : r.bytes.length ≤ bufSize)
      (tail : Reaches h' rs h'' rest) : Reaches h (r :: rs) h'' rest

theorem CutsPadding.length_le {hs : Bool} {rs : List Record} {left : Nat}
    (hc : CutsPadding hs rs left) : left ≤ (stream rs).length := by
  induction rs generalizing hs with
  | nil => exact hc.elim
  | cons r rs ih =>
    unfold CutsPadding at hc
    rw [stream_cons, List.length_append, Record.length_bytes]
    rcases hc with ⟨-, -, hle⟩ | hc
    · omega
    · split at hc
      · have := ih hc
        omega
      · exact hc.elim

namespace Reaches

variable {h₀ h h' : Reply} {rs rest rest' : List Record} {r : Record}

theorem trans (hr : Reaches h₀ rs h rest) (hr' : Reaches h rest h' rest') :
    Reaches h₀ rs h' rest' := by
  induction hr with
  | refl h rs => exact hr'
  | cons after same fit _ ih => exact Reaches.cons after same fit (ih hr')

theorem suffix (hr : Reaches h₀ rs h rest) : rest <:+ rs := by
  induction hr with
  | refl h rs => exact List.suffix_rfl
  | cons _ _ _ _ ih => exact ih.trans (List.suffix_cons _ _)

theorem same (hr : Reaches h₀ rs h rest) : process h₀ rs = process h rest := by
  induction hr with
  | refl h rs => rfl
  | cons _ same _ _ ih => exact same.trans ih

theorem cuts (hr : Reaches h₀ rs h rest) {left : Nat} (hc : CutsPadding h.headersSet rest left) :
    CutsPadding h₀.headersSet rs left := by
  induction hr with
  | refl h rs => exact hc
  | cons after _ _ _ ih =>
    unfold CutsPadding
    rw [after]
    exact Or.inr (ih hc)

theorem length_stream_le (hr : Reaches h₀ rs h rest) :
    (stream rest).length ≤ (stream rs).length := by
  induction hr with
  | refl h rs => exact Nat.le_refl _
  | cons _ _ _ _ ih =>
    rw [stream_cons, List.length_append]
    omega

/-- Behind the records that have been consumed, only the rest can be cut. -/
theorem cuts_rest (hr : Reaches h₀ rs h rest) {left : Nat} (hle : left ≤ (stream rest).length)
    (hc : CutsPadding h₀.headersSet rs left) : CutsPadding h.headersSet rest left := by
  induction hr with
  | refl h rs => exact hc
  | cons after _ _ tail ih =>
    unfold CutsPadding at hc
    rw [after] at hc
    have := tail.length_stream_le
    rcases hc with ⟨-, hlt, -⟩ | hc
    · omega
    · exact ih hle hc

theorem orderly (hr : Reaches h₀ rs h rest) (ho : Orderly h₀.headersSet rs) :
    Orderly h.headersSet rest := by
  induction hr with
  | refl h rs => exact ho
  | cons after _ _ _ ih =>
    unfold Orderly at ho
    rw [after] at ho
    exact ih ho.2.2

theorem fits_iff (hr : Reaches h₀ rs h rest) :
    Fits h₀.headersSet rs ↔ Fits h.headersSet rest := by
  induction hr with
  | refl h rs => rfl
  | cons after _ fit _ ih =>
    rw [← ih]
    conv_lhs => unfold Fits
    rw [after]
    exact ⟨fun hf => hf.2, fun hf => ⟨fun _ => fit, hf⟩⟩

/-- The reader does not get past a record it does not consume. -/
theorem stays (hr : Reaches h₀ rs h rest) (hfront : rs = r :: rest')
    (hnone : afterRecord h₀.headersSet r = none) : h = h₀ ∧ rest = rs := by
  cases hr with
  | refl => exact ⟨rfl, rfl⟩
  | cons after _ _ _ =>
    cases hfront
    rw [hnone] at after
    cases after

end Reaches

/-- The reader waits for bytes: what is in its buffer and what it has not read
are the records `rest`. -/
structure Open (h : Reply) (rest : List Record) (s : Backend) : Prop where
  reply : s.handler.toReply = h
  active : s.handler.active = true
  watched : s.handler.closed = false
  room : s.handler.bufLen ≤ bufSize
  front : s.handler.buffered ++ s.pending = stream rest

/-- `fcgi_response` refuses the record in front. -/
structure Refused (h : Reply) (rest : List Record) (r : Record) : Prop where
  front : ∃ rs, rest = r :: rs
  type : r.type = fcgiStdout
  content : r.content ≠ []
  refused : respond h r.content = none

/-- Where the reader stands after a read. -/
inductive Front (h : Reply) (rest : List Record) (s : Backend) : Prop
  | waiting (isOpen : Open h rest s)
      (short : ∀ r rs, rest = r :: rs → s.handler.bufLen < r.size)
  | stuck (isOpen : Open h rest s) (r : Record) (refused : Refused h rest r)
  | ended (r : Record) (last : rest = [r]) (type : r.type = fcgiEndRequest)
      (reply : s.handler.toReply = (respond h []).getD h)
      (buffered : s.handler.buffered = r.bytes) (done : s.pending = [])
      (watched : s.handler.closed = false) (room : r.bytes.length ≤ bufSize)
  | unknown (r : Record) (rs : List Record) (front : rest = r :: rs) (type : ¬ Known r.type)
      (reply : s.handler.toReply = h) (closed : s.handler.closed = true)
  | full (r : Record) (refused : Refused h rest r) (reply : s.handler.toReply = h)
      (closed : s.handler.closed = true) (long : bufSize < (stream rest).length)

section Step

variable {h : Reply} {rest rs : List Record} {r : Record} {x : Handler} {more : Bytes}

theorem Open.length (ho : Open h rest ⟨x, more⟩) :
    x.bufLen + more.length = (stream rest).length := by
  have := congrArg List.length ho.front
  simpa using this

/-- The padding of a record that is handled has arrived with its content. -/
theorem padding_arrived (ho : Open h (r :: rs) ⟨x, more⟩) (hsize : r.size ≤ x.bufLen)
    (hh : Handled h.headersSet r) (hclean : ¬ CutsPadding h.headersSet (r :: rs) more.length) :
    r.bytes.length ≤ x.bufLen := by
  have hlen := ho.length
  rw [stream_cons, List.length_append] at hlen
  by_contra hlt
  apply hclean
  unfold CutsPadding
  refine Or.inl ⟨hh, by omega, ?_⟩
  rw [Record.length_bytes] at hlen
  omega

/-- A whole record is consumed. -/
theorem Open.consume (ho : Open h (r :: rs) ⟨x, more⟩) (hlen : r.bytes.length ≤ x.bufLen)
    (h' : Reply) :
    Open h' rs ⟨Handler.bufferConsume { x with toReply := h' } r.bytes.length, more⟩ := by
  obtain ⟨h1, h2, h3⟩ := bufferConsume_frame { x with toReply := h' } r.bytes.length
  refine ⟨h1, h2.trans ho.active, h3.trans ho.watched, ?_, ?_⟩
  · have := ho.room
    dsimp only at this ⊢
    rw [bufLen_bufferConsume]
    dsimp only
    omega
  · have hfront := ho.front
    dsimp only at hfront ⊢
    rw [buffered_bufferConsume]
    have hd := congrArg (List.drop r.bytes.length) hfront
    rw [stream_cons, List.drop_left, List.drop_append_of_le_length (by simpa using hlen)] at hd
    exact hd

/-- The loop goes on from a handler that stands at a later record. -/
def GoesOn (h : Reply) (rest : List Record) (more : Bytes) (x' : Handler) : Prop :=
  ∃ h' rest', Reaches h rest h' rest' ∧ Open h' rest' ⟨x', more⟩ ∧
    (x'.bufLen < 2 → Known (x'.bufData 1))

/-- A record that is handled is consumed whole, and the loop goes on behind it. -/
theorem goesOn_consume (ho : Open h (r :: rs) ⟨x, more⟩)
    (ha : Arrived x r more (stream rs)) (hk : Known r.type)
    (hclean : ¬ CutsPadding h.headersSet (r :: rs) more.length) {h' : Reply}
    (hafter : afterRecord h.headersSet r = some h'.headersSet)
    (hsame : process h (r :: rs) = process h' rs) :
    GoesOn h (r :: rs) more (Handler.bufferConsume { x with toReply := h' } r.bytes.length) := by
  have hlen := padding_arrived ho ha.size (Or.inl (by simp [hafter])) hclean
  refine ⟨h', rs, Reaches.cons hafter hsame (hlen.trans ho.room) (Reaches.refl h' rs),
    ho.consume hlen h', ?_⟩
  intro hshort
  rw [bufLen_bufferConsume] at hshort
  rw [bufferConsume_stale _ hshort]
  have htype : x.bufData 1 = r.type := ha.readHeader.1
  dsimp only
  rw [htype]
  exact hk

/-- A turn in front of a record whose content has arrived. -/
theorem readTurn_arrived (hord : Orderly h.headersSet (r :: rs))
    (hclean : ¬ CutsPadding h.headersSet (r :: rs) more.length)
    (ho : Open h (r :: rs) ⟨x, more⟩) (ha : Arrived x r more (stream rs)) (hk : Known r.type) :
    (∃ x', readTurn x = .next x' ∧ GoesOn h (r :: rs) more x') ∨
      ∃ x', readTurn x = .halt () x' ∧ Front h (r :: rs) ⟨x', more⟩ := by
  obtain rfl : x.toReply = h := ho.reply
  unfold Orderly at hord
  obtain ⟨hlast, hst, -⟩ := hord
  -- a record that is dropped leaves the reply as it is
  by_cases hd : r.type = fcgiStdout ∧ r.content = [] ∨ r.type = fcgiStderr
  · have hafter : afterRecord x.headersSet r = some x.headersSet := by
      unfold afterRecord
      rcases hd with ⟨ht, hc⟩ | ht
      · simp [ht, hc]
      · simp [ht, fcgiStderr, fcgiStdout]
    have hsame : process x.toReply (r :: rs) = process x.toReply rs := by
      rw [process]
      rcases hd with ⟨ht, hc⟩ | ht
      · rw [if_pos ht, if_pos hc]
      · rw [if_neg (by simp [ht, fcgiStderr, fcgiStdout]), if_pos ht]
    exact Or.inl ⟨_, ha.readTurn_dropped hd, goesOn_consume ho ha hk hclean hafter hsame⟩
  -- output, or the end of the request
  · rcases hk with ht | ht | ht
    · have hc : r.content ≠ [] := fun hc => hd (Or.inl ⟨ht, hc⟩)
      have hturn := ha.readTurn_stdout ht hc (hst ht)
      have hafter := afterRecord_eq_respond (h := x.toReply) ht hc
      cases hresp : respond x.toReply r.content with
      | none =>
        rw [hresp] at hturn
        exact Or.inr ⟨x, hturn, Front.stuck ho r ⟨⟨rs, rfl⟩, ht, hc, hresp⟩⟩
      | some h' =>
        rw [hresp] at hturn hafter
        have hsame : process x.toReply (r :: rs) = process h' rs := by
          rw [process, if_pos ht, if_neg hc, hresp]
        exact Or.inl ⟨_, hturn, goesOn_consume ho ha (Or.inl ht) hclean hafter hsame⟩
    · exact absurd (Or.inr ht) hd
    · -- the record stays in front of the buffer, and it is the last one
      have hlen := padding_arrived ho ha.size (Or.inr ht) hclean
      obtain rfl := hlast ht
      have hsum := ho.length
      rw [stream_cons, stream_nil, List.append_nil] at hsum
      have hmore : more = [] := List.length_eq_zero_iff.mp (by omega)
      have hbuf := ho.front
      dsimp only at hbuf
      rw [hmore, stream_cons, stream_nil, List.append_nil, List.append_nil] at hbuf
      exact Or.inr ⟨_, ha.readTurn_end ht,
        Front.ended r rfl ht rfl hbuf hmore ho.watched (hlen.trans ho.room)⟩

/-- One turn of the loop. -/
theorem readTurn_front (hwf : ∀ r ∈ rest, r.WellFormed) (hord : Orderly h.headersSet rest)
    (hclean : ¬ CutsPadding h.headersSet rest more.length) (ho : Open h rest ⟨x, more⟩)
    (hstale : x.bufLen < 2 → Known (x.bufData 1)) :
    (∃ x', readTurn x = .next x' ∧ GoesOn h rest more x') ∨
      ∃ x', readTurn x = .halt () x' ∧ Front h rest ⟨x', more⟩ := by
  cases rest with
  | nil =>
    have hlen := ho.length
    rw [stream_nil, List.length_nil] at hlen
    refine Or.inr ⟨x, readTurn_short (hstale (by omega)) (by simp only [headerSize]; omega), ?_⟩
    exact Front.waiting ho fun r rs h => absurd h (by simp)
  | cons r rs =>
    have hfront : x.buffered ++ more = r.bytes ++ stream rs := ho.front
    have htype : 2 ≤ x.bufLen → x.bufData 1 = r.type := type_of_front hfront
    by_cases hk : Known (x.bufData 1)
    · by_cases hsize : r.size ≤ x.bufLen
      · have ha : Arrived x r more (stream rs) := ⟨hwf r (by simp), hfront, hsize⟩
        have hkr : Known r.type := by
          rw [← htype (by simp only [Record.size, headerSize] at hsize; omega)]
          exact hk
        exact readTurn_arrived hord hclean ho ha hkr
      · -- the header may be an old one, but then it asks for eight bytes at least
        have hshort : x.bufLen < headerSize + (readHeader x.bufData).contentLength := by
          by_cases h8 : headerSize ≤ x.bufLen
          · rw [(readHeader_of_front (hwf r (by simp)) hfront h8).2.1]
            simp only [Record.size] at hsize
            omega
          · omega
        refine Or.inr ⟨x, readTurn_short hk hshort, Front.waiting ho ?_⟩
        rintro r' rs' heq
        cases heq
        exact Nat.lt_of_not_le hsize
    · have h2 : 2 ≤ x.bufLen := by
        by_contra hlt
        exact hk (hstale (by omega))
      rw [htype h2] at hk
      refine Or.inr ⟨x.fcgiExit, readTurn_unknown (by rwa [htype h2]), ?_⟩
      exact Front.unknown r rs rfl hk ho.reply rfl

/-- The loop ends in front of some record. -/
theorem readLoop_front (hwf : ∀ r ∈ rest, r.WellFormed) (hord : Orderly h.headersSet rest)
    (hclean : ¬ CutsPadding h.headersSet rest more.length) (hgo : GoesOn h rest more x) :
    ∃ h' rest', Reaches h rest h' rest' ∧ Front h' rest' ⟨(readLoop.run x).2, more⟩ := by
  have hturn : ∀ x, GoesOn h rest more x →
      (∃ x', readTurn x = .next x' ∧ GoesOn h rest more x') ∨
        ∃ x' h' rest', readTurn x = .halt () x' ∧ Reaches h rest h' rest' ∧
          Front h' rest' ⟨x', more⟩ := by
    rintro x ⟨h', rest', hr, ho, hstale⟩
    have hcut : ¬ CutsPadding h'.headersSet rest' more.length := fun hc => hclean (hr.cuts hc)
    rcases readTurn_front (fun r hmem => hwf r (hr.suffix.mem hmem)) (hr.orderly hord) hcut ho hstale
      with ⟨x', hb, h'', rest'', hr', ho', hstale'⟩ | ⟨x', hb, hf⟩
    · exact Or.inl ⟨x', hb, h'', rest'', hr.trans hr', ho', hstale'⟩
    · exact Or.inr ⟨x', h', rest', hb, hr, hf⟩
  refine Loop.run_invariant (M := readLoop) (I := GoesOn h rest more)
    (Q := fun _ x' => ∃ h' rest', Reaches h rest h' rest' ∧ Front h' rest' ⟨x', more⟩) ?_ ?_ hgo
  · intro x x' hx hb
    rcases hturn x hx with ⟨y, hy, hgo⟩ | ⟨y, _, _, hy, -⟩
    · cases hy.symm.trans hb
      exact hgo
    · cases hy.symm.trans hb
  · intro x u x' hx hb
    rcases hturn x hx with ⟨y, hy, -⟩ | ⟨y, h', rest', hy, hr, hf⟩
    · cases hy.symm.trans hb
    · cases hy.symm.trans hb
      exact ⟨h', rest', hr, hf⟩

/-! ## One read -/

variable {s : Backend} {k : Nat}

theorem Record.size_le (hwf : r.WellFormed) : r.size ≤ bufSize := by
  have := hwf.2.1
  simp only [Record.size, bufSize, headerSize]
  omega

theorem Backend.length_got_le (s : Backend) (k : Nat) :
    (s.got k).length ≤ s.handler.avail ∧ (s.got k).length ≤ s.pending.length := by
  simp only [Backend.got, List.length_take]
  omega

/-- What is read is taken from the front of what has not been read. -/
theorem Backend.got_append (s : Backend) (k : Nat) :
    s.got k ++ s.pending.drop (s.got k).length = s.pending := by
  have hpre : s.got k <+: s.pending := (List.take_prefix _ _).trans (List.take_prefix _ _)
  obtain ⟨t, ht⟩ := hpre
  have hd := congrArg (List.drop (s.got k).length) ht
  rw [List.drop_left] at hd
  rw [← hd, ht]

/-- A reader that waits reads on. -/
theorem Open.read (ho : Open h rest s) (k : Nat) :
    Open h rest ⟨s.handler.append (s.got k), s.pending.drop (s.got k).length⟩ where
  reply := ho.reply
  active := ho.active
  watched := ho.watched
  room := by
    have h1 := (s.length_got_le k).1
    have h2 := ho.room
    simp only [Handler.append, Handler.avail] at h1 h2 ⊢
    omega
  front := by
    dsimp only
    rw [buffered_append, List.append_assoc, s.got_append, ho.front]

/-- A reader that waits, after one read that returned something. -/
theorem onRead_front (hwf : ∀ r ∈ rest, r.WellFormed) (hord : Orderly h.headersSet rest)
    (hclean : ¬ CutsPadding h.headersSet rest (s.pending.length - (s.got k).length))
    (ho : Open h rest s) (hgot : s.got k ≠ []) :
    ∃ h' rest', Reaches h rest h' rest' ∧
      Front h' rest' ⟨cbFastcgiOnRead s.handler (s.got k), s.pending.drop (s.got k).length⟩ := by
  have hread := ho.read k
  unfold cbFastcgiOnRead
  rw [if_neg (by simp [ho.active]), if_neg hgot]
  dsimp only
  split
  · next hshort =>
    refine ⟨h, rest, Reaches.refl h rest, Front.waiting hread ?_⟩
    intro r rs _
    simp only [Record.size]
    omega
  · next hlen =>
    rw [← List.length_drop] at hclean
    refine readLoop_front hwf hord hclean ⟨h, rest, Reaches.refl h rest, hread, ?_⟩
    intro hlt
    simp only [headerSize] at hlen
    omega

/-- One event. -/
theorem readable_front (hwf : ∀ r ∈ rest, r.WellFormed) (hord : Orderly h.headersSet rest)
    (hclean : s.handler.closed = false → s.got k ≠ [] →
      ¬ CutsPadding h.headersSet rest (s.pending.length - (s.got k).length))
    (hf : Front h rest s) :
    ∃ h' rest', Reaches h rest h' rest' ∧ Front h' rest' (s.readable k) := by
  unfold Backend.readable
  split
  · exact ⟨h, rest, Reaches.refl h rest, hf⟩
  · next hevent =>
    have hbytes : s.pending.take k ≠ [] := fun hnil => hevent (Or.inr hnil)
    have hpend : s.pending ≠ [] := by
      intro hnil
      simp [hnil] at hbytes
    have hroom : 0 < s.handler.avail → s.got k ≠ [] := by
      intro hav hnil
      rcases List.take_eq_nil_iff.mp hnil with hz | hz
      · omega
      · exact hbytes hz
    cases hf with
    | waiting ho hshort =>
      -- a reader that waits is short of a record, and every record fits without its padding
      have hav : 0 < s.handler.avail := by
        cases rest with
        | nil =>
          have := ho.front
          rw [stream_nil, List.append_eq_nil_iff] at this
          exact absurd this.2 hpend
        | cons r rs =>
          have h1 := hshort r rs rfl
          have h2 := Record.size_le (hwf r (by simp))
          simp only [Handler.avail]
          omega
      exact onRead_front hwf hord (hclean ho.watched (hroom hav)) ho (hroom hav)
    | stuck ho r href =>
      by_cases hav : 0 < s.handler.avail
      · exact onRead_front hwf hord (hclean ho.watched (hroom hav)) ho (hroom hav)
      · have hnil : s.got k = [] := by
          simp only [Backend.got, List.take_eq_nil_iff]
          exact Or.inl (by omega)
        have hlen : s.handler.bufLen + s.pending.length = (stream rest).length := ho.length
        have hpos := List.length_pos_iff.mpr hpend
        refine ⟨h, rest, Reaches.refl h rest, Front.full r href ?_ ?_ ?_⟩
        · rw [cbFastcgiOnRead, if_neg (by simp [ho.active]), if_pos hnil]
          exact ho.reply
        · rw [cbFastcgiOnRead, if_neg (by simp [ho.active]), if_pos hnil]
          rfl
        · simp only [Handler.avail] at hav
          omega
    | ended r _ _ _ _ hdone => exact absurd hdone hpend
    | unknown r rs _ _ _ hclosed => exact absurd (Or.inl hclosed) hevent
    | full r _ _ hclosed => exact absurd (Or.inl hclosed) hevent

end Step

end SuperExe.FastCgi
