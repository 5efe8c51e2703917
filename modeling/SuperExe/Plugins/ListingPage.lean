import SuperExe.Plugins.TemplateParse

/-! # What the listing sends

A queue of streams is seen as the bytes it still has to send, with the callbacks
that come when they are sent. Exactly one callback at a time carries the page on,
so the bytes sent, the bytes queued and the bytes that callback will queue are
always the whole page. An empty piece ends this: no byte of it is ever sent, the
write fails and its callback is not called.
-/

namespace SuperExe.Plugins.Dirhtml

open SuperExe.Core SuperExe.Http SuperExe.Lib SuperExe.Stream

/-! ## Composed pieces -/

/-- A template with its tags replaced. -/
def composed (template : List Template) (list : List Value) : Bytes :=
  template.flatMap fun tpl => (tpl.parts list).flatten

section Compose

theorem textMemory_read (t : Bytes) : textMemory.read t 0 t.length = t := by
  apply List.ext_getElem
  · simp
  · intro i _ hi
    simp [Memory.read, textMemory, hi]

theorem addTexts_bytes (texts : List Bytes) {iov : MkIov Bytes} (hok : iov.Ok) :
    (texts.foldl addText iov).Ok ∧
      (texts.foldl addText iov).bytes textMemory = iov.bytes textMemory ++ texts.flatten := by
  induction texts generalizing iov with
  | nil => exact ⟨hok, by simp⟩
  | cons t texts ih =>
    have hadd : (addText iov t).bytes textMemory = iov.bytes textMemory ++ t := by
      simp only [addText, mkIovAdd, MkIov.bytes, entriesBytes, List.flatMap_append,
        List.flatMap_singleton, IoVec.bytes, textMemory_read]
    rcases ih (hok.add t 0 t.length) with ⟨hok', hbytes⟩
    refine ⟨hok', ?_⟩
    rw [List.foldl_cons, List.flatten_cons, ← List.append_assoc, ← hadd]
    exact hbytes

theorem themeCompose_bytes (template : List Template) (list : List Value) :
    (themeCompose template list).Ok ∧
      (themeCompose template list).bytes textMemory = composed template list := by
  have hfold : ∀ (template : List Template) {iov : MkIov Bytes}, iov.Ok →
      (template.foldl (fun iov tpl => (tpl.parts list).foldl addText iov) iov).Ok ∧
        (template.foldl (fun iov tpl => (tpl.parts list).foldl addText iov) iov).bytes textMemory =
          iov.bytes textMemory ++ composed template list := by
    intro template
    induction template with
    | nil => exact fun hok => ⟨hok, by simp [composed]⟩
    | cons tpl template ih =>
      intro iov hok
      rcases addTexts_bytes (tpl.parts list) hok with ⟨hok', hbytes⟩
      rcases ih hok' with ⟨hok'', hbytes'⟩
      refine ⟨hok'', ?_⟩
      rw [List.foldl_cons, hbytes', hbytes, composed, composed, List.flatMap_cons,
        List.append_assoc]
  have hinit : (mkIovInit ([] : Bytes) (1 + template.length * 2) 1).bytes textMemory = [] := rfl
  rcases hfold template (mkIovInit_ok [] (1 + template.length * 2) 1) with ⟨hok, hbytes⟩
  rw [hinit, List.nil_append] at hbytes
  exact ⟨hok, hbytes⟩

end Compose

namespace Listing

variable (L : Listing)

def header : Bytes := composed L.tplHeader L.globalValues

def row (e : FList) : Bytes := composed L.tplEntry (entryValues e)

def footer : Bytes := composed L.tplFooter L.globalValues

/-- The header, the rows and the footer. -/
def pieces : List Bytes := L.header :: (L.toc.map L.row ++ [L.footer])

/-- The page as it is composed. -/
def page : Bytes := L.pieces.flatten

end Listing

/-- A piece as it is sent. -/
def framed (chunked : Bool) (piece trailer : Bytes) : Bytes :=
  if chunked then hexText (piece.length % 2 ^ 32) ++ bytes "\r\n" ++ piece ++ trailer else piece

/-- What is sent after the header and `i` rows. -/
def Listing.after (L : Listing) (chunked : Bool) (i : Nat) : Bytes :=
  ((L.toc.drop i).flatMap fun e => framed chunked (L.row e) (bytes "\r\n")) ++
    framed chunked L.footer (bytes "\r\n0\r\n\r\n")

def Listing.sent (L : Listing) (chunked : Bool) : Bytes :=
  framed chunked L.header (bytes "\r\n") ++ L.after chunked 0

/-! ## Queues -/

/-- What a stream has left to send, and its callback. -/
structure Item where
  bytes : Bytes
  callback : Callback

structure Carries (stream : MkStream Bytes) (item : Item) : Prop where
  pending : stream.pending textMemory noFiles = item.bytes
  ok : item.bytes ≠ [] → StreamOk stream
  empty : item.bytes = [] → stream.type = .iov
  called : item.callback ≠ .none → stream.cbFinished = true

/-- The channel of a page holds these items. -/
structure Queue (s : Page) (items : List Item) : Prop where
  socket : s.channel.type = mkChannelSocket
  streams : List.Forall₂ Carries s.channel.streams items
  callbacks : s.callbacks = items.map Item.callback

section Queues

variable {s : Page} {items : List Item}

theorem Queue.setCopy (h : Queue s items) {text : Bytes} (htext : text ≠ []) (cb : Callback) :
    Queue (s.setCopy text cb) (items ++ [⟨text, cb⟩]) where
  socket := h.socket
  streams := by
    refine List.rel_append h.streams (.cons ?_ .nil)
    have hlength : 0 < text.length := List.length_pos_iff.mpr htext
    constructor
    · simp [MkStream.pending, textMemory_read]
    · intro _
      exact ⟨rfl, hlength, by simp⟩
    · exact fun h => absurd h htext
    · exact fun h => decide_eq_true h
  callbacks := by
    rw [List.map_append, ← h.callbacks]
    rfl

theorem Queue.setIov (h : Queue s items) {iov : MkIov Bytes} (hok : iov.Ok) (cb : Callback) :
    Queue (s.setIov iov cb) (items ++ [⟨iov.bytes textMemory, cb⟩]) where
  socket := h.socket
  streams := by
    refine List.rel_append h.streams (.cons ?_ .nil)
    have htotal := hok.total
    constructor
    · rfl
    · intro hne
      refine ⟨rfl, ?_, ⟨htotal.symm, htotal.ge⟩⟩
      have hlength := List.length_pos_iff.mpr hne
      rw [MkIov.bytes_length, ← htotal] at hlength
      exact hlength
    · exact fun _ => rfl
    · exact fun h => decide_eq_true h
  callbacks := by
    rw [List.map_append, ← h.callbacks]
    rfl

/-- What is queued for a piece. In a chunk the callback `atEnd` comes with the
trailer, `atPiece` with the piece itself. -/
def pieceItems (chunked : Bool) (piece trailer : Bytes) (atPiece atEnd : Callback) : List Item :=
  if chunked then
    [⟨hexText (piece.length % 2 ^ 32) ++ bytes "\r\n", .none⟩, ⟨piece, atPiece⟩, ⟨trailer, atEnd⟩]
  else [⟨piece, if atPiece = .none then atEnd else atPiece⟩]

theorem pieceItems_bytes (chunked : Bool) (piece trailer : Bytes) (atPiece atEnd : Callback) :
    (pieceItems chunked piece trailer atPiece atEnd).flatMap Item.bytes =
      framed chunked piece trailer := by
  cases chunked <;> simp [pieceItems, framed]

/-- The three streams of a chunk, or the one of a piece. -/
theorem Queue.setPiece (h : Queue s items) {iov : MkIov Bytes} (hok : iov.Ok) {trailer : Bytes}
    (htrailer : trailer ≠ []) (atPiece atEnd : Callback) :
    Queue
      (if s.chunked then
        ((s.setCopy (chunkHead iov) .none).setIov iov atPiece).setCopy trailer atEnd
      else s.setIov iov (if atPiece = .none then atEnd else atPiece))
      (items ++ pieceItems s.chunked (iov.bytes textMemory) trailer atPiece atEnd) := by
  have hhead : chunkHead iov =
      hexText ((iov.bytes textMemory).length % 2 ^ 32) ++ bytes "\r\n" := by
    rw [chunkHead, MkIov.bytes_length, hok.total]
  cases hc : s.chunked with
  | false => exact h.setIov hok _
  | true =>
    have hne : chunkHead iov ≠ [] := by
      rw [chunkHead]
      exact List.append_ne_nil_of_right_ne_nil _ (by decide)
    have hqueue := ((h.setCopy hne .none).setIov hok atPiece).setCopy htrailer atEnd
    rw [List.append_assoc, List.append_assoc, hhead] at hqueue
    rw [if_pos rfl, hhead]
    exact hqueue

variable (L : Listing)

/-- The items that the callback of the rows queues. -/
def nextItems (chunked : Bool) (i : Nat) : List Item :=
  match L.toc[i]? with
  | none => pieceItems chunked L.footer (bytes "\r\n0\r\n\r\n") .none .complete
  | some e => pieceItems chunked (L.row e) (bytes "\r\n") .none .bodyRows

/-- `mk_dirhtml_cb_body_rows` -/
theorem Queue.cbBodyRows (h : Queue s items) :
    Queue (cbBodyRows L s) (items ++ nextItems L s.chunked s.tocIdx) := by
  unfold Dirhtml.cbBodyRows nextItems
  cases he : L.toc[s.tocIdx]? with
  | none =>
    rcases themeCompose_bytes L.tplFooter L.globalValues with ⟨hok, hbytes⟩
    have hpiece := h.setPiece hok (by decide : bytes "\r\n0\r\n\r\n" ≠ []) .none .complete
    rw [hbytes] at hpiece
    exact hpiece
  | some e =>
    rcases themeCompose_bytes L.tplEntry (Listing.entryValues e) with ⟨hok, hbytes⟩
    have hpiece := h.setPiece hok (by decide : bytes "\r\n" ≠ []) .none .bodyRows
    rw [hbytes] at hpiece
    exact ⟨hpiece.socket, hpiece.streams, hpiece.callbacks⟩

/-- The callbacks that carry the page on. -/
def Callback.continues : Callback → Bool
  | headerFinish => true
  | bodyRows => true
  | _ => false

/-- What the callbacks of these items will queue. -/
def future (chunked : Bool) (i : Nat) (items : List Item) : Bytes :=
  if items.any (·.callback.continues) then L.after chunked i else []

/-- The pieces after the header and `i` rows. -/
def Listing.piecesAfter (i : Nat) : List Bytes := (L.toc.drop i).map L.row ++ [L.footer]

/-- How many of the pieces that the callbacks of these items will queue are empty. -/
def emptyFuture (i : Nat) (items : List Item) : Nat :=
  if items.any (·.callback.continues) then (L.piecesAfter i).countP (· = []) else 0

/-- The bytes sent, queued and still to be queued are the page, and every empty
piece is in the queue or still to come. -/
structure Inv (before : Bytes) (s : Page) (items : List Item) : Prop where
  queue : Queue s items
  once : items.countP (·.callback.continues) ≤ 1
  content : s.wire ++ items.flatMap Item.bytes ++ future L s.chunked s.tocIdx items =
    before ++ L.sent s.chunked
  empties : items.countP (·.bytes = []) + emptyFuture L s.tocIdx items = L.pieces.countP (· = [])

end Queues

/-! ## One write -/

/-- The network takes a part of what it is asked to send, at least one byte of it
if there is one, or says `EAGAIN`. -/
def PageAnswer (s : Page) (ans : NetAnswer) : Prop :=
  match s.channel.streams with
  | [] => True
  | stream :: _ =>
    match ans with
    | .sent k => k ≤ (stream.pending textMemory noFiles).length ∧
        (stream.pending textMemory noFiles ≠ [] → 0 < k)
    | .again => True
    | .failed => False

def isSent : NetAnswer → Bool
  | .sent _ => true
  | _ => false

/-- A page that differs in its channel only. -/
structure SamePage (s s' : Page) (wire : Bytes) : Prop where
  chunked : s'.chunked = s.chunked
  tocIdx : s'.tocIdx = s.tocIdx
  error : s'.error = s.error
  wire : s'.wire = s.wire ++ wire

section Write

variable {L : Listing} {s : Page} {item : Item} {items : List Item} {ans : NetAnswer}

/-- A write that sends nothing. -/
theorem write_same (hchannel : (mkChannelWrite textMemory noFiles s.channel ans).channel = s.channel)
    (hwire : (mkChannelWrite textMemory noFiles s.channel ans).wire = [])
    (hnotices : (mkChannelWrite textMemory noFiles s.channel ans).notices = [])
    (hret : (mkChannelWrite textMemory noFiles s.channel ans).ret ≠ .error) :
    s.write L ans = s := by
  simp [Page.write, hchannel, hwire, hnotices, hret]

theorem Queue.write_nil (h : Queue s []) : s.write L ans = s := by
  have hnil : s.channel.streams = [] := List.forall₂_nil_right_iff.mp h.streams
  refine write_same ?_ ?_ ?_ ?_ <;> simp [mkChannelWrite, hnil]

/-- The first stream of a queue. -/
theorem Queue.head (h : Queue s (item :: items)) :
    ∃ stream rest, s.channel.streams = stream :: rest ∧ Carries stream item ∧
      List.Forall₂ Carries rest items := by
  have hstreams := h.streams
  cases hs : s.channel.streams with
  | nil =>
    rw [hs] at hstreams
    cases hstreams
  | cons stream rest =>
    rw [hs] at hstreams
    cases hstreams with
    | cons hcarries hrest => exact ⟨stream, rest, rfl, hcarries, hrest⟩

theorem Queue.answer (h : Queue s (item :: items)) (hans : PageAnswer s ans) :
    ans = .again ∨ ∃ k, ans = .sent k ∧ k ≤ item.bytes.length ∧ (item.bytes ≠ [] → 0 < k) := by
  rcases h.head with ⟨stream, rest, hstreams, hcarries, -⟩
  simp only [PageAnswer, hstreams, hcarries.pending] at hans
  cases ans with
  | failed => exact hans.elim
  | again => exact .inl rfl
  | sent k => exact .inr ⟨k, rfl, hans⟩

theorem Queue.write_again (h : Queue s (item :: items)) : s.write L .again = s := by
  rcases h.head with ⟨stream, rest, hstreams, hcarries, -⟩
  have htype : stream.type = .file ∨ stream.type = .iov ∨ stream.type = .copybuf := by
    by_cases hempty : item.bytes = []
    · exact .inr (.inl (hcarries.empty hempty))
    · rcases (hcarries.ok hempty).kinds with htype | ⟨_, htype, -⟩ | ⟨_, htype, -⟩
      · exact .inl htype
      · exact .inr (.inl htype)
      · exact .inr (.inr htype)
  have hwrite : mkChannelWrite textMemory noFiles s.channel .again =
      { channel := s.channel, ret := .busy, count := none, wire := [], notices := [] } := by
    rcases htype with htype | htype | htype <;> simp [mkChannelWrite, hstreams, h.socket, htype]
  refine write_same ?_ ?_ ?_ ?_ <;> rw [hwrite]
  intro hno
  cases hno

/-- A write to an empty stream fails. -/
theorem Queue.write_empty (h : Queue s (item :: items)) (hempty : item.bytes = []) :
    (s.write L (.sent 0)).error = true := by
  rcases h.head with ⟨stream, rest, hstreams, hcarries, -⟩
  simp [Page.write, mkChannelWrite, hstreams, h.socket, hcarries.empty hempty]

/-- A part of the first stream is sent, or all of it. -/
theorem Queue.write_sent (h : Queue s (item :: items)) (hne : item.bytes ≠ []) {k : Nat}
    (hpos : 0 < k) (hk : k ≤ item.bytes.length) :
    (k < item.bytes.length ∧
      ∃ s', s.write L (.sent k) = s' ∧ SamePage s s' (item.bytes.take k) ∧
        Queue s' (⟨item.bytes.drop k, item.callback⟩ :: items)) ∨
    (∃ s', s.write L (.sent k) = item.callback.call L s' ∧ SamePage s s' item.bytes ∧
        Queue s' items) := by
  rcases h.head with ⟨stream, rest, hstreams, hcarries, hrest⟩
  have hok := hcarries.ok hne
  have htotal := hok.pending_length textMemory noFiles
  rw [hcarries.pending] at htotal
  rcases Nat.exists_eq_succ_of_ne_zero hpos.ne' with ⟨j, rfl⟩
  rcases mkChannelWrite_cons textMemory noFiles hok h.socket hstreams j with ⟨hwrite, -⟩
  have hcallbacks := h.callbacks
  rw [List.map_cons] at hcallbacks
  have hret : (channelWritten textMemory noFiles s.channel stream rest (j + 1)).ret ≠ .error := by
    unfold channelWritten
    dsimp only
    split <;> split <;> decide
  rcases Nat.lt_or_eq_of_le hk with hlt | heq
  · left
    have hlt' : j + 1 < stream.bytesTotal := by omega
    rcases channelWritten_part textMemory noFiles s.channel rest hlt' with
      ⟨hchannel, hwire, hfinished⟩
    rcases hok.written textMemory noFiles hlt' with ⟨hok', hpending⟩
    have hpage : s.write L (.sent (j + 1)) =
        { s with
          channel := { s.channel with streams := stream.written (j + 1) :: rest }
          wire := s.wire ++ item.bytes.take (j + 1) } := by
      simp [Page.write, hwrite, hchannel, hwire, hfinished, hret, hstreams, hcarries.pending]
    refine ⟨hlt, _, hpage, ⟨rfl, rfl, rfl, rfl⟩, h.socket, ?_, hcallbacks⟩
    refine .cons ⟨?_, fun _ => hok', ?_, ?_⟩ hrest
    · rw [hpending, hcarries.pending]
    · intro hdrop
      have := congrArg List.length hdrop
      rw [List.length_drop, List.length_nil] at this
      omega
    · intro hcb
      rw [MkStream.written, mkStreamBytesConsumed, consumeSource_cbFinished]
      exact hcarries.called hcb
  · right
    rcases channelWritten_last textMemory noFiles s.channel rest hok with
      ⟨hchannel, hwire, hfinished⟩
    rw [← htotal, ← heq] at hchannel hwire hfinished
    refine ⟨{ s with
        channel := { s.channel with streams := rest }
        callbacks := items.map Item.callback
        wire := s.wire ++ item.bytes }, ?_, ⟨rfl, rfl, rfl, rfl⟩, h.socket, hrest, rfl⟩
    cases hcb : stream.cbFinished with
    | true =>
      simp [Page.write, hwrite, hchannel, hwire, hfinished, hret, hstreams, hcarries.pending,
        hcallbacks, hcb]
    | false =>
      -- without a callback there is nothing to call
      have hnone : item.callback = .none := by
        by_contra hcb'
        rw [hcarries.called hcb'] at hcb
        cases hcb
      simp [Page.write, hwrite, hchannel, hwire, hfinished, hret, hstreams, hcarries.pending,
        hcallbacks, hcb, hnone, Callback.call]

end Write

/-! ## The invariant -/

section Invariant

variable {L : Listing} {s s' : Page} {before : Bytes} {item : Item} {items : List Item}

/-- The table after a callback of the rows. -/
def nextIdx (L : Listing) (i : Nat) : Nat := if i < L.toc.length then i + 1 else i

theorem cbBodyRows_fields (L : Listing) (s : Page) :
    (cbBodyRows L s).wire = s.wire ∧ (cbBodyRows L s).error = s.error ∧
      (cbBodyRows L s).chunked = s.chunked ∧ (cbBodyRows L s).tocIdx = nextIdx L s.tocIdx := by
  unfold cbBodyRows nextIdx
  cases he : L.toc[s.tocIdx]? with
  | none =>
    have hlt : ¬ s.tocIdx < L.toc.length := not_lt.mpr (List.getElem?_eq_none_iff.mp he)
    rw [if_neg hlt]
    dsimp only
    split <;> exact ⟨rfl, rfl, rfl, rfl⟩
  | some e =>
    have hlt : s.tocIdx < L.toc.length := (List.getElem?_eq_some_iff.mp he).1
    rw [if_pos hlt]
    dsimp only
    split <;> exact ⟨rfl, rfl, rfl, rfl⟩

theorem pieceItems_any (chunked : Bool) (piece trailer : Bytes) (atPiece atEnd : Callback)
    (h : atPiece = .none ∨ atEnd = .none) :
    (pieceItems chunked piece trailer atPiece atEnd).countP (·.callback.continues) =
      if atPiece.continues ∨ atEnd.continues then 1 else 0 := by
  rcases h with rfl | rfl <;> cases chunked
  · cases atEnd <;> rfl
  · cases atEnd <;> rfl
  · cases atPiece <;> rfl
  · cases atPiece <;> rfl

theorem pieceItems_empties (chunked : Bool) (piece : Bytes) {trailer : Bytes}
    (htrailer : trailer ≠ []) (atPiece atEnd : Callback) :
    (pieceItems chunked piece trailer atPiece atEnd).countP (·.bytes = []) =
      if piece = [] then 1 else 0 := by
  have hcrlf : bytes "\r\n" ≠ [] := by decide
  cases chunked
  · simp [pieceItems, List.countP_cons]
  · simp [pieceItems, List.countP_cons, htrailer, hcrlf]

theorem any_eq_countP (items : List Item) :
    items.any (·.callback.continues) = decide (0 < items.countP (·.callback.continues)) := by
  rw [Bool.eq_iff_iff, decide_eq_true_iff, List.countP_pos_iff, List.any_eq_true]

theorem future_of_countP {n : Nat} (chunked : Bool) (i : Nat)
    (h : items.countP (·.callback.continues) = n) :
    future L chunked i items = (if 0 < n then L.after chunked i else []) ∧
      emptyFuture L i items = if 0 < n then (L.piecesAfter i).countP (· = []) else 0 := by
  rw [future, emptyFuture, any_eq_countP, h]
  simp only [decide_eq_true_eq, and_self]

/-- What a callback of the rows queues, and what comes after it. -/
theorem nextItems_spec (L : Listing) (chunked : Bool) (i : Nat) :
    (nextItems L chunked i).countP (·.callback.continues) ≤ 1 ∧
      L.after chunked i = (nextItems L chunked i).flatMap Item.bytes ++
        future L chunked (nextIdx L i) (nextItems L chunked i) ∧
      (L.piecesAfter i).countP (· = []) = (nextItems L chunked i).countP (·.bytes = []) +
        emptyFuture L (nextIdx L i) (nextItems L chunked i) := by
  cases he : L.toc[i]? with
  | none =>
    have hdrop : L.toc.drop i = [] := List.drop_eq_nil_iff.mpr (List.getElem?_eq_none_iff.mp he)
    have hitems : nextItems L chunked i =
        pieceItems chunked L.footer (bytes "\r\n0\r\n\r\n") .none .complete := by
      rw [nextItems, he]
    have hcount := pieceItems_any chunked L.footer (bytes "\r\n0\r\n\r\n") .none .complete
      (.inl rfl)
    rw [← hitems] at hcount
    rcases future_of_countP (L := L) chunked (nextIdx L i) hcount with ⟨hfuture, hempty⟩
    rw [hcount, hfuture, hempty, hitems, pieceItems_bytes, pieceItems_empties _ _ (by decide)]
    refine ⟨by decide, ?_, ?_⟩
    · simp [Listing.after, hdrop, Callback.continues]
    · simp [Listing.piecesAfter, hdrop, Callback.continues, List.countP_cons]
  | some e =>
    rcases List.getElem?_eq_some_iff.mp he with ⟨hlt, hget⟩
    have hdrop : L.toc.drop i = e :: L.toc.drop (i + 1) := by
      rw [List.drop_eq_getElem_cons hlt, hget]
    have hnext : nextIdx L i = i + 1 := if_pos hlt
    have hitems : nextItems L chunked i =
        pieceItems chunked (L.row e) (bytes "\r\n") .none .bodyRows := by
      rw [nextItems, he]
    have hcount := pieceItems_any chunked (L.row e) (bytes "\r\n") .none .bodyRows (.inl rfl)
    rw [← hitems] at hcount
    rcases future_of_countP (L := L) chunked (nextIdx L i) hcount with ⟨hfuture, hempty⟩
    rw [hcount, hfuture, hempty, hitems, pieceItems_bytes, pieceItems_empties _ _ (by decide),
      hnext]
    refine ⟨by decide, ?_, ?_⟩
    · simp [Listing.after, hdrop, Callback.continues]
    · simp [Listing.piecesAfter, hdrop, Callback.continues, List.countP_cons]
      omega

/-- A stream is sent, and its callback called. -/
theorem Inv.call (h : Inv L before s (item :: items)) (hne : item.bytes ≠ [])
    (hsame : SamePage s s' item.bytes) (hqueue : Queue s' items) :
    ∃ items', Inv L before (item.callback.call L s') items' ∧
      (item.callback.call L s').error = s.error ∧
      (item.callback.call L s').wire = s.wire ++ item.bytes := by
  have honce := h.once
  have hcontent := h.content
  have hempties := h.empties
  rw [List.countP_cons] at honce
  rw [List.flatMap_cons] at hcontent
  rw [List.countP_cons, if_neg (by simpa using hne)] at hempties
  by_cases hcont : item.callback.continues = true
  · -- the only callback that carries the page on
    rw [if_pos hcont] at honce
    have hnone : items.countP (·.callback.continues) = 0 := by omega
    have hone : (item :: items).countP (·.callback.continues) = 1 := by
      rw [List.countP_cons, if_pos hcont, hnone]
    have hcall : item.callback.call L s' = cbBodyRows L s' := by
      cases hcb : item.callback <;> rw [hcb] at hcont <;> cases hcont <;> rfl
    rcases cbBodyRows_fields L s' with ⟨hwire, herror, hchunked, htocIdx⟩
    rcases nextItems_spec L s.chunked s.tocIdx with ⟨hle, hafter, hcountAfter⟩
    rcases future_of_countP (L := L) s.chunked s.tocIdx hone with ⟨hfuture, hemptyFuture⟩
    have hcount : (items ++ nextItems L s.chunked s.tocIdx).countP (·.callback.continues) =
        (nextItems L s.chunked s.tocIdx).countP (·.callback.continues) := by
      rw [List.countP_append, hnone, Nat.zero_add]
    have hfuture' := future_of_countP (L := L) s.chunked (nextIdx L s.tocIdx) hcount
    have hfuture'' := future_of_countP (L := L) s.chunked (nextIdx L s.tocIdx)
      (rfl : (nextItems L s.chunked s.tocIdx).countP (·.callback.continues) = _)
    have hqueue' := hqueue.cbBodyRows L
    rw [hsame.chunked, hsame.tocIdx] at hqueue'
    refine ⟨items ++ nextItems L s.chunked s.tocIdx, ?_, ?_, ?_⟩
    · rw [hcall]
      refine ⟨hqueue', ?_, ?_, ?_⟩
      · rw [hcount]
        exact hle
      · rw [hwire, hchunked, htocIdx, hsame.wire, hsame.chunked, hsame.tocIdx, hfuture'.1,
          ← hfuture''.1, List.flatMap_append, ← hcontent, hfuture, if_pos Nat.one_pos, hafter]
        simp only [List.append_assoc]
      · rw [htocIdx, hsame.tocIdx, hfuture'.2, ← hfuture''.2, List.countP_append, ← hempties,
          hemptyFuture, if_pos Nat.one_pos, hcountAfter]
        omega
    · rw [hcall, herror, hsame.error]
    · rw [hcall, hwire, hsame.wire]
  · rw [if_neg hcont, Nat.add_zero] at honce
    -- a callback that queues nothing: what is still to come is as before
    have hsameCount : (item :: items).countP (·.callback.continues) =
        items.countP (·.callback.continues) := by
      rw [List.countP_cons, if_neg hcont, Nat.add_zero]
    have hold := future_of_countP (L := L) s.chunked s.tocIdx hsameCount
    have hnew := future_of_countP (L := L) s.chunked s.tocIdx
      (rfl : items.countP (·.callback.continues) = _)
    have hinv : Inv L before s' items := by
      refine ⟨hqueue, honce, ?_, ?_⟩
      · rw [hsame.wire, hsame.chunked, hsame.tocIdx, hnew.1, ← hold.1, ← hcontent]
        simp only [List.append_assoc]
      · rw [hsame.tocIdx, hnew.2, ← hold.2, ← hempties, Nat.add_zero]
    have hcall : item.callback.call L s' = s' ∨
        item.callback.call L s' = { s' with released := true } := by
      cases hcb : item.callback with
      | none => exact .inl rfl
      | complete => exact .inr rfl
      | headerFinish =>
        rw [hcb] at hcont
        exact absurd rfl hcont
      | bodyRows =>
        rw [hcb] at hcont
        exact absurd rfl hcont
    refine ⟨items, ?_⟩
    rcases hcall with hcall | hcall
    · rw [hcall]
      exact ⟨hinv, hsame.error, hsame.wire⟩
    · rw [hcall]
      exact ⟨⟨⟨hqueue.socket, hqueue.streams, hqueue.callbacks⟩, hinv.once, hinv.content,
        hinv.empties⟩, hsame.error, hsame.wire⟩

/-- A part of a stream is sent. -/
theorem Inv.part (h : Inv L before s (item :: items)) {k : Nat} (hk : k < item.bytes.length)
    (hsame : SamePage s s' (item.bytes.take k))
    (hqueue : Queue s' (⟨item.bytes.drop k, item.callback⟩ :: items)) :
    Inv L before s' (⟨item.bytes.drop k, item.callback⟩ :: items) := by
  have hne : item.bytes ≠ [] := by
    rintro heq
    rw [heq] at hk
    cases hk
  have hdrop : item.bytes.drop k ≠ [] := by
    intro hnil
    have := List.drop_eq_nil_iff.mp hnil
    omega
  have hcontent := h.content
  have hempties := h.empties
  refine ⟨hqueue, h.once, ?_, ?_⟩
  · rw [hsame.wire, hsame.chunked, hsame.tocIdx, ← hcontent, List.flatMap_cons, List.flatMap_cons]
    have hsplit := List.take_append_drop k item.bytes
    simp only [List.append_assoc]
    rw [← List.append_assoc (item.bytes.take k), hsplit]
    rfl
  · rw [hsame.tocIdx, ← hempties, List.countP_cons, List.countP_cons, if_neg (by simpa using hdrop),
      if_neg (by simpa using hne)]
    rfl

/-- One write. Unless it fails, it keeps the invariant, and sends something if the
network takes something. -/
theorem Inv.write (h : Inv L before s items) {ans : NetAnswer} (hans : PageAnswer s ans)
    (herror : (s.write L ans).error = false) :
    ∃ items', Inv L before (s.write L ans) items' ∧ (s.write L ans).error = s.error ∧
      s.wire.length ≤ (s.write L ans).wire.length ∧
      (isSent ans = true → items ≠ [] → s.wire.length < (s.write L ans).wire.length) := by
  cases items with
  | nil =>
    rw [h.queue.write_nil]
    exact ⟨[], h, rfl, le_rfl, fun _ hne => absurd rfl hne⟩
  | cons item items =>
    rcases h.queue.answer hans with rfl | ⟨k, rfl, hk, hpos⟩
    · rw [h.queue.write_again]
      exact ⟨_, h, rfl, le_rfl, nofun⟩
    · by_cases hempty : item.bytes = []
      · rw [hempty] at hk
        rw [Nat.le_zero.mp hk, h.queue.write_empty hempty] at herror
        cases herror
      · have hpos := hpos hempty
        rcases h.queue.write_sent (L := L) hempty hpos hk with
          ⟨hlt, s', hwrite, hsame, hqueue⟩ | ⟨s', hwrite, hsame, hqueue⟩
        · have hlength : s'.wire.length = s.wire.length + k := by
            rw [hsame.wire, List.length_append, List.length_take, min_eq_left hk]
          rw [hwrite]
          exact ⟨_, h.part hlt hsame hqueue, hsame.error, by omega, fun _ _ => by omega⟩
        · rcases h.call hempty hsame hqueue with ⟨items', hinv, herr, hwire⟩
          have hlength : (item.callback.call L s').wire.length =
              s.wire.length + item.bytes.length := by
            rw [hwire, List.length_append]
          rw [hwrite]
          exact ⟨items', hinv, herr, by omega, fun _ _ => by omega⟩

/-- No write fails as long as no piece is empty. -/
theorem Inv.write_ok (h : Inv L before s items) (hpieces : L.pieces.countP (· = []) = 0)
    (herror : s.error = false) {ans : NetAnswer} (hans : PageAnswer s ans) :
    (s.write L ans).error = false := by
  cases items with
  | nil =>
    rw [h.queue.write_nil]
    exact herror
  | cons item items =>
    have hne : item.bytes ≠ [] := by
      intro hempty
      have hempties := h.empties
      rw [hpieces, List.countP_cons, if_pos (decide_eq_true hempty)] at hempties
      omega
    rcases h.queue.answer hans with rfl | ⟨k, rfl, hk, hpos⟩
    · rw [h.queue.write_again]
      exact herror
    · rcases h.queue.write_sent (L := L) hne (hpos hne) hk with
        ⟨-, s', hwrite, hsame, -⟩ | ⟨s', hwrite, hsame, hqueue⟩
      · rw [hwrite, hsame.error]
        exact herror
      · rcases h.call hne hsame hqueue with ⟨-, -, herr, -⟩
        rw [hwrite, herr]
        exact herror

/-- The streams of the HTTP header. -/
def headerItems (specs : List (StreamSpec Bytes)) : List Item :=
  specs.map fun spec => ⟨spec.bytes textMemory noFiles, .none⟩

def headerBytes (specs : List (StreamSpec Bytes)) : Bytes :=
  specs.flatMap (StreamSpec.bytes textMemory noFiles)

variable (specs : List (StreamSpec Bytes))

theorem spec_bytes_ne_nil (spec : StreamSpec Bytes) : spec.bytes textMemory noFiles ≠ [] := by
  rcases spec.stream_ok textMemory noFiles with ⟨hok, hpending, -⟩
  have hlength := hok.pending_length textMemory noFiles
  have hpos := hok.pos
  intro hempty
  rw [hpending, hempty, List.length_nil] at hlength
  omega

theorem queue_new (chunked : Bool) : Queue (Page.new chunked specs) (headerItems specs) := by
  refine ⟨?_, ?_, ?_⟩
  · rw [Page.new, queued_eq]
  · rw [Page.new, queued_eq, headerItems, List.forall₂_map_left_iff, List.forall₂_map_right_iff,
      List.forall₂_same]
    intro spec _
    rcases spec.stream_ok textMemory noFiles with ⟨hok, hpending, -⟩
    exact ⟨hpending, fun _ => hok, fun h => absurd h (spec_bytes_ne_nil spec), fun h => absurd rfl h⟩
  · rw [headerItems, List.map_map]
    rfl

theorem headerItems_spec :
    (headerItems specs).flatMap Item.bytes = headerBytes specs ∧
      (headerItems specs).countP (·.callback.continues) = 0 ∧
      (headerItems specs).countP (·.bytes = []) = 0 := by
  refine ⟨?_, ?_, ?_⟩
  · rw [headerItems, List.flatMap_map]
    rfl
  · rw [List.countP_eq_zero]
    intro item hitem
    rcases List.mem_map.mp hitem with ⟨spec, -, rfl⟩
    exact Bool.false_ne_true
  · rw [List.countP_eq_zero]
    intro item hitem
    rcases List.mem_map.mp hitem with ⟨spec, -, rfl⟩
    simpa using spec_bytes_ne_nil spec

theorem inv_init (L : Listing) (chunked : Bool) :
    ∃ items, Inv L (headerBytes specs) (dirhtmlInit L chunked specs) items ∧
      (dirhtmlInit L chunked specs).error = false ∧
      (dirhtmlInit L chunked specs).wire = [] ∧
      (dirhtmlInit L chunked specs).chunked = chunked := by
  rcases themeCompose_bytes L.tplHeader L.globalValues with ⟨hok, hbytes⟩
  rcases headerItems_spec specs with ⟨hflat, hcount₀, hempties₀⟩
  have hqueue := (queue_new specs chunked).setPiece hok (by decide : bytes "\r\n" ≠ [])
    .headerFinish .none
  rw [hbytes] at hqueue
  have hfields : (dirhtmlInit L chunked specs).error = false ∧
      (dirhtmlInit L chunked specs).wire = [] ∧
      (dirhtmlInit L chunked specs).chunked = chunked ∧
      (dirhtmlInit L chunked specs).tocIdx = 0 := by
    cases chunked <;> exact ⟨rfl, rfl, rfl, rfl⟩
  rcases hfields with ⟨herror, hwire, hchunked, htocIdx⟩
  have hcount : (headerItems specs ++
      pieceItems chunked L.header (bytes "\r\n") .headerFinish .none).countP
        (·.callback.continues) = 1 := by
    rw [List.countP_append, hcount₀, pieceItems_any _ _ _ _ _ (.inr rfl)]
    rfl
  rcases future_of_countP (L := L) chunked 0 hcount with ⟨hfuture, hemptyFuture⟩
  refine ⟨_, ⟨hqueue, hcount.le, ?_, ?_⟩, herror, hwire, hchunked⟩
  · rw [hwire, hchunked, htocIdx, List.nil_append, List.flatMap_append, hflat]
    refine Eq.trans (congrArg _ hfuture) ?_
    rw [if_pos Nat.one_pos, Listing.sent, List.append_assoc]
    congr 2
    exact pieceItems_bytes _ _ _ _ _
  · rw [htocIdx, List.countP_append, hempties₀]
    refine Eq.trans (congrArg _ hemptyFuture) ?_
    rw [if_pos Nat.one_pos, Nat.zero_add]
    refine Eq.trans (congrArg (· + _) (pieceItems_empties _ _ (by decide) _ _)) ?_
    rw [Listing.pieces, List.countP_cons, Listing.piecesAfter, List.drop_zero, Nat.add_comm]
    simp only [decide_eq_true_eq]
    rfl

end Invariant

/-! ## Runs -/

section Runs

variable {L : Listing} {s : Page} {before : Bytes} {items : List Item} {answers : List NetAnswer}

theorem call_fields (cb : Callback) (s : Page) :
    (cb.call L s).error = s.error ∧ (cb.call L s).chunked = s.chunked := by
  rcases cbBodyRows_fields L s with ⟨-, herror, hchunked, -⟩
  cases cb with
  | none => exact ⟨rfl, rfl⟩
  | complete => exact ⟨rfl, rfl⟩
  | headerFinish => exact ⟨herror, hchunked⟩
  | bodyRows => exact ⟨herror, hchunked⟩

/-- A failed write is not forgotten. -/
theorem write_error (h : s.error = true) (ans : NetAnswer) : (s.write L ans).error = true := by
  unfold Page.write
  dsimp only
  split
  · simp [h]
  · simp [call_fields, h]

theorem write_chunked (s : Page) (ans : NetAnswer) : (s.write L ans).chunked = s.chunked := by
  unfold Page.write
  dsimp only
  split
  · rfl
  · rw [(call_fields _ _).2]

theorem run_chunked (s : Page) (answers : List NetAnswer) :
    ((pageMachine L).run s answers).chunked = s.chunked := by
  induction answers generalizing s with
  | nil => rfl
  | cons ans answers ih => exact (ih (s.write L ans)).trans (write_chunked s ans)

theorem run_nil (h : Queue s []) (answers : List NetAnswer) :
    (pageMachine L).run s answers = s := by
  induction answers with
  | nil => rfl
  | cons ans answers ih =>
    rw [Machine.run_cons]
    refine Eq.trans ?_ ih
    congr 1
    exact h.write_nil

theorem run_error (h : s.error = true) (answers : List NetAnswer) :
    ((pageMachine L).run s answers).error = true := by
  induction answers generalizing s with
  | nil => exact h
  | cons ans answers ih => exact ih (write_error h ans)

/-- A run without a failed write. -/
theorem Inv.run (h : Inv L before s items)
    (hanswers : (pageMachine L).AllSteps PageAnswer s answers)
    (herror : ((pageMachine L).run s answers).error = false) :
    ∃ items', Inv L before ((pageMachine L).run s answers) items' ∧
      (items' = [] ∨
        s.wire.length + answers.countP isSent ≤ ((pageMachine L).run s answers).wire.length) := by
  induction answers generalizing s items with
  | nil => exact ⟨items, h, .inr le_rfl⟩
  | cons ans answers ih =>
    rcases hanswers with ⟨hans, hanswers⟩
    by_cases hnil : items = []
    · subst hnil
      rw [run_nil h.queue]
      exact ⟨[], h, .inl rfl⟩
    · have hstep : (s.write L ans).error = false := by
        cases herr : (s.write L ans).error with
        | false => rfl
        | true =>
          have hrun := run_error (L := L) herr answers
          rw [← herror]
          exact hrun.symm
      rcases h.write hans hstep with ⟨items₁, hinv₁, -, hle, hlt⟩
      rcases ih hinv₁ hanswers herror with ⟨items₂, hinv₂, hlength⟩
      refine ⟨items₂, hinv₂, ?_⟩
      rcases hlength with hnil₂ | hlength
      · exact .inl hnil₂
      · right
        rw [Machine.run_cons, List.countP_cons]
        refine le_trans ?_ hlength
        split
        · next hsent =>
          have := hlt hsent hnil
          have heq : ((pageMachine L).step s ans).wire.length = (s.write L ans).wire.length := rfl
          omega
        · have heq : ((pageMachine L).step s ans).wire.length = (s.write L ans).wire.length := rfl
          omega

end Runs

/-! ## Bodies -/

/-- After the HTTP header this body is sent, however the network cuts it: no write
fails, what has been sent is a part of it, all of it when the channel is empty, and
the channel is empty after enough writes. -/
def Sends (L : Listing) (chunked : Bool) (specs : List (StreamSpec Bytes)) (body : Bytes) : Prop :=
  ∀ answers, (pageMachine L).AllSteps PageAnswer (dirhtmlInit L chunked specs) answers →
    let s := (pageMachine L).run (dirhtmlInit L chunked specs) answers
    let all := headerBytes specs ++ body
    s.error = false ∧ s.wire <+: all ∧ (s.channel.streams = [] → s.wire = all) ∧
      (all.length ≤ answers.countP isSent → s.channel.streams = [])

/-- An HTTP/1.1 client gets the page in chunks, an HTTP/1.0 client as it is. -/
def SendsPage (L : Listing) (specs : List (StreamSpec Bytes)) : Prop :=
  ∃ body, Sends L true specs body ∧ dechunk body = some L.page ∧ Sends L false specs L.page

section Bodies

variable {L : Listing} {s : Page} {before : Bytes} {items : List Item}
  {specs : List (StreamSpec Bytes)}

theorem Inv.run_ok (h : Inv L before s items) (hpieces : L.pieces.countP (· = []) = 0)
    (herror : s.error = false) {answers : List NetAnswer}
    (hanswers : (pageMachine L).AllSteps PageAnswer s answers) :
    ((pageMachine L).run s answers).error = false := by
  induction answers generalizing s items with
  | nil => exact herror
  | cons ans answers ih =>
    have hok := h.write_ok hpieces herror hanswers.1
    rcases h.write hanswers.1 hok with ⟨items', hinv, -⟩
    exact ih hinv hok hanswers.2

theorem Queue.nil_iff (h : Queue s items) : s.channel.streams = [] ↔ items = [] := by
  have hlength := h.streams.length_eq
  rw [← List.length_eq_zero_iff, ← List.length_eq_zero_iff, hlength]

/-- The page is sent as long as no piece is empty. -/
theorem sends_sent (specs : List (StreamSpec Bytes)) (hpieces : L.pieces.countP (· = []) = 0)
    (chunked : Bool) : Sends L chunked specs (L.sent chunked) := by
  intro answers hanswers
  rcases inv_init specs L chunked with ⟨items, hinv, herror, hwire, hchunked⟩
  have hok := hinv.run_ok hpieces herror hanswers
  rcases hinv.run hanswers hok with ⟨items', hinv', hlength⟩
  have hcontent := hinv'.content
  rw [run_chunked, hchunked] at hcontent
  have hdrained : items' = [] →
      ((pageMachine L).run (dirhtmlInit L chunked specs) answers).wire =
        headerBytes specs ++ L.sent chunked := by
    rintro rfl
    rw [← hcontent]
    simp [future]
  refine ⟨hok, ?_, ?_, ?_⟩
  · rw [← hcontent, List.append_assoc]
    exact List.prefix_append _ _
  · intro hstreams
    exact hdrained (hinv'.queue.nil_iff.mp hstreams)
  · intro hcount
    rw [hinv'.queue.nil_iff]
    rcases hlength with hnil | hlength
    · exact hnil
    · -- everything is sent, so no item has bytes left
      rw [hwire, List.length_nil, Nat.zero_add] at hlength
      have htotal := congrArg List.length hcontent
      rw [List.length_append, List.length_append] at htotal
      have hflat : (items'.flatMap Item.bytes).length = 0 := by omega
      have hempties := hinv'.empties
      rw [hpieces] at hempties
      have hnone : items'.countP (·.bytes = []) = 0 := by omega
      rw [List.eq_nil_iff_forall_not_mem]
      intro item hitem
      have hbytes := List.flatMap_eq_nil_iff.mp (List.eq_nil_of_length_eq_zero hflat) item hitem
      exact List.countP_eq_zero.mp hnone item hitem (decide_eq_true hbytes)

theorem sent_false : L.sent false = L.page := by
  simp [Listing.sent, Listing.after, framed, Listing.page, Listing.pieces, List.flatMap_def]

/-- The chunks of the pieces. -/
theorem sent_true (hpieces : ∀ p ∈ L.pieces, p ≠ [] ∧ p.length < 2 ^ 32) :
    L.sent true = chunks hexText L.pieces ++ lastChunk := by
  have hframed : ∀ p ∈ L.pieces, framed true p (bytes "\r\n") = chunk hexText p := by
    intro p hp
    rw [framed, if_pos rfl, chunk, if_neg (hpieces p hp).1, Nat.mod_eq_of_lt (hpieces p hp).2]
    rfl
  have hlast : framed true L.footer (bytes "\r\n0\r\n\r\n") =
      chunk hexText L.footer ++ lastChunk := by
    have htrailer : bytes "\r\n0\r\n\r\n" = bytes "\r\n" ++ lastChunk := by decide
    rw [← hframed L.footer (by simp [Listing.pieces]), framed, framed, if_pos rfl, if_pos rfl,
      htrailer]
    simp only [List.append_assoc]
  have hrows : (L.toc.flatMap fun e => framed true (L.row e) (bytes "\r\n")) =
      (L.toc.map L.row).flatMap (chunk hexText) := by
    rw [List.flatMap_map]
    refine List.flatMap_congr fun e he => ?_
    exact hframed (L.row e) (by
      simp only [Listing.pieces, List.mem_cons, List.mem_append, List.mem_map]
      exact .inr (.inl ⟨e, he, rfl⟩))
  rw [Listing.sent, Listing.after, List.drop_zero, hframed L.header (by simp [Listing.pieces]), hrows,
    hlast, chunks, Listing.pieces, List.flatMap_cons, List.flatMap_append]
  simp

/-- There are runs of any number of writes. -/
theorem exists_answers (L : Listing) (s : Page) (n : Nat) :
    ∃ answers, (pageMachine L).AllSteps PageAnswer s answers ∧ answers.countP isSent = n := by
  induction n generalizing s with
  | zero => exact ⟨[], trivial, rfl⟩
  | succ n ih =>
    have hanswer : ∃ k, PageAnswer s (.sent k) := by
      cases hstreams : s.channel.streams with
      | nil => exact ⟨0, by simp only [PageAnswer, hstreams]⟩
      | cons stream rest =>
        refine ⟨(stream.pending textMemory noFiles).length, ?_⟩
        simp only [PageAnswer, hstreams]
        exact ⟨le_rfl, fun hne => List.length_pos_iff.mpr hne⟩
    rcases hanswer with ⟨k, hk⟩
    rcases ih ((pageMachine L).step s (.sent k)) with ⟨answers, hanswers, hcount⟩
    refine ⟨.sent k :: answers, ⟨hk, hanswers⟩, ?_⟩
    rw [List.countP_cons, hcount]
    rfl

/-- A page with an empty piece is not sent. -/
theorem pieces_of_sends {chunked : Bool} {body : Bytes} (h : Sends L chunked specs body) :
    ∀ p ∈ L.pieces, p ≠ [] := by
  rcases exists_answers L (dirhtmlInit L chunked specs) (headerBytes specs ++ body).length with
    ⟨answers, hanswers, hcount⟩
  rcases h answers hanswers with ⟨hok, -, -, hdrained⟩
  rcases inv_init specs L chunked with ⟨items, hinv, -⟩
  rcases hinv.run hanswers hok with ⟨items', hinv', -⟩
  have hnil := hinv'.queue.nil_iff.mp (hdrained hcount.ge)
  subst hnil
  have hempties := hinv'.empties
  have hzero : L.pieces.countP (· = []) = 0 := by
    rw [← hempties]
    rfl
  intro p hp hempty
  exact List.countP_eq_zero.mp hzero p hp (decide_eq_true hempty)

end Bodies

/-- The listing is sent, in chunks or as it is, as long as no piece of it is empty
or longer than an `unsigned int` can say; with an empty piece it is not. -/
theorem listing_sent (L : Listing) (specs : List (StreamSpec Bytes)) :
    ((∀ p ∈ L.pieces, p ≠ [] ∧ p.length < 2 ^ 32) → SendsPage L specs) ∧
      (SendsPage L specs → ∀ p ∈ L.pieces, p ≠ []) := by
  constructor
  · intro hpieces
    have hnone : L.pieces.countP (· = []) = 0 := by
      rw [List.countP_eq_zero]
      intro p hp hempty
      exact (hpieces p hp).1 (of_decide_eq_true hempty)
    refine ⟨L.sent true, sends_sent specs hnone true, ?_, ?_⟩
    · rw [sent_true hpieces, dechunk_pieces isHex_hexText]
      rfl
    · have hplain := sends_sent specs hnone false
      rw [sent_false] at hplain
      exact hplain
  · rintro ⟨body, -, -, hplain⟩
    exact pieces_of_sends hplain

/-- A listing of two files. -/
def twoFiles (footer : List Template) : Listing where
  tplHeader := [.static (bytes "<ul>")]
  tplEntry := [.dynamic .entry 2]
  tplFooter := footer
  title := bytes "/"
  themePath := []
  toc := [{ name := bytes "a.eco", ftModif := [], size := [], isDir := false },
    { name := bytes "b.eco", ftModif := [], size := [], isDir := false }]

theorem listing_sent_twoFiles : SendsPage (twoFiles [.static (bytes "</ul>")]) [] :=
  (listing_sent (twoFiles [.static (bytes "</ul>")]) []).1 (by decide)

/-- A footer of nothing but a tag of the rows. -/
def rowTag : List Template := [.static [], .dynamic .entry 2, .static []]

/-- It is composed to nothing, and its chunk has the size 0. -/
theorem empty_footer_not_sent :
    mkDirhtmlTemplateCreate (bytes "%_target_name_%") = some rowTag ∧
      ¬ SendsPage (twoFiles rowTag) [] := by
  refine ⟨by decide, ?_⟩
  rintro ⟨body, -, -, hplain⟩
  exact pieces_of_sends hplain [] (by decide) rfl

end SuperExe.Plugins.Dirhtml
