import SuperExe.FastCgi.Process

/-! # Cutting the backend's stream into reads

A run that has read the whole stream ends where `process` does, however the
stream was cut, if no read ended inside the padding of a record that is handled
(`Stands.final`). When each record arrives by itself there is no such read, as
long as the records fit the buffer.
-/

namespace SuperExe.FastCgi

open SuperExe.Core SuperExe.Http SuperExe.Lib SuperExe.Plugins

/-! ## Whole runs -/

section Run

variable {h₀ : Reply} {rs : List Record} {s : Backend} {ks : List Nat}

/-- A handler whose request has been sent, and the whole answer of the backend. -/
structure Start (h₀ : Reply) (rs : List Record) (s : Backend) : Prop where
  reply : s.handler.toReply = h₀
  fresh : h₀.headersSet = false
  active : s.handler.active = true
  watched : s.handler.closed = false
  empty : s.handler.bufLen = 0
  pending : s.pending = stream rs

/-- The reader has handled some of the records and stands in front of the rest. -/
def Stands (h₀ : Reply) (rs : List Record) (s : Backend) : Prop :=
  ∃ h rest, Reaches h₀ rs h rest ∧ Front h rest s

theorem Start.isOpen (hs : Start h₀ rs s) : Open h₀ rs s where
  reply := hs.reply
  active := hs.active
  watched := hs.watched
  room := by
    rw [hs.empty]
    exact Nat.zero_le _
  front := by
    have hnil : s.handler.buffered = [] := List.length_eq_zero_iff.mp (by simp [hs.empty])
    rw [hnil, hs.pending, List.nil_append]

theorem Start.stands (hs : Start h₀ rs s) : Stands h₀ rs s := by
  refine ⟨h₀, rs, Reaches.refl h₀ rs, Front.waiting hs.isOpen ?_⟩
  intro r rs' _
  rw [hs.empty]
  simp only [Record.size, headerSize]
  omega

theorem Stands.step (hwf : ∀ r ∈ rs, r.WellFormed) (hfresh : h₀.headersSet = false)
    (hord : Orderly false rs) {k : Nat} (hst : Stands h₀ rs s) (hclean : CleanCut rs s k) :
    Stands h₀ rs (s.readable k) := by
  obtain ⟨h, rest, hr, hf⟩ := hst
  rw [← hfresh] at hord
  have hcut : s.handler.closed = false → s.got k ≠ [] →
      ¬ CutsPadding h.headersSet rest (s.pending.length - (s.got k).length) := by
    intro hopen hgot hc
    have hc' := hr.cuts hc
    rw [hfresh] at hc'
    exact hclean hopen hgot hc'
  obtain ⟨h', rest', hr', hf'⟩ :=
    readable_front (fun r hmem => hwf r (hr.suffix.mem hmem)) (hr.orderly hord) hcut hf
  exact ⟨h', rest', hr.trans hr', hf'⟩

theorem Stands.run (hwf : ∀ r ∈ rs, r.WellFormed) (hord : Orderly false rs)
    (hs : Start h₀ rs s) (hclean : backend.AllSteps (CleanCut rs) s ks) :
    Stands h₀ rs (backend.run s ks) :=
  (backend.allStates_of_allSteps (I := Stands h₀ rs)
    (fun _ _ hst hc => hst.step hwf hs.fresh hord hc) hs.stands hclean).last

theorem Open.pending_nil {h : Reply} {rest : List Record} (ho : Open h rest s) (hc : s.Complete) :
    s.pending = [] := by
  rcases hc with hc | hc
  · exact absurd (ho.watched.symm.trans hc) (by simp)
  · exact hc

/-- A reader that waits for a record has not read everything. -/
theorem Open.rest_nil {h : Reply} {rest : List Record} (ho : Open h rest s) (hc : s.Complete)
    (hshort : ∀ r rs, rest = r :: rs → s.handler.bufLen < r.size) : rest = [] := by
  cases rest with
  | nil => rfl
  | cons r rs' =>
    have hlen := congrArg List.length ho.front
    rw [ho.pending_nil hc, List.append_nil, length_buffered, stream_cons, List.length_append,
      Record.length_bytes] at hlen
    have := hshort r rs' rfl
    omega

/-- A reader that has read everything has done what `process` does. -/
theorem Stands.final (hst : Stands h₀ rs s) (hc : s.Complete) : s.final = process h₀ rs := by
  obtain ⟨h, rest, hr, hf⟩ := hst
  rw [hr.same]
  cases hf with
  | waiting ho hshort =>
    obtain rfl := ho.rest_nil hc hshort
    have hfront := ho.front
    rw [ho.pending_nil hc, List.append_nil] at hfront
    simp [Backend.final, process, ho.reply, ho.watched, hfront]
  | stuck ho r href =>
    have hfront := ho.front
    rw [ho.pending_nil hc, List.append_nil] at hfront
    obtain ⟨⟨rs', rfl⟩, ht, hcont, hnone⟩ := href
    have hlen : (stream (r :: rs')).length ≤ bufSize := by
      rw [← hfront, length_buffered]
      exact ho.room
    rw [process, if_pos ht, if_neg hcont, hnone]
    dsimp only
    rw [if_pos hlen, Backend.final, ho.reply, ho.watched, hfront]
    rfl
  | ended r hlast ht hreply hbuf hdone hopen =>
    subst hlast
    rw [process, if_neg (by simp [ht, fcgiEndRequest, fcgiStdout]),
      if_neg (by simp [ht, fcgiEndRequest, fcgiStderr]), if_pos ht, Backend.final, hreply, hopen,
      hbuf]
    rfl
  | unknown r rs' hfront ht hreply hclosed =>
    subst hfront
    have h1 : r.type ≠ fcgiStdout := fun h => ht (Or.inl h)
    have h2 : r.type ≠ fcgiStderr := fun h => ht (Or.inr (Or.inl h))
    have h3 : r.type ≠ fcgiEndRequest := fun h => ht (Or.inr (Or.inr h))
    rw [process, if_neg h1, if_neg h2, if_neg h3, Backend.final, hreply, hclosed]
    rfl
  | full r href hreply hclosed hlong =>
    obtain ⟨⟨rs', rfl⟩, ht, hcont, hnone⟩ := href
    rw [process, if_pos ht, if_neg hcont, hnone]
    dsimp only
    rw [if_neg (by omega), Backend.final, hreply, hclosed]
    rfl

theorem Refused.afterRecord {h : Reply} {rest : List Record} {r : Record} (href : Refused h rest r) :
    afterRecord h.headersSet r = none := by
  rw [afterRecord_eq_respond href.type href.content, href.refused, Option.map_none]

theorem Refused.not_handled {h : Reply} {rest : List Record} {r : Record}
    (href : Refused h rest r) : ¬ Handled h.headersSet r := by
  rintro (hsome | hend)
  · simp [href.afterRecord] at hsome
  · simp [href.type, fcgiStdout, fcgiEndRequest] at hend

theorem not_handled_of_unknown (hs : Bool) {r : Record} (ht : ¬ Known r.type) :
    afterRecord hs r = none ∧ ¬ Handled hs r := by
  have h1 : r.type ≠ fcgiStdout := fun h => ht (Or.inl h)
  have h2 : r.type ≠ fcgiStderr := fun h => ht (Or.inr (Or.inl h))
  have hnone : afterRecord hs r = none := by
    rw [afterRecord, if_neg h1, if_neg h2]
  refine ⟨hnone, ?_⟩
  rintro (hsome | hend)
  · simp [hnone] at hsome
  · exact ht (Or.inr (Or.inr hend))

theorem fits_of_not_handled {hs : Bool} {r : Record} {rs : List Record} (hh : ¬ Handled hs r)
    (hnone : afterRecord hs r = none) : Fits hs (r :: rs) := by
  unfold Fits
  rw [hnone]
  exact ⟨fun h => absurd h hh, trivial⟩

/-- The records a complete run has handled all fitted the buffer. -/
theorem Stands.fits (hst : Stands h₀ rs s) (hc : s.Complete) : Fits h₀.headersSet rs := by
  obtain ⟨h, rest, hr, hf⟩ := hst
  rw [hr.fits_iff]
  cases hf with
  | waiting ho hshort =>
    obtain rfl := ho.rest_nil hc hshort
    trivial
  | stuck _ r href | full r href _ _ _ =>
    obtain ⟨rs', rfl⟩ := href.front
    exact fits_of_not_handled href.not_handled href.afterRecord
  | ended r hlast ht _ _ _ _ hroom =>
    subst hlast
    have hnone : afterRecord h.headersSet r = none := by
      rw [afterRecord, if_neg (by simp [ht, fcgiEndRequest, fcgiStdout]),
        if_neg (by simp [ht, fcgiEndRequest, fcgiStderr])]
    unfold Fits
    rw [hnone]
    exact ⟨fun _ => hroom, trivial⟩
  | unknown r rs' hfront ht _ _ =>
    subst hfront
    obtain ⟨hnone, hh⟩ := not_handled_of_unknown h.headersSet ht
    exact fits_of_not_handled hh hnone

end Run

/-! ## Record by record -/

section RecordByRecord

variable {h₀ h : Reply} {rs rest todo : List Record} {s : Backend} {r : Record} {hs : Bool}

theorem Record.size_pos (r : Record) : 0 < r.size := by
  simp only [Record.size, headerSize]
  omega

/-- A read that ends between two records cuts no padding. -/
theorem not_cutsPadding_boundary (hsuf : rest <:+ rs) :
    ¬ CutsPadding hs rs (stream rest).length := by
  induction rs generalizing hs with
  | nil => exact fun hc => hc
  | cons r rs ih =>
    have hbytes := Record.length_bytes r
    have hpos := Record.size_pos r
    intro hc
    unfold CutsPadding at hc
    rcases List.suffix_cons_iff.mp hsuf with rfl | hsuf
    · rw [stream_cons, List.length_append] at hc
      rcases hc with ⟨-, -, hle⟩ | hc
      · omega
      · split at hc
        · have := hc.length_le
          omega
        · exact hc
    · rcases hc with ⟨-, hlt, -⟩ | hc
      · obtain ⟨pre, rfl⟩ := hsuf
        rw [stream_append, List.length_append] at hlt
        omega
      · split at hc
        · exact ih hsuf hc
        · exact hc

/-- Where the reader is when the records `todo` have still to arrive. -/
def Between (todo : List Record) (s : Backend) : Prop :=
  s.handler.closed = true ∨ s.pending = stream todo ∨ s.handler.avail = 0

/-- A reader that waits between two records has an empty buffer. -/
theorem Open.between (ho : Open h rest s)
    (hshort : ∀ r rs, rest = r :: rs → s.handler.bufLen < r.size) (hrest : rest <:+ rs)
    (htodo : todo <:+ rs) (hpend : s.pending = stream todo) :
    rest = todo ∧ s.handler.bufLen = 0 := by
  have hlen : s.handler.bufLen + s.pending.length = (stream rest).length := ho.length
  rw [hpend] at hlen
  rcases List.suffix_or_suffix_of_suffix htodo hrest with ⟨pre, rfl⟩ | ⟨pre, rfl⟩
  · cases pre with
    | nil =>
      rw [List.nil_append] at hlen
      exact ⟨rfl, by omega⟩
    | cons r pre =>
      have h1 := hshort r (pre ++ todo) rfl
      have h2 := Record.length_bytes r
      simp only [List.cons_append, stream_cons, stream_append, List.length_append] at hlen
      omega
  · cases pre with
    | nil =>
      rw [List.nil_append] at hlen
      exact ⟨rfl, by omega⟩
    | cons r pre =>
      have h2 := Record.length_bytes r
      have h3 := Record.size_pos r
      simp only [List.cons_append, stream_cons, stream_append, List.length_append] at hlen
      omega

theorem Backend.readable_closed (s : Backend) {k : Nat} (hc : s.handler.closed = true) :
    s.readable k = s := if_pos (Or.inl hc)

theorem Backend.readable_eq (s : Backend) {k : Nat} (hopen : s.handler.closed = false)
    (hne : s.pending.take k ≠ []) :
    s.readable k =
      ⟨cbFastcgiOnRead s.handler (s.got k), s.pending.drop (s.got k).length⟩ := by
  refine if_neg ?_
  rintro (hc | hnil)
  · exact absurd (hc.symm.trans hopen) (by simp)
  · exact hne hnil

/-- A reader whose buffer is full gives up at the next event. -/
theorem Backend.readable_full (s : Backend) {k : Nat} (hfull : s.handler.avail = 0) :
    s.readable k = s ∧ s.pending.take k = [] ∨ (s.readable k).handler.closed = true := by
  cases hopen : s.handler.closed with
  | true =>
    rw [s.readable_closed hopen]
    exact Or.inr hopen
  | false =>
    by_cases hne : s.pending.take k = []
    · exact Or.inl ⟨if_pos (Or.inr hne), hne⟩
    · have hgot : s.got k = [] := by
        rw [Backend.got, hfull, List.take_zero]
      right
      rw [s.readable_eq hopen hne, hgot]
      simp only [cbFastcgiOnRead, if_true]
      split <;> rfl

/-- The record in front of the buffer is not handled. -/
structure Blocked (h : Reply) (rest : List Record) (s : Backend) : Prop where
  isOpen : Open h rest s
  front : ∃ r rs, rest = r :: rs ∧ ¬ Handled h.headersSet r

theorem not_handled_after {r : Record} (hh : ¬ Handled hs r) : afterRecord hs r = none := by
  cases ha : afterRecord hs r with
  | none => rfl
  | some _ => exact absurd (Or.inl (by simp [ha])) hh

theorem Blocked.not_cuts (hb : Blocked h rest s) {left : Nat} :
    ¬ CutsPadding h.headersSet rest left := by
  obtain ⟨r, rs, rfl, hh⟩ := hb.front
  unfold CutsPadding
  rw [not_handled_after hh]
  rintro (⟨hh', -⟩ | hc)
  · exact hh hh'
  · exact hc

/-- A record that does not fit the room left is not handled. -/
theorem Front.blocked (hf : Front h rest s) (hfits : Fits h.headersSet rest) (hrest : rest <:+ rs)
    (htodo : r :: todo <:+ rs) (hpend : s.pending = stream (r :: todo))
    (hopen : s.handler.closed = false) (hroom : s.handler.avail < r.bytes.length) :
    Blocked h rest s := by
  cases hf with
  | waiting ho hshort =>
    obtain ⟨rfl, hempty⟩ := ho.between hshort hrest htodo hpend
    refine ⟨ho, r, todo, rfl, ?_⟩
    intro hh
    have hle := hfits.1 hh
    simp only [Handler.avail] at hroom
    omega
  | stuck ho r' href =>
    obtain ⟨rs', rfl⟩ := href.front
    exact ⟨ho, r', rs', rfl, href.not_handled⟩
  | ended _ _ _ _ _ hdone =>
    have hlen := congrArg List.length (hdone.symm.trans hpend)
    simp [Record.size, headerSize] at hlen
    omega
  | unknown _ _ _ _ _ hclosed => exact absurd (hclosed.symm.trans hopen) (by simp)
  | full _ _ _ hclosed => exact absurd (hclosed.symm.trans hopen) (by simp)

/-- A blocked reader reads until its buffer is full. -/
theorem Blocked.fills (hb : Blocked h rest s) (hf : Front h rest s)
    (hwf : ∀ r ∈ rest, r.WellFormed) (hord : Orderly h.headersSet rest) {k : Nat}
    (hk : s.handler.avail ≤ (s.pending.take k).length) (hne : s.pending.take k ≠ []) :
    (s.readable k).handler.closed = true ∨ (s.readable k).handler.avail = 0 := by
  obtain ⟨r, rs, hrest, hh⟩ := hb.front
  have hgot : (s.got k).length = s.handler.avail := by
    rw [Backend.got, List.length_take]
    omega
  have hleft : (s.readable k).pending.length = s.pending.length - s.handler.avail := by
    rw [s.readable_eq hb.isOpen.watched hne, List.length_drop, hgot]
  obtain ⟨h', rest', hr, hf'⟩ := readable_front (k := k) hwf hord (fun _ _ => hb.not_cuts) hf
  obtain ⟨rfl, rfl⟩ := hr.stays hrest (not_handled_after hh)
  have hfull : Open h' rest' (s.readable k) → (s.readable k).handler.avail = 0 := by
    intro ho'
    have h1 : s.handler.bufLen + s.pending.length = (stream rest').length := hb.isOpen.length
    have h2 : (s.readable k).handler.bufLen + (s.readable k).pending.length =
        (stream rest').length := ho'.length
    have h3 := hb.isOpen.room
    have h4 : (s.pending.take k).length ≤ s.pending.length := List.length_take_le' _ _
    simp only [Handler.avail] at hleft hk ⊢
    omega
  cases hf' with
  | waiting ho' _ => exact Or.inr (hfull ho')
  | stuck ho' _ _ => exact Or.inr (hfull ho')
  | ended r' hlast ht =>
    cases hrest.symm.trans hlast
    exact absurd (Or.inr ht) hh
  | unknown _ _ _ _ _ hclosed => exact Or.inl hclosed
  | full _ _ _ hclosed => exact Or.inl hclosed

/-- The next record arrives. -/
theorem Between.step (hwf : ∀ r ∈ rs, r.WellFormed) (hfresh : h₀.headersSet = false)
    (hord : Orderly false rs) (hfits : Fits false rs) (hst : Stands h₀ rs s)
    (htodo : r :: todo <:+ rs) (hb : Between (r :: todo) s) :
    CleanCut rs s r.bytes.length ∧ Between todo (s.readable r.bytes.length) := by
  -- what is closed stays closed
  cases hopen : s.handler.closed with
  | true =>
    refine ⟨fun hopen' => absurd (hopen.symm.trans hopen') (by simp), Or.inl ?_⟩
    rw [s.readable_closed hopen]
    exact hopen
  | false =>
  -- it is open: the whole stream is still to come, or nothing fits any more
  rcases hb with hclosed | hpend | hfull
  · exact absurd (hclosed.symm.trans hopen) (by simp)
  · have hbytes : s.pending.take r.bytes.length = r.bytes := by
      rw [hpend, stream_cons, List.take_left]
    have hne : s.pending.take r.bytes.length ≠ [] := by
      rw [hbytes, ← List.length_pos_iff, Record.length_bytes]
      simp only [Record.size, headerSize]
      omega
    -- the record fits, or it is one that never will
    by_cases hroom : r.bytes.length ≤ s.handler.avail
    · have hgot : s.got r.bytes.length = r.bytes := by
        rw [Backend.got, hbytes, List.take_of_length_le hroom]
      have hsuf : todo <:+ rs := (List.suffix_cons r todo).trans htodo
      constructor
      · intro _ _
        rw [hgot, hpend, stream_cons, List.length_append, Nat.add_sub_cancel_left]
        exact not_cutsPadding_boundary hsuf
      · refine Or.inr (Or.inl ?_)
        rw [s.readable_eq hopen hne, hgot, hpend, stream_cons, List.drop_left]
    · obtain ⟨h, rest, hr, hf⟩ := hst
      rw [← hfresh] at hord hfits
      have hblocked := hf.blocked (hr.fits_iff.mp hfits) hr.suffix htodo hpend hopen (by omega)
      constructor
      · intro _ _ hc
        rw [← hfresh] at hc
        refine hblocked.not_cuts (hr.cuts_rest ?_ hc)
        have : s.handler.bufLen + s.pending.length = (stream rest).length := hblocked.isOpen.length
        omega
      · have hfill := hblocked.fills hf (fun r hmem => hwf r (hr.suffix.mem hmem))
          (hr.orderly hord) (by rw [hbytes]; omega) hne
        rcases hfill with hc | hz
        · exact Or.inl hc
        · exact Or.inr (Or.inr hz)
  · have hgot : s.got r.bytes.length = [] := by
      rw [Backend.got, hfull, List.take_zero]
    refine ⟨fun _ hne => absurd hgot hne, ?_⟩
    rcases s.readable_full hfull with ⟨heq, -⟩ | hclosed
    · rw [heq]
      exact Or.inr (Or.inr hfull)
    · exact Or.inl hclosed

/-- When each record arrives by itself, no read ends inside a padding, and the
whole stream is read. -/
theorem recordReads_clean (hwf : ∀ r ∈ rs, r.WellFormed) (hfresh : h₀.headersSet = false)
    (hord : Orderly false rs) (hfits : Fits false rs) (hst : Stands h₀ rs s) (htodo : todo <:+ rs)
    (hb : Between todo s) :
    backend.AllSteps (CleanCut rs) s (recordReads todo) ∧
      (backend.run s (recordReads todo)).Complete := by
  induction todo generalizing s with
  | nil =>
    -- the last event matters only when the buffer was full before the end of the stream
    have hrun : backend.run s (recordReads []) = s.readable 1 := rfl
    rw [hrun]
    rcases hb with hclosed | hpend | hfull
    · refine ⟨⟨fun hopen => absurd (hclosed.symm.trans hopen) (by simp), trivial⟩, Or.inl ?_⟩
      rw [s.readable_closed hclosed]
      exact hclosed
    · have hnil : s.pending.take 1 = [] := by simp [hpend]
      refine ⟨⟨fun _ hne => absurd (by simp [Backend.got, hnil]) hne, trivial⟩, Or.inr ?_⟩
      have hsame : s.readable 1 = s := if_pos (Or.inr hnil)
      rw [hsame, hpend, stream_nil]
    · refine ⟨⟨fun _ hne => absurd (by simp [Backend.got, hfull]) hne, trivial⟩, ?_⟩
      rcases s.readable_full (k := 1) hfull with ⟨heq, hnil⟩ | hclosed
      · rw [heq]
        refine Or.inr ?_
        simpa using hnil
      · exact Or.inl hclosed
  | cons r todo ih =>
    obtain ⟨hclean, hb'⟩ := hb.step hwf hfresh hord hfits hst htodo
    have hst' : Stands h₀ rs (s.readable r.bytes.length) := hst.step hwf hfresh hord hclean
    obtain ⟨hsteps, hdone⟩ := ih hst' ((List.suffix_cons r todo).trans htodo) hb'
    exact ⟨⟨hclean, hsteps⟩, hdone⟩

end RecordByRecord

/-! ## Segmentation -/

/-- If no read ends inside the padding of a record that is handled, the cuts do
not matter: a run that has read the whole stream has sent the client what the
run record by record sends and ends in the same state, the one in which each
record has been handled once. -/
theorem segmentation_independent {h₀ : Reply} {rs : List Record} {s : Backend} {ks : List Nat}
    (hwf : ∀ r ∈ rs, r.WellFormed) (hord : Orderly false rs) (hs : Start h₀ rs s)
    (hclean : backend.AllSteps (CleanCut rs) s ks) (hdone : (backend.run s ks).Complete) :
    (backend.run s ks).final = (backend.run s (recordReads rs)).final ∧
      (backend.run s ks).final = process h₀ rs := by
  have hst : Stands h₀ rs (backend.run s ks) := Stands.run hwf hord hs hclean
  have hfinal := hst.final hdone
  have hfits : Fits false rs := by
    have := hst.fits hdone
    rwa [hs.fresh] at this
  obtain ⟨hclean', hdone'⟩ := recordReads_clean hwf hs.fresh hord hfits hs.stands List.suffix_rfl
    (Or.inr (Or.inl hs.pending))
  have hfinal' := (Stands.run hwf hord hs hclean').final hdone'
  exact ⟨hfinal.trans hfinal'.symm, hfinal⟩

/-- A handler for an HTTP/1.1 request, before the backend answers. -/
def waitingHandler : Handler where
  protocol11 := true
  chunked := false
  headersSet := false
  writeRounds := 0
  out := []
  active := true
  closed := false
  bufLen := 0
  bufData := fun _ => 0

/-- A header with one byte of padding, a body of one byte, and the end. -/
def paddedAnswer : List Record :=
  [{ type := fcgiStdout, requestId := 1, content := [10, 10], padding := [0] },
   { type := fcgiStdout, requestId := 1, content := [120], padding := [] },
   { type := fcgiEndRequest, requestId := 1, content := [0, 0, 0, 0, 0, 0, 0, 0], padding := [] }]

/-- Cut inside the first header and inside the second record. -/
theorem segmentation_independent_padded :
    (backend.run ⟨waitingHandler, stream paddedAnswer⟩ [5, 12, 100]).final =
      (backend.run ⟨waitingHandler, stream paddedAnswer⟩ (recordReads paddedAnswer)).final :=
  (@segmentation_independent waitingHandler.toReply paddedAnswer _ _ (by decide) (by decide)
    ⟨rfl, rfl, rfl, rfl, rfl, rfl⟩ (by decide) (Or.inr (by decide))).1

/-- A read that ends in front of the padding byte: that byte is taken for the
start of the next record, and the body is lost. -/
theorem segmentation_padding_cut :
    Start waitingHandler.toReply paddedAnswer ⟨waitingHandler, stream paddedAnswer⟩ ∧
    (backend.run ⟨waitingHandler, stream paddedAnswer⟩ [10, 100]).Complete ∧
    (backend.run ⟨waitingHandler, stream paddedAnswer⟩ [10, 100]).final ≠
      (backend.run ⟨waitingHandler, stream paddedAnswer⟩ (recordReads paddedAnswer)).final :=
  ⟨⟨rfl, rfl, rfl, rfl, rfl, rfl⟩, Or.inl (by decide +kernel), by decide +kernel⟩

end SuperExe.FastCgi
