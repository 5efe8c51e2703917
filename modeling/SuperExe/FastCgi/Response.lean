import SuperExe.FastCgi.Segmentation

/-! # From CGI output to an HTTP response

What the client receives when the backend's output comes in `STDOUT` records and
an `END_REQUEST` record. The header block is looked for in the first record that
is not empty, and nowhere else; the body is always sent in chunks, whether the
client was told so or not.
-/

namespace SuperExe.FastCgi

open SuperExe.Core SuperExe.Lib SuperExe.Plugins
open SuperExe.Http (hexText isHex_hexText strncasecmpEq)

/-! ## What was asked for -/

/-- The client receives the server's header, the header block once, and the
body: chunked for HTTP/1.1 and raw before it. -/
def Translated (protocol11 : Bool) (out : List ClientOut) (block body : Bytes) : Prop :=
  ∃ status rest wire, out = .prepare status protocol11 :: rest ∧ prepares rest = 0 ∧
    copied rest = block ++ wire ∧
    if protocol11 then dechunk wire = some body else wire = body

/-- The output of a CGI program: its header block has `e` bytes, and a `Status:`
line says its status there. -/
structure CgiOutput (o : Bytes) (e : Nat) : Prop where
  block : headerEnd o = some e
  status : StatusInside (o.take e)

/-- The first content that is not empty. -/
def firstContent : List Record → Bytes
  | [] => []
  | r :: rs => if r.content = [] then firstContent rs else r.content

/-! ## One record -/

section Respond

variable {h : Reply} {content : Bytes} {e : Nat}

theorem respond_body (hset : h.headersSet = true) (hne : content ≠ []) :
    respond h content = some { h with out := h.out ++ bodyOut content } := by
  have hpos : 0 < content.length := List.length_pos_iff.mpr hne
  unfold respond fcgiResponse bodyOut
  rw [window_cstr, if_neg (by omega), if_neg hne]
  simp [hset, hpos, Reply.fcgiWrite, Reply.send]

theorem respond_block (hset : h.headersSet = false) (he : headerEnd content = some e) :
    ∃ status, respond h content =
      some { h with
        chunked := h.chunked || h.protocol11
        headersSet := true
        writeRounds := h.writeRounds + 1
        out := h.out ++ [.prepare status h.protocol11, .copy (content.take e)] ++
          bodyOut (content.drop e) } := by
  obtain ⟨⟨pos, advance⟩, hbreak, rfl⟩ := Option.map_eq_some_iff.mp he
  refine ⟨responseStatus (cstr content), ?_⟩
  obtain ⟨protocol11, chunked, headersSet, writeRounds, out⟩ := h
  dsimp only at hset
  subst hset
  unfold respond fcgiResponse bodyOut
  rw [window_cstr, if_neg (by simp), hbreak]
  dsimp only
  generalize content.drop (pos + advance) = body
  by_cases hbody : body = []
  · cases protocol11 <;> simp [hbody, Reply.fcgiWrite, Reply.send]
  · have hpos : 0 < body.length := List.length_pos_iff.mpr hbody
    cases protocol11 <;> simp [hbody, hpos, Reply.fcgiWrite, Reply.send]

theorem respond_refused (hset : h.headersSet = false) (he : headerEnd content = none) :
    respond h content = none := by
  have hbreak : getearliestbreak content = none := Option.map_eq_none_iff.mp he
  unfold respond fcgiResponse
  rw [window_cstr, hbreak]
  simp [hset]

theorem respond_end (hset : h.headersSet = true) :
    respond h [] =
      some { h with out := h.out ++ if h.chunked then [.copy lastChunk] else [] } := by
  obtain ⟨protocol11, chunked, headersSet, writeRounds, out⟩ := h
  dsimp only at hset
  subst hset
  unfold respond fcgiResponse
  cases chunked
  · simp [window]
  · simp only [Reply.send]
    rfl

end Respond

/-! ## The whole answer -/

section Answer

variable {h : Reply} {rs : List Record} {r last : Record} {e : Nat}

@[simp] theorem contents_cons (r : Record) (rs : List Record) :
    contents (r :: rs) = r.content ++ contents rs := rfl

theorem process_end (hlast : last.type = fcgiEndRequest) :
    (process h [last]).reply = (respond h []).getD h := by
  rw [process, if_neg (by simp [hlast, fcgiEndRequest, fcgiStdout]),
    if_neg (by simp [hlast, fcgiEndRequest, fcgiStderr]), if_pos hlast]

theorem process_empty (ht : r.type = fcgiStdout) (hc : r.content = []) :
    process h (r :: rs) = process h rs := by
  rw [process, if_pos ht, if_pos hc]

theorem process_stdout (ht : r.type = fcgiStdout) (hc : r.content ≠ []) {h' : Reply}
    (hresp : respond h r.content = some h') : process h (r :: rs) = process h' rs := by
  rw [process, if_pos ht, if_neg hc, hresp]

/-- Once the headers are set every record is a chunk. -/
theorem process_body (hset : h.headersSet = true) (hlast : last.type = fcgiEndRequest)
    (hrs : ∀ r ∈ rs, r.type = fcgiStdout) :
    (process h (rs ++ [last])).reply.out =
      h.out ++ bodyOuts h.chunked (rs.map Record.content) := by
  induction rs generalizing h with
  | nil =>
    rw [List.nil_append, process_end hlast, respond_end hset]
    rfl
  | cons r rs ih =>
    have ht := hrs r (by simp)
    have hrs' : ∀ r ∈ rs, r.type = fcgiStdout := fun r' hr' => hrs r' (List.mem_cons_of_mem r hr')
    rw [List.cons_append]
    by_cases hc : r.content = []
    · rw [process_empty ht hc, ih hset hrs']
      simp [bodyOuts, hc, bodyOut]
    · have hset' : { h with out := h.out ++ bodyOut r.content }.headersSet = true := hset
      rw [process_stdout ht hc (respond_body hset hc), ih hset' hrs']
      simp [bodyOuts]

/-- What the client gets, by the first content that is not empty. -/
theorem process_answer (hset : h.headersSet = false) (hchunked : h.chunked = false)
    (hlast : last.type = fcgiEndRequest) (hrs : ∀ r ∈ rs, r.type = fcgiStdout) :
    match headerEnd (firstContent rs) with
    | none => (process h (rs ++ [last])).reply.out = h.out
    | some e => ∃ status pieces, pieces.flatten = (contents rs).drop e ∧
        (process h (rs ++ [last])).reply.out =
          h.out ++ [.prepare status h.protocol11, .copy ((contents rs).take e)] ++
            bodyOuts h.protocol11 pieces := by
  induction rs with
  | nil =>
    dsimp only [firstContent]
    have hnone : headerEnd [] = none := rfl
    rw [hnone]
    dsimp only
    rw [List.nil_append, process_end hlast, respond_refused hset hnone]
    rfl
  | cons r rs ih =>
    have ht := hrs r (by simp)
    have hrs' : ∀ r ∈ rs, r.type = fcgiStdout := fun r' hr' => hrs r' (List.mem_cons_of_mem r hr')
    rw [List.cons_append]
    by_cases hc : r.content = []
    · rw [process_empty ht hc, contents_cons, hc, List.nil_append, firstContent, if_pos hc]
      exact ih hrs'
    · rw [firstContent, if_neg hc]
      cases he : headerEnd r.content with
      | none =>
        have hnone := respond_refused hset he
        dsimp only
        rw [process, if_pos ht, if_neg hc, hnone]
        dsimp only
        split <;> rfl
      | some e =>
        obtain ⟨status, hresp⟩ := respond_block hset he
        have hle := headerEnd_le he
        refine ⟨status, r.content.drop e :: rs.map Record.content, ?_, ?_⟩
        · rw [contents_cons, List.drop_append_of_le_length hle, List.flatten_cons]
          rfl
        · rw [process_stdout ht hc hresp, process_body rfl hlast hrs', contents_cons,
            List.take_append_of_le_length hle]
          simp [bodyOuts, hchunked]

/-- The first content is where the output starts. -/
theorem firstContent_prefix (rs : List Record) : firstContent rs <+: contents rs := by
  induction rs with
  | nil => exact List.prefix_rfl
  | cons r rs ih =>
    rw [firstContent, contents_cons]
    split
    · next hc =>
      rw [hc, List.nil_append]
      exact ih
    · exact List.prefix_append _ _

/-- A body sent in chunks is what the client expects, if it expects chunks. -/
theorem wire_iff (protocol11 : Bool) (pieces : List Bytes) :
    (if protocol11 then
        dechunk (chunks hexText pieces ++ if protocol11 then lastChunk else []) =
          some pieces.flatten
      else (chunks hexText pieces ++ if protocol11 then lastChunk else []) = pieces.flatten) ↔
      protocol11 = true ∨ pieces.flatten = [] := by
  cases protocol11 with
  | true =>
    constructor
    · exact fun _ => Or.inl rfl
    · exact fun _ => dechunk_pieces isHex_hexText pieces
  | false =>
    simp only [Bool.false_eq_true, if_false, List.append_nil, false_or]
    constructor
    · intro heq
      by_contra hne
      have hlt := length_chunks_lt hexText hne
      rw [heq] at hlt
      exact Nat.lt_irrefl _ hlt
    · intro hnil
      rw [hnil]
      exact chunks_eq_nil hexText hnil

/-- When the answer is translated. -/
theorem translated_process_iff (hset : h.headersSet = false) (hchunked : h.chunked = false)
    (hout : h.out = []) (hlast : last.type = fcgiEndRequest)
    (hrs : ∀ r ∈ rs, r.type = fcgiStdout) (he : headerEnd (contents rs) = some e) :
    Translated h.protocol11 (process h (rs ++ [last])).reply.out ((contents rs).take e)
        ((contents rs).drop e) ↔
      (headerEnd (firstContent rs)).isSome = true ∧
        (h.protocol11 = true ∨ (contents rs).drop e = []) := by
  have hanswer := process_answer hset hchunked hlast hrs
  -- the break has to be in the first record
  cases hfirst : headerEnd (firstContent rs) with
  | none =>
    rw [hfirst] at hanswer
    dsimp only at hanswer
    rw [hanswer, hout]
    constructor
    · rintro ⟨_, _, _, hnil, -⟩
      cases hnil
    · rintro ⟨hsome, -⟩
      cases hsome
  | some e' =>
    obtain ⟨t, ht⟩ := firstContent_prefix rs
    -- then it is the one of the whole output
    have hee : e' = e := by
      have : headerEnd (firstContent rs ++ t) = some e' := headerEnd_append hfirst
      rw [ht, he] at this
      exact (Option.some.inj this).symm
    subst hee
    rw [hfirst] at hanswer
    obtain ⟨status, pieces, hpieces, heq⟩ := hanswer
    rw [heq, hout, ← hpieces]
    -- and what follows is the body, in chunks or as it is
    have hrest : copied (.copy ((contents rs).take e') :: bodyOuts h.protocol11 pieces) =
        (contents rs).take e' ++
          (chunks hexText pieces ++ if h.protocol11 then lastChunk else []) := by
      rw [← copied_bodyOuts]
      rfl
    constructor
    · rintro ⟨st, rest, wire, heq, -, hcopied, hwire⟩
      cases heq
      refine ⟨rfl, (wire_iff h.protocol11 pieces).mp ?_⟩
      have : copied (.copy ((contents rs).take e') :: bodyOuts h.protocol11 pieces) =
          (contents rs).take e' ++ wire := hcopied
      rw [hrest] at this
      rw [List.append_cancel_left this]
      exact hwire
    · rintro ⟨-, hcond⟩
      refine ⟨status, .copy ((contents rs).take e') :: bodyOuts h.protocol11 pieces, _, rfl, ?_,
        hrest, (wire_iff h.protocol11 pieces).mpr hcond⟩
      have hcons : prepares (.copy ((contents rs).take e') :: bodyOuts h.protocol11 pieces) =
          prepares (bodyOuts h.protocol11 pieces) := rfl
      rw [hcons, prepares_bodyOuts]

end Answer

/-! ## The reader -/

section Reader

variable {h₀ : Reply} {rs : List Record} {last : Record} {s : Backend} {ks : List Nat} {e : Nat}

/-- A status that is said in the header block is said in every record that
contains it. -/
theorem statusInside_of_take {c : Bytes} (he : headerEnd c = some e)
    (hst : StatusInside (c.take e)) : StatusInside c := by
  have hle := headerEnd_le he
  have hlen : (c.take e).length = e := by
    rw [List.length_take]
    omega
  have hsame : ∀ i < e, cstr (c.take e) i = cstr c i := by
    intro i hi
    simp [cstr, hi]
  have hblock : headerEnd (c.take e) = some e := by
    have hwhole : headerEnd (c.take e ++ c.drop e) = some e := by
      rwa [List.take_append_drop]
    exact headerEnd_of_append hwhole (by omega)
  have hbreak : (getearliestbreak (c.take e)).isSome = true := by
    obtain ⟨x, hx, -⟩ := Option.map_eq_some_iff.mp hblock
    simp [hx]
  intro hcmp
  -- a block of eight bytes or less has a line feed where `Status: ` has none
  have h8 : 8 < e := by
    by_contra hsmall
    obtain ⟨i, hi, hlf⟩ := exists_lf_of_break hbreak
    rw [hlen] at hi
    rw [hsame i hi] at hlf
    rw [not_status_of_lf (by omega) hlf] at hcmp
    cases hcmp
  have hcmp' : strncasecmpEq (cstr (c.take e)) (cstr (bytes "Status: ")) 8 = true := by
    rw [← hcmp]
    refine strncmpEq_congr ?_
    intro i hi
    rw [hsame i (by omega)]
  have hstop := hst hcmp'
  rw [hlen] at hstop
  have hparts := strtol_parts_congr hsame hle hstop
  rw [hparts.2.2]
  omega

theorem orderly_stdouts_set (hlast : last.type = fcgiEndRequest)
    (hrs : ∀ r ∈ rs, r.type = fcgiStdout) : Orderly true (rs ++ [last]) := by
  induction rs with
  | nil =>
    have hnone : afterRecord true last = none := by
      rw [afterRecord, if_neg (by simp [hlast, fcgiEndRequest, fcgiStdout]),
        if_neg (by simp [hlast, fcgiEndRequest, fcgiStderr])]
    rw [List.nil_append, Orderly, hnone]
    exact ⟨fun _ => rfl, fun _ h => absurd h (by simp), trivial⟩
  | cons r rs ih =>
    have ht := hrs r (by simp)
    have hafter : afterRecord true r = some true := by simp [afterRecord, ht]
    rw [List.cons_append, Orderly, hafter]
    refine ⟨?_, fun _ h => absurd h (by simp), ih fun r' hr' => hrs r' (List.mem_cons_of_mem r hr')⟩
    intro hend
    simp [ht, fcgiStdout, fcgiEndRequest] at hend

/-- An output in `STDOUT` records and an `END_REQUEST` record behind them. -/
theorem orderly_stdouts (hlast : last.type = fcgiEndRequest)
    (hrs : ∀ r ∈ rs, r.type = fcgiStdout)
    (hst : ∀ e, headerEnd (firstContent rs) = some e → StatusInside (firstContent rs)) :
    Orderly false (rs ++ [last]) := by
  induction rs with
  | nil =>
    have hnone : afterRecord false last = none := by
      rw [afterRecord, if_neg (by simp [hlast, fcgiEndRequest, fcgiStdout]),
        if_neg (by simp [hlast, fcgiEndRequest, fcgiStderr])]
    rw [List.nil_append, Orderly, hnone]
    refine ⟨fun _ => rfl, fun ht => ?_, trivial⟩
    simp [hlast, fcgiStdout, fcgiEndRequest] at ht
  | cons r rs ih =>
    have ht := hrs r (by simp)
    have hrs' : ∀ r ∈ rs, r.type = fcgiStdout := fun r' hr' => hrs r' (List.mem_cons_of_mem r hr')
    have hend : r.type = fcgiEndRequest → rs ++ [last] = [] := by
      intro hend
      simp [ht, fcgiStdout, fcgiEndRequest] at hend
    rw [List.cons_append, Orderly]
    rw [firstContent] at hst
    -- an empty record is passed; the first other one has the header
    by_cases hc : r.content = []
    · rw [if_pos hc] at hst
      have hafter : afterRecord false r = some false := by simp [afterRecord, ht, hc]
      rw [hafter]
      refine ⟨hend, ?_, ih hrs' hst⟩
      intro _ _ hbreak
      rw [hc] at hbreak
      cases hbreak
    · rw [if_neg hc] at hst
      refine ⟨hend, ?_, ?_⟩
      · intro _ _ hbreak
        obtain ⟨x, hx⟩ := Option.isSome_iff_exists.mp hbreak
        exact hst (x.1 + x.2) (by rw [headerEnd, hx]; rfl)
      · cases hafter : afterRecord false r with
        | none => trivial
        | some hs =>
          have hs_true : hs = true := by
            simp only [afterRecord, ht, hc, if_true, false_or, Bool.false_eq_true, if_false] at hafter
            split at hafter
            · exact (Option.some.inj hafter).symm
            · cases hafter
          subst hs_true
          exact orderly_stdouts_set hlast hrs'

end Reader

/-- A header block of two line feeds, one in each of two records. -/
def splitAnswer : List Record :=
  [{ type := fcgiStdout, requestId := 1, content := [10], padding := [] },
   { type := fcgiStdout, requestId := 1, content := [10, 120], padding := [] },
   { type := fcgiEndRequest, requestId := 1, content := [0, 0, 0, 0, 0, 0, 0, 0], padding := [] }]

end SuperExe.FastCgi
