import SuperExe.Cgi.Event

/-! # Cutting the output of a CGI program into reads

What the client gets should not depend on how the pipe's reads cut the output.
`Phase` says where the reader is after the first `q` bytes: it collects the
status line, then the header part, then it sends the body piece by piece. Two
reads go wrong. One that ends behind a status line but before the end of the
header part: the line is taken off the count of buffered bytes, not off the
buffer. And one that ends behind a whole header part of less than eight bytes:
the server's own header is not prepared before eight bytes are there.
-/

namespace SuperExe.Cgi

open SuperExe.Core SuperExe.Lib SuperExe.Plugins
open SuperExe.Http (isHex_hexText)

/-! ## Outputs -/

/-- Where the number of the status line of an output starts, if it has one. -/
def statusOf (o : Bytes) : Option Nat := if 8 ≤ o.length then statusNumber o else none

/-- The output of a CGI program: an optional status line that ends at `l` and
says its status itself, header lines and a blank line up to `e`, and the body.
The header part fits the buffer. -/
structure Script (o : Bytes) (l e : Nat) : Prop where
  line : match statusOf o with
    | some pos => lineEnd o = some l ∧ strtolStop (cstr o) l pos < l
    | none => l = 0
  block : headerEnd (o.drop l) = some (e - l)
  fits : e ≤ bufLen

/-- The status of the response. -/
def cgiStatus (o : Bytes) (initial : Int) : Int :=
  match statusOf o with
  | some pos => atoiAt (cstr o) pos
  | none => initial

/-- The server's header. An output of less than eight bytes gets none. -/
def serverHead (o : Bytes) (r₀ : CgiRequest) : List ClientOut :=
  if 8 ≤ o.length then [.prepare (some (cgiStatus o r₀.status)) r₀.chunked] else []

/-- What the client gets in front of the body. -/
def responseHead (o : Bytes) (l e : Nat) (r₀ : CgiRequest) : List ClientOut :=
  serverHead o r₀ ++ [.copy ((o.drop l).take (e - l))]

/-- The client gets this head, and then nothing but this body. -/
def Sent (chunked : Bool) (head : List ClientOut) (body : Bytes) (out : List ClientOut) : Prop :=
  ∃ rest, out = head ++ rest ∧ prepares rest = 0 ∧
    if chunked then dechunk (copied rest) = some body else copied rest = body

/-- The whole output in one read, whatever its length. -/
def readAtOnce (r₀ : CgiRequest) (o : Bytes) : CgiRequest :=
  cgiFinish (processCgiData (r₀.append o))

/-- A read that ends at `q` while the status is not done. -/
def CleanEnd (o : Bytes) (l e q : Nat) : Prop :=
  ((statusOf o).isSome → ¬ (l < q ∧ q < e)) ∧
    ∀ e', headerEnd o = some e' → ¬ (e' ≤ q ∧ q < 8 ∧ 8 ≤ o.length)

instance (o : Bytes) (l e q : Nat) : Decidable (CleanEnd o l e q) :=
  have : Decidable (∀ e' ∈ headerEnd o, ¬ (e' ≤ q ∧ q < 8 ∧ 8 ≤ o.length)) := inferInstance
  inferInstanceAs (Decidable (_ ∧ _))

/-- The read at this event, if there is one, leaves nothing behind. -/
def CleanCut (o : Bytes) (l e : Nat) (s : Pipe) (k : Nat) : Prop :=
  s.request.statusDone = false → s.got k ≠ [] →
    CleanEnd o l e (o.length - (s.pending.length - (s.got k).length))

instance (o : Bytes) (l e : Nat) (s : Pipe) (k : Nat) : Decidable (CleanCut o l e s k) :=
  inferInstanceAs (Decidable (_ → _))

/-! ## The parts of process_cgi_data -/

section Parts

variable {r : CgiRequest} {p m : Nat}

/-- A piece of the body. -/
def pieceOut (chunked : Bool) (data : Bytes) : List ClientOut :=
  if chunked then bodyOut data else if data = [] then [] else [.copy data]

@[simp] theorem pieceOut_nil (chunked : Bool) : pieceOut chunked [] = [] := by
  cases chunked <;> rfl

/-- A body that is not chunked is sent as it is. -/
theorem copied_raw (pieces : List Bytes) :
    copied (pieces.flatMap (pieceOut false)) = pieces.flatten := by
  induction pieces with
  | nil => rfl
  | cons p ps ih =>
    rw [List.flatMap_cons, copied_append, ih, List.flatten_cons]
    by_cases hp : p = [] <;> simp [pieceOut, copied, hp]

theorem prepares_raw (pieces : List Bytes) : prepares (pieces.flatMap (pieceOut false)) = 0 := by
  induction pieces with
  | nil => rfl
  | cons p ps ih =>
    rw [List.flatMap_cons, prepares_append, ih]
    by_cases hp : p = [] <;> simp [pieceOut, prepares, hp]

@[simp] theorem length_dataAt (r : CgiRequest) (p : Nat) : (r.dataAt p).length = r.inLen :=
  length_window _ _

theorem dataAt_append (r : CgiRequest) (got : Bytes) :
    (r.append got).dataAt 0 = r.dataAt 0 ++ got := by
  unfold CgiRequest.dataAt CgiRequest.append
  simp only [Nat.zero_add]
  exact window_writeAt r.inBuf r.inLen got

theorem bodyPart_eq (h : r.dataAt p ≠ []) :
    bodyPart r p = { r with inLen := 0, out := r.out ++ pieceOut r.chunked (r.dataAt p) } := by
  unfold bodyPart pieceOut bodyOut
  cases hc : r.chunked <;> simp [CgiRequest.write, h, hc]

theorem headersPart_waits (hh : r.allHeadersDone = false) (h : headerEnd (r.dataAt p) = none) :
    headersPart r p = r := by
  have hb : getearliestbreak (r.dataAt p) = none := Option.map_eq_none_iff.mp h
  rw [headersPart, if_pos hh, hb]

/-- The header part is complete: it is sent, and so is what follows it. -/
theorem headersPart_block (hh : r.allHeadersDone = false) (h : headerEnd (r.dataAt p) = some m) :
    headersPart r p =
      { r with
        inLen := 0
        allHeadersDone := true
        out := r.out ++ [.copy ((r.dataAt p).take m)] ++
          pieceOut r.chunked ((r.dataAt p).drop m) } := by
  have hle := headerEnd_le h
  obtain ⟨⟨pos, advance⟩, hb, rfl⟩ := Option.map_eq_some_iff.mp h
  rw [headersPart, if_pos hh, hb]
  dsimp only at hle ⊢
  rw [length_dataAt] at hle
  have hdrop : (r.dataAt p).drop (pos + advance) =
      window (fun i => r.inBuf (p + (pos + advance) + i)) (r.inLen - (pos + advance)) := by
    rw [CgiRequest.dataAt, drop_window]
    simp only [Nat.add_assoc]
  split
  · next hz =>
    have hlen : r.inLen - (pos + advance) = 0 := hz
    have hnil : (r.dataAt p).drop (pos + advance) = [] := by
      rw [hdrop, hlen]
      rfl
    rw [hnil]
    simp [CgiRequest.write, hlen]
  · next hz =>
    have hlen : r.inLen - (pos + advance) ≠ 0 := hz
    rw [bodyPart_eq, hdrop]
    · rfl
    · rw [← List.length_pos_iff, length_dataAt]
      exact Nat.pos_of_ne_zero hlen

theorem headersPart_body (hh : r.allHeadersDone = true) (h : r.dataAt p ≠ []) :
    headersPart r p = { r with inLen := 0, out := r.out ++ pieceOut r.chunked (r.dataAt p) } := by
  rw [headersPart, if_neg (by simp [hh]), bodyPart_eq h]

theorem statusPart_skips (h : r.statusDone = true ∨ r.inLen < 8) : statusPart r = (r, some 0) := by
  refine if_neg ?_
  rintro ⟨hs, hl⟩
  rcases h with h | h
  · exact absurd (h.symm.trans hs) (by simp)
  · omega

/-- There is no status line. -/
theorem statusPart_none (hs : r.statusDone = false) (hl : 8 ≤ r.inLen)
    (hn : statusNumber (r.dataAt 0) = none) :
    statusPart r = ({ r.headerPrepare with statusDone := true }, some 0) := by
  rw [statusPart, if_pos ⟨hs, hl⟩, hn]

/-- The status line is not complete. -/
theorem statusPart_short (hs : r.statusDone = false) (hl : 8 ≤ r.inLen)
    (hn : statusNumber (r.dataAt 0) = some p) (he : lineEnd (r.dataAt 0) = none) :
    statusPart r = ({ r with status := atoiAt r.inBuf p }, none) := by
  have he' : lineEnd ({ r with status := atoiAt r.inBuf p }.dataAt 0) = none := he
  rw [statusPart, if_pos ⟨hs, hl⟩, hn]
  dsimp only
  rw [he']

/-- The status line is complete. -/
theorem statusPart_line (hs : r.statusDone = false) (hl : 8 ≤ r.inLen)
    (hn : statusNumber (r.dataAt 0) = some p) (he : lineEnd (r.dataAt 0) = some m) :
    statusPart r =
      ({ r with
        status := atoiAt r.inBuf p
        inLen := r.inLen - m
        statusDone := true
        out := r.out ++ [.prepare (some (atoiAt r.inBuf p)) r.chunked] }, some m) := by
  have he' : lineEnd ({ r with status := atoiAt r.inBuf p }.dataAt 0) = some m := he
  rw [statusPart, if_pos ⟨hs, hl⟩, hn]
  dsimp only
  rw [he']
  rfl

end Parts

/-! ## Status lines of an output -/

section Output

variable {o : Bytes} {l e q : Nat} {buf : Nat → UInt8}

theorem statusNumber_take (h8 : 8 ≤ q) : statusNumber (o.take q) = statusNumber o := by
  unfold statusNumber
  rw [List.take_take, List.take_take, Nat.min_eq_left h8, Nat.min_eq_left (show 4 ≤ q by omega)]

theorem lineEnd_eq_some :
    lineEnd o = some l ↔ ∃ i, (o.drop 8).findIdx? (· = 10) = some i ∧ i + 9 = l :=
  Option.map_eq_some_iff

theorem lineEnd_le (h : lineEnd o = some l) : l ≤ o.length ∧ 9 ≤ l := by
  obtain ⟨i, hi, rfl⟩ := lineEnd_eq_some.mp h
  rw [List.findIdx?_eq_some_iff_getElem] at hi
  obtain ⟨hlt, -⟩ := hi
  rw [List.length_drop] at hlt
  omega

/-- A line that ends in a beginning of the output ends there in the output. -/
theorem lineEnd_of_take (h : lineEnd (o.take q) = some l) : lineEnd o = some l := by
  obtain ⟨i, hi, rfl⟩ := lineEnd_eq_some.mp h
  refine lineEnd_eq_some.mpr ⟨i, ?_, rfl⟩
  have hlt := (lineEnd_le h).1
  rw [List.length_take] at hlt
  have hsplit : o.drop 8 = (o.take q).drop 8 ++ o.drop q := by
    rw [← List.drop_append_of_le_length (by rw [List.length_take]; omega), List.take_append_drop]
  rw [hsplit, List.findIdx?_append, hi]
  rfl

/-- The status line of a beginning of the output. -/
theorem lineEnd_take (h : lineEnd o = some l) :
    lineEnd (o.take q) = if l ≤ q then some l else none := by
  cases hq : lineEnd (o.take q) with
  | some l' =>
    have heq : l = l' := Option.some.inj (h.symm.trans (lineEnd_of_take hq))
    have hle := (lineEnd_le hq).1
    rw [List.length_take] at hle
    rw [heq, if_pos (by omega)]
  | none =>
    split
    · next hle =>
      obtain ⟨i, hi, rfl⟩ := lineEnd_eq_some.mp h
      obtain ⟨hlt, hlf, -⟩ := List.findIdx?_eq_some_iff_getElem.mp hi
      rw [List.length_drop] at hlt
      rw [lineEnd, Option.map_eq_none_iff, List.findIdx?_eq_none_iff] at hq
      have hmem : (o.drop 8)[i] ∈ (o.take q).drop 8 := by
        rw [List.getElem_drop, List.mem_drop_iff_getElem]
        refine ⟨i, by rw [List.length_take]; omega, ?_⟩
        rw [List.getElem_take]
      have := hq _ hmem
      rw [hlf] at this
      cases this
    · rfl

/-- The number of a complete status line. -/
theorem atoiAt_eq (hbuf : ∀ i < l, buf i = cstr o i) (hl : l ≤ bufLen) {pos : Nat}
    (hstop : strtolStop (cstr o) l pos < l) : atoiAt buf pos = atoiAt (cstr o) pos := by
  have h1 : strtol buf bufLen pos = strtol (cstr o) l pos :=
    strtol_congr (fun i hi => (hbuf i hi).symm) hl hstop
  have h2 : strtol (cstr o) bufLen pos = strtol (cstr o) l pos :=
    strtol_congr (fun _ _ => rfl) hl hstop
  rw [atoiAt, atoiAt, h1, h2]

namespace Script

variable (hs : Script o l e)

include hs

/-- The end of the header part is behind that of the status line, in the output. -/
theorem bounds : l + 2 ≤ e ∧ e ≤ o.length := by
  have h1 := headerEnd_pos hs.block
  have h2 := headerEnd_le hs.block
  rw [List.length_drop] at h2
  omega

/-- When a beginning of the output has the whole header part. -/
theorem headerEnd_take (hlow : l ≤ q) :
    headerEnd ((o.drop l).take (q - l)) = if e ≤ q then some (e - l) else none := by
  obtain ⟨hle, hlen⟩ := hs.bounds
  have hwhole : headerEnd ((o.drop l).take (q - l) ++ (o.drop l).drop (q - l)) = some (e - l) := by
    rw [List.take_append_drop]
    exact hs.block
  split
  · next heq =>
    refine headerEnd_of_append hwhole ?_
    rw [List.length_take, List.length_drop]
    omega
  · next hlt =>
    cases hq : headerEnd ((o.drop l).take (q - l)) with
    | none => rfl
    | some m =>
      have hm : e - l = m := Option.some.inj (hwhole.symm.trans (headerEnd_append hq))
      have hmle := headerEnd_le hq
      rw [List.length_take, List.length_drop] at hmle
      omega

end Script

end Output

/-! ## Where the reader is -/

/-- What stays as it was. -/
structure Frame (r₀ r : CgiRequest) : Prop where
  chunked : r.chunked = r₀.chunked
  active : r.active = true
  unfinished : r.finished = false

/-- Where the reader is after the first `q` bytes of the output. -/
inductive Phase (o : Bytes) (l e : Nat) (r₀ : CgiRequest) (q : Nat) (r : CgiRequest) : Prop
  | fresh (frame : Frame r₀ r) (statusOpen : r.statusDone = false)
      (headersOpen : r.allHeadersDone = false) (data : r.dataAt 0 = o.take q) (out : r.out = [])
      (status : statusOf o = none → r.status = r₀.status)
      (short : q < 8 ∧ headerEnd (o.take q) = none ∨ (statusOf o).isSome ∧ q < l)
  | headers (frame : Frame r₀ r) (statusDone : r.statusDone = true)
      (headersOpen : r.allHeadersDone = false) (data : r.dataAt 0 = (o.drop l).take (q - l))
      (low : l ≤ q) (high : q < e) (long : 8 ≤ o.length) (out : r.out = serverHead o r₀)
  | body (frame : Frame r₀ r) (statusDone : r.statusDone = decide (8 ≤ o.length))
      (headersDone : r.allHeadersDone = true) (empty : r.inLen = 0) (low : e ≤ q)
      (out : ∃ pieces : List Bytes, pieces.flatten = (o.drop e).take (q - e) ∧
        r.out = responseHead o l e r₀ ++ pieces.flatMap (pieceOut r₀.chunked))

section Step

variable {o : Bytes} {l e q : Nat} {r₀ r : CgiRequest} (hs : Script o l e)

include hs

/-- The header part, once the status is dealt with. -/
theorem headersPart_phase {p : Nat} (hf : Frame r₀ r)
    (hstatus : r.statusDone = decide (8 ≤ o.length)) (hopen : r.allHeadersDone = false)
    (hdata : r.dataAt p = (o.drop l).take (q - l)) (hlow : l ≤ q)
    (hout : r.out = serverHead o r₀) (hshort : q < e → 8 ≤ o.length ∧ (p = 0 ∨ r.inLen = 0)) :
    Phase o l e r₀ q (headersPart r p) := by
  obtain ⟨hle, hlen⟩ := hs.bounds
  have hend := hs.headerEnd_take hlow
  rw [← hdata] at hend
  by_cases heq : e ≤ q
  · rw [if_pos heq] at hend
    rw [headersPart_block hopen hend]
    refine Phase.body ⟨hf.chunked, hf.active, hf.unfinished⟩ hstatus rfl rfl heq ?_
    refine ⟨[(r.dataAt p).drop (e - l)], ?_, ?_⟩
    · rw [List.flatten_singleton, hdata, List.drop_take, List.drop_drop]
      congr 1
      · omega
      · congr 1
        omega
    · rw [hout, hdata, List.take_take, Nat.min_eq_left (by omega), hf.chunked]
      simp [responseHead]
  · rw [if_neg heq] at hend
    rw [headersPart_waits hopen hend]
    obtain ⟨hlong, hp⟩ := hshort (by omega)
    have hdata0 : r.dataAt 0 = (o.drop l).take (q - l) := by
      rcases hp with rfl | hp
      · exact hdata
      · have h0 : ∀ p, r.dataAt p = [] := fun p => List.length_eq_zero_iff.mp (by simp [hp])
        rw [h0, ← hdata, h0]
    exact Phase.headers hf (hstatus.trans (decide_eq_true hlong)) hopen hdata0 hlow (by omega)
      hlong hout

/-- A read that ends before eight bytes have arrived. -/
theorem process_tiny (hf : Frame r₀ r) (hstatus : r.statusDone = false)
    (hopen : r.allHeadersDone = false) (hdata : r.dataAt 0 = o.take q) (hq : q ≤ o.length)
    (hout : r.out = []) (hst : statusOf o = none → r.status = r₀.status) (h8 : q < 8)
    (hclean : CleanEnd o l e q) : Phase o l e r₀ q (processCgiData r) := by
  have hlen : r.inLen = q := by
    rw [← length_dataAt r 0, hdata, List.length_take]
    omega
  rw [processCgiData, statusPart_skips (Or.inr (by omega))]
  dsimp only
  cases hend : headerEnd (o.take q) with
  | none =>
    rw [headersPart_waits hopen (by rw [hdata]; exact hend)]
    exact Phase.fresh hf hstatus hopen hdata hout hst (Or.inl ⟨h8, hend⟩)
  | some e' =>
    -- the whole output is shorter than eight bytes
    have hwhole : headerEnd o = some e' := by
      rw [← List.take_append_drop q o]
      exact headerEnd_append hend
    have hle := headerEnd_le hend
    rw [List.length_take] at hle
    have hsmall : ¬ 8 ≤ o.length := fun h => hclean.2 e' hwhole ⟨by omega, h8, h⟩
    have hline := hs.line
    rw [statusOf, if_neg hsmall] at hline
    dsimp only at hline
    subst hline
    have hblock := hs.block
    rw [List.drop_zero, hwhole, Nat.sub_zero] at hblock
    have he : e' = e := Option.some.inj hblock
    refine headersPart_phase hs hf (by rw [hstatus, decide_eq_false hsmall]) hopen ?_
      (Nat.zero_le q) ?_ ?_
    · rw [hdata, List.drop_zero, Nat.sub_zero]
    · rw [hout, serverHead, if_neg hsmall]
    · intro hlt
      omega

/-- A read after which eight bytes have arrived. -/
theorem process_status (hf : Frame r₀ r) (hstatus : r.statusDone = false)
    (hopen : r.allHeadersDone = false) (hdata : r.dataAt 0 = o.take q) (hq : q ≤ o.length)
    (hout : r.out = []) (hst : statusOf o = none → r.status = r₀.status) (h8 : 8 ≤ q)
    (hclean : CleanEnd o l e q) : Phase o l e r₀ q (processCgiData r) := by
  have hlen : r.inLen = q := by
    rw [← length_dataAt r 0, hdata, List.length_take]
    omega
  have h8o : 8 ≤ o.length := by omega
  have hnumber : statusNumber (r.dataAt 0) = statusOf o := by
    rw [hdata, statusNumber_take h8, statusOf, if_pos h8o]
  have hline := hs.line
  rw [processCgiData]
  -- without a status line the headers begin at once
  cases hn : statusOf o with
  | none =>
    rw [hn] at hline hnumber
    dsimp only at hline
    subst hline
    rw [statusPart_none hstatus (by omega) hnumber]
    refine headersPart_phase hs ⟨hf.chunked, hf.active, hf.unfinished⟩
      (decide_eq_true h8o).symm hopen ?_ (Nat.zero_le q) ?_ fun _ => ⟨h8o, Or.inl rfl⟩
    · rw [List.drop_zero, Nat.sub_zero]
      exact hdata
    · rw [serverHead, if_pos h8o]
      simp [CgiRequest.headerPrepare, hout, hf.chunked, hst hn, cgiStatus, hn]
  | some pos =>
    rw [hn] at hline hnumber
    obtain ⟨hend, hstop⟩ := hline
    have hline' : lineEnd (r.dataAt 0) = if l ≤ q then some l else none := by
      rw [hdata]
      exact lineEnd_take hend
    -- with one, its end is needed before anything is done
    by_cases hl : l ≤ q
    · rw [if_pos hl] at hline'
      have hbuf : ∀ i < l, r.inBuf i = cstr o i := by
        intro i hi
        have hget : (r.dataAt 0)[i]? = some (r.inBuf (0 + i)) := getElem?_window _ (by omega)
        rw [hdata, List.getElem?_take_of_lt (by omega), Nat.zero_add] at hget
        simp [cstr, hget]
      -- the number is read from the bytes of the line
      have hnum := atoiAt_eq hbuf (by have := hs.bounds; have := hs.fits; omega) hstop
      rw [statusPart_line hstatus (by omega) hnumber hline']
      refine headersPart_phase hs ⟨hf.chunked, hf.active, hf.unfinished⟩
        (decide_eq_true h8o).symm hopen ?_ hl ?_ ?_
      · have hdrop : (r.dataAt 0).drop l =
            window (fun i => r.inBuf (l + i)) (r.inLen - l) := by
          rw [CgiRequest.dataAt, drop_window]
          simp only [Nat.zero_add]
        rw [hdata, List.drop_take] at hdrop
        exact hdrop.symm
      · rw [serverHead, if_pos h8o]
        simp [hout, hf.chunked, hnum, cgiStatus, hn]
      · intro hlt
        have hnot := hclean.1 (by simp [hn])
        refine ⟨h8o, Or.inr ?_⟩
        dsimp only
        omega
    · rw [if_neg hl] at hline'
      rw [statusPart_short hstatus (by omega) hnumber hline']
      refine Phase.fresh ⟨hf.chunked, hf.active, hf.unfinished⟩ hstatus hopen hdata hout ?_
        (Or.inr ⟨by simp [hn], by omega⟩)
      intro hnone
      rw [hn] at hnone
      cases hnone

/-- One read. -/
theorem process_phase (hp : Phase o l e r₀ q r) {got : Bytes} (hne : got ≠ [])
    (hgot : got <+: o.drop q) (hq : q ≤ o.length)
    (hclean : r.statusDone = false → CleanEnd o l e (q + got.length)) :
    Phase o l e r₀ (q + got.length) (processCgiData (r.append got)) := by
  obtain ⟨hle, hlen⟩ := hs.bounds
  have htake : got = (o.drop q).take got.length := List.prefix_iff_eq_take.mp hgot
  have hgotlen := hgot.length_le
  rw [List.length_drop] at hgotlen
  cases hp with
  | fresh hf hstatus hopen hdata hout hst =>
    have hdata' : (r.append got).dataAt 0 = o.take (q + got.length) := by
      rw [dataAt_append, hdata, List.take_add, ← htake]
    by_cases h8 : q + got.length < 8
    · exact process_tiny hs ⟨hf.chunked, hf.active, hf.unfinished⟩ hstatus hopen hdata' (by omega)
        hout hst h8 (hclean hstatus)
    · exact process_status hs ⟨hf.chunked, hf.active, hf.unfinished⟩ hstatus hopen hdata' (by omega)
        hout hst (by omega) (hclean hstatus)
  | headers hf hstatus hopen hdata hlow hhigh hlong hout =>
    have hdata' : (r.append got).dataAt 0 = (o.drop l).take (q + got.length - l) := by
      have hsplit : q + got.length - l = (q - l) + got.length := by omega
      rw [dataAt_append, hdata, hsplit, List.take_add, List.drop_drop,
        show l + (q - l) = q by omega, ← htake]
    have hdone : (r.append got).statusDone = true := hstatus
    rw [processCgiData, statusPart_skips (Or.inl hdone)]
    exact headersPart_phase hs ⟨hf.chunked, hf.active, hf.unfinished⟩
      (hstatus.trans (decide_eq_true hlong).symm) hopen hdata' (by omega) hout
      fun _ => ⟨hlong, Or.inl rfl⟩
  | body hf hstatus hdone hempty hlow hout =>
    obtain ⟨pieces, hpieces, hout⟩ := hout
    have hdata : (r.append got).dataAt 0 = got := by
      have hnil : r.dataAt 0 = [] := List.length_eq_zero_iff.mp (by simp [hempty])
      rw [dataAt_append, hnil, List.nil_append]
    -- an output of less than eight bytes never gets to the status again
    have hskip : (r.append got).statusDone = true ∨ (r.append got).inLen < 8 := by
      by_cases hlong : 8 ≤ o.length
      · exact Or.inl (hstatus.trans (decide_eq_true hlong))
      · refine Or.inr ?_
        simp only [CgiRequest.append]
        omega
    rw [processCgiData, statusPart_skips hskip]
    dsimp only
    have hdone' : (r.append got).allHeadersDone = true := hdone
    rw [headersPart_body hdone' (by rw [hdata]; exact hne), hdata]
    refine Phase.body ⟨hf.chunked, hf.active, hf.unfinished⟩ hstatus hdone rfl (by omega)
      ⟨pieces ++ [got], ?_, ?_⟩
    · have hsplit : q + got.length - e = (q - e) + got.length := by omega
      rw [List.flatten_append, hpieces, hsplit, List.take_add, List.drop_drop,
        show e + (q - e) = q by omega, ← htake, List.flatten_singleton]
    · have hc : (r.append got).chunked = r₀.chunked := hf.chunked
      rw [hc, List.flatMap_append, ← List.append_assoc, ← hout]
      simp [CgiRequest.append]

/-- The end of the output. -/
theorem finish_sent (hp : Phase o l e r₀ o.length r) :
    Sent r₀.chunked (responseHead o l e r₀) (o.drop e) (cgiFinish r).out := by
  obtain ⟨hle, hlen⟩ := hs.bounds
  cases hp with
  | fresh _ _ _ _ _ _ hshort =>
    exfalso
    rcases hshort with ⟨h8, hnone⟩ | ⟨-, hlt⟩
    · have hline := hs.line
      rw [statusOf, if_neg (by omega)] at hline
      dsimp only at hline
      subst hline
      have hblock := hs.block
      rw [List.drop_zero] at hblock
      rw [List.take_length, hblock] at hnone
      cases hnone
    · omega
  | headers _ _ _ _ _ hhigh => omega
  | body hf _ _ _ _ hout =>
    obtain ⟨pieces, hpieces, hout⟩ := hout
    have hbody : pieces.flatten = o.drop e := by
      rw [hpieces, List.take_of_length_le (by rw [List.length_drop])]
    unfold cgiFinish
    cases hc : r₀.chunked with
    | true =>
      have hrc : r.chunked = true := hf.chunked.trans hc
      refine ⟨bodyOuts true pieces, ?_, prepares_bodyOuts true pieces, ?_⟩
      · have hlast : bytes "0\r\n\r\n" = lastChunk := rfl
        have hpiece : pieceOut true = bodyOut := rfl
        simp [hrc, hf.active, CgiRequest.write, hout, hc, bodyOuts, hlast, hpiece]
      · rw [if_pos rfl, copied_bodyOuts, if_pos rfl, dechunk_pieces isHex_hexText, hbody]
    | false =>
      have hrc : r.chunked = false := hf.chunked.trans hc
      refine ⟨pieces.flatMap (pieceOut false), ?_, ?_, ?_⟩
      · simp [hrc, hout, hc]
      · rw [prepares_raw]
      · rw [if_neg (by simp), copied_raw, hbody]

end Step

/-! ## Whole runs -/

section Run

variable {o : Bytes} {l e : Nat} {r₀ : CgiRequest} {s : Pipe} {ks : List Nat}

/-- A request whose program has been started, and the program's output. -/
structure Start (r₀ : CgiRequest) (o : Bytes) (s : Pipe) : Prop where
  request : s.request = r₀
  pending : s.pending = o
  empty : r₀.inLen = 0
  active : r₀.active = true
  statusOpen : r₀.statusDone = false
  headersOpen : r₀.allHeadersDone = false
  unfinished : r₀.finished = false
  out : r₀.out = []

/-- The reader is at some place of the output, or it has finished and the client
has got everything. -/
def Stands (o : Bytes) (l e : Nat) (r₀ : CgiRequest) (s : Pipe) : Prop :=
  (∃ q, q ≤ o.length ∧ s.pending = o.drop q ∧ Phase o l e r₀ q s.request) ∨
    s.request.finished = true ∧
      Sent r₀.chunked (responseHead o l e r₀) (o.drop e) s.request.out

theorem Phase.frame {q : Nat} {r : CgiRequest} (hp : Phase o l e r₀ q r) : Frame r₀ r := by
  cases hp with
  | fresh hf => exact hf
  | headers hf => exact hf
  | body hf => exact hf

/-- There is always room for more. -/
theorem Phase.room {q : Nat} {r : CgiRequest} (hs : Script o l e) (hp : Phase o l e r₀ q r) :
    r.inLen < bufLen := by
  have hfits := hs.fits
  have hbounds := hs.bounds
  have h8 : 8 < bufLen := by decide
  cases hp with
  | fresh _ _ _ hdata _ _ hshort =>
    have hlen := congrArg List.length hdata
    rw [length_dataAt, List.length_take] at hlen
    rcases hshort with ⟨hq, -⟩ | ⟨-, hq⟩
    · omega
    · omega
  | headers _ _ _ hdata _ hhigh =>
    have hlen := congrArg List.length hdata
    rw [length_dataAt, List.length_take] at hlen
    omega
  | body _ _ _ hempty => omega

theorem Start.phase (hst : Start r₀ o s) : Phase o l e r₀ 0 r₀ := by
  refine Phase.fresh ⟨rfl, hst.active, hst.unfinished⟩ hst.statusOpen hst.headersOpen ?_ hst.out
    (fun _ => rfl) (Or.inl ⟨by decide, rfl⟩)
  exact List.length_eq_zero_iff.mp (by simp [hst.empty])

theorem Stands.step (hs : Script o l e) {k : Nat} (hst : Stands o l e r₀ s)
    (hclean : CleanCut o l e s k) : Stands o l e r₀ (s.readable k) := by
  -- after the end nothing more is read
  rcases hst with ⟨q, hq, hpend, hp⟩ | ⟨hfin, hsent⟩
  swap
  · rw [Pipe.readable, if_pos (Or.inl hfin)]
    exact Or.inr ⟨hfin, hsent⟩
  have hroom := hp.room hs
  have hactive := hp.frame.active
  unfold Pipe.readable
  -- no event, or a read that gets bytes or the end
  split
  · exact Or.inl ⟨q, hq, hpend, hp⟩
  · next hevent =>
    have hread : cbCgiRead s.request (s.got k) =
        if s.got k = [] then cgiFinish s.request
        else processCgiData (s.request.append (s.got k)) := by
      rw [cbCgiRead, if_neg (by simp [hactive]), if_neg (by omega)]
    rw [hread]
    by_cases hnil : s.pending = []
    · -- the end of the output
      have hgot : s.got k = [] := by simp [Pipe.got, hnil]
      have hend : q = o.length := by
        have := congrArg List.length (hpend.symm.trans hnil)
        rw [List.length_drop, List.length_nil] at this
        omega
      subst hend
      rw [if_pos hgot]
      refine Or.inr ⟨?_, finish_sent hs hp⟩
      unfold cgiFinish
      dsimp only
      split <;> rfl
    · have hbytes : s.pending.take k ≠ [] := fun h => hevent (Or.inr ⟨hnil, h⟩)
      have hgot : s.got k ≠ [] := by
        intro h
        rcases List.take_eq_nil_iff.mp h with hz | hz
        · omega
        · exact hbytes hz
      have hpre : s.got k <+: o.drop q := by
        rw [← hpend]
        exact (List.take_prefix _ _).trans (List.take_prefix _ _)
      have hlen := hpre.length_le
      have hpendlen := congrArg List.length hpend
      rw [List.length_drop] at hlen hpendlen
      rw [if_neg hgot]
      refine Or.inl ⟨q + (s.got k).length, by omega, ?_, process_phase hs hp hgot hpre hq ?_⟩
      · rw [hpend, List.drop_drop]
      · intro hopen
        have hend := hclean hopen hgot
        rwa [show o.length - (s.pending.length - (s.got k).length) = q + (s.got k).length by
          omega] at hend

/-- The whole output in one read. -/
theorem readAtOnce_sent (hs : Script o l e) (hst : Start r₀ o s) :
    Sent r₀.chunked (responseHead o l e r₀) (o.drop e) (readAtOnce r₀ o).out := by
  obtain ⟨hle, hlen⟩ := hs.bounds
  have hne : o ≠ [] := by
    rintro rfl
    simp only [List.length_nil] at hlen
    omega
  have hclean : CleanEnd o l e (0 + o.length) := by
    constructor
    · rintro - ⟨-, hlt⟩
      omega
    · rintro e' - ⟨-, h8, h8'⟩
      omega
  have hphase := process_phase hs hst.phase hne (by rw [List.drop_zero]) (Nat.zero_le _)
    fun _ => hclean
  rw [Nat.zero_add] at hphase
  exact finish_sent hs hphase

/-- If no read ends in one of the two places where `process_cgi_data` goes wrong,
the cuts do not matter: the client gets the status, the header part and the body
that it gets when the whole output is read at once. -/
theorem cgi_segmentation (hs : Script o l e) (hst : Start r₀ o s)
    (hclean : pipe.AllSteps (CleanCut o l e) s ks)
    (hdone : (pipe.run s ks).request.finished = true) :
    Sent r₀.chunked (responseHead o l e r₀) (o.drop e) (pipe.run s ks).request.out ∧
      Sent r₀.chunked (responseHead o l e r₀) (o.drop e) (readAtOnce r₀ o).out := by
  have hstart : Stands o l e r₀ s := by
    refine Or.inl ⟨0, Nat.zero_le _, ?_, ?_⟩
    · rw [hst.pending, List.drop_zero]
    · rw [hst.request]
      exact hst.phase
  have hrun : Stands o l e r₀ (pipe.run s ks) :=
    (pipe.allStates_of_allSteps (I := Stands o l e r₀) (fun _ _ h hc => h.step hs hc) hstart
      hclean).last
  refine ⟨?_, readAtOnce_sent hs hst⟩
  rcases hrun with ⟨q, -, -, hp⟩ | ⟨-, hsent⟩
  · exact absurd (hp.frame.unfinished.symm.trans hdone) (by simp)
  · exact hsent

end Run

/-- An HTTP/1.1 request, before its program has written anything. -/
def startedRequest : CgiRequest where
  inBuf := fun _ => 0
  inLen := 0
  status := 200
  active := true
  statusDone := false
  allHeadersDone := false
  chunked := true
  finished := false
  out := []

/-- A status line, a header line, the blank line and a body of one byte. -/
def notFoundOutput : Bytes := bytes "Status: 404\nA: b\n\nx"

theorem notFoundOutput_script : Script notFoundOutput 12 18 where
  line := by
    have hstatus : statusOf notFoundOutput = some 8 := by decide
    rw [hstatus]
    decide
  block := by decide
  fits := by decide

/-- Cut inside the status line, right behind it, and inside the header line. -/
theorem cgi_segmentation_cut_lines :
    Sent true [.prepare (some 404) true, .copy (bytes "A: b\n\n")] (bytes "x")
      (pipe.run ⟨startedRequest, notFoundOutput⟩ [5, 7, 2, 100, 0]).request.out :=
  (cgi_segmentation (s := ⟨startedRequest, notFoundOutput⟩) notFoundOutput_script
    ⟨rfl, rfl, rfl, rfl, rfl, rfl, rfl, rfl⟩ (by decide) (by decide)).1

/-- Cut inside the header line: the client gets the beginning of the status line
as the beginning of the header. -/
theorem cgi_segmentation_cut_header :
    Script notFoundOutput 12 18 ∧ Start startedRequest notFoundOutput ⟨startedRequest, notFoundOutput⟩ ∧
    (pipe.run ⟨startedRequest, notFoundOutput⟩ [14, 100, 0]).request.finished = true ∧
    Sent true (responseHead notFoundOutput 12 18 startedRequest) (bytes "x")
      (readAtOnce startedRequest notFoundOutput).out ∧
    ¬ Sent true (responseHead notFoundOutput 12 18 startedRequest) (bytes "x")
      (pipe.run ⟨startedRequest, notFoundOutput⟩ [14, 100, 0]).request.out := by
  have hstart : Start startedRequest notFoundOutput ⟨startedRequest, notFoundOutput⟩ :=
    ⟨rfl, rfl, rfl, rfl, rfl, rfl, rfl, rfl⟩
  refine ⟨notFoundOutput_script, hstart, by decide,
    readAtOnce_sent notFoundOutput_script hstart, ?_⟩
  rintro ⟨rest, heq, -⟩
  have hprefix : ¬ responseHead notFoundOutput 12 18 startedRequest <+:
      (pipe.run ⟨startedRequest, notFoundOutput⟩ [14, 100, 0]).request.out := by decide +kernel
  exact hprefix ⟨rest, heq.symm⟩

end SuperExe.Cgi
