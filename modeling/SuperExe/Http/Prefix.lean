import SuperExe.Http.ParserFrame

/-! # What a prefix of the bytes decides

The parser does not look behind the bytes it was given (`mkHttpParser_trim`), and
bytes behind a request change nothing (`mkHttpParser_extend`). Inside a request it
can be stopped and taken up again (`Resumes`) at the cuts that do not show
(`WellFormed.resumes_clean`), and anywhere where no proper prefix is rejected
(`WellFormed.resumes`).
-/

namespace SuperExe.Http

open SuperExe.Core SuperExe.Lib

/-! ## Bytes that have not come yet -/

/-- Forget the bytes behind the first `len`. -/
def ParserSt.trim (len : Nat) (s : ParserSt) : ParserSt := { s with buffer := s.rd len }

/-- Forget them in the state a turn leaves. -/
def trimOutcome (len : Nat) : Outcome ParserSt ParserRet → Outcome ParserSt ParserRet
  | .next s => .next (s.trim len)
  | .halt r s => .halt r (s.trim len)

section Trim

variable (len : Nat) (s : ParserSt)

theorem rd_trim : (s.trim len).rd len = s.rd len := by
  funext x
  unfold ParserSt.rd ParserSt.trim
  by_cases hx : x < len
  · simp only [hx, if_true, ParserSt.rd]
  · simp only [hx, if_false]

@[simp] theorem rd_trim_apply (x : Nat) : (s.trim len).rd len x = s.rd len x := by rw [rd_trim]

@[simp] theorem trim_p : (s.trim len).p = s.p := rfl

@[simp] theorem trim_req : (s.trim len).req = s.req := rfl

@[simp] theorem charLookup_trim (c : UInt8) : charLookup len (s.trim len) c = charLookup len s c := by
  unfold charLookup
  rw [rd_trim]
  rfl

theorem methodLookup_trim : methodLookup len (s.trim len) = methodLookup len s := by
  unfold methodLookup
  rw [rd_trim]
  rfl

theorem mkHttpParserOk_trim : mkHttpParserOk (s.trim len) = trimOutcome len (mkHttpParserOk s) := by
  unfold mkHttpParserOk
  simp only [trim_req, trim_p]
  by_cases hproto : s.req.protocol = .unknown
  · simp only [hproto, if_true]
    rfl
  · by_cases hlen : (s.req.method = .post ∨ s.req.method = .put) ∧
        (s.p.headers .contentLength).type = 0
    · simp only [hproto, hlen, and_self, if_true, if_false]
      rfl
    · simp only [hproto, hlen, if_false]
      rfl

theorem methodTurn_trim (hst : s.p.status = .reqMethod) :
    firstLine len (s.trim len) = trimOutcome len (firstLine len s) := by
  unfold firstLine
  simp only [trim_p, hst, rd_trim_apply]
  by_cases hfirst : s.p.chars = -1
  · simp only [hfirst, if_true]
    rfl
  · by_cases hsp : s.rd len s.p.i = 32
    · by_cases hshort : (markEnd s.p).end_ < 2
      · simp only [hfirst, hsp, hshort, if_true, if_false]
        rfl
      · have hmethod : methodLookup len { s.trim len with
            p := { markEnd s.p with status := .reqUri } } = _ :=
          methodLookup_trim len { s with p := { markEnd s.p with status := .reqUri } }
        simp only [hfirst, hsp, hshort, hmethod, if_true, if_false]
        rfl
    · by_cases hlong : (s.p.i : Int) - s.p.start > 10
      · simp only [hfirst, hsp, hlong, if_true, if_false]
        rfl
      · simp only [hfirst, hsp, hlong, if_false]
        rfl

theorem uriTurn_trim (hst : s.p.status = .reqUri) :
    firstLine len (s.trim len) = trimOutcome len (firstLine len s) := by
  unfold firstLine
  simp only [trim_p, hst, rd_trim_apply]
  by_cases hsp : s.rd len s.p.i = 32
  · by_cases hshort : ((markEnd s.p).end_ : Int) - (markEnd s.p).start < 1
    · simp only [hsp, hshort, if_true]
      rfl
    · simp only [hsp, hshort, if_true, if_false]
      rfl
  · by_cases hmark : s.rd len s.p.i = 63
    · simp only [hmark, if_true]
      rfl
    · by_cases heol : s.rd len s.p.i = 13 ∨ s.rd len s.p.i = 10
      · simp only [hsp, hmark, heol, if_true, if_false]
        rfl
      · simp only [hsp, hmark, heol, if_false]
        rfl

theorem queryTurn_trim (hst : s.p.status = .reqQueryString) :
    firstLine len (s.trim len) = trimOutcome len (firstLine len s) := by
  unfold firstLine
  simp only [trim_p, hst, rd_trim_apply, charLookup_trim]
  by_cases hsp : s.rd len (charLookup len s 32) = 32
  · simp only [hsp, if_true]
    rfl
  · by_cases heol : s.rd len (charLookup len s 32) = 13 ∨ s.rd len (charLookup len s 32) = 10
    · simp only [hsp, heol, if_true, if_false]
      rfl
    · simp only [hsp, heol, if_false]
      rfl

theorem firstLine_trim : firstLine len (s.trim len) = trimOutcome len (firstLine len s) := by
  cases hst : s.p.status with
  | reqMethod => exact methodTurn_trim len s hst
  | reqUri => exact uriTurn_trim len s hst
  | reqQueryString => exact queryTurn_trim len s hst
  -- the other statuses compare bytes at the cursor, which are the same
  | reqProtVersion =>
    unfold firstLine
    simp only [trim_p, hst, rd_trim_apply, trim_req]
    by_cases hfew : s.p.start + 6 ≥ s.p.i
    · simp only [hfew, if_true]
      rfl
    · by_cases hhttp : (List.range 7).map (fun k => s.rd len (s.p.start + k)) = bytes "HTTP/1."
      · simp only [hfew, hhttp, if_true, if_false]
        rfl
      · simp only [hfew, hhttp, if_false]
        rfl
  | firstContinue =>
    unfold firstLine
    simp only [trim_p, hst, rd_trim_apply]
    by_cases hcr : s.rd len s.p.i = 13
    · simp only [hcr, if_true]
      rfl
    · simp only [hcr, if_false]
      rfl
  | firstFinalizing =>
    unfold firstLine
    simp only [trim_p, hst, rd_trim_apply]
    by_cases hlf : s.rd len s.p.i = 10
    · simp only [hlf, if_true]
      rfl
    · simp only [hlf, if_false]
      rfl
  | blockEnd =>
    unfold firstLine
    simp only [trim_p, hst, rd_trim_apply]
    by_cases hlf : s.rd len s.p.i = 10
    · simp only [hlf, if_true]
      exact mkHttpParserOk_trim len s
    · simp only [hlf, if_false]
      rfl
  | _ =>
    unfold firstLine
    simp only [trim_p, hst]
    rfl

theorem headerMatch_trim : headerMatch len (s.trim len) = headerMatch len s := by
  unfold headerMatch
  rw [rd_trim]
  rfl

theorem lookupHost_trim (p : Parser) : lookupHost len (s.trim len) p = lookupHost len s p := by
  unfold lookupHost
  rw [rd_trim]

theorem lookupContentLength_trim (p : Parser) :
    lookupContentLength len (s.trim len) p = lookupContentLength len s p := by
  unfold lookupContentLength
  rw [rd_trim]

theorem lookupConnection_trim (p : Parser) :
    lookupConnection len (s.trim len) p = lookupConnection len s p := by
  unfold lookupConnection
  rw [rd_trim]

/-- Lower-casing does not bring forgotten bytes back. -/
theorem lowerBytes_trim (from_ n : Nat) :
    lowerBytes (s.rd len) from_ n = fun x => if x < len then lowerBytes s.buffer from_ n x else 0 := by
  funext x
  unfold lowerBytes ParserSt.rd
  by_cases hx : x < len
  · simp only [hx, if_true]
  · simp only [hx, if_false]
    split
    · decide
    · rfl

theorem headerLookup_trim :
    headerLookup len (s.trim len) =
      ((headerLookup len s).1.trim len, (headerLookup len s).2) := by
  unfold headerLookup
  rw [headerMatch_trim]
  simp only [lookupHost_trim, lookupContentLength_trim, lookupConnection_trim, trim_p]
  cases headerMatch len s with
  | some n => rfl
  | none =>
    by_cases hroom : s.p.headersExtra.length < headerExtraSize
    · simp only [hroom, if_true]
      simp only [ParserSt.trim, lowerBytes_trim]
      rfl
    · simp only [hroom, if_false]

theorem headerKeyTurn_trim :
    headerKeyTurn len (s.trim len) = trimOutcome len (headerKeyTurn len s) := by
  unfold headerKeyTurn
  simp only [rd_trim_apply, charLookup_trim, trim_p]
  by_cases hcr : s.rd len s.p.i = 13
  · by_cases hch : s.p.chars = 0
    · simp only [hcr, hch, if_true]
      rfl
    · simp only [hcr, hch, if_true, if_false]
      rfl
  · by_cases hch : s.p.chars = 0
    · simp only [hcr, hch, if_true, if_false]
      rfl
    · by_cases hsep : s.rd len (charLookup len s 58) = 58
      · by_cases hshort : (charLookup len s 58 : Int) - s.p.start < 1
        · simp only [hcr, hch, hsep, markEnd, hshort, if_true, if_false]
          rfl
        · simp only [hcr, hch, hsep, markEnd, hshort, if_true, if_false]
          rfl
      · simp only [hcr, hch, hsep, if_false]
        rfl

theorem headerValTurn_trim :
    headerValTurn len (s.trim len) = trimOutcome len (headerValTurn len s) := by
  have hlookup : headerLookup len { s.trim len with p := markEnd s.p } = _ :=
    headerLookup_trim len { s with p := markEnd s.p }
  obtain ⟨t, n, ht⟩ : ∃ t n, headerLookup len { s with p := markEnd s.p } = (t, n) := ⟨_, _, rfl⟩
  rw [ht] at hlookup
  unfold headerValTurn
  simp only [rd_trim_apply, trim_p, hlookup, ht]
  by_cases hcr : s.rd len s.p.i = 13
  · by_cases hshort : ((markEnd s.p).end_ : Int) - (markEnd s.p).start ≤ 0
    · simp only [hcr, hshort, if_true]
      rfl
    · by_cases hn : n = 0
      · by_cases hlf : t.p.i + 1 < len ∧ t.rd len (t.p.i + 1) = 10
        · simp only [hcr, hshort, hn, hlf, ne_eq, not_true, and_self, if_true, if_false]
          rfl
        · simp only [hcr, hshort, hn, hlf, ne_eq, not_true, if_true, if_false]
          rfl
      · by_cases hraise : n < -1
        · simp only [hcr, hshort, hn, hraise, ne_eq, not_false_eq_true, if_true, if_false]
          rfl
        · simp only [hcr, hshort, hn, hraise, ne_eq, not_false_eq_true, if_true, if_false]
          rfl
  · by_cases hlf : s.rd len s.p.i = 10 ∧ s.rd len (s.p.i - 1) ≠ 13
    · simp only [hlf, ne_eq, not_false_eq_true, and_self, if_true]
      rfl
    · simp only [hcr, hlf, if_false]
      rfl

theorem headersLevel_trim : headersLevel len (s.trim len) = trimOutcome len (headersLevel len s) := by
  unfold headersLevel
  simp only [trim_p, rd_trim_apply]
  cases s.p.status with
  | headerKey => exact headerKeyTurn_trim len s
  | headerValStarts => exact headerValTurn_trim len s
  | headerValue =>
    by_cases hend : s.rd len s.p.i = 13 ∨ s.rd len s.p.i = 10
    · simp only [hend, if_true]
      rfl
    · by_cases hsp : s.rd len s.p.i = 32
      · simp only [hsp, ne_eq, not_true, if_false]
        rfl
      · simp only [hend, hsp, ne_eq, not_false_eq_true, if_true, if_false]
        rfl
  | headerEnd =>
    by_cases hlf : s.rd len s.p.i = 10
    · simp only [hlf, if_true]
      rfl
    · simp only [hlf, if_false]
      rfl
  | _ => rfl

theorem endLevel_trim : endLevel len (s.trim len) = trimOutcome len (endLevel len s) := by
  unfold endLevel
  simp only [trim_p, rd_trim_apply]
  by_cases hlf : s.rd len s.p.i = 10
  · by_cases hbody : s.p.headerContentLength > 0
    · simp only [hlf, hbody, if_true]
      rfl
    · simp only [hlf, hbody, if_true, if_false]
      exact mkHttpParserOk_trim len s
  · simp only [hlf, if_false]
    rfl

theorem bodyLevel_trim : bodyLevel len (s.trim len) = trimOutcome len (bodyLevel len s) := by
  unfold bodyLevel
  simp only [trim_p, trim_req]
  by_cases hbody : s.p.headerContentLength > 0
  · by_cases hfew : (len : Int) - s.p.start < s.p.headerContentLength
    · simp only [hbody, hfew, if_true]
      rfl
    · simp only [hbody, hfew, if_true, if_false]
      exact mkHttpParserOk_trim len { s with
        p := { s.p with i := s.p.i + ((len : Int) - s.p.start).toNat
                        bodyReceived := (len : Int) - s.p.start }
        req := { s.req with data := { data := some s.p.start, len := (len : Int) - s.p.start } } }
  · simp only [hbody, if_false]
    exact mkHttpParserOk_trim len s

theorem parserTurn_trim : parserTurn len (s.trim len) = trimOutcome len (parserTurn len s) := by
  unfold parserTurn
  simp only [trim_p, rd_trim_apply]
  by_cases hi : s.p.i < len
  · simp only [hi, if_true]
    cases s.p.level with
    | first => exact firstLine_trim len s
    | cont =>
      by_cases hcr : s.rd len s.p.i = 13
      · simp only [hcr, if_true]
        rfl
      · simp only [hcr, if_false]
        exact headersLevel_trim len { s with p := { s.p with level := .headers,
                                                             status := .headerKey, chars := 0 } }
    | headers => exact headersLevel_trim len s
    | end_ => exact endLevel_trim len s
    | body => exact bodyLevel_trim len s
  · simp only [hi, if_false]
    rfl

/-- The parser does not look behind the bytes it was given. -/
theorem mkHttpParser_trim :
    mkHttpParser len (s.trim len) = ((mkHttpParser len s).1, (mkHttpParser len s).2.trim len) := by
  refine Loop.run_induction (M := parserLoop len) (P := fun s => mkHttpParser len (s.trim len) =
    ((mkHttpParser len s).1, (mkHttpParser len s).2.trim len)) ?_ ?_ s
  · intro s r e hb
    have hb' : parserTurn len s = .halt r e := hb
    have ht : (parserLoop len).body (s.trim len) = .halt r (e.trim len) :=
      (parserTurn_trim len s).trans (by rw [hb']; rfl)
    simp only [mkHttpParser, Loop.run_halt hb, Loop.run_halt ht]
  · intro s s' hb ih
    have hb' : parserTurn len s = .next s' := hb
    have ht : (parserLoop len).body (s.trim len) = .next (s'.trim len) :=
      (parserTurn_trim len s).trans (by rw [hb']; rfl)
    simp only [mkHttpParser] at ih ⊢
    rw [Loop.run_next hb, Loop.run_next ht, ih]

end Trim

/-- What a call does depends on the bytes it is given only. -/
theorem mkHttpParser_congr {L : Nat} {s t : ParserSt} (h : s.trim L = t.trim L) :
    (mkHttpParser L s).1 = (mkHttpParser L t).1 ∧
      (mkHttpParser L s).2.trim L = (mkHttpParser L t).2.trim L := by
  have hs := mkHttpParser_trim L s
  have ht := mkHttpParser_trim L t
  rw [h, ht] at hs
  obtain ⟨hret, hst⟩ := Prod.mk.inj hs
  exact ⟨hret.symm, hst.symm⟩

/-! ## One byte more -/

/-- No scan runs past a byte it does not accept. -/
theorem skipWhile_le {f : UInt8 → Bool} {rd : Nat → UInt8} {n pos y : Nat} (hy : f (rd y) = false)
    (hpos : pos ≤ y) (hn : y < pos + n) : skipWhile f rd n pos ≤ y := by
  induction n generalizing pos with
  | zero => omega
  | succ n ih =>
    unfold skipWhile
    by_cases hf : f (rd pos) = true
    · rw [if_pos hf]
      have hne : pos ≠ y := by
        rintro rfl
        rw [hy] at hf
        cases hf
      exact ih (by omega) (by omega)
    · rw [if_neg hf]
      exact hpos

/-- A number that is looked for up to the end of the bytes, whose last is no digit,
has no digit. -/
theorem strtol_empty {rd : Nat → UInt8} {y pos : Nat} (hdig : isDigit (rd y) = false)
    (hstop : y + 1 ≤ strtolStop rd (y + 1) pos) : (strtol rd (y + 1) pos).endptr = pos := by
  have hq : y + 1 ≤ strtolDigits rd (y + 1) pos := by
    by_contra hlt
    have hle : skipWhile isDigit rd (y + 1 - strtolDigits rd (y + 1) pos)
        (strtolDigits rd (y + 1) pos) ≤ y := skipWhile_le hdig (by omega) (by omega)
    have hstop' : y + 1 ≤ skipWhile isDigit rd (y + 1 - strtolDigits rd (y + 1) pos)
      (strtolDigits rd (y + 1) pos) := hstop
    omega
  have heq : strtolStop rd (y + 1) pos = strtolDigits rd (y + 1) pos := by
    have hzero : y + 1 - strtolDigits rd (y + 1) pos = 0 := by omega
    simp only [strtolStop, hzero, skipWhile]
  simp only [strtol, heq, if_true]

section OneByte

variable {l : Nat} {s : ParserSt}

/-- In bytes that do not end with a digit, the CR of a `Content-Length` row whose
number would reach their end is an error. -/
theorem numberless_error (hi : s.p.i < l + 1) (hlev : s.p.level = .headers)
    (hst : s.p.status = .headerValStarts) (hcr : s.rd (l + 1) s.p.i = 13)
    (hlast : isDigit (s.rd (l + 1) l) = false)
    (hmatch : headerMatch (l + 1) { s with p := markEnd s.p } = some .contentLength)
    (hstop : l + 1 ≤ strtolStop (s.rd (l + 1)) (l + 1) s.p.headerVal.toNat) :
    ∃ e, parserTurn (l + 1) s = .halt .error e := by
  have hend := strtol_empty hlast hstop
  -- the number is empty, so the look-up refuses the row
  have hlookup : (headerLookup (l + 1) { s with p := markEnd s.p }).2 ≠ 0 := by
    unfold headerLookup
    rw [hmatch]
    have hne : HeaderName.contentLength ≠ HeaderName.host := by decide
    have hval : (registerHeader (markEnd s.p) .contentLength).headerVal = s.p.headerVal := rfl
    have hrd : ParserSt.rd (l + 1) { s with p := markEnd s.p } = s.rd (l + 1) := rfl
    simp only [hne, if_true, if_false, lookupContentLength, hval, hrd, hend]
    split
    · exact (by decide : -clientRequestEntityTooLarge ≠ 0)
    · exact (by decide : (-1 : Int) ≠ 0)
  simp only [parserTurn, hi, hlev, headersLevel, hst, headerValTurn, hcr, hlookup, ne_eq,
    not_false_eq_true, if_true]
  split
  · exact ⟨_, rfl⟩
  · exact ⟨_, rfl⟩

/-- A call with one byte more than the cursor has seen scans no number past its
end, unless it is rejected. -/
theorem along_oneByte (hi : l ≤ s.p.i ∨ s.p.level = .body)
    (hok : (mkHttpParser (l + 1) s).1 ≠ .error) :
    (parserLoop (l + 1)).Along (ScanInside (l + 1)) s := by
  -- past the last byte there is no CR to end a row
  have hpast : ∀ t : ParserSt, l + 1 ≤ t.p.i → ScanInside (l + 1) t := by
    intro t ht _ _ hcr
    have hin := (rd_received (l + 1) t t.p.i (by decide) hcr).2
    omega
  refine Loop.Along.intro ?_ ?_
  · intro hlev hst hcr hmatch
    have hin := (rd_received (l + 1) s s.p.i (by decide) hcr).2
    have hi' : s.p.i = l := by
      rcases hi with hi | hbody
      · omega
      · rw [hlev] at hbody
        cases hbody
    by_contra hstop
    have hlast : isDigit (s.rd (l + 1) l) = false := by
      rw [hi'] at hcr
      rw [hcr]
      decide
    obtain ⟨e, he⟩ := numberless_error (by omega) hlev hst hcr hlast hmatch (by omega)
    rw [mkHttpParser, Loop.run_halt (M := parserLoop (l + 1)) he] at hok
    exact hok rfl
  · intro t hb
    have hturn : parserTurn (l + 1) s = .next t := hb
    have hmove := (parserTurn_next hturn).2
    have hpass : l + 1 ≤ t.p.i := by
      rcases hi with hi | hbody
      · omega
      · -- the body level never goes on
        have hin := (parserTurn_next hturn).1
        obtain ⟨r, e, hhalt⟩ := bodyLevel_halt (l + 1) s
        simp only [parserTurn, hin, hbody, if_true] at hturn
        rw [hhalt] at hturn
        cases hturn
    refine Loop.Along.intro (hpast t hpass) ?_
    intro t' hb'
    have hin := (parserTurn_next (show parserTurn (l + 1) t = .next t' from hb')).1
    omega

end OneByte

/-! ## Stopping anywhere -/

/-- No byte below `A` is added or removed by a call. -/
theorem mkHttpParser_control (len : Nat) (s : ParserSt) (x : Nat) {d : UInt8} (hd : d < 65) :
    (mkHttpParser len s).2.buffer x = d ↔ s.buffer x = d := by
  refine Loop.run_invariant (M := parserLoop len) (I := fun t => t.buffer x = d ↔ s.buffer x = d)
    (Q := fun _ t => t.buffer x = d ↔ s.buffer x = d) ?_ ?_ Iff.rfl
  · intro t t' ht hb
    have hturn := parserTurn_control len t x hd
    rw [show parserTurn len t = .next t' from hb] at hturn
    exact hturn.trans ht
  · intro t r t' ht hb
    have hturn := parserTurn_control len t x hd
    rw [show parserTurn len t = .halt r t' from hb] at hturn
    exact hturn.trans ht

section Stop

variable {s : ParserSt} {n : Nat} (hplaced : Placed s.p)
  (hpend : ∀ l < n, (mkHttpParser l s).1 = .pending) (hlast : s.buffer (n - 1) ≠ 13)
include hplaced hpend hlast

omit hplaced hlast in
/-- The state after the first `l` bytes. -/
theorem pending_state {l : Nat} (hl : l < n) :
    mkHttpParser l s = (.pending, (mkHttpParser l s).2) := by
  rw [← hpend l hl]

/-- A call on the first `l` bytes can be taken up again. By induction on `l`:
from the state after `l` bytes, one byte more is one turn more. -/
theorem mkHttpParser_stop {l L : Nat} (hl : l < n) (hL : l ≤ L) :
    mkHttpParser L s = mkHttpParser L (mkHttpParser l s).2 := by
  induction l generalizing L with
  | zero =>
    have hzero : mkHttpParser 0 s = (.pending, s) :=
      Loop.run_halt (M := parserLoop 0) (by simp [parserLoop, parserTurn])
    rw [hzero]
  | succ l ih =>
    have ih' := fun {L} => ih (L := L) (by omega)
    -- the two states, and the run between them
    have he : mkHttpParser (l + 1) (mkHttpParser l s).2 = (.pending, (mkHttpParser (l + 1) s).2) := by
      rw [← ih' (by omega)]
      exact pending_state hpend hl
    obtain ⟨hp, hi⟩ := mkHttpParser_pending hplaced (pending_state hpend (l := l) (by omega))
    have halong := along_oneByte hi (by rw [he]; exact (by decide : ParserRet.pending ≠ .error))
    have hresume : ∀ L, l + 1 ≤ L → ¬ CutsKey (l + 1) L (mkHttpParser (l + 1) s).2 →
        mkHttpParser L s = mkHttpParser L (mkHttpParser (l + 1) s).2 := by
      intro L hL hkey
      rw [ih' (by omega)]
      exact mkHttpParser_resume hL hp halong he hkey
    refine hresume L hL ?_
    intro hkey
    have hcr : (mkHttpParser (l + 1) s).2.rd L (l + 1) = 13 := hkey.2.2.2.2.1
    obtain ⟨hcr', hlt⟩ := rd_received L _ _ (by decide) hcr
    have hbyte : s.buffer (l + 1) = 13 :=
      (mkHttpParser_control (l + 1) s (l + 1) (by decide)).mp hcr'
    by_cases hn : l + 2 < n
    · -- with the CR but without the colon, the request would be rejected
      have herr : mkHttpParser (l + 2) _ = _ := cutsKey_error (by omega) (by omega) hkey
      have hnokey : ¬ CutsKey (l + 1) (l + 2) (mkHttpParser (l + 1) s).2 := by
        rintro ⟨-, -, -, -, hcr2, hcolon⟩
        apply hcolon
        have hone : l + 2 - (l + 1) = 1 := by omega
        simp [hone, findByte, hcr2]
      have hsame := hresume (l + 2) (by omega) hnokey
      have hwait := hpend (l + 2) hn
      rw [hsame, herr] at hwait
      cases hwait
    · have hend : n - 1 = l + 1 := by omega
      exact hlast (hend ▸ hbyte)

end Stop

/-! ## Bytes behind a request -/

section Extend

variable {n L : Nat} {s e : ParserSt}

/-- The turn that accepts a request without a body leaves the state alone. -/
theorem parserTurn_ok_state {t e : ParserSt} {l : Nat} (h : parserTurn l t = .halt .ok e)
    (hcl : e.p.headerContentLength ≤ 0) : e = t := by
  unfold parserTurn at h
  split at h
  · split at h
    · exact firstLine_ok h
    · split at h
      · cases h
      · exact (headersLevel_not_ok h).elim
    · exact (headersLevel_not_ok h).elim
    · unfold endLevel at h
      repeat' split at h
      · cases h
      · exact mkHttpParserOk_ok h
      · cases h
    · by_cases hpos : 0 < t.p.headerContentLength
      · rw [(bodyLevel_ok h hpos).2] at hcl
        exact absurd hcl (by simp only; omega)
      · unfold bodyLevel at h
        rw [if_neg hpos] at h
        exact mkHttpParserOk_ok h
  · cases h

/-- The turn that accepts a request without a body only looks at the LF under
the cursor. -/
theorem parserTurn_ok_grow {t e : ParserSt} {l L : Nat} (hL : l ≤ L)
    (h : parserTurn l t = .halt .ok e) (hcl : e.p.headerContentLength ≤ 0) :
    parserTurn L t = .halt .ok e := by
  unfold parserTurn at h
  split at h
  · next hi =>
    have hiL : t.p.i < L := by omega
    have hrd : t.rd L t.p.i = t.rd l t.p.i := rd_grow hL hi
    cases hlev : t.p.level with
    | first =>
      simp only [hlev] at h
      simp only [parserTurn, hiL, hlev, if_true]
      -- the query string looks ahead, but does not accept
      have hquery : t.p.status ≠ .reqQueryString := by
        intro hst
        simp only [firstLine, hst] at h
        repeat' split at h
        all_goals cases h
      rw [firstLine_grow hL hi hquery]
      exact h
    | cont =>
      simp only [hlev] at h
      split at h
      · cases h
      · exact (headersLevel_not_ok h).elim
    | headers =>
      simp only [hlev] at h
      exact (headersLevel_not_ok h).elim
    | end_ =>
      simp only [hlev, endLevel] at h
      simp only [parserTurn, hiL, hlev, if_true, endLevel, hrd]
      exact h
    | body =>
      simp only [hlev] at h
      simp only [parserTurn, hiL, hlev, if_true]
      by_cases hpos : 0 < t.p.headerContentLength
      · rw [(bodyLevel_ok h hpos).2] at hcl
        exact absurd hcl (by simp only; omega)
      · unfold bodyLevel at h ⊢
        rw [if_neg hpos] at h ⊢
        exact h
  · cases h

/-- No number of an accepted call reaches the LF at the end of the bytes. -/
theorem scanInside_of_next {s' : ParserSt} (hlf : s.buffer (n - 1) = 10)
    (hb : parserTurn n s = .next s') : ScanInside n s := by
  intro hlev hst hcr hmatch
  obtain ⟨l, rfl⟩ : ∃ l, n = l + 1 := ⟨n - 1, by have := (parserTurn_next hb).1; omega⟩
  by_contra hstop
  have hlast : isDigit (s.rd (l + 1) l) = false := by
    have hbyte : s.rd (l + 1) l = 10 := by simpa [ParserSt.rd] using hlf
    rw [hbyte]
    decide
  obtain ⟨t, ht⟩ := numberless_error (parserTurn_next hb).1 hlev hst hcr hlast hmatch (by omega)
  rw [hb] at ht
  cases ht

/-- Bytes behind a request change nothing. By induction along the call on the request:
the call with the bytes behind it replays every turn. -/
theorem mkHttpParser_extend (hL : n ≤ L) (h : Placed s.p) (hlf : s.buffer (n - 1) = 10)
    (hrun : mkHttpParser n s = (.ok, e)) (hcl : e.p.headerContentLength ≤ 0) :
    mkHttpParser L s = (.ok, e) := by
  revert h hlf hrun
  refine Loop.run_induction (M := parserLoop n) (P := fun s => Placed s.p →
    s.buffer (n - 1) = 10 → mkHttpParser n s = (.ok, e) → mkHttpParser L s = (.ok, e)) ?_ ?_ s
  · intro s r s' hb h hlf hrun
    have hend : mkHttpParser n s = (r, s') := Loop.run_halt hb
    rw [hend] at hrun
    cases hrun
    exact Loop.run_halt (M := parserLoop L) (parserTurn_ok_grow hL hb hcl)
  · intro s s' hb ih h hlf hrun
    have hb' : parserTurn n s = .next s' := hb
    have hrun' : mkHttpParser n s' = (.ok, e) := (Loop.run_next hb).symm.trans hrun
    have hskip : s.p.level = .headers → s' = skipByte s → ¬ SkipsCr n L s := by
      rintro hlev rfl hcr
      rcases skipsCr_run (parserTurn_next hb').1 hL hlev hcr with herr | ⟨-, hwait⟩
      · rw [herr] at hrun'
        cases hrun'
      · rw [hwait] at hrun'
        cases hrun'
    have hplaced : Placed s'.p := by
      have hturn := placed_parserTurn n h
      rwa [hb'] at hturn
    have hlf' : s'.buffer (n - 1) = 10 := by
      have hturn := parserTurn_control n s (n - 1) (d := 10) (by decide)
      rw [hb'] at hturn
      exact hturn.mpr hlf
    have hrest := ih hplaced hlf' hrun'
    rcases parserTurn_replay hL h (scanInside_of_next hlf hb') hb' hskip with heq | heq
    · exact (Loop.run_next (M := parserLoop L) heq).trans hrest
    · exact (Loop.run_congr (M := parserLoop L) heq).trans hrest

end Extend

/-! ## Behind the cursor -/

/-- Only bytes of the key are lower-cased; the byte under the cursor is the CR of
the row. -/
theorem headerLookup_behind (len : Nat) {s : ParserSt} (h : Placed s.p) {x : Nat} (hx : s.p.i ≤ x)
    (hcr : s.rd len s.p.i = 13) :
    (headerLookup len { s with p := markEnd s.p }).1.buffer x = s.buffer x := by
  have hbyte := (rd_received len s _ (by decide) hcr).1
  obtain ⟨-, -, hkey, -, hsep, -⟩ := h
  unfold headerLookup
  split
  · rfl
  · simp only
    split
    · by_cases hin : s.p.headerKey.toNat ≤ x ∧
          x < s.p.headerKey.toNat + (s.p.headerSep - s.p.headerKey).toNat
      · -- the key can reach up to the CR, which has no lower case
        have hi : x = s.p.i := by omega
        simp only [lowerBytes, markEnd, hin, and_self, if_true]
        rw [hi, hbyte]
        decide
      · simp only [lowerBytes, markEnd, hin, if_false]
    · rfl

/-- A turn leaves the bytes from the cursor on alone. -/
theorem parserTurn_behind (len : Nat) {s : ParserSt} (h : Placed s.p) {x : Nat} (hx : s.p.i ≤ x) :
    (parserTurn len s).state.buffer x = s.buffer x := by
  have hlookup := headerLookup_behind len h hx
  unfold parserTurn endLevel bodyLevel firstLine headersLevel headerKeyTurn headerValTurn
    mkHttpParserOk
  simp only
  repeat' split
  all_goals first
    | rfl
    | exact hlookup (by assumption)

/-- What stands behind an accepted request without a body is as it came. -/
theorem mkHttpParser_behind {len : Nat} {s e : ParserSt} (h : Placed s.p)
    (hrun : mkHttpParser len s = (.ok, e)) (hcl : e.p.headerContentLength ≤ 0) {x : Nat}
    (hx : e.p.i ≤ x) : e.buffer x = s.buffer x := by
  have hinv := Loop.run_invariant (M := parserLoop len)
    (I := fun t => Placed t.p ∧ ∀ x, t.p.i ≤ x → t.buffer x = s.buffer x)
    (Q := fun r e => r = .ok → e.p.headerContentLength ≤ 0 →
      ∀ x, e.p.i ≤ x → e.buffer x = s.buffer x) ?_ ?_ ⟨h, fun x _ => rfl⟩
  · rw [show (parserLoop len).run s = (.ok, e) from hrun] at hinv
    exact hinv rfl hcl x hx
  · rintro t t' ⟨hp, hbuf⟩ hb
    have hb' : parserTurn len t = .next t' := hb
    have hmove := (parserTurn_next hb').2
    have hp' := placed_parserTurn len hp
    rw [hb'] at hp'
    refine ⟨hp', fun x hx => ?_⟩
    have hturn := parserTurn_behind len hp (x := x) (by omega)
    rw [hb'] at hturn
    exact hturn.trans (hbuf x (by omega))
  · rintro t r e ⟨hp, hbuf⟩ hb rfl hcl x hx
    have hb' : parserTurn len t = .halt .ok e := hb
    have hsame : e = t := parserTurn_ok_state hb' hcl
    subst hsame
    exact hbuf x hx

/-- A call leaves the bytes alone that have not come yet. -/
theorem mkHttpParser_ahead {len : Nat} {s : ParserSt} (h : Placed s.p) {x : Nat} (hx : len ≤ x) :
    (mkHttpParser len s).2.buffer x = s.buffer x := by
  refine Loop.run_invariant (M := parserLoop len)
    (I := fun t => Placed t.p ∧ t.buffer x = s.buffer x)
    (Q := fun _ e => e.buffer x = s.buffer x) ?_ ?_ ⟨h, rfl⟩
  · rintro t t' ⟨hp, hbuf⟩ hb
    have hb' : parserTurn len t = .next t' := hb
    have hmove := (parserTurn_next hb').1
    have hp' := placed_parserTurn len hp
    have hturn := parserTurn_behind len hp (x := x) (by omega)
    rw [hb'] at hp' hturn
    exact ⟨hp', hturn.trans hbuf⟩
  · rintro t r e ⟨hp, hbuf⟩ hb
    have hb' : parserTurn len t = .halt r e := hb
    by_cases hi : t.p.i < len
    · have hturn := parserTurn_behind len hp (x := x) (by omega)
      rw [hb'] at hturn
      exact hturn.trans hbuf
    · simp only [parserTurn, hi, if_false] at hb'
      cases hb'
      exact hbuf

/-! ## Errors the parser raises -/

theorem raised_headersLevel (len : Nat) (s : ParserSt) :
    Leaves (fun t => t.raised = s.raised) (headersLevel len s) := by
  have hlookup : (headerLookup len { s with p := markEnd s.p }).1.raised = s.raised := by
    unfold headerLookup
    split
    · rfl
    · simp only
      split <;> rfl
  unfold headersLevel headerKeyTurn headerValTurn
  simp only
  repeat' split
  all_goals trivial

theorem raised_parserTurn (len : Nat) (s : ParserSt) :
    Leaves (fun t => t.raised = s.raised) (parserTurn len s) := by
  have hok := leaves_mkHttpParserOk (fun t => t.raised = s.raised)
  unfold parserTurn firstLine endLevel bodyLevel
  simp only
  repeat' split
  all_goals first
    | trivial
    | rfl
    | exact hok _
    | exact raised_headersLevel len _

/-- Only a request that is refused raises an error. -/
theorem mkHttpParser_raised {len : Nat} {s : ParserSt} (hpend : (mkHttpParser len s).1 = .pending) :
    (mkHttpParser len s).2.raised = s.raised := by
  refine Loop.run_invariant (M := parserLoop len) (I := fun t => t.raised = s.raised)
    (Q := fun r e => r = .pending → e.raised = s.raised) ?_ ?_ rfl hpend
  · rintro t t' ht hb
    have hturn := raised_parserTurn len t
    rw [show parserTurn len t = .next t' from hb] at hturn
    exact hturn.trans ht
  · rintro t r e ht hb rfl
    have hturn := raised_parserTurn len t
    rw [show parserTurn len t = .halt .pending e from hb] at hturn
    exact hturn.trans ht

/-! ## The last byte -/

/-- The body level is entered with a length. -/
def BodyDeclared (s : ParserSt) : Prop := s.p.level = .body → 0 < s.p.headerContentLength

theorem bodyDeclared_headersLevel (len : Nat) {s : ParserSt} (h : s.p.level = .headers) :
    Leaves BodyDeclared (headersLevel len s) := by
  have hlookup : (headerLookup len { s with p := markEnd s.p }).1.p.level ≠ .body := by
    obtain ⟨_, _, _, _, _, _, _, hp⟩ := headerLookup_p len { s with p := markEnd s.p }
    rw [hp]
    simp [markEnd, h]
  unfold headersLevel headerKeyTurn headerValTurn
  simp only
  repeat' split
  all_goals first
    | trivial
    | exact fun hbody => absurd hbody hlookup
    | (intro hbody
       simp [markEnd, h] at hbody)

theorem bodyDeclared_parserTurn (len : Nat) {s : ParserSt} (h : BodyDeclared s) :
    Leaves BodyDeclared (parserTurn len s) := by
  have hok := leaves_mkHttpParserOk BodyDeclared
  unfold parserTurn
  split
  · split
    · next hl =>
      unfold firstLine
      simp only
      repeat' split
      all_goals first
        | trivial
        | exact hok s
        | (intro hbody
           simp_all)
    · split
      · intro hbody
        simp at hbody
      · exact bodyDeclared_headersLevel len rfl
    · next hl => exact bodyDeclared_headersLevel len hl
    · unfold endLevel
      repeat' split
      · next hcl => exact fun _ => hcl
      · exact hok s
      · trivial
    · unfold bodyLevel
      simp only
      repeat' split
      all_goals first
        | exact h
        | exact hok _
  · exact h

/-- A request without a body is accepted on an LF. -/
theorem parserTurn_ok_lf {len : Nat} {t e : ParserSt} (hbody : BodyDeclared t)
    (h : parserTurn len t = .halt .ok e) (hcl : e.p.headerContentLength ≤ 0) :
    t.rd len t.p.i = 10 := by
  have hsame := parserTurn_ok_state h hcl
  subst hsame
  unfold parserTurn at h
  split at h
  · split at h
    · unfold firstLine at h
      simp only at h
      repeat' split at h
      all_goals first
        | cases h
        | assumption
    · split at h
      · cases h
      · exact (headersLevel_not_ok h).elim
    · exact (headersLevel_not_ok h).elim
    · unfold endLevel at h
      split at h
      · assumption
      · cases h
    · next hl => exact absurd (hbody hl) (by omega)
  · cases h

theorem mkHttpParser_ok_lf {len : Nat} {s e : ParserSt} (h : BodyDeclared s)
    (hrun : mkHttpParser len s = (.ok, e)) (hcl : e.p.headerContentLength ≤ 0) :
    e.buffer e.p.i = 10 := by
  have hinv := Loop.run_invariant (M := parserLoop len) (I := BodyDeclared)
    (Q := fun r e => r = .ok → e.p.headerContentLength ≤ 0 → e.buffer e.p.i = 10) ?_ ?_ h
  · rw [show (parserLoop len).run s = (.ok, e) from hrun] at hinv
    exact hinv rfl hcl
  · intro t t' ht hb
    have hturn := bodyDeclared_parserTurn len ht
    rwa [show parserTurn len t = .next t' from hb] at hturn
  · rintro t r e ht hb rfl hcl
    have hb' : parserTurn len t = .halt .ok e := hb
    have hlf := parserTurn_ok_lf ht hb' hcl
    rw [parserTurn_ok_state hb' hcl]
    exact (rd_received len t _ (by decide) hlf).1

/-! ## Requests in a stream -/

/-- The parser on a request and nothing else. -/
def alone (r : Bytes) : ParserRet × ParserSt :=
  mkHttpParser r.length (parserFresh parsedRequestZero r)

/-- A request that is accepted on its own, of HTTP/1.1, without a body and not
asking for the connection to be closed. -/
structure WellFormed (r : Bytes) : Prop where
  accepted : (alone r).1 = .ok
  whole : (alone r).2.p.i + 1 = r.length
  version : (alone r).2.req.protocol = .v11
  noBody : (alone r).2.p.headerContentLength ≤ 0
  keepAlive : (alone r).2.p.headerConnection ≠ .close

/-- The parser has read this request and nothing else. -/
structure Accepted (r : Bytes) (e : ParserSt) : Prop where
  parser : e.p = (alone r).2.p
  method : e.req.method = (alone r).2.req.method
  uri : e.req.uri = (alone r).2.req.uri
  protocol : e.req.protocol = (alone r).2.req.protocol
  text : ∀ x < r.length, e.buffer x = (alone r).2.buffer x

/-- The parser waits on every proper prefix of the request. -/
def Growing (r : Bytes) : Prop :=
  ∀ l < r.length, (mkHttpParser l (parserFresh parsedRequestZero r)).1 = .pending

section Stream

variable {r : Bytes} (rest : Bytes) {q : ParsedRequest} (hm : q.method = .unknown)
  (hp : q.protocol = .unknown)

/-- What follows the request is not among its first bytes. -/
theorem trim_stream {l : Nat} (hl : l ≤ r.length) :
    (parserFresh parsedRequestZero (r ++ rest)).trim l = (parserFresh parsedRequestZero r).trim l := by
  have hrd : (parserFresh parsedRequestZero (r ++ rest)).rd l =
      (parserFresh parsedRequestZero r).rd l := by
    funext x
    unfold ParserSt.rd
    by_cases hx : x < l
    · have hxr : x < r.length := by omega
      simp only [hx, if_true, parserFresh, cstr, List.getD_eq_getElem?_getD,
        List.getElem?_append_left hxr]
    · simp only [hx, if_false]
  simp only [ParserSt.trim, hrd]
  rfl

include hm hp

/-- Neither the old record nor the bytes behind the first `l` matter. -/
theorem mkHttpParser_stream {l : Nat} (hl : l ≤ r.length) :
    let e := mkHttpParser l (parserFresh q (r ++ rest))
    let e' := mkHttpParser l (parserFresh parsedRequestZero r)
    e.1 = e'.1 ∧ e.2.p = e'.2.p ∧ e.2.req.method = e'.2.req.method ∧
      (e'.1 = .ok → e.2.req.uri = e'.2.req.uri) ∧ e.2.req.protocol = e'.2.req.protocol ∧
      ∀ x < l, e.2.buffer x = e'.2.buffer x := by
  intro e e'
  have htrim := trim_stream rest hl
  have hrun : mkHttpParser l (parserFresh parsedRequestZero (r ++ rest)) =
      (e'.1, (mkHttpParser l (parserFresh parsedRequestZero (r ++ rest))).2) ∧
      (mkHttpParser l (parserFresh parsedRequestZero (r ++ rest))).2.trim l = e'.2.trim l := by
    have h1 := mkHttpParser_trim l (parserFresh parsedRequestZero (r ++ rest))
    have h2 := mkHttpParser_trim l (parserFresh parsedRequestZero r)
    rw [htrim, h2] at h1
    obtain ⟨h3, h4⟩ := Prod.mk.inj h1
    exact ⟨Prod.ext h3.symm rfl, h4.symm⟩
  -- the old record is not read: take the zero record in its place
  obtain ⟨ret, c, hover, -, hfilled⟩ := mkHttpParser_over l (frameInv_fresh (r ++ rest))
  have hq : mkHttpParser l (parserFresh q (r ++ rest)) = (ret, c.over q) := by
    have hsame : (parserCoreFresh (r ++ rest)).over q = parserFresh q (r ++ rest) := by
      obtain ⟨method, methodP, uri, queryString, protocol, protocolP, data⟩ := q
      subst hm hp
      rfl
    rw [← hsame]
    exact hover q
  have hzero : mkHttpParser l (parserFresh parsedRequestZero (r ++ rest)) =
      (ret, c.over parsedRequestZero) := hover parsedRequestZero
  rw [hzero] at hrun
  obtain ⟨hret, htr⟩ := hrun
  have he : e = (ret, c.over q) := hq
  rw [he]
  have hsame : ret = e'.1 := (Prod.mk.inj hret).1
  refine ⟨hsame, ?_, ?_, ?_, ?_, ?_⟩
  · have hpar := congrArg ParserSt.p htr
    exact hpar
  · have hmethod := congrArg (fun t => t.req.method) htr
    exact hmethod
  · intro hok
    -- an accepted request has assigned its URI, so the old one does not show
    have hassigned := (hfilled (hsame.trans hok)).uri
    obtain ⟨uri, huri⟩ := Option.isSome_iff_exists.mp hassigned
    have hset := congrArg (fun t => t.req.uri) htr
    simp only [ParserSt.trim, ParserCore.over, Patch.over, huri, Option.getD_some] at hset ⊢
    exact hset
  · have hproto := congrArg (fun t => t.req.protocol) htr
    exact hproto
  · intro x hx
    have hbuf := congrArg (fun t => t.buffer x) htr
    simp only [ParserSt.trim, ParserSt.rd, hx, if_true] at hbuf
    exact hbuf

omit hm hp in
/-- The last byte is the LF the parser has accepted on. -/
theorem WellFormed.lf (h : WellFormed r) : cstr (r ++ rest) (r.length - 1) = 10 := by
  have hrun : mkHttpParser r.length (parserFresh parsedRequestZero r) = (.ok, (alone r).2) :=
    Prod.ext h.accepted rfl
  have hpos := h.whole
  have hi : (alone r).2.p.i = r.length - 1 := by omega
  have hlf := mkHttpParser_ok_lf (s := parserFresh parsedRequestZero r) (by intro hb; cases hb)
    hrun h.noBody
  rw [mkHttpParser_behind placed_init hrun h.noBody (Nat.le_refl _), hi] at hlf
  have hin : r.length - 1 < r.length := by omega
  simpa only [parserFresh, cstr, List.getD_eq_getElem?_getD, List.getElem?_append_left hin] using hlf

/-- A whole request in a stream is accepted, and what follows it is left alone. -/
theorem WellFormed.in_stream (h : WellFormed r) {L : Nat} (hL : r.length ≤ L) :
    ∃ e, mkHttpParser L (parserFresh q (r ++ rest)) = (.ok, e) ∧ Accepted r e ∧
      ∀ x, r.length ≤ x → e.buffer x = cstr (r ++ rest) x := by
  obtain ⟨hret, hpar, hmethod, huri, hproto, hbuf⟩ :=
    mkHttpParser_stream rest hm hp (Nat.le_refl r.length)
  obtain ⟨e, he⟩ : ∃ e, mkHttpParser r.length (parserFresh q (r ++ rest)) = (.ok, e) :=
    ⟨_, Prod.ext (hret.trans h.accepted) rfl⟩
  rw [he] at hpar hmethod huri hproto hbuf
  have hcl : e.p.headerContentLength ≤ 0 := by
    rw [hpar]
    exact h.noBody
  have hi : e.p.i + 1 = r.length := by
    rw [hpar]
    exact h.whole
  exact ⟨e, mkHttpParser_extend hL placed_init (h.lf rest) he hcl,
    ⟨hpar, hmethod, huri h.accepted, hproto, hbuf⟩,
    fun x hx => mkHttpParser_behind placed_init he hcl (by omega)⟩

omit hm hp in
theorem scanInside_trim (l : Nat) (s : ParserSt) : ScanInside l (s.trim l) ↔ ScanInside l s := by
  have hmatch := headerMatch_trim l { s with p := markEnd s.p }
  unfold ScanInside
  rw [rd_trim]
  exact Iff.of_eq (congrArg (fun m => s.p.level = .headers → s.p.status = .headerValStarts →
    s.rd l s.p.i = 13 → m = some HeaderName.contentLength →
    strtolStop (s.rd l) l s.p.headerVal.toNat < l) hmatch)

/-- The scans of a call on the first bytes of a request are the same in a stream. -/
theorem along_stream {l : Nat} (hl : l ≤ r.length)
    (h : (parserLoop l).Along (ScanInside l) (parserFresh parsedRequestZero r)) :
    (parserLoop l).Along (ScanInside l) (parserFresh q (r ++ rest)) := by
  refine h.related (R := fun s t => ∃ c, FrameInv (r ++ rest) c ∧ t = c.over q ∧
    s.trim l = (c.over parsedRequestZero).trim l) ?_ ?_ ⟨_, frameInv_fresh (r ++ rest), ?_, ?_⟩
  · rintro s t ⟨c, -, rfl, htrim⟩ hin
    rw [← scanInside_trim, htrim, scanInside_trim] at hin
    exact hin
  · rintro s t t' ⟨c, hinv, rfl, htrim⟩ hb
    obtain ⟨o, ho, hk⟩ := parserTurn_keeps l hinv
    have hq : overOutcome q o = .next t' := (ho q).symm.trans hb
    cases o with
    | halt r e => simp [overOutcome] at hq
    | next c' =>
      have hs : trimOutcome l (parserTurn l s) =
          .next ((c'.over parsedRequestZero).trim l) := by
        rw [← parserTurn_trim, htrim, parserTurn_trim, ho]
        rfl
      cases hturn : parserTurn l s with
      | halt r e => simp [hturn, trimOutcome] at hs
      | next s' =>
        rw [hturn] at hs
        exact ⟨s', hturn, c', (frameInv_turn hinv ho hk).1 c' rfl,
          (Outcome.next.inj hq).symm, Outcome.next.inj hs⟩
  · obtain ⟨method, methodP, uri, queryString, protocol, protocolP, data⟩ := q
    subst hm hp
    rfl
  · exact (trim_stream rest hl).symm

/-- So is a key it has stopped in, with what stands behind it in the request. -/
theorem cutsKey_stream {l : Nat} (hl : l ≤ r.length)
    (h : CutsKey l r.length (mkHttpParser l (parserFresh q (r ++ rest))).2) :
    CutsKey l r.length (mkHttpParser l (parserFresh parsedRequestZero r)).2 := by
  obtain ⟨-, hpar, -, -, -, -⟩ := mkHttpParser_stream rest hm hp hl
  -- neither call has touched the bytes that are ahead of it
  have hrd : ∀ x, l ≤ x → (mkHttpParser l (parserFresh q (r ++ rest))).2.rd r.length x =
      (mkHttpParser l (parserFresh parsedRequestZero r)).2.rd r.length x := by
    intro x hx
    unfold ParserSt.rd
    split
    · next hxr =>
      rw [mkHttpParser_ahead placed_init hx, mkHttpParser_ahead placed_init hx]
      simp only [parserFresh, cstr, List.getD_eq_getElem?_getD, List.getElem?_append_left hxr]
    · rfl
  obtain ⟨hlev, hst, hch, hi, hcr, hcolon⟩ := h
  rw [hpar] at hlev hst hch hi
  rw [hrd l (Nat.le_refl l)] at hcr
  rw [findByte_congr fun k _ => hrd (l + k) (Nat.le_add_right l k)] at hcolon
  exact ⟨hlev, hst, hch, hi, hcr, hcolon⟩

end Stream

/-- Stopped after `l` bytes of the request, the parser waits, and it goes on as if it
had not been stopped, whatever stands behind the request and in the old record. -/
def Resumes (r : Bytes) (l : Nat) : Prop :=
  ∀ (rest : Bytes) (q : ParsedRequest), q.method = .unknown → q.protocol = .unknown →
    (mkHttpParser l (parserFresh q (r ++ rest))).1 = .pending ∧
      ∀ L, l ≤ L → mkHttpParser L (parserFresh q (r ++ rest)) =
        mkHttpParser L (mkHttpParser l (parserFresh q (r ++ rest))).2

/-- The parser waits after `l` bytes of the request, and the cut there is one that
does not show (`CutsOk`). -/
def CleanCut (r : Bytes) (l : Nat) : Prop :=
  (mkHttpParser l (parserFresh parsedRequestZero r)).1 = .pending ∧
    CutsOk (parserFresh parsedRequestZero r) l [r.length]

section Cuts

variable {r : Bytes} {l : Nat}

/-- Nothing has been read. -/
theorem resumes_zero (r : Bytes) : Resumes r 0 := by
  intro rest q _ _
  have hzero : mkHttpParser 0 (parserFresh q (r ++ rest)) = (.pending, parserFresh q (r ++ rest)) :=
    Loop.run_halt (M := parserLoop 0) (by simp [parserLoop, parserTurn])
  rw [hzero]
  exact ⟨rfl, fun L _ => rfl⟩

/-- A request of which no proper prefix is rejected can be cut anywhere. -/
theorem WellFormed.resumes (h : WellFormed r) (hgrow : Growing r) (hl : l < r.length) :
    Resumes r l := by
  intro rest q hm hp
  have hpend : ∀ l < r.length, (mkHttpParser l (parserFresh q (r ++ rest))).1 = .pending :=
    fun l hl => ((mkHttpParser_stream rest hm hp hl.le).1).trans (hgrow l hl)
  have hlast : (parserFresh q (r ++ rest)).buffer (r.length - 1) ≠ 13 := by
    rw [show (parserFresh q (r ++ rest)).buffer (r.length - 1) = 10 from h.lf rest]
    decide
  exact ⟨hpend l hl, fun L hL => mkHttpParser_stop placed_init hpend hlast hl hL⟩

/-- A request can be cut at its clean cuts. -/
theorem WellFormed.resumes_clean (h : WellFormed r) (hcut : CleanCut r l) (hl : l < r.length) :
    Resumes r l := by
  intro rest q hm hp
  obtain ⟨hwait, hok⟩ := hcut
  have hzero : mkHttpParser l (parserFresh parsedRequestZero r) =
      (.pending, (mkHttpParser l (parserFresh parsedRequestZero r)).2) := Prod.ext hwait rfl
  have hret := (mkHttpParser_stream rest hm hp hl.le).1.trans hwait
  unfold CutsOk at hok
  rw [hzero] at hok
  obtain ⟨hin, hkey, -⟩ := hok
  have hkey' := fun h => hkey (cutsKey_stream rest hm hp hl.le h)
  obtain ⟨e, he⟩ : ∃ e, mkHttpParser l (parserFresh q (r ++ rest)) = (.pending, e) :=
    ⟨_, Prod.ext hret rfl⟩
  rw [he] at hkey'
  have hresume := fun {L} (hL : l ≤ L) =>
    mkHttpParser_resume hL placed_init (along_stream rest hm hp hl.le hin) he
  -- on the whole request the call that goes on accepts it
  obtain ⟨t, ht, -⟩ := h.in_stream rest hm hp (Nat.le_refl r.length)
  rw [hresume hl.le hkey'] at ht
  refine ⟨hret, fun L hL => ?_⟩
  rw [he]
  refine hresume hL ?_
  -- so the key it has stopped in, if any, has no CR behind it
  rintro ⟨hlev, hst, hch, hi, hcr, -⟩
  have hcr' : e.rd r.length e.p.i = 13 := by
    rw [hi]
    simpa [ParserSt.rd, hl] using (rd_received L e l (by decide) hcr).1
  rw [keyCr_error (by omega) hlev hst (by omega) hcr'] at ht
  cases ht

end Cuts

end SuperExe.Http
