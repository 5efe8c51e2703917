import SuperExe.Http.Segmentation

/-! # Where the body of a request ends

A request that carries `Content-Length: n` ends `n` bytes behind its blank line.
`mk_http_parser` takes the body to be everything that has been received behind
the blank line, so the end is right exactly when nothing else has come yet:

* `ParserSt.lines` is the invariant that ties the levels of the parser to the CR
  and LF bytes behind the cursor;
* `body_framing_iff` compares the accepted request with the framing that
  `headerEnd` and the declared length give.
-/

namespace SuperExe.Http

open SuperExe.Core SuperExe.Lib

/-! ## The framing of a request -/

/-- The offset behind the first blank line. -/
def headerEnd : Bytes → Option Nat
  | [] => none
  | c :: bs =>
    if (c :: bs).take 4 = [13, 10, 13, 10] then some 4 else (headerEnd bs).map (· + 1)

/-- What `mk_http_request_end` keeps in `cs->body` when a request of `len`
received bytes is finished. -/
def requestCut (s : ParserSt) (len : Nat) : Bytes :=
  if mkHttpParserMore s.p len then
    (List.range (((len : Int) - s.p.i).natAbs - 1)).map fun k => s.buffer (s.p.i + 1 + k)
  else []

/-- The request is framed by its blank line and its length: the body slice is the
`n` bytes behind the blank line, and what is kept for the next request starts
behind them. -/
def BodyFramed (B : Bytes) (s : ParserSt) : Prop :=
  ∃ h, headerEnd B = some h ∧
    s.req.data = { data := some h, len := s.p.headerContentLength } ∧
    requestCut s B.length = B.drop (h + s.p.headerContentLength.toNat)

/-! ## The bytes behind the cursor -/

/-- The bytes before position `i`, the nearest first, are `cs`. -/
def Behind (buf : Nat → UInt8) : Nat → Bytes → Prop
  | _, [] => True
  | 0, _ :: _ => False
  | i + 1, c :: cs => buf i = c ∧ Behind buf i cs

@[simp] theorem behind_nil (buf : Nat → UInt8) (x : Nat) : Behind buf x [] := by
  cases x <;> trivial

/-- What each level of the parser knows about the bytes behind its cursor. -/
def ParserSt.lines (s : ParserSt) : Prop :=
  match s.p.level with
  | .first => s.p.headerContentLength ≤ 0 ∧
      (s.p.status = .firstFinalizing → Behind s.buffer s.p.i [13])
  | .cont => s.p.headerContentLength ≤ 0 ∧ Behind s.buffer s.p.i [10, 13]
  | .headers =>
      (s.p.status = .headerEnd → Behind s.buffer s.p.i [13]) ∧
      (s.p.status = .headerKey → s.p.chars = 0 → Behind s.buffer s.p.i [10, 13])
  | .end_ => Behind s.buffer s.p.i [13, 10, 13]
  | .body => s.p.i = s.p.start ∧ Behind s.buffer s.p.i [10, 13, 10, 13]

/-- The CR and LF bytes of a buffer are those of `B`. -/
def SameLines (B : Bytes) (buf : Nat → UInt8) : Prop :=
  ∀ x, (buf x = 13 ↔ cstr B x = 13) ∧ (buf x = 10 ↔ cstr B x = 10)

theorem tolower_control (c : UInt8) {d : UInt8} (hd : d < 65) : tolower c = d ↔ c = d := by
  unfold tolower
  split <;> grind

theorem lowerBytes_control (buf : Nat → UInt8) (f n x : Nat) {d : UInt8} (hd : d < 65) :
    lowerBytes buf f n x = d ↔ buf x = d := by
  unfold lowerBytes
  split
  · exact tolower_control _ hd
  · rfl

theorem headerLookup_control (len : Nat) (s : ParserSt) (x : Nat) {d : UInt8} (hd : d < 65) :
    (headerLookup len s).1.buffer x = d ↔ s.buffer x = d := by
  unfold headerLookup
  split
  · rfl
  · simp only
    split
    · exact lowerBytes_control _ _ _ _ hd
    · rfl

/-- The byte under the cursor was received. -/
theorem rd_received (len : Nat) (s : ParserSt) (x : Nat) {c : UInt8} (hc : c ≠ 0)
    (h : s.rd len x = c) : s.buffer x = c ∧ x < len := by
  unfold ParserSt.rd at h
  split at h
  · next hx => exact ⟨h, hx⟩
  · exact absurd h.symm hc

section Lines

variable (len : Nat) {s : ParserSt}

theorem lines_firstLine (h : s.lines) (hl : s.p.level = .first) :
    Leaves ParserSt.lines (firstLine len s) := by
  have hok := leaves_mkHttpParserOk ParserSt.lines s
  have hcr := rd_received len s s.p.i (c := 13) (by decide)
  have hlf := rd_received len s s.p.i (c := 10) (by decide)
  unfold firstLine
  simp only
  repeat' split
  all_goals first
    | trivial
    | exact hok
    | (simp only [Leaves, goOn, startNext, markEnd, ParserSt.lines, hl, Behind] at h ⊢
       grind)

theorem lines_headerValTurn (hl : s.p.level = .headers)
    (hst : s.p.status = .headerValStarts) : Leaves ParserSt.lines (headerValTurn len s) := by
  unfold headerValTurn
  simp only
  split
  · next hc =>
    split
    · trivial
    · -- the look-up keeps the CR under the cursor
      have hi : (headerLookup len { s with p := markEnd s.p }).1.p.i = s.p.i := headerLookup_i len _
      have hlev : (headerLookup len { s with p := markEnd s.p }).1.p.level = .headers := by
        obtain ⟨_, _, _, _, _, _, _, hp⟩ := headerLookup_p len { s with p := markEnd s.p }
        rw [hp]
        exact hl
      have hcr : (headerLookup len { s with p := markEnd s.p }).1.buffer s.p.i = 13 :=
        (headerLookup_control len _ _ (by decide)).mpr (rd_received len s _ (by decide) hc).1
      generalize headerLookup len { s with p := markEnd s.p } = r at hi hlev hcr
      split
      · trivial
      · split
        · next hlf =>
          have hlf' := (rd_received len _ _ (by decide) hlf.2).1
          simp [Leaves, startNext, goOn, ParserSt.lines, hlev, Behind, hi] at hlf' ⊢
          exact ⟨hlf', hcr⟩
        · simp [Leaves, startNext, goOn, ParserSt.lines, hlev, Behind, hi, hcr]
  · split
    · trivial
    · simp only [Leaves, goOn, ParserSt.lines, hl, hst]
      simp

theorem lines_headersLevel (hplaced : Placed s.p) (h : s.lines) (hl : s.p.level = .headers) :
    Leaves ParserSt.lines (headersLevel len s) := by
  have hch := hplaced.2.2.2.2.2.2 hl
  have hcr := rd_received len s s.p.i (c := 13) (by decide)
  have hlf := rd_received len s s.p.i (c := 10) (by decide)
  have hval := lines_headerValTurn len hl
  unfold headersLevel headerKeyTurn
  simp only
  repeat' split
  all_goals first
    | trivial
    | (apply hval; assumption)
    | (simp only [Leaves, goOn, startNext, markEnd, ParserSt.lines, hl, Behind] at h ⊢
       grind)

/-- The levels keep in step with the lines of the buffer. -/
theorem lines_parserTurn (hplaced : Placed s.p) (h : s.lines) :
    Leaves ParserSt.lines (parserTurn len s) := by
  have hcr := rd_received len s s.p.i (c := 13) (by decide)
  have hlf := rd_received len s s.p.i (c := 10) (by decide)
  unfold parserTurn
  split
  · split
    · next hl => exact lines_firstLine len h hl
    · next hl =>
      simp only [ParserSt.lines, hl] at h
      split
      · simp only [Leaves, goOn, ParserSt.lines]
        grind
      · -- the CRLF of the first line stands in front of the first key
        refine lines_headersLevel len ?_ ?_ rfl
        · simp only [Placed] at hplaced ⊢
          grind
        · simp only [ParserSt.lines]
          grind
    · next hl => exact lines_headersLevel len hplaced h hl
    · next hl =>
      simp only [ParserSt.lines, hl] at h
      unfold endLevel
      repeat' split
      all_goals first
        | trivial
        | exact leaves_mkHttpParserOk _ _
        | (simp only [Leaves, startNext, goOn, ParserSt.lines, Behind]
           grind)
    · next hl =>
      unfold bodyLevel
      simp only
      repeat' split
      all_goals first
        | exact leaves_mkHttpParserOk _ _
        | exact h
  · exact h

/-- No turn adds or removes a CR or an LF. -/
theorem parserTurn_control (s : ParserSt) (x : Nat) {d : UInt8} (hd : d < 65) :
    (parserTurn len s).state.buffer x = d ↔ s.buffer x = d := by
  have hlookup := headerLookup_control len { s with p := markEnd s.p } x hd
  unfold parserTurn endLevel bodyLevel firstLine headersLevel headerKeyTurn headerValTurn
    mkHttpParserOk
  simp only
  repeat' split
  all_goals first
    | rfl
    | exact hlookup

variable {len}

theorem mkHttpParserOk_ok {s' : ParserSt} (h : mkHttpParserOk s = .halt .ok s') : s' = s := by
  unfold mkHttpParserOk at h
  repeat' split at h
  all_goals cases h
  rfl

theorem headersLevel_not_ok {s' : ParserSt} (h : headersLevel len s = .halt .ok s') : False := by
  unfold headersLevel headerKeyTurn headerValTurn at h
  simp only at h
  repeat' split at h
  all_goals cases h

theorem firstLine_ok {s' : ParserSt} (h : firstLine len s = .halt .ok s') : s' = s := by
  unfold firstLine at h
  simp only at h
  repeat' split at h
  all_goals first
    | exact mkHttpParserOk_ok h
    | cases h

theorem bodyLevel_ok {s' : ParserSt} (h : bodyLevel len s = .halt .ok s')
    (hcl : 0 < s.p.headerContentLength) :
    s.p.headerContentLength ≤ (len : Int) - s.p.start ∧ s' = { s with
      p := { s.p with i := s.p.i + ((len : Int) - s.p.start).toNat
                      bodyReceived := (len : Int) - s.p.start }
      req := { s.req with data := { data := some s.p.start, len := (len : Int) - s.p.start } } } := by
  unfold bodyLevel at h
  simp only [gt_iff_lt, hcl, if_true] at h
  split at h
  · cases h
  · next hle => exact ⟨by omega, mkHttpParserOk_ok h⟩

/-- A request with a body is accepted by the body level only. -/
theorem parserTurn_ok {s' : ParserSt} (hlines : s.lines) (h : parserTurn len s = .halt .ok s')
    (hcl : 0 < s'.p.headerContentLength) :
    s.p.level = .body ∧ s.p.i < len ∧ 0 < s.p.headerContentLength ∧
      bodyLevel len s = .halt .ok s' := by
  unfold parserTurn at h
  split at h
  · next hi =>
    cases hl : s.p.level with
    | first =>
      simp only [hl] at h
      simp only [ParserSt.lines, hl] at hlines
      rw [firstLine_ok h] at hcl
      omega
    | cont =>
      simp only [hl] at h
      split at h
      · cases h
      · exact (headersLevel_not_ok h).elim
    | headers =>
      simp only [hl] at h
      exact (headersLevel_not_ok h).elim
    | end_ =>
      simp only [hl, endLevel] at h
      repeat' split at h
      · cases h
      · next hno =>
        rw [mkHttpParserOk_ok h] at hcl
        omega
      · cases h
    | body =>
      simp only [hl] at h
      refine ⟨rfl, hi, ?_, h⟩
      by_contra hno
      unfold bodyLevel at h
      rw [if_neg hno] at h
      rw [mkHttpParserOk_ok h] at hcl
      omega
  · cases h

end Lines

/-! ## The accepted body -/

/-- What an accepted request with a body looks like: the body is everything
behind a blank line, and the cursor is at the end of the bytes received. -/
def BodyRead (B : Bytes) (len : Nat) (s : ParserSt) : Prop :=
  Behind (cstr B) s.p.start [10, 13, 10, 13] ∧ s.p.start < len ∧ s.p.i = len ∧
    s.p.headerContentLength ≤ (len : Int) - s.p.start ∧
    s.req.data = { data := some s.p.start, len := (len : Int) - s.p.start }

theorem SameLines.behind {B : Bytes} {buf : Nat → UInt8} (h : SameLines B buf) {x : Nat}
    {cs : Bytes} (hcs : ∀ c ∈ cs, c = 13 ∨ c = 10) (hb : Behind buf x cs) :
    Behind (cstr B) x cs := by
  induction cs generalizing x with
  | nil => exact behind_nil _ _
  | cons c cs ih =>
    cases x with
    | zero => exact hb
    | succ x =>
      refine ⟨?_, ih (fun d hd => hcs d (List.mem_cons_of_mem _ hd)) hb.2⟩
      rcases hcs c (List.mem_cons_self ..) with rfl | rfl
      · exact (h x).1.mp hb.1
      · exact (h x).2.mp hb.1

/-- The invariant of the framing proof. -/
def FramingInv (B : Bytes) (s : ParserSt) : Prop :=
  Placed s.p ∧ s.lines ∧ SameLines B s.buffer

theorem framingInv_fresh (req : ParsedRequest) (B : Bytes) : FramingInv B (parserFresh req B) := by
  refine ⟨placed_init, ?_, fun x => ⟨Iff.rfl, Iff.rfl⟩⟩
  simp [ParserSt.lines, parserFresh, mkHttpParserInit]

theorem SameLines.parserTurn {B : Bytes} {s : ParserSt} (len : Nat) (h : SameLines B s.buffer) :
    SameLines B (parserTurn len s).state.buffer := by
  intro x
  have hcr := parserTurn_control len s x (d := 13) (by decide)
  have hlf := parserTurn_control len s x (d := 10) (by decide)
  exact ⟨hcr.trans (h x).1, hlf.trans (h x).2⟩

/-- One call keeps the invariant, or accepts a body up to the end of the buffer. -/
theorem mkHttpParser_framing {B : Bytes} {len : Nat} {s e : ParserSt} {r : ParserRet}
    (h : FramingInv B s) (hrun : mkHttpParser len s = (r, e)) :
    (r = .pending → FramingInv B e) ∧
      (r = .ok → 0 < e.p.headerContentLength → BodyRead B len e) := by
  have hinv := Loop.run_invariant (M := parserLoop len) (I := FramingInv B)
    (Q := fun r e => (r = .pending → FramingInv B e) ∧
      (r = .ok → 0 < e.p.headerContentLength → BodyRead B len e)) ?_ ?_ h
  · rwa [show (parserLoop len).run s = (r, e) from hrun] at hinv
  · rintro s s' ⟨hp, hl, hsame⟩ hb
    have hb' : parserTurn len s = .next s' := hb
    have h1 := placed_parserTurn len hp
    have h2 := lines_parserTurn len hp hl
    have h3 := hsame.parserTurn len
    rw [hb'] at h1 h2 h3
    exact ⟨h1, h2, h3⟩
  · rintro s r e ⟨hp, hl, hsame⟩ hb
    have hb' : parserTurn len s = .halt r e := hb
    have h1 := placed_parserTurn len hp
    have h2 := lines_parserTurn len hp hl
    have h3 := hsame.parserTurn len
    rw [hb'] at h1 h2 h3
    constructor
    · rintro rfl
      exact ⟨h1, h2, h3⟩
    · rintro rfl hcl
      obtain ⟨hbody, hi, hpos, hok⟩ := parserTurn_ok hl hb' hcl
      simp only [ParserSt.lines, hbody] at hl
      obtain ⟨hle, rfl⟩ := bodyLevel_ok hok hpos
      have hblank : Behind s.buffer s.p.start [10, 13, 10, 13] := hl.1 ▸ hl.2
      refine ⟨hsame.behind (by simp) hblank, ?_, ?_, hle, rfl⟩
      · simp only
        omega
      · simp only
        omega

/-- The same for a request that arrives in any number of reads. -/
theorem feed_framing {B : Bytes} {s e : ParserSt} {l len : Nat} {ls : List Nat}
    (h : FramingInv B s) (hfeed : feed s l ls = ((.ok, e), len))
    (hcl : 0 < e.p.headerContentLength) : BodyRead B len e := by
  induction ls generalizing s l with
  | nil =>
    simp only [feed, Prod.mk.injEq] at hfeed
    obtain ⟨hrun, rfl⟩ := hfeed
    exact (mkHttpParser_framing h hrun).2 rfl hcl
  | cons l' ls ih =>
    rcases hrun : mkHttpParser l s with ⟨r, t⟩
    by_cases hr : r = .pending
    · subst hr
      rw [feed_cons_pending hrun] at hfeed
      exact ih ((mkHttpParser_framing h hrun).1 rfl) hfeed
    · rw [feed_cons_stop hrun hr] at hfeed
      simp only [Prod.mk.injEq] at hfeed
      obtain ⟨⟨rfl, rfl⟩, rfl⟩ := hfeed
      exact (mkHttpParser_framing h hrun).2 rfl hcl

/-! ## The first blank line -/

theorem Behind.shift {buf : Nat → UInt8} {x : Nat} {cs : Bytes} (hlen : cs.length ≤ x)
    (h : Behind buf (x + 1) cs) : Behind (fun k => buf (k + 1)) x cs := by
  induction cs generalizing x with
  | nil => exact behind_nil _ _
  | cons c cs ih =>
    cases x with
    | zero => simp at hlen
    | succ x => exact ⟨h.1, ih (by simpa using hlen) h.2⟩

theorem Behind.length_le {buf : Nat → UInt8} {x : Nat} {cs : Bytes} (h : Behind buf x cs) :
    cs.length ≤ x := by
  induction cs generalizing x with
  | nil => exact Nat.zero_le x
  | cons c cs ih =>
    cases x with
    | zero => exact h.elim
    | succ x =>
      have := ih h.2
      simpa using this

/-- Every blank line stands at or behind the first one. -/
theorem headerEnd_le {B : Bytes} {x : Nat} (h : Behind (cstr B) x [10, 13, 10, 13]) :
    ∃ y, headerEnd B = some y ∧ y ≤ x := by
  induction B generalizing x with
  | nil =>
    cases x with
    | zero => exact h.elim
    | succ x => exact absurd h.1 (by simp [cstr])
  | cons c bs ih =>
    have hx : 4 ≤ x := h.length_le
    unfold headerEnd
    split
    · exact ⟨4, rfl, hx⟩
    · next hno =>
      obtain ⟨z, rfl⟩ : ∃ z, x = z + 1 := ⟨x - 1, by omega⟩
      by_cases hz : z = 3
      · -- then the blank line is right here
        exfalso
        subst hz
        obtain ⟨h3, h2, h1, h0, -⟩ := h
        apply hno
        rcases bs with _ | ⟨b1, _ | ⟨b2, _ | ⟨b3, bs⟩⟩⟩
        all_goals simp_all [cstr]
      · have hlen : [10, 13, 10, 13].length ≤ z := by
          simp only [List.length_cons, List.length_nil]
          omega
        have hshift := Behind.shift hlen h
        obtain ⟨y, hy, hle⟩ := ih hshift
        exact ⟨y + 1, by rw [hy]; rfl, by omega⟩

theorem bodyFramed_iff (req : ParsedRequest) (B : Bytes) (l : Nat) (ls : List Nat)
    (s : ParserSt) (hok : feed (parserFresh req B) l ls = ((.ok, s), B.length))
    (hcl : 0 < s.p.headerContentLength) :
    BodyFramed B s ↔ ∃ h, headerEnd B = some h ∧
      (B.length : Int) = h + s.p.headerContentLength := by
  obtain ⟨hblank, hlt, hi, hle, hdata⟩ := feed_framing (framingInv_fresh req B) hok hcl
  constructor
  · rintro ⟨h, hend, hslice, -⟩
    rw [hdata] at hslice
    simp only [MkPtr.mk.injEq, Option.some.injEq] at hslice
    exact ⟨h, hend, by omega⟩
  · rintro ⟨h, hend, hlen⟩
    obtain ⟨y, hy, hyle⟩ := headerEnd_le hblank
    have hyh : y = h := Option.some.inj (hy.symm.trans hend)
    have hstart : s.p.start = h := by omega
    refine ⟨h, hend, ?_, ?_⟩
    · rw [hdata, hstart]
      congr 1
      omega
    · have hmore : mkHttpParserMore s.p B.length = false := by
        simp [mkHttpParserMore, hi]
      rw [requestCut, hmore]
      symm
      apply List.drop_eq_nil_of_le
      omega

/-- An accepted request with a body is framed as declared exactly if no byte
behind its body has been received yet. -/
theorem body_framing_iff (req : ParsedRequest) (B : Bytes) (l : Nat) (ls : List Nat)
    (s : ParserSt) (hok : feed (parserFresh req B) l ls = ((.ok, s), B.length))
    (hcl : 0 < s.p.headerContentLength) :
    BodyFramed B s ↔ ∃ h, headerEnd B = some h ∧
      (B.length : Int) = h + s.p.headerContentLength :=
  bodyFramed_iff req B l ls s hok hcl

/-- A request with a body of two bytes. -/
def postAlone : Bytes := bytes "POST / HTTP/1.1\r\nContent-Length: 2\r\n\r\nab"

/-- A request with a body of one byte and the next request behind it. -/
def postPipelined : Bytes :=
  bytes "POST / HTTP/1.1\r\nContent-Length: 1\r\n\r\naGET / HTTP/1.1\r\n\r\n"

/-- The body arrives one byte at a time. -/
theorem body_framing_alone :
    BodyFramed postAlone (feed (parserFresh parsedRequestZero postAlone) 39 [40]).1.2 := by
  have hok : feed (parserFresh parsedRequestZero postAlone) 39 [40] =
      ((.ok, (feed (parserFresh parsedRequestZero postAlone) 39 [40]).1.2), postAlone.length) := by
    refine Prod.ext (Prod.ext ?_ rfl) ?_
    · decide
    · decide
  exact (body_framing_iff _ _ _ _ _ hok (by decide)).mpr ⟨38, by decide⟩

/-- Both requests in one read: all that follows the blank line becomes the body. -/
theorem body_framing_pipelined :
    (feed (parserFresh parsedRequestZero postPipelined) 57 []).1.1 = .ok ∧
      ¬ BodyFramed postPipelined
        (feed (parserFresh parsedRequestZero postPipelined) 57 []).1.2 := by
  refine ⟨by decide, ?_⟩
  rintro ⟨h, -, hdata, -⟩
  have hlen := congrArg MkPtr.len hdata
  dsimp only at hlen
  revert hlen
  decide

end SuperExe.Http
