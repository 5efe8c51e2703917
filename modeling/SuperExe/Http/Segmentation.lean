import SuperExe.Http.Parser

/-! # The parser and the cuts between reads

`mk_http_parser` is called again and again on a growing buffer until it no
longer answers `MK_HTTP_PARSER_PENDING`. What it has done by then should not
depend on where the reads were cut.

The parser looks ahead in four places: for the end of a query string, for the
colon of a header key, for the LF behind a CR and, through `strtol`, for the end
of a number. `resume` shows that a call on a shorter prefix leaves a state from
which the longer call goes on exactly as if it had been made at once. Two cuts
are exceptions:

* between a header key and a CR, when the next read also brings a colon
  (`CutsKey`): the long call jumps over the CR to the colon, the short one has
  to look at it;
* inside the white space and the number of a `Content-Length` value that is
  itself only white space (`ScanInside`): `strtol` runs on into the next row.

`parser_segmentation` is the result for any number of cuts.
-/

namespace SuperExe.Http

open SuperExe.Core SuperExe.Lib

/-! ## Where the cursors can stand -/

/-- The marks of a parser are not past its cursor, and a key that is being read
has been counted from `0`. -/
def Placed (p : Parser) : Prop :=
  p.start ≤ p.i ∧ p.end_ ≤ p.i ∧ -1 ≤ p.headerKey ∧ p.headerKey ≤ p.i ∧ p.headerSep ≤ p.i ∧
    p.headerVal ≤ p.i ∧ (p.level = .headers → p.status = .headerKey → 0 ≤ p.chars)

/-- What holds of the state a turn leaves when the parser will go on from it:
in this call or in the next one. -/
def Leaves (P : ParserSt → Prop) : Outcome ParserSt ParserRet → Prop
  | .next s => P s
  | .halt .pending s => P s
  | .halt _ _ => True

theorem leaves_mkHttpParserOk (P : ParserSt → Prop) (s : ParserSt) :
    Leaves P (mkHttpParserOk s) := by
  unfold mkHttpParserOk
  repeat' split
  all_goals trivial

/-- `header_lookup` only changes what it registers. -/
theorem headerLookup_p (len : Nat) (s : ParserSt) :
    ∃ hs c l x port cl conn, (headerLookup len s).1.p =
      { s.p with headers := hs, headerCount := c, headerList := l, headersExtra := x,
                 headerHostPort := port, headerContentLength := cl, headerConnection := conn } := by
  unfold headerLookup
  split
  · simp only
    split
    · simp only [lookupHost]
      repeat' split
      all_goals exact ⟨_, _, _, _, _, _, _, rfl⟩
    · split
      · simp only [lookupContentLength]
        repeat' split
        all_goals exact ⟨_, _, _, _, _, _, _, rfl⟩
      · split
        · exact ⟨_, _, _, _, _, _, _, rfl⟩
        · exact ⟨_, _, _, _, _, _, _, rfl⟩
  · simp only
    split
    · exact ⟨_, _, _, _, _, _, _, rfl⟩
    · exact ⟨_, _, _, _, _, _, _, rfl⟩

theorem placed_init : Placed mkHttpParserInit := by
  simp [Placed, mkHttpParserInit]

section Placed

variable {s : ParserSt}

theorem placed_firstLine (len : Nat) (h : Placed s.p) (hl : s.p.level = .first) :
    Leaves (fun t => Placed t.p) (firstLine len s) := by
  have hlookup := le_charLookup len s 32
  have hok := leaves_mkHttpParserOk (fun t => Placed t.p) s
  unfold firstLine
  simp only
  repeat' split
  all_goals first
    | trivial
    | exact hok
    | (simp only [Leaves, goOn, startNext, markEnd, Placed] at h ⊢
       grind)

theorem placed_headersLevel (len : Nat) (h : Placed s.p) (hl : s.p.level = .headers) :
    Leaves (fun t => Placed t.p) (headersLevel len s) := by
  have hlookup := le_charLookup len s 58
  obtain ⟨hs, c, l, x, port, cl, conn, hp⟩ := headerLookup_p len { s with p := markEnd s.p }
  unfold headersLevel headerKeyTurn headerValTurn
  simp only
  repeat' split
  all_goals first
    | trivial
    | (simp only [Leaves, goOn, startNext, markEnd, Placed] at h hp ⊢
       grind)

theorem placed_parserTurn (len : Nat) (h : Placed s.p) :
    Leaves (fun t => Placed t.p) (parserTurn len s) := by
  unfold parserTurn
  split
  · split
    · next hl => exact placed_firstLine len h hl
    · next hl =>
      split
      · simp only [Leaves, goOn, Placed] at h ⊢
        grind
      · apply placed_headersLevel len _ rfl
        simp only [Placed] at h ⊢
        grind
    · next hl => exact placed_headersLevel len h hl
    · unfold endLevel
      repeat' split
      all_goals first
        | trivial
        | exact leaves_mkHttpParserOk _ _
        | (simp only [Leaves, goOn, startNext, Placed] at h ⊢
           grind)
    · unfold bodyLevel
      simp only
      repeat' split
      all_goals first
        | exact leaves_mkHttpParserOk _ _
        | exact h
  · exact h

end Placed

/-! ## What a longer buffer changes -/

section Grow

variable {s : ParserSt} {l L : Nat}

theorem rd_grow (hL : l ≤ L) {x : Nat} (hx : x < l) : s.rd L x = s.rd l x := by
  simp [ParserSt.rd, hx, show x < L by omega]

theorem headerCmp_congr {e v v' : Nat → UInt8} {n : Nat} (h : ∀ k < n, v k = v' k) :
    headerCmp e v n = headerCmp e v' n := by
  unfold headerCmp
  rw [Bool.eq_iff_iff, List.all_eq_true, List.all_eq_true]
  constructor
  · intro hall k hk
    rw [← h k (List.mem_range.mp hk)]
    exact hall k hk
  · intro hall k hk
    rw [h k (List.mem_range.mp hk)]
    exact hall k hk

theorem strSearchr_congr {v v' : Nat → UInt8} {c : UInt8} {n : Nat} (h : ∀ k < n, v k = v' k) :
    strSearchr v c n = strSearchr v' c n := by
  induction n with
  | zero => rfl
  | succ n ih =>
    unfold strSearchr
    rw [h n (by omega), ih (fun k hk => h k (by omega))]

theorem strSearchr_lt (v : Nat → UInt8) (c : UInt8) (n : Nat) : strSearchr v c n < n := by
  induction n with
  | zero => simp [strSearchr]
  | succ n ih =>
    unfold strSearchr
    split <;> omega

/-- The method is looked up in bytes before `end`. -/
theorem methodLookup_grow (hL : l ≤ L) (hend : s.p.end_ ≤ l) :
    methodLookup L s = methodLookup l s := by
  have h1 : ∀ b, strncmpEq (fun k => s.rd L (s.p.start + 1 + k)) b (s.p.end_ - s.p.start - 1) =
      strncmpEq (fun k => s.rd l (s.p.start + 1 + k)) b (s.p.end_ - s.p.start - 1) := by
    intro b
    apply strncmpEq_congr
    intro k hk
    exact rd_grow hL (by omega)
  have h2 : ∀ b, strncmpEq (fun k => s.rd L (s.p.start + k)) b (s.p.end_ - s.p.start) =
      strncmpEq (fun k => s.rd l (s.p.start + k)) b (s.p.end_ - s.p.start) := by
    intro b
    apply strncmpEq_congr
    intro k hk
    exact rd_grow hL (by omega)
  simp only [methodLookup, h1, h2]

theorem headerMatch_grow (hL : l ≤ L) (h : Placed s.p) (hi : s.p.i < l) :
    headerMatch L s = headerMatch l s := by
  obtain ⟨-, -, hlow, hkey, hsep, -, -⟩ := h
  simp only [headerMatch]
  congr 1
  funext n
  rw [decide_eq_decide]
  constructor
  all_goals
    rintro ⟨h1, h2, h3, h4⟩
    refine ⟨h1, h2, h3, ?_⟩
    rw [← h4]
    apply headerCmp_congr
    intro k hk
  · exact (rd_grow hL (by omega)).symm
  · exact rd_grow hL (by omega)

/-- The value of a header stands before `end`. -/
theorem value_grow (hL : l ≤ L) {p : Parser} (hend : p.end_ ≤ l) {k : Nat}
    (hk : k < p.end_ - p.headerVal.toNat) :
    s.rd L (p.headerVal.toNat + k) = s.rd l (p.headerVal.toNat + k) :=
  rd_grow hL (by omega)

theorem lookupHost_grow (hL : l ≤ L) {p : Parser} (hend : p.end_ ≤ l) :
    lookupHost L s p = lookupHost l s p := by
  have hsep : strSearchr (fun k => s.rd L (p.headerVal.toNat + k)) 58 (p.end_ - p.headerVal.toNat) =
      strSearchr (fun k => s.rd l (p.headerVal.toNat + k)) 58 (p.end_ - p.headerVal.toNat) :=
    strSearchr_congr fun k hk => value_grow hL hend hk
  have hlt := strSearchr_lt (fun k => s.rd l (p.headerVal.toNat + k)) 58
    (p.end_ - p.headerVal.toNat)
  simp only [lookupHost, hsep]
  -- the port stands before `end`, wherever the colon is
  generalize strSearchr (fun k => s.rd l (p.headerVal.toNat + k)) 58
    (p.end_ - p.headerVal.toNat) = sep at hlt ⊢
  by_cases hpos : sep > 0
  · have hport : ((List.range (((p.end_ - p.headerVal.toNat : Nat) : Int) - sep - 1).toNat).map
          fun k => s.rd L (p.headerVal.toNat + sep.toNat + 1 + k)) =
        (List.range (((p.end_ - p.headerVal.toNat : Nat) : Int) - sep - 1).toNat).map
          fun k => s.rd l (p.headerVal.toNat + sep.toNat + 1 + k) := by
      apply List.map_congr_left
      intro k hk
      have hk' := List.mem_range.mp hk
      exact rd_grow hL (by omega)
    rw [hport]
  · rw [if_neg hpos, if_neg hpos]

theorem lookupConnection_grow (hL : l ≤ L) {p : Parser} (hend : p.end_ ≤ l) :
    lookupConnection L s p = lookupConnection l s p := by
  have hcmp : ∀ name, headerCmp (cstr name) (fun k => s.rd L (p.headerVal.toNat + k))
        (p.end_ - p.headerVal.toNat) =
      headerCmp (cstr name) (fun k => s.rd l (p.headerVal.toNat + k))
        (p.end_ - p.headerVal.toNat) :=
    fun name => headerCmp_congr fun k hk => value_grow hL hend hk
  simp only [lookupConnection, hcmp]

/-- `strtol` stops before the end of the bytes received. -/
def NumberInside (l : Nat) (s : ParserSt) : Prop :=
  strtolStop (s.rd l) l s.p.headerVal.toNat < l

theorem lookupContentLength_grow (hL : l ≤ L) {p : Parser} (hval : p.headerVal = s.p.headerVal)
    (hin : NumberInside l s) : lookupContentLength L s p = lookupContentLength l s p := by
  have hnum : strtol (s.rd L) L p.headerVal.toNat = strtol (s.rd l) l p.headerVal.toNat :=
    strtol_congr (fun x hx => (rd_grow hL hx).symm) hL (hval ▸ hin)
  simp only [lookupContentLength, hnum]

/-- A header row is looked up alike, provided the number of a `Content-Length`
row ends inside the shorter buffer. -/
theorem headerLookup_grow (hL : l ≤ L) (h : Placed s.p) (hi : s.p.i < l)
    (hin : headerMatch l s = some .contentLength → NumberInside l s) :
    headerLookup L s = headerLookup l s := by
  have hend : s.p.end_ ≤ l := by
    have := h.2.1
    omega
  unfold headerLookup
  rw [headerMatch_grow hL h hi]
  cases hm : headerMatch l s with
  | none => rfl
  | some n =>
    simp only
    by_cases hhost : n = HeaderName.host
    · rw [if_pos hhost, if_pos hhost, lookupHost_grow hL (by exact hend)]
    · rw [if_neg hhost, if_neg hhost]
      -- `strtol` alone reads beyond `end`, which is what `hin` is for
      by_cases hcl : n = HeaderName.contentLength
      · have hgrow : lookupContentLength L s (registerHeader s.p n) =
            lookupContentLength l s (registerHeader s.p n) :=
          lookupContentLength_grow hL rfl (hin (hcl ▸ hm))
        rw [if_pos hcl, if_pos hcl, hgrow]
      · rw [if_neg hcl, if_neg hcl, lookupConnection_grow hL (by exact hend)]

/-! ## Looking ahead -/

theorem findByte_add (rd : Nat → UInt8) (c : UInt8) (n m x : Nat) :
    findByte rd c (n + m) x = (findByte rd c n x).or (findByte rd c m (x + n)) := by
  induction n generalizing x with
  | zero => simp [findByte]
  | succ n ih =>
    rw [Nat.add_right_comm]
    simp only [findByte]
    by_cases hc : rd x = c
    · simp [hc]
    · rw [if_neg hc, if_neg hc, ih, Nat.add_right_comm x 1 n]
      rfl

theorem findByte_congr {rd rd' : Nat → UInt8} {c : UInt8} {n x : Nat}
    (h : ∀ k < n, rd (x + k) = rd' (x + k)) : findByte rd c n x = findByte rd' c n x := by
  induction n generalizing x with
  | zero => rfl
  | succ n ih =>
    unfold findByte
    have h0 : rd x = rd' x := h 0 (by omega)
    rw [h0, ih]
    intro k hk
    have := h (k + 1) (by omega)
    rwa [show x + (k + 1) = x + 1 + k by omega] at this

/-- In a longer buffer the look-ahead finds the same byte, or goes on behind the
shorter one. -/
theorem findByte_grow (hL : l ≤ L) (c : UInt8) {x : Nat} (hx : x ≤ l) :
    findByte (s.rd L) c (L - x) x =
      (findByte (s.rd l) c (l - x) x).or (findByte (s.rd L) c (L - l) l) := by
  have hsplit : L - x = (l - x) + (L - l) := by omega
  have hsame : findByte (s.rd L) c (l - x) x = findByte (s.rd l) c (l - x) x :=
    findByte_congr fun k hk => rd_grow hL (by omega)
  rw [hsplit, findByte_add, hsame, show x + (l - x) = l by omega]

theorem findByte_here {c : UInt8} {len : Nat} (hi : s.p.i < len) (h : s.rd len s.p.i = c) :
    findByte (s.rd len) c (len - s.p.i) s.p.i = some s.p.i := by
  rw [show len - s.p.i = len - s.p.i - 1 + 1 by omega]
  simp [findByte, h]

/-! ## One turn on two buffers -/

/-- All statuses of the first line but the query string read the same. -/
theorem firstLine_grow (hL : l ≤ L) (hi : s.p.i < l)
    (hq : s.p.status ≠ .reqQueryString) : firstLine L s = firstLine l s := by
  have hc := rd_grow (s := s) hL hi
  unfold firstLine
  cases hs : s.p.status with
  | reqQueryString => exact absurd hs hq
  | reqMethod =>
    simp only [hs, hc]
    rw [methodLookup_grow hL]
    exact le_of_lt hi
  | reqProtVersion =>
    by_cases hwait : s.p.start + 6 ≥ s.p.i
    · simp only [hs, hwait, if_true]
    · have hname : (List.range 7).map (fun k => s.rd L (s.p.start + k)) =
          (List.range 7).map (fun k => s.rd l (s.p.start + k)) := by
        apply List.map_congr_left
        intro k hk
        have := List.mem_range.mp hk
        exact rd_grow hL (by omega)
      have hminor : s.rd L (s.p.start + 7) = s.rd l (s.p.start + 7) := rd_grow hL (by omega)
      simp only [hs, hwait, if_false, hname, hminor]
  | _ => simp only [hs, hc]

/-- Nothing found up to `l`: the longer look-ahead goes to the same place from
the next byte. -/
theorem charLookup_next (hL : l ≤ L) (hi : s.p.i < l) {c : UInt8} {p : Parser}
    (hp : p.i = s.p.i + 1) (hnone : findByte (s.rd l) c (l - s.p.i) s.p.i = none) {y : Nat}
    (hy : findByte (s.rd L) c (L - l) l = some y) :
    charLookup L s c = y ∧ charLookup L { s with p := p } c = y := by
  have htail : findByte (s.rd l) c (l - (s.p.i + 1)) (s.p.i + 1) = none := by
    rw [show l - s.p.i = l - (s.p.i + 1) + 1 by omega] at hnone
    simp only [findByte] at hnone
    split at hnone
    · cases hnone
    · exact hnone
  constructor
  · unfold charLookup
    rw [findByte_grow hL c (le_of_lt hi), hnone, hy]
    rfl
  · unfold charLookup
    rw [hp]
    have := findByte_grow (s := { s with p := p }) hL c (show s.p.i + 1 ≤ l by omega)
    rw [this, show findByte (ParserSt.rd l { s with p := p }) c = findByte (s.rd l) c from rfl,
      htail, show findByte (ParserSt.rd L { s with p := p }) c = findByte (s.rd L) c from rfl, hy]
    rfl

/-- Nothing found at all: both look-aheads stay where they are. -/
theorem charLookup_none (hL : l ≤ L) (hi : s.p.i < l) {c : UInt8}
    (hnone : findByte (s.rd l) c (l - s.p.i) s.p.i = none)
    (hy : findByte (s.rd L) c (L - l) l = none) : charLookup L s c = s.p.i := by
  unfold charLookup
  rw [findByte_grow hL c (le_of_lt hi), hnone, hy]
  rfl

/-- Found within `l`: the longer look-ahead finds the same. -/
theorem charLookup_some (hL : l ≤ L) (hi : s.p.i < l) {c : UInt8} {y : Nat}
    (hy : findByte (s.rd l) c (l - s.p.i) s.p.i = some y) :
    charLookup L s c = y ∧ charLookup l s c = y ∧ y < l := by
  have hlt := (findByte_some hy).2.1
  refine ⟨?_, ?_, by omega⟩
  · unfold charLookup
    rw [findByte_grow hL c (le_of_lt hi), hy]
    rfl
  · unfold charLookup
    rw [hy]
    rfl

/-- The turn that only moves on by one byte. -/
def skipByte (s : ParserSt) : ParserSt :=
  { s with p := { s.p with i := s.p.i + 1, chars := s.p.chars + 1 } }

theorem queryString_found (hs : s.p.status = .reqQueryString) {y : Nat}
    (hy : charLookup l s 32 = y) (hrd : s.rd l y = 32) :
    firstLine l s = startNext
      { s with req := { s.req with queryString := { data := some s.p.start, len := y - s.p.start } } }
      { s.p with i := y, end_ := y, chars := -1, status := .reqProtVersion } := by
  simp only [firstLine, hs, hy, hrd, if_true]
  rfl

/-- The query string: the look-ahead for its end can be taken up again. -/
theorem queryString_replay (hL : l ≤ L) (hi : s.p.i < l) (hs : s.p.status = .reqQueryString)
    {s' : ParserSt} (h : firstLine l s = .next s') :
    firstLine L s = .next s' ∨
      s'.p.i < L ∧ s'.p.level = s.p.level ∧ firstLine L s = firstLine L s' := by
  -- the end of the query string has come, comes with the longer buffer, or is still missing
  cases hf : findByte (s.rd l) 32 (l - s.p.i) s.p.i with
  | some y =>
    left
    obtain ⟨hLy, hly, hlt⟩ := charLookup_some hL hi hf
    have hrd := rd_grow (s := s) hL hlt
    rw [← h]
    unfold firstLine
    simp only [hs, hLy, hly, hrd]
  | none =>
    have hstay : charLookup l s 32 = s.p.i := by
      unfold charLookup
      rw [hf]
      rfl
    have hrd := rd_grow (s := s) hL hi
    cases hg : findByte (s.rd L) 32 (L - l) l with
    | none =>
      left
      rw [← h]
      unfold firstLine
      simp only [hs, hstay, charLookup_none hL hi hf hg, hrd]
    | some y =>
      right
      -- both look-aheads go to the blank behind `l`
      have hy := findByte_some hg
      have hne : s.rd l s.p.i ≠ 32 := by
        intro hc
        rw [findByte_here hi hc] at hf
        cases hf
      have hs' : s' = skipByte s := by
        simp only [firstLine, hs, hstay, if_neg hne] at h
        split at h
        · cases h
        · simp only [goOn, Outcome.next.injEq] at h
          rw [← h]
          simp only [skipByte, hs]
      obtain ⟨h1, h2⟩ := charLookup_next (p := (skipByte s).p) hL hi rfl hf hg
      subst hs'
      refine ⟨?_, rfl, ?_⟩
      · simp only [skipByte]
        omega
      · rw [queryString_found hs h1 hy.2.2, queryString_found (s := skipByte s) hs h2 hy.2.2]
        rfl

theorem headerKey_found (hne : s.rd l s.p.i ≠ 13) (hch : s.p.chars ≠ 0) {y : Nat}
    (hy : charLookup l s 58 = y) (hrd : s.rd l y = 58) :
    headerKeyTurn l s =
      if (y : Int) - s.p.start < 1 then
        .halt .error { s with p := { s.p with i := y, headerSep := y, end_ := y, chars := -1 } }
      else startNext s { s.p with i := y, headerSep := y, end_ := y, chars := -1,
                                  status := .headerValue } := by
  simp only [headerKeyTurn, hne, hch, hy, hrd, if_true, if_false]
  rfl

theorem headerKey_skip (hne : s.rd l s.p.i ≠ 13) (hch : s.p.chars ≠ 0)
    (hy : charLookup l s 58 = s.p.i) (hrd : s.rd l s.p.i ≠ 58) :
    headerKeyTurn l s = .next (skipByte s) := by
  simp only [headerKeyTurn, hne, hch, hy, hrd, if_false]
  rfl

/-- A header key: the look-ahead for its colon can be taken up again, unless the
next byte is a CR. -/
theorem headerKey_replay (hL : l ≤ L) (hi : s.p.i < l) (hch : 0 ≤ s.p.chars)
    {s' : ParserSt} (h : headerKeyTurn l s = .next s')
    (hcr : s' = skipByte s → 0 < s.p.chars →
      findByte (s.rd L) 58 (L - l) l ≠ none → s.rd L (s.p.i + 1) ≠ 13) :
    headerKeyTurn L s = .next s' ∨
      s'.p.i < L ∧ s' = skipByte s ∧ headerKeyTurn L s = headerKeyTurn L s' := by
  have hrd := rd_grow (s := s) hL hi
  -- the first byte of a key is read without a look-ahead
  by_cases hstart : s.rd l s.p.i = 13 ∨ s.p.chars = 0
  · left
    rw [← h]
    rcases hstart with hc | hc
    · simp only [headerKeyTurn, hrd, hc, if_true]
    · simp only [headerKeyTurn, hrd, hc, if_true]
  · obtain ⟨hne, hch0⟩ : s.rd l s.p.i ≠ 13 ∧ s.p.chars ≠ 0 := by
      constructor
      · exact fun hc => hstart (.inl hc)
      · exact fun hc => hstart (.inr hc)
    have hneL : s.rd L s.p.i ≠ 13 := by rwa [hrd]
    cases hf : findByte (s.rd l) 58 (l - s.p.i) s.p.i with
    | some y =>
      left
      obtain ⟨hLy, hly, hlt⟩ := charLookup_some hL hi hf
      have hy := (findByte_some hf).2.2
      rw [← h, headerKey_found hne hch0 hly hy, headerKey_found hneL hch0 hLy]
      rw [rd_grow hL hlt, hy]
    | none =>
      have hne58 : s.rd l s.p.i ≠ 58 := by
        intro hc
        rw [findByte_here hi hc] at hf
        cases hf
      have hstay : charLookup l s 58 = s.p.i := by
        unfold charLookup
        rw [hf]
        rfl
      have hs' : s' = skipByte s := by
        rw [headerKey_skip hne hch0 hstay hne58] at h
        exact (Outcome.next.inj h).symm
      cases hg : findByte (s.rd L) 58 (L - l) l with
      | none =>
        left
        rw [hs', headerKey_skip hneL hch0 (charLookup_none hL hi hf hg)]
        rwa [hrd]
      | some y =>
        right
        have hy := findByte_some hg
        -- the short call skips a byte, and the next turn looks up the colon from there
        have hcr' := hcr hs' (by omega) (by simp [hg])
        obtain ⟨h1, h2⟩ := charLookup_next (p := (skipByte s).p) hL hi rfl hf hg
        subst hs'
        refine ⟨?_, rfl, ?_⟩
        · simp only [skipByte]
          omega
        · have hch1 : (skipByte s).p.chars ≠ 0 := by
            simp only [skipByte]
            omega
          rw [headerKey_found hneL hch0 h1 hy.2.2,
            headerKey_found (s := skipByte s) hcr' hch1 h2 hy.2.2]
          rfl

/-- In a `Content-Length` row that ends here, `strtol` stops before the end of
the bytes received. -/
def ScanInside (l : Nat) (s : ParserSt) : Prop :=
  s.p.level = .headers → s.p.status = .headerValStarts → s.rd l s.p.i = 13 →
    headerMatch l { s with p := markEnd s.p } = some .contentLength →
    strtolStop (s.rd l) l s.p.headerVal.toNat < l

/-- The end of a header row: a CR whose LF has not come yet is a turn more. -/
theorem headerVal_replay (hL : l ≤ L) (hi : s.p.i < l) (h : Placed s.p)
    (hlev : s.p.level = .headers) (hst : s.p.status = .headerValStarts) (hin : ScanInside l s)
    {s' : ParserSt} (hb : headerValTurn l s = .next s') :
    headerValTurn L s = .next s' ∨
      s'.p.i < L ∧ s'.p.level = .headers ∧ s'.p.status = .headerEnd ∧
        headerValTurn L s = headersLevel L s' := by
  have hrd := rd_grow (s := s) hL hi
  by_cases hc : s.rd l s.p.i = 13
  · have hplaced : Placed (markEnd s.p) := by
      simp only [Placed, markEnd] at h ⊢
      grind
    -- the look-up reads nothing behind the bytes that were there
    have hgrow := headerLookup_grow (s := { s with p := markEnd s.p }) hL hplaced hi
      (fun hm => hin hlev hst hc hm)
    have hi1 : (headerLookup l { s with p := markEnd s.p }).1.p.i = s.p.i := headerLookup_i l _
    simp only [headerValTurn, hrd, hc, if_true, hgrow] at hb ⊢
    split at hb
    · cases hb
    · next hlen =>
      rw [if_neg hlen]
      split at hb
      · cases hb
      · next hret =>
        rw [if_neg hret]
        generalize hr : (headerLookup l { s with p := markEnd s.p }).1 = r at hb hi1 ⊢
        -- the LF behind the CR may come with the next call
        by_cases hnext : s.p.i + 1 < l
        · left
          rw [← hb, hi1, rd_grow hL hnext]
          simp only [hnext, show s.p.i + 1 < L by omega, true_and]
        · -- the short call ends behind the CR
          have hnot : ¬ (r.p.i + 1 < l ∧ r.rd l (r.p.i + 1) = 10) := by
            rintro ⟨hlt, -⟩
            omega
          rw [if_neg hnot] at hb
          have hs' := Outcome.next.inj hb
          by_cases hlf : r.p.i + 1 < L ∧ r.rd L (r.p.i + 1) = 10
          · right
            have hlev' : r.p.level = .headers := by
              obtain ⟨_, _, _, _, _, _, _, hp⟩ := headerLookup_p l { s with p := markEnd s.p }
              rw [hr] at hp
              rw [hp]
              exact hlev
            rw [if_pos hlf, ← hs']
            refine ⟨hlf.1, hlev', rfl, ?_⟩
            have hlf' : ParserSt.rd L { r with p := { r.p with
                i := r.p.i + 1, chars := r.p.chars + 1, start := r.p.i + 1, status := .headerEnd } }
                (r.p.i + 1) = 10 := hlf.2
            simp only [headersLevel]
            rw [if_pos hlf']
            rfl
          · left
            rw [if_neg hlf, ← hb]
  · left
    have hprev : s.rd L (s.p.i - 1) = s.rd l (s.p.i - 1) := rd_grow hL (by omega)
    rw [← hb]
    simp only [headerValTurn, hrd, hc, if_false, hprev]

/-- The longer buffer shows a CR where a key went on, and a colon behind it. -/
def SkipsCr (l L : Nat) (s : ParserSt) : Prop :=
  s.p.status = .headerKey ∧ 0 < s.p.chars ∧ s.rd L (s.p.i + 1) = 13 ∧
    findByte (s.rd L) 58 (L - l) l ≠ none

theorem headersLevel_replay (hL : l ≤ L) (hi : s.p.i < l) (h : Placed s.p)
    (hlev : s.p.level = .headers) (hin : ScanInside l s) {s' : ParserSt}
    (hb : headersLevel l s = .next s') (hcr : s' = skipByte s → ¬ SkipsCr l L s) :
    headersLevel L s = .next s' ∨
      s'.p.i < L ∧ s'.p.level = .headers ∧ headersLevel L s = headersLevel L s' := by
  have hrd := rd_grow (s := s) hL hi
  have hunfold : ∀ len, headersLevel len s = match s.p.status with
      | .headerKey => headerKeyTurn len s
      | .headerValStarts => headerValTurn len s
      | _ => headersLevel len s := by
    intro len
    cases hs : s.p.status <;> simp only [headersLevel, hs]
  cases hs : s.p.status with
  | headerKey =>
    simp only [hunfold, hs] at hb ⊢
    have hch : 0 ≤ s.p.chars := h.2.2.2.2.2.2 hlev hs
    rcases headerKey_replay hL hi hch hb (fun h1 h2 h3 h4 => hcr h1 ⟨hs, h2, h4, h3⟩) with
      heq | ⟨hlt, hskip, heq⟩
    · exact .inl heq
    · subst hskip
      have hs' : (skipByte s).p.status = .headerKey := hs
      refine .inr ⟨hlt, hlev, ?_⟩
      rw [heq]
      simp only [headersLevel, hs']
  | headerValStarts =>
    simp only [hunfold, hs] at hb ⊢
    rcases headerVal_replay hL hi h hlev hs hin hb with heq | ⟨hlt, hlev', -, heq⟩
    · exact .inl heq
    · exact .inr ⟨hlt, hlev', heq⟩
  | _ =>
    left
    rw [← hb]
    simp only [headersLevel, hs, hrd]

/-- A turn on the shorter buffer is a turn of the longer call, or the longer call
does it together with the next one. -/
theorem parserTurn_replay (hL : l ≤ L) (h : Placed s.p) (hin : ScanInside l s) {s' : ParserSt}
    (hb : parserTurn l s = .next s')
    (hcr : s.p.level = .headers → s' = skipByte s → ¬ SkipsCr l L s) :
    parserTurn L s = .next s' ∨ parserTurn L s = parserTurn L s' := by
  have hi := (parserTurn_next hb).1
  have hiL : s.p.i < L := by omega
  have hrd := rd_grow (s := s) hL hi
  simp only [parserTurn, hi, if_true] at hb
  cases hlev : s.p.level with
  | first =>
    simp only [hlev] at hb
    by_cases hs : s.p.status = .reqQueryString
    · rcases queryString_replay hL hi hs hb with heq | ⟨hlt, hlev', heq⟩
      · left
        simp only [parserTurn, hiL, if_true, hlev, heq]
      · right
        simp only [parserTurn, hiL, hlt, if_true, hlev, hlev', heq]
    · left
      simp only [parserTurn, hiL, if_true, hlev]
      rw [firstLine_grow hL hi hs, hb]
  | cont =>
    simp only [hlev] at hb
    by_cases hc : s.rd l s.p.i = 13
    · left
      simp only [parserTurn, hiL, if_true, hlev, hrd, hc] at hb ⊢
      exact hb
    · rw [if_neg hc] at hb
      -- the first byte of the first key: nothing is looked up yet
      have hplaced : Placed { s.p with level := .headers, status := .headerKey, chars := 0 } := by
        simp only [Placed] at h ⊢
        grind
      have hfirst : ¬ SkipsCr l L { s with p := { s.p with
          level := .headers, status := .headerKey, chars := 0 } } := by
        rintro ⟨-, hpos, -⟩
        simp at hpos
      have hturn : parserTurn L s = headersLevel L { s with p := { s.p with
          level := .headers, status := .headerKey, chars := 0 } } := by
        simp only [parserTurn, hiL, if_true, hlev, hrd, if_neg hc]
      have hin' : ScanInside l { s with p := { s.p with
          level := .headers, status := .headerKey, chars := 0 } } := by
        intro _ hst
        cases hst
      rcases headersLevel_replay hL (by exact hi) hplaced rfl hin' hb (fun _ => hfirst) with
        heq | ⟨hlt, hlev', heq⟩
      · exact .inl (hturn.trans heq)
      · right
        rw [hturn, heq]
        simp only [parserTurn, hlt, if_true, hlev']
  | headers =>
    simp only [hlev] at hb
    rcases headersLevel_replay hL hi h hlev hin hb (hcr hlev) with heq | ⟨hlt, hlev', heq⟩
    · left
      simp only [parserTurn, hiL, if_true, hlev, heq]
    · right
      simp only [parserTurn, hiL, hlt, if_true, hlev, hlev', heq]
  | end_ =>
    left
    simp only [hlev, endLevel] at hb
    simp only [parserTurn, hiL, if_true, hlev, endLevel, hrd]
    exact hb
  | body =>
    obtain ⟨r, t, hhalt⟩ := bodyLevel_halt l s
    simp only [hlev, hhalt] at hb
    cases hb

/-- The turn does not wait for more bytes. -/
def NoWait : Outcome ParserSt ParserRet → Prop
  | .halt .pending _ => False
  | _ => True

theorem noWait_mkHttpParserOk (s : ParserSt) : NoWait (mkHttpParserOk s) := by
  obtain ⟨r, s', h, hr⟩ := mkHttpParserOk_halt s
  rw [h]
  cases r with
  | pending => exact hr rfl
  | error => trivial
  | ok => trivial

theorem noWait_firstLine (len : Nat) (s : ParserSt) : NoWait (firstLine len s) := by
  unfold firstLine
  simp only
  repeat' split
  all_goals first
    | trivial
    | exact noWait_mkHttpParserOk _

theorem noWait_headersLevel (len : Nat) (s : ParserSt) : NoWait (headersLevel len s) := by
  unfold headersLevel headerKeyTurn headerValTurn
  simp only
  repeat' split
  all_goals trivial

theorem noWait_endLevel (len : Nat) (s : ParserSt) : NoWait (endLevel len s) := by
  unfold endLevel
  repeat' split
  all_goals first
    | trivial
    | exact noWait_mkHttpParserOk _

theorem bodyLevel_pending {e : ParserSt} (hb : bodyLevel l s = .halt .pending e) :
    0 < s.p.headerContentLength ∧
      e = { s with p := { s.p with bodyReceived := (l : Int) - s.p.start } } := by
  have hok := noWait_mkHttpParserOk
  unfold bodyLevel at hb
  simp only at hb
  split at hb
  · next hcl =>
    split at hb
    · cases hb
      exact ⟨hcl, rfl⟩
    · have := hb ▸ hok _
      exact this.elim
  · have := hb ▸ hok _
    exact this.elim

/-- Waiting for more bytes changes nothing but the count of body bytes. -/
theorem parserTurn_pending {e : ParserSt} (hb : parserTurn l s = .halt .pending e) :
    (l ≤ s.p.i ∧ e = s) ∨
      s.p.i < l ∧ s.p.level = .body ∧ 0 < s.p.headerContentLength ∧
        e = { s with p := { s.p with bodyReceived := (l : Int) - s.p.start } } := by
  by_cases hi : s.p.i < l
  · right
    simp only [parserTurn, hi, if_true] at hb
    -- only the body waits inside a turn
    cases hlev : s.p.level with
    | first =>
      simp only [hlev] at hb
      have := noWait_firstLine l s
      rw [hb] at this
      exact this.elim
    | cont =>
      simp only [hlev] at hb
      split at hb
      · cases hb
      · have := noWait_headersLevel l
          { s with p := { s.p with level := .headers, status := .headerKey, chars := 0 } }
        rw [hb] at this
        exact this.elim
    | headers =>
      simp only [hlev] at hb
      have := noWait_headersLevel l s
      rw [hb] at this
      exact this.elim
    | end_ =>
      simp only [hlev] at hb
      have := noWait_endLevel l s
      rw [hb] at this
      exact this.elim
    | body =>
      simp only [hlev] at hb
      obtain ⟨hcl, he⟩ := bodyLevel_pending hb
      exact ⟨hi, rfl, hcl, he⟩
  · left
    simp only [parserTurn, hi, if_false] at hb
    cases hb
    exact ⟨by omega, rfl⟩

/-! ## A call that is taken up again -/

/-- The call stopped inside a header key, the next byte is a CR and the bytes up
to `L` have a colon. -/
def CutsKey (l L : Nat) (e : ParserSt) : Prop :=
  e.p.level = .headers ∧ e.p.status = .headerKey ∧ 1 < e.p.chars ∧ e.p.i = l ∧ e.rd L l = 13 ∧
    findByte (e.rd L) 58 (L - l) l ≠ none

/-- A CR inside a key is an error. -/
theorem keyCr_error (hi : s.p.i < l) (hlev : s.p.level = .headers) (hst : s.p.status = .headerKey)
    (hch : s.p.chars ≠ 0) (hcr : s.rd l s.p.i = 13) : mkHttpParser l s = (.error, s) := by
  apply Loop.run_halt
  simp only [parserLoop, parserTurn, hi, hlev, headersLevel, hst, headerKeyTurn, hcr, hch, if_true,
    if_false]

/-- A key that the shorter call goes through byte by byte ends in front of the CR:
the CR is an error, or has not come yet. -/
theorem skipsCr_run (hi : s.p.i < l) (hL : l ≤ L) (hlev : s.p.level = .headers)
    (h : SkipsCr l L s) :
    mkHttpParser l (skipByte s) = (.error, skipByte s) ∨
      s.p.i + 1 = l ∧ mkHttpParser l (skipByte s) = (.pending, skipByte s) := by
  obtain ⟨hst, hch, hcr, -⟩ := h
  have hch' : (skipByte s).p.chars = s.p.chars + 1 := rfl
  by_cases hin : s.p.i + 1 < l
  · exact .inl (keyCr_error (s := skipByte s) hin hlev hst (by omega)
      ((rd_grow hL hin).symm.trans hcr))
  · have hwait : (parserLoop l).body (skipByte s) = .halt .pending (skipByte s) := by
      have hge : ¬ (skipByte s).p.i < l := hin
      simp only [parserLoop, parserTurn, hge, if_false]
    exact .inr ⟨by omega, Loop.run_halt hwait⟩

/-- A key that has been skipped byte by byte up to the end of the call. -/
theorem skipByte_pending {e : ParserSt} (hi : s.p.i < l) (hL : l ≤ L)
    (hrun : mkHttpParser l (skipByte s) = (.pending, e)) (hkey : ¬ CutsKey l L e)
    (hlev : s.p.level = .headers) : ¬ SkipsCr l L s := by
  intro hskip
  rcases skipsCr_run hi hL hlev hskip with herr | ⟨hl, hwait⟩
  · rw [herr] at hrun
    cases hrun
  · -- the short call has stopped right before the CR
    rw [hwait] at hrun
    cases hrun
    obtain ⟨hst, hch, hcr, hcolon⟩ := hskip
    have hch' : (skipByte s).p.chars = s.p.chars + 1 := rfl
    exact hkey ⟨hlev, hst, by omega, hl, hl ▸ hcr, hcolon⟩

/-- The longer call goes on from where the shorter one has stopped. -/
theorem mkHttpParser_resume {e : ParserSt} (hL : l ≤ L) (h : Placed s.p)
    (hin : (parserLoop l).Along (ScanInside l) s) (hrun : mkHttpParser l s = (.pending, e))
    (hkey : ¬ CutsKey l L e) : mkHttpParser L s = mkHttpParser L e := by
  refine Loop.resume (M := parserLoop l)
    (C := fun s => Placed s.p ∧ (parserLoop l).Along (ScanInside l) s) ?_ ?_ ⟨h, hin⟩ hrun
  · rintro s s' ⟨hp, halong⟩ hb hrest
    have hi : s.p.i < l := (parserTurn_next hb).1
    have hp' : Placed s'.p := by
      have := placed_parserTurn l hp
      rwa [show parserTurn l s = .next s' from hb] at this
    refine ⟨?_, hp', halong.tail hb⟩
    have hcr : s.p.level = .headers → s' = skipByte s → ¬ SkipsCr l L s := by
      rintro hlev rfl
      exact skipByte_pending hi hL hrest hkey hlev
    rcases parserTurn_replay hL hp halong.here hb hcr with heq | heq
    · exact Loop.run_next heq
    · exact Loop.run_congr heq
  · rintro s - hb
    rcases parserTurn_pending hb with ⟨-, rfl⟩ | ⟨hi, hlev, hcl, rfl⟩
    · rfl
    · -- the longer call counts the body bytes anew
      apply Loop.run_congr
      have hiL : s.p.i < L := by omega
      simp only [parserLoop, parserTurn, hiL, if_true, hlev, bodyLevel, hcl]

/-- What a pending call leaves. -/
theorem mkHttpParser_pending {e : ParserSt} (h : Placed s.p)
    (hrun : mkHttpParser l s = (.pending, e)) : Placed e.p ∧ (l ≤ e.p.i ∨ e.p.level = .body) := by
  have hinv := Loop.run_invariant (M := parserLoop l) (I := fun s => Placed s.p)
    (Q := fun r e => r = .pending → Placed e.p ∧ (l ≤ e.p.i ∨ e.p.level = .body)) ?_ ?_ h
  · exact hinv (congrArg Prod.fst hrun) |> fun hq => by rwa [show (parserLoop l).run s = _ from hrun] at hq
  · intro s s' hp hb
    have := placed_parserTurn l hp
    rwa [show parserTurn l s = .next s' from hb] at this
  · rintro s r e hp hb rfl
    rcases parserTurn_pending hb with ⟨hi, rfl⟩ | ⟨-, hlev, -, rfl⟩
    · exact ⟨hp, .inl hi⟩
    · exact ⟨hp, .inr hlev⟩

end Grow

/-! ## Any number of cuts -/

/-- A fresh parser in front of the bytes `B`. -/
def parserFresh (req : ParsedRequest) (B : Bytes) : ParserSt where
  req := req
  p := mkHttpParserInit
  buffer := cstr B
  raised := []

/-- The read loop: `mk_http_parser` on prefixes of growing length, for as long as
it answers `MK_HTTP_PARSER_PENDING`. The second component is the length of the
last call. -/
def feed : ParserSt → Nat → List Nat → (ParserRet × ParserSt) × Nat
  | s, l, [] => (mkHttpParser l s, l)
  | s, l, l' :: ls =>
    match mkHttpParser l s with
    | (.pending, e) => feed e l' ls
    | r => (r, l)

/-- No cut falls between a header key and a CR that the next read brings
together with a colon, and no call that is left pending has scanned the number
of a `Content-Length` row up to its end. -/
def CutsOk : ParserSt → Nat → List Nat → Prop
  | _, _, [] => True
  | s, l, l' :: ls =>
    match mkHttpParser l s with
    | (.pending, e) =>
      (parserLoop l).Along (ScanInside l) s ∧ ¬ CutsKey l l' e ∧ CutsOk e l' ls
    | _ => True

/-- The same answer and, for an accepted request, the same slices, headers and
cursor. -/
def SameParse (r r' : ParserRet × ParserSt) : Prop :=
  r.1 = r'.1 ∧ (r.1 = .ok →
    r.2.req = r'.2.req ∧ r.2.p.headers = r'.2.p.headers ∧
      r.2.p.headersExtra = r'.2.p.headersExtra ∧ r.2.p.headerList = r'.2.p.headerList ∧
      r.2.p.headerCount = r'.2.p.headerCount ∧ r.2.p.i = r'.2.p.i)

theorem feed_cons_pending {s e : ParserSt} {l l' : Nat} {ls : List Nat}
    (h : mkHttpParser l s = (.pending, e)) : feed s l (l' :: ls) = feed e l' ls := by
  simp only [feed, h]

theorem feed_cons_stop {s e : ParserSt} {r : ParserRet} {l l' : Nat} {ls : List Nat}
    (h : mkHttpParser l s = (r, e)) (hr : r ≠ .pending) : feed s l (l' :: ls) = ((r, e), l) := by
  cases r with
  | pending => exact absurd rfl hr
  | error => simp only [feed, h]
  | ok => simp only [feed, h]

theorem feed_stop_le (s : ParserSt) (l : Nat) (ls : List Nat)
    (hls : (l :: ls).Pairwise (· < ·)) : l ≤ (feed s l ls).2 := by
  induction ls generalizing s l with
  | nil => exact Nat.le_refl l
  | cons l' ls ih =>
    obtain ⟨hlt, hls'⟩ := List.pairwise_cons.mp hls
    rcases hrun : mkHttpParser l s with ⟨r, e⟩
    by_cases hr : r = .pending
    · subst hr
      rw [feed_cons_pending hrun]
      have := ih e l' hls'
      have := hlt l' (List.mem_cons_self ..)
      omega
    · rw [feed_cons_stop hrun hr]

/-- A cut in front of such a CR makes the next call answer `ERROR`. -/
theorem cutsKey_error {e : ParserSt} {l l' L : Nat} (hl : l < l') (hL : l' ≤ L)
    (h : CutsKey l L e) : mkHttpParser l' e = (.error, e) := by
  obtain ⟨hlev, hst, hch, hi, hcr, -⟩ := h
  have hcr' : e.rd l' l = 13 := (rd_grow hL hl).symm.trans hcr
  exact keyCr_error (by omega) hlev hst (by omega) (hi ▸ hcr')

/-- The whole state after the cuts is that of one call on the same bytes. -/
theorem feed_eq_mkHttpParser {s : ParserSt} {l : Nat} {ls : List Nat} (h : Placed s.p)
    (hls : (l :: ls).Pairwise (· < ·)) (hcuts : CutsOk s l ls) :
    (feed s l ls).1 = mkHttpParser (feed s l ls).2 s := by
  induction ls generalizing s l with
  | nil => rfl
  | cons l' ls ih =>
    obtain ⟨hlt, hls'⟩ := List.pairwise_cons.mp hls
    have hl : l < l' := hlt l' (List.mem_cons_self ..)
    rcases hrun : mkHttpParser l s with ⟨r, e⟩
    by_cases hr : r = .pending
    · subst hr
      simp only [CutsOk, hrun] at hcuts
      obtain ⟨hin, hkey, hcuts'⟩ := hcuts
      have hle := feed_stop_le e l' ls hls'
      rw [feed_cons_pending hrun, ih (mkHttpParser_pending h hrun).1 hls' hcuts']
      symm
      apply mkHttpParser_resume (by omega) h hin hrun
      -- a cut that hides a colon of a later read ends the run at `l'`
      intro hbad
      have herr := cutsKey_error hl hle hbad
      have hstop : (feed e l' ls).2 = l' := by
        cases ls with
        | nil => rfl
        | cons l'' ls => rw [feed_cons_stop herr (by decide)]
      exact hkey (hstop ▸ hbad)
    · rw [feed_cons_stop hrun hr]
      exact hrun.symm

/-- The cuts between the reads do not show in what the parser has done, as long
as they are `CutsOk`. -/
theorem parser_segmentation (req : ParsedRequest) (B : Bytes) (l : Nat) (ls : List Nat)
    (hls : (l :: ls).Pairwise (· < ·))
    (hcuts : CutsOk (parserFresh req B) l ls) :
    SameParse (feed (parserFresh req B) l ls).1
      (mkHttpParser (feed (parserFresh req B) l ls).2 (parserFresh req B)) := by
  rw [feed_eq_mkHttpParser placed_init hls hcuts]
  exact ⟨rfl, fun _ => ⟨rfl, rfl, rfl, rfl, rfl, rfl⟩⟩

instance decScanInside (l : Nat) : DecidablePred (ScanInside l) := fun s =>
  inferInstanceAs (Decidable (s.p.level = .headers → s.p.status = .headerValStarts →
    s.rd l s.p.i = 13 → headerMatch l { s with p := markEnd s.p } = some .contentLength →
    strtolStop (s.rd l) l s.p.headerVal.toNat < l))

instance decCutsKey (l L : Nat) (e : ParserSt) : Decidable (CutsKey l L e) :=
  inferInstanceAs (Decidable (e.p.level = .headers ∧ e.p.status = .headerKey ∧ 1 < e.p.chars ∧
    e.p.i = l ∧ e.rd L l = 13 ∧ findByte (e.rd L) 58 (L - l) l ≠ none))

instance decCutsOk : ∀ (s : ParserSt) (l : Nat) (ls : List Nat), Decidable (CutsOk s l ls)
  | _, _, [] => .isTrue trivial
  | s, l, l' :: ls =>
    have (e : ParserSt) : Decidable (CutsOk e l' ls) := decCutsOk e l' ls
    match h : mkHttpParser l s with
    | (.pending, e) => decidable_of_iff
        ((parserLoop l).Along (ScanInside l) s ∧ ¬ CutsKey l l' e ∧ CutsOk e l' ls)
        (by simp only [CutsOk, h])
    | (.error, _) => .isTrue (by simp only [CutsOk, h])
    | (.ok, _) => .isTrue (by simp only [CutsOk, h])

/-- A request record nothing has been written to. -/
def parsedRequestZero : ParsedRequest where
  method := .unknown
  methodP := .null
  uri := .null
  queryString := .null
  protocol := .unknown
  protocolP := .null
  data := .null

/-- Two requests for the cuts below. -/
def getQuery : Bytes := bytes "GET /?a=b HTTP/1.1\r\nHost: x\r\n\r\n"
def getBareKey : Bytes := bytes "GET / HTTP/1.1\r\nFoo\r\nBar: x\r\n\r\n"

/-- Cuts inside the query string, inside a key and between CR and LF. -/
theorem parser_segmentation_three_cuts :
    SameParse (feed (parserFresh parsedRequestZero getQuery) 8 [22, 28, 31]).1
      (mkHttpParser (feed (parserFresh parsedRequestZero getQuery) 8 [22, 28, 31]).2
        (parserFresh parsedRequestZero getQuery)) :=
  parser_segmentation _ _ _ _ (by decide) (by decide)

/-- A key without a colon, cut in front of its CR: at once the parser skips the
CR, in two calls it answers `ERROR`. -/
theorem parser_segmentation_cut_key :
    ¬ SameParse (feed (parserFresh parsedRequestZero getBareKey) 19 [31]).1
      (mkHttpParser (feed (parserFresh parsedRequestZero getBareKey) 19 [31]).2
        (parserFresh parsedRequestZero getBareKey)) := by
  intro h
  have hsame := h.1
  revert hsame
  decide

end SuperExe.Http
