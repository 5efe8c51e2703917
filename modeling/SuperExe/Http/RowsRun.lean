import SuperExe.Http.HeaderTable

/-! # Requests row by row

Only one turn of the parser registers anything: the one that finds the CR behind
a value and calls `header_lookup`. `feed_rows` is the rule that follows: what
holds of the empty table, and is kept by every look-up that goes well, holds for
all rows of an accepted request, however it was cut. The rows are those of the
bytes (`Rows`), up to the blank line.
-/

namespace SuperExe.Http

open SuperExe.Core SuperExe.Lib

/-- The part of the state that `header_lookup` writes. -/
structure Registers where
  headers : HeaderName → HttpHeader
  headerCount : Nat
  headerList : List HeaderRef
  headersExtra : List HttpHeader
  headerHostPort : Int
  headerContentLength : Int
  headerConnection : ConnHeader
  buffer : Nat → UInt8

def ParserSt.regs (s : ParserSt) : Registers where
  headers := s.p.headers
  headerCount := s.p.headerCount
  headerList := s.p.headerList
  headersExtra := s.p.headersExtra
  headerHostPort := s.p.headerHostPort
  headerContentLength := s.p.headerContentLength
  headerConnection := s.p.headerConnection
  buffer := s.buffer

/-- The next turn calls `header_lookup`. -/
def LooksUp (len : Nat) (s : ParserSt) : Prop :=
  s.p.i < len ∧ s.p.level = .headers ∧ s.p.status = .headerValStarts ∧ s.rd len s.p.i = 13

section Regs

variable {B : Bytes} {len : Nat} {rs : List Row} {s : ParserSt}

theorem Registered.congr {s' : ParserSt} (h : Registered B rs s) (hregs : s'.regs = s.regs) :
    Registered B rs s' := by
  simp only [ParserSt.regs, Registers.mk.injEq] at hregs
  rcases hregs with ⟨h1, h2, h3, h4, -, -, -, h8⟩
  constructor
  · rw [h2]
    exact h.count
  · rw [h3]
    exact h.list
  · rw [h4]
    exact h.extra
  · rw [h1]
    exact h.entry
  · rw [h8]
    exact h.buffer
  · exact h.bound

theorem regs_other (h : ¬ LooksUp len s) : (parserTurn len s).state.regs = s.regs := by
  unfold parserTurn endLevel bodyLevel firstLine headersLevel headerKeyTurn headerValTurn
    mkHttpParserOk
  simp only
  repeat' split
  all_goals first
    | rfl
    | (exfalso
       apply h
       refine ⟨?_, ?_, ?_, ?_⟩ <;> assumption)

theorem turn_lookup (h : LooksUp len s) (hstart : s.p.start < s.p.i) :
    parserTurn len s =
      let r := headerLookup len { s with p := markEnd s.p }
      let s := r.1
      if r.2 ≠ 0 then .halt .error (if r.2 < -1 then raise s (-r.2) else s)
      else if s.p.i + 1 < len ∧ s.rd len (s.p.i + 1) = 10 then
        startNext s { s.p with i := s.p.i + 1, status := .headerKey, chars := -1 }
      else startNext s { s.p with status := .headerEnd } := by
  rcases h with ⟨hi, hl, hst, hcr⟩
  have hne : ¬ ((markEnd s.p).end_ : Int) - (markEnd s.p).start ≤ 0 := by
    simp only [markEnd]
    omega
  simp only [parserTurn, hi, if_true, hl, headersLevel, hst, headerValTurn, hcr, hne, if_false]

end Regs

theorem Reading.looked {B : Bytes} {rs : List Row} {s : ParserSt} (h : Reading B rs s) :
    Looked B rs := by
  unfold Reading at h
  split at h
  · rw [h.1]
    exact .none
  · rw [h.1]
    exact .none
  · unfold InRows at h
    split at h
    · rcases h with ⟨y, hrows, -⟩
      exact .rows hrows
    · rcases h with ⟨y, sep, hrows, -⟩
      exact .rows hrows
    · rcases h with ⟨y, sep, val, hrows, -⟩
      exact .rows hrows
    · rcases h with ⟨rs', r, rfl, hrows, hr, -⟩
      exact .last hrows hr
    · exact h.elim
  · rcases h with ⟨y, hrows, -⟩
    exact .rows hrows
  · rcases h with ⟨y, hrows, -⟩
    exact .rows hrows

section Turn

variable {B : Bytes} {len : Nat} {rs : List Row} {s : ParserSt}

/-- A turn that looks nothing up stays with the rows. -/
theorem reading_other (h : Reading B rs s) (hsame : SameText B s.buffer)
    (hno : ¬ LooksUp len s) : Leaves (Reading B rs) (parserTurn len s) := by
  unfold parserTurn
  split
  · next hi =>
    -- by the level, and among the headers by the status
    cases hl : s.p.level with
    | first =>
      simp only [Reading, hl, OnLine] at h
      rcases h with ⟨rfl, hbuf, hfirst⟩
      refine (onLine_firstLine hl hi hbuf hfirst).imp ?_
      intro e he
      have hon := he
      unfold OnLine at he
      unfold Reading
      split at he
      · next hle => simp only [hle]; exact ⟨trivial, hon⟩
      · next hle => simp only [hle]; exact ⟨trivial, hon⟩
      · exact he.elim
    | cont =>
      simp only [Reading, hl, OnLine] at h
      rcases h with ⟨rfl, hbuf, hstart, hs⟩
      have h13 := rd_byte hi hsame (d := 13) (by decide)
      simp only [h13]
      split
      · next hcr =>
        exact ⟨rfl, hbuf, s.p.i, hstart, rfl, hcr⟩
      · -- the first key starts here
        refine reading_key (s := { s with p := { s.p with level := .headers, status := .headerKey,
                                                          chars := 0 } }) rfl hi hsame rfl ?_
        exact ⟨s.p.i, .start hstart, hs, fun _ => rfl, fun hne => absurd rfl hne⟩
    | headers =>
      simp only [Reading, hl] at h
      cases hst : s.p.status with
      | headerKey =>
        simp only [headersLevel, hst]
        exact reading_key hl hi hsame hst h
      | headerValue => exact reading_value hl hi hsame hst h
      | headerValStarts =>
        simp only [headersLevel, hst]
        exact reading_val hl hi hsame hst h (fun hcr => hno ⟨hi, hl, hst, hcr⟩)
      | headerEnd => exact reading_lf hl hi hsame hst h
      | _ => simp [InRows, hst] at h
    | end_ =>
      simp only [Reading, hl] at h
      simp only [endLevel]
      split
      · split
        · exact h
        · exact leaves_mkHttpParserOk _ _
      · trivial
    | body =>
      simp only [Reading, hl] at h
      unfold bodyLevel
      simp only
      repeat' split
      all_goals first
        | exact leaves_mkHttpParserOk _ _
        | (simp only [Leaves, Reading, hl]
           exact h)
  · exact h

/-- An accepted request: the rows end with the blank line. -/
theorem reading_ok {e : ParserSt} (h : Reading B rs s) (hturn : parserTurn len s = .halt .ok e) :
    ∃ y, Rows B rs y ∧ cstr B y = 13 := by
  unfold parserTurn at hturn
  split at hturn
  · next hi =>
    cases hl : s.p.level with
    | first =>
      simp only [Reading, hl, OnLine] at h
      rcases h with ⟨rfl, hbuf, hfirst⟩
      simp only [hl] at hturn
      unfold firstLine at hturn
      simp only at hturn
      repeat' split at hturn
      all_goals first
        | cases hturn
        | skip
      next hst _ =>
        simp only [FirstLine, hst] at hfirst
        rcases hfirst with ⟨y, hstart, -, hcr⟩
        exact ⟨y, .start hstart, hcr⟩
    | cont =>
      simp only [hl] at hturn
      split at hturn
      · cases hturn
      · exact (headersLevel_not_ok hturn).elim
    | headers =>
      simp only [hl] at hturn
      exact (headersLevel_not_ok hturn).elim
    | end_ =>
      simp only [Reading, hl] at h
      exact h
    | body =>
      simp only [Reading, hl] at h
      exact h
  · cases hturn

/-- The turn that looks a row up. -/
theorem lookup_turn (h : Reading B rs s) (hreg : Registered B rs s) (hlook : LooksUp len s) :
    ∃ r, AtRow B len rs r { s with p := markEnd s.p } ∧
      ((headerLookup len { s with p := markEnd s.p }).2 ≠ 0 ∧
          (∃ e, parserTurn len s = .halt .error e ∧
            e.regs = (headerLookup len { s with p := markEnd s.p }).1.regs) ∨
        (headerLookup len { s with p := markEnd s.p }).2 = 0 ∧
          ∃ e, parserTurn len s = .next e ∧ Reading B (rs ++ [r]) e ∧
            e.regs = (headerLookup len { s with p := markEnd s.p }).1.regs) := by
  have hsame := hreg.sameText
  rcases hlook with ⟨hi, hl, hst, hcr⟩
  simp only [Reading, hl] at h
  rcases row_complete hi hsame hst h hcr with ⟨hstart, r, hr⟩
  have hturn := turn_lookup ⟨hi, hl, hst, hcr⟩ hstart
  have hstop : s.p.i = r.stop := hr.stop
  have hpos : (headerLookup len { s with p := markEnd s.p }).1.p.i = s.p.i := headerLookup_i len _
  have hlev : (headerLookup len { s with p := markEnd s.p }).1.p.level = .headers := by
    rcases headerLookup_p len { s with p := markEnd s.p } with ⟨_, _, _, _, _, _, _, hp⟩
    rw [hp]
    exact hl
  have hlf : ∀ x, (headerLookup len { s with p := markEnd s.p }).1.buffer x = 10 ↔ cstr B x = 10 :=
    fun x => (headerLookup_control len _ x (by decide)).trans ((hsame x).1 10 (by decide))
  refine ⟨r, hr, ?_⟩
  generalize headerLookup len { s with p := markEnd s.p } = t at hturn hpos hlev hlf
  simp only at hturn
  by_cases hcode : t.2 = 0
  · refine .inr ⟨hcode, ?_⟩
    rw [hturn, if_neg (not_not.mpr hcode)]
    split
    · next hline =>
      -- the LF is there already
      refine ⟨_, rfl, ?_, rfl⟩
      have h10 := (hlf _).mp (rd_received len _ _ (by decide) hline.2).1
      simp only [Reading, hlev, InRows]
      refine ⟨r.stop + 2, hr.rows.row hr.row ?_, by omega, by omega, fun hne => absurd rfl hne⟩
      rwa [hpos, hstop] at h10
    · refine ⟨_, rfl, ?_, rfl⟩
      simp only [Reading, hlev, InRows]
      exact ⟨rs, r, rfl, hr.rows, hr.row, by omega⟩
  · refine .inl ⟨hcode, ?_⟩
    rw [hturn, if_pos hcode]
    split
    · exact ⟨_, rfl, rfl⟩
    · exact ⟨_, rfl, rfl⟩

end Turn

/-! ## The rule -/

section Rule

variable {B : Bytes} {J : List Row → Registers → Prop}

/-- What holds between two turns. -/
def RowsInv (B : Bytes) (J : List Row → Registers → Prop) (s : ParserSt) : Prop :=
  ∃ rs, Reading B rs s ∧ Registered B rs s ∧ J rs s.regs

/-- What holds when the parser has answered. -/
def RowsEnd (B : Bytes) (J : List Row → Registers → Prop) (a : ParserRet) (e : ParserSt) : Prop :=
  ∃ rs, Looked B rs ∧ Registered B rs e ∧
    (a = .ok → (∃ y, Rows B rs y ∧ cstr B y = 13) ∧ J rs e.regs)

/-- `J` is kept by every look-up that goes well. -/
def LookupKeeps (B : Bytes) (J : List Row → Registers → Prop) : Prop :=
  ∀ len rs r s, AtRow B len rs r s → Registered B rs s → J rs s.regs →
    (headerLookup len s).2 = 0 → J (rs ++ [r]) (headerLookup len s).1.regs

/-- A look-up that goes well registers its row. -/
theorem AtRow.registered {len : Nat} {rs : List Row} {r : Row} {s : ParserSt}
    (hr : AtRow B len rs r s) (hreg : Registered B rs s) (hcode : (headerLookup len s).2 = 0) :
    Registered B (rs ++ [r]) (headerLookup len s).1 := by
  cases hn : rowName B r with
  | some n => exact lookup_known hr hn hreg
  | none =>
    by_cases hroom : (extraRows B rs).length < headerExtraSize
    · exact (lookup_extra hr hn hreg hroom).2
    · rw [lookup_full hr hn hreg hroom] at hcode
      simp [clientRequestEntityTooLarge] at hcode

theorem rowsInv_turn (hJ : LookupKeeps B J) (len : Nat) (s : ParserSt) (h : RowsInv B J s) :
    Leads (RowsInv B J) (RowsEnd B J) (parserTurn len s) := by
  rcases h with ⟨rs, hread, hreg, hj⟩
  by_cases hlook : LooksUp len s
  · have hmark : Registered B rs { s with p := markEnd s.p } := hreg.congr rfl
    rcases lookup_turn hread hreg hlook with ⟨r, hr, ⟨hcode, e, hturn, hregs⟩ |
      ⟨hcode, e, hturn, hread', hregs⟩⟩
    · -- refused, with or without an entry
      rw [hturn]
      cases hn : rowName B r with
      | some n =>
        have hreg' := lookup_known hr hn hmark
        exact ⟨rs ++ [r], .last hr.rows hr.row, hreg'.congr hregs, fun h => nomatch h⟩
      | none =>
        by_cases hroom : (extraRows B rs).length < headerExtraSize
        · exact absurd (lookup_extra hr hn hmark hroom).1 hcode
        · rw [lookup_full hr hn hmark hroom] at hregs
          exact ⟨rs, hread.looked, hreg.congr hregs, fun h => nomatch h⟩
    · rw [hturn]
      have hj' := hJ len rs r _ hr hmark hj hcode
      exact ⟨rs ++ [r], hread', (hr.registered hmark hcode).congr hregs, by rwa [hregs]⟩
  · have hregs := regs_other hlook
    refine leads_of_leaves ?_ ?_
    · refine (reading_other hread hreg.sameText hlook).imp_state ?_
      intro hread'
      exact ⟨rs, hread', hreg.congr hregs, by rwa [hregs]⟩
    · intro a e hturn _
      rw [hturn] at hregs
      refine ⟨rs, hread.looked, hreg.congr hregs, ?_⟩
      rintro rfl
      exact ⟨reading_ok hread hturn, by rwa [show e.regs = s.regs from hregs]⟩

/-- The rule for a request that is accepted. -/
theorem feed_rows (hJ : LookupKeeps B J) (req : ParsedRequest)
    (h0 : J [] (parserFresh req B).regs) {l len : Nat} {ls : List Nat} {e : ParserSt}
    (hfeed : feed (parserFresh req B) l ls = ((.ok, e), len)) :
    ∃ rs y, Rows B rs y ∧ cstr B y = 13 ∧ Registered B rs e ∧ J rs e.regs := by
  have hstart : RowsInv B J (parserFresh req B) :=
    ⟨[], ⟨rfl, onLine_fresh req B⟩, registered_fresh req B, h0⟩
  rcases feed_rule_ok (rowsInv_turn hJ) hstart hfeed with ⟨rs, -, hreg, hok⟩
  rcases hok rfl with ⟨⟨y, hrows, hcr⟩, hj⟩
  exact ⟨rs, y, hrows, hcr, hreg, hj⟩

/-- The rows looked up after any number of calls, whatever the answer. -/
theorem feed_looked (req : ParsedRequest) (B : Bytes) (l : Nat) (ls : List Nat) :
    ∃ rs, Looked B rs ∧ Registered B rs (feed (parserFresh req B) l ls).1.2 := by
  have hJ : LookupKeeps B (fun _ _ => True) := fun _ _ _ _ _ _ _ _ => trivial
  have hstart : RowsInv B (fun _ _ => True) (parserFresh req B) :=
    ⟨[], ⟨rfl, onLine_fresh req B⟩, registered_fresh req B, trivial⟩
  rcases feed_rule (rowsInv_turn hJ) hstart l ls with ⟨-, rs, hread, hreg, -⟩ |
    ⟨-, rs, hlooked, hreg, -⟩
  · exact ⟨rs, hread.looked, hreg⟩
  · exact ⟨rs, hlooked, hreg⟩

end Rule

/-! ## The rows that have come -/

section Come

variable {B : Bytes} {rs : List Row} {s : ParserSt} {y i : Nat}

/-- The cursor is behind the rows that have been looked up. -/
def RowsBehind (B : Bytes) (s : ParserSt) : Prop :=
  ∃ rs, Reading B rs s ∧ Registered B rs s ∧ ∀ r ∈ rs, r.stop < s.p.i

theorem rowsBehind_turn (len : Nat) (s : ParserSt) (h : RowsBehind B s) :
    Leads (RowsBehind B) (fun _ _ => True) (parserTurn len s) := by
  rcases h with ⟨rs, hread, hreg, hbehind⟩
  have hforward := parserTurn_forward len s
  by_cases hlook : LooksUp len s
  · rcases lookup_turn hread hreg hlook with ⟨r, hr, ⟨-, e, hturn, -⟩ |
      ⟨hcode, e, hturn, hread', hregs⟩⟩
    · rw [hturn]
      trivial
    · have hlt := (parserTurn_next hturn).2
      have hstop : s.p.i = r.stop := hr.stop
      rw [hturn]
      refine ⟨rs ++ [r], hread', (hr.registered (hreg.congr rfl) hcode).congr hregs, ?_⟩
      intro q hq
      rcases List.mem_append.mp hq with hq | hq
      · exact Nat.lt_trans (hbehind q hq) hlt
      · rw [List.mem_singleton.mp hq]
        omega
  · have hregs := regs_other hlook
    refine leads_of_leaves ?_ fun _ _ _ _ => trivial
    have hleaves := (reading_other hread hreg.sameText hlook).and hforward
    refine hleaves.imp_state fun hread' => ?_
    exact ⟨rs, hread'.1, hreg.congr hregs, fun r hr => Nat.lt_of_lt_of_le (hbehind r hr) hread'.2⟩

/-- No row ends before `i` where the first one does not. -/
theorem takeWhile_rowsFrom {n : Nat} (hnext : ∀ r, IsRow (cstr B) r → r.key = y → i ≤ r.stop) :
    (rowsFrom B n y).takeWhile (fun r => r.stop < i) = [] := by
  cases n with
  | zero => rfl
  | succ n =>
    rw [rowsFrom]
    cases hrow : rowAt B y with
    | none => rfl
    | some r =>
      rcases isRow_of_rowAt hrow with ⟨hkey, hr⟩
      exact List.takeWhile_cons_of_neg (by simpa using hnext r hr hkey)

theorem takeWhile_behind {more : List Row} (hbehind : ∀ r ∈ rs, r.stop < i) :
    (rs ++ more).takeWhile (fun r => r.stop < i) =
      rs ++ more.takeWhile (fun r => r.stop < i) :=
  List.takeWhile_append_of_pos fun r hr => decide_eq_true (hbehind r hr)

theorem Rows.takeWhile_eq (h : Rows B rs y) (hbehind : ∀ r ∈ rs, r.stop < i)
    (hnext : ∀ r, IsRow (cstr B) r → r.key = y → i ≤ r.stop) :
    (headerRows B).takeWhile (fun r => r.stop < i) = rs := by
  rw [h.headerRows_eq, takeWhile_behind hbehind, takeWhile_rowsFrom hnext, List.append_nil]

/-- On the request line the rows are still to come. -/
theorem OnLine.le_start (h : OnLine B s) (hy : HeadersStart B y) : s.p.i ≤ y + 1 := by
  rcases hy with ⟨m, e, htarget, rfl⟩
  have hstart : HeadersStart B (e + 11) := ⟨m, e, htarget, rfl⟩
  have hsame : ∀ {z}, HeadersStart B z → z = e + 11 := fun hz =>
    Option.some_inj.mp ((headersStart_eq hz).symm.trans (headersStart_eq hstart))
  have hlt := htarget.lt
  rcases htarget.method with ⟨hm1, hmb, hmno⟩
  have huri : (∃ m', FirstBlank B m' ∧ m' < s.p.i ∧ NoBlank B (m' + 1) s.p.i) →
      s.p.i ≤ e + 11 + 1 := by
    rintro ⟨m', ⟨hm1', hmb', hmno'⟩, hmi, hnob⟩
    by_contra hno
    have hle : m ≤ m' := by
      by_contra hgt
      exact hmno m' hm1' (by omega) hmb'
    have hge : m' ≤ m := by
      by_contra hgt
      exact hmno' m hm1 (by omega) hmb
    exact hnob e (by omega) (by omega) htarget.blank
  have htarget' : ∀ {m' e'}, Target B m' e' → e' = e := fun h' =>
    Nat.add_right_cancel (hsame ⟨_, _, h', rfl⟩)
  unfold OnLine at h
  split at h
  · have hline := h.2
    unfold FirstLine at hline
    split at hline
    · -- before the first blank
      by_contra hno
      exact hline.2.2 m hm1 (by omega) hmb
    · exact huri hline
    · exact huri hline
    · rcases hline with ⟨m', e', h', -, -, hi⟩
      have := htarget' h'
      omega
    · rcases hline with ⟨m', e', h', hi⟩
      have := htarget' h'
      omega
    · rcases hline with ⟨m', e', h', hi⟩
      have := htarget' h'
      omega
    · rcases hline with ⟨y, hy, hi, -⟩
      have := hsame hy
      omega
    · exact hline.elim
  · have := hsame h.2.1
    omega
  · exact h.elim

/-- There is one colon behind a key. -/
theorem KeyRead.sep_eq {sep : Nat} {r : Row} (h : KeyRead B y sep s) (hr : IsRow (cstr B) r)
    (hry : r.key = y) : r.sep = sep := by
  have hlt := h.lt
  have hlt' := hr.sep.1
  rcases Nat.lt_trichotomy r.sep sep with hsep | hsep | hsep
  · exact absurd hr.sep.2.1 (h.no r.sep (by omega) hsep)
  · exact hsep
  · exact absurd h.colon (hr.sep.2.2 sep (by omega) hsep)

/-- What has been looked up is what stands before the cursor. -/
theorem Reading.rows_eq (h : Reading B rs s) (hbehind : ∀ r ∈ rs, r.stop < s.p.i) :
    (headerRows B).takeWhile (fun r => r.stop < s.p.i) = rs := by
  have hline : rs = [] ∧ OnLine B s → (headerRows B).takeWhile (fun r => r.stop < s.p.i) = rs := by
    rintro ⟨rfl, honline⟩
    rw [headerRows]
    cases hy : headersStart B with
    | none => rfl
    | some y =>
      have hle := honline.le_start (headersStart_iff.mp hy)
      refine takeWhile_rowsFrom fun r hr hkey => ?_
      have h1 := hr.sep.1
      have h2 := hr.val.1
      have h3 := hr.stop.1
      omega
  unfold Reading at h
  split at h
  · exact hline h
  · exact hline h
  · unfold InRows at h
    split at h
    · rcases h with ⟨y, hrows, -, hfirst, hkey⟩
      refine hrows.takeWhile_eq hbehind fun r hr hry => ?_
      have h1 := hr.sep.1
      have h2 := hr.val.1
      have h3 := hr.stop.1
      by_cases hchars : s.p.chars = 0
      · have := hfirst hchars
        omega
      · -- the colon has not come
        by_contra hno
        exact (hkey hchars).2.2.2 r.sep (by omega) (by omega) hr.sep.2.1
    · rcases h with ⟨y, sep, hrows, hkey, hlt, hblank⟩
      refine hrows.takeWhile_eq hbehind fun r hr hry => ?_
      have hsep := hkey.sep_eq hr hry
      have h3 := hr.stop.1
      by_contra hno
      -- nor the first byte of the value
      exact hr.val.2.1 (hblank r.val (hsep ▸ hr.val.1) (by omega))
    · rcases h with ⟨y, sep, val, hrows, hkey, -, -, hsv, hvi, hne, hblank, hno⟩
      refine hrows.takeWhile_eq hbehind fun r hr hry => ?_
      have hsep := hkey.sep_eq hr hry
      have hval : r.val = val := by
        rcases Nat.lt_trichotomy r.val val with hlt | heq | hlt
        · exact absurd (hblank r.val (hsep ▸ hr.val.1) hlt) hr.val.2.1
        · exact heq
        · exact absurd (hr.val.2.2 val (hsep ▸ hsv) hlt) hne
      have h3 := hr.stop.1
      by_contra hlt
      -- nor the CR behind it
      exact (hno r.stop (by omega) (by omega)).1 hr.stop.2.1
    · rcases h with ⟨rs', r, rfl, hrows, hr, hi⟩
      -- the LF may be missing
      rcases hrows.headerRows_last hr with ⟨n, heq⟩
      rw [heq, ← List.singleton_append, ← List.append_assoc, takeWhile_behind hbehind]
      split
      · rw [takeWhile_rowsFrom, List.append_nil]
        intro q hq hkey
        have h1 := hq.sep.1
        have h2 := hq.val.1
        have h3 := hq.stop.1
        omega
      · exact List.append_nil _
    · exact h.elim
  all_goals
    rcases h with ⟨y, hrows, hcr⟩
    exact hrows.takeWhile_eq hbehind fun r hr hry => absurd hcr (hry ▸ hr.key)

/-- While the request waits, the rows that have been looked up are those whose CR has come
before the cursor. -/
theorem feed_waiting (req : ParsedRequest) (B : Bytes) (l : Nat) (ls : List Nat)
    (hwait : (feed (parserFresh req B) l ls).1.1 = .pending) :
    Registered B
      ((headerRows B).takeWhile fun r => r.stop < (feed (parserFresh req B) l ls).1.2.p.i)
      (feed (parserFresh req B) l ls).1.2 := by
  have hstart : RowsBehind B (parserFresh req B) :=
    ⟨[], ⟨rfl, onLine_fresh req B⟩, registered_fresh req B, fun _ h => nomatch h⟩
  rcases feed_rule rowsBehind_turn hstart l ls with ⟨-, rs, hread, hreg, hbehind⟩ | ⟨hnot, -⟩
  · rwa [hread.rows_eq hbehind]
  · exact absurd hwait hnot

end Come

end SuperExe.Http
