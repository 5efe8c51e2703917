import Mathlib.Data.List.TakeWhile
import SuperExe.Http.Framing
import SuperExe.Http.Range
import SuperExe.Http.Recognition

/-! # Numbers in the header rows

`Content-Length` and the port of `Host` are read with `strtol`, which skips white
space, takes a sign and stops at the first byte that is no digit. What is not a
plain number is therefore not always refused, and a repeated header overwrites
the number of an earlier one. `numeric_iff` says for which accepted requests the
numbers are those of the texts.
-/

namespace SuperExe.Http

open SuperExe.Core SuperExe.Lib

/-! ## Texts -/

/-- `isblank(3)` -/
def isBlank (c : UInt8) : Bool := c == 32 || c == 9

/-- Without the blanks at both ends. -/
def trim (t : Bytes) : Bytes := (((t.dropWhile isBlank).reverse).dropWhile isBlank).reverse

theorem trim_split (t : Bytes) : ∃ a b, t = a ++ trim t ++ b ∧ (∀ c ∈ a, isBlank c = true) ∧
    ∀ c ∈ b, isBlank c = true := by
  refine ⟨t.takeWhile isBlank, ((t.dropWhile isBlank).reverse.takeWhile isBlank).reverse, ?_, ?_, ?_⟩
  · rw [List.append_assoc, trim, ← List.reverse_append, List.takeWhile_append_dropWhile,
      List.reverse_reverse, List.takeWhile_append_dropWhile]
  · intro c hc
    exact List.mem_takeWhile_imp hc
  · intro c hc
    exact List.mem_takeWhile_imp (List.mem_reverse.mp hc)

theorem isBlank_plain {c : UInt8} (h : isBlank c = true) :
    isSpace c = true ∧ isDigit c = false := by
  simp only [isBlank, Bool.or_eq_true, beq_iff_eq] at h
  rcases h with rfl | rfl
  · decide
  · decide

/-! ## The numbers of a request -/

/-- The value of a row. -/
def Row.text (B : Bytes) (r : Row) : Bytes := window (fun k => cstr B (r.val + k)) (r.stop - r.val)

/-- Where the last colon of a `Host` value stands, as `str_searchr` finds it. -/
def hostSep (B : Bytes) (r : Row) : Int := strSearchr (cstr (r.text B)) 58 (r.text B).length

/-- What follows the last colon. -/
def portText (B : Bytes) (r : Row) : Option Bytes :=
  if 0 ≤ hostSep B r then some ((r.text B).drop ((hostSep B r).toNat + 1)) else none

/-- The numbers of an accepted request are those of its texts. -/
structure Numeric (B : Bytes) (e : ParserSt) : Prop where
  length : ∀ r ∈ headerRows B, rowName B r = some HeaderName.contentLength →
    isNumber (trim (r.text B)) = true ∧ e.p.headerContentLength = decimalValue (trim (r.text B))
  port : ∀ r ∈ headerRows B, rowName B r = some HeaderName.host →
    ∀ t, portText B r = some t →
      isNumber t = true ∧ decimalValue t ≤ 65535 ∧ e.p.headerHostPort = decimalValue t

/-- The texts are plain numbers that do not contradict each other, and a port is
not only given behind an empty host, where the code does not look for it. -/
structure PlainNumbers (B : Bytes) : Prop where
  length : ∀ r ∈ headerRows B, rowName B r = some HeaderName.contentLength →
    isNumber (trim (r.text B)) = true
  sameLength : ∀ r ∈ headerRows B, rowName B r = some HeaderName.contentLength →
    ∀ q ∈ headerRows B, rowName B q = some HeaderName.contentLength →
      decimalValue (trim (r.text B)) = decimalValue (trim (q.text B))
  port : ∀ r ∈ headerRows B, rowName B r = some HeaderName.host →
    ∀ t, portText B r = some t → isNumber t = true ∧ decimalValue t ≤ 65535
  samePort : ∀ r ∈ headerRows B, rowName B r = some HeaderName.host →
    ∀ t, portText B r = some t → ∀ q ∈ headerRows B, rowName B q = some HeaderName.host →
      ∀ u, portText B q = some u → decimalValue t = decimalValue u
  named : ∀ r ∈ headerRows B, rowName B r = some HeaderName.host →
    ∀ t, portText B r = some t → decimalValue t ≠ 0 →
      ∃ q ∈ headerRows B, rowName B q = some HeaderName.host ∧ 0 < hostSep B q

section Value

variable {B : Bytes} {len : Nat} {rs : List Row} {r : Row} {s : ParserSt}

@[simp] theorem Row.length_text : (r.text B).length = r.stop - r.val := by simp [Row.text]

theorem Row.cstr_text {k : Nat} (hk : k < r.stop - r.val) :
    cstr (r.text B) k = cstr B (r.val + k) := by
  simp [Row.text, cstr, window, hk]

theorem Rows.before {y : Nat} (h : Rows B rs y) : ∀ q ∈ rs, q.sep < y := by
  induction h with
  | start _ => simp
  | @row rs r h hr hlf ih =>
    have h1 := hr.sep.1
    have h2 := hr.val.1
    have h3 := hr.stop.1
    intro q hq
    rcases List.mem_append.mp hq with hq | hq
    · have := ih q hq
      omega
    · rw [List.mem_singleton] at hq
      subst hq
      omega

/-- The bytes of a row that has not been looked up yet. -/
theorem AtRow.rd_value (h : AtRow B len rs r s) (hreg : Registered B rs s) {x : Nat}
    (hx : r.key ≤ x) (hlt : x < len) : s.rd len x = cstr B x := by
  rw [ParserSt.rd, if_pos hlt, hreg.buffer, loweredText, if_neg]
  rintro ⟨q, hq, hqx⟩
  have hmem : q ∈ rs := (List.mem_filter.mp hq).1
  have := h.rows.before q hmem
  omega

theorem AtRow.rd_text (h : AtRow B len rs r s) (hreg : Registered B rs s) {k : Nat}
    (hk : k < r.stop - r.val) : s.rd len (r.val + k) = cstr (r.text B) k := by
  have h1 := h.row.sep.1
  have h2 := h.row.val.1
  have h3 := h.lt
  rw [Row.cstr_text hk]
  exact h.rd_value hreg (by omega) (by omega)

/-- The number that is read from a plain `Content-Length`. -/
theorem strtol_text (h : AtRow B len rs r s) (hreg : Registered B rs s)
    (ht : isNumber (trim (r.text B)) = true) (hrange : (strtol (s.rd len) len r.val).erange = false) :
    (strtol (s.rd len) len r.val).val = decimalValue (trim (r.text B)) := by
  rcases trim_split (r.text B) with ⟨a, b, hsplit, ha, hb⟩
  have hlen : (r.text B).length = a.length + (trim (r.text B)).length + b.length := by
    conv => lhs; rw [hsplit]
    simp only [List.length_append]
  rw [Row.length_text] at hlen
  have hstop := h.row.stop.1
  have hlt := h.lt
  have hbyte : ∀ k < r.stop - r.val, s.rd len (r.val + k) =
      cstr (a ++ trim (r.text B) ++ b) k := by
    intro k hk
    rw [← hsplit]
    exact h.rd_text hreg hk
  generalize trim (r.text B) = t at ht hlen hbyte
  refine strtol_number_val (n := a.length) ?_ ht ?_ (by omega) ?_ hrange
  · intro k hk
    rw [hbyte k (by omega)]
    refine (isBlank_plain (ha _ ?_)).1
    simp [cstr, List.getElem?_append, hk]
  · intro k hk
    rw [Nat.add_assoc, hbyte _ (by omega)]
    have hnot : ¬ a.length + k < a.length := by omega
    simp [cstr, List.getElem?_append, hk, hnot]
  · right
    cases b with
    | nil =>
      -- the CR
      have hcr : s.rd len r.stop = 13 := by
        rw [h.rd_value hreg (by have := h.row.sep.1; have := h.row.val.1; omega) hlt]
        exact h.row.stop.2.1
      rw [show r.val + a.length + t.length = r.stop by simp at hlen; omega, hcr]
      decide
    | cons c b =>
      have hpos : a.length + t.length < r.stop - r.val := by
        simp only [List.length_cons] at hlen
        omega
      rw [Nat.add_assoc, hbyte _ hpos]
      refine (isBlank_plain (hb _ ?_)).2
      simp [cstr]

/-- The colon that `header_lookup` finds. -/
theorem searchr_text (h : AtRow B len rs r s) (hreg : Registered B rs s) :
    strSearchr (fun k => s.rd len (r.val + k)) 58 (r.stop - r.val) = hostSep B r := by
  rw [hostSep, Row.length_text]
  exact strSearchr_congr fun k hk => h.rd_text hreg hk

/-- The bytes that are copied to `port`. -/
theorem port_text (h : AtRow B len rs r s) (hreg : Registered B rs s) (hpos : 0 < hostSep B r) :
    ((List.range (((r.stop - r.val : Nat) : Int) - hostSep B r - 1).toNat).map fun k =>
      s.rd len (r.val + (hostSep B r).toNat + 1 + k)) =
        (r.text B).drop ((hostSep B r).toNat + 1) := by
  have hlen : (((r.stop - r.val : Nat) : Int) - hostSep B r - 1).toNat =
      r.stop - r.val - ((hostSep B r).toNat + 1) := by omega
  rw [hlen]
  apply List.ext_getElem
  · simp
  · intro k h1 h2
    have hk : (hostSep B r).toNat + 1 + k < r.stop - r.val := by
      simp only [List.length_map, List.length_range] at h1
      omega
    rw [List.getElem_map, List.getElem_range, List.getElem_drop]
    have hbyte := h.rd_text hreg hk
    rw [show r.val + (hostSep B r).toNat + 1 + k = r.val + ((hostSep B r).toNat + 1 + k) by omega,
      hbyte]
    simp [cstr, hk]

end Value

/-! ## What a look-up does to the numbers -/

section Lookup

variable {B : Bytes} {len : Nat} {rs : List Row} {r : Row} {s : ParserSt}

/-- Any header but the two leaves them. -/
theorem lookup_other (h : AtRow B len rs r s) (hreg : Registered B rs s)
    (hl : rowName B r ≠ some HeaderName.contentLength)
    (hh : rowName B r = some HeaderName.host → ¬ 0 < hostSep B r) :
    (headerLookup len s).1.p.headerContentLength = s.p.headerContentLength ∧
      (headerLookup len s).1.p.headerHostPort = s.p.headerHostPort := by
  have hmatch := headerMatch_eq h hreg.sameText
  unfold headerLookup
  rw [hmatch]
  cases hn : rowName B r with
  | none =>
    simp only
    split
    · exact ⟨rfl, rfl⟩
    · exact ⟨rfl, rfl⟩
  | some n =>
    have hnl : n ≠ HeaderName.contentLength := by
      rintro rfl
      exact hl hn
    simp only [if_neg hnl]
    split
    · next hhost =>
      have hsep : ¬ strSearchr (fun k => s.rd len (r.val + k)) 58 (r.stop - r.val) > 0 := by
        rw [searchr_text h hreg]
        exact hh (hn.trans (congrArg some hhost))
      simp only [lookupHost, registerHeader, h.val, h.stop, Int.toNat_natCast, if_neg hsep,
        and_self]
    · split
      · exact ⟨rfl, rfl⟩
      · exact ⟨rfl, rfl⟩

theorem lookup_length (h : AtRow B len rs r s) (hreg : Registered B rs s)
    (hn : rowName B r = some HeaderName.contentLength) (hcode : (headerLookup len s).2 = 0) :
    (headerLookup len s).1.p.headerHostPort = s.p.headerHostPort ∧
      (strtol (s.rd len) len r.val).erange = false ∧
      (headerLookup len s).1.p.headerContentLength = (strtol (s.rd len) len r.val).val := by
  have hne : ¬ HeaderName.contentLength = HeaderName.host := by decide
  have hmatch := headerMatch_eq h hreg.sameText
  unfold headerLookup at hcode ⊢
  rw [hmatch, hn] at hcode ⊢
  simp only [if_neg hne, if_true, lookupContentLength, registerHeader, h.val, Int.toNat_natCast]
    at hcode ⊢
  cases hrange : (strtol (s.rd len) len r.val).erange with
  | true => simp [hrange, clientRequestEntityTooLarge] at hcode
  | false =>
    simp only [hrange, Bool.false_eq_true, if_false] at hcode ⊢
    by_cases hend : (strtol (s.rd len) len r.val).endptr = r.val
    · simp [if_pos hend] at hcode
    · simp only [if_neg hend] at hcode ⊢
      by_cases hneg : (strtol (s.rd len) len r.val).val < 0
      · simp [if_pos hneg] at hcode
      · simp only [if_neg hneg, and_self]

theorem lookup_port (h : AtRow B len rs r s) (hreg : Registered B rs s)
    (hn : rowName B r = some HeaderName.host) (hpos : 0 < hostSep B r)
    (hcode : (headerLookup len s).2 = 0) {t : Bytes} (ht : portText B r = some t)
    (hdig : isNumber t = true) :
    (headerLookup len s).1.p.headerContentLength = s.p.headerContentLength ∧
      (headerLookup len s).1.p.headerHostPort = decimalValue t := by
  have hmatch := headerMatch_eq h hreg.sameText
  have hsep := searchr_text h hreg
  have hport := port_text h hreg hpos
  have htext : (r.text B).drop ((hostSep B r).toNat + 1) = t := by
    rw [portText, if_pos (Int.le_of_lt hpos)] at ht
    exact Option.some.inj ht
  rw [htext] at hport
  have hnum : (strtol (cstr t) t.length 0).erange = false →
      (strtol (cstr t) t.length 0).val = decimalValue t :=
    strtol_number_val (n := 0) (by omega) hdig (fun k _ => by simp) (by omega) (.inl (by omega))
  unfold headerLookup at hcode ⊢
  rw [hmatch, hn] at hcode ⊢
  simp only [if_true, lookupHost, registerHeader, h.val, h.stop, Int.toNat_natCast, hsep,
    if_pos (show hostSep B r > 0 from hpos), hport] at hcode ⊢
  split at hcode
  · simp [clientBadRequest] at hcode
  · next hplen =>
    simp only [if_neg hplen] at ⊢
    cases hrange : (strtol (cstr t) t.length 0).erange with
    | true => simp [hrange, clientBadRequest] at hcode
    | false =>
      simp only [hrange, Bool.false_eq_true, if_false] at hcode ⊢
      split at hcode
      · simp [clientBadRequest] at hcode
      · next hend =>
        simp only [if_neg hend]
        exact ⟨trivial, hnum hrange⟩

end Lookup

/-! ## Whole requests -/

/-- What the rows that have been looked up say about the numbers. -/
structure NumbersOf (B : Bytes) (rs : List Row) (g : Registers) : Prop where
  noPort : (∀ r ∈ rs, rowName B r = some HeaderName.host → ¬ 0 < hostSep B r) →
    g.headerHostPort = 0
  length : PlainNumbers B → ∀ r ∈ rs, rowName B r = some HeaderName.contentLength →
    g.headerContentLength = decimalValue (trim (r.text B))
  port : PlainNumbers B → ∀ r ∈ rs, rowName B r = some HeaderName.host → 0 < hostSep B r →
    ∀ t, portText B r = some t → g.headerHostPort = decimalValue t

theorem numbersOf_fresh (req : ParsedRequest) (B : Bytes) :
    NumbersOf B [] (parserFresh req B).regs where
  noPort _ := rfl
  length _ _ hr := absurd hr List.not_mem_nil
  port _ _ hr := absurd hr List.not_mem_nil

/-- The row at the cursor and those before it are rows of the request. -/
theorem AtRow.mem_headerRows {B : Bytes} {len : Nat} {rs : List Row} {r q : Row} {s : ParserSt}
    (h : AtRow B len rs r s) (hq : q ∈ rs ++ [r]) : q ∈ headerRows B := by
  rw [(Looked.last h.rows h.row).take] at hq
  exact List.mem_of_mem_take hq

theorem numbersOf_lookup (B : Bytes) : LookupKeeps B (NumbersOf B) := by
  intro len rs r s h hreg hj hcode
  have hrow : r ∈ headerRows B := h.mem_headerRows (by simp)
  have hne : HeaderName.contentLength ≠ HeaderName.host := by decide
  -- a `Content-Length` row sets the length and leaves the port
  by_cases hl : rowName B r = some HeaderName.contentLength
  · rcases lookup_length h hreg hl hcode with ⟨hport, hrange, hlen⟩
    have hnot : rowName B r ≠ some HeaderName.host := by
      rw [hl]
      exact fun heq => hne (Option.some.inj heq)
    refine ⟨?_, ?_, ?_⟩
    · intro hno
      exact hport.trans (hj.noPort fun q hq => hno q (List.mem_append_left _ hq))
    · intro hp q hq hql
      have hmem := h.mem_headerRows hq
      have hval := strtol_text h hreg (hp.length r hrow hl) hrange
      rw [hp.sameLength q hmem hql r hrow hl]
      exact hlen.trans hval
    · intro hp q hq hqh hpos t ht
      rcases List.mem_append.mp hq with hq | hq
      · exact hport.trans (hj.port hp q hq hqh hpos t ht)
      · rw [List.mem_singleton] at hq
        subst hq
        exact absurd hqh hnot
  · by_cases hh : rowName B r = some HeaderName.host ∧ 0 < hostSep B r
    · rcases hh with ⟨hhost, hpos⟩
      have ht : portText B r = some ((r.text B).drop ((hostSep B r).toNat + 1)) :=
        if_pos (Int.le_of_lt hpos)
      refine ⟨?_, ?_, ?_⟩
      · intro hno
        exact absurd hpos (hno r (by simp) hhost)
      · intro hp q hq hql
        rcases List.mem_append.mp hq with hq | hq
        · have hkeep := lookup_port h hreg hhost hpos hcode ht (hp.port r hrow hhost _ ht).1
          exact hkeep.1.trans (hj.length hp q hq hql)
        · rw [List.mem_singleton] at hq
          subst hq
          exact absurd hql hl
      · intro hp q hq hqh hqpos u hu
        have hset := lookup_port h hreg hhost hpos hcode ht (hp.port r hrow hhost _ ht).1
        rw [hp.samePort q (h.mem_headerRows hq) hqh u hu r hrow hhost _ ht]
        exact hset.2
    · rcases lookup_other h hreg hl (fun hhost hpos => hh ⟨hhost, hpos⟩) with ⟨hlen, hport⟩
      refine ⟨?_, ?_, ?_⟩
      · intro hno
        exact hport.trans (hj.noPort fun q hq => hno q (List.mem_append_left _ hq))
      · intro hp q hq hql
        rcases List.mem_append.mp hq with hq | hq
        · exact hlen.trans (hj.length hp q hq hql)
        · rw [List.mem_singleton] at hq
          subst hq
          exact absurd hql hl
      · intro hp q hq hqh hpos t ht
        rcases List.mem_append.mp hq with hq | hq
        · exact hport.trans (hj.port hp q hq hqh hpos t ht)
        · rw [List.mem_singleton] at hq
          subst hq
          exact absurd ⟨hqh, hpos⟩ hh

/-- The numbers after all rows of an accepted request. -/
theorem feed_numbers (req : ParsedRequest) (B : Bytes) {l len : Nat} {ls : List Nat} {e : ParserSt}
    (hfeed : feed (parserFresh req B) l ls = ((.ok, e), len)) :
    NumbersOf B (headerRows B) e.regs := by
  rcases feed_rows (numbersOf_lookup B) req (numbersOf_fresh req B) hfeed with
    ⟨rs, y, hrows, hcr, -, hj⟩
  rw [hrows.eq_headerRows hcr]
  exact hj

/-- With plain numbers the body is framed exactly if what follows the blank line is as
long as the row says. -/
theorem bodyFramed_iff_contentLength {req : ParsedRequest} {B : Bytes} {l : Nat} {ls : List Nat}
    {e : ParserSt} (hfeed : feed (parserFresh req B) l ls = ((.ok, e), B.length))
    (hp : PlainNumbers B) {r : Row} (hr : r ∈ headerRows B)
    (hn : rowName B r = some HeaderName.contentLength) (hpos : 0 < decimalValue (trim (r.text B))) :
    BodyFramed B e ↔
      ∃ h, headerEnd B = some h ∧ B.length = h + decimalValue (trim (r.text B)) := by
  have hlength : e.p.headerContentLength = decimalValue (trim (r.text B)) :=
    (feed_numbers req B hfeed).length hp r hr hn
  rw [bodyFramed_iff req B l ls e hfeed (by omega), hlength]
  refine exists_congr fun h => and_congr_right fun _ => ?_
  omega

/-- However a request is cut, when it is accepted its numbers are those of its
texts exactly if the texts are plain numbers and agree. -/
theorem numeric_iff (req : ParsedRequest) (B : Bytes) (l len : Nat) (ls : List Nat) (e : ParserSt)
    (hfeed : feed (parserFresh req B) l ls = ((.ok, e), len)) :
    Numeric B e ↔ PlainNumbers B := by
  have hnum := feed_numbers req B hfeed
  constructor
  · intro h
    refine ⟨?_, ?_, ?_, ?_, ?_⟩
    · intro r hr hn
      exact (h.length r hr hn).1
    · intro r hr hn q hq hqn
      exact Int.ofNat_inj.mp ((h.length r hr hn).2.symm.trans (h.length q hq hqn).2)
    · intro r hr hn t ht
      have hport := h.port r hr hn t ht
      exact ⟨hport.1, hport.2.1⟩
    · intro r hr hn t ht q hq hqn u hu
      exact Int.ofNat_inj.mp ((h.port r hr hn t ht).2.2.symm.trans (h.port q hq hqn u hu).2.2)
    · intro r hr hn t ht hne
      by_contra hno
      push Not at hno
      have hzero : e.p.headerHostPort = 0 := hnum.noPort fun q hq hqn => not_lt.mpr (hno q hq hqn)
      have hval := (h.port r hr hn t ht).2.2
      omega
  · intro hp
    constructor
    · intro r hr hn
      exact ⟨hp.length r hr hn, hnum.length hp r hr hn⟩
    · intro r hr hn t ht
      have hport := hp.port r hr hn t ht
      refine ⟨hport.1, hport.2, ?_⟩
      -- the port is that of a row whose port was looked at
      by_cases hex : ∃ q ∈ headerRows B, rowName B q = some HeaderName.host ∧ 0 < hostSep B q
      · rcases hex with ⟨q, hq, hqn, hpos⟩
        have hu : portText B q = some ((q.text B).drop ((hostSep B q).toNat + 1)) :=
          if_pos (Int.le_of_lt hpos)
        rw [hp.samePort r hr hn t ht q hq hqn _ hu]
        exact hnum.port hp q hq hqn hpos _ hu
      · -- no row had its port looked at
        have hzero : decimalValue t = 0 := by
          by_contra hne
          exact hex (hp.named r hr hn t ht hne)
        rw [hzero]
        push Not at hex
        exact hnum.noPort fun q hq hqn => not_lt.mpr (hex q hq hqn)

/-- A request with one `Host` and one `Content-Length`. -/
def postPlain : Bytes :=
  bytes "POST / HTTP/1.1\r\nHost: a:80\r\nContent-Length: 2\r\n\r\nhi"

theorem numeric_postPlain :
    Numeric postPlain (feed (parserFresh parsedRequestZero postPlain) 52 []).1.2 := by
  have hok : feed (parserFresh parsedRequestZero postPlain) 52 [] =
      ((.ok, (feed (parserFresh parsedRequestZero postPlain) 52 []).1.2), 52) := by
    refine Prod.ext (Prod.ext ?_ rfl) rfl
    decide
  have hlength : ∀ r ∈ headerRows postPlain, rowName postPlain r = some HeaderName.contentLength →
      trim (r.text postPlain) = bytes "2" := by decide
  have hport : ∀ r ∈ headerRows postPlain, rowName postPlain r = some HeaderName.host →
      portText postPlain r = some (bytes "80") ∧ 0 < hostSep postPlain r := by decide
  have htext : ∀ r ∈ headerRows postPlain, rowName postPlain r = some HeaderName.host →
      ∀ t, portText postPlain r = some t → t = bytes "80" := by
    intro r hr hn t ht
    exact Option.some.inj (ht.symm.trans (hport r hr hn).1)
  refine (numeric_iff parsedRequestZero postPlain 52 52 [] _ hok).mpr ⟨?_, ?_, ?_, ?_, ?_⟩
  · intro r hr hn
    rw [hlength r hr hn]
    decide
  · intro r hr hn q hq hqn
    rw [hlength r hr hn, hlength q hq hqn]
  · intro r hr hn t ht
    rw [htext r hr hn t ht]
    decide
  · intro r hr hn t ht q hq hqn u hu
    rw [htext r hr hn t ht, htext q hq hqn u hu]
  · intro r hr hn t ht _
    exact ⟨r, hr, hn, (hport r hr hn).2⟩

/-- A length with something behind the digits. -/
def postTail : Bytes := bytes "POST / HTTP/1.1\r\nContent-Length: 2x\r\n\r\nhi"

/-- It is accepted as `2`. -/
theorem numeric_postTail :
    (feed (parserFresh parsedRequestZero postTail) 41 []).1.1 = .ok ∧
      (feed (parserFresh parsedRequestZero postTail) 41 []).1.2.p.headerContentLength = 2 ∧
      ¬ Numeric postTail (feed (parserFresh parsedRequestZero postTail) 41 []).1.2 := by
  refine ⟨by decide, by decide, ?_⟩
  intro h
  have hrow : (⟨17, 31, 33, 35⟩ : Row) ∈ headerRows postTail ∧
      rowName postTail ⟨17, 31, 33, 35⟩ = some HeaderName.contentLength := by decide
  have hdig := (h.length _ hrow.1 hrow.2).1
  revert hdig
  decide

end SuperExe.Http
