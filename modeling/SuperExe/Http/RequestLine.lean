import SuperExe.Http.QuerySlice

/-! # The request line

The parser finds the two blanks of the request line and expects `HTTP/1.`, one
byte, CR and LF behind the second one. `OnLine` ties each of its states on the
way to the bytes of the request; `onLine_firstLine` says that every turn keeps
it. The rows that follow start at `HeadersStart`.
-/

namespace SuperExe.Http

open SuperExe.Core SuperExe.Lib

/-- No blank from `a` on and before `b`. -/
def NoBlank (B : Bytes) (a b : Nat) : Prop := ∀ j, a ≤ j → j < b → cstr B j ≠ 32

/-- The blank behind the method stands at `m`, the next one at `e`. -/
structure Target (B : Bytes) (m e : Nat) : Prop where
  method : FirstBlank B m
  lt : m < e
  blank : cstr B e = 32
  no : NoBlank B (m + 1) e

/-- The first row behind the request line starts at `y`. -/
def HeadersStart (B : Bytes) (y : Nat) : Prop := ∃ m e, Target B m e ∧ y = e + 11

/-- What the parser knows while it reads the request line. -/
def FirstLine (B : Bytes) (s : ParserSt) : Prop :=
  match s.p.status with
  | .reqMethod => s.p.start = 0 ∧ s.p.chars = (s.p.i : Int) - 1 ∧ NoBlank B 1 s.p.i
  | .reqUri | .reqQueryString => ∃ m, FirstBlank B m ∧ m < s.p.i ∧ NoBlank B (m + 1) s.p.i
  | .reqProtVersion => ∃ m e, Target B m e ∧ s.p.start = e + 1 ∧ e < s.p.i ∧ s.p.i ≤ e + 8
  | .firstContinue => ∃ m e, Target B m e ∧ s.p.i = e + 9
  | .firstFinalizing => ∃ m e, Target B m e ∧ s.p.i = e + 10
  | .blockEnd => ∃ y, HeadersStart B y ∧ s.p.i = y + 1 ∧ cstr B y = 13
  | _ => False

/-- The same up to the first row, with the buffer as it was received. -/
def OnLine (B : Bytes) (s : ParserSt) : Prop :=
  match s.p.level with
  | .first => s.buffer = cstr B ∧ FirstLine B s
  | .cont => s.buffer = cstr B ∧ HeadersStart B s.p.i ∧ s.p.start = s.p.i
  | _ => False

theorem onLine_fresh (req : ParsedRequest) (B : Bytes) : OnLine B (parserFresh req B) := by
  refine ⟨rfl, rfl, rfl, ?_⟩
  intro j h1 hj
  exact absurd hj (Nat.not_lt_zero j)

theorem NoBlank.snoc {B : Bytes} {a i : Nat} (h : NoBlank B a i) (hi : cstr B i ≠ 32) :
    NoBlank B a (i + 1) := by
  intro j ha hj
  by_cases hji : j = i
  · rwa [hji]
  · exact h j ha (by omega)

section Turn

variable {B : Bytes} {len : Nat} {s : ParserSt} (hl : s.p.level = .first) (hi : s.p.i < len)
  (hbuf : s.buffer = cstr B)
include hl hi hbuf

omit hl in
theorem rd_here : s.rd len s.p.i = cstr B s.p.i := by
  rw [ParserSt.rd, if_pos hi, hbuf]

theorem onLine_method (hst : s.p.status = .reqMethod) (h : FirstLine B s) :
    Leaves (OnLine B) (firstLine len s) := by
  simp only [FirstLine, hst] at h
  rcases h with ⟨hstart, hchars, hno⟩
  have hrd := rd_here hi hbuf
  simp only [firstLine, hst, hrd]
  split
  · -- the first byte may be anything
    have hi0 : s.p.i = 0 := by omega
    simp only [Leaves, goOn, OnLine, hl, FirstLine]
    refine ⟨hbuf, hstart, by omega, ?_⟩
    intro j h1 hj
    omega
  · next hne =>
    split
    · next hblank =>
      split
      · trivial
      · next hend =>
        simp only [markEnd] at hend
        simp only [Leaves, startNext, goOn, markEnd, OnLine, hl, FirstLine]
        refine ⟨hbuf, s.p.i, ⟨by omega, hblank, hno⟩, by omega, ?_⟩
        intro j h1 hj
        omega
    · next hblank =>
      split
      · trivial
      · simp only [Leaves, goOn, OnLine, hl, FirstLine, hst]
        exact ⟨hbuf, hstart, by omega, hno.snoc hblank⟩

theorem onLine_uri (hst : s.p.status = .reqUri) (h : FirstLine B s) :
    Leaves (OnLine B) (firstLine len s) := by
  simp only [FirstLine, hst] at h
  rcases h with ⟨m, hm, hlt, hno⟩
  have hrd := rd_here hi hbuf
  simp only [firstLine, hst, hrd]
  split
  · next hblank =>
    split
    · trivial
    · simp only [Leaves, startNext, goOn, markEnd, OnLine, hl, FirstLine]
      exact ⟨hbuf, m, s.p.i, ⟨hm, hlt, hblank, hno⟩, rfl, by omega, by omega⟩
  · next hblank =>
    split
    · simp only [Leaves, startNext, goOn, markEnd, OnLine, hl, FirstLine]
      exact ⟨hbuf, m, hm, by omega, hno.snoc hblank⟩
    · split
      · trivial
      · simp only [Leaves, goOn, OnLine, hl, FirstLine, hst]
        exact ⟨hbuf, m, hm, by omega, hno.snoc hblank⟩

theorem onLine_query (hst : s.p.status = .reqQueryString) (h : FirstLine B s) :
    Leaves (OnLine B) (firstLine len s) := by
  simp only [FirstLine, hst] at h
  rcases h with ⟨m, hm, hlt, hno⟩
  cases hf : findByte (s.rd len) 32 (len - s.p.i) s.p.i with
  | some y =>
    rcases findByte_some hf with ⟨hle, hlen, hblank⟩
    have hbefore := findByte_before hf
    rw [queryString_found hst (charLookup_eq hf) hblank]
    simp only [Leaves, startNext, goOn, OnLine, hl, FirstLine]
    refine ⟨hbuf, m, y, ⟨hm, by omega, ?_, ?_⟩, rfl, by omega, by omega⟩
    · rw [← hbuf]
      exact (rd_received len s y (by decide) hblank).1
    · intro j h1 hj
      by_cases hji : j < s.p.i
      · exact hno j h1 hji
      · have hne := hbefore j (by omega) hj
        rwa [ParserSt.rd, if_pos (by omega), hbuf] at hne
  | none =>
    have hne : s.rd len s.p.i ≠ 32 := by
      intro hc
      rw [findByte_here hi hc] at hf
      cases hf
    simp only [firstLine, hst, charLookup_stays hf, if_neg hne]
    split
    · trivial
    · rw [rd_here hi hbuf] at hne
      simp only [Leaves, goOn, OnLine, hl, FirstLine]
      exact ⟨hbuf, m, hm, by omega, hno.snoc hne⟩

theorem onLine_end (hst : s.p.stage = 3 ∨ s.p.stage = 4) (h : FirstLine B s) :
    Leaves (OnLine B) (firstLine len s) := by
  have hrd := rd_here hi hbuf
  cases hs : s.p.status with
  | reqProtVersion =>
    simp only [FirstLine, hs] at h
    rcases h with ⟨m, e, ht, hstart, hlt, hle⟩
    simp only [firstLine, hs]
    split
    · simp only [Leaves, goOn, OnLine, hl, FirstLine, hs]
      exact ⟨hbuf, m, e, ht, hstart, by omega, by omega⟩
    · split
      · simp only [Leaves, goOn, OnLine, hl, FirstLine]
        exact ⟨hbuf, m, e, ht, by omega⟩
      · trivial
  | firstContinue =>
    simp only [FirstLine, hs] at h
    rcases h with ⟨m, e, ht, hie⟩
    simp only [firstLine, hs]
    split
    · simp only [Leaves, goOn, OnLine, hl, FirstLine]
      exact ⟨hbuf, m, e, ht, by omega⟩
    · trivial
  | firstFinalizing =>
    simp only [FirstLine, hs] at h
    rcases h with ⟨m, e, ht, hie⟩
    simp only [firstLine, hs]
    split
    · simp only [Leaves, startNext, goOn, OnLine]
      exact ⟨hbuf, ⟨m, e, ht, by omega⟩, trivial⟩
    · trivial
  | blockEnd =>
    simp only [firstLine, hs]
    split
    · exact leaves_mkHttpParserOk _ s
    · trivial
  | _ => simp_all [Parser.stage, FirstLine]

/-- Every turn keeps track of the request line. -/
theorem onLine_firstLine (h : FirstLine B s) : Leaves (OnLine B) (firstLine len s) := by
  cases hst : s.p.status with
  | reqMethod => exact onLine_method hl hi hbuf hst h
  | reqUri => exact onLine_uri hl hi hbuf hst h
  | reqQueryString => exact onLine_query hl hi hbuf hst h
  | _ => exact onLine_end hl hi hbuf (by simp [Parser.stage, hl, hst]) h

end Turn

end SuperExe.Http
