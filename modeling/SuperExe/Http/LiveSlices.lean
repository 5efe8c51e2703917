import SuperExe.Http.ReadBuffer
import SuperExe.Http.Slices

/-! # Slices and the buffer they point into

The parser stores pointers, and `mk_http_handler_read` moves the buffer when it
grows. Here each slice carries the allocation that was current when it was stored.
`slices_live` says that a request reaches `mk_http_request_prepare` with all its
slices in the current allocation when the buffer moves only while the method is
still being read, and the record has no query string from a request before.
-/

namespace SuperExe.Http

open SuperExe.Core SuperExe.Lib SuperExe.Sched

/-- A connection, and for every slice the block it was stored in. -/
structure Tagged where
  held : Held
  tag : Slot → Nat

/-- A call of the parser on a session whose buffer is the block `id`. -/
def tagParse (cs : Session) (id : Nat) (tag : Slot → Nat) : Slot → Nat :=
  fun f => if stores cs.bodyLength cs.parserSt f then id else tag f

/-- The blocks of the slices behind a call. -/
def Tagged.tagStep (conf : SessionConf) (t : Tagged) : HeldEvent → Slot → Nat
  | .read k ok as =>
    let r := t.held.handlerRead conf ok as
    match r.ret with
    | none => t.tag
    | some _ => tagParse (r.held.cs.enlist (conf.configure k)) r.held.block.id t.tag
  | .done k =>
    let cs := t.held.cs
    -- the pipeline part of `mk_http_request_end`
    if cs.schedInit ∧ ¬ (conf.configure k).maxKeepAliveRequest ≤ cs.counter ∧
        mkHttpParserMore cs.parser cs.bodyLength then
      tagParse (cs.startNext (conf.configure k)) t.held.block.id t.tag
    else t.tag

/-- The connection as a machine. -/
def taggedMachine (conf : SessionConf) : Machine Tagged HeldEvent where
  step t e := { held := t.held.step conf e, tag := t.tagStep conf e }

/-- A connection on which nothing has happened. -/
def taggedStart : Tagged where
  held := heldStart
  tag := fun _ => 0

/-- The request a call passes to `mk_http_request_prepare`. -/
def Held.prepared (conf : SessionConf) (h : Held) : HeldEvent → Option Prepared
  | .read k ok as => (h.schedRead conf (conf.configure k) ok as).prepared
  | .done k =>
    if h.cs.schedInit then (mkHttpRequestEnd (conf.configure k) h.cs).prepared else none

/-- Every slice of a request that is passed on points into the current block. -/
def PreparesLive (conf : SessionConf) (t : Tagged) (e : HeldEvent) : Prop :=
  ∀ pr, t.held.prepared conf e = some pr →
    ∀ f : Slot, (f.get pr.incoming.req pr.incoming.p.headers pr.incoming.p.headersExtra).data ≠ none →
      t.tagStep conf e f = (t.held.step conf e).block.id

/-! ## When the buffer may move -/

/-- Nothing has been stored that the next request will not store again. -/
def Bare (cs : Session) : Prop := cs.parser.stage = 0 ∧ cs.sr.queryString.data = none

/-- The read moves the buffer: it is full, or the transport has more than fits, and
the server takes requests of that size. -/
def Moves (conf : SessionConf) (h : Held) (as : List Attempt) : Prop :=
  h.cs.bodySize + conf.bufferSize ≤ conf.maxRequestSize ∧
    (h.cs.bodySize ≤ h.cs.bodyLength ∨ ∃ a ∈ as.head?,
      ((h.cs.bodySize - h.cs.bodyLength : Nat) : Int) <
        a.net.ret (h.cs.bodySize - h.cs.bodyLength))

/-- The buffer is set up or moved in time. -/
def MovesBare (conf : SessionConf) (t : Tagged) : HeldEvent → Prop
  | .read _ ok as =>
    (t.held.cs.schedInit = false → t.held.cs.sr.queryString.data = none) ∧
      (Moves conf (t.held.ready conf ok) as → Bare (t.held.ready conf ok).cs)
  | .done _ => True

instance (cs : Session) : Decidable (Bare cs) :=
  inferInstanceAs (Decidable (_ ∧ _))

instance (conf : SessionConf) (h : Held) (as : List Attempt) : Decidable (Moves conf h as) :=
  inferInstanceAs (Decidable (_ ∧ _))

instance (conf : SessionConf) (t : Tagged) : (e : HeldEvent) → Decidable (MovesBare conf t e)
  | .read _ ok as => inferInstanceAs (Decidable (_ ∧ (Moves conf (t.held.ready conf ok) as → _)))
  | .done _ => .isTrue trivial

/-! ## Reading -/

section Read

variable {conf : BufferConf} {h : Held}

theorem receive_frame (h : Held) (net : NetRead) :
    (h.receive net).held.block = h.block ∧ (h.receive net).held.cs.bodySize = h.cs.bodySize ∧
      (h.receive net).held.cs.parser = h.cs.parser ∧ (h.receive net).held.cs.sr = h.cs.sr := by
  rcases receive_held h net with ⟨hheld, -, -⟩ | ⟨-, hheld, -⟩
  · rw [hheld]
    exact ⟨rfl, rfl, rfl, rfl⟩
  · rw [hheld]
    exact ⟨rfl, rfl, rfl, rfl⟩

/-- A pass leaves the parser and the record alone. -/
theorem pass_frame (hinv : HeldInv conf.toSessionConf h) (hinit : h.cs.schedInit = true)
    (a : Attempt) :
    (h.pass conf.toSessionConf a).held.cs.parser = h.cs.parser ∧
      (h.pass conf.toSessionConf a).held.cs.sr = h.cs.sr := by
  unfold Held.pass
  cases hroom : h.makeRoom conf.toSessionConf a.alloc with
  | none =>
    simp only [mkHttpSessionRemove, hinit, if_true, and_self]
  | some r =>
    rcases receive_frame r.1 a.net with ⟨-, -, hp, hsr⟩
    simp only [hp, hsr]
    rcases makeRoom_cases hinv.kept (hinv.blocked hinit) hroom with ⟨-, hsame, -⟩ |
      ⟨-, -, block, hsame, -⟩
    · rw [hsame]
      exact ⟨rfl, rfl⟩
    · rw [hsame]
      exact ⟨rfl, rfl⟩

theorem tryPending_frame (as : List Attempt) (hinv : HeldInv conf.toSessionConf h)
    (hinit : h.cs.schedInit = true) (total : Nat) :
    (tryPending conf.toSessionConf as h total).held.cs.parser = h.cs.parser ∧
      (tryPending conf.toSessionConf as h total).held.cs.sr = h.cs.sr := by
  induction as generalizing h total with
  | nil => exact pass_frame hinv hinit _
  | cons a as ih =>
    rcases hinv.pass hinit a with ⟨hinv', hinit'⟩
    have hframe := pass_frame hinv hinit a
    simp only [tryPending]
    cases htaken : (h.pass conf.toSessionConf a).taken with
    | none => exact hframe
    | some n =>
      simp only
      split
      · rcases ih hinv' (hinit' (by simp [htaken])) (total + n) with ⟨hp, hsr⟩
        exact ⟨hp.trans hframe.1, hsr.trans hframe.2⟩
      · exact hframe

/-- A pass moves the buffer when it is full. -/
theorem pass_block (hinv : HeldInv conf.toSessionConf h) (hinit : h.cs.schedInit = true)
    (a : Attempt) : (h.pass conf.toSessionConf a).held.block = h.block ∧
        ((h.pass conf.toSessionConf a).taken ≠ none →
          (h.pass conf.toSessionConf a).held.cs.bodySize = h.cs.bodySize ∧
            ((h.pass conf.toSessionConf a).again = true →
              ((h.cs.bodySize - h.cs.bodyLength : Nat) : Int) <
                a.net.ret (h.cs.bodySize - h.cs.bodyLength))) ∨
      h.cs.bodySize + conf.bufferSize ≤ conf.maxRequestSize ∧
        h.cs.bodySize ≤ h.cs.bodyLength := by
  unfold Held.pass
  cases hroom : h.makeRoom conf.toSessionConf a.alloc with
  | none => exact .inl ⟨rfl, fun hne => absurd rfl hne⟩
  | some r =>
    rcases makeRoom_cases hinv.kept (hinv.blocked hinit) hroom with ⟨-, hsame, -⟩ |
      ⟨hfull, hmax, -⟩
    · left
      simp only [hsame]
      rcases receive_frame h a.net with ⟨hblock, hsize, -, -⟩
      refine ⟨hblock, fun _ => ⟨hsize, ?_⟩⟩
      unfold Held.receive
      simp only
      split
      · exact fun hno => nomatch hno
      · intro hmore
        simpa using hmore
    · exact .inr ⟨hmax, hfull⟩

theorem tryPending_block (as : List Attempt) (hinv : HeldInv conf.toSessionConf h)
    (hinit : h.cs.schedInit = true) (total : Nat) :
    (tryPending conf.toSessionConf as h total).held.block = h.block ∨
      Moves conf.toSessionConf h as := by
  induction as generalizing h total with
  | nil =>
    rcases pass_block hinv hinit { alloc := true, net := .error } with ⟨hsame, -⟩ | ⟨hmax, hfull⟩
    · exact .inl hsame
    · exact .inr ⟨hmax, .inl hfull⟩
  | cons a as ih =>
    rcases pass_block hinv hinit a with ⟨hsame, hmore⟩ | ⟨hmax, hfull⟩
    · rcases hinv.pass hinit a with ⟨hinv', hinit'⟩
      simp only [tryPending]
      cases htaken : (h.pass conf.toSessionConf a).taken with
      | none => exact .inl hsame
      | some n =>
        have hne : (h.pass conf.toSessionConf a).taken ≠ none := by simp [htaken]
        rcases hmore hne with ⟨hsize, hagain⟩
        simp only
        split
        · next hagain' =>
          -- the rest of a record: the next pass has to make room
          rcases ih hinv' (hinit' hne) (total + n) with hblock | hmoves
          · exact .inl (hblock.trans hsame)
          · right
            refine ⟨?_, .inr ⟨a, rfl, hagain hagain'⟩⟩
            have hmax := hmoves.1
            rwa [hsize] at hmax
        · exact .inl hsame
    · exact .inr ⟨hmax, .inl hfull⟩

end Read

/-! ## Parsing -/

/-- What has been stored for the request that is being read points into the block
`id`. The slices of the request line count from their stage on, the query string
always. -/
structure Live (cs : Session) (id : Nat) (tag : Slot → Nat) : Prop where
  query : cs.sr.queryString.data ≠ none → tag .queryString = id
  method : 1 ≤ cs.parser.stage → tag .method = id
  uri : 2 ≤ cs.parser.stage → tag .uri = id
  protocol : 4 ≤ cs.parser.stage → tag .protocol = id
  header : ∀ f, f.isHeader = true → (cs.parserSt.slot f).data ≠ none → tag f = id
  start : cs.parser.stage = 0 → ∀ f, f.isHeader = true → (cs.parserSt.slot f).data = none

section Live

variable {cs cs' : Session} {id : Nat} {tag : Slot → Nat}

theorem header_slot {f : Slot} (hf : f.isHeader = true) (hp : cs'.parser = cs.parser) :
    cs'.parserSt.slot f = cs.parserSt.slot f := by
  cases f with
  | method => cases hf
  | uri => cases hf
  | queryString => cases hf
  | protocol => cases hf
  | _ => simp only [ParserSt.slot, Slot.get, Session.parserSt, hp]

theorem Live.congr (h : Live cs id tag) (hp : cs'.parser = cs.parser)
    (hq : cs'.sr.queryString = cs.sr.queryString) : Live cs' id tag := by
  constructor
  · rw [hq]
    exact h.query
  · rw [hp]
    exact h.method
  · rw [hp]
    exact h.uri
  · rw [hp]
    exact h.protocol
  · intro f hf
    rw [header_slot hf hp]
    exact h.header f hf
  · intro h0 f hf
    rw [hp] at h0
    rw [header_slot hf hp]
    exact h.start h0 f hf

/-- A parser that has not started. -/
theorem live_init (hp : cs.parser = mkHttpParserInit)
    (hq : cs.sr.queryString.data ≠ none → tag .queryString = id) : Live cs id tag := by
  have hstage : cs.parser.stage = 0 := by
    rw [hp]
    rfl
  have hnull : ∀ f, f.isHeader = true → (cs.parserSt.slot f).data = none := by
    intro f hf
    cases f with
    | key n => simp [ParserSt.slot, Slot.get, Session.parserSt, hp, mkHttpParserInit, MkPtr.null]
    | val n => simp [ParserSt.slot, Slot.get, Session.parserSt, hp, mkHttpParserInit, MkPtr.null]
    | extraKey k =>
      simp [ParserSt.slot, Slot.get, Session.parserSt, hp, mkHttpParserInit, MkPtr.null]
    | extraVal k =>
      simp [ParserSt.slot, Slot.get, Session.parserSt, hp, mkHttpParserInit, MkPtr.null]
    | _ => cases hf
  refine ⟨hq, by omega, by omega, by omega, ?_, fun _ => hnull⟩
  intro f hf hne
  exact absurd (hnull f hf) hne

/-- A bare session points into no block. -/
theorem Live.move (h : Live cs id tag) (hbare : Bare cs) (id' : Nat) : Live cs id' tag := by
  rcases hbare with ⟨h0, hq⟩
  refine ⟨fun hne => absurd hq hne, by omega, by omega, by omega, ?_, h.start⟩
  intro f hf hne
  exact absurd (h.start h0 f hf) hne

/-- A slice behind a call was there before or has been stored. -/
theorem tagParse_eq {f : Slot} (hold : (cs.parserSt.slot f).data ≠ none → tag f = id)
    (hne : ((mkHttpParser cs.bodyLength cs.parserSt).2.slot f).data ≠ none) :
    tagParse cs id tag f = id := by
  have hslot := mkHttpParser_slot cs.bodyLength cs.parserSt f
  unfold tagParse
  by_cases hst : stores cs.bodyLength cs.parserSt f = true
  · rw [if_pos hst]
  · rw [if_neg hst] at hslot ⊢
    rcases hslot with hsame | hnone
    · exact hold (by rwa [← hsame])
    · exact absurd hnone hne

theorem tagParse_stage {f : Slot} {n : Nat} (hold : n ≤ cs.parser.stage → tag f = id)
    (h : n ≤ cs.parser.stage ∨ stores cs.bodyLength cs.parserSt f = true) :
    tagParse cs id tag f = id := by
  unfold tagParse
  split
  · rfl
  · next hno => exact hold (h.resolve_right hno)

/-- A call keeps the slices in the block, and an accepted request has all of them
there. -/
theorem Live.parse (h : Live cs id tag)
    (hne : (mkHttpParser cs.bodyLength cs.parserSt).1 ≠ .error) :
    Live (cs.parsed (mkHttpParser cs.bodyLength cs.parserSt).2) id (tagParse cs id tag) ∧
      ((mkHttpParser cs.bodyLength cs.parserSt).1 = .ok →
        ∀ f, ((mkHttpParser cs.bodyLength cs.parserSt).2.slot f).data ≠ none →
          tagParse cs id tag f = id) := by
  rcases mkHttpParser_stage cs.bodyLength cs.parserSt hne with ⟨hstage, hok⟩
  have hlive : Live (cs.parsed (mkHttpParser cs.bodyLength cs.parserSt).2) id
      (tagParse cs id tag) := by
    constructor
    · exact tagParse_eq (f := .queryString) h.query
    · exact fun hs => tagParse_stage h.method (hstage.method hs)
    · exact fun hs => tagParse_stage h.uri (hstage.uri hs)
    · exact fun hs => tagParse_stage h.protocol (hstage.protocol hs)
    · exact fun f hf => tagParse_eq (h.header f hf)
    · intro h0 f hf
      rcases hstage.start h0 with ⟨hs, hno⟩
      have hslot := mkHttpParser_slot cs.bodyLength cs.parserSt f
      rw [if_neg (by simp [hno f hf])] at hslot
      rcases hslot with hsame | hnone
      · exact (congrArg MkPtr.data hsame).trans (h.start hs f hf)
      · exact hnone
  refine ⟨hlive, ?_⟩
  intro hans f hf
  have h4 : (cs.parsed (mkHttpParser cs.bodyLength cs.parserSt).2).parser.stage = 4 := hok hans
  cases f with
  | method => exact hlive.method (by omega)
  | uri => exact hlive.uri (by omega)
  | protocol => exact hlive.protocol (by omega)
  | queryString => exact hlive.query hf
  | _ => exact hlive.header _ rfl hf

end Live

/-! ## Whole runs -/

section Runs

variable {cs : Session} {id : Nat} {tag : Slot → Nat}

@[simp] theorem remove_schedInit (cs : Session) : (mkHttpSessionRemove cs).schedInit = false := by
  unfold mkHttpSessionRemove
  split
  · rfl
  · next hno => exact Bool.eq_false_iff.mpr hno

/-- Serving a request does not touch its query string. -/
theorem served_query (k : World) (cs : Session) :
    (cs.served (cs.prepare k)).sr.queryString = cs.sr.queryString :=
  runActs_other (f := .queryString) (unassigned_acts _).1

theorem enlist_query (k : World) (cs : Session) :
    (cs.enlist k).parser = cs.parser ∧ (cs.enlist k).sr.queryString = cs.sr.queryString := by
  unfold Session.enlist
  split
  · exact ⟨rfl, rfl⟩
  · exact ⟨rfl, rfl⟩

/-- What a callback leaves when it has parsed `cs`. -/
structure Parsed (cs : Session) (id : Nat) (tag : Slot → Nat) {ρ : Type} (t : Turn ρ) : Prop where
  live : t.cs.schedInit = true → Live t.cs id (tagParse cs id tag)
  prepared : ∀ pr, t.prepared = some pr →
    ∀ f : Slot, (f.get pr.incoming.req pr.incoming.p.headers
      pr.incoming.p.headersExtra).data ≠ none → tagParse cs id tag f = id

theorem Live.readParsed (h : Live cs id tag) (k : World) (n : Nat) :
    Parsed cs id tag (readParsed k cs n) := by
  unfold Http.readParsed
  simp only
  cases hret : (mkHttpParser cs.bodyLength cs.parserSt).1 with
  | error => exact ⟨fun hno => by simp at hno, fun pr hno => nomatch hno⟩
  | pending =>
    have hparse := h.parse (by rw [hret]; exact ParserRet.noConfusion)
    exact ⟨fun _ => hparse.1, fun pr hno => nomatch hno⟩
  | ok =>
    have hparse := h.parse (by rw [hret]; exact ParserRet.noConfusion)
    simp only
    split
    · exact ⟨fun hno => by simp at hno, fun pr hno => nomatch hno⟩
    · refine ⟨fun _ => hparse.1.congr rfl (served_query k _), ?_⟩
      rintro pr ⟨⟩
      exact hparse.2 hret

theorem Live.endNext (h : Live cs id tag) (k : World) : Parsed cs id tag (endNext k cs) := by
  unfold Http.endNext
  simp only
  cases hret : (mkHttpParser cs.bodyLength cs.parserSt).1 with
  | error =>
    simp only [endShutdown, if_true]
    refine ⟨fun hno => by simp at hno, ?_⟩
    intro pr hno
    cases hno
  | pending =>
    have hparse := h.parse (by rw [hret]; exact ParserRet.noConfusion)
    refine ⟨fun _ => hparse.1, ?_⟩
    intro pr hno
    cases hno
  | ok =>
    have hparse := h.parse (by rw [hret]; exact ParserRet.noConfusion)
    refine ⟨fun _ => hparse.1.congr rfl (served_query k _), ?_⟩
    rintro pr ⟨⟩
    exact hparse.2 hret

theorem Live.endShutdown (h : Live cs id tag) :
    ((endShutdown cs).cs.schedInit = true → Live (endShutdown cs).cs id tag) ∧
      (endShutdown cs).prepared = none := by
  unfold Http.endShutdown
  split
  · exact ⟨fun hno => by simp at hno, rfl⟩
  · exact ⟨fun _ => live_init rfl h.query, rfl⟩

/-- The invariant of a connection with its slices. -/
structure TaggedInv (conf : SessionConf) (t : Tagged) : Prop where
  held : HeldInv conf t.held
  live : t.held.cs.schedInit = true → Live t.held.cs t.held.block.id t.tag

variable {conf : BufferConf} {t : Tagged}

theorem taggedInv_start (conf : BufferConf) : TaggedInv conf.toSessionConf taggedStart where
  held := heldInv_start conf
  live hlive := nomatch hlive

/-- Behind `mk_http_handler_read` everything stored is in the current block. -/
theorem TaggedInv.handlerRead (hinv : TaggedInv conf.toSessionConf t) {k : World} {ok : Bool}
    {as : List Attempt} (hmoves : MovesBare conf.toSessionConf t (.read k ok as)) :
    Live (t.held.handlerRead conf.toSessionConf ok as).held.cs
      (t.held.handlerRead conf.toSessionConf ok as).held.block.id t.tag := by
  rcases hinv.held.ready ok with ⟨hready, hinit⟩
  have hlive : Live (t.held.ready conf.toSessionConf ok).cs
      (t.held.ready conf.toSessionConf ok).block.id t.tag := by
    unfold Held.ready
    split
    · next hold => exact hinv.live hold
    · next hnew =>
      have hquery := hmoves.1 (Bool.eq_false_iff.mpr hnew)
      unfold Held.init
      split
      · exact live_init rfl fun hne => absurd hquery hne
      · exact live_init rfl fun hne => absurd hquery hne
  rcases tryPending_frame as hready hinit 0 with ⟨hp, hsr⟩
  have hframe := hlive.congr hp (congrArg (fun sr : HttpRequest => sr.queryString) hsr)
  rcases tryPending_block as hready hinit 0 with hsame | hmove
  · rw [Held.handlerRead, hsame]
    exact hframe
  · -- the buffer has moved while there was nothing in it to point to
    have hbare := hmoves.2 hmove
    refine hframe.move ?_ _
    unfold Bare
    rw [hp, hsr]
    exact hbare

theorem TaggedInv.read (hinv : TaggedInv conf.toSessionConf t) {k : World} {ok : Bool}
    {as : List Attempt} (hmoves : MovesBare conf.toSessionConf t (.read k ok as)) :
    TaggedInv conf.toSessionConf ((taggedMachine conf.toSessionConf).step t (.read k ok as)) ∧
      PreparesLive conf.toSessionConf t (.read k ok as) := by
  have hheld := hinv.held.step (.read k ok as)
  have hlive := hinv.handlerRead hmoves
  cases hret : (t.held.handlerRead conf.toSessionConf ok as).ret with
  | none =>
    refine ⟨⟨hheld, fun _ => ?_⟩, ?_⟩
    · simp only [taggedMachine, Held.step, Held.schedRead, Tagged.tagStep, hret]
      exact hlive
    · intro pr hpr
      simp only [Held.prepared, Held.schedRead, hret] at hpr
      cases hpr
  | some n =>
    have henlist := enlist_query (conf.toSessionConf.configure k)
      (t.held.handlerRead conf.toSessionConf ok as).held.cs
    have hparsed := (hlive.congr henlist.1 henlist.2).readParsed (conf.toSessionConf.configure k) n
    refine ⟨⟨hheld, ?_⟩, ?_⟩
    · simp only [taggedMachine, Held.step, Held.schedRead, Tagged.tagStep, hret]
      exact hparsed.live
    · intro pr hpr
      simp only [Held.prepared, Held.schedRead, hret] at hpr
      simp only [Held.step, Tagged.tagStep, hret]
      exact hparsed.prepared pr hpr

theorem TaggedInv.done (hinv : TaggedInv conf.toSessionConf t) (k : World) :
    TaggedInv conf.toSessionConf ((taggedMachine conf.toSessionConf).step t (.done k)) ∧
      PreparesLive conf.toSessionConf t (.done k) := by
  have hheld := hinv.held.step (.done k)
  by_cases hinit : t.held.cs.schedInit = true
  · have hlive := hinv.live hinit
    -- the connection ends with the last request that it may serve
    by_cases hlimit : (conf.toSessionConf.configure k).maxKeepAliveRequest ≤ t.held.cs.counter
    · have hdown := (hlive.congr rfl rfl : Live { t.held.cs with closeNow := true } _ _).endShutdown
      have hend : mkHttpRequestEnd (conf.toSessionConf.configure k) t.held.cs =
          Http.endShutdown { t.held.cs with closeNow := true } := if_pos hlimit
      refine ⟨⟨hheld, ?_⟩, ?_⟩
      · simp only [taggedMachine, Held.step, Tagged.tagStep, if_pos hinit, hend, hlimit, not_true,
          false_and, and_false, if_false]
        exact hdown.1
      · intro pr hpr
        simp only [Held.prepared, if_pos hinit, hend, hdown.2] at hpr
        cases hpr
    · cases hmore : mkHttpParserMore t.held.cs.parser t.held.cs.bodyLength with
      | true =>
        have hnext : Live (t.held.cs.startNext (conf.toSessionConf.configure k)) t.held.block.id
            t.tag := live_init rfl hlive.query
        have hparsed := hnext.endNext (conf.toSessionConf.configure k)
        refine ⟨⟨hheld, ?_⟩, ?_⟩
        · simp only [taggedMachine, Held.step, Tagged.tagStep, mkHttpRequestEnd, hinit, hlimit,
            hmore, if_true, not_false_eq_true, and_self, if_false]
          exact hparsed.live
        · intro pr hpr
          simp only [Held.prepared, mkHttpRequestEnd, hinit, hlimit, hmore, if_true,
            if_false] at hpr
          simp only [Held.step, Tagged.tagStep, hinit, hlimit, hmore, if_true, not_false_eq_true,
            and_self]
          exact hparsed.prepared pr hpr
      | false =>
        have hdown := hlive.endShutdown
        refine ⟨⟨hheld, ?_⟩, ?_⟩
        · simp only [taggedMachine, Held.step, Tagged.tagStep, mkHttpRequestEnd, hinit, hlimit,
            hmore, if_true, Bool.false_eq_true, and_false, if_false]
          exact hdown.1
        · intro pr hpr
          simp only [Held.prepared, mkHttpRequestEnd, hinit, hlimit, hmore, if_true, if_false,
            Bool.false_eq_true, hdown.2] at hpr
          cases hpr
  · refine ⟨⟨hheld, ?_⟩, ?_⟩
    · simp only [taggedMachine, Held.step, if_neg hinit]
      exact fun hlive => absurd hlive hinit
    · intro pr hpr
      simp only [Held.prepared, if_neg hinit] at hpr
      cases hpr

theorem TaggedInv.step (hinv : TaggedInv conf.toSessionConf t) (e : HeldEvent)
    (hmoves : MovesBare conf.toSessionConf t e) :
    TaggedInv conf.toSessionConf ((taggedMachine conf.toSessionConf).step t e) ∧
      PreparesLive conf.toSessionConf t e := by
  cases e with
  | read k ok as => exact hinv.read hmoves
  | done k => exact hinv.done k

/-- In every run in which the buffer moves only while nothing points into it, every
request is passed on with all its slices in the current block. -/
theorem slices_live (conf : BufferConf) (es : List HeldEvent)
    (h : (taggedMachine conf.toSessionConf).AllSteps (MovesBare conf.toSessionConf) taggedStart es) :
    (taggedMachine conf.toSessionConf).AllSteps (PreparesLive conf.toSessionConf) taggedStart es :=
  (taggedMachine conf.toSessionConf).allSteps_of_invariant (I := TaggedInv conf.toSessionConf)
    (fun _ e hinv hmoves => (hinv.step e hmoves).1) (fun _ e hinv hmoves => (hinv.step e hmoves).2)
    (taggedInv_start conf) h

/-- The first two bytes of an upload. -/
def recordFront : HeldEvent := .read worldSite true [⟨true, .record (bytes "PO")⟩]

/-- The rest of it, in a TLS record as long as the buffer. -/
def uploadRecord : Bytes :=
  bytes "ST /a HTTP/1.1\r\nContent-Length: 4056\r\n\r\n" ++ List.replicate 4056 65

def recordRest : HeldEvent :=
  .read worldSite true [⟨true, .record uploadRecord⟩, ⟨true, .record (uploadRecord.drop 4094)⟩]

/-- There is no room for the record behind the two bytes, so the buffer moves, but before the
method is read; and the request is passed on. -/
theorem slices_live_record :
    (taggedMachine confLiana.toSessionConf).AllSteps (PreparesLive confLiana.toSessionConf)
        taggedStart [recordFront, recordRest] ∧
      ∃ t, t = (taggedMachine confLiana.toSessionConf).step taggedStart recordFront ∧
        (t.held.prepared confLiana.toSessionConf recordRest).isSome = true ∧
        (t.held.step confLiana.toSessionConf recordRest).block.id ≠ t.held.block.id := by
  have hmoves : (taggedMachine confLiana.toSessionConf).AllSteps
      (MovesBare confLiana.toSessionConf) taggedStart [recordFront, recordRest] := by
    decide +kernel
  exact ⟨slices_live confLiana _ hmoves, _, rfl, by decide +kernel, by decide +kernel⟩

/-- The head of an upload, and as much of its body as `body_fixed` takes. -/
def uploadHead : HeldEvent :=
  .read worldSite true [⟨true, .data (bytes "POST /a HTTP/1.1\r\nContent-Length: 4100\r\n\r\n" ++
    List.replicate 4054 65)⟩]

/-- The rest of the body. -/
def uploadRest : HeldEvent :=
  .read worldSite true [⟨true, .data (List.replicate 46 65)⟩]

/-- The rest is read into a new block, and the method still points into
`body_fixed` when the request is passed on. -/
theorem slices_live_upload :
    ¬ (taggedMachine confLiana.toSessionConf).AllSteps (PreparesLive confLiana.toSessionConf)
      taggedStart [uploadHead, uploadRest] := by
  rintro ⟨-, hlive, -⟩
  generalize ht : (taggedMachine confLiana.toSessionConf).step taggedStart uploadHead = t at hlive
  have hsome : (t.held.prepared confLiana.toSessionConf uploadRest).isSome = true := by
    rw [← ht]
    decide +kernel
  have hmethod : ∀ pr ∈ t.held.prepared confLiana.toSessionConf uploadRest,
      pr.incoming.req.methodP.data ≠ none := by
    rw [← ht]
    decide +kernel
  have htag : t.tagStep confLiana.toSessionConf uploadRest .method ≠
      (t.held.step confLiana.toSessionConf uploadRest).block.id := by
    rw [← ht]
    decide +kernel
  rcases Option.isSome_iff_exists.mp hsome with ⟨pr, hpr⟩
  exact htag (hlive pr hpr .method (hmethod pr hpr))

end Runs

end SuperExe.Http
