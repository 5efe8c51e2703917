import SuperExe.Http.Session
import SuperExe.Sched.Idle

/-! # The memory of a request

Model of `mk_http_handler_read` (`mk_server/mk_http.c`) with the memory that
`cs->body` points to. A session starts with `body_fixed`, or with a block of
`malloc` when the transport works in larger chunks; a full buffer is replaced by a
block of `malloc` or `realloc`. Each of them is a block with a number of its own.

The blocks of `mk_http_handler_read` have one byte more than `body_size`, for the
NUL behind what has been read; the block a session starts with has not.
`readBuffer_safe_iff` says what follows for whole runs.
-/

namespace SuperExe.Http

open SuperExe.Core SuperExe.Lib SuperExe.Sched

/-! ## Data -/

/-- `INT_MAX` -/
def intMax : Nat := 2 ^ 31 - 1

/-- A configuration in the types of the source: a chunk has at least one byte, and
both sizes are an `int`. -/
structure BufferConf extends SessionConf where
  chunk_pos : 0 < bufferSize
  chunk_int : bufferSize ≤ intMax
  max_int : maxRequestSize ≤ intMax

/-- A block of memory: which allocation it is, and its bytes. A `NULL` has none. -/
structure Block where
  id : Nat
  bytes : Nat
deriving DecidableEq, Repr

/-- `body_fixed` -/
def bodyFixed : Block where
  id := 0
  bytes := requestChunk

/-- A session and the memory `cs->body` points to. -/
structure Held where
  cs : Session
  block : Block
  /-- the block is not the one the session has started with -/
  grown : Bool
  /-- the number of the next allocation -/
  fresh : Nat

/-- Bytes that are written: the index of the first, how many, and the size of the
block at that moment. -/
structure Write where
  start : Nat
  count : Nat
  room : Nat
deriving DecidableEq, Repr

/-- Every index is in the block. -/
def Write.Inside (w : Write) : Prop := ∀ x, w.start ≤ x → x < w.start + w.count → x < w.room

/-- What the read function of the transport finds. -/
inductive NetRead where
  /-- `-1` -/
  | error
  /-- `0` -/
  | eof
  /-- `mk_liana_read`: what the socket holds -/
  | data (bs : Bytes)
  /-- `mk_tls_read`: a decrypted record. What does not fit is counted, and is
  there for the next call. -/
  | record (bs : Bytes)
deriving DecidableEq, Repr

/-- The bytes that have come. -/
def NetRead.bytes : NetRead → Bytes
  | .error => []
  | .eof => []
  | .data bs => bs
  | .record bs => bs

/-- The value returned for a buffer of `count` bytes. -/
def NetRead.ret (count : Nat) : NetRead → Int
  | .error => -1
  | .eof => 0
  | .data bs => (bs.take count).length
  | .record bs => bs.length

/-- One pass through `mk_http_handler_read` from `try_pending` on: whether memory
is granted, if it has to be asked for, and what the transport gives. -/
structure Attempt where
  alloc : Bool
  net : NetRead
deriving DecidableEq, Repr

/-! ## Reading -/

/-- `malloc` or `realloc` of `new_size + 1` bytes. A negative `int` is a size that
is never granted. -/
def allocate (fresh : Nat) (newSize : Int) (ok : Bool) : Option Block :=
  if ok ∧ 0 ≤ newSize ∧ newSize < intMax then some { id := fresh, bytes := newSize.toNat + 1 }
  else none

/-- The session with another block. -/
def Held.replace (h : Held) (block : Block) (size : Nat) : Held where
  cs := { h.cs with bodySize := size }
  block := block
  grown := true
  fresh := h.fresh + 1

/-- Room for more bytes: the session, and what is copied. None when the session has
been removed. -/
def Held.makeRoom (conf : SessionConf) (ok : Bool) (h : Held) : Option (Held × List Write) :=
  if h.cs.bodySize ≤ h.cs.bodyLength then
    let newSize := toInt32 ((h.cs.bodySize : Int) + conf.bufferSize)
    if newSize > conf.maxRequestSize then none
    else if h.block.id = 0 then
      -- the result of `malloc` is not looked at
      let block := (allocate h.fresh newSize ok).getD { id := h.fresh, bytes := 0 }
      some (h.replace block newSize.toNat,
        [{ start := 0, count := h.cs.bodyLength, room := block.bytes }])
    else (allocate h.fresh newSize ok).map fun block => (h.replace block newSize.toNat, [])
  else some (h, [])

/-- How a pass ends: with `-1`, or with some bytes and perhaps a further pass. -/
structure PassEnd where
  held : Held
  writes : List Write
  taken : Option Nat
  again : Bool

/-- `bs` is put behind what has been read, and a NUL behind it. -/
def Held.put (h : Held) (bs : Bytes) : Held :=
  { h with cs := h.cs.receive h.cs.bodySize bs }

def Held.writesOf (h : Held) (bs : Bytes) : List Write :=
  [{ start := h.cs.bodyLength, count := bs.length, room := h.block.bytes },
    { start := h.cs.bodyLength + bs.length, count := 1, room := h.block.bytes }]

/-- The read itself. -/
def Held.receive (h : Held) (net : NetRead) : PassEnd :=
  let maxRead := h.cs.bodySize - h.cs.bodyLength
  if net.ret maxRead ≤ 0 then { held := h, writes := [], taken := none, again := false }
  else
    let bs := net.bytes.take maxRead
    { held := h.put bs
      writes := h.writesOf bs
      taken := some bs.length
      again := maxRead < net.ret maxRead }

/-- One pass. -/
def Held.pass (conf : SessionConf) (h : Held) (a : Attempt) : PassEnd :=
  match h.makeRoom conf a.alloc with
  | none =>
    { held := { h with cs := mkHttpSessionRemove h.cs }, writes := [], taken := none,
      again := false }
  | some (h, copied) =>
    let r := h.receive a.net
    { r with writes := copied ++ r.writes }

/-- The end of `mk_http_handler_read`. -/
structure ReadEnd where
  ret : Option Nat
  held : Held
  writes : List Write

/-- `mk_http_handler_read` from `try_pending` on, with `total` bytes read before.
Behind the passes given the transport has nothing for now. -/
def tryPending (conf : SessionConf) : List Attempt → Held → Nat → ReadEnd
  | [], h, _ =>
    let r := h.pass conf { alloc := true, net := .error }
    { ret := none, held := r.held, writes := r.writes }
  | a :: as, h, total =>
    let r := h.pass conf a
    match r.taken with
    -- also when a pass before has taken something
    | none => { ret := none, held := r.held, writes := r.writes }
    | some n =>
      if r.again then
        let t := tryPending conf as r.held (total + n)
        { t with writes := r.writes ++ t.writes }
      else { ret := some (total + n), held := r.held, writes := r.writes }

/-! ## The connection -/

/-- `mk_http_session_init`; `ok` is whether its `malloc` is granted. -/
def Held.init (conf : SessionConf) (ok : Bool) (h : Held) : Held :=
  if conf.bufferSize > requestChunk then
    { cs := mkHttpSessionInit conf h.cs
      block := { id := h.fresh, bytes := if ok then conf.bufferSize else 0 }
      grown := false
      fresh := h.fresh + 1 }
  else { h with cs := mkHttpSessionInit conf h.cs, block := bodyFixed, grown := false }

/-- The session as `mk_http_sched_read` finds it, created for a new client. -/
def Held.ready (conf : SessionConf) (ok : Bool) (h : Held) : Held :=
  if h.cs.schedInit then h else h.init conf ok

/-- `mk_http_handler_read` as `mk_http_sched_read` calls it. -/
def Held.handlerRead (conf : SessionConf) (ok : Bool) (as : List Attempt) (h : Held) : ReadEnd :=
  tryPending conf as (h.ready conf ok) 0

/-- `mk_http_sched_read` -/
def Held.schedRead (conf : SessionConf) (k : World) (ok : Bool) (as : List Attempt) (h : Held) :
    Turn (Option Nat) :=
  let r := h.handlerRead conf ok as
  match r.ret with
  | none => { ret := none, cs := r.held.cs, prepared := none, timeout := none }
  | some n => readParsed k (r.held.cs.enlist k) n

/-- The scheduler calls `cb_read`, or `cb_done`. -/
inductive HeldEvent where
  | read (k : World) (ok : Bool) (as : List Attempt)
  | done (k : World)

/-- One call. -/
def Held.step (conf : SessionConf) (h : Held) : HeldEvent → Held
  | .read k ok as =>
    { (h.handlerRead conf ok as).held with cs := (h.schedRead conf (conf.configure k) ok as).cs }
  | .done k =>
    if h.cs.schedInit then { h with cs := (mkHttpRequestEnd (conf.configure k) h.cs).cs } else h

/-- A connection as a machine. -/
def heldMachine (conf : SessionConf) : Machine Held HeldEvent where
  step h e := h.step conf e

/-- A connection on which nothing has happened. -/
def heldStart : Held where
  cs := sessionZero
  block := bodyFixed
  grown := false
  fresh := 1

/-! ## The cursor -/

section Cursor

variable {len : Nat} {s : ParserSt}

theorem charLookup_lt (hi : s.p.i < len) (c : UInt8) : charLookup len s c < len := by
  unfold charLookup
  cases hf : findByte (s.rd len) c (len - s.p.i) s.p.i with
  | none => exact hi
  | some y =>
    have hy := (findByte_some hf).2.1
    simp only [Option.getD_some]
    omega

theorem ok_cursor {n : Nat} (h : s.p.i ≤ n) : (mkHttpParserOk s).state.p.i ≤ n := by
  unfold mkHttpParserOk
  repeat' split
  all_goals exact h

theorem firstLine_cursor (hi : s.p.i < len) : (firstLine len s).state.p.i ≤ 2 * len := by
  have h32 := charLookup_lt hi 32
  unfold firstLine
  simp only
  repeat' split
  all_goals first
    | exact ok_cursor (by omega)
    | (simp only [goOn, startNext, markEnd, raise, Outcome.state]
       omega)

theorem headersLevel_cursor (hi : s.p.i < len) : (headersLevel len s).state.p.i ≤ 2 * len := by
  have h58 := charLookup_lt hi 58
  have hlook : (headerLookup len { s with p := markEnd s.p }).1.p.i = s.p.i :=
    headerLookup_i len { s with p := markEnd s.p }
  unfold headersLevel headerKeyTurn headerValTurn
  simp only
  repeat' split
  all_goals
    simp only [goOn, startNext, markEnd, raise, Outcome.state] at hlook ⊢
    omega

/-- A turn stays close to the bytes received: the body may be counted twice. -/
theorem parserTurn_cursor (hi : s.p.i < len) : (parserTurn len s).state.p.i ≤ 2 * len := by
  unfold parserTurn
  rw [if_pos hi]
  split
  · exact firstLine_cursor hi
  · split
    · simp only [goOn, Outcome.state]
      omega
    · exact headersLevel_cursor hi
  · exact headersLevel_cursor hi
  · unfold endLevel
    repeat' split
    all_goals first
      | exact ok_cursor (by omega)
      | (simp only [goOn, startNext, Outcome.state]
         omega)
  · unfold bodyLevel
    simp only
    repeat' split
    all_goals first
      | exact ok_cursor (by simp only; omega)
      | exact ok_cursor (by omega)
      | (simp only [Outcome.state]
         omega)

theorem mkHttpParser_cursor (len : Nat) (s : ParserSt) :
    (mkHttpParser len s).2.p.i ≤ max s.p.i (2 * len) := by
  refine Loop.run_invariant (M := parserLoop len) (I := fun t => t.p.i ≤ max s.p.i (2 * len))
    (Q := fun _ t => t.p.i ≤ max s.p.i (2 * len)) ?_ ?_ (Nat.le_max_left _ _)
  · intro t t' _ hb
    have hturn := parserTurn_cursor (parserTurn_next hb).1
    rw [show parserTurn len t = .next t' from hb] at hturn
    exact Nat.le_trans hturn (Nat.le_max_right _ _)
  · intro t r t' ht hb
    by_cases hi : t.p.i < len
    · have hturn := parserTurn_cursor hi
      rw [show parserTurn len t = .halt r t' from hb] at hturn
      exact Nat.le_trans hturn (Nat.le_max_right _ _)
    · have hb' : parserTurn len t = .halt r t' := hb
      rw [parserTurn, if_neg hi] at hb'
      cases hb'
      exact ht

end Cursor

/-! ## Lengths -/

/-- What holds of the lengths of a session. -/
structure Bounded (conf : SessionConf) (cs : Session) : Prop where
  length : cs.bodyLength ≤ cs.bodySize
  size : cs.bodySize ≤ max conf.maxRequestSize conf.firstSize

/-- The lengths, and how far the cursor can be behind them. -/
structure Kept (conf : SessionConf) (cs : Session) : Prop extends Bounded conf cs where
  cursor : cs.parser.i ≤ 2 * cs.bodyLength

section Kept

variable {conf : SessionConf} {cs : Session}

theorem kept_zero (conf : SessionConf) : Kept conf sessionZero where
  length := Nat.le_refl _
  size := Nat.zero_le _
  cursor := Nat.zero_le _

theorem Kept.congr {cs' : Session} (h : Kept conf cs) (hlen : cs'.bodyLength = cs.bodyLength)
    (hsize : cs'.bodySize = cs.bodySize) (hp : cs'.parser.i = cs.parser.i) : Kept conf cs' where
  length := by rw [hlen, hsize]; exact h.length
  size := by rw [hsize]; exact h.size
  cursor := by rw [hlen, hp]; exact h.cursor

theorem Kept.remove (h : Kept conf cs) : Kept conf (mkHttpSessionRemove cs) := by
  unfold mkHttpSessionRemove
  split
  · exact h.congr rfl rfl rfl
  · exact h

theorem Kept.enlist (h : Kept conf cs) (k : World) : Kept conf (cs.enlist k) := by
  rcases enlist_eq (k := k) cs with ⟨sr, heq⟩
  rw [heq]
  exact h.congr rfl rfl rfl

theorem Kept.parsed (h : Kept conf cs) :
    Kept conf (cs.parsed (mkHttpParser cs.bodyLength cs.parserSt).2) where
  length := h.length
  size := h.size
  cursor := by
    have hcursor := mkHttpParser_cursor cs.bodyLength cs.parserSt
    have hold : cs.parserSt.p.i ≤ 2 * cs.bodyLength := h.cursor
    rwa [max_eq_right hold] at hcursor

theorem Kept.readParsed (h : Kept conf cs) (k : World) (n : Nat) :
    Kept conf (readParsed k cs n).cs := by
  have hparsed := h.parsed
  unfold Http.readParsed
  simp only
  repeat' split
  · exact hparsed.remove
  · exact hparsed.congr rfl rfl rfl
  · exact hparsed.remove
  · exact hparsed

theorem Kept.endShutdown (h : Kept conf cs) : Kept conf (endShutdown cs).cs := by
  unfold Http.endShutdown
  split
  · exact h.remove
  · exact ⟨⟨Nat.zero_le _, h.size⟩, Nat.zero_le _⟩

/-- What is left behind a request is not longer than what was there. -/
theorem Kept.startNext (h : Kept conf cs) (k : World) : Kept conf (cs.startNext k) := by
  have hlen := h.length
  have hcursor := h.cursor
  refine ⟨⟨?_, h.size⟩, Nat.zero_le _⟩
  simp only [Session.startNext, Session.shift]
  omega

theorem Kept.requestEnd (h : Kept conf cs) (k : World) : Kept conf (mkHttpRequestEnd k cs).cs := by
  unfold mkHttpRequestEnd
  split
  · exact (h.congr rfl rfl rfl : Kept conf { cs with closeNow := true }).endShutdown
  · split
    · have hparsed := (h.startNext k).parsed
      unfold endNext
      simp only
      split
      · exact hparsed.congr rfl rfl rfl
      · exact hparsed
      · exact (hparsed.congr rfl rfl rfl : Kept conf
          { (cs.startNext k).parsed (mkHttpParser (cs.startNext k).bodyLength
              (cs.startNext k).parserSt).2 with closeNow := true }).endShutdown
    · exact h.endShutdown

theorem Kept.receive (h : Kept conf cs) (net : NetRead) :
    Kept conf (cs.receive cs.bodySize (net.bytes.take (cs.bodySize - cs.bodyLength))) := by
  have hlen := h.length
  have hcursor := h.cursor
  refine ⟨⟨?_, h.size⟩, ?_⟩
  · simp only [Session.receive, List.length_take]
    omega
  · simp only [Session.receive, List.length_take]
    omega

end Kept

/-! ## Blocks -/

/-- The block of a session in use. -/
structure Blocked (conf : SessionConf) (h : Held) : Prop where
  bytes : h.block.bytes = 0 ∨ h.block.bytes = h.cs.bodySize + if h.grown then 1 else 0
  fixed : h.block.id = 0 → h.block.bytes = requestChunk ∧ h.grown = false ∧
    h.cs.bodySize = requestChunk ∧ conf.bufferSize ≤ requestChunk

/-- The invariant of a connection. -/
structure HeldInv (conf : SessionConf) (h : Held) : Prop where
  kept : Kept conf h.cs
  fresh : h.fresh ≠ 0
  blocked : h.cs.schedInit = true → Blocked conf h

/-- The block has been replaced and has a byte for the NUL. -/
structure Roomy (h : Held) : Prop where
  bytes : h.block.bytes = h.cs.bodySize + 1
  moved : h.block.id ≠ 0

section Pass

variable {conf : BufferConf} {h : Held}

theorem Bounded.size_int {cs : Session} (hb : Bounded conf.toSessionConf cs) :
    cs.bodySize ≤ intMax := by
  have hsize := hb.size
  have h1 := conf.chunk_int
  have h2 := conf.max_int
  unfold SessionConf.firstSize requestChunk at hsize
  unfold intMax at h1 h2 ⊢
  split at hsize <;> omega

/-- The sum of two `int`s is right or negative. -/
theorem toInt32_sum {a b : Nat} (ha : a ≤ intMax) (hb : b ≤ intMax) :
    toInt32 ((a : Int) + b) = a + b ∧ a + b ≤ intMax ∨
      toInt32 ((a : Int) + b) < 0 ∧ intMax < a + b := by
  unfold intMax at ha hb ⊢
  unfold toInt32
  by_cases hsum : a + b < 2 ^ 31
  · left
    refine ⟨?_, by omega⟩
    rw [Int.bmod_eq_of_le] <;> omega
  · right
    refine ⟨?_, by omega⟩
    rw [Int.bmod_def]
    omega

theorem allocate_eq_some {fresh : Nat} {n : Int} {ok : Bool} {b : Block}
    (h : allocate fresh n ok = some b) :
    ok = true ∧ 0 ≤ n ∧ b = { id := fresh, bytes := n.toNat + 1 } := by
  unfold allocate at h
  split at h
  · next hcond => exact ⟨hcond.1, hcond.2.1, (Option.some.inj h).symm⟩
  · cases h

/-- What making room can do: nothing, a copy to a block of `malloc`, or a block
of `realloc`. -/
theorem makeRoom_cases (hkept : Kept conf.toSessionConf h.cs)
    (hblock : Blocked conf.toSessionConf h) {ok : Bool} {h' : Held} {ws : List Write}
    (hroom : h.makeRoom conf.toSessionConf ok = some (h', ws)) :
    (h.cs.bodyLength < h.cs.bodySize ∧ h' = h ∧ ws = []) ∨
      (h.cs.bodySize ≤ h.cs.bodyLength ∧ h.cs.bodySize + conf.bufferSize ≤ conf.maxRequestSize ∧
        ∃ block, h' = h.replace block (h.cs.bodySize + conf.bufferSize) ∧ block.id = h.fresh ∧
          (block.bytes = h.cs.bodySize + conf.bufferSize + 1 ∧ ok = true ∨
            block.bytes = 0 ∧ ok = false ∧ h.block.id = 0) ∧
          (h.block.id = 0 ∧ ws = [⟨0, h.cs.bodyLength, block.bytes⟩] ∨
            h.block.id ≠ 0 ∧ ws = [])) := by
  unfold Held.makeRoom at hroom
  by_cases hfull : h.cs.bodySize ≤ h.cs.bodyLength
  · right
    rw [if_pos hfull] at hroom
    simp only at hroom
    have hsum := toInt32_sum hkept.size_int conf.chunk_int
    generalize toInt32 ((h.cs.bodySize : Int) + conf.bufferSize) = n at hsum hroom
    split at hroom
    · cases hroom
    · next hmax =>
      split at hroom
      · next hid =>
        -- `body_fixed` is small
        rcases hblock.fixed hid with ⟨-, -, hsize, hchunk⟩
        have hn : n = h.cs.bodySize + conf.bufferSize ∧ n < intMax := by
          unfold requestChunk at hsize hchunk
          unfold intMax at hsum ⊢
          omega
        have hcopy := Option.some.inj hroom
        simp only [Prod.mk.injEq] at hcopy
        refine ⟨hfull, by omega, _, ?_, ?_, ?_, .inl ⟨hid, hcopy.2.symm⟩⟩
        · rw [← hcopy.1]
          congr 1
          omega
        · unfold allocate
          split <;> rfl
        · cases ok with
          | true =>
            left
            have hgrant : allocate h.fresh n true = some { id := h.fresh, bytes := n.toNat + 1 } :=
              if_pos ⟨rfl, by omega, hn.2⟩
            rw [hgrant]
            simp only [Option.getD_some]
            exact ⟨by omega, trivial⟩
          | false =>
            right
            exact ⟨rfl, rfl, hid⟩
      · next hid =>
        cases halloc : allocate h.fresh n ok with
        | none =>
          rw [halloc] at hroom
          cases hroom
        | some b =>
          rcases allocate_eq_some halloc with ⟨hok, hpos, rfl⟩
          rw [halloc] at hroom
          have hmoved := Option.some.inj hroom
          simp only [Prod.mk.injEq] at hmoved
          refine ⟨hfull, by omega, ⟨h.fresh, n.toNat + 1⟩, ?_, rfl, .inl ⟨?_, hok⟩,
            .inr ⟨hid, hmoved.2.symm⟩⟩
          · rw [← hmoved.1]
            congr 1
            omega
          · simp only
            omega
  · left
    rw [if_neg hfull] at hroom
    have hsame := Option.some.inj hroom
    simp only [Prod.mk.injEq] at hsame
    exact ⟨by omega, hsame.1.symm, hsame.2.symm⟩

theorem receive_held (h : Held) (net : NetRead) :
    (h.receive net).held = h ∧ (h.receive net).writes = [] ∧ (h.receive net).taken = none ∨
      net.bytes ≠ [] ∧
        (h.receive net).held = h.put (net.bytes.take (h.cs.bodySize - h.cs.bodyLength)) ∧
        (h.receive net).writes =
          h.writesOf (net.bytes.take (h.cs.bodySize - h.cs.bodyLength)) := by
  unfold Held.receive
  simp only
  split
  · exact .inl ⟨rfl, rfl, rfl⟩
  · next hpos =>
    refine .inr ⟨?_, rfl, rfl⟩
    intro hnil
    apply hpos
    cases net with
    | error => simp [NetRead.ret]
    | eof => simp [NetRead.ret]
    | data bs =>
      simp only [NetRead.bytes] at hnil
      simp [NetRead.ret, hnil]
    | record bs =>
      simp only [NetRead.bytes] at hnil
      simp [NetRead.ret, hnil]

/-- A block with a byte more than `body_size` is not left. -/
theorem writesOf_inside {bs : Bytes} (hbytes : h.cs.bodySize < h.block.bytes)
    (hfit : h.cs.bodyLength + bs.length ≤ h.cs.bodySize) : ∀ w ∈ h.writesOf bs, w.Inside := by
  intro w hw
  simp only [Held.writesOf, List.mem_cons, List.not_mem_nil, or_false] at hw
  rcases hw with rfl | rfl
  · intro x hx hlt
    simp only at hlt ⊢
    omega
  · intro x hx hlt
    simp only at hlt ⊢
    omega

theorem receive_inside (hkept : Kept conf.toSessionConf h.cs)
    (hbytes : h.cs.bodySize < h.block.bytes) (net : NetRead) :
    ∀ w ∈ (h.receive net).writes, w.Inside := by
  rcases receive_held h net with ⟨-, hw, -⟩ | ⟨-, -, hw⟩
  · rw [hw]
    simp
  · rw [hw]
    refine writesOf_inside hbytes ?_
    have hlen := hkept.length
    simp only [List.length_take]
    omega

theorem HeldInv.makeRoom (hinv : HeldInv conf.toSessionConf h) (hinit : h.cs.schedInit = true)
    {ok : Bool} {h' : Held} {ws : List Write}
    (hroom : h.makeRoom conf.toSessionConf ok = some (h', ws)) :
    HeldInv conf.toSessionConf h' ∧ h'.cs.schedInit = true := by
  rcases makeRoom_cases hinv.kept (hinv.blocked hinit) hroom with ⟨-, rfl, -⟩ |
    ⟨hfull, hmax, block, rfl, hid, hbytes, -⟩
  · exact ⟨hinv, hinit⟩
  · have hlen := hinv.kept.length
    refine ⟨⟨⟨⟨?_, ?_⟩, hinv.kept.cursor⟩, Nat.succ_ne_zero _, fun _ => ⟨?_, ?_⟩⟩, hinit⟩
    · simp only [Held.replace]
      omega
    · simp only [Held.replace]
      omega
    · simp only [Held.replace, if_true]
      omega
    · intro hzero
      exact absurd (hid.symm.trans hzero) hinv.fresh

/-- A pass keeps the invariant. -/
theorem HeldInv.pass (hinv : HeldInv conf.toSessionConf h) (hinit : h.cs.schedInit = true)
    (a : Attempt) : HeldInv conf.toSessionConf (h.pass conf.toSessionConf a).held ∧
      ((h.pass conf.toSessionConf a).taken ≠ none →
        (h.pass conf.toSessionConf a).held.cs.schedInit = true) := by
  unfold Held.pass
  cases hroom : h.makeRoom conf.toSessionConf a.alloc with
  | none =>
    refine ⟨⟨hinv.kept.remove, hinv.fresh, ?_⟩, fun hne => absurd rfl hne⟩
    intro hlive
    simp [mkHttpSessionRemove, hinit] at hlive
  | some r =>
    rcases hinv.makeRoom hinit hroom with ⟨hinv', hinit'⟩
    simp only
    rcases receive_held r.1 a.net with ⟨hheld, -, -⟩ | ⟨-, hheld, -⟩
    · rw [hheld]
      exact ⟨hinv', fun _ => hinit'⟩
    · rw [hheld]
      have hblock := hinv'.blocked hinit'
      exact ⟨⟨hinv'.kept.receive a.net, hinv'.fresh, fun _ => ⟨hblock.bytes, hblock.fixed⟩⟩,
        fun _ => hinit'⟩

/-- A pass that finds or makes a block with a byte for the NUL. -/
theorem pass_roomy (hinv : HeldInv conf.toSessionConf h) (hinit : h.cs.schedInit = true)
    (a : Attempt) (hroomy : ∀ h' ws, h.makeRoom conf.toSessionConf a.alloc = some (h', ws) →
      Roomy h' ∧ ∀ w ∈ ws, w.Inside) :
    (∀ w ∈ (h.pass conf.toSessionConf a).writes, w.Inside) ∧
      ((h.pass conf.toSessionConf a).taken ≠ none →
        Roomy (h.pass conf.toSessionConf a).held) := by
  unfold Held.pass
  cases hroom : h.makeRoom conf.toSessionConf a.alloc with
  | none => exact ⟨by simp, fun hne => absurd rfl hne⟩
  | some r =>
    rcases hinv.makeRoom hinit hroom with ⟨hinv', -⟩
    rcases hroomy r.1 r.2 hroom with ⟨hroomy', hcopied⟩
    have hbytes := hroomy'.bytes
    simp only
    refine ⟨?_, ?_⟩
    · intro w hw
      rcases List.mem_append.mp hw with hw | hw
      · exact hcopied w hw
      · exact receive_inside hinv'.kept (by omega) a.net w hw
    · intro _
      rcases receive_held r.1 a.net with ⟨hheld, -, -⟩ | ⟨-, hheld, -⟩
      · rw [hheld]
        exact hroomy'
      · rw [hheld]
        exact ⟨hroomy'.bytes, hroomy'.moved⟩

/-- Growing gives such a block, when memory is granted where nobody looks. -/
theorem makeRoom_roomy (hinv : HeldInv conf.toSessionConf h) (hinit : h.cs.schedInit = true)
    (hfull : h.cs.bodySize ≤ h.cs.bodyLength) {ok : Bool} {h' : Held} {ws : List Write}
    (hok : h.block.id = 0 → ok = true)
    (hroom : h.makeRoom conf.toSessionConf ok = some (h', ws)) :
    Roomy h' ∧ ∀ w ∈ ws, w.Inside := by
  have hlen := hinv.kept.length
  rcases makeRoom_cases hinv.kept (hinv.blocked hinit) hroom with ⟨hlt, -, -⟩ |
    ⟨-, hmax, block, rfl, hid, hbytes, hws⟩
  · omega
  · have hsize : block.bytes = h.cs.bodySize + conf.bufferSize + 1 := by
      rcases hbytes with ⟨hbytes, -⟩ | ⟨-, hno, hzero⟩
      · exact hbytes
      · rw [hok hzero] at hno
        cases hno
    refine ⟨⟨hsize, ?_⟩, ?_⟩
    · simp only [Held.replace, hid]
      exact hinv.fresh
    · rcases hws with ⟨-, rfl⟩ | ⟨-, rfl⟩
      · intro w hw
        rw [List.mem_singleton] at hw
        rw [hw]
        intro x _ hlt
        simp only at hlt ⊢
        omega
      · simp

theorem Roomy.makeRoom (hroomy : Roomy h) (hinv : HeldInv conf.toSessionConf h)
    (hinit : h.cs.schedInit = true) {ok : Bool} {h' : Held} {ws : List Write}
    (hroom : h.makeRoom conf.toSessionConf ok = some (h', ws)) :
    Roomy h' ∧ ∀ w ∈ ws, w.Inside := by
  by_cases hfull : h.cs.bodySize ≤ h.cs.bodyLength
  · exact makeRoom_roomy hinv hinit hfull (fun hzero => absurd hzero hroomy.moved) hroom
  · rcases makeRoom_cases hinv.kept (hinv.blocked hinit) hroom with ⟨-, rfl, rfl⟩ | ⟨hle, -⟩
    · exact ⟨hroomy, by simp⟩
    · exact absurd hle hfull

/-! ### The loop -/

theorem HeldInv.tryPending (as : List Attempt) (hinv : HeldInv conf.toSessionConf h)
    (hinit : h.cs.schedInit = true) (total : Nat) :
    HeldInv conf.toSessionConf (tryPending conf.toSessionConf as h total).held := by
  induction as generalizing h total with
  | nil => exact (hinv.pass hinit _).1
  | cons a as ih =>
    rcases hinv.pass hinit a with ⟨hinv', hinit'⟩
    simp only [Http.tryPending]
    cases htaken : (h.pass conf.toSessionConf a).taken with
    | none => exact hinv'
    | some n =>
      simp only
      split
      · exact ih hinv' (hinit' (by simp [htaken])) _
      · exact hinv'

/-- A safe first pass behind which there is a byte for the NUL. -/
theorem tryPending_roomy {a : Attempt} {as : List Attempt} {total : Nat}
    (hpass : (∀ w ∈ (h.pass conf.toSessionConf a).writes, w.Inside) ∧
      ((h.pass conf.toSessionConf a).taken ≠ none → Roomy (h.pass conf.toSessionConf a).held))
    (hrest : ∀ n, Roomy (h.pass conf.toSessionConf a).held →
      (h.pass conf.toSessionConf a).taken ≠ none →
      ∀ w ∈ (tryPending conf.toSessionConf as (h.pass conf.toSessionConf a).held n).writes,
        w.Inside) :
    ∀ w ∈ (tryPending conf.toSessionConf (a :: as) h total).writes, w.Inside := by
  simp only [tryPending]
  cases htaken : (h.pass conf.toSessionConf a).taken with
  | none => exact hpass.1
  | some n =>
    have hne : (h.pass conf.toSessionConf a).taken ≠ none := by simp [htaken]
    simp only
    split
    · intro w hw
      rcases List.mem_append.mp hw with hw | hw
      · exact hpass.1 w hw
      · exact hrest _ (hpass.2 hne) hne w hw
    · exact hpass.1

/-- Once the block has been replaced, all passes stay inside. -/
theorem Roomy.tryPending (as : List Attempt) (hroomy : Roomy h)
    (hinv : HeldInv conf.toSessionConf h) (hinit : h.cs.schedInit = true) (total : Nat) :
    ∀ w ∈ (tryPending conf.toSessionConf as h total).writes, w.Inside := by
  induction as generalizing h total with
  | nil => exact (pass_roomy hinv hinit _ fun _ _ hr => hroomy.makeRoom hinv hinit hr).1
  | cons a as ih =>
    rcases hinv.pass hinit a with ⟨hinv', hinit'⟩
    refine tryPending_roomy (pass_roomy hinv hinit a fun _ _ hr => hroomy.makeRoom hinv hinit hr) ?_
    intro n hroomy' hne
    exact ih hroomy' hinv' (hinit' hne) n

/-- The writes of the first pass come first. -/
theorem pass_writes_mem {a : Attempt} {as : List Attempt} {total : Nat} {w : Write}
    (hw : w ∈ (h.pass conf.toSessionConf a).writes) :
    w ∈ (tryPending conf.toSessionConf (a :: as) h total).writes := by
  simp only [tryPending]
  split
  · exact hw
  · split
    · exact List.mem_append_left _ hw
    · exact hw

end Pass

/-! ## Which reads are safe -/

/-- The read leaves a byte for the NUL. The block a session starts with is not
filled, and `cs->body` is not `NULL`, which only the two calls of `malloc` can have
made it. -/
def Spares (conf : SessionConf) (h : Held) : List Attempt → Prop
  | [] => True
  | a :: _ =>
    if h.cs.bodySize ≤ h.cs.bodyLength then
      h.block.id = 0 → h.cs.bodySize + conf.bufferSize ≤ conf.maxRequestSize → a.alloc = true
    else a.net.bytes ≠ [] → h.block.bytes ≠ 0 ∧
      (h.grown = false → a.net.bytes.length < h.cs.bodySize - h.cs.bodyLength)

section Safe

variable {conf : BufferConf} {h : Held}

theorem makeRoom_free (hfree : ¬ h.cs.bodySize ≤ h.cs.bodyLength) (ok : Bool) :
    h.makeRoom conf.toSessionConf ok = some (h, []) := by
  unfold Held.makeRoom
  rw [if_neg hfree]

theorem receive_nothing {net : NetRead} (hnil : net.bytes = []) :
    (h.receive net).writes = [] ∧ (h.receive net).taken = none := by
  rcases receive_held h net with ⟨-, hw, ht⟩ | ⟨hne, -, -⟩
  · exact ⟨hw, ht⟩
  · exact absurd hnil hne

/-- Bytes have come, and there is room for at least one. -/
theorem receive_some {net : NetRead} (hne : net.bytes ≠ [])
    (hfree : ¬ h.cs.bodySize ≤ h.cs.bodyLength) :
    (h.receive net).writes = h.writesOf (net.bytes.take (h.cs.bodySize - h.cs.bodyLength)) ∧
      (net.bytes.length < h.cs.bodySize - h.cs.bodyLength → (h.receive net).again = false) := by
  have hpos : 0 < net.bytes.length := List.length_pos_iff.mpr hne
  have hret : (net.ret (h.cs.bodySize - h.cs.bodyLength) : Int) ≤ net.bytes.length ∧
      0 < net.ret (h.cs.bodySize - h.cs.bodyLength) := by
    cases net with
    | error => exact absurd rfl hne
    | eof => exact absurd rfl hne
    | data bs =>
      simp only [NetRead.bytes] at hpos
      simp only [NetRead.ret, NetRead.bytes, List.length_take]
      omega
    | record bs =>
      simp only [NetRead.bytes] at hpos
      simp only [NetRead.ret, NetRead.bytes]
      omega
  unfold Held.receive
  simp only
  rw [if_neg (by omega)]
  refine ⟨rfl, ?_⟩
  intro hshort
  simp only [decide_eq_false_iff_not]
  omega

theorem safe_of_spares (hinv : HeldInv conf.toSessionConf h) (hinit : h.cs.schedInit = true)
    {as : List Attempt} (hsp : Spares conf.toSessionConf h as) (total : Nat) :
    ∀ w ∈ (tryPending conf.toSessionConf as h total).writes, w.Inside := by
  have hblock := hinv.blocked hinit
  by_cases hfull : h.cs.bodySize ≤ h.cs.bodyLength
  · cases as with
    | nil =>
      refine (pass_roomy hinv hinit { alloc := true, net := .error } ?_).1
      intro h' ws hr
      exact makeRoom_roomy hinv hinit hfull (fun _ => rfl) hr
    | cons a as =>
      simp only [Spares, if_pos hfull] at hsp
      rcases hinv.pass hinit a with ⟨hinv', hinit'⟩
      refine tryPending_roomy (pass_roomy hinv hinit a fun h' ws hr => ?_)
        (fun n hroomy hne => hroomy.tryPending as hinv' (hinit' hne) n)
      refine makeRoom_roomy hinv hinit hfull (fun hzero => hsp hzero ?_) hr
      rcases makeRoom_cases hinv.kept hblock hr with ⟨hlt, -, -⟩ | ⟨-, hmax, -⟩
      · omega
      · exact hmax
  · cases as with
    | nil =>
      have hnone := (receive_nothing rfl : (h.receive .error).writes = [] ∧ _)
      simp only [tryPending, Held.pass, makeRoom_free hfull, hnone.1]
      simp
    | cons a as =>
      simp only [Spares, if_neg hfull] at hsp
      by_cases hnil : a.net.bytes = []
      · have hnone := receive_nothing (h := h) hnil
        simp only [tryPending, Held.pass, makeRoom_free hfull, hnone.2, hnone.1]
        simp
      · rcases hsp hnil with ⟨hnull, hshort⟩
        cases hgrown : h.grown with
        | true =>
          have hroomy : Roomy h := by
            refine ⟨?_, ?_⟩
            · have hbytes := hblock.bytes.resolve_left hnull
              rwa [hgrown] at hbytes
            · intro hzero
              have hno := (hblock.fixed hzero).2.1
              rw [hgrown] at hno
              cases hno
          exact hroomy.tryPending _ hinv hinit total
        | false =>
          -- the block of the start: the read ends in front of its last byte
          have hlt := hshort hgrown
          have hbytes := hblock.bytes.resolve_left hnull
          rw [hgrown] at hbytes
          simp only [Bool.false_eq_true, if_false, Nat.add_zero] at hbytes
          rcases receive_some hnil hfull with ⟨hwrites, hlast⟩
          have hinside : ∀ w ∈ h.writesOf
              (a.net.bytes.take (h.cs.bodySize - h.cs.bodyLength)), w.Inside := by
            rw [List.take_of_length_le (by omega)]
            intro w hw
            simp only [Held.writesOf, List.mem_cons, List.not_mem_nil, or_false] at hw
            rcases hw with rfl | rfl
            · intro x _ hx
              simp only at hx ⊢
              omega
            · intro x _ hx
              simp only at hx ⊢
              omega
          simp only [tryPending, Held.pass, makeRoom_free hfull, hlast hlt, hwrites,
            List.nil_append]
          split
          · exact hinside
          · exact hinside

/-- The copy to a block that has not been granted. -/
theorem makeRoom_null (hkept : Kept conf.toSessionConf h.cs) (hfull : h.cs.bodySize ≤ h.cs.bodyLength)
    (hzero : h.block.id = 0) (hmax : h.cs.bodySize + conf.bufferSize ≤ conf.maxRequestSize) :
    ∃ h', h.makeRoom conf.toSessionConf false = some (h', [⟨0, h.cs.bodyLength, 0⟩]) := by
  have hsum := toInt32_sum hkept.size_int conf.chunk_int
  have hint := conf.max_int
  unfold Held.makeRoom
  rw [if_pos hfull]
  simp only
  rw [if_neg (by omega), if_pos hzero]
  exact ⟨_, rfl⟩

theorem spares_of_safe (hinv : HeldInv conf.toSessionConf h) (hinit : h.cs.schedInit = true)
    {as : List Attempt} {total : Nat}
    (hsafe : ∀ w ∈ (tryPending conf.toSessionConf as h total).writes, w.Inside) :
    Spares conf.toSessionConf h as := by
  have hblock := hinv.blocked hinit
  have hlen := hinv.kept.length
  cases as with
  | nil => trivial
  | cons a as =>
    -- a full buffer has to grow first
    by_cases hfull : h.cs.bodySize ≤ h.cs.bodyLength
    · simp only [Spares, if_pos hfull]
      intro hzero hmax
      by_contra hno
      rcases makeRoom_null hinv.kept hfull hzero hmax with ⟨h', hroom⟩
      have hw : (⟨0, h.cs.bodyLength, 0⟩ : Write) ∈ (h.pass conf.toSessionConf a).writes := by
        simp only [Held.pass, Bool.eq_false_iff.mpr hno, hroom]
        simp
      have hsize := (hblock.fixed hzero).2.2.1
      unfold requestChunk at hsize
      have hlt := hsafe _ (pass_writes_mem hw) 0 (Nat.le_refl _) (by simp only; omega)
      simp at hlt
    · simp only [Spares, if_neg hfull]
      intro hne
      have hpos : 0 < a.net.bytes.length := List.length_pos_iff.mpr hne
      have hmem : ∀ w ∈ h.writesOf (a.net.bytes.take (h.cs.bodySize - h.cs.bodyLength)),
          w.Inside := by
        intro w hw
        refine hsafe w (pass_writes_mem ?_)
        simp only [Held.pass, makeRoom_free hfull, (receive_some hne hfull).1, List.nil_append]
        exact hw
      have htake : (a.net.bytes.take (h.cs.bodySize - h.cs.bodyLength)).length =
          min (h.cs.bodySize - h.cs.bodyLength) a.net.bytes.length := List.length_take
      -- the bytes and the NUL behind them are inside
      have hread := hmem _ (List.mem_cons_self) h.cs.bodyLength (Nat.le_refl _)
        (by simp only [htake]; omega)
      have hnul := hmem _ (List.mem_cons_of_mem _ (List.mem_cons_self)) _ (Nat.le_refl _)
        (Nat.lt_succ_self _)
      simp only [htake] at hread hnul
      refine ⟨by omega, ?_⟩
      intro hgrown
      have hbytes := hblock.bytes
      rw [hgrown] at hbytes
      simp only [Bool.false_eq_true, if_false, Nat.add_zero] at hbytes
      omega

end Safe

/-! ## Whole runs -/

/-- What `mk_http_handler_read` writes in a call. -/
def Held.writes (conf : SessionConf) (h : Held) : HeldEvent → List Write
  | .read _ ok as => (h.handlerRead conf ok as).writes
  | .done _ => []

/-- A call writes inside the block, and leaves lengths that are in order. -/
structure StepSafe (conf : SessionConf) (h : Held) (e : HeldEvent) : Prop where
  inside : ∀ w ∈ h.writes conf e, w.Inside
  bounded : Bounded conf (h.step conf e).cs

/-- The condition on a call. -/
def StepSpares (conf : SessionConf) (h : Held) : HeldEvent → Prop
  | .read _ ok as => Spares conf (h.ready conf ok) as
  | .done _ => True

section Runs

variable {conf : BufferConf} {h : Held}

theorem heldInv_start (conf : BufferConf) : HeldInv conf.toSessionConf heldStart where
  kept := kept_zero _
  fresh := Nat.one_ne_zero
  blocked hlive := nomatch hlive

theorem HeldInv.ready (hinv : HeldInv conf.toSessionConf h) (ok : Bool) :
    HeldInv conf.toSessionConf (h.ready conf.toSessionConf ok) ∧
      (h.ready conf.toSessionConf ok).cs.schedInit = true := by
  unfold Held.ready
  split
  · next hinit => exact ⟨hinv, hinit⟩
  · have hkept : Kept conf.toSessionConf (mkHttpSessionInit conf.toSessionConf h.cs) :=
      ⟨⟨Nat.zero_le _, Nat.le_max_right _ _⟩, Nat.zero_le _⟩
    unfold Held.init
    split
    · next hlarge =>
      refine ⟨⟨hkept, Nat.succ_ne_zero _, fun _ => ⟨?_, fun hzero => absurd hzero hinv.fresh⟩⟩, rfl⟩
      simp only [mkHttpSessionInit, SessionConf.firstSize, if_pos hlarge]
      cases ok with
      | true => exact .inr rfl
      | false => exact .inl rfl
    · next hsmall =>
      refine ⟨⟨hkept, hinv.fresh, fun _ => ⟨.inr ?_, fun _ => ⟨rfl, rfl, ?_, by omega⟩⟩⟩, rfl⟩
      · simp [mkHttpSessionInit, SessionConf.firstSize, hsmall, bodyFixed]
      · simp [mkHttpSessionInit, SessionConf.firstSize, hsmall]

/-- The room of a session, and whether it is in use. -/
def SameRoom (cs cs' : Session) : Prop :=
  cs'.bodySize = cs.bodySize ∧ (cs'.schedInit = true → cs.schedInit = true)

theorem sameRoom_remove (cs : Session) : SameRoom cs (mkHttpSessionRemove cs) := by
  unfold mkHttpSessionRemove
  split
  · exact ⟨rfl, fun hno => nomatch hno⟩
  · exact ⟨rfl, id⟩

theorem sameRoom_readParsed (k : World) (cs : Session) (n : Nat) :
    SameRoom cs (readParsed k (cs.enlist k) n).cs := by
  rcases enlist_eq (k := k) cs with ⟨sr, heq⟩
  rw [heq]
  unfold readParsed
  simp only
  repeat' split
  · exact sameRoom_remove _
  · exact ⟨rfl, id⟩
  · exact sameRoom_remove _
  · exact ⟨rfl, id⟩

theorem sameRoom_endShutdown (cs : Session) : SameRoom cs (endShutdown cs).cs := by
  unfold endShutdown
  split
  · exact sameRoom_remove cs
  · exact ⟨rfl, id⟩

theorem sameRoom_requestEnd (k : World) (cs : Session) :
    SameRoom cs (mkHttpRequestEnd k cs).cs := by
  unfold mkHttpRequestEnd
  split
  · exact sameRoom_endShutdown _
  · split
    · unfold endNext
      simp only
      split
      · exact ⟨rfl, id⟩
      · exact ⟨rfl, id⟩
      · exact sameRoom_endShutdown _
    · exact sameRoom_endShutdown cs

theorem HeldInv.sameRoom {cs : Session} (hinv : HeldInv conf.toSessionConf h)
    (hkept : Kept conf.toSessionConf cs) (hsame : SameRoom h.cs cs) :
    HeldInv conf.toSessionConf { h with cs := cs } := by
  refine ⟨hkept, hinv.fresh, ?_⟩
  intro hinit
  have hblock := hinv.blocked (hsame.2 hinit)
  constructor
  · simp only [hsame.1]
    exact hblock.bytes
  · simp only [hsame.1]
    exact hblock.fixed

theorem HeldInv.handlerRead (hinv : HeldInv conf.toSessionConf h) (ok : Bool) (as : List Attempt) :
    HeldInv conf.toSessionConf (h.handlerRead conf.toSessionConf ok as).held := by
  rcases hinv.ready ok with ⟨hready, hinit⟩
  exact hready.tryPending as hinit 0

/-- A call keeps the invariant. -/
theorem HeldInv.step (hinv : HeldInv conf.toSessionConf h) (e : HeldEvent) :
    HeldInv conf.toSessionConf (h.step conf.toSessionConf e) := by
  cases e with
  | read k ok as =>
    have hread := hinv.handlerRead ok as
    simp only [Held.step, Held.schedRead]
    cases (h.handlerRead conf.toSessionConf ok as).ret with
    | none => exact hread
    | some n => exact hread.sameRoom ((hread.kept.enlist _).readParsed _ n) (sameRoom_readParsed _ _ n)
  | done k =>
    simp only [Held.step]
    split
    · exact hinv.sameRoom (hinv.kept.requestEnd _) (sameRoom_requestEnd _ _)
    · exact hinv

theorem stepSafe_iff (hinv : HeldInv conf.toSessionConf h) (e : HeldEvent) :
    StepSafe conf.toSessionConf h e ↔ StepSpares conf.toSessionConf h e := by
  have hbounded := (hinv.step e).kept.toBounded
  cases e with
  | read k ok as =>
    rcases hinv.ready ok with ⟨hready, hinit⟩
    constructor
    · intro hsafe
      exact spares_of_safe hready hinit hsafe.inside
    · intro hsp
      exact ⟨safe_of_spares hready hinit hsp 0, hbounded⟩
  | done k => exact ⟨fun _ => trivial, fun _ => ⟨fun w hw => absurd hw List.not_mem_nil, hbounded⟩⟩

/-- In every run the safe calls are exactly those that leave a byte for the NUL,
so the safe runs are those in which all calls do. -/
theorem readBuffer_safe_iff (conf : BufferConf) (es : List HeldEvent) :
    (heldMachine conf.toSessionConf).AllSteps (fun h e =>
        StepSafe conf.toSessionConf h e ↔ StepSpares conf.toSessionConf h e) heldStart es ∧
      ((heldMachine conf.toSessionConf).AllSteps (StepSafe conf.toSessionConf) heldStart es ↔
        (heldMachine conf.toSessionConf).AllSteps (StepSpares conf.toSessionConf) heldStart es) := by
  have heach : (heldMachine conf.toSessionConf).AllSteps (fun h e =>
      StepSafe conf.toSessionConf h e ↔ StepSpares conf.toSessionConf h e) heldStart es :=
    (heldMachine conf.toSessionConf).allSteps_of_invariant (I := HeldInv conf.toSessionConf)
      (fun _ e hinv _ => hinv.step e) (fun _ e hinv _ => stepSafe_iff hinv e) (heldInv_start conf)
      ((heldMachine conf.toSessionConf).allSteps_true heldStart es)
  refine ⟨heach, ?_, ?_⟩
  · intro hsafe
    exact (heach.and hsafe).mono fun h e hboth => hboth.1.mp hboth.2
  · intro hsp
    exact (heach.and hsp).mono fun h e hboth => hboth.1.mpr hboth.2

/-- The chunk of `mk_plugin_liana` and the default for `MaxRequestSize`. -/
def confLiana : BufferConf where
  bufferSize := requestChunk
  maxRequestSize := requestChunk * 8
  keepAlive := true
  maxKeepAliveRequest := 50
  chunk_pos := by decide
  chunk_int := by decide
  max_int := by decide

/-- As many bytes as `body_fixed` has. -/
def chunkRead : HeldEvent :=
  .read worldSite true [⟨true, .data (List.replicate requestChunk 71)⟩]

/-- The NUL is written behind `body_fixed`. -/
theorem readBuffer_chunkRead :
    { start := 4096, count := 1, room := 4096 } ∈
        heldStart.writes confLiana.toSessionConf chunkRead ∧
      ¬ StepSafe confLiana.toSessionConf heldStart chunkRead := by
  have hmem : { start := 4096, count := 1, room := 4096 } ∈
      heldStart.writes confLiana.toSessionConf chunkRead := by decide +kernel
  refine ⟨hmem, ?_⟩
  intro hsafe
  have hlt := hsafe.inside _ hmem 4096 (Nat.le_refl _) (by decide)
  simp at hlt

/-! ## Without the memory -/

theorem ready_cs (ok : Bool) :
    (h.ready conf.toSessionConf ok).cs = h.cs.ready conf.toSessionConf := by
  unfold Held.ready Held.init Session.ready
  repeat' split
  all_goals rfl

/-- The room is the one of the session without its memory. -/
theorem makeRoom_roomFor (hkept : Kept conf.toSessionConf h.cs)
    (hint : h.cs.bodySize + conf.bufferSize < intMax) :
    (h.makeRoom conf.toSessionConf true).map (fun r => r.1.cs) =
      (roomFor conf.toSessionConf h.cs).map fun size => { h.cs with bodySize := size } := by
  have hsum := toInt32_sum hkept.size_int conf.chunk_int
  have hnew : toInt32 ((h.cs.bodySize : Int) + conf.bufferSize) =
      h.cs.bodySize + conf.bufferSize := by omega
  unfold Held.makeRoom roomFor
  rw [hnew]
  by_cases hfull : h.cs.bodySize ≤ h.cs.bodyLength
  · rw [if_pos hfull, if_pos hfull]
    by_cases hmax : h.cs.bodySize + conf.bufferSize > conf.maxRequestSize
    · simp only
      rw [if_pos (by omega), if_pos hmax]
      rfl
    · simp only
      rw [if_neg (by omega), if_neg hmax]
      have hgrant : allocate h.fresh ((h.cs.bodySize : Int) + conf.bufferSize) true =
          some { id := h.fresh, bytes := h.cs.bodySize + conf.bufferSize + 1 } := by
        unfold allocate
        rw [if_pos ⟨rfl, by omega, by omega⟩]
        congr 2
      rw [hgrant]
      have hsize : ((h.cs.bodySize : Int) + conf.bufferSize).toNat =
          h.cs.bodySize + conf.bufferSize := by omega
      split
      · simp [Held.replace, hsize]
      · simp [Held.replace, hsize]
  · rw [if_neg hfull, if_neg hfull]
    rfl

theorem pass_plain (hkept : Kept conf.toSessionConf h.cs)
    (hint : h.cs.bodySize + conf.bufferSize < intMax) (data : Bytes) :
    ((h.pass conf.toSessionConf ⟨true, .data data⟩).taken,
        (h.pass conf.toSessionConf ⟨true, .data data⟩).held.cs) =
      mkHttpHandlerRead conf.toSessionConf h.cs data ∧
      (h.pass conf.toSessionConf ⟨true, .data data⟩).again = false := by
  have hroom := makeRoom_roomFor hkept hint
  unfold mkHttpHandlerRead Held.pass
  cases hmake : h.makeRoom conf.toSessionConf true with
  | none =>
    rw [hmake] at hroom
    rw [Option.map_eq_none_iff.mp hroom.symm]
    exact ⟨rfl, rfl⟩
  | some r =>
    rw [hmake] at hroom
    rcases Option.map_eq_some_iff.mp hroom.symm with ⟨size, hfor, hcs⟩
    rw [hfor]
    simp only [Held.receive, ← hcs, NetRead.ret, NetRead.bytes, Held.put]
    by_cases hnil : data.take (size - h.cs.bodyLength) = []
    · rw [hnil]
      exact ⟨Prod.ext rfl hcs.symm, rfl⟩
    · have hpos : ¬ ((data.take (size - h.cs.bodyLength)).length : Int) ≤ 0 := by
        have := List.length_pos_iff.mpr hnil
        omega
      rw [if_neg hpos, if_neg hnil]
      refine ⟨Prod.ext rfl rfl, ?_⟩
      simp only [List.length_take, decide_eq_false_iff_not]
      omega

/-- With plain reads and memory for the asking, `mk_http_sched_read` is the one of
the session without its memory. -/
theorem schedRead_plain (hinv : HeldInv conf.toSessionConf h) (k : World) (ok : Bool)
    (data : Bytes) (hint : (h.cs.ready conf.toSessionConf).bodySize + conf.bufferSize < intMax) :
    h.schedRead conf.toSessionConf k ok [⟨true, .data data⟩] =
      mkHttpSchedRead conf.toSessionConf k h.cs data := by
  have hready := hinv.ready ok
  rw [← ready_cs (h := h) ok] at hint
  unfold mkHttpSchedRead Held.schedRead Held.handlerRead
  rw [← ready_cs (h := h) ok]
  rcases pass_plain hready.1.kept hint data with ⟨hpass, hlast⟩
  rw [← hpass]
  simp only [tryPending, hlast, Bool.false_eq_true, if_false]
  cases ((h.ready conf.toSessionConf ok).pass conf.toSessionConf ⟨true, .data data⟩).taken with
  | none => rfl
  | some n =>
    simp only [Nat.zero_add]

end Runs

end SuperExe.Http
