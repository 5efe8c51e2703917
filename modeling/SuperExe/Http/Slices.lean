import SuperExe.Http.ParserFrame
import SuperExe.Http.ParserRun

/-! # The slices a call of the parser stores

The parser stores pointers into its buffer: four slices of the request record, and
the key and the value of every header. It never reads them. So the slices that a
call stores are those that are set when it starts from none (`stores`), and all
others are left as they were (`mkHttpParser_slot`).
-/

namespace SuperExe.Http

open SuperExe.Core SuperExe.Lib

/-- The places where the parser stores a slice. -/
inductive Slot where
  | method
  | uri
  | queryString
  | protocol
  | key (n : HeaderName)
  | val (n : HeaderName)
  | extraKey (k : Nat)
  | extraVal (k : Nat)
deriving DecidableEq, Repr

/-- A slice of a header. -/
def Slot.isHeader : Slot → Bool
  | .method | .uri | .queryString | .protocol => false
  | _ => true

def Slot.get (req : ParsedRequest) (headers : HeaderName → HttpHeader) (extra : List HttpHeader) :
    Slot → MkPtr
  | .method => req.methodP
  | .uri => req.uri
  | .queryString => req.queryString
  | .protocol => req.protocolP
  | .key n => (headers n).key
  | .val n => (headers n).val
  | .extraKey k => (extra[k]?.map HttpHeader.key).getD .null
  | .extraVal k => (extra[k]?.map HttpHeader.val).getD .null

/-- The slice in a place. -/
def ParserSt.slot (s : ParserSt) (f : Slot) : MkPtr := f.get s.req s.p.headers s.p.headersExtra

/-- The state with other slices. -/
def ParserSt.put (s : ParserSt) (τ : Slot → MkPtr) : ParserSt :=
  { s with
    req := { s.req with
      methodP := τ .method
      uri := τ .uri
      queryString := τ .queryString
      protocolP := τ .protocol }
    p := { s.p with
      headers := fun n => { s.p.headers n with key := τ (.key n), val := τ (.val n) }
      headersExtra := s.p.headersExtra.mapIdx fun k h =>
        { h with key := τ (.extraKey k), val := τ (.extraVal k) } } }

/-- The call stores something there. -/
def stores (len : Nat) (s : ParserSt) (f : Slot) : Bool :=
  ((mkHttpParser len (s.put fun _ => .null)).2.slot f).data.isSome

/-! ## One turn -/

/-- The outcome with other slices. -/
def putOutcome (τ : Slot → MkPtr) : Outcome ParserSt ParserRet → Outcome ParserSt ParserRet
  | .next s => .next (s.put τ)
  | .halt r s => .halt r (s.put τ)

/-- A slice is left alone in both states, or stored in both. -/
def Carried (s s' : ParserSt) (τ τ' : Slot → MkPtr) : Prop :=
  ∀ f, τ' f = τ f ∧ s'.slot f = s.slot f ∨ τ' f = s'.slot f ∧ (s'.slot f).data.isSome

/-- `o` and `o'` are what a turn makes of `s` and of `s.put τ`. -/
def Carries (s : ParserSt) (τ : Slot → MkPtr) (o o' : Outcome ParserSt ParserRet) : Prop :=
  ∃ τ', o' = putOutcome τ' o ∧ Carried s o.state τ τ'

section Turn

variable {s : ParserSt} {τ : Slot → MkPtr} {len : Nat}

theorem Carries.ite {c : Prop} [Decidable c] {a a' b b' : Outcome ParserSt ParserRet}
    (hpos : c → Carries s τ a a') (hneg : ¬ c → Carries s τ b b') :
    Carries s τ (if c then a else b) (if c then a' else b') := by
  by_cases h : c
  · rw [if_pos h, if_pos h]
    exact hpos h
  · rw [if_neg h, if_neg h]
    exact hneg h

/-- Nothing is stored. -/
theorem carries_next {t : ParserSt} (h : ∀ f, t.slot f = s.slot f) :
    Carries s τ (.next t) (.next (t.put τ)) :=
  ⟨τ, rfl, fun f => .inl ⟨rfl, h f⟩⟩

theorem carries_halt {t : ParserSt} (r : ParserRet) (h : ∀ f, t.slot f = s.slot f) :
    Carries s τ (.halt r t) (.halt r (t.put τ)) :=
  ⟨τ, rfl, fun f => .inl ⟨rfl, h f⟩⟩

theorem Carries.of_slots {t : ParserSt} {o o' : Outcome ParserSt ParserRet}
    (hslot : ∀ f, t.slot f = s.slot f) (h : Carries t τ o o') : Carries s τ o o' := by
  rcases h with ⟨τ', ho, hcar⟩
  refine ⟨τ', ho, ?_⟩
  intro f
  rw [← hslot f]
  exact hcar f

theorem carries_ok {t : ParserSt} (h : ∀ f, t.slot f = s.slot f) :
    Carries s τ (mkHttpParserOk t) (mkHttpParserOk (t.put τ)) := by
  unfold mkHttpParserOk
  refine Carries.ite (fun _ => ?_) (fun _ => Carries.ite (fun _ => ?_) (fun _ => ?_))
  · exact carries_halt _ h
  · exact carries_halt _ h
  · exact carries_halt _ h

@[simp] theorem put_status : (s.put τ).p.status = s.p.status := rfl

@[simp] theorem put_level : (s.put τ).p.level = s.p.level := rfl

theorem carries_headerKeyTurn :
    Carries s τ (headerKeyTurn len s) (headerKeyTurn len (s.put τ)) := by
  unfold headerKeyTurn
  refine Carries.ite (fun _ => ?_) (fun _ => ?_)
  · refine Carries.ite (fun _ => ?_) (fun _ => ?_)
    · exact carries_next fun f => rfl
    · exact carries_halt _ fun f => rfl
  · refine Carries.ite (fun _ => ?_) (fun _ => ?_)
    · -- `header_sep` is cleared in one branch only
      by_cases hscope : headerScope (s.rd len s.p.i) = (-1, -1)
      · have hscope' : headerScope ((s.put τ).rd len (s.put τ).p.i) = (-1, -1) := hscope
        simp only [if_pos hscope, if_pos hscope']
        exact carries_next fun f => rfl
      · have hscope' : ¬ headerScope ((s.put τ).rd len (s.put τ).p.i) = (-1, -1) := hscope
        simp only [if_neg hscope, if_neg hscope']
        exact carries_next fun f => rfl
    · refine Carries.ite (fun _ => ?_) (fun _ => ?_)
      · refine Carries.ite (fun _ => ?_) (fun _ => ?_)
        · exact carries_halt _ fun f => rfl
        · exact carries_next fun f => rfl
      · exact carries_next fun f => rfl

/-! ### Looking a header up -/

/-- The slices of one known header. -/
def setHeader (τ : Slot → MkPtr) (n : HeaderName) (key val : MkPtr) : Slot → MkPtr
  | .key m => if m = n then key else τ (.key m)
  | .val m => if m = n then val else τ (.val m)
  | f => τ f

/-- The slices of one more header. -/
def setExtra (τ : Slot → MkPtr) (n : Nat) (key val : MkPtr) : Slot → MkPtr
  | .extraKey k => if k = n then key else τ (.extraKey k)
  | .extraVal k => if k = n then val else τ (.extraVal k)
  | f => τ f

/-- `header_lookup` in both states. -/
def LookupCarries (s : ParserSt) (τ : Slot → MkPtr) (r r' : ParserSt × Int) : Prop :=
  ∃ τ', r' = (r.1.put τ', r.2) ∧ Carried s r.1 τ τ'

/-- The headers of a state with other slices. -/
theorem eq_put {hs : HeaderName → HttpHeader} {xs : List HttpHeader}
    (hh : ∀ n, hs n = { s.p.headers n with key := τ (.key n), val := τ (.val n) })
    (hx : xs = s.p.headersExtra.mapIdx fun k h =>
      { h with key := τ (.extraKey k), val := τ (.extraVal k) }) :
    { s with
      req := { s.req with
        methodP := τ .method
        uri := τ .uri
        queryString := τ .queryString
        protocolP := τ .protocol }
      p := { s.p with headers := hs, headersExtra := xs } } = s.put τ := by
  have hhs : hs = fun n => { s.p.headers n with key := τ (.key n), val := τ (.val n) } := funext hh
  rw [hhs, hx]
  rfl

/-- The rows other than `n` are left alone. -/
theorem carried_header {t : ParserSt} {n : HeaderName} (hreq : t.req = s.req)
    (hextra : t.p.headersExtra = s.p.headersExtra)
    (hkeep : ∀ m, m ≠ n → t.p.headers m = s.p.headers m)
    (hkey : (t.p.headers n).key.data.isSome) (hval : (t.p.headers n).val.data.isSome) :
    Carried s t τ (setHeader τ n (t.p.headers n).key (t.p.headers n).val) := by
  intro f
  cases f with
  | key m =>
    by_cases hm : m = n
    · subst hm
      exact .inr ⟨by simp [setHeader, ParserSt.slot, Slot.get], hkey⟩
    · exact .inl ⟨by simp [setHeader, hm], by simp [ParserSt.slot, Slot.get, hkeep m hm]⟩
  | val m =>
    by_cases hm : m = n
    · subst hm
      exact .inr ⟨by simp [setHeader, ParserSt.slot, Slot.get], hval⟩
    · exact .inl ⟨by simp [setHeader, hm], by simp [ParserSt.slot, Slot.get, hkeep m hm]⟩
  | _ => exact .inl ⟨rfl, by simp [ParserSt.slot, Slot.get, hreq, hextra]⟩

/-- A known header: the same row in both states. -/
theorem lookupCarries_known {p : Parser} {hs : HeaderName → HttpHeader} {n : HeaderName} (r : Int)
    (hextra : p.headersExtra = s.p.headersExtra)
    (hkeep : ∀ m, m ≠ n → p.headers m = s.p.headers m)
    (hkey : (p.headers n).key.data.isSome) (hval : (p.headers n).val.data.isSome)
    (hhead : ∀ m, hs m = if m = n then p.headers n else
      { s.p.headers m with key := τ (.key m), val := τ (.val m) }) :
    LookupCarries s τ ({ s with p := p }, r)
      ({ s.put τ with p := { p with headers := hs, headersExtra := (s.put τ).p.headersExtra } }, r) := by
  refine ⟨setHeader τ n (p.headers n).key (p.headers n).val, ?_,
    carried_header (t := { s with p := p }) rfl hextra hkeep hkey hval⟩
  refine Prod.ext ?_ rfl
  refine eq_put (s := { s with p := p })
    (τ := setHeader τ n (p.headers n).key (p.headers n).val) ?_ ?_
  · intro m
    rw [hhead m]
    by_cases hm : m = n
    · subst hm
      simp [setHeader]
    · simp [setHeader, hm, hkeep m hm]
  · simp only [hextra]
    rfl

/-- The part of `header_lookup` that looks at the value. -/
def KnownCarries (s : ParserSt) (τ : Slot → MkPtr) (r r' : Parser × Int) : Prop :=
  LookupCarries s τ ({ s with p := r.1 }, r.2) ({ s.put τ with p := r'.1 }, r'.2)

theorem KnownCarries.ite {c : Prop} [Decidable c] {a a' b b' : Parser × Int}
    (hpos : c → KnownCarries s τ a a') (hneg : ¬ c → KnownCarries s τ b b') :
    KnownCarries s τ (if c then a else b) (if c then a' else b') := by
  by_cases h : c
  · rw [if_pos h, if_pos h]
    exact hpos h
  · rw [if_neg h, if_neg h]
    exact hneg h

theorem carries_known (n : HeaderName) :
    KnownCarries s τ
      (if n = HeaderName.host then lookupHost len s (registerHeader s.p n)
        else if n = HeaderName.contentLength then lookupContentLength len s (registerHeader s.p n)
        else if n = HeaderName.connection then lookupConnection len s (registerHeader s.p n)
        else (registerHeader s.p n, 0))
      (if n = HeaderName.host then lookupHost len (s.put τ) (registerHeader (s.put τ).p n)
        else if n = HeaderName.contentLength then
          lookupContentLength len (s.put τ) (registerHeader (s.put τ).p n)
        else if n = HeaderName.connection then
          lookupConnection len (s.put τ) (registerHeader (s.put τ).p n)
        else (registerHeader (s.put τ).p n, 0)) := by
  -- what is stored for the row differs only in its slices
  have hreg : ∀ m, (registerHeader (s.put τ).p n).headers m = if m = n then
      (registerHeader s.p n).headers n else
        { s.p.headers m with key := τ (.key m), val := τ (.val m) } := by
    intro m
    simp only [registerHeader, if_true]
    rfl
  have hkeep : ∀ m, m ≠ n → (registerHeader s.p n).headers m = s.p.headers m := by
    intro m hm
    simp [registerHeader, hm]
  have hkey : ((registerHeader s.p n).headers n).key.data.isSome := by simp [registerHeader]
  have hval : ((registerHeader s.p n).headers n).val.data.isSome := by simp [registerHeader]
  -- three rows are read further, by the bytes and not by the slices
  refine KnownCarries.ite (fun hhost => ?_) (fun _ => KnownCarries.ite (fun _ => ?_)
    (fun _ => KnownCarries.ite (fun _ => ?_) (fun _ => ?_)))
  · unfold lookupHost
    refine KnownCarries.ite (fun _ => KnownCarries.ite (fun _ => ?_)
      (fun _ => KnownCarries.ite (fun _ => ?_) (fun _ => KnownCarries.ite (fun _ => ?_)
        (fun _ => ?_)))) (fun _ => ?_)
    · exact lookupCarries_known _ rfl hkeep hkey hval hreg
    · exact lookupCarries_known _ rfl hkeep hkey hval hreg
    · exact lookupCarries_known _ rfl hkeep hkey hval hreg
    · -- the port is cut off the value
      subst hhost
      refine lookupCarries_known (n := HeaderName.host) _ rfl ?_ ?_ ?_ ?_
      · intro m hm
        simp only [if_neg hm]
        exact hkeep m hm
      · simpa using hkey
      · simpa using hval
      · intro m
        have hm := hreg m
        have hn := hreg HeaderName.host
        simp only [if_true] at hn ⊢
        by_cases hmn : m = HeaderName.host
        · subst hmn
          simp only [if_true, hn]
          rfl
        · simp only [if_neg hmn] at hm ⊢
          exact hm
    · exact lookupCarries_known _ rfl hkeep hkey hval hreg
  · unfold lookupContentLength
    refine KnownCarries.ite (fun _ => ?_) (fun _ => KnownCarries.ite (fun _ => ?_)
      (fun _ => KnownCarries.ite (fun _ => ?_) (fun _ => ?_)))
    · exact lookupCarries_known _ rfl hkeep hkey hval hreg
    · exact lookupCarries_known _ rfl hkeep hkey hval hreg
    · exact lookupCarries_known _ rfl hkeep hkey hval hreg
    · exact lookupCarries_known _ rfl hkeep hkey hval hreg
  · exact lookupCarries_known _ rfl hkeep hkey hval hreg
  · exact lookupCarries_known _ rfl hkeep hkey hval hreg

/-- An unknown header: one more row in both states. -/
theorem carried_extra {t : ParserSt} {h : HttpHeader} (hreq : t.req = s.req)
    (hheaders : t.p.headers = s.p.headers) (hextra : t.p.headersExtra = s.p.headersExtra ++ [h])
    (hkey : h.key.data.isSome) (hval : h.val.data.isSome) :
    Carried s t τ (setExtra τ s.p.headersExtra.length h.key h.val) := by
  have hget : ∀ k, t.p.headersExtra[k]? =
      if k = s.p.headersExtra.length then some h else s.p.headersExtra[k]? := by
    intro k
    rw [hextra, List.getElem?_append]
    by_cases hk : k < s.p.headersExtra.length
    · rw [if_pos hk, if_neg (by omega)]
    · rw [if_neg hk]
      by_cases hlast : k = s.p.headersExtra.length
      · simp [hlast]
      · have hnone : [h][k - s.p.headersExtra.length]? = none := by
          rw [List.getElem?_eq_none]
          simp only [List.length_singleton]
          omega
        rw [if_neg hlast, hnone, List.getElem?_eq_none (by omega)]
  intro f
  cases f with
  | extraKey k =>
    by_cases hk : k = s.p.headersExtra.length
    · exact .inr ⟨by simp [setExtra, ParserSt.slot, Slot.get, hget, hk],
        by simpa [ParserSt.slot, Slot.get, hget, hk] using hkey⟩
    · exact .inl ⟨by simp [setExtra, hk], by simp [ParserSt.slot, Slot.get, hget, hk]⟩
  | extraVal k =>
    by_cases hk : k = s.p.headersExtra.length
    · exact .inr ⟨by simp [setExtra, ParserSt.slot, Slot.get, hget, hk],
        by simpa [ParserSt.slot, Slot.get, hget, hk] using hval⟩
    · exact .inl ⟨by simp [setExtra, hk], by simp [ParserSt.slot, Slot.get, hget, hk]⟩
  | _ => exact .inl ⟨rfl, by simp [ParserSt.slot, Slot.get, hreq, hheaders]⟩

theorem lookupCarries_extra (b : Nat → UInt8) (c : Nat) (l : List HeaderRef) (h : HttpHeader)
    (r : Int) (hkey : h.key.data.isSome) (hval : h.val.data.isSome) :
    LookupCarries s τ
      ({ s with buffer := b, p := { s.p with
          headersExtra := s.p.headersExtra ++ [h], headerCount := c, headerList := l } }, r)
      ({ s.put τ with buffer := b, p := { (s.put τ).p with
          headersExtra := (s.put τ).p.headersExtra ++ [h], headerCount := c, headerList := l } },
        r) := by
  refine ⟨setExtra τ s.p.headersExtra.length h.key h.val, ?_, carried_extra rfl rfl rfl hkey hval⟩
  refine Prod.ext ?_ rfl
  refine eq_put (τ := setExtra τ s.p.headersExtra.length h.key h.val)
    (s := { s with buffer := b, p := { s.p with
      headersExtra := s.p.headersExtra ++ [h], headerCount := c, headerList := l } })
    (fun m => rfl) ?_
  simp only [ParserSt.put]
  rw [List.mapIdx_concat]
  congr 1
  · apply List.mapIdx_eq_mapIdx_iff.mpr
    intro k hk
    simp [setExtra, Nat.ne_of_lt hk]
  · simp [setExtra]

theorem lookupCarries (s : ParserSt) (τ : Slot → MkPtr) (len : Nat) :
    LookupCarries s τ (headerLookup len s) (headerLookup len (s.put τ)) := by
  have hmatch : headerMatch len (s.put τ) = headerMatch len s := rfl
  unfold headerLookup
  rw [hmatch]
  cases headerMatch len s with
  | none =>
    have hlen : (s.put τ).p.headersExtra.length = s.p.headersExtra.length := by
      simp [ParserSt.put]
    by_cases hroom : s.p.headersExtra.length < headerExtraSize
    · simp only [hlen, if_pos hroom]
      exact lookupCarries_extra _ _ _ _ 0 rfl rfl
    · simp only [hlen, if_neg hroom]
      exact ⟨τ, rfl, fun f => .inl ⟨rfl, rfl⟩⟩
  | some n => exact carries_known n

/-! ### All turns -/

theorem carries_headerValTurn :
    Carries s τ (headerValTurn len s) (headerValTurn len (s.put τ)) := by
  rcases lookupCarries { s with p := markEnd s.p } τ len with ⟨τ', hr, hcar⟩
  have hr' : headerLookup len { s.put τ with p := markEnd (s.put τ).p } =
      ((headerLookup len { s with p := markEnd s.p }).1.put τ',
        (headerLookup len { s with p := markEnd s.p }).2) := hr
  unfold headerValTurn
  simp only [hr']
  refine Carries.ite (fun _ => Carries.ite (fun _ => ?_) (fun _ => ?_))
    (fun _ => Carries.ite (fun _ => ?_) (fun _ => ?_))
  · exact carries_halt _ fun f => rfl
  · generalize headerLookup len { s with p := markEnd s.p } = r at hcar
    refine Carries.ite (fun _ => ?_) (fun _ => Carries.ite (fun _ => ?_) (fun _ => ?_))
    · split
      · exact ⟨τ', rfl, hcar⟩
      · exact ⟨τ', rfl, hcar⟩
    · exact ⟨τ', rfl, hcar⟩
    · exact ⟨τ', rfl, hcar⟩
  · exact carries_halt _ fun f => rfl
  · exact carries_next fun f => rfl

theorem carries_headersLevel :
    Carries s τ (headersLevel len s) (headersLevel len (s.put τ)) := by
  unfold headersLevel
  simp only [put_status]
  cases s.p.status with
  | headerKey => exact carries_headerKeyTurn
  | headerValue =>
    refine Carries.ite (fun _ => ?_) (fun _ => Carries.ite (fun _ => ?_) (fun _ => ?_))
    · exact carries_halt _ fun f => rfl
    · exact carries_next fun f => rfl
    · exact carries_next fun f => rfl
  | headerValStarts => exact carries_headerValTurn
  | headerEnd =>
    refine Carries.ite (fun _ => ?_) (fun _ => ?_)
    · exact carries_next fun f => rfl
    · exact carries_halt _ fun f => rfl
  | _ => exact carries_next fun f => rfl

/-- One slice of the record is stored. -/
def setSlot (τ : Slot → MkPtr) (f : Slot) (x : MkPtr) : Slot → MkPtr :=
  fun g => if g = f then x else τ g

theorem carried_slot {t : ParserSt} {f : Slot} (hkeep : ∀ g, g ≠ f → t.slot g = s.slot g)
    (hset : (t.slot f).data.isSome) : Carried s t τ (setSlot τ f (t.slot f)) := by
  intro g
  by_cases hg : g = f
  · subst hg
    exact .inr ⟨if_pos rfl, hset⟩
  · exact .inl ⟨if_neg hg, hkeep g hg⟩

theorem carries_slot {t : ParserSt} (f : Slot) (hkeep : ∀ g, g ≠ f → t.slot g = s.slot g)
    (hset : (t.slot f).data.isSome) :
    Carries s τ (.next t) (.next (t.put (setSlot τ f (t.slot f)))) :=
  ⟨_, rfl, carried_slot hkeep hset⟩

/-- `method_lookup` writes two fields, whatever the others are. -/
theorem methodLookup_put (len : Nat) (s : ParserSt) (τ : Slot → MkPtr) :
    methodLookup len (s.put τ) = { methodLookup len s with
      uri := τ .uri, queryString := τ .queryString, protocolP := τ .protocol } := by
  have hrd : ∀ x, (s.put τ).rd len x = s.rd len x := fun _ => rfl
  have hp : (s.put τ).p.method = s.p.method ∧ (s.put τ).p.start = s.p.start ∧
      (s.put τ).p.end_ = s.p.end_ := ⟨rfl, rfl, rfl⟩
  unfold methodLookup
  simp only [hrd, hp.1, hp.2.1, hp.2.2]
  repeat' split
  all_goals simp_all [ParserSt.put]

theorem methodLookup_slots (len : Nat) (s : ParserSt) :
    (methodLookup len s).methodP.data.isSome ∧ (methodLookup len s).uri = s.req.uri ∧
      (methodLookup len s).queryString = s.req.queryString ∧
      (methodLookup len s).protocolP = s.req.protocolP := by
  unfold methodLookup
  simp only
  repeat' split
  all_goals exact ⟨rfl, rfl, rfl, rfl⟩

theorem carries_firstLine : Carries s τ (firstLine len s) (firstLine len (s.put τ)) := by
  unfold firstLine
  simp only [put_status]
  cases s.p.status with
  | reqMethod =>
    -- one goal for each way the branch of the source can go
    refine Carries.ite (fun _ => ?_) (fun _ => Carries.ite (fun _ => Carries.ite (fun _ => ?_)
      (fun _ => ?_)) (fun _ => Carries.ite (fun _ => ?_) (fun _ => ?_)))
    · exact carries_next fun f => rfl
    · exact carries_halt _ fun f => rfl
    · have hslots := methodLookup_slots len
        { s with p := { markEnd s.p with status := .reqUri } }
      have hput := methodLookup_put len { s with p := { markEnd s.p with status := .reqUri } } τ
      refine ⟨setSlot τ .method
        (methodLookup len { s with p := { markEnd s.p with status := .reqUri } }).methodP, ?_, ?_⟩
      · exact congrArg (fun req => startNext { s.put τ with req := req }
          { markEnd (s.put τ).p with status := .reqUri }) hput
      · refine carried_slot ?_ hslots.1
        intro g hg
        cases g with
        | method => exact absurd rfl hg
        | uri => exact hslots.2.1
        | queryString => exact hslots.2.2.1
        | protocol => exact hslots.2.2.2
        | _ => rfl
    · exact carries_halt _ fun f => rfl
    · exact carries_next fun f => rfl
  | reqUri =>
    refine Carries.ite (fun _ => Carries.ite (fun _ => ?_) (fun _ => ?_))
      (fun _ => Carries.ite (fun _ => ?_) (fun _ => Carries.ite (fun _ => ?_) (fun _ => ?_)))
    · exact carries_halt _ fun f => rfl
    · exact carries_slot .uri (by intro g hg; cases g <;> first | rfl | exact absurd rfl hg) rfl
    · exact carries_slot .uri (by intro g hg; cases g <;> first | rfl | exact absurd rfl hg) rfl
    · exact carries_halt _ fun f => rfl
    · exact carries_next fun f => rfl
  | reqQueryString =>
    refine Carries.ite (fun _ => ?_) (fun _ => Carries.ite (fun _ => ?_) (fun _ => ?_))
    · exact carries_slot .queryString
        (by intro g hg; cases g <;> first | rfl | exact absurd rfl hg) rfl
    · exact carries_halt _ fun f => rfl
    · exact carries_next fun f => rfl
  | reqProtVersion =>
    refine Carries.ite (fun _ => ?_) (fun _ => Carries.ite (fun _ => ?_) (fun _ => ?_))
    · exact carries_next fun f => rfl
    · exact carries_slot .protocol
        (by intro g hg; cases g <;> first | rfl | exact absurd rfl hg) rfl
    · exact carries_halt _ fun f => rfl
  | firstContinue =>
    refine Carries.ite (fun _ => ?_) (fun _ => ?_)
    · exact carries_next fun f => rfl
    · exact carries_halt _ fun f => rfl
  | firstFinalizing =>
    refine Carries.ite (fun _ => ?_) (fun _ => ?_)
    · exact carries_next fun f => rfl
    · exact carries_halt _ fun f => rfl
  | blockEnd =>
    refine Carries.ite (fun _ => ?_) (fun _ => ?_)
    · exact carries_ok fun f => rfl
    · exact carries_halt _ fun f => rfl
  | _ => exact carries_next fun f => rfl

theorem carries_parserTurn (len : Nat) (s : ParserSt) (τ : Slot → MkPtr) :
    Carries s τ (parserTurn len s) (parserTurn len (s.put τ)) := by
  unfold parserTurn
  refine Carries.ite (fun _ => ?_) (fun _ => carries_halt _ fun f => rfl)
  simp only [put_level]
  cases s.p.level with
  | first => exact carries_firstLine
  | cont =>
    refine Carries.ite (fun _ => ?_) (fun _ => ?_)
    · exact carries_next fun f => rfl
    · exact Carries.of_slots (fun f => rfl) (carries_headersLevel (s := { s with
        p := { s.p with level := .headers, status := .headerKey, chars := 0 } }))
  | headers => exact carries_headersLevel
  | end_ =>
    unfold endLevel
    refine Carries.ite (fun _ => Carries.ite (fun _ => ?_) (fun _ => ?_)) (fun _ => ?_)
    · exact carries_next fun f => rfl
    · exact carries_ok fun f => rfl
    · exact carries_halt _ fun f => rfl
  | body =>
    unfold bodyLevel
    refine Carries.ite (fun _ => Carries.ite (fun _ => ?_) (fun _ => ?_)) (fun _ => ?_)
    · exact carries_halt _ fun f => rfl
    · exact carries_ok fun f => rfl
    · exact carries_ok fun f => rfl

end Turn

/-! ## One call -/

/-- The slices stored so far, against the state the call has started from. -/
def StoredSince (s₀ s t : ParserSt) : Prop :=
  ∃ τ, t = s.put τ ∧ ∀ f, (τ f).data = none ∧ s.slot f = s₀.slot f ∨ τ f = s.slot f

theorem StoredSince.step {s₀ s s' : ParserSt} {τ τ' : Slot → MkPtr}
    (h : ∀ f, (τ f).data = none ∧ s.slot f = s₀.slot f ∨ τ f = s.slot f)
    (hcar : Carried s s' τ τ') :
    ∀ f, (τ' f).data = none ∧ s'.slot f = s₀.slot f ∨ τ' f = s'.slot f := by
  intro f
  rcases hcar f with ⟨hτ, hs⟩ | ⟨hτ, -⟩
  · rw [hτ, hs]
    exact h f
  · exact .inr hτ

/-- A call from none of the slices gives the same answer, and stores what the call
itself stores. -/
theorem mkHttpParser_cleared (len : Nat) (s : ParserSt) :
    (mkHttpParser len (s.put fun _ => .null)).1 = (mkHttpParser len s).1 ∧
      StoredSince s (mkHttpParser len s).2 (mkHttpParser len (s.put fun _ => .null)).2 := by
  refine Loop.run_related (M := parserLoop len) (R := StoredSince s) ?_ ?_
    ⟨fun _ => .null, rfl, fun f => .inl ⟨rfl, rfl⟩⟩
  · rintro t _ t' ⟨τ, rfl, h⟩ hb
    rcases carries_parserTurn len t τ with ⟨τ', ho, hcar⟩
    rw [show parserTurn len t = .next t' from hb] at ho hcar
    exact ⟨t'.put τ', ho, τ', rfl, StoredSince.step h hcar⟩
  · rintro t _ r t' ⟨τ, rfl, h⟩ hb
    rcases carries_parserTurn len t τ with ⟨τ', ho, hcar⟩
    rw [show parserTurn len t = .halt r t' from hb] at ho hcar
    exact ⟨t'.put τ', ho, τ', rfl, StoredSince.step h hcar⟩

/-- The place of an extra header exists. -/
theorem slot_put (s : ParserSt) (τ : Slot → MkPtr) (f : Slot) :
    (s.put τ).slot f = τ f ∨ (s.put τ).slot f = .null ∧ s.slot f = .null := by
  cases f with
  | extraKey k =>
    cases hk : s.p.headersExtra[k]? with
    | none => exact .inr ⟨by simp [ParserSt.slot, Slot.get, ParserSt.put, hk],
        by simp [ParserSt.slot, Slot.get, hk]⟩
    | some h => exact .inl (by simp [ParserSt.slot, Slot.get, ParserSt.put, hk])
  | extraVal k =>
    cases hk : s.p.headersExtra[k]? with
    | none => exact .inr ⟨by simp [ParserSt.slot, Slot.get, ParserSt.put, hk],
        by simp [ParserSt.slot, Slot.get, hk]⟩
    | some h => exact .inl (by simp [ParserSt.slot, Slot.get, ParserSt.put, hk])
  | _ => exact .inl rfl

/-- A slice that the call has not stored is the old one. -/
theorem mkHttpParser_slot (len : Nat) (s : ParserSt) (f : Slot) :
    if stores len s f then
      (mkHttpParser len s).2.slot f = (mkHttpParser len (s.put fun _ => .null)).2.slot f
    else (mkHttpParser len s).2.slot f = s.slot f ∨
      ((mkHttpParser len s).2.slot f).data = none := by
  rcases mkHttpParser_cleared len s with ⟨-, τ, heq, hstored⟩
  have hput := slot_put (mkHttpParser len s).2 τ f
  unfold stores
  rw [heq]
  rcases hput with hput | ⟨hput, hnull⟩
  · rw [hput]
    rcases hstored f with ⟨hnone, hold⟩ | hnew
    · rw [if_neg (by simp [hnone])]
      exact .inl hold
    · rw [hnew]
      split
      · rfl
      · next hno => exact .inr (by simpa using hno)
  · rw [if_neg (by simp [hput, MkPtr.null])]
    exact .inr (by simp [hnull, MkPtr.null])

/-! ## How far the request line has been read -/

/-- There is a slice. -/
def ParserSt.has (s : ParserSt) (f : Slot) : Prop := (s.slot f).data.isSome

/-- The slices of the request line are stored when the parser goes on behind them,
and no header is looked up before. -/
structure StageStep (s t : ParserSt) : Prop where
  method : 1 ≤ t.p.stage → 1 ≤ s.p.stage ∨ t.has .method
  uri : 2 ≤ t.p.stage → 2 ≤ s.p.stage ∨ t.has .uri
  protocol : 4 ≤ t.p.stage → 4 ≤ s.p.stage ∨ t.has .protocol
  start : t.p.stage = 0 → s.p.stage = 0 ∧ ∀ f, f.isHeader = true → t.slot f = s.slot f

section Stage

variable {len : Nat} {s : ParserSt}

theorem StageStep.behind {t : ParserSt} (hs : s.p.stage = 4) (ht : t.p.stage = 4) :
    StageStep s t where
  method _ := .inl (by omega)
  uri _ := .inl (by omega)
  protocol _ := .inl (by omega)
  start h := by omega

theorem stageStep_firstLine (len : Nat) (hl : s.p.level = .first) (hstage : s.p.stage ≠ 4) :
    Leads (StageStep s) (fun r _ => r ≠ .ok) (firstLine len s) := by
  have hslots := methodLookup_slots len { s with p := { markEnd s.p with status := .reqUri } }
  unfold firstLine
  simp only
  cases hst : s.p.status
  case reqMethod | reqUri | reqQueryString | reqProtVersion =>
    simp only
    repeat' split
    all_goals first
      | exact ParserRet.noConfusion
      | (simp only [Leads, startNext, goOn]
         constructor <;> simp_all [Parser.stage, markEnd, ParserSt.has, ParserSt.slot, Slot.get,
           requestSet])
  all_goals
    exfalso
    apply hstage
    simp [Parser.stage, hl, hst]

/-- The turn that accepts a request stays where it is. -/
theorem parserTurn_ok_line {e : ParserSt} (h : parserTurn len s = .halt .ok e) :
    e.p.level = s.p.level ∧ e.p.status = s.p.status := by
  unfold parserTurn at h
  split at h
  · cases hl : s.p.level with
    | first =>
      simp only [hl] at h
      rw [firstLine_ok h]
      exact ⟨hl, rfl⟩
    | cont =>
      simp only [hl] at h
      split at h
      · cases h
      · exact (headersLevel_not_ok h).elim
    | headers =>
      simp only [hl] at h
      exact (headersLevel_not_ok h).elim
    | end_ =>
      simp only [hl, endLevel] at h
      repeat' split at h
      · cases h
      · rw [mkHttpParserOk_ok h]
        exact ⟨hl, rfl⟩
      · cases h
    | body =>
      simp only [hl, bodyLevel] at h
      repeat' split at h
      · cases h
      · rw [mkHttpParserOk_ok h]
        exact ⟨rfl, rfl⟩
      · rw [mkHttpParserOk_ok h]
        exact ⟨hl, rfl⟩
  · cases h

theorem stage_ok {e : ParserSt} (h : parserTurn len s = .halt .ok e) :
    s.p.stage = 4 ∧ e.p.stage = 4 := by
  rcases parserTurn_ok_line h with ⟨hlevel, hstatus⟩
  have hsame : e.p.stage = s.p.stage := by simp only [Parser.stage, hlevel, hstatus]
  suffices hfour : s.p.stage = 4 by exact ⟨hfour, hsame.trans hfour⟩
  by_contra hfour
  have hl : s.p.level = .first := by
    by_contra hne
    exact hfour (stage_of_level hne)
  unfold parserTurn at h
  split at h
  · simp only [hl] at h
    have hlead := stageStep_firstLine len hl hfour
    rw [h] at hlead
    exact hlead rfl
  · cases h

theorem stageStep_parserTurn (len : Nat) (s : ParserSt) :
    Leads (StageStep s) (fun r e => r = .ok → StageStep s e ∧ e.p.stage = 4)
      (parserTurn len s) := by
  by_cases hfour : s.p.stage = 4
  · refine leads_of_leaves ((stage_parserTurn len hfour).imp fun e he => .behind hfour he) ?_
    rintro r e hturn - rfl
    have he := (stage_ok hturn).2
    exact ⟨.behind hfour he, he⟩
  · have hl : s.p.level = .first := by
      by_contra hne
      exact hfour (stage_of_level hne)
    unfold parserTurn
    split
    · simp only [hl]
      have hlead := stageStep_firstLine len hl hfour
      cases hturn : firstLine len s with
      | next t =>
        rw [hturn] at hlead
        exact hlead
      | halt r t =>
        rw [hturn] at hlead
        cases r with
        | pending => exact hlead
        | error => exact ParserRet.noConfusion
        | ok => exact absurd rfl hlead
    · exact ⟨.inl, .inl, .inl, fun h => ⟨h, fun f _ => rfl⟩⟩

/-- A slice that is there stays, or is replaced by another one. -/
theorem has_parserTurn (len : Nat) {f : Slot} (h : s.has f) : (parserTurn len s).state.has f := by
  rcases carries_parserTurn len s (fun _ => .null) with ⟨τ, -, hcar⟩
  rcases hcar f with ⟨-, hsame⟩ | ⟨-, hset⟩
  · rw [ParserSt.has, hsame]
    exact h
  · exact hset

/-- The slices of the request line that the call has stored, when it has started
at the stage `n` from none. -/
structure Staged (n : Nat) (s : ParserSt) : Prop where
  method : 1 ≤ s.p.stage → 1 ≤ n ∨ s.has .method
  uri : 2 ≤ s.p.stage → 2 ≤ n ∨ s.has .uri
  protocol : 4 ≤ s.p.stage → 4 ≤ n ∨ s.has .protocol
  start : s.p.stage = 0 → n = 0 ∧ ∀ f, f.isHeader = true → s.slot f = .null

theorem Staged.step {n : Nat} {t : ParserSt} (h : Staged n s) (hstep : StageStep s t)
    (hhas : ∀ f, s.has f → t.has f) : Staged n t where
  method ht := (hstep.method ht).elim (fun hs => (h.method hs).imp_right (hhas _)) .inr
  uri ht := (hstep.uri ht).elim (fun hs => (h.uri hs).imp_right (hhas _)) .inr
  protocol ht := (hstep.protocol ht).elim (fun hs => (h.protocol hs).imp_right (hhas _)) .inr
  start ht := by
    rcases hstep.start ht with ⟨hs, hsame⟩
    rcases h.start hs with ⟨hn, hnull⟩
    exact ⟨hn, fun f hf => (hsame f hf).trans (hnull f hf)⟩

theorem staged_parserTurn (n len : Nat) (s : ParserSt) (h : Staged n s) :
    Leads (Staged n) (fun r e => r = .ok → Staged n e ∧ e.p.stage = 4) (parserTurn len s) := by
  have hstep := stageStep_parserTurn len s
  have hhas := fun f => has_parserTurn (s := s) len (f := f)
  cases hturn : parserTurn len s with
  | next t =>
    rw [hturn] at hstep hhas
    exact h.step hstep hhas
  | halt r t =>
    rw [hturn] at hstep hhas
    cases r with
    | pending => exact h.step hstep hhas
    | error => exact ParserRet.noConfusion
    | ok =>
      intro _
      rcases hstep rfl with ⟨hstep, hfour⟩
      exact ⟨h.step hstep hhas, hfour⟩

/-- What a call stores of the request line. -/
structure StageStores (len : Nat) (s : ParserSt) (stage : Nat) : Prop where
  method : 1 ≤ stage → 1 ≤ s.p.stage ∨ stores len s .method = true
  uri : 2 ≤ stage → 2 ≤ s.p.stage ∨ stores len s .uri = true
  protocol : 4 ≤ stage → 4 ≤ s.p.stage ∨ stores len s .protocol = true
  start : stage = 0 → s.p.stage = 0 ∧ ∀ f, f.isHeader = true → stores len s f = false

theorem slot_null (s : ParserSt) (f : Slot) : (s.put fun _ => .null).slot f = .null := by
  rcases slot_put s (fun _ => .null) f with h | ⟨h, -⟩
  · exact h
  · exact h

theorem mkHttpParser_stage (len : Nat) (s : ParserSt) (hne : (mkHttpParser len s).1 ≠ .error) :
    StageStores len s (mkHttpParser len s).2.p.stage ∧
      ((mkHttpParser len s).1 = .ok → (mkHttpParser len s).2.p.stage = 4) := by
  rcases mkHttpParser_cleared len s with ⟨hans, τ, heq, -⟩
  have hstage : (mkHttpParser len (s.put fun _ => .null)).2.p.stage =
      (mkHttpParser len s).2.p.stage := by
    rw [heq]
    rfl
  have hstart : Staged s.p.stage (s.put fun _ => .null) :=
    ⟨.inl, .inl, .inl, fun h => ⟨h, fun f _ => slot_null s f⟩⟩
  have hend : Staged s.p.stage (mkHttpParser len (s.put fun _ => .null)).2 ∧
      ((mkHttpParser len s).1 = .ok → (mkHttpParser len s).2.p.stage = 4) := by
    rcases mkHttpParser_rule (fun len t h => staged_parserTurn s.p.stage len t h) len hstart with
      ⟨hpending, hstaged⟩ | ⟨hpending, hok⟩
    · refine ⟨hstaged, fun hok => ?_⟩
      rw [← hans, hpending] at hok
      cases hok
    · have hok' : (mkHttpParser len (s.put fun _ => .null)).1 = .ok := by
        cases hr : (mkHttpParser len (s.put fun _ => .null)).1 with
        | ok => rfl
        | pending => exact absurd hr hpending
        | error => exact absurd (hans.symm.trans hr) hne
      exact ⟨(hok hok').1, fun _ => hstage ▸ (hok hok').2⟩
  refine ⟨?_, hend.2⟩
  rw [← hstage]
  refine ⟨hend.1.method, hend.1.uri, hend.1.protocol, ?_⟩
  intro h
  rcases hend.1.start h with ⟨h0, hnull⟩
  refine ⟨h0, ?_⟩
  intro f hf
  rw [stores, hnull f hf]
  rfl

end Stage

end SuperExe.Http
