import SuperExe.Http.Answer
import SuperExe.Http.Session

/-! # close_now

What `mk_http_request_prepare` leaves in `cs->close_now`, and the `Connection` row
of the headers it sends. Only `mk_http_keepalive_check` decides on the flag, and it
does so for a request that gets as far as this check and only when keep-alive is
configured; otherwise the flag stays as the connection had it.
-/

namespace SuperExe.Http

open SuperExe.Core SuperExe.Vhost

/-! ## The last word -/

/-- `close_now` after an act. -/
def Act.decides (b : Bool) : Act → Bool
  | .closeNow b' => b'
  | _ => b

/-- `close_now` after a list of acts. -/
def decided (b : Bool) (acts : List Act) : Bool := acts.foldl Act.decides b

@[simp] theorem decided_nil (b : Bool) : decided b [] = b := rfl

@[simp] theorem decided_cons (b : Bool) (a : Act) (acts : List Act) :
    decided b (a :: acts) = decided (a.decides b) acts := rfl

@[simp] theorem decided_append (b : Bool) (l m : List Act) :
    decided b (l ++ m) = decided (decided b l) m := List.foldl_append

theorem runActs_decided (k : World) (s : Serving) (acts : List Act) :
    (runActs k s acts).closeNow = decided s.closeNow acts := by
  induction acts generalizing s with
  | nil => rfl
  | cons a acts ih =>
    have hact : (runAct k s a).closeNow = a.decides s.closeNow := by cases a <;> rfl
    exact (ih (runAct k s a)).trans (by rw [hact, decided_cons])

/-- Acts that do not touch the flag. -/
def Undecided (acts : List Act) : Prop := ∀ b, .closeNow b ∉ acts

theorem Undecided.decided {acts : List Act} (h : Undecided acts) (b : Bool) :
    decided b acts = b := by
  induction acts with
  | nil => rfl
  | cons a acts ih =>
    have hacts : Undecided acts := fun b' hin => h b' (List.mem_cons_of_mem a hin)
    have hact : a.decides b = b := by
      cases a with
      | closeNow b' => exact (h b' List.mem_cons_self).elim
      | _ => rfl
    rw [decided_cons, hact]
    exact ih hacts

theorem SetsUp.undecided {acts : List Act} (h : SetsUp acts) : Undecided acts :=
  fun _ => h.not_mem rfl

/-- Acts that change neither the flag nor what the request says about the
connection. -/
def Final (acts : List Act) : Prop := ∀ a ∈ acts, (∀ b, a ≠ .closeNow b) ∧ ∀ p, a ≠ .connection p

@[simp] theorem final_nil : Final [] := by simp [Final]

@[simp] theorem final_cons {a : Act} {acts : List Act} :
    Final (a :: acts) ↔ ((∀ b, a ≠ .closeNow b) ∧ ∀ p, a ≠ .connection p) ∧ Final acts := by
  simp [Final]

@[simp] theorem final_append {l m : List Act} : Final (l ++ m) ↔ Final l ∧ Final m :=
  List.forall_mem_append

theorem Answers.final {acts : List Act} (h : Answers acts) : Final acts := by
  intro a ha
  constructor
  · rintro b rfl
    exact h.not_mem rfl ha
  · rintro p rfl
    exact h.not_mem rfl ha

theorem Final.undecided {acts : List Act} (h : Final acts) : Undecided acts :=
  fun b hin => (h _ hin).1 b rfl

section Answer

variable (k : World) (r : Incoming) (f : Found)

theorem mkHttpInit_final : Final (mkHttpInit k r f) := by
  have herr := fun status => (mkHttpError_answers k f.host r.req.method r.uriText status).final
  have hplugins := (stage30Acts_answers k r f f.host.handlers).final
  have hredirect := (mkHttpDirectoryRedirect_answers k r f).final
  have hserve := fun path info => (serveFileActs_answers k r f path info).final
  unfold mkHttpInit
  simp only
  repeat' split
  all_goals simp [herr, hplugins, hredirect, hserve]

theorem answerActs_final : Final (answerActs k r) := by
  have herr := fun host status => (mkHttpError_answers k host r.req.method r.uriText status).final
  have hinit := mkHttpInit_final k r
  unfold answerActs prepareHost
  simp only
  repeat' split
  all_goals simp [herr, hinit]

end Answer

/-! ## What a request asks for -/

/-- The `Connection` header says `Keep-Alive`. -/
def SaysKeepAlive (r : Incoming) : Prop :=
  (mkHttpPointHeader r.p .connection).data.isSome ∧ r.p.headerConnection = .ka

/-- The `Connection` header says `Close`. -/
def SaysClose (r : Incoming) : Prop :=
  (mkHttpPointHeader r.p .connection).data.isSome ∧ r.p.headerConnection = .close

/-- The request asks for the connection to be kept: HTTP/1.1 unless it says
`Close`, HTTP/1.0 if it says `Keep-Alive`. -/
def AsksKeep (r : Incoming) : Prop :=
  match r.req.protocol with
  | .v11 => ¬ SaysClose r
  | .v10 => SaysKeepAlive r
  | .unknown => False

instance (r : Incoming) : Decidable (SaysKeepAlive r) := inferInstanceAs (Decidable (_ ∧ _))

instance (r : Incoming) : Decidable (SaysClose r) := inferInstanceAs (Decidable (_ ∧ _))

instance (r : Incoming) : Decidable (AsksKeep r) :=
  match h : r.req.protocol with
  | .v11 => decidable_of_iff (¬ SaysClose r) (by simp only [AsksKeep, h])
  | .v10 => decidable_of_iff (SaysKeepAlive r) (by simp only [AsksKeep, h])
  | .unknown => .isFalse (by simp only [AsksKeep, h, not_false_eq_true])

section Decision

variable (k : World) (r : Incoming)

/-- `mk_http_keepalive_check` on a request of a known version. -/
theorem mkHttpKeepaliveCheck_decided (hka : k.keepAlive = true) (hversion : r.req.protocol ≠ .unknown)
    (b : Bool) :
    decided b (mkHttpKeepaliveCheck k r (mkHttpPointHeader r.p .connection)) =
      decide (k.maxKeepAliveRequest ≤ r.counter ∨ ¬ AsksKeep r) := by
  unfold mkHttpKeepaliveCheck
  rw [if_neg (by simp [hka])]
  by_cases hlimit : (r.counter : Int) ≥ k.maxKeepAliveRequest
  · rw [if_pos hlimit]
    simp [Act.decides, hlimit]
  · rw [if_neg hlimit]
    have hbelow : ¬ k.maxKeepAliveRequest ≤ r.counter := hlimit
    cases hproto : r.req.protocol with
    | unknown => exact absurd hproto hversion
    | v10 | v11 =>
      by_cases hdata : (mkHttpPointHeader r.p .connection).data.isSome
      · cases hconn : r.p.headerConnection <;>
          simp [AsksKeep, SaysKeepAlive, SaysClose, hproto, hdata, hconn, hbelow, Act.decides]
      · simp [AsksKeep, SaysKeepAlive, SaysClose, hproto, hdata, hbelow, Act.decides]

/-- The flag behind the keep-alive check is the flag behind the request. -/
theorem decided_accepted (h : ¬ RefusedEarly r) (b : Bool) :
    decided b (mkHttpRequestPrepare k r) =
      decided b (mkHttpKeepaliveCheck k r (mkHttpPointHeader r.p .connection)) := by
  rw [mkHttpRequestPrepare_accepted k r h]
  simp only [decided_append, (headerSetup_setsUp k r).undecided.decided,
    (hostSetup_setsUp k r).undecided.decided, (answerActs_final k r).undecided.decided]

/-- `close_now` behind `mk_http_request_prepare`: the connection is to be closed
when the limit is reached or the request asks for it. -/
theorem prepare_closeNow (s : Serving) (hka : k.keepAlive = true) (h : ¬ RefusedEarly r)
    (hversion : r.req.protocol ≠ .unknown) :
    (runActs k s (mkHttpRequestPrepare k r)).closeNow =
      decide (k.maxKeepAliveRequest ≤ r.counter ∨ ¬ AsksKeep r) := by
  rw [runActs_decided, decided_accepted k r h, mkHttpKeepaliveCheck_decided k r hka hversion]

/-- A request that does not get as far as the check leaves the flag alone. -/
theorem prepare_closeNow_refused (s : Serving) (h : k.keepAlive = false ∨ RefusedEarly r) :
    (runActs k s (mkHttpRequestPrepare k r)).closeNow = s.closeNow := by
  rw [runActs_decided]
  by_cases hearly : RefusedEarly r
  · obtain ⟨setup, hsetup, heq⟩ := mkHttpRequestPrepare_refused k r hearly
    rw [heq, decided_append, hsetup.undecided.decided]
    exact (mkHttpError_answers k _ _ _ _).final.undecided.decided _
  · have hka := h.resolve_right hearly
    rw [decided_accepted k r hearly]
    simp [mkHttpKeepaliveCheck, hka]

/-- A request that asks for it, below the limit, leaves a connection open that is
open. -/
theorem prepare_keeps (s : Serving) (hopen : s.closeNow = false) (hasks : AsksKeep r)
    (hbelow : (r.counter : Int) < k.maxKeepAliveRequest) :
    (runActs k s (mkHttpRequestPrepare k r)).closeNow = false := by
  have hversion : r.req.protocol ≠ .unknown := by
    intro hun
    simp only [AsksKeep, hun] at hasks
  by_cases h : k.keepAlive = false ∨ RefusedEarly r
  · rw [prepare_closeNow_refused k r s h, hopen]
  · obtain ⟨hka, hearly⟩ := not_or.mp h
    rw [prepare_closeNow k r s (by simpa using hka) hearly hversion]
    simp [hasks, hbelow]

end Decision

end SuperExe.Http
