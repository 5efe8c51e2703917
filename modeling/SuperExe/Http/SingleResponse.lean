import SuperExe.Http.Answer
import SuperExe.Http.Isolation

/-! # One response for each request

Every call of `mk_header_prepare` starts a response. `mk_http_error` makes one,
and the functions that call it return at once; `mk_user_init` is the exception:
for an unknown user it sends the error itself and then returns `-1`, which its
caller answers with the error once more.
-/

namespace SuperExe.Http

open SuperExe.Core SuperExe.Vhost

def Act.isHeaderPrepare : Act → Bool
  | .headerPrepare => true
  | _ => false

/-- The number of calls of `mk_header_prepare`. -/
def headerPrepares (acts : List Act) : Nat := acts.countP Act.isHeaderPrepare

@[simp] theorem headerPrepares_nil : headerPrepares [] = 0 := rfl

@[simp] theorem headerPrepares_cons (a : Act) (acts : List Act) :
    headerPrepares (a :: acts) = headerPrepares acts + if a.isHeaderPrepare then 1 else 0 :=
  List.countP_cons

@[simp] theorem headerPrepares_append (l m : List Act) :
    headerPrepares (l ++ m) = headerPrepares l + headerPrepares m := List.countP_append

/-- The set-up sends nothing. -/
theorem SetsUp.headerPrepares {acts : List Act} (h : SetsUp acts) : headerPrepares acts = 0 := by
  refine List.countP_eq_zero.mpr fun a ha => ?_
  have hup := h a ha
  cases a <;> simp_all [Act.setsUp, Act.isHeaderPrepare]

/-- Plugins that leave the header to the server. -/
def PluginsSilent (k : World) : Prop :=
  ∀ plugin protocol, headerPrepares ((k.stage30 plugin).acts protocol).1 = 0

section Parts

variable (k : World) (r : Incoming) (f : Found)

@[simp] theorem mkHttpError_headerPrepares (host : Host) (method : Method) (uri : Bytes)
    (status : Int) : headerPrepares (mkHttpError k host method uri status) = 1 := by
  unfold mkHttpError
  simp only
  repeat' split
  all_goals rfl

theorem mkHttpDirectoryRedirect_headerPrepares :
    headerPrepares (mkHttpDirectoryRedirect k r f) ≤ 1 := by
  unfold mkHttpDirectoryRedirect
  simp only
  split <;> simp [Act.isHeaderPrepare]

/-- Either the range is refused and answered, or nothing is sent yet. -/
theorem rangeActs_headerPrepares (info : FileInfo) (fd : Int) :
    headerPrepares (rangeActs k r f info fd).1 =
      if (rangeActs k r f info fd).2.isSome then 0 else 1 := by
  unfold rangeActs
  simp only
  repeat' split
  all_goals simp_all [Act.isHeaderPrepare]

theorem sendFileActs_headerPrepares (path : Bytes) (info : FileInfo) :
    headerPrepares (sendFileActs k r f path info) = 1 := by
  have hranges := rangeActs_headerPrepares k r f info (k.vhostOpen path)
  unfold sendFileActs
  simp only
  repeat' split
  all_goals simp_all [Act.isHeaderPrepare]

theorem serveFileActs_headerPrepares (path : Bytes) (info : FileInfo) :
    headerPrepares (serveFileActs k r f path info) = 1 := by
  have hsend := sendFileActs_headerPrepares k r f path info
  unfold serveFileActs
  simp only
  repeat' split
  all_goals simp [Act.isHeaderPrepare, hsend]

variable {k} (hsilent : PluginsSilent k)
include hsilent

/-- A plugin that takes the request leaves at most one error behind, one that
does not take it nothing. -/
theorem stage30Acts_headerPrepares (hs : List Handler) :
    headerPrepares (stage30Acts k r f hs).1 ≤ if (stage30Acts k r f hs).2 then 1 else 0 := by
  induction hs with
  | nil => simp [stage30Acts]
  | cons h hs ih =>
    have hplugin := hsilent h.plugin r.req.protocol
    unfold stage30Acts
    simp only
    repeat' split
    all_goals simp_all [Act.isHeaderPrepare]

theorem mkHttpInit_headerPrepares : headerPrepares (mkHttpInit k r f) ≤ 1 := by
  have hplugins := stage30Acts_headerPrepares r f hsilent f.host.handlers
  have hredirect := mkHttpDirectoryRedirect_headerPrepares k r f
  have hserve := serveFileActs_headerPrepares k r f
  unfold mkHttpInit
  simp only
  repeat' split
  all_goals simp_all [Act.isHeaderPrepare]

end Parts

/-! ## Users -/

/-- The bytes in memory behind `uri_processed`: a decoded URI stands in a block
of zeros, which is so unless it has `%00` in it. -/
def bytesAfterUri (r : Incoming) : Bytes :=
  if (mkUtilsUrlDecode r.uriText).isSome then [0, 0] else
    (List.range 2).map fun j => r.buffer ((r.req.uri.data.getD 0) + r.req.uri.len.toNat + j)

/-- The request gets as far as `mk_user_init`, which does not know the user. -/
def UnknownUser (k : World) (r : Incoming) : Prop :=
  ¬ RefusedEarly r ∧ hostRedirect k r = none ∧
    (uriProcessed r.uriText).length > 2 ∧ (uriProcessed r.uriText)[1]? = some 126 ∧
    ∃ userDir, k.userDir = some userDir ∧
      mkUserInit k.getpwnam userDir (uriProcessed r.uriText) (bytesAfterUri r) = .unknownUser

theorem answerActs_headerPrepares {k : World} (r : Incoming) (hsilent : PluginsSilent k)
    (hearly : ¬ RefusedEarly r) :
    headerPrepares (answerActs k r) ≤ 1 ↔ ¬ UnknownUser k r := by
  have hinit := fun f => mkHttpInit_headerPrepares r f hsilent
  unfold answerActs UnknownUser
  cases hredirect : hostRedirect k r with
  | some target => simp [Act.isHeaderPrepare]
  | none =>
    simp only [hearly, not_false_eq_true, true_and]
    have hstage20 : ∀ f, headerPrepares (if k.stage20Close then [] else mkHttpInit k r f) ≤ 1 := by
      intro f
      split
      · simp
      · exact hinit f
    have huri : (foundFor k r).uri = uriProcessed r.uriText := rfl
    unfold prepareHost
    cases hdir : k.userDir with
    | none =>
      simp only [reduceCtorEq, false_and, exists_false, and_false, not_false_eq_true, iff_true]
      exact hstage20 _
    | some userDir =>
      simp only [huri, Option.some.injEq, exists_eq_left']
      by_cases htilde : (uriProcessed r.uriText).length > 2 ∧
          (uriProcessed r.uriText)[1]? = some 126
      · rw [if_pos htilde]
        -- the three ends of `mk_user_init`
        cases huser : mkUserInit k.getpwnam userDir (uriProcessed r.uriText) (bytesAfterUri r) with
        | refused =>
          rw [bytesAfterUri] at huser
          simp [huser]
        | unknownUser =>
          rw [bytesAfterUri] at huser
          simp [huser, htilde]
        | home path =>
          rw [bytesAfterUri] at huser
          have hle := hstage20 { foundFor k r with home := some path }
          simpa [huser, huri, Act.isHeaderPrepare] using hle
      · rw [if_neg htilde]
        refine ⟨fun _ h => htilde ⟨h.1, h.2.1⟩, fun _ => hstage20 _⟩

/-- `mk_http_request_prepare` starts at most one response iff it is not stopped
by an unknown user. -/
theorem single_response_iff (k : World) (r : Incoming) (hsilent : PluginsSilent k) :
    headerPrepares (mkHttpRequestPrepare k r) ≤ 1 ↔ ¬ UnknownUser k r := by
  by_cases hearly : RefusedEarly r
  · obtain ⟨setup, hsetup, heq⟩ := mkHttpRequestPrepare_refused k r hearly
    rw [heq, headerPrepares_append, hsetup.headerPrepares, mkHttpError_headerPrepares]
    exact ⟨fun _ h => h.1 hearly, fun _ => Nat.le_refl _⟩
  · have hcheck : headerPrepares (mkHttpKeepaliveCheck k r (mkHttpPointHeader r.p .connection)) =
        0 := by
      refine List.countP_eq_zero.mpr fun a ha => ?_
      obtain ⟨b, rfl⟩ := mem_mkHttpKeepaliveCheck k r ha
      simp [Act.isHeaderPrepare]
    rw [mkHttpRequestPrepare_accepted k r hearly, headerPrepares_append, headerPrepares_append,
      headerPrepares_append, (headerSetup_setsUp k r).headerPrepares,
      (hostSetup_setsUp k r).headerPrepares, hcheck, Nat.zero_add]
    exact answerActs_headerPrepares r hsilent hearly

/-- A request for `/a` is answered once. -/
theorem single_response_iff_file :
    headerPrepares (mkHttpRequestPrepare worldSite (getAQuery.incoming parsedRequestZero 0)) ≤ 1 :=
  (single_response_iff worldSite _ (by intro _ _; rfl)).mpr fun h => by
    obtain ⟨-, -, -, -, userDir, hdir, -⟩ := h
    cases hdir

/-- The site, with home directories and a user database that knows nobody. -/
def worldHomes : World := { worldSite with userDir := some (bytes "public_html") }

/-- `GET /~joe` -/
def getHome : Arrival where
  world := worldHomes
  bytes := bytes "GET /~joe HTTP/1.1\r\nHost: x\r\n\r\n"
  first := 32
  rest := []
  ok := by decide

/-- The request for an unknown user's home gets two responses. -/
theorem single_response_unknown_user :
    ¬ ∀ (k : World) (r : Incoming), PluginsSilent k →
      headerPrepares (mkHttpRequestPrepare k r) ≤ 1 := by
  intro h
  have htwo := h worldHomes (getHome.incoming parsedRequestZero 0) (by intro _ _; rfl)
  revert htwo
  decide

end SuperExe.Http
