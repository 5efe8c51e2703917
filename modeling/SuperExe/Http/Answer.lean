import SuperExe.Http.Prepare

/-! # What the parts of an answer consist of

`mk_http_request_prepare` first sets the request up (URI, host, headers, path)
and then answers it. The parts that answer, an error, a redirect, a plugin or a
file, never go back to the set-up: `Act.answers` names the acts they use, and
one lemma for each part says so. What an answer cannot do (choose a path, decide
on `close_now`) follows from these.
-/

namespace SuperExe.Http

open SuperExe.Core SuperExe.Vhost

/-- Acts of an answer; the others set the request up. -/
def Act.answers : Act → Bool
  | .uriProcessed _ | .hostConf _ | .hostAlias _ | .userHome _ | .host _ | .connection _ => false
  | .range _ | .ifModifiedSince _ | .contentLengthP _ | .contentLengthPNull | .port _ => false
  | .realPath _ | .fileInfo _ | .closeNow _ => false
  | _ => true

/-- A list of acts that only answers. -/
def Answers (acts : List Act) : Prop := ∀ a ∈ acts, a.answers = true

@[simp] theorem answers_nil : Answers [] := by simp [Answers]

@[simp] theorem answers_cons {a : Act} {acts : List Act} :
    Answers (a :: acts) ↔ a.answers = true ∧ Answers acts := by simp [Answers]

@[simp] theorem answers_append {l m : List Act} : Answers (l ++ m) ↔ Answers l ∧ Answers m := by
  simp [Answers, or_imp, forall_and]

/-- An act of the set-up is not part of an answer. -/
theorem Answers.not_mem {acts : List Act} (h : Answers acts) {a : Act} (ha : a.answers = false) :
    a ∉ acts := by
  intro hin
  rw [h a hin] at ha
  cases ha

section Parts

variable (k : World) (r : Incoming) (f : Found)

@[simp] theorem mkHttpError_answers (host : Host) (method : Method) (uri : Bytes) (status : Int) :
    Answers (mkHttpError k host method uri status) := by
  unfold mkHttpError
  simp only
  repeat' split
  all_goals simp [Act.answers]

theorem pluginActs_answers (protocol : Protocol) (ans : PluginAnswer) :
    Answers (ans.acts protocol).1 := by
  cases ans <;> simp only [PluginAnswer.acts]
  all_goals repeat' split
  all_goals simp [Act.answers]

theorem stage30Acts_answers (hs : List Handler) : Answers (stage30Acts k r f hs).1 := by
  induction hs with
  | nil => simp [stage30Acts]
  | cons h hs ih =>
    have hacts := pluginActs_answers r.req.protocol (k.stage30 h.plugin)
    unfold stage30Acts
    simp only
    repeat' split
    all_goals simp [Act.answers, hacts, ih]

theorem mkHttpDirectoryRedirect_answers : Answers (mkHttpDirectoryRedirect k r f) := by
  unfold mkHttpDirectoryRedirect
  simp only
  split <;> simp [Act.answers]

theorem rangeActs_answers (info : FileInfo) (fd : Int) : Answers (rangeActs k r f info fd).1 := by
  unfold rangeActs
  simp only
  repeat' split
  all_goals simp [Act.answers]

theorem sendFileActs_answers (path : Bytes) (info : FileInfo) :
    Answers (sendFileActs k r f path info) := by
  have hranges := fun fd => rangeActs_answers k r f info fd
  unfold sendFileActs
  simp only
  repeat' split
  all_goals simp [Act.answers, hranges]

theorem serveFileActs_answers (path : Bytes) (info : FileInfo) :
    Answers (serveFileActs k r f path info) := by
  have hsend := sendFileActs_answers k r f path info
  unfold serveFileActs
  simp only
  repeat' split
  all_goals simp [Act.answers, hsend]

end Parts

/-! ## The set-up -/

/-- Acts of the set-up that only store what the request says. -/
def Act.setsUp : Act → Bool
  | .uriProcessed _ | .hostConf _ | .hostAlias _ | .userHome false | .host _ => true
  | .connection _ | .range _ | .ifModifiedSince _ | .contentLengthP _ => true
  | .contentLengthPNull | .port _ => true
  | _ => false

/-- A list of acts that only sets the request up. -/
def SetsUp (acts : List Act) : Prop := ∀ a ∈ acts, a.setsUp = true

@[simp] theorem setsUp_nil : SetsUp [] := by simp [SetsUp]

@[simp] theorem setsUp_cons {a : Act} {acts : List Act} :
    SetsUp (a :: acts) ↔ a.setsUp = true ∧ SetsUp acts := by simp [SetsUp]

@[simp] theorem setsUp_append {l m : List Act} : SetsUp (l ++ m) ↔ SetsUp l ∧ SetsUp m := by
  simp [SetsUp, or_imp, forall_and]

theorem SetsUp.not_mem {acts : List Act} (h : SetsUp acts) {a : Act} (ha : a.setsUp = false) :
    a ∉ acts := by
  intro hin
  rw [h a hin] at ha
  cases ha

section Cases

variable (k : World) (r : Incoming)

/-- The request is answered with `400` before anything is decided: its URI does
not start with a slash, or it is of HTTP/1.1 and has no `Host` header. -/
def RefusedEarly (r : Incoming) : Prop :=
  (uriProcessed r.uriText).head? ≠ some 47 ∨
    (mkHttpPointHeader r.p .host).data = none ∧ r.req.protocol = .v11

instance : Decidable (RefusedEarly r) := inferInstanceAs (Decidable (_ ∨ _))

/-- The virtual host `mk_http_request_prepare` selects. -/
def requestHost : Host :=
  let host := mkHttpPointHeader r.p .host
  match host.data with
  | none => k.defaultHost
  | some _ => ((mkVhostGet k.hosts (r.slice host)).map Prod.fst).getD k.defaultHost

/-- The `Redirect` of the selected virtual host; not looked at without a `Host`
header. -/
def hostRedirect : Option Bytes :=
  match (mkHttpPointHeader r.p .host).data with
  | none => none
  | some _ => (requestHost k r).headerRedirect

/-- What `mk_http_request_prepare` has found out when the set-up is done. -/
def foundFor : Found where
  uri := uriProcessed r.uriText
  host := requestHost k r
  home := none
  port := match (mkHttpPointHeader r.p .host).data with
    | none => 0
    | some _ => if r.p.headerHostPort > 0 then r.p.headerHostPort else 0

/-- The answer behind the set-up. -/
def answerActs : List Act :=
  match hostRedirect k r with
  | some target =>
    [.status 301, .location (some target), .contentLength 0, .location none, .headerPrepare]
  | none => prepareHost k r (foundFor k r)

/-- The set-up in front of the keep-alive check. -/
def headerSetup : List Act :=
  [.uriProcessed (uriProcessed r.uriText), .hostConf k.defaultHost, .userHome false,
    .host (mkHttpPointHeader r.p .host), .connection (mkHttpPointHeader r.p .connection),
    .range (mkHttpPointHeader r.p .range),
    .ifModifiedSince (mkHttpPointHeader r.p .ifModifiedSince)]

/-- The set-up behind the keep-alive check. -/
def hostSetup : List Act :=
  let contentLength := mkHttpPointHeader r.p .contentLength
  let host := mkHttpPointHeader r.p .host
  [if contentLength.data.isSome then .contentLengthP contentLength else .contentLengthPNull,
    .hostAlias k.defaultHost.serverNames.head?] ++
  match host.data with
  | none => []
  | some _ =>
    (if r.p.headerHostPort > 0 then [.port r.p.headerHostPort] else []) ++
    match mkVhostGet k.hosts (r.slice host) with
    | some (h, name) => [.hostConf h, .hostAlias (some name)]
    | none => []

theorem headerSetup_setsUp : SetsUp (headerSetup k r) := by
  simp [headerSetup, Act.setsUp]

theorem hostSetup_setsUp : SetsUp (hostSetup k r) := by
  unfold hostSetup
  simp only
  repeat' split
  all_goals simp [Act.setsUp]

/-- The keep-alive check decides on `close_now` and nothing else. -/
theorem mem_mkHttpKeepaliveCheck {connection : MkPtr} {a : Act}
    (h : a ∈ mkHttpKeepaliveCheck k r connection) : ∃ b, a = .closeNow b := by
  unfold mkHttpKeepaliveCheck at h
  repeat' split at h
  all_goals simp only [List.mem_append, List.mem_cons, List.not_mem_nil, or_false, false_or] at h
  all_goals aesop

theorem mkHttpRequestPrepare_refused (h : RefusedEarly r) :
    ∃ setup, SetsUp setup ∧ mkHttpRequestPrepare k r =
      setup ++ mkHttpError k k.defaultHost r.req.method r.uriText clientBadRequest := by
  unfold mkHttpRequestPrepare
  simp only
  split
  · exact ⟨_, by simp [Act.setsUp], rfl⟩
  · next hslash =>
    have hhost := h.resolve_left hslash
    rw [if_pos hhost, ← List.append_assoc]
    exact ⟨_, by simp [Act.setsUp], rfl⟩

theorem mkHttpRequestPrepare_accepted (h : ¬ RefusedEarly r) :
    mkHttpRequestPrepare k r = headerSetup k r ++
      mkHttpKeepaliveCheck k r (mkHttpPointHeader r.p .connection) ++ hostSetup k r ++
        answerActs k r := by
  obtain ⟨hslash, hhost⟩ := not_or.mp h
  unfold mkHttpRequestPrepare
  simp only
  rw [if_neg hslash, if_neg hhost]
  unfold headerSetup hostSetup answerActs hostRedirect foundFor requestHost
  simp only
  cases hdata : (mkHttpPointHeader r.p .host).data with
  | none => simp
  | some off =>
    cases hget : mkVhostGet k.hosts (r.slice (mkHttpPointHeader r.p .host)) with
    | none => cases hredirect : k.defaultHost.headerRedirect <;> simp [hredirect]
    | some found => cases hredirect : found.1.headerRedirect <;> simp [hredirect]

/-- What is neither set-up nor keep-alive check is part of the answer. -/
theorem mem_mkHttpRequestPrepare (h : ¬ RefusedEarly r) {a : Act} (ha : a.setsUp = false)
    (hclose : ∀ b, a ≠ .closeNow b) : a ∈ mkHttpRequestPrepare k r ↔ a ∈ answerActs k r := by
  have hcheck : a ∉ mkHttpKeepaliveCheck k r (mkHttpPointHeader r.p .connection) := by
    intro hin
    obtain ⟨b, hb⟩ := mem_mkHttpKeepaliveCheck k r hin
    exact hclose b hb
  rw [mkHttpRequestPrepare_accepted k r h]
  simp [(headerSetup_setsUp k r).not_mem ha, (hostSetup_setsUp k r).not_mem ha, hcheck]

end Cases

end SuperExe.Http
