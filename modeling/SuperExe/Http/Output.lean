import SuperExe.Http.SingleResponse

/-! # What a request sends off

The header, an error page, a file and the calls of `mk_channel_write` leave the
request set-up in one of a few orders: `mkHttpRequestPrepare_shape` lists them for
the requests that the server answers itself and answers once.
-/

namespace SuperExe.Http

open SuperExe.Core SuperExe.Vhost

/-- What an act or an output is, without its contents. -/
inductive OutKind where
  | header
  | page
  | file
  | write
  | crash
deriving DecidableEq, Repr

def Out.kind : Out → OutKind
  | .block _ => .header
  | .page _ => .page
  | .file _ => .file
  | .write => .write
  | .crash => .crash

/-- What an act sends off. -/
def Act.output : Act → Option OutKind
  | .headerPrepare => some .header
  | .iovAddPage _ => some .page
  | .queueFile => some .file
  | .channelWrite => some .write
  | .crash => some .crash
  | _ => none

/-- The outputs of a list of acts. -/
def outputs (acts : List Act) : List OutKind := acts.filterMap Act.output

@[simp] theorem outputs_nil : outputs [] = [] := rfl

@[simp] theorem outputs_cons (a : Act) (acts : List Act) :
    outputs (a :: acts) = (match a.output with
      | some o => o :: outputs acts
      | none => outputs acts) := by
  unfold outputs
  rw [List.filterMap_cons]
  cases a.output <;> rfl

example : outputs [.headerPrepare, .queueFile] = [.header, .file] := by simp [Act.output]

@[simp] theorem outputs_append (l m : List Act) : outputs (l ++ m) = outputs l ++ outputs m :=
  List.filterMap_append

theorem runAct_kinds (k : World) (s : Serving) (a : Act) :
    (runAct k s a).out.map Out.kind = s.out.map Out.kind ++ outputs [a] := by
  cases a <;> simp [runAct, Serving.setSr, Serving.setHeaders, Serving.emit, Act.output, Out.kind]

theorem runActs_kinds (k : World) (s : Serving) (acts : List Act) :
    (runActs k s acts).out.map Out.kind = s.out.map Out.kind ++ outputs acts := by
  induction acts generalizing s with
  | nil => simp [runActs]
  | cons a acts ih =>
    calc (runActs k s (a :: acts)).out.map Out.kind
        = (runActs k (runAct k s a) acts).out.map Out.kind := rfl
      _ = s.out.map Out.kind ++ outputs [a] ++ outputs acts := by rw [ih, runAct_kinds]
      _ = s.out.map Out.kind ++ outputs (a :: acts) := by
        rw [List.append_assoc, ← outputs_append, List.singleton_append]

/-- The orders in which an answer leaves. -/
def shapes : List (List OutKind) :=
  [[], [.crash], [.header], [.header, .file], [.header, .write], [.header, .page, .write]]

section Parts

variable (k : World) (r : Incoming) (f : Found)

theorem SetsUp.outputs {acts : List Act} (h : SetsUp acts) : outputs acts = [] := by
  refine List.filterMap_eq_nil_iff.mpr fun a ha => ?_
  have hup := h a ha
  cases a <;> simp_all [Act.setsUp, Act.output]

theorem mkHttpError_shape (host : Host) (method : Method) (uri : Bytes) (status : Int) :
    outputs (mkHttpError k host method uri status) ∈ shapes := by
  unfold mkHttpError
  simp only
  repeat' split
  all_goals simp [Act.output, shapes]

theorem mkHttpDirectoryRedirect_shape : outputs (mkHttpDirectoryRedirect k r f) ∈ shapes := by
  unfold mkHttpDirectoryRedirect
  simp only
  split <;> simp [Act.output, shapes]

/-- Either the range is refused and answered, or nothing is sent yet. -/
theorem rangeActs_shape (info : FileInfo) (fd : Int) :
    (rangeActs k r f info fd).2.isSome ∧ outputs (rangeActs k r f info fd).1 = [] ∨
      (rangeActs k r f info fd).2 = none ∧ outputs (rangeActs k r f info fd).1 ∈ shapes := by
  have herr := mkHttpError_shape k f.host r.req.method r.uriText
  unfold rangeActs
  simp only
  repeat' split
  all_goals simp [Act.output, herr]

theorem sendFileActs_shape (path : Bytes) (info : FileInfo) :
    outputs (sendFileActs k r f path info) ∈ shapes := by
  have herr := mkHttpError_shape k f.host r.req.method r.uriText
  unfold sendFileActs
  simp only
  split
  · simp [Act.output, herr]
  split
  · rcases rangeActs_shape k r f info (k.vhostOpen path) with ⟨hsome, hnil⟩ | ⟨hnone, hshape⟩
    · obtain ⟨length, hlength⟩ := Option.isSome_iff_exists.mp hsome
      simp only [outputs_append, outputs_cons, outputs_nil, Act.output, List.nil_append, hlength,
        hnil]
      split <;> simp [Act.output, shapes]
    · simpa [Act.output, hnone] using hshape
  · split <;> simp [Act.output, shapes]

theorem serveFileActs_shape (path : Bytes) (info : FileInfo) :
    outputs (serveFileActs k r f path info) ∈ shapes := by
  have herr := mkHttpError_shape k f.host r.req.method r.uriText
  have hsend := sendFileActs_shape k r f path info
  unfold serveFileActs
  simp only
  repeat' split
  all_goals simp [Act.output, herr, hsend]
  all_goals simp [shapes]

variable {k} (hsilent : PluginsSilent k)
include hsilent

/-- A plugin that leaves the header to the server sends nothing. -/
theorem pluginActs_outputs (plugin : Nat) (protocol : Protocol) :
    outputs ((k.stage30 plugin).acts protocol).1 = [] := by
  have hplugin := hsilent plugin protocol
  cases hans : k.stage30 plugin <;> rw [hans] at hplugin <;>
    simp_all [PluginAnswer.acts, Act.output, Act.isHeaderPrepare]

theorem stage30Acts_shape (hs : List Handler) :
    outputs (stage30Acts k r f hs).1 ∈ shapes ∧
      ((stage30Acts k r f hs).2 = false → outputs (stage30Acts k r f hs).1 = []) := by
  have herr := mkHttpError_shape k f.host r.req.method r.uriText
  induction hs with
  | nil => simp [stage30Acts, shapes]
  | cons h hs ih =>
    have hplugin := pluginActs_outputs hsilent h.plugin r.req.protocol
    unfold stage30Acts
    simp only
    split
    · split <;> simp_all [Act.output]
      all_goals simp [shapes]
    · exact ih

theorem mkHttpInit_shape : outputs (mkHttpInit k r f) ∈ shapes := by
  have herr := mkHttpError_shape k f.host r.req.method r.uriText
  obtain ⟨hplugins, hquiet⟩ := stage30Acts_shape r f hsilent f.host.handlers
  have hredirect := mkHttpDirectoryRedirect_shape k r f
  have hserve := serveFileActs_shape k r f
  unfold mkHttpInit
  simp only [outputs_cons, Act.output]
  split
  · exact herr 403
  split
  · exact herr clientBadRequest
  cases htaken : (stage30Acts k r f f.host.handlers).2 with
  | true => simpa [Act.output] using hplugins
  | false =>
    simp only [outputs_cons, Act.output, outputs_append, hquiet htaken, List.nil_append,
      Bool.false_eq_true, if_false]
    repeat' split
    all_goals simp [Act.output, herr, hredirect, hserve]

end Parts

/-- A request that the server answers itself, other than one for an unknown user,
is answered in one of the six ways. -/
theorem mkHttpRequestPrepare_shape {k : World} (r : Incoming) (hsilent : PluginsSilent k)
    (hknown : ¬ UnknownUser k r) : outputs (mkHttpRequestPrepare k r) ∈ shapes := by
  have herr := fun host => mkHttpError_shape k host r.req.method r.uriText
  by_cases hearly : RefusedEarly r
  · obtain ⟨setup, hsetup, heq⟩ := mkHttpRequestPrepare_refused k r hearly
    rw [heq, outputs_append, hsetup.outputs, List.nil_append]
    exact herr _ _
  · have hcheck : outputs (mkHttpKeepaliveCheck k r (mkHttpPointHeader r.p .connection)) = [] := by
      refine List.filterMap_eq_nil_iff.mpr fun a ha => ?_
      obtain ⟨b, rfl⟩ := mem_mkHttpKeepaliveCheck k r ha
      rfl
    rw [mkHttpRequestPrepare_accepted k r hearly]
    simp only [outputs_append, (headerSetup_setsUp k r).outputs, hcheck,
      (hostSetup_setsUp k r).outputs, List.nil_append]
    have hstage20 : ∀ f, outputs (if k.stage20Close then [] else mkHttpInit k r f) ∈ shapes := by
      intro f
      split
      · simp [shapes]
      · exact mkHttpInit_shape r f hsilent
    unfold answerActs
    cases hredirect : hostRedirect k r with
    | some target => simp [Act.output, shapes]
    | none =>
      unfold prepareHost
      cases hdir : k.userDir with
      | none => exact hstage20 _
      | some userDir =>
        simp only
        split
        · next htilde =>
          split
          · exact herr _ _
          · next huser =>
            exact absurd ⟨hearly, hredirect, htilde.1, htilde.2, userDir, hdir, huser⟩ hknown
          · next path _ =>
            simpa [Act.output] using hstage20 { foundFor k r with home := some path }
        · exact hstage20 _

end SuperExe.Http
