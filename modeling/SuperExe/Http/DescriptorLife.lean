import SuperExe.Http.Descriptors

/-! # The life of a descriptor

A run is any sequence of requests that are prepared and freed on one worker. It
loses no descriptor and closes none too early as long as no request comes to
hold two: that happens to a range that cannot be satisfied and to an unknown
user, when there is a page for the error. `mk_http_request_free` gives back the
one in `file_stream.fd`, and the other one is lost.
-/

namespace SuperExe.Http

open SuperExe.Core SuperExe.Lib SuperExe.Vhost

/-! ## The machine -/

/-- `mk_http_error` as far as descriptors are concerned. -/
def mkHttpErrorFd (w : Vhost.Worker) (sr : FdtRequest) (page : Option Path) (ans : Option Nat) :
    Vhost.Worker × FdtRequest :=
  match page with
  | none => (w, sr)
  | some path =>
    let r := sysOpen w { sr with realPath := path } ans
    if r.2 = -1 then (r.1, sr) else (r.1, { sr with fd := r.2 })

/-- The calls of a way on a request fresh from `mk_http_request_init`. `first` and
`second` are the answers of `open(2)`. -/
def FdWay.run (documentroot : HostId → Path) (w : Vhost.Worker) (host : HostId)
    (first second : Option Nat) : FdWay → Vhost.Worker × FdtRequest
  | .idle => (w, requestFor host [])
  | .error page => mkHttpErrorFd w (requestFor host []) page first
  | .errorTwice page =>
    let r := mkHttpErrorFd w (requestFor host []) page first
    mkHttpErrorFd r.1 r.2 page second
  | .sendFile path forbidden refused =>
    let r := mkVhostOpen documentroot w (requestFor host path) first
    mkHttpErrorFd r.1 { r.2.1 with fd := r.2.2 } (if r.2.2 = -1 then forbidden else refused) second

/-- What `open(2)` returns. -/
def answerFd : Option Nat → Int
  | some n => n
  | none => -1

/-- The world of the request has the answers of this run. -/
def FdWay.Answered (k : World) (documentroot : HostId → Path) (w : Vhost.Worker) (host : HostId)
    (first second : Option Nat) : FdWay → Prop
  | .idle => True
  | .error page => ∀ path, page = some path → k.openFile path = answerFd first
  | .errorTwice page => ∀ path, page = some path →
    k.openFile path = answerFd second ∧ (second = none → first = none)
  | .sendFile path forbidden refused =>
    k.vhostOpen path = (mkVhostOpen documentroot w (requestFor host path) first).2.2 ∧
      ∀ page, forbidden = some page ∨ refused = some page → k.openFile page = answerFd second

theorem mkHttpErrorFd_fd (k : World) (w : Vhost.Worker) (sr : FdtRequest) {page : Option Path}
    {ans : Option Nat} (h : ∀ path, page = some path → k.openFile path = answerFd ans) :
    (mkHttpErrorFd w sr page ans).2.fd = (pageFd k page).getD sr.fd := by
  cases page with
  | none => rfl
  | some path =>
    have hopen := h path rfl
    cases ans with
    | none => simp [mkHttpErrorFd, sysOpen, pageFd, hopen, answerFd]
    | some n =>
      have hne : ¬ ((n : Int) = -1) := by omega
      simp [mkHttpErrorFd, sysOpen, pageFd, hopen, answerFd, hne]

/-- The request of the table ends with the descriptor that the record of the
request has. -/
theorem FdWay.run_fd (k : World) {documentroot : HostId → Path} {w : Vhost.Worker} {host : HostId}
    {first second : Option Nat} (way : FdWay)
    (h : way.Answered k documentroot w host first second) :
    (way.run documentroot w host first second).2.fd = way.storedFd k 0 := by
  cases way with
  | idle => rfl
  | error page => exact mkHttpErrorFd_fd k w _ h
  | errorTwice page =>
    simp only [FdWay.run, FdWay.storedFd]
    rw [mkHttpErrorFd_fd k _ _ fun path hpage => (h path hpage).1]
    cases page with
    | none => rfl
    | some path =>
      -- the second `open` decides: what the first one stored is overwritten
      obtain ⟨hopen, hboth⟩ := h path rfl
      cases second with
      | none =>
        rw [hboth rfl]
        rfl
      | some n =>
        have hne : ¬ ((n : Int) = -1) := by omega
        simp [pageFd, hopen, answerFd, hne]
  | sendFile path forbidden refused =>
    obtain ⟨hopen, hpages⟩ := h
    simp only [FdWay.run, FdWay.storedFd]
    -- the answer of `mk_vhost_open` selects the page that may follow
    by_cases hfd : k.vhostOpen path = -1
    · rw [if_pos hfd, if_pos (hopen ▸ hfd),
        mkHttpErrorFd_fd k _ _ fun page hpage => hpages page (.inl hpage), ← hopen, hfd]
    · rw [if_neg hfd, if_neg (hopen ▸ hfd),
        mkHttpErrorFd_fd k _ _ fun page hpage => hpages page (.inr hpage), ← hopen]

/-- The virtual host in `sr->host_conf`. -/
def fdHost (k : World) (r : Incoming) : Host :=
  if RefusedEarly r then k.defaultHost else requestHost k r

/-- Its document root. -/
def fdRoot (k : World) (r : Incoming) : HostId → Path := fun _ => (fdHost k r).documentroot

/-- A request is prepared, or the `j`-th live request is freed. -/
inductive FdEvent where
  | prepare (k : World) (r : Incoming) (first second : Option Nat)
  | free (j : Nat)

/-! The address of a `struct host`. -/

variable (hostId : Host → HostId)

/-- `mk_http_request_prepare` on a new request. -/
def prepareStep (w : Vhost.Worker) (k : World) (r : Incoming) (first second : Option Nat) : Vhost.Worker :=
  let q := (requestFd k r).run (fdRoot k r) w (hostId (fdHost k r)) first second
  { q.1 with live := q.1.live ++ [q.2] }

/-- `mk_http_request_free` on the `j`-th request. -/
def freeStep (w : Vhost.Worker) (j : Nat) : Vhost.Worker :=
  match w.live[j]? with
  | none => w
  | some sr => { mkVhostClose w sr with live := w.live.eraseIdx j }

def descriptorMachine : Machine Vhost.Worker FdEvent where
  step w
    | .prepare k r first second => prepareStep hostId w k r first second
    | .free j => freeStep w j

/-! ## The property -/

/-- Every shared reader is a live request, the descriptor of a live request is
open, and an open descriptor has a live request. -/
structure DescriptorsOk (w : Vhost.Worker) : Prop where
  readers : FdtOk w
  opened : ∀ r ∈ w.live, 0 < r.fd → (w.files r.fd).isSome
  used : ∀ fd, (w.files fd).isSome → ∃ r ∈ w.live, r.fd = fd

/-- The request leaves nothing open behind: the last one with its descriptor
closes it, one that shares it is one reader less. -/
def ReleasedOnce (w : Vhost.Worker) : FdEvent → Prop
  | .prepare _ _ _ _ => True
  | .free j => ∀ sr, w.live[j]? = some sr →
    let w' := freeStep w j
    if 0 < sr.fd then
      ((w.files sr.fd).isSome ∧ (∀ r ∈ w'.live, r.fd ≠ sr.fd) ∧
        w'.files = Function.update w.files sr.fd none) ∨
      (∃ r ∈ w'.live, r.fd = sr.fd) ∧ w'.files = w.files ∧
        ∃ ht i, mkVhostFdtTableLookup w sr.vhostFdtId sr.hostConf = some ht ∧
          (ht.chain i).fd = sr.fd ∧
          mkVhostFdtTableLookup w' sr.vhostFdtId sr.hostConf = some (ht.addReaders i (-1))
    else w'.files = w.files ∧ w'.fdt = w.fdt

/-- `open(2)` answers with a descriptor that is not open; `0` is the standard
input of the process. -/
def AnswersFresh (w : Vhost.Worker) : FdEvent → Prop
  | .prepare _ _ first second =>
    (∀ n, first = some n → 0 < n ∧ w.files n = none) ∧
      ∀ n, second = some n → 0 < n ∧ w.files n = none ∧ first ≠ some n
  | .free _ => True

/-- No chain of the host carries the hash of the path. -/
def NoChain (documentroot : HostId → Path) (w : Vhost.Worker) (host : HostId) (path : Path) :
    Prop :=
  w.fdtOn = true → ∀ ht,
    mkVhostFdtTableLookup w (vhostFdtId (vhostHash documentroot host path)) host = some ht →
      mkVhostFdtChainLookup (vhostHash documentroot host path) ht = none

/-- No empty chain is mistaken for the file, and at most one of the opens of the
request gives it a descriptor. -/
def OneDescriptor (w : Vhost.Worker) : FdEvent → Prop
  | .prepare k r first second =>
    match requestFd k r with
    | .errorTwice page => page = none ∨ first = none ∨ second = none
    | .sendFile path _ refused =>
      let host := hostId (fdHost k r)
      ZeroHashFits w ((VhostEvent.vhostOpen host path first).toFdt (fdRoot k r)) ∧
        (refused = none ∨ second = none ∨ first = none ∧ NoChain (fdRoot k r) w host path)
    | _ => True
  | .free _ => True

/-! ## The inductive invariant -/

/-- Two requests with one descriptor share a chain. -/
def Apart (r s : FdtRequest) : Prop :=
  0 < r.fd → r.fd = s.fd → r.vhostFdtEnabled = true ∧ s.vhostFdtEnabled = true ∧
    r.hostConf = s.hostConf ∧ r.vhostFdtId = s.vhostFdtId ∧ r.vhostFdtHash = s.vhostFdtHash

theorem Apart.symm {r s : FdtRequest} (h : Apart r s) : Apart s r := by
  intro hpos heq
  obtain ⟨h1, h2, h3, h4, h5⟩ := h (heq ▸ hpos) heq.symm
  exact ⟨h2, h1, h3.symm, h4.symm, h5.symm⟩

instance : Std.Symm Apart := ⟨fun _ _ h => h.symm⟩

structure DescriptorsWf (w : Vhost.Worker) : Prop where
  wf : FdtWf w
  positive : ∀ fd ≤ 0, w.files fd = none
  opened : ∀ r ∈ w.live, 0 < r.fd → (w.files r.fd).isSome
  used : ∀ fd, (w.files fd).isSome → ∃ r ∈ w.live, r.fd = fd
  enabled : ∀ r ∈ w.live, r.vhostFdtEnabled = true → 0 < r.fd
  chainFd : ∀ r ∈ w.live, r.vhostFdtEnabled = true → ChainFd w r
  sep : w.live.Pairwise Apart

theorem DescriptorsWf.ok {w : Vhost.Worker} (hw : DescriptorsWf w) : DescriptorsOk w :=
  ⟨hw.wf.ok, hw.opened, hw.used⟩

theorem descriptorsWf_init (fdtOn : Bool) (hs : List HostId) :
    DescriptorsWf (mkVhostFdtWorkerInit fdtOn hs) := by
  refine ⟨fdtWf_init fdtOn hs, fun _ _ => rfl, ?_, ?_, ?_, ?_, ?_⟩ <;> simp [mkVhostFdtWorkerInit]

/-! ## What preparing a request can do -/

/-- A request that did not go through the table: it has a new descriptor of its
own, or none. -/
structure OwnDescriptor (w : Vhost.Worker) (q : Vhost.Worker × FdtRequest) : Prop where
  fdt : q.1.fdt = w.fdt
  fdtOn : q.1.fdtOn = w.fdtOn
  live : q.1.live = w.live
  disabled : q.2.vhostFdtEnabled = false
  files : q.2.fd ≤ 0 ∧ q.1.files = w.files ∨
    ∃ (n : Nat) (x : HostId × Path), 0 < n ∧ w.files n = none ∧ q.2.fd = n ∧
      q.1.files = Function.update w.files n (some x)

/-- A request that shares the descriptor of chain `i`. -/
def SharedDescriptor (w : Vhost.Worker) (host : HostId) (first : Option Nat)
    (q : Vhost.Worker × FdtRequest) : Prop :=
  ∃ path id hash ht i, w.fdtOn = true ∧ mkVhostFdtTableLookup w id host = some ht ∧
    ZeroHashFits w (.fdtOpen host path id hash first) ∧
    { q.1 with live := q.1.live ++ [q.2] } = fdtStep w (.fdtOpen host path id hash first) ∧
    ((mkVhostFdtChainLookup hash ht = some i ∧
        q = (setTable w host id (ht.addReaders i 1),
          { (requestFor host path).enabled id hash with fd := (ht.chain i).fd })) ∨
      ∃ n : Nat, first = some n ∧ mkVhostFdtChainLookup hash ht = none ∧
        freeChain ht = some i ∧
        q = (setTable (sysOpen w (requestFor host path) first).1 host id (ht.register i n hash),
          { (requestFor host path).enabled id hash with fd := n }))

section Prepare

variable {hostId} {w : Vhost.Worker} {host : HostId} {first second : Option Nat}

theorem mkHttpErrorFd_failed (sr : FdtRequest) (page : Option Path) :
    mkHttpErrorFd w sr page none = (w, sr) := by
  cases page <;> rfl

/-- An error on a request without a descriptor. -/
theorem ownDescriptor_error {sr : FdtRequest} (hfd : sr.fd ≤ 0)
    (hen : sr.vhostFdtEnabled = false) (page : Option Path) {ans : Option Nat}
    (hfresh : ∀ n, ans = some n → 0 < n ∧ w.files n = none) :
    OwnDescriptor w (mkHttpErrorFd w sr page ans) := by
  cases page with
  | none => exact ⟨rfl, rfl, rfl, hen, .inl ⟨hfd, rfl⟩⟩
  | some path =>
    cases ans with
    | none => exact ⟨rfl, rfl, rfl, hen, .inl ⟨hfd, rfl⟩⟩
    | some n =>
      obtain ⟨hpos, hnew⟩ := hfresh n rfl
      have hne : (sysOpen w { sr with realPath := path } (some n)).2 ≠ -1 := by
        simp only [sysOpen]
        omega
      simp only [mkHttpErrorFd]
      rw [if_neg hne]
      exact ⟨rfl, rfl, rfl, hen, .inr ⟨n, _, hpos, hnew, rfl, rfl⟩⟩

theorem run_sendFile {documentroot : HostId → Path} {path : Path} (forbidden refused : Option Path)
    {w' : Vhost.Worker} {sr : FdtRequest} {fd : Int}
    (h : mkVhostOpen documentroot w (requestFor host path) first = (w', sr, fd)) :
    (FdWay.sendFile path forbidden refused).run documentroot w host first second =
      if fd = -1 then mkHttpErrorFd w' { sr with fd := fd } forbidden second
      else mkHttpErrorFd w' { sr with fd := fd } refused second := by
  simp only [FdWay.run, h]
  split <;> rfl

/-- A descriptor that is there is not replaced. -/
theorem run_sendFile_opened {documentroot : HostId → Path} {path : Path}
    {forbidden refused : Option Path} {w' : Vhost.Worker} {sr : FdtRequest} {fd : Int}
    (h : mkVhostOpen documentroot w (requestFor host path) first = (w', sr, fd)) (hfd : fd ≠ -1)
    (hone : refused = none ∨ second = none) :
    (FdWay.sendFile path forbidden refused).run documentroot w host first second =
      (w', { sr with fd := fd }) := by
  rw [run_sendFile forbidden refused h, if_neg hfd]
  rcases hone with rfl | rfl
  · rfl
  · exact mkHttpErrorFd_failed _ refused

theorem sendFile_cases (hw : FdtWf w) {documentroot : HostId → Path} {path : Path} {forbidden refused : Option Path}
    (hfirst : ∀ n, first = some n → 0 < n ∧ w.files n = none)
    (hsecond : ∀ n, second = some n → 0 < n ∧ w.files n = none ∧ first ≠ some n)
    (hfit : ZeroHashFits w ((VhostEvent.vhostOpen host path first).toFdt documentroot))
    (hone : refused = none ∨ second = none ∨ first = none ∧ NoChain documentroot w host path) :
    OwnDescriptor w
        ((FdWay.sendFile path forbidden refused).run documentroot w host first second) ∨
      SharedDescriptor w host first
        ((FdWay.sendFile path forbidden refused).run documentroot w host first second) := by
  -- past the table, on a chain of the hash, or on a chain taken for it
  rcases fdtOpen_cases w (vhostFdtId (vhostHash documentroot host path))
      (vhostHash documentroot host path) (requestFor host path) first with
    heq | ⟨ht, i, hon, hl, hi, heq⟩ | ⟨ht, i, n, hon, hl, hi, rfl, hf, heq⟩
  · left
    cases first with
    | none =>
      have hfail : (sysOpen w (requestFor host path) none).2 = -1 := rfl
      rw [run_sendFile forbidden refused heq, if_pos hfail]
      refine ownDescriptor_error (by simp [sysOpen]) rfl _ fun n hn => ?_
      exact ⟨(hsecond n hn).1, (hsecond n hn).2.1⟩
    | some n =>
      obtain ⟨hpos, hnew⟩ := hfirst n rfl
      rw [run_sendFile_opened heq (by simp only [sysOpen]; omega) (by simpa using hone)]
      exact ⟨rfl, rfl, rfl, rfl, .inr ⟨n, _, hpos, hnew, rfl, rfl⟩⟩
  · right
    have hrow := hw.row _ _ _ hl
    have hbusy : (ht.chain i).fd ≠ -1 := by
      intro hfree
      have h0 := (hrow.free i).mp hfree
      rw [chainLookup_hash hi] at h0
      exact hfit h0 hon ht hl i hfree
    -- the last way out of `hone` needs that there is no chain, and there is one
    have hone' : refused = none ∨ second = none := by
      rcases hone with h | h | ⟨-, hno⟩
      · exact .inl h
      · exact .inr h
      · rw [hno hon ht hl] at hi
        cases hi
    rw [run_sendFile_opened heq hbusy hone']
    refine ⟨path, _, _, ht, i, hon, hl, hfit, ?_, .inl ⟨hi, rfl⟩⟩
    simp only [fdtStep, heq]
  · right
    rw [run_sendFile_opened heq (by omega) (by simpa using hone)]
    refine ⟨path, _, _, ht, i, hon, hl, hfit, ?_, .inr ⟨n, rfl, hi, hf, rfl⟩⟩
    simp only [fdtStep, heq]

/-- A guarded request ends with one new descriptor of its own, with none, or with
a share of the table. -/
theorem prepare_cases (hw : FdtWf w) {k : World} {r : Incoming}
    (hk : AnswersFresh w (.prepare k r first second))
    (hg : OneDescriptor hostId w (.prepare k r first second)) :
    let q := (requestFd k r).run (fdRoot k r) w (hostId (fdHost k r)) first second
    OwnDescriptor w q ∨ SharedDescriptor w (hostId (fdHost k r)) first q := by
  obtain ⟨hfirst, hsecond⟩ := hk
  simp only [OneDescriptor] at hg
  have hsecond' : ∀ n, second = some n → 0 < n ∧ w.files n = none :=
    fun n hn => ⟨(hsecond n hn).1, (hsecond n hn).2.1⟩
  cases hway : requestFd k r with
  | idle => exact .inl ⟨rfl, rfl, rfl, rfl, .inl ⟨by simp [FdWay.run, requestFor], rfl⟩⟩
  | error page => exact .inl (ownDescriptor_error (by simp [requestFor]) rfl page hfirst)
  | errorTwice page =>
    left
    rw [hway] at hg
    -- no page, or one of the two `open` fails
    rcases hg with rfl | rfl | rfl
    · exact ⟨rfl, rfl, rfl, rfl, .inl ⟨by simp [FdWay.run, mkHttpErrorFd, requestFor], rfl⟩⟩
    · simp only [FdWay.run, mkHttpErrorFd_failed]
      exact ownDescriptor_error (by simp [requestFor]) rfl page hsecond'
    · simp only [FdWay.run, mkHttpErrorFd_failed]
      exact ownDescriptor_error (by simp [requestFor]) rfl page hfirst
  | sendFile path forbidden refused =>
    rw [hway] at hg
    exact sendFile_cases hw hfirst hsecond hg.1 hg.2

end Prepare

/-! ## One step -/

section Step

variable {hostId} {w w' : Vhost.Worker}

/-- What has to be checked when a request joins the live ones. -/
theorem DescriptorsWf.of_append (hw : DescriptorsWf w) (hwf : FdtWf w') {r₀ : FdtRequest}
    (hlive : w'.live = w.live ++ [r₀]) (hpositive : ∀ fd ≤ 0, w'.files fd = none)
    (hopened : ∀ fd, (w.files fd).isSome → (w'.files fd).isSome)
    (hopened₀ : 0 < r₀.fd → (w'.files r₀.fd).isSome)
    (hused : ∀ fd, (w'.files fd).isSome → (w.files fd).isSome ∨ r₀.fd = fd)
    (henabled₀ : r₀.vhostFdtEnabled = true → 0 < r₀.fd)
    (hchain : ∀ r ∈ w.live, r.vhostFdtEnabled = true → ChainFd w r → ChainFd w' r)
    (hchain₀ : r₀.vhostFdtEnabled = true → ChainFd w' r₀)
    (hsep : ∀ r ∈ w.live, Apart r r₀) : DescriptorsWf w' := by
  have hmem : ∀ {P : FdtRequest → Prop}, (∀ r ∈ w.live, P r) → P r₀ → ∀ r ∈ w'.live, P r := by
    intro P hold hnew r hr
    rw [hlive, List.mem_append, List.mem_singleton] at hr
    rcases hr with hr | rfl
    · exact hold r hr
    · exact hnew
  refine ⟨hwf, hpositive, ?_, ?_, ?_, ?_, ?_⟩
  · exact hmem (fun r hr hpos => hopened _ (hw.opened r hr hpos)) hopened₀
  · intro fd hfd
    rw [hlive]
    rcases hused fd hfd with hold | hnew
    · obtain ⟨r, hr, heq⟩ := hw.used fd hold
      exact ⟨r, List.mem_append_left _ hr, heq⟩
    · exact ⟨r₀, by simp, hnew⟩
  · exact hmem hw.enabled henabled₀
  · exact hmem (fun r hr hen => hchain r hr hen (hw.chainFd r hr hen)) hchain₀
  · rw [hlive, List.pairwise_append]
    refine ⟨hw.sep, List.pairwise_singleton _ _, ?_⟩
    intro r hr s hs
    rw [List.mem_singleton] at hs
    exact hs ▸ hsep r hr

/-- A descriptor in use is open, so a fresh one is not in use. -/
theorem DescriptorsWf.fresh_apart (hw : DescriptorsWf w) {n : Nat} (hfresh : w.files n = none)
    {r : FdtRequest} (hr : r ∈ w.live) {s : FdtRequest} (hs : s.fd = n) : Apart r s := by
  intro hpos heq
  have hopen := hw.opened r hr hpos
  rw [heq, hs, hfresh] at hopen
  cases hopen

/-- The kernel's side of a new descriptor. -/
theorem DescriptorsWf.files_fresh (hw : DescriptorsWf w) {n : Nat} {x : HostId × Path}
    (hpos : 0 < n) (hfiles : w'.files = Function.update w.files n (some x)) :
    (∀ fd ≤ 0, w'.files fd = none) ∧
    (∀ fd, (w.files fd).isSome → (w'.files fd).isSome) ∧ (w'.files n).isSome ∧
    ∀ fd, (w'.files fd).isSome → (w.files fd).isSome ∨ (n : Int) = fd := by
  rw [hfiles]
  refine ⟨?_, ?_, by simp, ?_⟩
  · intro fd hfd
    rw [Function.update_of_ne (by omega)]
    exact hw.positive fd hfd
  · intro fd hopen
    by_cases heq : fd = n
    · simp [heq]
    · rwa [Function.update_of_ne heq]
  · intro fd hopen
    by_cases heq : fd = n
    · exact .inr heq.symm
    · rw [Function.update_of_ne heq] at hopen
      exact .inl hopen

theorem descriptorsWf_own (hw : DescriptorsWf w) {q : Vhost.Worker × FdtRequest}
    (h : OwnDescriptor w q) : DescriptorsWf { q.1 with live := q.1.live ++ [q.2] } := by
  -- the table does not know the new request, so no count of readers moves
  have hwf : FdtWf { q.1 with live := q.1.live ++ [q.2] } := by
    refine hw.wf.of_fdt_eq h.fdt h.fdtOn ?_ ?_
    · intro host id hash
      simp [holdersOf_append, h.disabled, h.live]
    · intro r hr hen
      rw [h.live, List.mem_append, List.mem_singleton] at hr
      rcases hr with hold | rfl
      · exact hold
      · rw [h.disabled] at hen
        cases hen
  have hdis : ¬ q.2.vhostFdtEnabled = true := by simp [h.disabled]
  have hlive : q.1.live ++ [q.2] = w.live ++ [q.2] := by rw [h.live]
  have hchain : ∀ r ∈ w.live, r.vhostFdtEnabled = true → ChainFd w r →
      ChainFd { q.1 with live := q.1.live ++ [q.2] } r := fun r _ _ hr => hr.of_fdt_eq h.fdt
  rcases h.files with ⟨hfd, hfiles⟩ | ⟨n, x, hpos, hnew, hfd, hfiles⟩
  · refine hw.of_append hwf hlive ?_ ?_ ?_ ?_ (absurd · hdis) hchain (absurd · hdis) ?_
    · exact fun fd h0 => (congrFun hfiles fd).trans (hw.positive fd h0)
    · exact fun fd hopen => (congrFun hfiles fd) ▸ hopen
    · exact fun hpos => absurd hpos (by omega)
    · exact fun fd hopen => .inl (congrFun hfiles fd ▸ hopen)
    · intro r _ hpos heq
      omega
  · have hfiles' : ({ q.1 with live := q.1.live ++ [q.2] } : Vhost.Worker).files =
        Function.update w.files n (some x) := hfiles
    obtain ⟨h1, h2, h3, h4⟩ := hw.files_fresh hpos hfiles'
    refine hw.of_append hwf hlive h1 h2 ?_ ?_ (absurd · hdis) hchain (absurd · hdis) ?_
    · exact fun _ => hfd ▸ h3
    · exact fun fd hopen => hfd ▸ h4 fd hopen
    · exact fun r hr => hw.fresh_apart hnew hr hfd

/-- A request that shares a chain. -/
theorem descriptorsWf_shared (hw : DescriptorsWf w) {host : HostId} {first : Option Nat}
    {q : Vhost.Worker × FdtRequest}
    (hfirst : ∀ n, first = some n → 0 < n ∧ w.files n = none)
    (h : SharedDescriptor w host first q) :
    DescriptorsWf { q.1 with live := q.1.live ++ [q.2] } := by
  obtain ⟨path, id, hash, ht, i, hon, hl, hfit, hstep, hcases⟩ := h
  have hwf : FdtWf { q.1 with live := q.1.live ++ [q.2] } := hstep ▸ fdtWf_fdtOpen hw.wf hfit
  rcases hcases with ⟨hi, rfl⟩ | ⟨n, rfl, hi, hf, rfl⟩
  · -- a hit: the chain belongs to a live request
    have hrow := hw.wf.row _ _ _ hl
    have hhash := chainLookup_hash hi
    have hne : (ht.chain i).hash ≠ 0 := by
      intro h0
      exact hfit (hhash ▸ h0) hon ht hl i ((hrow.free i).mpr h0)
    obtain ⟨p, hp, hpen, hphost, hpid, hphash, hpfd⟩ := hw.wf.exists_holder hw.chainFd hl hne
    have hppos := hw.enabled p hp hpen
    refine hw.of_append hwf rfl hw.positive (fun _ hopen => hopen) ?_ (fun _ hopen => .inl hopen)
      ?_ (fun r _ _ hr => hr.of_addReaders hl rfl) ?_ ?_
    · exact fun _ => hpfd ▸ hw.opened p hp hppos
    · exact fun _ => hpfd ▸ hppos
    · exact fun _ => ((hw.chainFd p hp hpen).of_addReaders hl rfl).congr hphost hpid
        (hphash.trans hhash) hpfd
    · -- who has the descriptor of the new request shares the chain of `p`
      intro r hr hpos hfd
      by_cases hsame : r = p
      · subst hsame
        exact ⟨hpen, rfl, hphost, hpid, hphash.trans hhash⟩
      · obtain ⟨hren, -, h1, h2, h3⟩ := hw.sep.forall hr hp hsame hpos (hfd.trans hpfd.symm)
        exact ⟨hren, rfl, h1.trans hphost, h2.trans hpid, h3.trans (hphash.trans hhash)⟩
  · -- a miss: the chain is new and so is its descriptor
    have hnew := chainLookup_none hi
    obtain ⟨hpos, hfresh⟩ := hfirst n rfl
    obtain ⟨h1, h2, h3, h4⟩ := hw.files_fresh (x := (host, path)) hpos
      (show ({ setTable (sysOpen w (requestFor host path) (some n)).1 host id
        (ht.register i n hash) with live := w.live } : Vhost.Worker).files = _ from rfl)
    refine hw.of_append hwf rfl h1 h2 (fun _ => h3) h4 (fun _ => ?_) ?_ ?_ ?_
    · exact Int.natCast_pos.mpr hpos
    · exact fun r hr hen hchain =>
        hchain.of_register hw.wf hr hen hl hnew (by simp [setTable]; rfl)
    · exact fun _ => chainFd_register hl hnew (by simp [setTable]; rfl) rfl rfl rfl rfl
    · exact fun r hr => hw.fresh_apart hfresh hr rfl

theorem descriptorsWf_prepare (hw : DescriptorsWf w) {k : World} {r : Incoming}
    {first second : Option Nat} (hk : AnswersFresh w (.prepare k r first second))
    (hg : OneDescriptor hostId w (.prepare k r first second)) :
    DescriptorsWf (prepareStep hostId w k r first second) := by
  rcases prepare_cases hw.wf hk hg with hown | hshared
  · exact descriptorsWf_own hw hown
  · exact descriptorsWf_shared hw hk.1 hshared

/-- What has to be checked when the `k`-th request leaves the live ones. -/
theorem DescriptorsWf.of_eraseIdx (hw : DescriptorsWf w) (hwf : FdtWf w') {j : Nat}
    (hlive : w'.live = w.live.eraseIdx j) (hpositive : ∀ fd ≤ 0, w'.files fd = none)
    (hopened : ∀ r ∈ w'.live, 0 < r.fd → (w'.files r.fd).isSome)
    (hused : ∀ fd, (w'.files fd).isSome → ∃ r ∈ w'.live, r.fd = fd)
    (hchain : ∀ r ∈ w'.live, r.vhostFdtEnabled = true → ChainFd w r → ChainFd w' r) :
    DescriptorsWf w' := by
  have hold : ∀ r ∈ w'.live, r ∈ w.live := by
    intro r hr
    rw [hlive] at hr
    exact List.mem_of_mem_eraseIdx hr
  refine ⟨hwf, hpositive, hopened, hused, ?_, ?_, ?_⟩
  · exact fun r hr => hw.enabled r (hold r hr)
  · exact fun r hr hen => hchain r hr hen (hw.chainFd r (hold r hr) hen)
  · rw [hlive]
    exact hw.sep.eraseIdx j

theorem mem_or_eraseIdx {live : List FdtRequest} {j : Nat} {sr r : FdtRequest}
    (hj : live[j]? = some sr) (hr : r ∈ live) : r = sr ∨ r ∈ live.eraseIdx j := by
  obtain ⟨hlt, rfl⟩ := List.getElem?_eq_some_iff.mp hj
  exact List.mem_cons.mp ((List.getElem_cons_eraseIdx_perm hlt).mem_iff.mpr hr)

/-- A descriptor that the request alone had is closed. -/
theorem DescriptorsWf.of_close (hw : DescriptorsWf w) (hwf : FdtWf w') {j : Nat} {sr : FdtRequest}
    (hj : w.live[j]? = some sr) (hlive : w'.live = w.live.eraseIdx j) (hpos : 0 < sr.fd)
    (halone : ∀ r ∈ w'.live, r.fd ≠ sr.fd)
    (hfiles : w'.files = Function.update w.files sr.fd none)
    (hchain : ∀ r ∈ w'.live, r.vhostFdtEnabled = true → ChainFd w r → ChainFd w' r) :
    DescriptorsWf w' := by
  refine hw.of_eraseIdx hwf hlive ?_ ?_ ?_ hchain
  · intro fd hfd
    rw [hfiles, Function.update_of_ne (by omega)]
    exact hw.positive fd hfd
  · intro r hr hrpos
    rw [hfiles, Function.update_of_ne (halone r hr)]
    rw [hlive] at hr
    exact hw.opened r (List.mem_of_mem_eraseIdx hr) hrpos
  · intro fd hopen
    rw [hfiles] at hopen
    have hne : fd ≠ sr.fd := by
      intro heq
      simp [heq] at hopen
    rw [Function.update_of_ne hne] at hopen
    obtain ⟨r, hr, rfl⟩ := hw.used fd hopen
    rcases mem_or_eraseIdx hj hr with rfl | hmem
    · exact absurd rfl hne
    · exact ⟨r, hlive ▸ hmem, rfl⟩

/-- A request leaves and its descriptor, if it has one, stays with another. -/
theorem DescriptorsWf.of_stay (hw : DescriptorsWf w) (hwf : FdtWf w') {j : Nat} {sr : FdtRequest}
    (hj : w.live[j]? = some sr) (hlive : w'.live = w.live.eraseIdx j)
    (hother : 0 < sr.fd → ∃ r ∈ w'.live, r.fd = sr.fd) (hfiles : w'.files = w.files)
    (hchain : ∀ r ∈ w'.live, r.vhostFdtEnabled = true → ChainFd w r → ChainFd w' r) :
    DescriptorsWf w' := by
  refine hw.of_eraseIdx hwf hlive (hfiles ▸ hw.positive) ?_ ?_ hchain
  · intro r hr hpos
    rw [hfiles]
    rw [hlive] at hr
    exact hw.opened r (List.mem_of_mem_eraseIdx hr) hpos
  · intro fd hopen
    rw [hfiles] at hopen
    have hfd : 0 < fd := by
      by_contra hle
      rw [hw.positive fd (by omega)] at hopen
      cases hopen
    obtain ⟨r, hr, rfl⟩ := hw.used fd hopen
    rcases mem_or_eraseIdx hj hr with rfl | hmem
    · exact hother hfd
    · exact ⟨r, hlive ▸ hmem, rfl⟩

/-- The two ends of a descriptor, and that nothing else happens. -/
theorem free_spec (hw : DescriptorsWf w) (j : Nat) :
    DescriptorsWf (freeStep w j) ∧ ReleasedOnce w (.free j) := by
  have hwf : FdtWf (freeStep w j) := fdtWf_fdtClose hw.wf j
  cases hj : w.live[j]? with
  | none =>
    refine ⟨by simpa only [freeStep, hj] using hw, ?_⟩
    intro sr hsr
    rw [hj] at hsr
    cases hsr
  | some sr =>
    have hmem : sr ∈ w.live := List.mem_of_getElem? hj
    have hapart := fun r hr => pairwise_eraseIdx Apart.symm hw.sep hj (r := r) hr
    simp only [ReleasedOnce, hj, Option.some.injEq, forall_eq']
    -- by what `mk_vhost_fdt_close` finds for the request
    rcases fdtClose_cases w sr with
      ⟨hpriv, heq⟩ | ⟨hen, hno, -⟩ | ⟨ht, i, hen, hl, hi, ⟨hr, heq⟩ | ⟨hr, heq⟩⟩
    · -- a descriptor of its own, which no other request has, or none
      have hdis : sr.vhostFdtEnabled = false := by
        rcases hpriv with hoff | hdis
        · by_contra hen
          simp [(hw.wf.held sr hmem (by simpa using hen)).1] at hoff
        · exact hdis
      by_cases hpos : 0 < sr.fd
      · have hfree : freeStep w j = { sysClose w sr.fd with live := w.live.eraseIdx j } := by
          simp only [freeStep, hj, mkVhostClose, heq, gt_iff_lt, if_pos hpos]
        have halone : ∀ r ∈ w.live.eraseIdx j, r.fd ≠ sr.fd := by
          intro r hr hsame
          obtain ⟨hen, -⟩ := hapart r hr hpos hsame.symm
          rw [hdis] at hen
          cases hen
        rw [hfree] at hwf ⊢
        rw [if_pos hpos]
        refine ⟨?_, .inl ⟨hw.opened sr hmem hpos, halone, rfl⟩⟩
        exact hw.of_close hwf hj rfl hpos halone rfl fun r _ _ hr => hr.of_fdt_eq rfl
      · have hfree : freeStep w j = { w with live := w.live.eraseIdx j } := by
          simp only [freeStep, hj, mkVhostClose, heq, gt_iff_lt, if_neg hpos]
        rw [hfree] at hwf ⊢
        rw [if_neg hpos]
        refine ⟨?_, rfl, rfl⟩
        exact hw.of_stay hwf hj rfl (absurd · hpos) rfl fun r _ _ hr => hr.of_fdt_eq rfl
    · -- a request that went through the table finds its chain
      obtain ⟨-, -, ht, i, hl, hi⟩ := hw.wf.held sr hmem hen
      exact absurd hi (chainLookup_none (hno ht hl) i)
    · -- the last reader closes the descriptor of the chain
      have hpos := hw.enabled sr hmem hen
      have hhash := chainLookup_hash hi
      have hlast : holdersOf (w.live.eraseIdx j) sr.hostConf sr.vhostFdtId sr.vhostFdtHash = 0 := by
        have h1 := (hw.wf.row _ _ _ hl).readers i
        rw [holdersOf_eraseIdx hj] at h1
        simp [hen, hhash] at h1
        omega
      have hfree : freeStep w j =
          { sysClose (setTable w sr.hostConf sr.vhostFdtId (ht.vacate i)) sr.fd with
            live := w.live.eraseIdx j } := by
        simp only [freeStep, hj, mkVhostClose, heq]
      have halone : ∀ r ∈ w.live.eraseIdx j, r.fd ≠ sr.fd := by
        intro r hr hsame
        obtain ⟨-, hren, hhost, hid, hrhash⟩ := hapart r hr hpos hsame.symm
        have hcount := List.countP_eq_zero.mp hlast r hr
        simp [hren, hhost, hid, hrhash] at hcount
      rw [hfree] at hwf ⊢
      rw [if_pos hpos]
      refine ⟨?_, .inl ⟨hw.opened sr hmem hpos, halone, rfl⟩⟩
      refine hw.of_close hwf hj rfl hpos halone rfl ?_
      intro r hr hren hchain
      exact hchain.of_vacate (hw.wf.held r (List.mem_of_mem_eraseIdx hr) hren).2.1 hl rfl
    · -- other readers stay
      have hpos := hw.enabled sr hmem hen
      have hhash := chainLookup_hash hi
      have hne : (ht.chain i).hash ≠ 0 := hhash ▸ (hw.wf.held sr hmem hen).2.1
      have hrow := hw.wf.row _ _ _ hl
      have hfd := hw.chainFd sr hmem hen ht i hl hhash
      have hother : ∃ r ∈ w.live.eraseIdx j, r.fd = sr.fd := by
        have h1 := hrow.readers i
        have h2 := (hrow.busy i).mp (hrow.fd_ne hne)
        rw [holdersOf_eraseIdx hj] at h1
        simp only [hen, hhash, and_self, if_true] at h1
        have hcount : 0 < holdersOf (w.live.eraseIdx j) sr.hostConf sr.vhostFdtId
            sr.vhostFdtHash := by omega
        obtain ⟨r, hr, hmatch⟩ := List.countP_pos_iff.mp hcount
        simp only [Bool.and_eq_true, beq_iff_eq] at hmatch
        obtain ⟨⟨⟨hren, hrhost⟩, hrid⟩, hrhash⟩ := hmatch
        have hrfd := hw.chainFd r (List.mem_of_mem_eraseIdx hr) hren ht i
          (by rw [hrid, hrhost]; exact hl) (hhash.trans hrhash.symm)
        exact ⟨r, hr, hrfd.symm.trans hfd⟩
      have hfree : freeStep w j =
          { setTable w sr.hostConf sr.vhostFdtId (ht.addReaders i (-1)) with
            live := w.live.eraseIdx j } := by
        simp only [freeStep, hj, mkVhostClose, heq]
      rw [hfree] at hwf ⊢
      rw [if_pos hpos]
      refine ⟨?_, .inr ⟨hother, rfl, ht, i, hl, hfd, ?_⟩⟩
      · exact hw.of_stay hwf hj rfl (fun _ => hother) rfl fun r _ _ hr => hr.of_addReaders hl rfl
      · exact (tableLookup_setTable hl rfl _ _).trans (if_pos ⟨rfl, rfl⟩)

theorem descriptorsWf_step (w : Vhost.Worker) (e : FdEvent) (hw : DescriptorsWf w)
    (hg : AnswersFresh w e ∧ OneDescriptor hostId w e) :
    DescriptorsWf ((descriptorMachine hostId).step w e) := by
  cases e with
  | prepare k r first second => exact descriptorsWf_prepare hw hg.1 hg.2
  | free j => exact (free_spec hw j).1

theorem releasedOnce_step (w : Vhost.Worker) (e : FdEvent) (hw : DescriptorsWf w) :
    ReleasedOnce w e := by
  cases e with
  | prepare k r first second => trivial
  | free j => exact (free_spec hw j).2

end Step

/-! ## Whole runs -/

/-- In every run whose requests come to hold at most one descriptor each, every
descriptor of a live request is open, every open descriptor has a live request,
and every request that is freed gives back what it has, once. -/
theorem descriptor_life_cycle (fdtOn : Bool) (hs : List HostId) (evs : List FdEvent)
    (hk : (descriptorMachine hostId).AllSteps AnswersFresh (mkVhostFdtWorkerInit fdtOn hs) evs)
    (hg : (descriptorMachine hostId).AllSteps (OneDescriptor hostId)
      (mkVhostFdtWorkerInit fdtOn hs) evs) :
    (descriptorMachine hostId).AllStates DescriptorsOk (mkVhostFdtWorkerInit fdtOn hs) evs ∧
      (descriptorMachine hostId).AllSteps ReleasedOnce (mkVhostFdtWorkerInit fdtOn hs) evs := by
  have hinit := descriptorsWf_init fdtOn hs
  constructor
  · exact ((descriptorMachine hostId).allStates_of_allSteps descriptorsWf_step hinit
      (hk.and hg)).mono fun _ hw => hw.ok
  · exact (descriptorMachine hostId).allSteps_of_invariant descriptorsWf_step
      (fun w e hw _ => releasedOnce_step w e hw) hinit (hk.and hg)

/-- Two requests for `/a` share its descriptor and give it back. -/
theorem descriptor_life_cycle_shared :
    let a := getAQuery.incoming parsedRequestZero 0
    let evs := [.prepare worldSite a (some 5) none, .prepare worldSite a none none, .free 0, .free 0]
    (descriptorMachine fun _ => 0).AllStates DescriptorsOk (mkVhostFdtWorkerInit true [0]) evs ∧
      (descriptorMachine fun _ => 0).AllSteps ReleasedOnce (mkVhostFdtWorkerInit true [0]) evs := by
  intro a evs
  have hway : requestFd worldSite a = .sendFile (bytes "/srv/a") none none := by decide
  have hhash : vhostHash (fdRoot worldSite a) 0 (bytes "/srv/a") ≠ 0 := by decide
  have hone : ∀ w first, OneDescriptor (fun _ => 0) w (.prepare worldSite a first none) := by
    intro w first
    simp only [OneDescriptor, hway]
    exact ⟨fun h0 => absurd h0 hhash, .inl trivial⟩
  refine descriptor_life_cycle _ true [0] evs ?_ ⟨hone _ _, hone _ _, trivial, trivial, trivial⟩
  refine ⟨⟨?_, by simp⟩, ⟨by simp, by simp⟩, trivial, trivial, trivial⟩
  intro n hn
  cases hn
  exact ⟨by decide, rfl⟩

/-- The site, with a page for ranges that cannot be satisfied. -/
def worldPages : World where
  __ := worldSite
  defaultHost := { worldSite.defaultHost with errorPages := [(416, bytes "/srv/a")] }

/-- `GET /a`, from the tenth byte of its five on. -/
def getATail : Arrival where
  world := worldPages
  bytes := bytes "GET /a HTTP/1.1\r\nHost: x\r\nRange: bytes=9-\r\n\r\n"
  first := 46
  rest := []
  ok := by decide

/-- The file is open, the range is refused, and the error page takes the place of
the file: descriptor `5` is never closed. -/
theorem descriptor_life_cycle_refused_range :
    ¬ ∀ (hostId : Host → HostId) (fdtOn : Bool) (hs : List HostId) (evs : List FdEvent),
      (descriptorMachine hostId).AllSteps AnswersFresh (mkVhostFdtWorkerInit fdtOn hs) evs →
      (descriptorMachine hostId).AllStates DescriptorsOk (mkVhostFdtWorkerInit fdtOn hs) evs ∧
        (descriptorMachine hostId).AllSteps ReleasedOnce (mkVhostFdtWorkerInit fdtOn hs) evs := by
  intro h
  obtain ⟨hok, -⟩ := h (fun _ => 0) true [0]
    [.prepare worldPages (getATail.incoming parsedRequestZero 0) (some 5) (some 6), .free 0] (by
      refine ⟨⟨?_, ?_⟩, trivial, trivial⟩
      · intro n hn
        cases hn
        exact ⟨by decide, rfl⟩
      · intro n hn
        cases hn
        exact ⟨by decide, rfl, by decide⟩)
  have hlast := hok.last.used 5 (by decide)
  revert hlast
  decide

end SuperExe.Http
