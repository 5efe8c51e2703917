import SuperExe.Vhost.FdtInvariant
import SuperExe.Vhost.Open
import Mathlib.Data.List.Pairwise

/-! # Which file a shared descriptor belongs to

A run is any sequence of `mk_vhost_open` and `mk_vhost_close` by any requests
of one worker. The table matches a file by its 32-bit hash and never compares
the path, so a request gets another request's file when the two hashes agree.
`vhost_files_iff` says exactly when that does not happen: no open may meet a
live request of the same virtual host with the same hash and another path, and
no file of hash `0` may meet a free chain. `vhost_files_user_home` is the
shortest way in: two user-home paths of one length, both shorter than the
document root.
-/

namespace SuperExe.Vhost

open SuperExe.Lib

/-! ## The machine -/

inductive VhostEvent where
  | vhostOpen (host : HostId) (path : Path) (ans : Option Nat)
  | vhostClose (k : Nat)

/-- The step as the descriptor table sees it. -/
def VhostEvent.toFdt (documentroot : HostId → Path) : VhostEvent → FdtEvent
  | .vhostOpen host path ans =>
    .fdtOpen host path (vhostFdtId (vhostHash documentroot host path))
      (vhostHash documentroot host path) ans
  | .vhostClose k => .fdtClose k

/-- One `mk_vhost_open` or `mk_vhost_close`. -/
def vhostStep (documentroot : HostId → Path) (w : Worker) : VhostEvent → Worker
  | .vhostOpen host path ans =>
    let r := mkVhostOpen documentroot w (requestFor host path) ans
    { r.1 with live := r.1.live ++ [{ r.2.1 with fd := r.2.2 }] }
  | .vhostClose k =>
    match w.live[k]? with
    | none => w
    | some sr => { mkVhostClose w sr with live := w.live.eraseIdx k }

def vhostMachine (documentroot : HostId → Path) : Machine Worker VhostEvent :=
  ⟨vhostStep documentroot⟩

theorem vhostStep_eq_fdtStep (documentroot : HostId → Path) (w : Worker) (e : VhostEvent) :
    vhostStep documentroot w e = fdtStep w (e.toFdt documentroot) := by
  cases e <;> rfl

/-! ## The property -/

/-- Either `open(2)` failed and the request has no descriptor, or its
descriptor was opened for its own virtual host and real path. -/
def OwnsFile (w : Worker) (r : FdtRequest) : Prop :=
  r.fd = -1 ∧ r.vhostFdtEnabled = false ∨ w.files r.fd = some (r.hostConf, r.realPath)

/-- Every live request reads its own file, and two requests share a descriptor
only for one and the same file. -/
structure FilesOk (w : Worker) : Prop where
  own : ∀ r ∈ w.live, OwnsFile w r
  share : ∀ r ∈ w.live, ∀ s ∈ w.live, r.fd ≠ -1 → r.fd = s.fd →
    r.hostConf = s.hostConf ∧ r.realPath = s.realPath

/-- `open(2)` never answers with a descriptor that is open. -/
def KernelFresh (w : Worker) : VhostEvent → Prop
  | .vhostOpen _ _ (some n) => w.files n = none
  | _ => True

/-- The opens that cannot be mistaken: hash `0` meets no free chain, and a live
request of the same virtual host with the same hash reads the same path. -/
def HashTells (documentroot : HostId → Path) (w : Worker) (e : VhostEvent) : Prop :=
  ZeroHashFits w (e.toFdt documentroot) ∧
  match e with
  | .vhostOpen host path _ =>
    ∀ r ∈ w.live, r.vhostFdtEnabled = true → r.hostConf = host →
      r.vhostFdtHash = vhostHash documentroot host path → r.realPath = path
  | .vhostClose _ => True

theorem FilesOk.of_own {w : Worker} (hown : ∀ r ∈ w.live, OwnsFile w r) : FilesOk w := by
  refine ⟨hown, ?_⟩
  intro r hr s hs hne heq
  rcases hown r hr with ⟨h1, -⟩ | hr'
  · exact absurd h1 hne
  · rcases hown s hs with ⟨h1, -⟩ | hs'
    · exact absurd (heq.trans h1) hne
    · rw [heq, hs'] at hr'
      simp only [Option.some.injEq, Prod.mk.injEq] at hr'
      exact ⟨hr'.1.symm, hr'.2.symm⟩

/-! ## The inductive invariant -/

/-- The chain a request shares has the request's descriptor. -/
def ChainFd (w : Worker) (r : FdtRequest) : Prop :=
  ∀ ht i, mkVhostFdtTableLookup w r.vhostFdtId r.hostConf = some ht →
    (ht.chain i).hash = r.vhostFdtHash → (ht.chain i).fd = r.fd

/-- Two requests with one descriptor share a chain. -/
def SharesChain (r s : FdtRequest) : Prop :=
  r.fd ≠ -1 → r.fd = s.fd → r.vhostFdtEnabled = true ∧ s.vhostFdtEnabled = true ∧
    r.hostConf = s.hostConf ∧ r.vhostFdtId = s.vhostFdtId ∧ r.vhostFdtHash = s.vhostFdtHash

theorem SharesChain.symm {r s : FdtRequest} (h : SharesChain r s) : SharesChain s r := by
  intro hne heq
  obtain ⟨h1, h2, h3, h4, h5⟩ := h (heq ▸ hne) heq.symm
  exact ⟨h2, h1, h3.symm, h4.symm, h5.symm⟩

instance : Std.Symm SharesChain := ⟨fun _ _ h => h.symm⟩

structure FilesWf (w : Worker) : Prop where
  wf : FdtWf w
  noFd : w.files (-1) = none
  own : ∀ r ∈ w.live, OwnsFile w r
  row : ∀ r ∈ w.live, r.vhostFdtEnabled = true → r.vhostFdtId = vhostFdtId r.vhostFdtHash
  chainFd : ∀ r ∈ w.live, r.vhostFdtEnabled = true → ChainFd w r
  sep : w.live.Pairwise SharesChain

theorem filesWf_init (fdtOn : Bool) (hosts : List HostId) :
    FilesWf (mkVhostFdtWorkerInit fdtOn hosts) := by
  refine ⟨fdtWf_init fdtOn hosts, rfl, ?_, ?_, ?_, ?_⟩ <;> simp [mkVhostFdtWorkerInit]

section Frame

variable {w w' : Worker} {r : FdtRequest}

theorem ChainFd.of_fdt_eq (hr : ChainFd w r) (hfdt : w'.fdt = w.fdt) : ChainFd w' r := by
  intro ht i hl
  apply hr ht i
  unfold mkVhostFdtTableLookup at *
  rwa [hfdt] at hl

/-- Writing a row back keeps the descriptor of a request's chain, provided the
chains of that hash keep theirs. -/
theorem ChainFd.of_setTable (hr : ChainFd w r) {h : HostId} {id : Fin fdtHashtableSize}
    {ht ht' : HashTable} (hl : mkVhostFdtTableLookup w id h = some ht)
    (hfdt : w'.fdt = (setTable w h id ht').fdt)
    (hsame : r.hostConf = h → r.vhostFdtId = id → ∀ j, (ht'.chain j).hash = r.vhostFdtHash →
      (ht.chain j).hash = r.vhostFdtHash ∧ (ht'.chain j).fd = (ht.chain j).fd) :
    ChainFd w' r := by
  intro ht₂ j hl₂ hj
  rw [tableLookup_setTable hl hfdt] at hl₂
  by_cases hrow : r.hostConf = h ∧ r.vhostFdtId = id
  · rw [if_pos hrow] at hl₂
    cases hl₂
    obtain ⟨rfl, rfl⟩ := hrow
    obtain ⟨hhash, hfd⟩ := hsame rfl rfl j hj
    rw [hfd]
    exact hr ht j hl hhash
  · rw [if_neg hrow] at hl₂
    exact hr ht₂ j hl₂ hj

/-- Readers come and go, the descriptors of the chains stay. -/
theorem ChainFd.of_addReaders (hr : ChainFd w r) {h : HostId} {id : Fin fdtHashtableSize}
    {ht : HashTable} {i : Fin fdtHashtableChains} {d : Int}
    (hl : mkVhostFdtTableLookup w id h = some ht)
    (hfdt : w'.fdt = (setTable w h id (ht.addReaders i d)).fdt) : ChainFd w' r := by
  refine hr.of_setTable hl hfdt ?_
  intro _ _ j hj
  rw [addReaders_hash] at hj
  exact ⟨hj, addReaders_fd ht i j d⟩

/-- A chain that becomes busy is not the chain of a live request: that hash was
not in the row before. -/
theorem ChainFd.of_register (hw : FdtWf w) (hr : ChainFd w r) (hmem : r ∈ w.live)
    (hen : r.vhostFdtEnabled = true) {h : HostId} {id : Fin fdtHashtableSize} {ht : HashTable}
    {i : Fin fdtHashtableChains} {fd : Int} {hash : UInt32}
    (hl : mkVhostFdtTableLookup w id h = some ht) (hnew : ∀ j, (ht.chain j).hash ≠ hash)
    (hfdt : w'.fdt = (setTable w h id (ht.register i fd hash)).fdt) : ChainFd w' r := by
  refine hr.of_setTable hl hfdt ?_
  intro hhost hid j hj
  by_cases hji : j = i
  · subst hji
    rw [register_self] at hj
    obtain ⟨-, -, ht₂, j₂, hl₂, hj₂⟩ := hw.held r hmem hen
    rw [hhost, hid] at hl₂
    have hht : ht₂ = ht := Option.some.inj (hl₂.symm.trans hl)
    exact absurd ((hht ▸ hj₂).trans hj.symm) (hnew j₂)
  · rw [register_other ht _ _ hji] at hj ⊢
    exact ⟨hj, rfl⟩

/-- The request whose descriptor was registered. -/
theorem chainFd_register {h : HostId} {id : Fin fdtHashtableSize} {ht : HashTable}
    {i : Fin fdtHashtableChains} {fd : Int} {hash : UInt32}
    (hl : mkVhostFdtTableLookup w id h = some ht) (hnew : ∀ j, (ht.chain j).hash ≠ hash)
    (hfdt : w'.fdt = (setTable w h id (ht.register i fd hash)).fdt) (hhost : r.hostConf = h)
    (hid : r.vhostFdtId = id) (hhash : r.vhostFdtHash = hash) (hfd : r.fd = fd) :
    ChainFd w' r := by
  intro ht₂ j hl₂ hj
  rw [hhost, hid, tableLookup_setTable hl hfdt, if_pos ⟨rfl, rfl⟩] at hl₂
  cases hl₂
  by_cases hji : j = i
  · subst hji
    rw [register_self, hfd]
  · rw [register_other ht _ _ hji, hhash] at hj
    exact absurd hj (hnew j)

/-- A chain that becomes free is not the chain of a live request: those have a
hash other than `0`. -/
theorem ChainFd.of_vacate (hr : ChainFd w r) (hne : r.vhostFdtHash ≠ 0) {h : HostId}
    {id : Fin fdtHashtableSize} {ht : HashTable} {i : Fin fdtHashtableChains}
    (hl : mkVhostFdtTableLookup w id h = some ht)
    (hfdt : w'.fdt = (setTable w h id (ht.vacate i)).fdt) : ChainFd w' r := by
  refine hr.of_setTable hl hfdt ?_
  intro _ _ j hj
  have hji : j ≠ i := by
    intro hji
    subst hji
    rw [vacate_self] at hj
    exact hne hj.symm
  rw [vacate_other ht hji] at hj ⊢
  exact ⟨hj, rfl⟩

/-- Requests with one chain and one descriptor. -/
theorem ChainFd.congr {s : FdtRequest} (hr : ChainFd w r) (hhost : r.hostConf = s.hostConf)
    (hid : r.vhostFdtId = s.vhostFdtId) (hhash : r.vhostFdtHash = s.vhostFdtHash)
    (hfd : r.fd = s.fd) : ChainFd w s := by
  intro ht i hl hi
  rw [← hhost, ← hid] at hl
  rw [← hhash] at hi
  exact (hr ht i hl hi).trans hfd

/-- An open file stays open when the kernel hands out a fresh descriptor. -/
theorem OwnsFile.of_fresh (hr : OwnsFile w r) {n : Nat} (hfresh : w.files n = none)
    {x : HostId × Path} (hfiles : w'.files = Function.update w.files n (some x)) :
    OwnsFile w' r := by
  rcases hr with hfail | hopen
  · exact Or.inl hfail
  · right
    have hne : r.fd ≠ n := by
      intro heq
      rw [heq, hfresh] at hopen
      cases hopen
    rw [hfiles, Function.update_of_ne hne]
    exact hopen

/-- A descriptor that nobody else uses can be closed. -/
theorem OwnsFile.of_close (hr : OwnsFile w r) {fd : Int} (hnoFd : w.files (-1) = none)
    (hne : r.fd ≠ -1 → r.fd ≠ fd) (hfiles : w'.files = Function.update w.files fd none) :
    OwnsFile w' r := by
  rcases hr with hfail | hopen
  · exact Or.inl hfail
  · right
    have hfd : r.fd ≠ -1 := by
      intro heq
      rw [heq, hnoFd] at hopen
      cases hopen
    rw [hfiles, Function.update_of_ne (hne hfd)]
    exact hopen

end Frame

/-! ## One step -/

section Step

variable {documentroot : HostId → Path} {w : Worker}

/-- A descriptor in use is open, so a fresh one is not in use. -/
theorem FilesWf.fresh_sep (hw : FilesWf w) {n : Nat} (hfresh : w.files n = none)
    {r : FdtRequest} (hr : r ∈ w.live) {s : FdtRequest} (hs : s.fd = n) : SharesChain r s := by
  intro hne heq
  rcases hw.own r hr with ⟨hfail, -⟩ | hopen
  · exact absurd hfail hne
  · rw [heq, hs, hfresh] at hopen
    cases hopen

/-- A busy chain has a live request, and that request has its descriptor. -/
theorem FdtWf.exists_holder (hw : FdtWf w)
    (hchain : ∀ r ∈ w.live, r.vhostFdtEnabled = true → ChainFd w r) {h : HostId}
    {id : Fin fdtHashtableSize} {ht : HashTable} (hl : mkVhostFdtTableLookup w id h = some ht)
    {i : Fin fdtHashtableChains} (hne : (ht.chain i).hash ≠ 0) :
    ∃ r ∈ w.live, r.vhostFdtEnabled = true ∧ r.hostConf = h ∧ r.vhostFdtId = id ∧
      r.vhostFdtHash = (ht.chain i).hash ∧ r.fd = (ht.chain i).fd := by
  have hrow := hw.row h id ht hl
  have hpos := (hrow.busy i).mp (hrow.fd_ne hne)
  rw [hrow.readers i] at hpos
  obtain ⟨r, hr, hmatch⟩ := List.countP_pos_iff.mp (Int.natCast_pos.mp hpos)
  simp only [Bool.and_eq_true, beq_iff_eq] at hmatch
  obtain ⟨⟨⟨hen, rfl⟩, rfl⟩, hhash⟩ := hmatch
  exact ⟨r, hr, hen, rfl, rfl, hhash, (hchain r hr hen ht i hl hhash.symm).symm⟩

/-- What has to be checked when a request joins the live ones. -/
theorem FilesWf.of_append {w' : Worker} (hw : FilesWf w) (hwf : FdtWf w')
    {r₀ : FdtRequest} (hlive : w'.live = w.live ++ [r₀]) (hnoFd : w'.files (-1) = none)
    (hown : ∀ r ∈ w.live, OwnsFile w r → OwnsFile w' r) (hown₀ : OwnsFile w' r₀)
    (hrow₀ : r₀.vhostFdtEnabled = true → r₀.vhostFdtId = vhostFdtId r₀.vhostFdtHash)
    (hchain : ∀ r ∈ w.live, r.vhostFdtEnabled = true → ChainFd w r → ChainFd w' r)
    (hchain₀ : r₀.vhostFdtEnabled = true → ChainFd w' r₀)
    (hsep : ∀ r ∈ w.live, SharesChain r r₀) : FilesWf w' := by
  have hmem : ∀ {P : FdtRequest → Prop}, (∀ r ∈ w.live, P r) → P r₀ → ∀ r ∈ w'.live, P r := by
    intro P hold hnew r hr
    rw [hlive, List.mem_append, List.mem_singleton] at hr
    rcases hr with hr | rfl
    · exact hold r hr
    · exact hnew
  refine ⟨hwf, hnoFd, ?_, ?_, ?_, ?_⟩
  · exact hmem (fun r hr => hown r hr (hw.own r hr)) hown₀
  · exact hmem hw.row hrow₀
  · exact hmem (fun r hr hen => hchain r hr hen (hw.chainFd r hr hen)) hchain₀
  · rw [hlive, List.pairwise_append]
    refine ⟨hw.sep, List.pairwise_singleton _ _, ?_⟩
    intro r hr s hs
    rw [List.mem_singleton] at hs
    exact hs ▸ hsep r hr

theorem filesWf_vhostOpen (hw : FilesWf w) {host : HostId} {path : Path} {ans : Option Nat}
    (hk : KernelFresh w (.vhostOpen host path ans))
    (hg : HashTells documentroot w (.vhostOpen host path ans)) :
    FilesWf (vhostStep documentroot w (.vhostOpen host path ans)) := by
  rw [vhostStep_eq_fdtStep]
  have hwf := fdtWf_step w _ hw.wf hg.1
  obtain ⟨hfit, htells⟩ := hg
  simp only [VhostEvent.toFdt] at hwf hfit htells ⊢
  generalize vhostHash documentroot host path = hash at hwf hfit htells ⊢
  rcases fdtOpen_cases w (vhostFdtId hash) hash (requestFor host path) ans with
    heq | ⟨ht, i, hon, hl, hi, heq⟩ | ⟨ht, i, n, hon, hl, hi, rfl, hf, heq⟩
  · -- a private descriptor
    simp only [fdtStep, heq] at hwf ⊢
    have hfdt : (sysOpen w (requestFor host path) ans).1.fdt = w.fdt := by simp
    cases ans with
    | none =>
      refine hw.of_append hwf rfl hw.noFd ?_ (Or.inl ⟨rfl, rfl⟩) (by simp [requestFor]) ?_
        (by simp [requestFor]) ?_
      · exact fun r _ hr => hr
      · exact fun r _ _ hr => hr.of_fdt_eq hfdt
      · exact fun r _ hne heq => absurd heq hne
    | some n =>
      refine hw.of_append hwf rfl ?_ ?_ (Or.inr ?_) (by simp [requestFor]) ?_
        (by simp [requestFor]) ?_
      · simpa [sysOpen] using hw.noFd
      · exact fun r _ hr => hr.of_fresh hk rfl
      · simp [sysOpen]
      · exact fun r _ _ hr => hr.of_fdt_eq hfdt
      · exact fun r hr => hw.fresh_sep hk hr rfl
  · -- a hit: the chain belongs to a live request, which reads the same path
    have hrow := hw.wf.row _ _ _ hl
    have hhash := chainLookup_hash hi
    have hne : (ht.chain i).hash ≠ 0 := by
      intro h0
      exact hfit (hhash ▸ h0) hon ht hl i ((hrow.free i).mpr h0)
    obtain ⟨q, hq, hqen, hqhost, hqid, hqhash, hqfd⟩ := hw.wf.exists_holder hw.chainFd hl hne
    have hqpath : q.realPath = path := htells q hq hqen hqhost (hqhash.trans hhash)
    have hqopen : w.files q.fd = some (host, path) := by
      rcases hw.own q hq with ⟨-, hdis⟩ | hopen
      · rw [hqen] at hdis
        cases hdis
      · rw [hopen, hqhost, hqpath]
        rfl
    simp only [fdtStep, heq] at hwf ⊢
    have hkeep : ∀ r, ChainFd w r → ChainFd { setTable w host (vhostFdtId hash) (ht.addReaders i 1)
        with live := w.live ++ [{ (requestFor host path).enabled (vhostFdtId hash) hash with
          fd := (ht.chain i).fd }] } r := by
      exact fun r hr => hr.of_addReaders hl rfl
    refine hw.of_append hwf rfl hw.noFd ?_ (Or.inr ?_) (fun _ => rfl) ?_ ?_ ?_
    · exact fun r _ hr => hr
    · show w.files (ht.chain i).fd = _
      rw [← hqfd, hqopen]
      rfl
    · exact fun r _ _ hr => hkeep r hr
    · -- the new request shares the chain of `q`
      exact fun _ => (hkeep q (hw.chainFd q hq hqen)).congr hqhost hqid (hqhash.trans hhash) hqfd
    · intro r hr hrne hrfd
      -- whoever has this descriptor has it through the chain of `q`
      have hrq : r.fd = q.fd := by
        rw [hqfd]
        exact hrfd
      by_cases hsame : r = q
      · subst hsame
        exact ⟨hqen, rfl, hqhost, hqid, hqhash.trans hhash⟩
      · have hshare := hw.sep.forall hr hq hsame
        obtain ⟨hren, -, h1, h2, h3⟩ := hshare hrne hrq
        exact ⟨hren, rfl, h1.trans hqhost, h2.trans hqid, h3.trans (hqhash.trans hhash)⟩
  · -- a miss: the chain is new and so is its descriptor
    have hnew := chainLookup_none hi
    simp only [fdtStep, heq] at hwf ⊢
    refine hw.of_append hwf rfl ?_ ?_ (Or.inr ?_) (fun _ => rfl) ?_ ?_ ?_
    · simpa [sysOpen, setTable] using hw.noFd
    · exact fun r _ hr => hr.of_fresh hk rfl
    · simp [sysOpen, setTable, requestFor, FdtRequest.enabled]
    · exact fun r hr hen hchain => hchain.of_register hw.wf hr hen hl hnew (by simp [setTable]; rfl)
    · exact fun _ => chainFd_register hl hnew (by simp [setTable]; rfl) rfl rfl rfl rfl
    · exact fun r hr => hw.fresh_sep hk hr rfl

/-- What has to be checked when the `k`-th request leaves the live ones. -/
theorem FilesWf.of_eraseIdx {w' : Worker} (hw : FilesWf w) (hwf : FdtWf w') {k : Nat}
    (hlive : w'.live = w.live.eraseIdx k) (hnoFd : w'.files (-1) = none)
    (hown : ∀ r ∈ w'.live, OwnsFile w r → OwnsFile w' r)
    (hchain : ∀ r ∈ w'.live, r.vhostFdtEnabled = true → ChainFd w r → ChainFd w' r) :
    FilesWf w' := by
  have hold : ∀ r ∈ w'.live, r ∈ w.live := by
    intro r hr
    rw [hlive] at hr
    exact List.mem_of_mem_eraseIdx hr
  refine ⟨hwf, hnoFd, ?_, ?_, ?_, ?_⟩
  · exact fun r hr => hown r hr (hw.own r (hold r hr))
  · exact fun r hr => hw.row r (hold r hr)
  · exact fun r hr hen => hchain r hr hen (hw.chainFd r (hold r hr) hen)
  · rw [hlive]
    exact hw.sep.eraseIdx k

/-- The request that leaves is apart from those that stay. -/
theorem pairwise_eraseIdx {R : FdtRequest → FdtRequest → Prop} (hsymm : ∀ {r s}, R r s → R s r)
    {live : List FdtRequest} (hsep : live.Pairwise R) {k : Nat} {sr : FdtRequest}
    (hk : live[k]? = some sr) {r : FdtRequest} (hr : r ∈ live.eraseIdx k) : R sr r := by
  obtain ⟨hlt, rfl⟩ := List.getElem?_eq_some_iff.mp hk
  have hperm := List.getElem_cons_eraseIdx_perm hlt
  have hpair := (hperm.pairwise_iff hsymm).mpr hsep
  exact (List.pairwise_cons.mp hpair).1 r hr

theorem filesWf_vhostClose (hw : FilesWf w) (k : Nat) :
    FilesWf (vhostStep documentroot w (.vhostClose k)) := by
  rw [vhostStep_eq_fdtStep]
  have hwf := fdtWf_fdtClose hw.wf k
  simp only [VhostEvent.toFdt]
  cases hk : w.live[k]? with
  | none => simpa only [fdtStep, hk] using hw
  | some sr =>
    have hmem : sr ∈ w.live := List.mem_of_getElem? hk
    rcases fdtClose_cases w sr with
      ⟨hpriv, heq⟩ | ⟨hen, hno, -⟩ | ⟨ht, i, hen, hl, hi, ⟨hr, heq⟩ | ⟨hr, heq⟩⟩
    · -- a private descriptor, which no other request has
      have hdis : sr.vhostFdtEnabled = false := by
        rcases hpriv with hoff | hdis
        · by_contra hen
          simp [(hw.wf.held sr hmem (by simpa using hen)).1] at hoff
        · exact hdis
      simp only [fdtStep, hk, heq] at hwf ⊢
      by_cases hpos : sr.fd > 0
      · rw [if_pos hpos] at hwf ⊢
        refine hw.of_eraseIdx hwf rfl ?_ ?_ ?_
        · simp [sysClose, Function.update, hw.noFd]
        · intro r hr hown
          refine hown.of_close hw.noFd ?_ rfl
          intro hne hsame
          obtain ⟨hen, -⟩ := pairwise_eraseIdx SharesChain.symm hw.sep hk hr (by omega) hsame.symm
          rw [hdis] at hen
          cases hen
        · exact fun r _ _ hchain => hchain.of_fdt_eq rfl
      · rw [if_neg hpos] at hwf ⊢
        exact hw.of_eraseIdx hwf rfl hw.noFd (fun r _ hown => hown)
          (fun r _ _ hchain => hchain.of_fdt_eq rfl)
    · -- a request that went through the table finds its chain
      obtain ⟨-, -, ht, i, hl, hi⟩ := hw.wf.held sr hmem hen
      exact absurd hi (chainLookup_none (hno ht hl) i)
    · -- the last reader closes the descriptor of the chain
      have hrow := hw.wf.row _ _ _ hl
      have hhash := chainLookup_hash hi
      have hlast : holdersOf (w.live.eraseIdx k) sr.hostConf sr.vhostFdtId sr.vhostFdtHash = 0 := by
        have h1 := hrow.readers i
        rw [holdersOf_eraseIdx hk] at h1
        simp [hen, hhash] at h1
        omega
      simp only [fdtStep, hk, heq] at hwf ⊢
      refine hw.of_eraseIdx hwf rfl ?_ ?_ ?_
      · simp [sysClose, setTable, Function.update, hw.noFd]
      · intro r hr hown
        refine hown.of_close hw.noFd ?_ rfl
        intro hne hsame
        obtain ⟨-, hren, hhost, hid, hrhash⟩ := pairwise_eraseIdx SharesChain.symm hw.sep hk hr (hsame ▸ hne) hsame.symm
        -- another holder of the descriptor would count as a reader of the chain
        have hcount := List.countP_eq_zero.mp hlast r hr
        simp [hren, hhost, hid, hrhash] at hcount
      · intro r hr hren hchain
        exact hchain.of_vacate (hw.wf.held r (List.mem_of_mem_eraseIdx hr) hren).2.1 hl rfl
    · -- other readers stay
      simp only [fdtStep, hk, heq] at hwf ⊢
      refine hw.of_eraseIdx hwf rfl hw.noFd (fun r _ hown => hown) ?_
      exact fun r _ _ hchain => hchain.of_addReaders hl rfl

theorem filesWf_step (w : Worker) (e : VhostEvent) (hw : FilesWf w) (hk : KernelFresh w e)
    (hg : HashTells documentroot w e) : FilesWf (vhostStep documentroot w e) := by
  cases e with
  | vhostOpen host path ans => exact filesWf_vhostOpen hw hk hg
  | vhostClose k => exact filesWf_vhostClose hw k

/-- A hit is only right when the chain's descriptor was opened for the path. -/
theorem FilesOk.of_hit {host : HostId} {path : Path} {ans : Option Nat} {ht : HashTable}
    {i : Fin fdtHashtableChains} (hon : w.fdtOn = true)
    (hl : mkVhostFdtTableLookup w (vhostFdtId (vhostHash documentroot host path)) host = some ht)
    (hi : mkVhostFdtChainLookup (vhostHash documentroot host path) ht = some i)
    (hok : FilesOk (vhostStep documentroot w (.vhostOpen host path ans))) :
    w.files (ht.chain i).fd = some (host, path) := by
  generalize hhash : vhostHash documentroot host path = hash at hl hi
  -- the request joins with the descriptor of the chain, and no file is opened
  have hopen : mkVhostOpen documentroot w (requestFor host path) ans =
      (setTable w host (vhostFdtId hash) (ht.addReaders i 1),
        (requestFor host path).enabled (vhostFdtId hash) hash, (ht.chain i).fd) := by
    simp [mkVhostOpen, requestFor, hhash, mkVhostFdtOpen, hon, hl, hi, HashTable.addReaders]
  have hmem : { (requestFor host path).enabled (vhostFdtId hash) hash with
      fd := (ht.chain i).fd } ∈ (vhostStep documentroot w (.vhostOpen host path ans)).live := by
    simp [vhostStep, hopen]
  have hfiles : (vhostStep documentroot w (.vhostOpen host path ans)).files = w.files := by
    simp [vhostStep, hopen, setTable]
  rcases hok.own _ hmem with ⟨-, hdis⟩ | hown
  · cases hdis
  · rw [hfiles] at hown
    exact hown

/-- An open that the hash does not tell apart hands out a wrong descriptor. -/
theorem not_filesOk_step (w : Worker) (e : VhostEvent) (hw : FilesWf w)
    (hg : ¬ HashTells documentroot w e) : ¬ FilesOk (vhostStep documentroot w e) := by
  intro hok
  cases e with
  | vhostClose k => exact hg ⟨trivial, trivial⟩
  | vhostOpen host path ans =>
    apply hg
    constructor
    · -- hash `0` on a free chain hands out the descriptor `-1`
      intro h0 hon ht hl i hi
      have hrow := hw.wf.row _ _ _ hl
      obtain ⟨j, hj⟩ := chainLookup_isSome ht i
      rw [(hrow.free i).mp hi] at hj
      have hfree : (ht.chain j).fd = -1 := (hrow.free j).mpr (chainLookup_hash hj)
      have hopen := hok.of_hit hon hl (by rw [h0]; exact hj)
      rw [hfree, hw.noFd] at hopen
      cases hopen
    · -- the chain found is the one of the live request
      intro r hr hen hhost hhash
      obtain ⟨hon, hne, ht, i, hl, hi⟩ := hw.wf.held r hr hen
      have hfd := hw.chainFd r hr hen ht i hl hi
      rw [hw.row r hr hen, hhost, hhash] at hl
      rw [hhash] at hne hi
      have hlookup := ((hw.wf.row _ _ _ hl).lookup_iff hne i).mpr hi
      have hopen := hok.of_hit hon hl hlookup
      rcases hw.own r hr with ⟨-, hdis⟩ | hown
      · rw [hen] at hdis
        cases hdis
      · rw [hfd, hown, Option.some.injEq, Prod.mk.injEq] at hopen
        exact hopen.2

end Step

/-! ## Whole runs -/

/-- As long as the kernel does not hand out a descriptor twice, every request
reads its own file in every state of a run exactly when the hash tells the
files of the run apart. -/
theorem vhost_files_iff (documentroot : HostId → Path) (fdtOn : Bool) (hosts : List HostId)
    (evs : List VhostEvent)
    (hk : (vhostMachine documentroot).AllSteps KernelFresh (mkVhostFdtWorkerInit fdtOn hosts) evs) :
    (vhostMachine documentroot).AllStates FilesOk (mkVhostFdtWorkerInit fdtOn hosts) evs ↔
      (vhostMachine documentroot).AllSteps (HashTells documentroot)
        (mkVhostFdtWorkerInit fdtOn hosts) evs :=
  (vhostMachine documentroot).allStates_iff_allSteps_of_env (fun _ hw => .of_own hw.own)
    filesWf_step (fun w e hw _ hg => not_filesOk_step w e hw hg) (filesWf_init fdtOn hosts) hk

/-- Three opens, two of them of one file, and a close. -/
theorem vhost_files_shared :
    (vhostMachine fun _ => [47, 119]).AllStates FilesOk (mkVhostFdtWorkerInit true [0])
      [.vhostOpen 0 [47, 119, 47, 97] (some 5), .vhostOpen 0 [47, 119, 47, 97] none,
        .vhostOpen 0 [47, 119, 47, 98] (some 6), .vhostClose 1] := by
  have ha : vhostHash (fun _ => [47, 119]) 0 [47, 119, 47, 97] ≠ 0 := by decide
  have hb : vhostHash (fun _ => [47, 119]) 0 [47, 119, 47, 98] ≠ 0 := by decide
  refine (vhost_files_iff _ true [0] _ ?_).mpr ⟨?_, ?_, ?_, ?_, trivial⟩
  · exact ⟨rfl, trivial, rfl, trivial, trivial⟩
  · exact ⟨fun h0 => absurd h0 ha, by simp [mkVhostFdtWorkerInit]⟩
  · refine ⟨fun h0 => absurd h0 ha, ?_⟩
    simp only
    decide
  · refine ⟨fun h0 => absurd h0 hb, ?_⟩
    simp only
    decide
  · exact ⟨trivial, trivial⟩

/-- `/h/ann/p/` and `/h/bob/p/`, the user-home paths of `/~ann/` and `/~bob/`,
under a document root of 13 bytes: the second request reads the first one's
file. -/
theorem vhost_files_user_home :
    let passwd : List UInt8 → Option Path := fun user => some ([47, 104, 47] ++ user)
    let documentroot : HostId → Path := fun _ =>
      [47, 118, 97, 114, 47, 119, 119, 119, 47, 104, 116, 109, 108]
    let ann : Path := [47, 104, 47, 97, 110, 110, 47, 112, 47]
    let bob : Path := [47, 104, 47, 98, 111, 98, 47, 112, 47]
    mkUserInit passwd [112] [47, 126, 97, 110, 110, 47] [32, 72] = .home ann ∧
    mkUserInit passwd [112] [47, 126, 98, 111, 98, 47] [32, 72] = .home bob ∧
    (vhostMachine documentroot).AllSteps KernelFresh (mkVhostFdtWorkerInit true [0])
      [.vhostOpen 0 ann (some 5), .vhostOpen 0 bob (some 6)] ∧
    ¬ FilesOk ((vhostMachine documentroot).run (mkVhostFdtWorkerInit true [0])
      [.vhostOpen 0 ann (some 5), .vhostOpen 0 bob (some 6)]) := by
  intro passwd documentroot ann bob
  refine ⟨by decide, by decide, ⟨rfl, ?_, trivial⟩, ?_⟩
  · show Worker.files _ 6 = none
    decide
  intro hok
  have hshare := hok.share ⟨0, ann, 39, 309106343, true, 5⟩ (by decide)
    ⟨0, bob, 39, 309106343, true, 5⟩ (by decide) (by decide) rfl
  exact absurd hshare.2 (by decide)

end SuperExe.Vhost
