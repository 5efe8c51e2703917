import SuperExe.Lib.Trace
import SuperExe.Vhost.Fdt
import Mathlib.Data.List.Count
import Mathlib.Data.Finset.Card
import Mathlib.Tactic.Common

/-! # The representation invariant of the descriptor table

A run is any sequence of `mk_vhost_fdt_open` and `mk_vhost_fdt_close` steps by
any requests, with arbitrary table ids, hashes and answers of `open(2)`. The
invariant ties the slot counter, the reader counts and the live requests
together (`TableOk`). It survives every step but one: empty chains carry hash
`0`, so opening a file whose hash is `0` while its row has a free chain is
taken for a hit and counts a reader on a chain without a descriptor.
`fdt_invariant_iff` says that nothing else can go wrong.
-/

namespace SuperExe.Vhost

open SuperExe.Lib

/-! ## The machine -/

/-- One step of a worker: a request opens its file through row `id`, or the
`k`-th live request gives its descriptor back. -/
inductive FdtEvent where
  | fdtOpen (host : HostId) (path : Path) (id : Fin fdtHashtableSize) (hash : UInt32)
      (ans : Option Nat)
  | fdtClose (k : Nat)

/-- The request stores the descriptor it got in `file_stream.fd` and is live
until it is closed. -/
def fdtStep (w : Worker) : FdtEvent → Worker
  | .fdtOpen host path id hash ans =>
    let r := mkVhostFdtOpen w id hash (requestFor host path) ans
    { r.1 with live := r.1.live ++ [{ r.2.1 with fd := r.2.2 }] }
  | .fdtClose k =>
    match w.live[k]? with
    | none => w
    | some sr => { mkVhostFdtClose w sr with live := w.live.eraseIdx k }

def fdtMachine : Machine Worker FdtEvent := ⟨fdtStep⟩

/-! ## The property -/

/-- The live requests that will find chain `i` of this row when they close. -/
def holders (live : List FdtRequest) (h : HostId) (id : Fin fdtHashtableSize) (ht : HashTable)
    (i : Fin fdtHashtableChains) : Nat :=
  live.countP fun r => r.vhostFdtEnabled && r.hostConf == h && r.vhostFdtId == id &&
    mkVhostFdtChainLookup r.vhostFdtHash ht == some i

/-- What the counters of a row promise. -/
structure TableOk (live : List FdtRequest) (h : HostId) (id : Fin fdtHashtableSize)
    (ht : HashTable) : Prop where
  slots : ht.avSlots = (Finset.univ.filter fun i => (ht.chain i).fd = -1).card
  range : 0 ≤ ht.avSlots ∧ ht.avSlots ≤ fdtHashtableChains
  busy : ∀ i, (ht.chain i).fd ≠ -1 ↔ 0 < (ht.chain i).readers
  readers : ∀ i, (ht.chain i).readers = holders live h id ht i
  distinct : ∀ i j, i ≠ j → (ht.chain i).fd ≠ -1 → (ht.chain j).fd ≠ -1 →
    (ht.chain i).hash ≠ (ht.chain j).hash

/-- Every row of every table of the worker keeps its promises. -/
def FdtOk (w : Worker) : Prop :=
  ∀ h id ht, mkVhostFdtTableLookup w id h = some ht → TableOk w.live h id ht

/-- The steps that do not mistake an empty chain for a hit: an open with hash
`0` only goes to a row without a free chain (or past the tables). -/
def ZeroHashFits (w : Worker) : FdtEvent → Prop
  | .fdtOpen host _ id hash _ =>
    hash = 0 → w.fdtOn = true → ∀ ht, mkVhostFdtTableLookup w id host = some ht →
      ∀ i, (ht.chain i).fd ≠ -1
  | .fdtClose _ => True

/-! ## Chain lookup -/

theorem chainLookup_hash {hash : UInt32} {ht : HashTable} {i : Fin fdtHashtableChains}
    (h : mkVhostFdtChainLookup hash ht = some i) : (ht.chain i).hash = hash := by
  simpa using List.find?_some h

theorem chainLookup_none {hash : UInt32} {ht : HashTable}
    (h : mkVhostFdtChainLookup hash ht = none) (i : Fin fdtHashtableChains) :
    (ht.chain i).hash ≠ hash := by
  have := List.find?_eq_none.mp h i (List.mem_finRange i)
  simpa using this

theorem freeChain_fd {ht : HashTable} {i : Fin fdtHashtableChains} (h : freeChain ht = some i) :
    (ht.chain i).fd = -1 := by
  simpa using List.find?_some h

/-- Some chain has the hash, so the lookup finds one. -/
theorem chainLookup_isSome (ht : HashTable) (i : Fin fdtHashtableChains) :
    ∃ j, mkVhostFdtChainLookup (ht.chain i).hash ht = some j := by
  cases h : mkVhostFdtChainLookup (ht.chain i).hash ht with
  | none => exact absurd rfl (chainLookup_none h i)
  | some j => exact ⟨j, rfl⟩

/-! ## The inductive invariant -/

/-- The live requests of a row that remember this hash. -/
def holdersOf (live : List FdtRequest) (h : HostId) (id : Fin fdtHashtableSize)
    (hash : UInt32) : Nat :=
  live.countP fun r => r.vhostFdtEnabled && r.hostConf == h && r.vhostFdtId == id &&
    r.vhostFdtHash == hash

/-- The row invariant in terms of hashes: a chain is free exactly when its hash
is `0`, and no two chains carry the same hash other than `0`. -/
structure RowWf (live : List FdtRequest) (h : HostId) (id : Fin fdtHashtableSize)
    (ht : HashTable) : Prop where
  slots : ht.avSlots = (Finset.univ.filter fun i => (ht.chain i).fd = -1).card
  busy : ∀ i, (ht.chain i).fd ≠ -1 ↔ 0 < (ht.chain i).readers
  readers : ∀ i, (ht.chain i).readers = holdersOf live h id (ht.chain i).hash
  free : ∀ i, (ht.chain i).fd = -1 ↔ (ht.chain i).hash = 0
  distinct : ∀ i j, i ≠ j → (ht.chain i).hash ≠ 0 → (ht.chain i).hash ≠ (ht.chain j).hash

/-- Every row is well formed, and a request that went through the table can
still find its chain there. -/
structure FdtWf (w : Worker) : Prop where
  row : ∀ h id ht, mkVhostFdtTableLookup w id h = some ht → RowWf w.live h id ht
  held : ∀ r ∈ w.live, r.vhostFdtEnabled = true → w.fdtOn = true ∧ r.vhostFdtHash ≠ 0 ∧
    ∃ ht i, mkVhostFdtTableLookup w r.vhostFdtId r.hostConf = some ht ∧
      (ht.chain i).hash = r.vhostFdtHash

/-- In a well-formed row the lookup of a hash other than `0` is exact. -/
theorem RowWf.lookup_iff {live : List FdtRequest} {h : HostId} {id : Fin fdtHashtableSize}
    {ht : HashTable} (hw : RowWf live h id ht) {hash : UInt32} (hne : hash ≠ 0)
    (i : Fin fdtHashtableChains) :
    mkVhostFdtChainLookup hash ht = some i ↔ (ht.chain i).hash = hash := by
  constructor
  · exact chainLookup_hash
  · intro hi
    subst hi
    obtain ⟨j, hj⟩ := chainLookup_isSome ht i
    rcases eq_or_ne i j with rfl | hij
    · exact hj
    · exact absurd (chainLookup_hash hj).symm (hw.distinct i j hij hne)

/-- Counting by hash and counting by lookup agree. -/
theorem FdtWf.holders_eq {w : Worker} (hw : FdtWf w) {h : HostId} {id : Fin fdtHashtableSize}
    {ht : HashTable} (hl : mkVhostFdtTableLookup w id h = some ht)
    (i : Fin fdtHashtableChains) :
    holders w.live h id ht i = holdersOf w.live h id (ht.chain i).hash := by
  apply List.countP_congr
  intro r hr
  simp only [Bool.and_eq_true, beq_iff_eq, and_congr_right_iff, and_assoc]
  rintro hen - -
  obtain ⟨-, hne, -⟩ := hw.held r hr hen
  rw [(hw.row h id ht hl).lookup_iff hne]
  exact eq_comm

/-- The inductive invariant gives the property. -/
theorem FdtWf.ok {w : Worker} (hw : FdtWf w) : FdtOk w := by
  intro h id ht hl
  have hrow := hw.row h id ht hl
  have hcard : (Finset.univ.filter fun i => (ht.chain i).fd = -1).card ≤ fdtHashtableChains :=
    le_trans (Finset.card_filter_le _ _) (by simp)
  refine ⟨hrow.slots, ?_, hrow.busy, ?_, ?_⟩
  · have := hrow.slots
    constructor <;> omega
  · intro i
    rw [hw.holders_eq hl]
    exact hrow.readers i
  · intro i j hij hi _
    exact hrow.distinct i j hij (fun h0 => hi ((hrow.free i).mpr h0))

/-- A worker fresh from `mk_vhost_fdt_worker_init` is well formed. -/
theorem fdtWf_init (fdtOn : Bool) (hosts : List HostId) :
    FdtWf (mkVhostFdtWorkerInit fdtOn hosts) := by
  refine ⟨?_, by simp [mkVhostFdtWorkerInit]⟩
  intro h id ht hl
  have hht : ht = emptyTable := by
    simp only [mkVhostFdtTableLookup, mkVhostFdtWorkerInit] at hl
    split at hl <;> simp_all
  subst hht
  constructor <;> simp [emptyTable, emptyChain, holdersOf, mkVhostFdtWorkerInit]

/-! ## Frame lemmas -/

@[simp] theorem sysOpen_fdt (w : Worker) (sr : FdtRequest) (ans : Option Nat) :
    (sysOpen w sr ans).1.fdt = w.fdt := by
  cases ans <;> rfl

@[simp] theorem sysOpen_fdtOn (w : Worker) (sr : FdtRequest) (ans : Option Nat) :
    (sysOpen w sr ans).1.fdtOn = w.fdtOn := by
  cases ans <;> rfl

@[simp] theorem sysOpen_live (w : Worker) (sr : FdtRequest) (ans : Option Nat) :
    (sysOpen w sr ans).1.live = w.live := by
  cases ans <;> rfl

/-- Looking a row up after one row was written back. -/
theorem tableLookup_setTable {w w' : Worker} {h : HostId} {id : Fin fdtHashtableSize}
    {ht ht' : HashTable} (hl : mkVhostFdtTableLookup w id h = some ht)
    (hfdt : w'.fdt = (setTable w h id ht').fdt) (id₂ : Fin fdtHashtableSize) (h₂ : HostId) :
    mkVhostFdtTableLookup w' id₂ h₂ =
      if h₂ = h ∧ id₂ = id then some ht' else mkVhostFdtTableLookup w id₂ h₂ := by
  unfold mkVhostFdtTableLookup setTable at *
  rw [hfdt]
  obtain ⟨t, ht₀, -⟩ := Option.map_eq_some_iff.mp hl
  by_cases hh : h₂ = h
  · subst hh
    by_cases hid : id₂ = id
    · simp [hid, ht₀]
    · simp [hid, ht₀]
  · simp [hh]

theorem holdersOf_append (live : List FdtRequest) (r : FdtRequest) (h : HostId)
    (id : Fin fdtHashtableSize) (hash : UInt32) :
    holdersOf (live ++ [r]) h id hash = holdersOf live h id hash +
      if r.vhostFdtEnabled = true ∧ r.hostConf = h ∧ r.vhostFdtId = id ∧ r.vhostFdtHash = hash
      then 1 else 0 := by
  simp [holdersOf, List.countP_append, List.countP_cons, and_assoc]

/-- A request counts for its own row only. -/
theorem holdersOf_append_other (live : List FdtRequest) {r : FdtRequest} {h h₂ : HostId}
    {id id₂ : Fin fdtHashtableSize} (hr : r.hostConf = h) (hid : r.vhostFdtId = id)
    (hother : ¬ (h₂ = h ∧ id₂ = id)) (hash : UInt32) :
    holdersOf (live ++ [r]) h₂ id₂ hash = holdersOf live h₂ id₂ hash := by
  rw [holdersOf_append, if_neg, Nat.add_zero]
  rintro ⟨-, rfl, rfl, -⟩
  exact hother ⟨hr, hid⟩

theorem holdersOf_eraseIdx {live : List FdtRequest} {k : Nat} {r : FdtRequest}
    (hk : live[k]? = some r) (h : HostId) (id : Fin fdtHashtableSize) (hash : UInt32) :
    holdersOf live h id hash = holdersOf (live.eraseIdx k) h id hash +
      if r.vhostFdtEnabled = true ∧ r.hostConf = h ∧ r.vhostFdtId = id ∧ r.vhostFdtHash = hash
      then 1 else 0 := by
  obtain ⟨hlt, rfl⟩ := List.getElem?_eq_some_iff.mp hk
  have hperm := (List.getElem_cons_eraseIdx_perm hlt).countP_eq fun r : FdtRequest =>
    r.vhostFdtEnabled && r.hostConf == h && r.vhostFdtId == id && r.vhostFdtHash == hash
  rw [holdersOf, ← hperm]
  simp [holdersOf, List.countP_cons, and_assoc]

theorem holdersOf_eraseIdx_other {live : List FdtRequest} {k : Nat} {r : FdtRequest}
    (hk : live[k]? = some r) {h h₂ : HostId} {id id₂ : Fin fdtHashtableSize}
    (hr : r.hostConf = h) (hid : r.vhostFdtId = id) (hother : ¬ (h₂ = h ∧ id₂ = id))
    (hash : UInt32) :
    holdersOf live h₂ id₂ hash = holdersOf (live.eraseIdx k) h₂ id₂ hash := by
  rw [holdersOf_eraseIdx hk, if_neg, Nat.add_zero]
  rintro ⟨-, rfl, rfl, -⟩
  exact hother ⟨hr, hid⟩

/-! ## What an open and a close can do -/

/-- The row after the readers of chain `i` changed by `d`. -/
def HashTable.addReaders (ht : HashTable) (i : Fin fdtHashtableChains) (d : Int) : HashTable :=
  ht.setChain i { ht.chain i with readers := (ht.chain i).readers + d }

/-- The row after descriptor `fd` was registered in the free chain `i`. -/
def HashTable.register (ht : HashTable) (i : Fin fdtHashtableChains) (fd : Int)
    (hash : UInt32) : HashTable :=
  { ht.setChain i { fd := fd, hash := hash, readers := (ht.chain i).readers + 1 } with
    avSlots := ht.avSlots - 1 }

/-- The row after the last reader of chain `i` left. -/
def HashTable.vacate (ht : HashTable) (i : Fin fdtHashtableChains) : HashTable :=
  { ht.setChain i { fd := -1, hash := 0, readers := 0 } with avSlots := ht.avSlots + 1 }

/-- The three outcomes of `mk_vhost_fdt_open`: a private descriptor, a hit, a
miss that registers the new descriptor. -/
theorem fdtOpen_cases (w : Worker) (id : Fin fdtHashtableSize) (hash : UInt32) (sr : FdtRequest)
    (ans : Option Nat) :
    mkVhostFdtOpen w id hash sr ans = ((sysOpen w sr ans).1, sr, (sysOpen w sr ans).2) ∨
    (∃ ht i, w.fdtOn = true ∧ mkVhostFdtTableLookup w id sr.hostConf = some ht ∧
      mkVhostFdtChainLookup hash ht = some i ∧
      mkVhostFdtOpen w id hash sr ans =
        (setTable w sr.hostConf id (ht.addReaders i 1), sr.enabled id hash, (ht.chain i).fd)) ∨
    (∃ ht i n, w.fdtOn = true ∧ mkVhostFdtTableLookup w id sr.hostConf = some ht ∧
      mkVhostFdtChainLookup hash ht = none ∧ ans = some n ∧ freeChain ht = some i ∧
      mkVhostFdtOpen w id hash sr ans =
        (setTable (sysOpen w sr ans).1 sr.hostConf id (ht.register i n hash),
          sr.enabled id hash, (n : Int))) := by
  by_cases hon : w.fdtOn = false
  · left
    simp [mkVhostFdtOpen, hon]
  · have hon' : w.fdtOn = true := by simpa using hon
    cases hl : mkVhostFdtTableLookup w id sr.hostConf with
    | none =>
      left
      simp [mkVhostFdtOpen, hon', hl]
    | some ht =>
      cases hc : mkVhostFdtChainLookup hash ht with
      | some i =>
        right; left
        exact ⟨ht, i, hon', rfl, hc, by simp [mkVhostFdtOpen, hon', hl, hc, HashTable.addReaders]⟩
      | none =>
        cases ans with
        | none =>
          left
          simp [mkVhostFdtOpen, hon', hl, hc, sysOpen]
        | some n =>
          -- a full row, by its counter or by its chains, hands out a private descriptor
          by_cases hav : ht.avSlots ≤ 0
          · left
            simp [mkVhostFdtOpen, hon', hl, hc, sysOpen, hav]
          · cases hf : freeChain ht with
            | none =>
              left
              simp [mkVhostFdtOpen, hon', hl, hc, sysOpen, hav, hf]
            | some i =>
              right; right
              refine ⟨ht, i, n, hon', rfl, hc, rfl, hf, ?_⟩
              simp [mkVhostFdtOpen, hon', hl, hc, sysOpen, hav, hf, HashTable.register]

/-- The outcomes of `mk_vhost_fdt_close`. -/
theorem fdtClose_cases (w : Worker) (sr : FdtRequest) :
    ((w.fdtOn = false ∨ sr.vhostFdtEnabled = false) ∧
      mkVhostFdtClose w sr = if sr.fd > 0 then sysClose w sr.fd else w) ∨
    (sr.vhostFdtEnabled = true ∧
      (∀ ht, mkVhostFdtTableLookup w sr.vhostFdtId sr.hostConf = some ht →
        mkVhostFdtChainLookup sr.vhostFdtHash ht = none) ∧
      mkVhostFdtClose w sr = sysClose w sr.fd) ∨
    (∃ ht i, sr.vhostFdtEnabled = true ∧
      mkVhostFdtTableLookup w sr.vhostFdtId sr.hostConf = some ht ∧
      mkVhostFdtChainLookup sr.vhostFdtHash ht = some i ∧
      ((ht.chain i).readers - 1 = 0 ∧
        mkVhostFdtClose w sr =
          sysClose (setTable w sr.hostConf sr.vhostFdtId (ht.vacate i)) sr.fd ∨
       (ht.chain i).readers - 1 ≠ 0 ∧
        mkVhostFdtClose w sr = setTable w sr.hostConf sr.vhostFdtId (ht.addReaders i (-1)))) := by
  -- a file of its own is closed, a shared one only by its last reader
  by_cases hpriv : w.fdtOn = false ∨ sr.vhostFdtEnabled = false
  · left
    exact ⟨hpriv, by simp [mkVhostFdtClose, hpriv]⟩
  · have hen : sr.vhostFdtEnabled = true := by
      simpa using fun h => hpriv (Or.inr h)
    right
    cases hl : mkVhostFdtTableLookup w sr.vhostFdtId sr.hostConf with
    | none =>
      left
      exact ⟨hen, by simp, by simp [mkVhostFdtClose, hpriv, hl]⟩
    | some ht =>
      cases hc : mkVhostFdtChainLookup sr.vhostFdtHash ht with
      | none =>
        left
        refine ⟨hen, ?_, by simp [mkVhostFdtClose, hpriv, hl, hc]⟩
        rintro ht' ⟨⟩
        exact hc
      | some i =>
        right
        refine ⟨ht, i, hen, rfl, hc, ?_⟩
        by_cases h0 : (ht.chain i).readers - 1 = 0
        · left
          exact ⟨h0, by simp [mkVhostFdtClose, hpriv, hl, hc, h0, HashTable.vacate]⟩
        · right
          refine ⟨h0, ?_⟩
          simp only [mkVhostFdtClose, if_neg hpriv, hl, hc, if_neg h0]
          rfl

/-- A row that no request of `live` changed by keeps its invariant. -/
theorem RowWf.congr_live {live live' : List FdtRequest} {h : HostId} {id : Fin fdtHashtableSize}
    {ht : HashTable} (hw : RowWf live h id ht)
    (hl : ∀ hash, holdersOf live' h id hash = holdersOf live h id hash) :
    RowWf live' h id ht := by
  refine ⟨hw.slots, hw.busy, ?_, hw.free, hw.distinct⟩
  intro i
  rw [hl]
  exact hw.readers i

@[simp] theorem addReaders_fd (ht : HashTable) (i j : Fin fdtHashtableChains) (d : Int) :
    ((ht.addReaders i d).chain j).fd = (ht.chain j).fd := by
  by_cases hj : j = i <;> simp [HashTable.addReaders, HashTable.setChain, Function.update, hj]

@[simp] theorem addReaders_hash (ht : HashTable) (i j : Fin fdtHashtableChains) (d : Int) :
    ((ht.addReaders i d).chain j).hash = (ht.chain j).hash := by
  by_cases hj : j = i <;> simp [HashTable.addReaders, HashTable.setChain, Function.update, hj]

theorem register_self (ht : HashTable) (i : Fin fdtHashtableChains) (fd : Int) (hash : UInt32) :
    (ht.register i fd hash).chain i =
      { fd := fd, hash := hash, readers := (ht.chain i).readers + 1 } := by
  simp [HashTable.register, HashTable.setChain]

theorem register_other (ht : HashTable) {i j : Fin fdtHashtableChains} (fd : Int)
    (hash : UInt32) (hj : j ≠ i) : (ht.register i fd hash).chain j = ht.chain j := by
  simp [HashTable.register, HashTable.setChain, hj]

theorem vacate_self (ht : HashTable) (i : Fin fdtHashtableChains) :
    (ht.vacate i).chain i = emptyChain := by
  simp [HashTable.vacate, HashTable.setChain, emptyChain]

theorem vacate_other (ht : HashTable) {i j : Fin fdtHashtableChains} (hj : j ≠ i) :
    (ht.vacate i).chain j = ht.chain j := by
  simp [HashTable.vacate, HashTable.setChain, hj]

section Row

variable {live live' : List FdtRequest} {h : HostId} {id : Fin fdtHashtableSize} {ht : HashTable}
  {i : Fin fdtHashtableChains}

theorem RowWf.fd_ne (hw : RowWf live h id ht) (hi : (ht.chain i).hash ≠ 0) :
    (ht.chain i).fd ≠ -1 := fun h0 => hi ((hw.free i).mp h0)

/-- A free chain has no reader. -/
theorem RowWf.readers_free (hw : RowWf live h id ht) (hi : (ht.chain i).fd = -1) :
    (ht.chain i).readers = 0 := by
  have hnot : ¬ 0 < (ht.chain i).readers := fun hpos => (hw.busy i).mpr hpos hi
  have := hw.readers i
  omega

/-- Readers join or leave a busy chain that keeps at least one of them. -/
theorem RowWf.addReaders (hw : RowWf live h id ht) (hi : (ht.chain i).hash ≠ 0) {d : Int}
    (hpos : 0 < (ht.chain i).readers + d)
    (hl : ∀ hash, (holdersOf live' h id hash : Int) = holdersOf live h id hash +
      if (ht.chain i).hash = hash then d else 0) :
    RowWf live' h id (ht.addReaders i d) := by
  have hself : ((ht.addReaders i d).chain i).readers = (ht.chain i).readers + d := by
    simp [HashTable.addReaders, HashTable.setChain]
  have hother : ∀ j, j ≠ i → ((ht.addReaders i d).chain j).readers = (ht.chain j).readers := by
    intro j hj
    simp [HashTable.addReaders, HashTable.setChain, hj]
  refine ⟨?_, ?_, ?_, ?_, ?_⟩
  · simp only [addReaders_fd]
    exact hw.slots
  · intro j
    rw [addReaders_fd]
    by_cases hj : j = i
    · subst hj
      rw [hself]
      exact ⟨fun _ => hpos, fun _ => hw.fd_ne hi⟩
    · rw [hother j hj]
      exact hw.busy j
  · intro j
    rw [addReaders_hash, hl]
    by_cases hj : j = i
    · subst hj
      rw [hself, hw.readers j]
      simp
    · -- no other chain has this hash, so its count does not move
      have hne : (ht.chain i).hash ≠ (ht.chain j).hash := hw.distinct i j (Ne.symm hj) hi
      rw [hother j hj, hw.readers j]
      simp [hne]
  · intro j
    rw [addReaders_fd, addReaders_hash]
    exact hw.free j
  · intro j k
    rw [addReaders_hash, addReaders_hash]
    exact hw.distinct j k

/-- A miss registers the descriptor in a free chain. -/
theorem RowWf.register (hw : RowWf live h id ht) {fd : Int} {hash : UInt32}
    (hi : (ht.chain i).fd = -1) (hfd : fd ≠ -1) (hne : hash ≠ 0)
    (hnew : ∀ j, (ht.chain j).hash ≠ hash) (hzero : holdersOf live h id hash = 0)
    (hl : ∀ hash', holdersOf live' h id hash' = holdersOf live h id hash' +
      if hash = hash' then 1 else 0) :
    RowWf live' h id (ht.register i fd hash) := by
  -- only the chain that was free changes; each part goes by whether it is this one
  have hself := register_self ht i fd hash
  have hother : ∀ j, j ≠ i → (ht.register i fd hash).chain j = ht.chain j :=
    fun j hj => register_other ht fd hash hj
  have hr0 := hw.readers_free hi
  refine ⟨?_, ?_, ?_, ?_, ?_⟩
  · -- one free chain less
    have hset : (Finset.univ.filter fun j => ((ht.register i fd hash).chain j).fd = -1) =
        (Finset.univ.filter fun j => (ht.chain j).fd = -1).erase i := by
      ext j
      by_cases hj : j = i
      · subst hj
        simp [hself, hfd]
      · simp [hother j hj, hj]
    have hmem : i ∈ Finset.univ.filter fun j => (ht.chain j).fd = -1 := by simp [hi]
    have hpos := Finset.card_pos.mpr ⟨i, hmem⟩
    rw [hset, Finset.card_erase_of_mem hmem]
    show ht.avSlots - 1 = _
    rw [hw.slots]
    omega
  · intro j
    by_cases hj : j = i
    · subst hj
      rw [hself]
      simp only [hr0]
      simp [hfd]
    · rw [hother j hj]
      exact hw.busy j
  · intro j
    rw [hl]
    by_cases hj : j = i
    · subst hj
      rw [hself]
      simp [hr0, hzero]
    · rw [hother j hj, hw.readers j]
      simp [(hnew j).symm]
  · intro j
    by_cases hj : j = i
    · subst hj
      rw [hself]
      simp [hfd, hne]
    · rw [hother j hj]
      exact hw.free j
  · intro j k hjk
    by_cases hj : j = i
    · subst hj
      rw [hself, hother k (Ne.symm hjk)]
      exact fun _ => (hnew k).symm
    · rw [hother j hj]
      by_cases hk : k = i
      · subst hk
        rw [hself]
        exact fun _ => hnew j
      · rw [hother k hk]
        exact hw.distinct j k hjk

/-- The last reader leaves and the chain becomes free. -/
theorem RowWf.vacate (hw : RowWf live h id ht) (hi : (ht.chain i).hash ≠ 0)
    (hzero : holdersOf live h id 0 = 0)
    (hl : ∀ hash, holdersOf live h id hash = holdersOf live' h id hash +
      if (ht.chain i).hash = hash then 1 else 0) :
    RowWf live' h id (ht.vacate i) := by
  have hself := vacate_self ht i
  have hother : ∀ j, j ≠ i → (ht.vacate i).chain j = ht.chain j :=
    fun j hj => vacate_other ht hj
  have hbusy := hw.fd_ne hi
  refine ⟨?_, ?_, ?_, ?_, ?_⟩
  · -- one free chain more
    have hset : (Finset.univ.filter fun j => ((ht.vacate i).chain j).fd = -1) =
        insert i (Finset.univ.filter fun j => (ht.chain j).fd = -1) := by
      ext j
      by_cases hj : j = i
      · subst hj
        simp [hself, emptyChain]
      · simp [hother j hj, hj]
    rw [hset, Finset.card_insert_of_notMem (by simp [hbusy])]
    show ht.avSlots + 1 = _
    rw [hw.slots]
    push_cast
    rfl
  · intro j
    by_cases hj : j = i
    · subst hj
      simp [hself, emptyChain]
    · rw [hother j hj]
      exact hw.busy j
  · intro j
    by_cases hj : j = i
    · subst hj
      -- the chain has hash `0` now, which no request holds
      have h0 := hl 0
      rw [hself]
      show (0 : Int) = holdersOf live' h id 0
      omega
    · have hne : (ht.chain i).hash ≠ (ht.chain j).hash := hw.distinct i j (Ne.symm hj) hi
      have hj' := hw.readers j
      rw [hl] at hj'
      rw [hother j hj]
      simpa [hne] using hj'
  · intro j
    by_cases hj : j = i
    · subst hj
      simp [hself, emptyChain]
    · rw [hother j hj]
      exact hw.free j
  · intro j k hjk
    by_cases hj : j = i
    · subst hj
      simp [hself, emptyChain]
    · rw [hother j hj]
      intro hne
      by_cases hk : k = i
      · subst hk
        rw [hself]
        exact hne
      · rw [hother k hk]
        exact hw.distinct j k hjk hne

end Row

/-! ## One step -/

section Step

variable {w w' : Worker}

/-- A step that leaves the tables alone and whose requests all count as before. -/
theorem FdtWf.of_fdt_eq (hw : FdtWf w) (hfdt : w'.fdt = w.fdt) (hon : w'.fdtOn = w.fdtOn)
    (hcount : ∀ h id hash, holdersOf w'.live h id hash = holdersOf w.live h id hash)
    (hmem : ∀ r ∈ w'.live, r.vhostFdtEnabled = true → r ∈ w.live) : FdtWf w' := by
  have hlookup : ∀ id h, mkVhostFdtTableLookup w' id h = mkVhostFdtTableLookup w id h := by
    intro id h
    unfold mkVhostFdtTableLookup
    rw [hfdt]
  constructor
  · intro h id ht hl
    rw [hlookup] at hl
    exact (hw.row h id ht hl).congr_live (hcount h id)
  · intro r hr hen
    rw [hon]
    simpa only [hlookup] using hw.held r (hmem r hr hen) hen

/-- A step that writes one row back: that row has to be checked, the requests
of the others must count as before, and a hash that is still held keeps its
chain. -/
theorem FdtWf.of_setTable (hw : FdtWf w) {h : HostId} {id : Fin fdtHashtableSize}
    {ht ht' : HashTable} (hl : mkVhostFdtTableLookup w id h = some ht)
    (hfdt : w'.fdt = (setTable w h id ht').fdt) (hon : w'.fdtOn = w.fdtOn)
    (hrow : RowWf w'.live h id ht')
    (hcount : ∀ h₂ id₂, ¬ (h₂ = h ∧ id₂ = id) → ∀ hash,
      holdersOf w'.live h₂ id₂ hash = holdersOf w.live h₂ id₂ hash)
    (hkeep : ∀ j, (ht.chain j).hash ≠ 0 → 0 < holdersOf w'.live h id (ht.chain j).hash →
      ∃ i, (ht'.chain i).hash = (ht.chain j).hash)
    (hnew : ∀ r ∈ w'.live, r.vhostFdtEnabled = true → r ∈ w.live ∨
      w.fdtOn = true ∧ r.vhostFdtHash ≠ 0 ∧ r.hostConf = h ∧ r.vhostFdtId = id ∧
        ∃ i, (ht'.chain i).hash = r.vhostFdtHash) : FdtWf w' := by
  have hlookup := tableLookup_setTable hl hfdt
  constructor
  · intro h₂ id₂ ht₂ hl₂
    rw [hlookup] at hl₂
    by_cases hsame : h₂ = h ∧ id₂ = id
    · rw [if_pos hsame] at hl₂
      obtain ⟨rfl, rfl⟩ := hsame
      cases hl₂
      exact hrow
    · rw [if_neg hsame] at hl₂
      exact (hw.row h₂ id₂ ht₂ hl₂).congr_live (hcount h₂ id₂ hsame)
  · intro r hr hen
    rw [hon]
    rcases hnew r hr hen with hold | ⟨hfdtOn, hne, rfl, rfl, i, hi⟩
    · obtain ⟨hfdtOn, hne, ht₂, j, hl₂, hj⟩ := hw.held r hold hen
      by_cases hsame : r.hostConf = h ∧ r.vhostFdtId = id
      · -- the request shares a chain of the row that was written back
        obtain ⟨rfl, rfl⟩ := hsame
        rw [hl] at hl₂
        cases hl₂
        have hheld : 0 < holdersOf w'.live r.hostConf r.vhostFdtId (ht.chain j).hash := by
          rw [hj]
          exact List.countP_pos_iff.mpr ⟨r, hr, by simp [hen]⟩
        obtain ⟨i, hi⟩ := hkeep j (hj ▸ hne) hheld
        exact ⟨hfdtOn, hne, ht', i, by simp [hlookup], hi.trans hj⟩
      · exact ⟨hfdtOn, hne, ht₂, j, by rw [hlookup, if_neg hsame]; exact hl₂, hj⟩
    · exact ⟨hfdtOn, hne, ht', i, by simp [hlookup], hi⟩

/-- Nobody holds the hash `0`. -/
theorem FdtWf.holdersOf_zero (hw : FdtWf w) (h : HostId) (id : Fin fdtHashtableSize) :
    holdersOf w.live h id 0 = 0 := by
  apply List.countP_eq_zero.mpr
  intro r hr
  by_cases hen : r.vhostFdtEnabled = true
  · simp [(hw.held r hr hen).2.1]
  · simp [hen]

/-- Nobody holds a hash that no chain of the row carries. -/
theorem FdtWf.holdersOf_absent (hw : FdtWf w) {h : HostId} {id : Fin fdtHashtableSize}
    {ht : HashTable} (hl : mkVhostFdtTableLookup w id h = some ht) {hash : UInt32}
    (hnew : ∀ i, (ht.chain i).hash ≠ hash) : holdersOf w.live h id hash = 0 := by
  apply List.countP_eq_zero.mpr
  intro r hr hmatch
  simp only [Bool.and_eq_true, beq_iff_eq] at hmatch
  obtain ⟨⟨⟨hen, rfl⟩, rfl⟩, rfl⟩ := hmatch
  obtain ⟨-, -, ht', i, hl', hi⟩ := hw.held r hr hen
  rw [hl] at hl'
  cases hl'
  exact hnew i hi

/-- An open that fits keeps the invariant. -/
theorem fdtWf_fdtOpen (hw : FdtWf w) {host : HostId} {path : Path}
    {id : Fin fdtHashtableSize} {hash : UInt32} {ans : Option Nat}
    (hfit : ZeroHashFits w (.fdtOpen host path id hash ans)) :
    FdtWf (fdtStep w (.fdtOpen host path id hash ans)) := by
  -- by what `mk_vhost_fdt_open` finds for the hash
  rcases fdtOpen_cases w id hash (requestFor host path) ans with
    heq | ⟨ht, i, hon, hl, hi, heq⟩ | ⟨ht, i, n, hon, hl, hi, rfl, hf, heq⟩
  · -- a private descriptor: the new request is not in any table
    simp only [fdtStep, heq]
    refine hw.of_fdt_eq (by simp) (by simp) ?_ ?_
    · intro h₂ id₂ hash₂
      simp [holdersOf_append, requestFor]
    · intro r hr hen
      rcases List.mem_append.mp hr with hold | hnew
      · simpa using hold
      · rw [List.mem_singleton] at hnew
        simp [hnew, requestFor] at hen
  · -- a hit: the chain is busy, because only free chains carry hash `0`
    have hrow := hw.row _ _ _ hl
    have hhash := chainLookup_hash hi
    have hne : (ht.chain i).hash ≠ 0 := by
      intro h0
      exact hfit (hhash ▸ h0) hon ht hl i ((hrow.free i).mpr h0)
    have hpos := (hrow.busy i).mp (hrow.fd_ne hne)
    simp only [fdtStep, heq]
    refine hw.of_setTable hl rfl rfl ?_ ?_ ?_ ?_
    · apply hrow.addReaders hne (by omega)
      intro hash₂
      show ((holdersOf (w.live ++ _) _ _ _ : Nat) : Int) = _
      rw [holdersOf_append, hhash]
      by_cases hsame : hash = hash₂ <;> simp [requestFor, FdtRequest.enabled, hsame]
    · exact fun h₂ id₂ hother hash₂ => holdersOf_append_other _ rfl rfl hother hash₂
    · exact fun j _ _ => ⟨j, addReaders_hash ht i j 1⟩
    · intro r hr _
      rcases List.mem_append.mp hr with hold | hnew
      · exact Or.inl hold
      · rw [List.mem_singleton] at hnew
        subst hnew
        exact Or.inr ⟨hon, hhash ▸ hne, rfl, rfl, i, (addReaders_hash ht i i 1).trans hhash⟩
  · -- a miss: the descriptor goes to a chain of its own
    have hrow := hw.row _ _ _ hl
    have hfd := freeChain_fd hf
    have hnew := chainLookup_none hi
    have hne : hash ≠ 0 := fun h0 => hfit h0 hon ht hl i hfd
    have hset : (setTable (sysOpen w (requestFor host path) (some n)).1 host id
        (ht.register i n hash)).fdt = (setTable w host id (ht.register i n hash)).fdt := by
      simp [setTable]
    simp only [fdtStep, heq]
    refine hw.of_setTable hl hset rfl ?_ ?_ ?_ ?_
    · apply hrow.register hfd (by omega) hne hnew (hw.holdersOf_absent hl hnew)
      intro hash₂
      show holdersOf (w.live ++ _) _ _ _ = _
      rw [holdersOf_append]
      simp [requestFor, FdtRequest.enabled]
    · exact fun h₂ id₂ hother hash₂ => holdersOf_append_other _ rfl rfl hother hash₂
    · intro j hj0 _
      by_cases hj : j = i
      · subst hj
        exact absurd hfd (hrow.fd_ne hj0)
      · exact ⟨j, by rw [register_other ht _ _ hj]⟩
    · intro r hr _
      rcases List.mem_append.mp hr with hold | hnew
      · exact Or.inl hold
      · rw [List.mem_singleton] at hnew
        subst hnew
        exact Or.inr ⟨hon, hne, rfl, rfl, i, by rw [register_self]; rfl⟩

/-- A close keeps the invariant. -/
theorem fdtWf_fdtClose (hw : FdtWf w) (k : Nat) : FdtWf (fdtStep w (.fdtClose k)) := by
  cases hk : w.live[k]? with
  | none => simpa only [fdtStep, hk] using hw
  | some sr =>
    have hmem : sr ∈ w.live := List.mem_of_getElem? hk
    have hcount := fun h id hash => holdersOf_eraseIdx hk h id hash
    -- by what `mk_vhost_fdt_close` finds for the request
    rcases fdtClose_cases w sr with
      ⟨hpriv, heq⟩ | ⟨hen, hno, -⟩ | ⟨ht, i, hen, hl, hi, ⟨hr, heq⟩ | ⟨hr, heq⟩⟩
    · -- a private descriptor
      have hdis : sr.vhostFdtEnabled = false := by
        rcases hpriv with hoff | hdis
        · by_contra hen
          simp [(hw.held sr hmem (by simpa using hen)).1] at hoff
        · exact hdis
      simp only [fdtStep, hk, heq]
      refine hw.of_fdt_eq (by split <;> rfl) (by split <;> rfl) ?_ ?_
      · intro h id hash
        simpa [hdis] using (hcount h id hash).symm
      · exact fun r hr _ => List.mem_of_mem_eraseIdx hr
    · -- a request that went through the table finds its chain
      obtain ⟨-, -, ht, i, hl, hi⟩ := hw.held sr hmem hen
      exact absurd hi (chainLookup_none (hno ht hl) i)
    · -- the last reader
      have hrow := hw.row _ _ _ hl
      have hhash := chainLookup_hash hi
      have hne : (ht.chain i).hash ≠ 0 := hhash ▸ (hw.held sr hmem hen).2.1
      have hlast : holdersOf (w.live.eraseIdx k) sr.hostConf sr.vhostFdtId (ht.chain i).hash = 0 := by
        have h1 := hrow.readers i
        rw [hcount] at h1
        simp [hen, hhash] at h1
        rw [hhash]
        omega
      simp only [fdtStep, hk, heq]
      refine hw.of_setTable hl rfl rfl ?_ ?_ ?_ ?_
      · apply hrow.vacate hne (hw.holdersOf_zero _ _)
        intro hash
        rw [hcount]
        simp [hen, hhash]
      · intro h₂ id₂ hother hash
        exact (holdersOf_eraseIdx_other hk rfl rfl hother hash).symm
      · intro j hj0 hheld
        by_cases hj : j = i
        · subst hj
          exact absurd hlast (Nat.pos_iff_ne_zero.mp hheld)
        · exact ⟨j, by rw [vacate_other ht hj]⟩
      · exact fun r hr _ => Or.inl (List.mem_of_mem_eraseIdx hr)
    · -- other readers stay
      have hrow := hw.row _ _ _ hl
      have hhash := chainLookup_hash hi
      have hne : (ht.chain i).hash ≠ 0 := hhash ▸ (hw.held sr hmem hen).2.1
      have hpos := (hrow.busy i).mp (hrow.fd_ne hne)
      simp only [fdtStep, hk, heq]
      refine hw.of_setTable hl rfl rfl ?_ ?_ ?_ ?_
      · apply hrow.addReaders hne (by omega)
        intro hash
        rw [hcount sr.hostConf sr.vhostFdtId hash, hhash]
        by_cases hsame : sr.vhostFdtHash = hash
        · rw [if_pos ⟨hen, rfl, rfl, hsame⟩, if_pos hsame]
          dsimp only
          omega
        · simp [hen, hsame]
      · intro h₂ id₂ hother hash
        exact (holdersOf_eraseIdx_other hk rfl rfl hother hash).symm
      · exact fun j _ _ => ⟨j, addReaders_hash ht i j (-1)⟩
      · exact fun r hr _ => Or.inl (List.mem_of_mem_eraseIdx hr)

/-- Every step that fits keeps the invariant. -/
theorem fdtWf_step (w : Worker) (e : FdtEvent) (hw : FdtWf w) (hfit : ZeroHashFits w e) :
    FdtWf (fdtStep w e) := by
  cases e with
  | fdtOpen host path id hash ans => exact fdtWf_fdtOpen hw hfit
  | fdtClose k => exact fdtWf_fdtClose hw k

/-- An open with hash `0` that finds a free chain leaves a reader on it. -/
theorem not_fdtOk_step (w : Worker) (e : FdtEvent) (hw : FdtWf w) (hfit : ¬ ZeroHashFits w e) :
    ¬ FdtOk (fdtStep w e) := by
  cases e with
  | fdtClose k => exact absurd trivial hfit
  | fdtOpen host path id hash ans =>
    simp only [ZeroHashFits, Classical.not_imp, not_forall, not_not] at hfit
    obtain ⟨rfl, hon, ht, hl, i, hi⟩ := hfit
    have hrow := hw.row _ _ _ hl
    obtain ⟨j, hj⟩ := chainLookup_isSome ht i
    rw [(hrow.free i).mp hi] at hj
    have hfree : (ht.chain j).fd = -1 := (hrow.free j).mpr (chainLookup_hash hj)
    have hreaders := hrow.readers_free hfree
    intro hok
    have hl' : mkVhostFdtTableLookup (fdtStep w (.fdtOpen host path id 0 ans)) id host =
        some (ht.addReaders j 1) := by
      have hstep : (fdtStep w (.fdtOpen host path id 0 ans)).fdt =
          (setTable w host id (ht.addReaders j 1)).fdt := by
        simp [fdtStep, mkVhostFdtOpen, hon, requestFor, hl, hj, HashTable.addReaders]
      rw [tableLookup_setTable hl hstep]
      simp
    have hbusy := ((hok host id _ hl').busy j).mpr (by
      simp [HashTable.addReaders, HashTable.setChain, hreaders])
    exact hbusy ((addReaders_fd ht j j 1).trans hfree)

end Step

/-! ## Whole runs -/

/-- From a fresh table, the representation invariant holds in every state of a
run exactly when no step opens a file of hash `0` in a row with a free chain. -/
theorem fdt_invariant_iff (fdtOn : Bool) (hosts : List HostId) (evs : List FdtEvent) :
    fdtMachine.AllStates FdtOk (mkVhostFdtWorkerInit fdtOn hosts) evs ↔
      fdtMachine.AllSteps ZeroHashFits (mkVhostFdtWorkerInit fdtOn hosts) evs :=
  fdtMachine.allStates_iff_allSteps (fun _ hw => hw.ok) fdtWf_step not_fdtOk_step
    (fdtWf_init fdtOn hosts) evs

/-- One open with hash `0` on a fresh table: chain `0` has a reader and no
descriptor. -/
theorem fdt_invariant_zero_hash :
    ¬ FdtOk (fdtMachine.run (mkVhostFdtWorkerInit true [0]) [.fdtOpen 0 [47] 0 0 (some 5)]) := by
  intro hok
  have hrow := hok 0 0 _ rfl
  have hbusy := (hrow.busy 0).mpr (by decide)
  exact hbusy (by decide)

end SuperExe.Vhost
