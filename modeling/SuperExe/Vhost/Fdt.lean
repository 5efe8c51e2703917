import Mathlib.Logic.Function.Basic
import Mathlib.Data.Fintype.Card
import Mathlib.Data.Int.Basic

/-! # The file-descriptor table of a virtual host

Model of the FDT part of `mk_server/mk_vhost.c`. Every worker holds, for each
virtual host, a table of `VHOST_FDT_HASHTABLE_SIZE` rows with
`VHOST_FDT_HASHTABLE_CHAINS` chains each; a chain shares one open descriptor
between the requests that asked for the same hash. The table never sees a path,
only the 32-bit hash that `mk_vhost_open` computes.

The per-thread list of tables is keyed by its `host` pointer, so it is a
function from hosts to tables. `files` is the kernel's side: which descriptors
are open in the process, each with the virtual host and path it was opened for.
-/

namespace SuperExe.Vhost

/-- `VHOST_FDT_HASHTABLE_SIZE` -/
abbrev fdtHashtableSize : Nat := 64

/-- `VHOST_FDT_HASHTABLE_CHAINS` -/
abbrev fdtHashtableChains : Nat := 8

/-- A `struct host` pointer. -/
abbrev HostId := Nat

abbrev Path := List UInt8

/-- `struct vhost_fdt_hash_chain` -/
structure HashChain where
  fd : Int
  readers : Int
  hash : UInt32
deriving DecidableEq, Repr

/-- `struct vhost_fdt_hash_table` -/
structure HashTable where
  avSlots : Int
  chain : Fin fdtHashtableChains → HashChain

/-- The fields of `struct mk_http_request` that the table reads and writes.
`fd` is `file_stream.fd`. -/
structure FdtRequest where
  hostConf : HostId
  realPath : Path
  vhostFdtId : Fin fdtHashtableSize
  vhostFdtHash : UInt32
  vhostFdtEnabled : Bool
  fd : Int
deriving DecidableEq, Repr

/-- One worker: the `mk_config->fdt` switch, its tables, the requests that
have opened a file and not yet closed it, and the open descriptors. -/
structure Worker where
  fdtOn : Bool
  fdt : HostId → Option (Fin fdtHashtableSize → HashTable)
  live : List FdtRequest
  files : Int → Option (HostId × Path)

/-! ## Initialisation -/

/-- A chain as `mk_vhost_fdt_worker_init` leaves it. -/
def emptyChain : HashChain := { fd := -1, readers := 0, hash := 0 }

/-- A row as `mk_vhost_fdt_worker_init` leaves it. -/
def emptyTable : HashTable :=
  { avSlots := fdtHashtableChains, chain := fun _ => emptyChain }

/-- `mk_vhost_fdt_worker_init`: a fresh table for every configured host. With
`mk_config->fdt` off no table exists. -/
def mkVhostFdtWorkerInit (fdtOn : Bool) (hosts : List HostId) : Worker where
  fdtOn := fdtOn
  fdt := fun h => if fdtOn = true ∧ h ∈ hosts then some fun _ => emptyTable else none
  live := []
  files := fun _ => none

/-- The FDT fields as `mk_http_request_init` sets them, with the virtual host
and path that `mk_http_init` has resolved. -/
def requestFor (host : HostId) (path : Path) : FdtRequest :=
  { hostConf := host, realPath := path, vhostFdtId := 0, vhostFdtHash := 0,
    vhostFdtEnabled := false, fd := 0 }

/-! ## The kernel -/

/-- `open(2)`: `ans` is the descriptor the kernel picks, or nothing when the
call fails. -/
def sysOpen (w : Worker) (sr : FdtRequest) : Option Nat → Worker × Int
  | some n => ({ w with files := Function.update w.files n (some (sr.hostConf, sr.realPath)) }, n)
  | none => (w, -1)

/-- `close(2)` -/
def sysClose (w : Worker) (fd : Int) : Worker :=
  { w with files := Function.update w.files fd none }

/-! ## Lookup -/

/-- `mk_vhost_fdt_table_lookup` -/
def mkVhostFdtTableLookup (w : Worker) (id : Fin fdtHashtableSize) (host : HostId) :
    Option HashTable :=
  (w.fdt host).map fun t => t id

/-- `mk_vhost_fdt_chain_lookup`: the first chain with this hash. -/
def mkVhostFdtChainLookup (hash : UInt32) (ht : HashTable) : Option (Fin fdtHashtableChains) :=
  (List.finRange fdtHashtableChains).find? fun i => (ht.chain i).hash = hash

/-- The first chain the registration loop of `mk_vhost_fdt_open` accepts. -/
def freeChain (ht : HashTable) : Option (Fin fdtHashtableChains) :=
  (List.finRange fdtHashtableChains).find? fun i => (ht.chain i).fd = -1

/-- Write row `id` of the table of `host` back. -/
def setTable (w : Worker) (host : HostId) (id : Fin fdtHashtableSize) (ht : HashTable) : Worker :=
  { w with fdt := Function.update w.fdt host ((w.fdt host).map fun t => Function.update t id ht) }

def HashTable.setChain (ht : HashTable) (i : Fin fdtHashtableChains) (c : HashChain) : HashTable :=
  { ht with chain := Function.update ht.chain i c }

/-! ## Open and close -/

/-- The request remembers the chain it shares. -/
def FdtRequest.enabled (sr : FdtRequest) (id : Fin fdtHashtableSize) (hash : UInt32) : FdtRequest :=
  { sr with vhostFdtId := id, vhostFdtHash := hash, vhostFdtEnabled := true }

/-- `mk_vhost_fdt_open`: the worker, the request and the descriptor returned. -/
def mkVhostFdtOpen (w : Worker) (id : Fin fdtHashtableSize) (hash : UInt32) (sr : FdtRequest)
    (ans : Option Nat) : Worker × FdtRequest × Int :=
  if w.fdtOn = false then
    ((sysOpen w sr ans).1, sr, (sysOpen w sr ans).2)
  else
    match mkVhostFdtTableLookup w id sr.hostConf with
    | none => ((sysOpen w sr ans).1, sr, (sysOpen w sr ans).2)
    | some ht =>
      match mkVhostFdtChainLookup hash ht with
      | some i =>
        -- one more reader of the shared descriptor
        let hc := ht.chain i
        (setTable w sr.hostConf id (ht.setChain i { hc with readers := hc.readers + 1 }),
          sr.enabled id hash, hc.fd)
      | none =>
        let (w', fd) := sysOpen w sr ans
        if fd = -1 then (w', sr, -1)
        else if ht.avSlots ≤ 0 then (w', sr, fd)
        else
          match freeChain ht with
          | some i =>
            let hc := ht.chain i
            (setTable w' sr.hostConf id
              { ht.setChain i { fd := fd, hash := hash, readers := hc.readers + 1 } with
                avSlots := ht.avSlots - 1 },
              sr.enabled id hash, fd)
          | none => (w', sr, fd)

/-- `mk_vhost_fdt_close`: the worker after the request has given its
descriptor back. -/
def mkVhostFdtClose (w : Worker) (sr : FdtRequest) : Worker :=
  if w.fdtOn = false ∨ sr.vhostFdtEnabled = false then
    if sr.fd > 0 then sysClose w sr.fd else w
  else
    match mkVhostFdtTableLookup w sr.vhostFdtId sr.hostConf with
    | none => sysClose w sr.fd
    | some ht =>
      match mkVhostFdtChainLookup sr.vhostFdtHash ht with
      | none => sysClose w sr.fd
      | some i =>
        let hc := ht.chain i
        if hc.readers - 1 = 0 then
          sysClose (setTable w sr.hostConf sr.vhostFdtId
            { ht.setChain i { fd := -1, hash := 0, readers := 0 } with
              avSlots := ht.avSlots + 1 }) sr.fd
        else
          setTable w sr.hostConf sr.vhostFdtId
            (ht.setChain i { hc with readers := hc.readers - 1 })

end SuperExe.Vhost
