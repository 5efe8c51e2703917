import SuperExe.Core.MkString
import SuperExe.Core.StringSearch
import Mathlib.Tactic.IntervalCases

/-! # Mandril: rules about addresses

A subnet rule keeps its network and its first and last host as words in network
order, and `mk_security_check_ip` compares them as numbers of a little-endian
machine: the last octet counts most.
-/

namespace SuperExe.Plugins.Mandril

open SuperExe.Core SuperExe.Lib

/-! ## The code -/

/-- `htonl(3)` and `ntohl(3)` of a little-endian machine. -/
def htonl (x : UInt32) : UInt32 :=
  (x <<< 24) ||| ((x &&& (0xFF00 : UInt32)) <<< 8) ||| ((x >>> 8) &&& (0xFF00 : UInt32)) |||
    (x >>> 24)

/-- `0xffffffff << (32 - net)` -/
def hostOrderMask (net : Int) : UInt32 := 0xFFFFFFFF <<< UInt32.ofNat (32 - net).toNat

/-- `MK_NET_NETMASK` -/
def mkNetNetmask (net : Int) : UInt32 := htonl (hostOrderMask net)

/-- `MK_NET_BROADCAST` -/
def mkNetBroadcast (addr : UInt32) (net : Int) : UInt32 := addr ||| ~~~mkNetNetmask net

/-- `MK_NET_NETWORK` -/
def mkNetNetwork (addr : UInt32) (net : Int) : UInt32 := addr &&& mkNetNetmask net

/-- `MK_NET_HOSTMIN` -/
def mkNetHostmin (addr : UInt32) (net : Int) : UInt32 :=
  if net = 31 then mkNetNetwork addr net else mkNetNetwork addr net + 0x01000000

/-- `MK_NET_HOSTMAX` -/
def mkNetHostmax (addr : UInt32) (net : Int) : UInt32 :=
  if net = 31 then mkNetBroadcast addr net else mkNetBroadcast addr net - 0x01000000

/-- `struct mk_secure_ip_t`: the fields about the network are only there if
`is_subnet` is true. -/
inductive SecureIp where
  | host (ip : UInt32)
  | subnet (ip network : UInt32) (netmask : Int) (hostmin hostmax : UInt32)

/-- `mk_security_conf` for a value of the key `IP`: the entry it links, if it
does. `inetAton` is `inet_aton`. -/
def mkSecurityConfIp (inetAton : Bytes → Option UInt32) (val : Bytes) : Option SecureIp := do
  let n ← mkStringSearch (val ++ [0]) (bytes "/") .strInsensitive
  if n > 0 then
    let net ← mkStringCopySubstr val 0 n
    let mask ← mkStringCopySubstr val (n + 1) val.length
    let ip ← inetAton net
    let netmask := toInt32 (strtol (cstr mask) mask.length 0).val
    if netmask ≤ 0 ∨ netmask ≥ 32 then none
    else
      some (.subnet ip (mkNetNetwork ip netmask) netmask (mkNetHostmin ip netmask)
        (mkNetHostmax ip netmask))
  else (inetAton val).map SecureIp.host

/-- What `mk_security_check_ip` does for one entry of the list. -/
def SecureIp.refuses (addr : UInt32) : SecureIp → Bool
  | .host ip => addr == ip
  | .subnet _ network netmask hostmin hostmax =>
    mkNetNetwork addr netmask == network && (addr ≤ hostmax && addr ≥ hostmin)

/-- `mk_security_check_ip`; `none` is a socket without a peer. -/
def mkSecurityCheckIp (secureIp : List SecureIp) : Option UInt32 → Int
  | none => -1
  | some addr => if secureIp.any fun entry => entry.refuses addr then -1 else 0

/-! ## Words and addresses -/

section Words

variable {x y : UInt32} {i : Nat}

theorem getLsbD_htonl (x : UInt32) (hi : i < 32) :
    (htonl x).toBitVec.getLsbD i = x.toBitVec.getLsbD (i ^^^ 24) := by
  interval_cases i <;> simp [htonl]

theorem eq_of_getLsbD (h : ∀ i < 32, x.toBitVec.getLsbD i = y.toBitVec.getLsbD i) : x = y :=
  UInt32.toBitVec_inj.mp (BitVec.eq_of_getLsbD_eq h)

/-- The byte order changes octets only. -/
theorem xor_lt (hi : i < 32) : i ^^^ 24 < 32 := Nat.xor_lt_two_pow (n := 5) hi (by decide)

theorem htonl_and (x y : UInt32) : htonl (x &&& y) = htonl x &&& htonl y := by
  refine eq_of_getLsbD fun i hi => ?_
  simp only [getLsbD_htonl _ hi, UInt32.toBitVec_and, BitVec.getLsbD_and]

theorem htonl_or (x y : UInt32) : htonl (x ||| y) = htonl x ||| htonl y := by
  refine eq_of_getLsbD fun i hi => ?_
  simp only [getLsbD_htonl _ hi, UInt32.toBitVec_or, BitVec.getLsbD_or]

theorem htonl_not (x : UInt32) : htonl (~~~x) = ~~~htonl x := by
  refine eq_of_getLsbD fun i hi => ?_
  simp only [getLsbD_htonl _ hi, UInt32.toBitVec_not, BitVec.getLsbD_not, hi, xor_lt hi]

theorem htonl_htonl (x : UInt32) : htonl (htonl x) = x := by
  refine eq_of_getLsbD fun i hi => ?_
  rw [getLsbD_htonl _ hi, getLsbD_htonl _ (xor_lt hi), Nat.xor_assoc, Nat.xor_self, Nat.xor_zero]

theorem htonl_inj : htonl x = htonl y ↔ x = y :=
  ⟨fun h => by rw [← htonl_htonl x, h, htonl_htonl], congrArg htonl⟩

/-- The last octet is the highest byte of the word. -/
theorem htonl_div (x : UInt32) : (htonl x).toNat / 2 ^ 24 = x.toNat % 2 ^ 8 := by
  apply Nat.eq_of_testBit_eq
  intro i
  rw [Nat.testBit_div_two_pow, Nat.testBit_mod_two_pow]
  by_cases hi : i < 8
  · have h := getLsbD_htonl x (show i + 24 < 32 by omega)
    have hflip : (i + 24) ^^^ 24 = i := by
      interval_cases i <;> rfl
    rw [hflip] at h
    rw [decide_eq_true hi, Bool.true_and]
    exact h
  · rw [decide_eq_false hi, Bool.false_and]
    apply Nat.testBit_lt_two_pow
    calc (htonl x).toNat < 2 ^ 32 := (htonl x).toNat_lt
      _ ≤ 2 ^ (i + 24) := Nat.pow_le_pow_right (by decide) (by omega)

/-- Masking off the last bits. -/
theorem and_shiftLeft (x : BitVec 32) (k : Nat) :
    x &&& (0xFFFFFFFF#32 <<< k) = (x >>> k) <<< k := by
  refine BitVec.eq_of_getLsbD_eq fun i hi => ?_
  have hones : (0xFFFFFFFF#32) = BitVec.allOnes 32 := rfl
  simp only [hones, BitVec.getLsbD_and, BitVec.getLsbD_shiftLeft, BitVec.getLsbD_ushiftRight,
    BitVec.getLsbD_allOnes, hi, decide_true, Bool.true_and]
  by_cases hk : i < k
  · simp [hk]
  · simp [hk, Nat.add_sub_cancel' (Nat.le_of_not_lt hk), show i - k < 32 by omega]

theorem toBitVec_hostOrderMask {net : Int} (h0 : 0 < net) (h1 : net < 32) :
    (hostOrderMask net).toBitVec = 0xFFFFFFFF#32 <<< (32 - net).toNat := by
  interval_cases net <;> rfl

/-- The network of an address, as a number. -/
theorem and_hostOrderMask {net : Int} (h0 : 0 < net) (h1 : net < 32) (x : UInt32) :
    (x &&& hostOrderMask net).toNat = x.toNat / 2 ^ (32 - net).toNat * 2 ^ (32 - net).toNat := by
  have hle := Nat.div_mul_le_self x.toNat (2 ^ (32 - net).toNat)
  have hlt := x.toNat_lt
  show ((x &&& hostOrderMask net).toBitVec).toNat = _
  rw [UInt32.toBitVec_and, toBitVec_hostOrderMask h0 h1, and_shiftLeft, BitVec.toNat_shiftLeft,
    BitVec.toNat_ushiftRight, Nat.shiftLeft_eq, Nat.shiftRight_eq_div_pow]
  exact Nat.mod_eq_of_lt (Nat.lt_of_le_of_lt hle hlt)

/-- The last address of its network. -/
theorem or_not_hostOrderMask {net : Int} (h0 : 0 < net) (h1 : net < 32) (x : UInt32) :
    (x ||| ~~~hostOrderMask net).toNat =
      x.toNat / 2 ^ (32 - net).toNat * 2 ^ (32 - net).toNat + (2 ^ (32 - net).toNat - 1) := by
  have hcompl : x ||| ~~~hostOrderMask net = ~~~(~~~x &&& hostOrderMask net) := by
    refine eq_of_getLsbD fun i hi => ?_
    simp only [UInt32.toBitVec_or, UInt32.toBitVec_not, UInt32.toBitVec_and, BitVec.getLsbD_or,
      BitVec.getLsbD_not, BitVec.getLsbD_and, hi, decide_true, Bool.true_and, Bool.not_and,
      Bool.not_not]
  have hnot : ∀ z : UInt32, (~~~z).toNat = 2 ^ 32 - 1 - z.toNat := fun z => by
    rw [UInt32.toNat_not]
    rfl
  have hlt := x.toNat_lt
  rw [hcompl, hnot, and_hostOrderMask h0 h1, hnot]
  interval_cases net <;> simp only [Int.reduceSub, Int.reduceToNat] <;> omega

end Words

/-! ## The rule -/

/-- The number of addresses in the network. -/
def networkSize (net : Int) : Nat := 2 ^ (32 - net).toNat

/-- The first address of the network of `ip`, as a number. -/
def firstAddress (ip : UInt32) (net : Int) : Nat :=
  (htonl ip).toNat / networkSize net * networkSize net

/-- The address is a host of the network of `ip`, by its number: all but the
first and the last one, or both if there are only two. -/
def IsHost (addr ip : UInt32) (net : Int) : Prop :=
  if net = 31 then
    firstAddress ip net ≤ (htonl addr).toNat ∧ (htonl addr).toNat ≤ firstAddress ip net + 1
  else
    firstAddress ip net + 1 ≤ (htonl addr).toNat ∧
      (htonl addr).toNat + 2 ≤ firstAddress ip net + networkSize net

/-- The last octet of an address. -/
def lastOctet (addr : UInt32) : Nat := (htonl addr).toNat % 2 ^ 8

section Rule

variable {addr ip : UInt32} {net : Int} (h0 : 0 < net) (h1 : net < 32)

theorem mkNetNetwork_eq (addr : UInt32) (net : Int) :
    mkNetNetwork addr net = htonl (htonl addr &&& hostOrderMask net) := by
  rw [htonl_and, htonl_htonl]
  rfl

theorem mkNetBroadcast_eq (addr : UInt32) (net : Int) :
    mkNetBroadcast addr net = htonl (htonl addr ||| ~~~hostOrderMask net) := by
  rw [htonl_or, htonl_htonl, htonl_not]
  rfl

include h0 h1

/-- Two addresses are in one network if their numbers are. -/
theorem mkNetNetwork_eq_iff : mkNetNetwork addr net = mkNetNetwork ip net ↔
    firstAddress addr net = firstAddress ip net := by
  rw [mkNetNetwork_eq, mkNetNetwork_eq, htonl_inj, ← UInt32.toNat_inj, and_hostOrderMask h0 h1,
    and_hostOrderMask h0 h1]
  rfl

theorem mkNetBroadcast_congr (h : firstAddress addr net = firstAddress ip net) :
    mkNetBroadcast addr net = mkNetBroadcast ip net := by
  unfold firstAddress networkSize at h
  rw [mkNetBroadcast_eq, mkNetBroadcast_eq, htonl_inj, ← UInt32.toNat_inj,
    or_not_hostOrderMask h0 h1, or_not_hostOrderMask h0 h1, h]

/-- Against the first host only the last octet counts: the other ones are not
below those of the network. -/
theorem hostmin_le_iff (h31 : net ≠ 31) :
    addr ≥ mkNetNetwork addr net + 0x01000000 ↔
      firstAddress addr net % 2 ^ 8 + 1 ≤ lastOctet addr := by
  have htop := htonl_div (htonl addr)
  rw [htonl_htonl] at htop
  have hnet := htonl_div (htonl addr &&& hostOrderMask net)
  rw [← mkNetNetwork_eq, and_hostOrderMask h0 h1] at hnet
  have hrest : (mkNetNetwork addr net).toNat % 2 ^ 24 ≤ addr.toNat % 2 ^ 24 := by
    rw [mkNetNetwork, UInt32.toNat_and, Nat.and_mod_two_pow]
    exact Nat.and_le_left
  -- the last octet of the network has room for the first host
  have hroom : firstAddress addr net % 2 ^ 8 ≤ 252 := by
    unfold firstAddress networkSize
    interval_cases net <;> simp only [Int.reduceSub, Int.reduceToNat] <;> omega
  have hword : (mkNetNetwork addr net + 0x01000000).toNat =
      (mkNetNetwork addr net).toNat + 2 ^ 24 := by
    rw [UInt32.toNat_add]
    apply Nat.mod_eq_of_lt
    show _ + 2 ^ 24 < 2 ^ 32
    unfold firstAddress networkSize at hroom
    omega
  unfold firstAddress networkSize at hroom ⊢
  unfold lastOctet
  rw [ge_iff_le, UInt32.le_iff_toNat_le, hword]
  omega

/-- Against the last host only the last octet counts: the other ones are not
above those of the broadcast address. -/
theorem le_hostmax_iff (h31 : net ≠ 31) :
    addr ≤ mkNetBroadcast addr net - 0x01000000 ↔
      lastOctet addr + 1 ≤ (firstAddress addr net + (networkSize net - 1)) % 2 ^ 8 := by
  have htop := htonl_div (htonl addr)
  rw [htonl_htonl] at htop
  have hnet := htonl_div (htonl addr ||| ~~~hostOrderMask net)
  rw [← mkNetBroadcast_eq, or_not_hostOrderMask h0 h1] at hnet
  have hrest : addr.toNat % 2 ^ 24 ≤ (mkNetBroadcast addr net).toNat % 2 ^ 24 := by
    rw [mkNetBroadcast, UInt32.toNat_or, Nat.or_mod_two_pow]
    exact Nat.left_le_or
  have hroom : 3 ≤ (firstAddress addr net + (networkSize net - 1)) % 2 ^ 8 := by
    unfold firstAddress networkSize
    interval_cases net <;> simp only [Int.reduceSub, Int.reduceToNat] <;> omega
  have hword : (mkNetBroadcast addr net - 0x01000000).toNat =
      (mkNetBroadcast addr net).toNat - 2 ^ 24 := by
    apply UInt32.toNat_sub_of_le
    rw [UInt32.le_iff_toNat_le]
    show 2 ^ 24 ≤ _
    unfold firstAddress networkSize at hroom
    omega
  unfold firstAddress networkSize at hroom ⊢
  unfold lastOctet
  rw [UInt32.le_iff_toNat_le, hword]
  omega

theorem IsHost.network (h : IsHost addr ip net) : firstAddress addr net = firstAddress ip net := by
  unfold IsHost firstAddress networkSize at h
  unfold firstAddress networkSize
  interval_cases net <;> simp only [Int.reduceSub, Int.reduceToNat, Int.reduceEq, if_true, if_false]
    at h ⊢ <;> omega

/-- The last octet of an address in the network tells whether it is a host, from
a mask of 24 on. Below it every octet can be the last one of a host. -/
theorem octet_iff (h31 : net ≠ 31) (hnet : firstAddress addr net = firstAddress ip net) :
    (firstAddress addr net % 2 ^ 8 + 1 ≤ lastOctet addr ∧
      lastOctet addr + 1 ≤ (firstAddress addr net + (networkSize net - 1)) % 2 ^ 8) ↔
    IsHost addr ip net ∧ (net < 24 → lastOctet addr ≠ 0 ∧ lastOctet addr ≠ 255) := by
  rw [IsHost, if_neg h31, ← hnet]
  unfold lastOctet firstAddress networkSize
  have hlt := (htonl addr).toNat_lt
  interval_cases net <;> simp only [Int.reduceSub, Int.reduceToNat, Int.reduceLT, true_implies,
    false_implies, and_true] <;> omega

/-- The rule refuses the hosts of its network; below a mask of 24 it lets those
through whose last octet is 0 or 255. -/
theorem refuses_iff :
    (SecureIp.subnet ip (mkNetNetwork ip net) net (mkNetHostmin ip net)
      (mkNetHostmax ip net)).refuses addr = true ↔
    IsHost addr ip net ∧ (net < 24 → lastOctet addr ≠ 0 ∧ lastOctet addr ≠ 255) := by
  simp only [SecureIp.refuses, Bool.and_eq_true, beq_iff_eq, decide_eq_true_eq]
  by_cases hnet : firstAddress addr net = firstAddress ip net
  · have hword := (mkNetNetwork_eq_iff h0 h1).mpr hnet
    have hbroadcast := mkNetBroadcast_congr h0 h1 hnet
    rw [mkNetHostmin, mkNetHostmax, ← hword, ← hbroadcast]
    by_cases h31 : net = 31
    · -- both addresses are hosts
      have hle : addr ≤ mkNetBroadcast addr net := by
        rw [UInt32.le_iff_toNat_le, mkNetBroadcast, UInt32.toNat_or]
        exact Nat.left_le_or
      have hge : addr ≥ mkNetNetwork addr net := by
        rw [ge_iff_le, UInt32.le_iff_toNat_le, mkNetNetwork, UInt32.toNat_and]
        exact Nat.and_le_left
      have hhost : IsHost addr ip net := by
        rw [IsHost, if_pos h31, ← hnet]
        subst h31
        unfold firstAddress networkSize
        simp only [Int.reduceSub, Int.reduceToNat]
        omega
      rw [if_pos h31, if_pos h31]
      exact ⟨fun _ => ⟨hhost, fun h => absurd h (by omega)⟩, fun _ => ⟨rfl, hle, hge⟩⟩
    · rw [if_neg h31, if_neg h31, hostmin_le_iff h0 h1 h31, le_hostmax_iff h0 h1 h31,
        ← octet_iff h0 h1 h31 hnet]
      exact ⟨fun h => ⟨h.2.2, h.2.1⟩, fun h => ⟨rfl, h.2, h.1⟩⟩
  · constructor
    · intro h
      exact absurd ((mkNetNetwork_eq_iff h0 h1).mp h.1) hnet
    · intro h
      exact absurd (h.1.network h0 h1) hnet

omit h0 h1 in
/-- The entry of a subnet rule that `mk_security_conf` has accepted. -/
theorem mkSecurityConfIp_subnet {inetAton : Bytes → Option UInt32} {val : Bytes}
    {network hostmin hostmax : UInt32} {netmask : Int}
    (h : mkSecurityConfIp inetAton val = some (.subnet ip network netmask hostmin hostmax)) :
    0 < netmask ∧ netmask < 32 ∧ network = mkNetNetwork ip netmask ∧
      hostmin = mkNetHostmin ip netmask ∧ hostmax = mkNetHostmax ip netmask := by
  unfold mkSecurityConfIp at h
  obtain ⟨n, -, h⟩ := Option.bind_eq_some_iff.mp h
  split at h
  · obtain ⟨net, -, h⟩ := Option.bind_eq_some_iff.mp h
    obtain ⟨mask, -, h⟩ := Option.bind_eq_some_iff.mp h
    obtain ⟨ip', -, h⟩ := Option.bind_eq_some_iff.mp h
    dsimp only at h
    split at h
    · cases h
    · next hmask =>
      rw [not_or] at hmask
      cases h
      exact ⟨by omega, by omega, rfl, rfl, rfl⟩
  · obtain ⟨ip', -, h⟩ := Option.map_eq_some_iff.mp h
    cases h

omit h0 h1 in
/-- A subnet rule is exact for an address exactly if it is not, below a mask of
24, a host whose last octet is 0 or 255. -/
theorem subnet_rule_iff {inetAton : Bytes → Option UInt32} {val : Bytes}
    {network hostmin hostmax : UInt32} {netmask : Int}
    (h : mkSecurityConfIp inetAton val = some (.subnet ip network netmask hostmin hostmax))
    (addr : UInt32) :
    (mkSecurityCheckIp [.subnet ip network netmask hostmin hostmax] (some addr) = -1 ↔
      IsHost addr ip netmask) ↔
    (netmask < 24 → IsHost addr ip netmask → lastOctet addr ≠ 0 ∧ lastOctet addr ≠ 255) := by
  obtain ⟨hlow, hhigh, rfl, rfl, rfl⟩ := mkSecurityConfIp_subnet h
  have hcheck : mkSecurityCheckIp [.subnet ip (mkNetNetwork ip netmask) netmask
      (mkNetHostmin ip netmask) (mkNetHostmax ip netmask)] (some addr) = -1 ↔
      IsHost addr ip netmask ∧ (netmask < 24 → lastOctet addr ≠ 0 ∧ lastOctet addr ≠ 255) := by
    rw [← refuses_iff hlow hhigh, mkSecurityCheckIp, List.any_cons, List.any_nil, Bool.or_false]
    split
    · next hrefuses => exact iff_of_true rfl hrefuses
    · next hrefuses => exact iff_of_false (by decide) hrefuses
  rw [hcheck]
  constructor
  · intro hiff hmask hhost
    exact (hiff.mpr hhost).2 hmask
  · intro hoctet
    exact ⟨And.left, fun hhost => ⟨hhost, fun hmask => hoctet hmask hhost⟩⟩

end Rule

/-- `inet_aton` of the two networks below. -/
def someNetworks (cp : Bytes) : Option UInt32 :=
  if cp = bytes "10.20.1.1" then some 0x0101140A
  else if cp = bytes "10.20.0.0" then some 0x0000140A
  else none

/-- The rule `10.20.1.1/24` refuses the client `10.20.1.254`. -/
theorem subnet_rule_24 :
    mkSecurityCheckIp [.subnet 0x0101140A 0x0001140A 24 0x0101140A 0xFE01140A]
      (some 0xFE01140A) = -1 ↔ IsHost 0xFE01140A 0x0101140A 24 :=
  (subnet_rule_iff (show mkSecurityConfIp someNetworks (bytes "10.20.1.1/24") = _ from rfl)
    0xFE01140A).mpr fun h => absurd h (by decide)

/-- The rule `10.20.0.0/16` lets the host `10.20.1.0` through. -/
theorem subnet_rule_16 :
    mkSecurityConfIp someNetworks (bytes "10.20.0.0/16") =
      some (.subnet 0x0000140A 0x0000140A 16 0x0100140A 0xFEFF140A) ∧
    ¬ (mkSecurityCheckIp [.subnet 0x0000140A 0x0000140A 16 0x0100140A 0xFEFF140A]
      (some 0x0001140A) = -1 ↔ IsHost 0x0001140A 0x0000140A 16) := by
  refine ⟨rfl, fun h => ?_⟩
  have hhost : IsHost 0x0001140A 0x0000140A 16 := by
    rw [IsHost, if_neg (by decide)]
    decide
  exact absurd (h.mpr hhost) (by decide)

end SuperExe.Plugins.Mandril
