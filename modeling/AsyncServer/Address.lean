/-
Subnets of an IPv4 address (address.h, address.cpp).

An address holds its 32 bits in network order.  `createSubNetMask` makes the mask of a
prefix with a shift, a subtraction and a complement of an `int`, and the three functions
on it combine the mask, or its complement, with the address after `htonl`.

* `createSubNetMask_eq` — the mask has the top bits set, for every prefix from 2 to 32;
  at 0 the shift is by 32 bits, and at 1 the subtraction overflows;
* `broadcastAddress_eq`, `subnetAddress_eq` — right where the mask is;
* `networdAddress_eq` — it keeps the host part, and not the network part;
* `subnetsRight_iff` — so everything is right of the address 0.0.0.0 only.
-/
import Mathlib.Tactic

namespace Server

/-- `htonl` and `ntohl`, on a machine that stores the low byte first. -/
def htonl (x : BitVec 32) : BitVec 32 :=
  x.extractLsb' 0 8 ++ x.extractLsb' 8 8 ++ x.extractLsb' 16 8 ++ x.extractLsb' 24 8

/-- `Address`, with the fields of its `sockaddr_in`; port and address are in network
order. -/
structure Address where
  sin_family : BitVec 16
  sin_port : BitVec 16
  s_addr : BitVec 32
  deriving DecidableEq

namespace Address

/-- `x - y` of two `int`s.  Overflow is undefined behaviour. -/
def intSub (x y : BitVec 32) : Option (BitVec 32) :=
  if BitVec.ssubOverflow x y then none else some (x - y)

/-- The number of bits by which `createSubNetMask` shifts. -/
def maskShift (pfx : BitVec 32) : ℕ := (32 - pfx).toNat

/-- `createSubNetMask`.  A shift by 32 bits or more is undefined behaviour. -/
def createSubNetMask (pfx : BitVec 32) : Option (BitVec 32) :=
  if 32 ≤ maskShift pfx then none
  else (intSub (1#32 <<< maskShift pfx) 1#32).map (~~~ ·)

/-- What `broadcastAddress`, `networdAddress` and `subnetAddress` have in common: the
address with the bits `f` of the mask.  `some none` is `nullptr`. -/
def masked (a : Address) (pfx : BitVec 32) (f : BitVec 32 → BitVec 32) :
    Option (Option Address) :=
  if 32 < pfx.toNat then some none
  else (createSubNetMask pfx).map fun m => some { a with s_addr := f m }

def broadcastAddress (a : Address) (pfx : BitVec 32) : Option (Option Address) :=
  a.masked pfx fun m => a.s_addr ||| htonl (~~~m)

def networdAddress (a : Address) (pfx : BitVec 32) : Option (Option Address) :=
  a.masked pfx fun m => a.s_addr &&& htonl (~~~m)

def subnetAddress (a : Address) (pfx : BitVec 32) : Option (Option Address) :=
  a.masked pfx fun m => htonl m

/-! ### Byte order -/

variable {a b : Address} {p x y : BitVec 32}

theorem htonl_and (x y : BitVec 32) : htonl (x &&& y) = htonl x &&& htonl y := by
  rw [htonl, htonl, htonl, BitVec.extractLsb'_and, BitVec.extractLsb'_and, BitVec.extractLsb'_and,
    BitVec.extractLsb'_and, ← BitVec.and_append, ← BitVec.and_append, ← BitVec.and_append]

theorem htonl_or (x y : BitVec 32) : htonl (x ||| y) = htonl x ||| htonl y := by
  rw [htonl, htonl, htonl, BitVec.extractLsb'_or, BitVec.extractLsb'_or, BitVec.extractLsb'_or,
    BitVec.extractLsb'_or, ← BitVec.or_append, ← BitVec.or_append, ← BitVec.or_append]

theorem getLsbD_htonl (x : BitVec 32) {i : ℕ} (hi : i < 32) :
    (htonl x).getLsbD i = x.getLsbD (24 - i / 8 * 8 + i % 8) := by
  rw [htonl, BitVec.getLsbD_append, BitVec.getLsbD_append, BitVec.getLsbD_append]
  simp only [BitVec.getLsbD_extractLsb']
  interval_cases i <;> rfl

theorem htonl_htonl (x : BitVec 32) : htonl (htonl x) = x := by
  refine BitVec.eq_of_getLsbD_eq fun i hi => ?_
  rw [getLsbD_htonl _ hi, getLsbD_htonl _ (by omega)]
  congr 1
  omega

/-- The address in host order. -/
def host (a : Address) : BitVec 32 := htonl a.s_addr

/-- Another address in host order, with the same port and family. -/
def withHost (a : Address) (x : BitVec 32) : Address := { a with s_addr := htonl x }

@[simp]
theorem host_withHost (a : Address) (x : BitVec 32) : (a.withHost x).host = x := htonl_htonl x

theorem htonl_host (a : Address) : htonl a.host = a.s_addr := htonl_htonl _

/-! ### The mask -/

/-- The mask of a prefix: the top bits are set. -/
def topMask (pfx : BitVec 32) : BitVec 32 := BitVec.allOnes 32 <<< (32 - pfx.toNat)

theorem maskShift_eq (h : p.toNat ≤ 32) : maskShift p = 32 - p.toNat := by
  rw [maskShift, BitVec.toNat_sub_of_le (by exact_mod_cast h)]
  rfl

/-- Below 31 bits the shift and the subtraction stay within an `int`. -/
theorem shifted_mask : ∀ k < 31, BitVec.ssubOverflow (1#32 <<< k) 1#32 = false ∧
    ~~~((1#32 <<< k) - 1#32) = BitVec.allOnes 32 <<< k := by
  decide

/-- **The mask**, for a prefix of two bits or more. -/
theorem createSubNetMask_eq (h2 : 2 ≤ p.toNat) (h32 : p.toNat ≤ 32) :
    createSubNetMask p = some (topMask p) := by
  obtain ⟨hover, hmask⟩ := shifted_mask (32 - p.toNat) (by omega)
  rw [createSubNetMask, maskShift_eq h32, if_neg (by omega), intSub, hover]
  exact congrArg some hmask

/-- At 0 the shift is too far, and at 1 `INT_MIN - 1` overflows. -/
theorem createSubNetMask_eq_none (h : p.toNat < 2) : createSubNetMask p = none := by
  have hp : p = 0 ∨ p = 1 := by
    rcases (by omega : p.toNat = 0 ∨ p.toNat = 1) with h | h
    · exact .inl (BitVec.eq_of_toNat_eq h)
    · exact .inr (BitVec.eq_of_toNat_eq h)
  rcases hp with rfl | rfl <;> rfl

/-! ### The three functions -/

theorem masked_eq (h2 : 2 ≤ p.toNat) (h32 : p.toNat ≤ 32) (f : BitVec 32 → BitVec 32) :
    a.masked p f = some (some { a with s_addr := f (topMask p) }) := by
  rw [masked, if_neg (by omega), createSubNetMask_eq h2 h32]
  rfl

theorem subnetAddress_eq (h2 : 2 ≤ p.toNat) (h32 : p.toNat ≤ 32) :
    a.subnetAddress p = some (some (a.withHost (topMask p))) := masked_eq h2 h32 _

theorem broadcastAddress_eq (h2 : 2 ≤ p.toNat) (h32 : p.toNat ≤ 32) :
    a.broadcastAddress p = some (some (a.withHost (a.host ||| ~~~topMask p))) := by
  rw [broadcastAddress, masked_eq h2 h32, withHost, htonl_or, htonl_host]

/-- **`networdAddress` keeps the host part.** -/
theorem networdAddress_eq (h2 : 2 ≤ p.toNat) (h32 : p.toNat ≤ 32) :
    a.networdAddress p = some (some (a.withHost (a.host &&& ~~~topMask p))) := by
  rw [networdAddress, masked_eq h2 h32, withHost, htonl_and, htonl_host]

/-! ### What a subnet is to be -/

/-- What the functions are to make of an address and a prefix. -/
structure SubnetRight (a : Address) (p : BitVec 32) : Prop where
  shift : maskShift p < 32
  subnet : a.subnetAddress p = some (some (a.withHost (topMask p)))
  network : a.networdAddress p = some (some (a.withHost (a.host &&& topMask p)))
  broadcast : a.broadcastAddress p = some (some (a.withHost (a.host ||| ~~~topMask p)))
  between : ∀ n b, a.networdAddress p = some (some n) → a.broadcastAddress p = some (some b) →
    n.host ≤ a.host ∧ a.host ≤ b.host
  again : ∀ n, a.networdAddress p = some (some n) → n.networdAddress p = some (some n)

/-- The addresses that a function gives are the same in host order. -/
def SameHost (x y : Option (Option Address)) : Prop :=
  ∃ c d, x = some (some c) ∧ y = some (some d) ∧ c.host = d.host

/-- What they are to make of two addresses. -/
structure SubnetsRight (a b : Address) (p : BitVec 32) : Prop where
  left : a.SubnetRight p
  right : b.SubnetRight p
  share : SameHost (a.networdAddress p) (b.networdAddress p) ∧
      SameHost (a.broadcastAddress p) (b.broadcastAddress p) ↔
    ∀ i < 32, 32 - p.toNat ≤ i → a.host.getLsbD i = b.host.getLsbD i

theorem withHost_zero (ha : a.host = 0#32) : a.withHost 0#32 = a := by
  rw [withHost, ← ha, htonl_host]

/-- Of the address 0.0.0.0 the host part is the network part. -/
theorem subnetRight_zero (h2 : 2 ≤ p.toNat) (h32 : p.toNat ≤ 32) (ha : a.host = 0#32) :
    a.SubnetRight p := by
  have hnet : a.networdAddress p = some (some a) := by
    rw [networdAddress_eq h2 h32, ha, BitVec.zero_and, withHost_zero ha]
  refine ⟨?_, subnetAddress_eq h2 h32, ?_, broadcastAddress_eq h2 h32, ?_, ?_⟩
  · rw [maskShift_eq h32]
    omega
  · rw [hnet, ha, BitVec.zero_and, withHost_zero ha]
  · intro n b hn _
    have hsame : a = n := Option.some_inj.mp (Option.some_inj.mp (hnet.symm.trans hn))
    rw [← hsame, ha]
    exact ⟨BitVec.le_refl _, Nat.zero_le _⟩
  · intro n hn
    have hsame : a = n := Option.some_inj.mp (Option.some_inj.mp (hnet.symm.trans hn))
    rwa [← hsame]

/-- An address whose network part is its host part has neither. -/
theorem eq_zero_of_parts (h : x &&& y = x &&& ~~~y) : x = 0#32 := by
  refine BitVec.eq_of_getLsbD_eq fun i hi => ?_
  have hbit := congrArg (·.getLsbD i) h
  simp only [BitVec.getLsbD_and, BitVec.getLsbD_not, decide_eq_true hi, Bool.true_and] at hbit
  rw [BitVec.getLsbD_zero]
  cases hx : x.getLsbD i with
  | false => rfl
  | true =>
    rw [hx] at hbit
    cases hy : y.getLsbD i <;> rw [hy] at hbit <;> exact absurd hbit (by decide)

/-- An address of which the functions are right is 0.0.0.0. -/
theorem SubnetRight.host_eq_zero (h : a.SubnetRight p) (h32 : p.toNat ≤ 32) :
    2 ≤ p.toNat ∧ a.host = 0#32 := by
  have h2 : 2 ≤ p.toNat := by
    by_contra hlt
    have hsubnet := h.subnet
    rw [subnetAddress, masked, if_neg (by omega),
      createSubNetMask_eq_none (not_le.mp hlt)] at hsubnet
    exact Option.some_ne_none _ hsubnet.symm
  have hnet := h.network.symm.trans (networdAddress_eq h2 h32)
  have hparts := congrArg host (Option.some_inj.mp (Option.some_inj.mp hnet))
  rw [host_withHost, host_withHost] at hparts
  exact ⟨h2, eq_zero_of_parts hparts⟩

/-- **When subnet arithmetic is right**: of the address 0.0.0.0, and for a prefix of two bits
or more. -/
theorem subnetsRight_iff (a b : Address) (h32 : p.toNat ≤ 32) :
    SubnetsRight a b p ↔ 2 ≤ p.toNat ∧ a.host = 0#32 ∧ b.host = 0#32 := by
  constructor
  · intro h
    obtain ⟨h2, ha⟩ := h.left.host_eq_zero h32
    exact ⟨h2, ha, (h.right.host_eq_zero h32).2⟩
  · rintro ⟨h2, ha, hb⟩
    refine ⟨subnetRight_zero h2 h32 ha, subnetRight_zero h2 h32 hb, iff_of_true ⟨?_, ?_⟩ ?_⟩
    · refine ⟨_, _, networdAddress_eq h2 h32, networdAddress_eq h2 h32, ?_⟩
      rw [host_withHost, host_withHost, ha, hb]
    · refine ⟨_, _, broadcastAddress_eq h2 h32, broadcastAddress_eq h2 h32, ?_⟩
      rw [host_withHost, host_withHost, ha, hb]
    · intro i _ _
      rw [ha, hb]

/-- The address 0.0.0.0, port 80. -/
theorem subnetsRight_any : SubnetsRight ⟨2, 0x5000, 0⟩ ⟨2, 0x5000, 0⟩ 24 :=
  (subnetsRight_iff _ _ (by decide)).mpr ⟨by decide, by decide, by decide⟩

/-- The network of 192.168.1.10/24 comes out as 0.0.0.10, and a prefix of 0 bits has no
mask. -/
theorem network_lost :
    (⟨2, 0x5000, htonl 0xc0a8010a⟩ : Address).networdAddress 24 =
        some (some ⟨2, 0x5000, htonl 0x0000000a⟩) ∧
      ¬ SubnetsRight ⟨2, 0x5000, htonl 0xc0a8010a⟩ ⟨2, 0x5000, htonl 0xc0a8010a⟩ 24 ∧
      createSubNetMask 0 = none := by
  have hrun : (⟨2, 0x5000, htonl 0xc0a8010a⟩ : Address).networdAddress 24 =
      some (some ⟨2, 0x5000, htonl 0x0000000a⟩) := by decide
  refine ⟨hrun, fun h => ?_, rfl⟩
  exact absurd (h.left.network.symm.trans hrun) (by decide)

end Address

end Server
