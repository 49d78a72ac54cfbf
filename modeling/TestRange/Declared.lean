/-
The declarations of a plan: pools, switches, NICs and VMs.

What a constructor of the source rejects cannot be built here: the checks are fields.

* `StaticAddr.host` — the address without its prefix;
* `Switch.network` — the subnet of a switch, of at least 256 addresses;
* `Switch.sidecarIp`, `Switch.mgmtIp` — its reserved addresses.
-/
import TestRange.Lib.Ipv4

namespace TestRange

/-! ### The layout of a subnet -/

def sidecarOffset : ℕ := 1

def mgmtOffset : ℕ := 2

def buildNicOffset : ℕ := 3

def dhcpRangeLo : ℕ := 10

def dhcpRangeHi : ℕ := 99

def userStaticLo : ℕ := 100

def userStaticHi : ℕ := 254

/-! ### Declarations -/

@[ext] structure StoragePool where
  name : String
  sizeGb : ℕ
  name_ne : name ≠ ""
  sizeGb_pos : 1 ≤ sizeGb

instance : DecidableEq StoragePool := fun p q =>
  decidable_of_iff (p.name = q.name ∧ p.sizeGb = q.sizeGb)
    ⟨fun h => StoragePool.ext h.1 h.2, fun h => by rw [h]; exact ⟨rfl, rfl⟩⟩

/-- A static address, bare or with a prefix; a gateway and resolvers may be dictated. -/
@[ext] structure StaticAddr where
  addr : String
  gw : Option String
  dns : List String
  addr_ok : (Ipv4.interface addr).isSome
  gw_ok : ∀ g ∈ gw, (Ipv4.address g.toList).isSome
  dns_ok : ∀ entry ∈ dns, (Ipv4.address entry.toList).isSome

instance : DecidableEq StaticAddr := fun a b =>
  decidable_of_iff (a.addr = b.addr ∧ a.gw = b.gw ∧ a.dns = b.dns)
    ⟨fun h => StaticAddr.ext h.1 h.2.1 h.2.2, fun h => by rw [h]; exact ⟨rfl, rfl, rfl⟩⟩

namespace StaticAddr

/-- The address as a number. -/
def ip (a : StaticAddr) : ℕ := ((Ipv4.interface a.addr).get a.addr_ok).1

/-- The address with no prefix. -/
def host (a : StaticAddr) : String := Ipv4.dotted a.ip

theorem ip_lt (a : StaticAddr) : a.ip < 2 ^ 32 :=
  Ipv4.interface_lt (Option.some_get a.addr_ok).symm

end StaticAddr

/-- The services of a switch's sidecar VM. -/
@[ext] structure Sidecar where
  dhcp : Bool
  dns : Bool
  nat : Bool
  /-- The address of its uplink NIC, if it does not ask for a lease there. -/
  addr : Option StaticAddr
  serves : (dhcp || dns || nat) = true
  addr_nat : addr.isSome → nat = true
  addr_prefixed : ∀ a ∈ addr, '/' ∈ a.addr.toList

instance : DecidableEq Sidecar := fun a b =>
  decidable_of_iff (a.dhcp = b.dhcp ∧ a.dns = b.dns ∧ a.nat = b.nat ∧ a.addr = b.addr)
    ⟨fun h => Sidecar.ext h.1 h.2.1 h.2.2.1 h.2.2.2,
      fun h => by rw [h]; exact ⟨rfl, rfl, rfl, rfl⟩⟩

/-- An L2 broadcast domain with its networks. -/
@[ext] structure Switch where
  name : String
  networks : List String
  cidr : String
  uplink : Option String
  mgmt : Bool
  sidecar : Option Sidecar
  name_ne : name ≠ ""
  networks_ne : ∀ n ∈ networks, n ≠ ""
  uplink_ne : uplink ≠ some ""
  /-- A network in strict form, of a prefix of at most 24 bits. -/
  cidr_ok : ∃ net ∈ Ipv4.network cidr, net.prefixLen ≤ 24
  nat_uplink : ∀ sc, sidecar = some sc → sc.nat = true → uplink.isSome

instance : DecidableEq Switch := fun a b =>
  decidable_of_iff (a.name = b.name ∧ a.networks = b.networks ∧ a.cidr = b.cidr ∧
    a.uplink = b.uplink ∧ a.mgmt = b.mgmt ∧ a.sidecar = b.sidecar)
    ⟨fun h => Switch.ext h.1 h.2.1 h.2.2.1 h.2.2.2.1 h.2.2.2.2.1 h.2.2.2.2.2,
      fun h => by rw [h]; exact ⟨rfl, rfl, rfl, rfl, rfl, rfl⟩⟩

namespace Switch

/-- The subnet of every network of the switch. -/
def network (sw : Switch) : Ipv4.Network :=
  (Ipv4.network sw.cidr).get (by
    obtain ⟨net, hnet, -⟩ := sw.cidr_ok
    rw [Option.mem_def.mp hnet]
    rfl)

theorem network_prefixLen_le (sw : Switch) : sw.network.prefixLen ≤ 24 := by
  obtain ⟨net, hnet, hle⟩ := sw.cidr_ok
  have heq : sw.network = net := by
    simp only [network, Option.mem_def.mp hnet, Option.get_some]
  rw [heq]
  exact hle

/-- The subnet has room for the whole layout. -/
theorem le_network_size (sw : Switch) : 256 ≤ sw.network.size := by
  have hle := sw.network_prefixLen_le
  calc 256 = 2 ^ 8 := rfl
    _ ≤ 2 ^ (32 - sw.network.prefixLen) := Nat.pow_le_pow_right (by omega) (by omega)

/-- The text of an address of the subnet, by its offset. -/
def ipAt (sw : Switch) (offset : ℕ) : String := Ipv4.dotted (sw.network.address + offset)

/-- The pinned address of the sidecar. -/
def sidecarIp (sw : Switch) : String := sw.ipAt sidecarOffset

/-- The pinned address of the host's adapter. -/
def mgmtIp (sw : Switch) : String := sw.ipAt mgmtOffset

/-- Whether the switch requires a sidecar VM. -/
def needsSidecar (sw : Switch) : Bool := sw.sidecar.isSome

/-- Whether the sidecar serves leases. -/
def dhcp (sw : Switch) : Bool := sw.sidecar.any (·.dhcp)

/-- Whether the sidecar masquerades out of the uplink. -/
def nat (sw : Switch) : Bool := sw.sidecar.any (·.nat)

/-- The hidden network name of the sidecar's uplink NIC. -/
def uplinkNetworkName (sw : Switch) : String := "__uplink__" ++ sw.name

/-- The networks of the sidecar's NICs, in attach order; `none` for a switch without
networks. -/
def sidecarNics (sw : Switch) : Option (List String) :=
  match sw.networks with
  | [] => none
  | net :: _ => some (net :: if sw.nat then [sw.uplinkNetworkName] else [])

end Switch

/-- The address mode of a NIC. -/
inductive NicAddr
  | unconfigured
  | dhcp
  | static (a : StaticAddr)
  deriving DecidableEq

/-- A NIC refers to a network through a handle, which names a switch. -/
structure Nic where
  network : String
  switch : String
  addr : NicAddr
  deriving DecidableEq

/-- What is read of a VM: the pools of its disks and its NICs. -/
@[ext] structure VMRecipe where
  name : String
  osPool : String
  dataPools : List String
  nics : List Nic
  name_ne : name ≠ ""

instance : DecidableEq VMRecipe := fun a b =>
  decidable_of_iff (a.name = b.name ∧ a.osPool = b.osPool ∧ a.dataPools = b.dataPools ∧
    a.nics = b.nics)
    ⟨fun h => VMRecipe.ext h.1 h.2.1 h.2.2.1 h.2.2.2, fun h => by rw [h]; exact ⟨rfl, rfl, rfl, rfl⟩⟩

end TestRange
