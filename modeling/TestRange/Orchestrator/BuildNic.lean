/-
The NIC of a build VM, and that no addresses conflict.

A build VM has one NIC on the build switch, with an address by the VM's place in the plan:
the offsets 3 to 9 first, then 100 to 254.

* `buildNicFor` — the build NIC of a VM;
* `buildNicFor_apart`, `buildNicFor_admitted` — build NICs of different VMs differ, and keep
  clear of what else the switch may carry;
* `addressing_sound` — the check of a plan, the accepted plans and the build switch taken
  together.
-/
import TestRange.Networks.Sidecar

namespace TestRange

/-! ### Build NICs -/

/-- What a builder needs to know of a network. -/
structure NetworkAddressing where
  cidr : String
  prefixLen : ℕ
  dhcp : Bool
  gateway : Option String
  dnsServer : Option String

def NetworkAddressing.fromSwitch (sw : Switch) : NetworkAddressing where
  cidr := sw.cidr
  prefixLen := sw.network.prefixLen
  dhcp := sw.dhcp
  gateway := if sw.nat then some sw.sidecarIp else none
  dnsServer := if sw.sidecar.any (·.dns) then some sw.sidecarIp else none

/-- The one NIC of a build VM. -/
structure BuildNic where
  mac : String
  network : String
  addr : StaticAddr
  addressing : NetworkAddressing

inductive BuildNicError
  | noNetwork
  | slotsExhausted (vmIndex : ℕ)

/-- The NIC index that is no declared NIC's. -/
def buildNicNicIdx : ℤ := -1

/-- The host offsets a build NIC may take, in allocation order. -/
def buildIpSlots : List ℕ :=
  List.range' buildNicOffset (dhcpRangeLo - buildNicOffset) ++
    List.range' userStaticLo (userStaticHi + 1 - userStaticLo)

/-- The offset of a VM, by its place in the plan. -/
def buildIpOffset (vmIndex : ℕ) : Except BuildNicError ℕ :=
  match buildIpSlots[vmIndex]? with
  | some offset => .ok offset
  | none => .error (.slotsExhausted vmIndex)

theorem mem_buildIpSlots {k : ℕ} (h : k ∈ buildIpSlots) :
    3 ≤ k ∧ k ≤ 254 ∧ ¬ (dhcpRangeLo ≤ k ∧ k ≤ dhcpRangeHi) := by
  simp only [buildIpSlots, buildNicOffset, dhcpRangeLo, dhcpRangeHi, userStaticLo, userStaticHi,
    List.mem_append, List.mem_range'_1] at h ⊢
  omega

theorem nodup_buildIpSlots : buildIpSlots.Nodup := by
  refine List.nodup_append.mpr ⟨List.nodup_range', List.nodup_range', ?_⟩
  simp only [buildNicOffset, dhcpRangeLo, userStaticLo, userStaticHi, List.mem_range'_1]
  omega

/-- The address at an offset of the subnet, as a static one. -/
def Switch.staticAt (sw : Switch) (offset : ℕ) (h : sw.network.address + offset < 2 ^ 32) :
    StaticAddr where
  addr := sw.ipAt offset
  gw := none
  dns := []
  addr_ok := by rw [Switch.ipAt, Ipv4.interface_dotted h]; rfl
  gw_ok := by simp
  dns_ok := by simp

theorem Switch.ip_staticAt (sw : Switch) (offset : ℕ) (h : sw.network.address + offset < 2 ^ 32) :
    (sw.staticAt offset h).ip = sw.network.address + offset := by
  simp only [StaticAddr.ip, Switch.staticAt, Switch.ipAt, Ipv4.interface_dotted h, Option.get_some]

/-- The build NIC of a VM.  An installer keeps the identity it is run under, so it is given
the address of the first declared NIC. -/
def buildNicFor (composeMac : String → String → ℤ → String) (planName : String) (sw : Switch)
    (v : VMRecipe) (installerOrigin : Bool) (vmIndex : ℕ) : Except BuildNicError BuildNic :=
  match sw.networks with
  | [] => .error .noNetwork
  | network :: _ =>
    match buildIpOffset vmIndex with
    | .error e => .error e
    | .ok offset =>
      if h : sw.network.address + offset < 2 ^ 32 then
        .ok {
          mac := composeMac planName v.name
            (if installerOrigin = true ∧ v.nics ≠ [] then 0 else buildNicNicIdx)
          network := network
          addr := sw.staticAt offset h
          addressing := .fromSwitch sw }
      -- `ipaddress` raises past the last address; the slots stay below it.
      else .error (.slotsExhausted vmIndex)

section

variable {composeMac : String → String → ℤ → String} {planName : String} {sw : Switch}
  {v v' : VMRecipe} {installerOrigin installerOrigin' : Bool} {i j : ℕ} {nic nic' : BuildNic}

/-- A build NIC is at the offset of its slot. -/
theorem buildNicFor_eq_ok (h : buildNicFor composeMac planName sw v installerOrigin i = .ok nic) :
    ∃ k, buildIpSlots[i]? = some k ∧ nic.addr.ip = sw.network.address + k := by
  unfold buildNicFor buildIpOffset at h
  split at h
  · cases h
  · cases hslot : buildIpSlots[i]? with
    | none =>
      rw [hslot] at h
      cases h
    | some k =>
      rw [hslot] at h
      dsimp only at h
      by_cases hlt : sw.network.address + k < 2 ^ 32
      · rw [dif_pos hlt] at h
        cases h
        exact ⟨k, rfl, sw.ip_staticAt k hlt⟩
      · rw [dif_neg hlt] at h
        cases h

/-- There is a build NIC for each of 162 VMs on a switch with a network. -/
theorem buildNicFor_isOk (hnet : sw.networks ≠ []) (hi : i < 162) :
    ∃ nic, buildNicFor composeMac planName sw v installerOrigin i = .ok nic := by
  have hlen : buildIpSlots.length = 162 := rfl
  have hget : buildIpSlots[i]? = some buildIpSlots[i] := List.getElem?_eq_getElem _
  have hslot := mem_buildIpSlots (List.getElem_mem (hlen ▸ hi : i < buildIpSlots.length))
  have hsize := sw.le_network_size
  have hlt : sw.network.address + buildIpSlots[i] < 2 ^ 32 := sw.network.address_add_lt (by omega)
  unfold buildNicFor buildIpOffset
  rw [hget]
  cases hcase : sw.networks with
  | nil => exact absurd hcase hnet
  | cons network rest =>
    dsimp only
    rw [dif_pos hlt]
    exact ⟨_, rfl⟩

/-- Build NICs of different VMs have different addresses. -/
theorem buildNicFor_apart (h : buildNicFor composeMac planName sw v installerOrigin i = .ok nic)
    (h' : buildNicFor composeMac planName sw v' installerOrigin' j = .ok nic') (hne : i ≠ j) :
    nic.addr.ip ≠ nic'.addr.ip := by
  obtain ⟨k, hk, hip⟩ := buildNicFor_eq_ok h
  obtain ⟨k', hk', hip'⟩ := buildNicFor_eq_ok h'
  rw [hip, hip']
  intro heq
  have hkk : k = k' := by omega
  subst hkk
  have hlt : i < buildIpSlots.length := (List.getElem?_eq_some_iff.mp hk).1
  exact hne ((List.getElem?_inj hlt nodup_buildIpSlots).mp (hk.trans hk'.symm))

/-- A build NIC is in the subnet, and clear of the reserved addresses and of every lease. -/
theorem buildNicFor_admitted
    (h : buildNicFor composeMac planName sw v installerOrigin i = .ok nic) :
    sw.network.Contains nic.addr.ip ∧ nic.addr.ip ≠ sw.network.address ∧
      nic.addr.ip ≠ sw.network.address + sidecarOffset ∧
      nic.addr.ip ≠ sw.network.address + mgmtOffset ∧ nic.addr.ip ≠ sw.network.broadcast ∧
      ¬ (sw.network.address + dhcpRangeLo ≤ nic.addr.ip ∧
        nic.addr.ip ≤ sw.network.address + dhcpRangeHi) := by
  obtain ⟨k, hk, hip⟩ := buildNicFor_eq_ok h
  obtain ⟨hlo, hhi, hpool⟩ := mem_buildIpSlots (List.mem_of_getElem? hk)
  have hsize := sw.le_network_size
  rw [hip, Ipv4.Network.contains_iff, Ipv4.Network.broadcast]
  simp only [sidecarOffset, mgmtOffset, dhcpRangeLo, dhcpRangeHi] at hpool ⊢
  omega

end

/-! ### No conflicts -/

/-- **Address plans are free of conflicts.**  The check accepts exactly the plans without a
conflict; in an accepted plan the sidecar, the host's adapter, the static NICs and every
address that `dnsmasq.conf` lets out are distinct and of the subnet; build NICs are
distinct, of the subnet, and clear of the sidecar, the host's adapter, the broadcast address
and the leases. -/
theorem addressing_sound (composeMac : String → String → ℤ → String) (planName : String) :
    (∀ switches vms, validateAddressing switches vms = .ok () ↔ ConflictFree switches vms) ∧
    (∀ (p : Plan) (macFor : String → ℕ → String), ∀ sw ∈ p.hyp.switches,
      leaseRanges (sw.confLines p.hyp.vms macFor) = (if sw.dhcp then
        [(sw.network.address + dhcpRangeLo, sw.network.address + dhcpRangeHi)] else []) ∧
      (sw.addresses p.hyp.vms macFor).Nodup ∧
      ∀ a ∈ sw.addresses p.hyp.vms macFor, ∃ ip, a = some ip ∧ sw.network.Contains ip) ∧
    ∀ (sw : Switch) (v : VMRecipe) (installerOrigin : Bool) (i : ℕ) (nic : BuildNic),
      buildNicFor composeMac planName sw v installerOrigin i = .ok nic →
      (∀ v' installerOrigin' j nic', buildNicFor composeMac planName sw v' installerOrigin' j =
        .ok nic' → i ≠ j → nic.addr.ip ≠ nic'.addr.ip) ∧
      sw.network.Contains nic.addr.ip ∧
      some nic.addr.ip ≠ Ipv4.address sw.sidecarIp.toList ∧
      some nic.addr.ip ≠ Ipv4.address sw.mgmtIp.toList ∧
      nic.addr.ip ≠ sw.network.broadcast ∧
      ¬ (sw.network.address + dhcpRangeLo ≤ nic.addr.ip ∧
        nic.addr.ip ≤ sw.network.address + dhcpRangeHi) := by
  refine ⟨fun switches vms => validateAddressing_iff, ?_, ?_⟩
  · intro p macFor sw hsw
    exact ⟨Switch.leaseRanges_confLines _ _, p.valid.nodup_addresses hsw macFor,
      fun a ha => p.valid.mem_addresses hsw ha⟩
  · intro sw v installerOrigin i nic hnic
    obtain ⟨hin, -, hsidecar, hmgmt, hbroadcast, hpool⟩ := buildNicFor_admitted hnic
    have hsidecarIp : Ipv4.address sw.sidecarIp.toList = _ :=
      sw.address_ipAt (k := sidecarOffset) (by decide)
    have hmgmtIp : Ipv4.address sw.mgmtIp.toList = _ :=
      sw.address_ipAt (k := mgmtOffset) (by decide)
    refine ⟨fun v' io' j nic' hnic' hne => buildNicFor_apart hnic hnic' hne, hin, ?_, ?_,
      hbroadcast, hpool⟩
    · rw [hsidecarIp]
      exact fun heq => hsidecar (Option.some.inj heq)
    · rw [hmgmtIp]
      exact fun heq => hmgmt (Option.some.inj heq)

/-! ### A lease on a network that is not declared -/

/-- What was to be accepted if only static NICs had to be on declared networks. -/
structure StaticsConflictFree (switches : List Switch) (vms : List VMRecipe) : Prop where
  declared : ∀ v ∈ vms, ∀ nic ∈ v.nics, ∀ a, nic.addr = .static a →
    ∃ sw ∈ switches, nic.network ∈ sw.networks
  admitted : ∀ v ∈ vms, ∀ nic ∈ v.nics, ∀ a, nic.addr = .static a →
    ∀ sw, switchFor switches nic.network = some sw → sw.Admits a.ip
  distinct : (attachments vms).Pairwise (Attachment.Apart switches)

/-- A VM that asks for a lease on a network that no switch declares. -/
def ghostVm : VMRecipe := ⟨"web", "p", [], [⟨"ghost", "sw", .dhcp⟩], by decide⟩

/-- It has no static NIC, and is refused all the same. -/
theorem ghostVm_refused : StaticsConflictFree [] [ghostVm] ∧
    validateAddressing [] [ghostVm] =
      .error [(⟨"web", 0, "ghost", none⟩, .unknownNetwork)] := by
  refine ⟨⟨?_, ?_, by simp [attachments, ghostVm]⟩, rfl⟩
  · simp [ghostVm]
  · simp [ghostVm]

end TestRange
