/-
The configuration of a switch's sidecar, and the addresses in use on a switch.

* `renderDnsmasqConf` — the DHCP and DNS configuration of a sidecar;
* `leaseRanges_dnsmasqLines` — the one range of leases it declares;
* `Switch.addresses` — the addresses on a switch: sidecar, host adapter, static NICs and
  leases;
* `Hypervisor.Valid.nodup_addresses`, `Hypervisor.Valid.mem_addresses` — in an accepted plan
  they are distinct and of the subnet.
-/
import TestRange.Plan

namespace TestRange

/-! ### The configuration -/

def leasefile : String := "/var/lib/misc/dnsmasq.leases"

def sidecarSwitchNic : String := "eth0"

/-- The line of a NIC on the switch, if it has one. -/
def nicLine (sw : Switch) (sc : Sidecar) (macFor : String → ℕ → String) (x : Attachment) :
    Option String :=
  if x.nic.network ∈ sw.networks then
    match x.nic.addr with
    | .static a =>
      if sc.dns then some ("host-record=" ++ x.vm ++ "." ++ x.nic.network ++ "," ++ a.host) else none
    | .dhcp => if sc.dhcp then some ("dhcp-host=" ++ macFor x.vm x.idx ++ "," ++ x.vm) else none
    | .unconfigured => none
  else none

/-- The resolvers to forward to, where the uplink does not lease any. -/
def upstreamLines (sc : Sidecar) : List String :=
  match sc.addr with
  | some a =>
    if sc.dns = true ∧ a.dns ≠ [] then "no-resolv" :: a.dns.map fun s => "server=" ++ s else []
  | none => []

/-- `dhcp-range=…` -/
def rangeLine (sw : Switch) : String :=
  "dhcp-range=" ++ sw.ipAt dhcpRangeLo ++ "," ++ sw.ipAt dhcpRangeHi ++ "," ++
    Ipv4.dotted sw.network.netmask ++ ",12h"

/-- The lines of `dnsmasq.conf`. -/
def dnsmasqLines (sw : Switch) (sc : Sidecar) (vms : List VMRecipe)
    (macFor : String → ℕ → String) : List String :=
  ["# rendered by testrange — sidecar dnsmasq config"] ++
  (if sc.dhcp then ["dhcp-leasefile=" ++ leasefile, "dhcp-authoritative",
    "interface=" ++ sidecarSwitchNic, "bind-interfaces"] else []) ++
  (if sc.dns then [] else ["port=0"]) ++
  upstreamLines sc ++
  (if sc.dhcp then
    [rangeLine sw,
      if sc.nat then "dhcp-option=option:router," ++ sw.sidecarIp else "dhcp-option=3",
      if sc.dns then "dhcp-option=option:dns-server," ++ sw.sidecarIp else "dhcp-option=6"]
    else []) ++
  (match sc.dns, sw.networks.getLast? with
    | true, some net => ["domain=" ++ net ++ "," ++ sw.cidr]
    | _, _ => []) ++
  (attachments vms).filterMap (nicLine sw sc macFor)

/-- The configuration of a switch's sidecar; the switch must have one. -/
def renderDnsmasqConf (sw : Switch) (vms : List VMRecipe) (macFor : String → ℕ → String) :
    Option String :=
  sw.sidecar.map fun sc => "\n".intercalate (dnsmasqLines sw sc vms macFor) ++ "\n"

/-! ### The leases it declares -/

/-- The first and the last address of a line's lease range. -/
def leaseRange (line : String) : Option (ℕ × ℕ) :=
  if "dhcp-range=".toList.isPrefixOf line.toList then
    match (line.toList.drop 11).splitOn ',' with
    | lo :: hi :: _ => (Ipv4.address lo).bind fun lo => (Ipv4.address hi).map fun hi => (lo, hi)
    | _ => none
  else none

theorem leaseRange_eq_none {line : String}
    (h : "dhcp-range=".toList.isPrefixOf line.toList = false) : leaseRange line = none := by
  rw [leaseRange, h, if_neg (by decide)]

namespace Switch

variable (sw : Switch)

theorem address_ipAt {k : ℕ} (hk : k < 256) :
    Ipv4.address (sw.ipAt k).toList = some (sw.network.address + k) := by
  have hsize := sw.le_network_size
  exact Ipv4.address_dotted (sw.network.address_add_lt (by omega))

end Switch

/-- The range line declares the offsets 10 to 99. -/
theorem leaseRange_rangeLine (sw : Switch) : leaseRange (rangeLine sw) =
    some (sw.network.address + dhcpRangeLo, sw.network.address + dhcpRangeHi) := by
  have hcomma (k : ℕ) : ',' ∉ (sw.ipAt k).toList := (Ipv4.notMem_dotted _).2
  have htext : (rangeLine sw).toList = "dhcp-range=".toList ++ ((sw.ipAt dhcpRangeLo).toList ++
      ',' :: ((sw.ipAt dhcpRangeHi).toList ++
        ',' :: ((Ipv4.dotted sw.network.netmask).toList ++ ",12h".toList))) := by
    simp only [rangeLine, String.toList_append, List.append_assoc]
    rfl
  have hdrop : (rangeLine sw).toList.drop 11 = (sw.ipAt dhcpRangeLo).toList ++
      ',' :: ((sw.ipAt dhcpRangeHi).toList ++
        ',' :: ((Ipv4.dotted sw.network.netmask).toList ++ ",12h".toList)) := by
    rw [htext]
    rfl
  rw [leaseRange, hdrop, if_pos (by rw [htext, List.isPrefixOf_iff_prefix]; exact List.prefix_append _ _),
    List.splitOn_append_cons_self_of_not_mem (hcomma _),
    List.splitOn_append_cons_self_of_not_mem (hcomma _)]
  dsimp only
  rw [sw.address_ipAt (by decide), sw.address_ipAt (by decide)]
  rfl

/-- A line that starts with another directive declares none. -/
theorem leaseRange_append {directive : String} (rest : String)
    (h : ∀ cs, "dhcp-range=".toList.isPrefixOf (directive.toList ++ cs) = false) :
    leaseRange (directive ++ rest) = none := by
  apply leaseRange_eq_none
  rw [String.toList_append]
  exact h rest.toList

theorem leaseRange_nicLine {sw : Switch} {sc : Sidecar} {macFor : String → ℕ → String}
    {x : Attachment} {line : String} (h : nicLine sw sc macFor x = some line) :
    leaseRange line = none := by
  unfold nicLine at h
  split at h
  rotate_left
  · cases h
  split at h
  · split_ifs at h
    cases h
    simp only [String.append_assoc]
    exact leaseRange_append _ fun cs => rfl
  · split_ifs at h
    cases h
    simp only [String.append_assoc]
    exact leaseRange_append _ fun cs => rfl
  · cases h

theorem leaseRange_upstreamLines {sc : Sidecar} {line : String} (h : line ∈ upstreamLines sc) :
    leaseRange line = none := by
  unfold upstreamLines at h
  split at h
  · split_ifs at h
    · rcases List.mem_cons.mp h with rfl | hserver
      · rfl
      · obtain ⟨s, -, rfl⟩ := List.mem_map.mp hserver
        exact leaseRange_append _ fun cs => rfl
    · cases h
  · cases h

/-- The lease ranges of a configuration. -/
def leaseRanges (lines : List String) : List (ℕ × ℕ) := lines.filterMap leaseRange

/-- **A sidecar that serves leases declares one range, any other none.** -/
theorem leaseRanges_dnsmasqLines (sw : Switch) (sc : Sidecar) (vms : List VMRecipe)
    (macFor : String → ℕ → String) :
    leaseRanges (dnsmasqLines sw sc vms macFor) = if sc.dhcp then
      [(sw.network.address + dhcpRangeLo, sw.network.address + dhcpRangeHi)] else [] := by
  have hnone {lines : List String} (h : ∀ line ∈ lines, leaseRange line = none) :
      leaseRanges lines = [] := List.filterMap_eq_nil_iff.mpr h
  have hhead : leaseRanges ["# rendered by testrange — sidecar dnsmasq config"] = [] := rfl
  have hserve : leaseRanges (if sc.dhcp then ["dhcp-leasefile=" ++ leasefile, "dhcp-authoritative",
      "interface=" ++ sidecarSwitchNic, "bind-interfaces"] else []) = [] := by
    split_ifs <;> rfl
  have hport : leaseRanges (if sc.dns then [] else ["port=0"]) = [] := by
    split_ifs <;> rfl
  have hrange : leaseRanges (if sc.dhcp then
      [rangeLine sw,
        if sc.nat then "dhcp-option=option:router," ++ sw.sidecarIp else "dhcp-option=3",
        if sc.dns then "dhcp-option=option:dns-server," ++ sw.sidecarIp else "dhcp-option=6"]
      else []) = if sc.dhcp then
        [(sw.network.address + dhcpRangeLo, sw.network.address + dhcpRangeHi)] else [] := by
    have hrouter : leaseRange (if sc.nat then "dhcp-option=option:router," ++ sw.sidecarIp
        else "dhcp-option=3") = none := by
      split_ifs
      · exact leaseRange_append _ fun cs => rfl
      · rfl
    have hresolver : leaseRange (if sc.dns then "dhcp-option=option:dns-server," ++ sw.sidecarIp
        else "dhcp-option=6") = none := by
      split_ifs
      · exact leaseRange_append _ fun cs => rfl
      · rfl
    cases sc.dhcp with
    | true =>
      simp only [if_true, leaseRanges, List.filterMap_cons, leaseRange_rangeLine, hrouter, hresolver,
        List.filterMap_nil]
    | false => rfl
  have hdomain : leaseRanges (match sc.dns, sw.networks.getLast? with
      | true, some net => ["domain=" ++ net ++ "," ++ sw.cidr]
      | _, _ => []) = [] := by
    refine hnone fun line hline => ?_
    split at hline
    · rw [List.mem_singleton.mp hline, String.append_assoc, String.append_assoc]
      exact leaseRange_append _ fun cs => rfl
    · cases hline
  have hnics : leaseRanges ((attachments vms).filterMap (nicLine sw sc macFor)) = [] := by
    refine hnone fun line hline => ?_
    obtain ⟨x, -, hx⟩ := List.mem_filterMap.mp hline
    exact leaseRange_nicLine hx
  have hupstream : leaseRanges (upstreamLines sc) = [] :=
    hnone fun line hline => leaseRange_upstreamLines hline
  unfold dnsmasqLines
  unfold leaseRanges at *
  simp only [List.filterMap_append, hhead, hserve, hport, hupstream, hrange, hdomain, hnics,
    List.nil_append, List.append_nil]

/-! ### The addresses in use -/

namespace Switch

variable (sw : Switch)

/-- The address of a NIC that is static and on the switch. -/
def staticIp (x : Attachment) : Option ℕ :=
  match x.nic.addr with
  | .static a => if x.nic.network ∈ sw.networks then some a.ip else none
  | _ => none

/-- The lines of the sidecar's configuration, if there is a sidecar. -/
def confLines (vms : List VMRecipe) (macFor : String → ℕ → String) : List String :=
  match sw.sidecar with
  | some sc => dnsmasqLines sw sc vms macFor
  | none => []

/-- The addresses in use on a switch: of its sidecar, of the host's adapter, of the static
NICs, and every address that may be leased. -/
def addresses (vms : List VMRecipe) (macFor : String → ℕ → String) : List (Option ℕ) :=
  (if sw.needsSidecar then [Ipv4.address sw.sidecarIp.toList] else []) ++
  (if sw.mgmt then [Ipv4.address sw.mgmtIp.toList] else []) ++
  ((attachments vms).filterMap sw.staticIp).map some ++
  ((leaseRanges (sw.confLines vms macFor)).flatMap fun r =>
    List.range' r.1 (r.2 + 1 - r.1)).map some

variable {sw}

/-- The leases of a switch are the offsets 10 to 99, where it serves any. -/
theorem leaseRanges_confLines (vms : List VMRecipe) (macFor : String → ℕ → String) :
    leaseRanges (sw.confLines vms macFor) = if sw.dhcp then
      [(sw.network.address + dhcpRangeLo, sw.network.address + dhcpRangeHi)] else [] := by
  unfold confLines dhcp
  cases sw.sidecar with
  | none => rfl
  | some sc => exact leaseRanges_dnsmasqLines sw sc vms macFor

theorem mem_leases {vms : List VMRecipe} {macFor : String → ℕ → String} {ip : ℕ} :
    (ip ∈ (leaseRanges (sw.confLines vms macFor)).flatMap fun r =>
      List.range' r.1 (r.2 + 1 - r.1)) ↔
    sw.dhcp = true ∧ sw.network.address + dhcpRangeLo ≤ ip ∧
      ip ≤ sw.network.address + dhcpRangeHi := by
  rw [leaseRanges_confLines]
  cases sw.dhcp with
  | false => simp
  | true =>
    simp only [if_true, List.flatMap_cons, List.flatMap_nil, List.append_nil, List.mem_range'_1,
      true_and, dhcpRangeLo, dhcpRangeHi]
    omega

theorem nodup_leases (vms : List VMRecipe) (macFor : String → ℕ → String) :
    ((leaseRanges (sw.confLines vms macFor)).flatMap fun r =>
      List.range' r.1 (r.2 + 1 - r.1)).Nodup := by
  rw [leaseRanges_confLines]
  split_ifs
  · simpa using List.nodup_range'
  · exact List.nodup_nil

end Switch

namespace Hypervisor.Valid

variable {hyp : Hypervisor} (h : hyp.Valid) {sw : Switch} (hsw : sw ∈ hyp.switches)
include h hsw

/-- A static address on a switch is one that the switch admits. -/
theorem admits {ip : ℕ} (hip : ip ∈ (attachments hyp.vms).filterMap sw.staticIp) :
    sw.Admits ip := by
  obtain ⟨x, hx, hstatic⟩ := List.mem_filterMap.mp hip
  obtain ⟨v, hv, -, hnic⟩ := mem_attachments hx
  unfold Switch.staticIp at hstatic
  split at hstatic
  · rename_i a haddr
    split_ifs at hstatic with hnet
    cases hstatic
    exact h.conflictFree.admitted v hv x.nic hnic a haddr sw (h.switchFor_eq hsw hnet)
  · cases hstatic

theorem claim_of_staticIp {x : Attachment} {ip : ℕ} (hx : sw.staticIp x = some ip) :
    x.claim hyp.switches = some (sw.name, ip) := by
  unfold Switch.staticIp at hx
  split at hx
  · rename_i a haddr
    split_ifs at hx with hnet
    cases hx
    simp only [Attachment.claim, h.switchFor_eq hsw hnet, haddr]
  · cases hx

theorem nodup_statics : ((attachments hyp.vms).filterMap sw.staticIp).Nodup := by
  rw [List.Nodup, List.pairwise_filterMap]
  refine h.conflictFree.distinct.imp fun {x y} hapart ip hx ip' hy heq => ?_
  subst heq
  exact hapart _ (h.claim_of_staticIp hsw hx) (h.claim_of_staticIp hsw hy)

/-- The addresses of a switch in four ranges: the first offset, the second, what the switch
admits, and the leases. -/
theorem addresses_eq (macFor : String → ℕ → String) :
    ∃ infra statics leases : List ℕ,
      sw.addresses hyp.vms macFor = (infra ++ statics ++ leases).map some ∧
      infra.Nodup ∧ statics.Nodup ∧ leases.Nodup ∧
      (∀ ip ∈ infra, (sw.needsSidecar = true ∧ ip = sw.network.address + sidecarOffset) ∨
        (sw.mgmt = true ∧ ip = sw.network.address + mgmtOffset)) ∧
      (∀ ip ∈ statics, sw.Admits ip) ∧
      (∀ ip ∈ leases, sw.dhcp = true ∧ sw.network.address + dhcpRangeLo ≤ ip ∧
        ip ≤ sw.network.address + dhcpRangeHi) := by
  refine ⟨(if sw.needsSidecar then [sw.network.address + sidecarOffset] else []) ++
      (if sw.mgmt then [sw.network.address + mgmtOffset] else []),
    (attachments hyp.vms).filterMap sw.staticIp,
    (leaseRanges (sw.confLines hyp.vms macFor)).flatMap fun r => List.range' r.1 (r.2 + 1 - r.1),
    ?_, ?_, h.nodup_statics hsw, Switch.nodup_leases _ _, ?_, fun ip => h.admits hsw,
    fun ip => Switch.mem_leases.mp⟩
  · have hsidecar : Ipv4.address sw.sidecarIp.toList = _ := sw.address_ipAt (k := sidecarOffset) (by decide)
    have hmgmt : Ipv4.address sw.mgmtIp.toList = _ := sw.address_ipAt (k := mgmtOffset) (by decide)
    unfold Switch.addresses
    rw [hsidecar, hmgmt]
    simp only [List.map_append, apply_ite (List.map some), List.map_cons, List.map_nil]
  · split_ifs <;> simp [sidecarOffset, mgmtOffset]
  · intro ip hip
    rw [List.mem_append] at hip
    rcases hip with hip | hip
    · split_ifs at hip with hneeds
      · exact .inl ⟨hneeds, List.mem_singleton.mp hip⟩
      · cases hip
    · split_ifs at hip with hneeds
      · exact .inr ⟨hneeds, List.mem_singleton.mp hip⟩
      · cases hip

/-- The addresses in use on a switch are distinct. -/
theorem nodup_addresses (macFor : String → ℕ → String) : (sw.addresses hyp.vms macFor).Nodup := by
  obtain ⟨infra, statics, leases, heq, hinfra, hstatics, hleases, hmi, hms, hml⟩ :=
    h.addresses_eq hsw macFor
  rw [heq]
  refine List.Nodup.map (Option.some_injective _) ?_
  simp only [sidecarOffset, mgmtOffset, dhcpRangeLo, dhcpRangeHi] at hmi hml
  refine List.nodup_append.mpr ⟨List.nodup_append.mpr ⟨hinfra, hstatics, ?_⟩, hleases, ?_⟩
  · rintro ip hip _ hip' rfl
    rcases hmi ip hip with ⟨hneeds, hoff⟩ | ⟨hneeds, hoff⟩
    · exact (hms ip hip').ne_sidecar hneeds hoff
    · exact (hms ip hip').ne_mgmt hneeds hoff
  · rintro ip hip _ hip' rfl
    obtain ⟨hdhcp, hlo, hhi⟩ := hml ip hip'
    rcases List.mem_append.mp hip with hip | hip
    · rcases hmi ip hip with ⟨-, hoff⟩ | ⟨-, hoff⟩ <;> omega
    · exact (hms ip hip).not_leased hdhcp ⟨hlo, hhi⟩

/-- Every address in use on a switch is one of its subnet. -/
theorem mem_addresses {macFor : String → ℕ → String} {a : Option ℕ}
    (ha : a ∈ sw.addresses hyp.vms macFor) : ∃ ip, a = some ip ∧ sw.network.Contains ip := by
  obtain ⟨infra, statics, leases, heq, -, -, -, hmi, hms, hml⟩ := h.addresses_eq hsw macFor
  rw [heq] at ha
  obtain ⟨ip, hip, rfl⟩ := List.mem_map.mp ha
  refine ⟨ip, rfl, ?_⟩
  simp only [sidecarOffset, mgmtOffset, dhcpRangeLo, dhcpRangeHi] at hmi hml
  have hsize := sw.le_network_size
  rw [List.mem_append, List.mem_append] at hip
  rcases hip with (hip | hip) | hip
  · rw [Ipv4.Network.contains_iff]
    rcases hmi ip hip with ⟨-, hoff⟩ | ⟨-, hoff⟩ <;> omega
  · exact (hms ip hip).inside
  · rw [Ipv4.Network.contains_iff]
    have hlease := hml ip hip
    omega

end Hypervisor.Valid

end TestRange
