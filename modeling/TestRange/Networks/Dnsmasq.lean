/-
What the configuration of a sidecar says of the NICs on its switch.

Names are written into the lines as they are.  The characters they are made of keep a line
a line and a directive a directive, but a name may hold the dot that joins a VM's name to
its network's.  The names of a build switch are looked at by no check.

* `parseDirective` — a line read back;
* `Directives` — one directive a NIC, each read back to its NIC, and no name shared;
* `Blurred` — two NICs whose joined names are one text;
* `Torn` — the network whose name is the domain breaks the line of the domain;
* `Plan.directives_iff` — the configuration is as wanted exactly where no two NICs of the
  switch are blurred and the domain is not torn, which is so of every switch of the plan.
-/
import TestRange.Networks.Sidecar
import TestRange.Lib.Text

namespace TestRange

/-! ### Reading a configuration -/

/-- What a line says of a NIC. -/
inductive Directive
  | hostRecord (name address : String)
  | dhcpHost (mac vm : String)
  deriving DecidableEq

/-- The values of a line that gives `key`. -/
def lineValues (key : String) (line : List Char) : Option (List String) :=
  if key.toList.isPrefixOf line then
    some (((line.drop key.toList.length).splitOn ',').map String.ofList)
  else none

/-- A line read back. -/
def parseDirective (line : List Char) : Option Directive :=
  match lineValues "host-record=" line with
  | some [name, address] => some (.hostRecord name address)
  | _ =>
    match lineValues "dhcp-host=" line with
    | some [mac, vm] => some (.dhcpHost mac vm)
    | _ => none

/-- What is to be said of a NIC on the switch. -/
def Attachment.directive (sw : Switch) (sc : Sidecar) (macFor : String → ℕ → String)
    (x : Attachment) : Option Directive :=
  if x.nic.network ∈ sw.networks then
    match x.nic.addr with
    | .static a => if sc.dns then some (.hostRecord (x.vm ++ "." ++ x.nic.network) a.host) else none
    | .dhcp => if sc.dhcp then some (.dhcpHost (macFor x.vm x.idx) x.vm) else none
    | .unconfigured => none
  else none

/-- The lines of the services, which name no NIC. -/
abbrev serviceLines (sw : Switch) (sc : Sidecar) (macFor : String → ℕ → String) : List String :=
  dnsmasqLines sw sc [] macFor

/-- `domain=…` -/
def domainLine (sw : Switch) (net : String) : String := "domain=" ++ net ++ "," ++ sw.cidr

/-- A configuration that names each NIC unambiguously. -/
structure Directives (sw : Switch) (sc : Sidecar) (vms : List VMRecipe)
    (macFor : String → ℕ → String) (conf : String) : Prop where
  /-- After the lines of the services, one line a NIC in the order of the plan. -/
  lines : conf.toList.splitOn '\n' = (serviceLines sw sc macFor).map (·.toList) ++
    ((attachments vms).filterMap (nicLine sw sc macFor)).map (·.toList) ++ [[]]
  services : ∀ line ∈ serviceLines sw sc macFor, parseDirective line.toList = none
  /-- The domain is that of one network. -/
  domain : sc.dns = true → ∀ net, sw.networks.getLast? = some net →
    lineValues "domain=" (domainLine sw net).toList = some [net, sw.cidr]
  nics : ∀ x ∈ attachments vms, ((nicLine sw sc macFor x).map fun line =>
    parseDirective line.toList) = (x.directive sw sc macFor).map some
  /-- A record tells its NIC. -/
  records : ∀ x ∈ attachments vms, ∀ y ∈ attachments vms, ∀ name address,
    x.directive sw sc macFor = some (.hostRecord name address) →
    y.directive sw sc macFor = some (.hostRecord name address) → x = y
  /-- A lease tells its NIC, where the MACs of a VM's NICs do. -/
  leases : (∀ vm, (macFor vm).Injective) → ∀ x ∈ attachments vms, ∀ y ∈ attachments vms,
    ∀ mac vm, x.directive sw sc macFor = some (.dhcpHost mac vm) →
    y.directive sw sc macFor = some (.dhcpHost mac vm) → x = y
  /-- A name is looked up to one VM on one network. -/
  lookup : ∀ x ∈ attachments vms, ∀ y ∈ attachments vms, ∀ name a b,
    x.directive sw sc macFor = some (.hostRecord name a) →
    y.directive sw sc macFor = some (.hostRecord name b) →
    x.vm = y.vm ∧ x.nic.network = y.nic.network

/-- Two static NICs of the switch on different sides of the dots in one text: the VM of the
second is the VM of the first with `k` joined to it, and the network of the first is that of
the second with `k` before it. -/
def Blurred (sw : Switch) (vms : List VMRecipe) : Prop :=
  ∃ x ∈ attachments vms, ∃ y ∈ attachments vms,
    (x.nic.network ∈ sw.networks ∧ ∃ a, x.nic.addr = .static a) ∧
    (y.nic.network ∈ sw.networks ∧ ∃ b, y.nic.addr = .static b) ∧
    ∃ k, y.vm = x.vm ++ "." ++ k ∧ x.nic.network = k ++ "." ++ y.nic.network

/-- The name of the last network of the switch, which is the domain, holds what separates lines or
values. -/
def Torn (sw : Switch) : Prop :=
  ∃ net, sw.networks.getLast? = some net ∧ ('\n' ∈ net.toList ∨ ',' ∈ net.toList)

/-- A text that a MAC may be. -/
def isMacChar (c : Char) : Bool := c.isAlphanum || c = ':'

/-! ### Lines stay lines -/

theorem isNameChar_of_safeName {s : String} (h : safeName s = true) :
    ∀ c ∈ s.toList, isNameChar c = true := by
  unfold safeName at h
  intro c hc
  split at h
  · cases h
  · rename_i d ds hs
    rw [Bool.and_eq_true, List.all_eq_true] at h
    rw [hs] at hc
    rcases List.mem_cons.mp hc with rfl | hc
    · simp only [isNameChar, h.1, Bool.true_or]
    · exact h.2 c hc

theorem isPlain_dotted {n : ℕ} (hn : n < 2 ^ 32) :
    ∀ c ∈ (Ipv4.dotted n).toList, Ipv4.isPlain c = true :=
  Ipv4.isPlain_of_address (Ipv4.address_dotted hn)

theorem Switch.isPlain_ipAt (sw : Switch) {k : ℕ} (hk : k < 256) :
    ∀ c ∈ (sw.ipAt k).toList, Ipv4.isPlain c = true := by
  have hsize := sw.le_network_size
  exact isPlain_dotted (sw.network.address_add_lt (by omega))

theorem Switch.isPlain_cidr (sw : Switch) : ∀ c ∈ sw.cidr.toList, Ipv4.isPlain c = true := by
  obtain ⟨net, hnet, -⟩ := sw.cidr_ok
  exact Ipv4.isPlain_of_network (Option.mem_def.mp hnet)

theorem StaticAddr.isPlain_dns (a : StaticAddr) {s : String} (hs : s ∈ a.dns) :
    ∀ c ∈ s.toList, Ipv4.isPlain c = true := by
  obtain ⟨n, hn⟩ := Option.isSome_iff_exists.mp (a.dns_ok s hs)
  exact Ipv4.isPlain_of_address hn

/-- A line that stays a line and names no NIC. -/
structure QuietLine (line : String) : Prop where
  newline : '\n' ∉ line.toList
  directive : parseDirective line.toList = none

theorem QuietLine.append {keyword rest : String} (hkey : '\n' ∉ keyword.toList)
    (hrest : '\n' ∉ rest.toList)
    (hhost : ∀ cs, "host-record=".toList.isPrefixOf (keyword.toList ++ cs) = false)
    (hdhcp : ∀ cs, "dhcp-host=".toList.isPrefixOf (keyword.toList ++ cs) = false) :
    QuietLine (keyword ++ rest) := by
  constructor
  · rw [String.toList_append, List.mem_append, not_or]
    exact ⟨hkey, hrest⟩
  · rw [parseDirective, lineValues, lineValues, String.toList_append, hhost, hdhcp]
    rfl

section

variable (sw : Switch) (sc : Sidecar) (macFor : String → ℕ → String)

theorem quiet_upstreamLines : ∀ line ∈ upstreamLines sc, QuietLine line := by
  intro line hline
  unfold upstreamLines at hline
  split at hline
  · rename_i a _
    split_ifs at hline
    · rcases List.mem_cons.mp hline with rfl | hserver
      · exact ⟨by decide, by decide⟩
      · obtain ⟨s, hs, rfl⟩ := List.mem_map.mp hserver
        exact .append (by decide) (Text.notMem_of_forall (a.isPlain_dns hs) rfl) (fun _ => rfl)
          fun _ => rfl
    · cases hline
  · cases hline

theorem quiet_rangeLine : QuietLine (rangeLine sw) := by
  have hlo := Text.notMem_of_forall (sw.isPlain_ipAt (k := dhcpRangeLo) (by decide)) (c := '\n') rfl
  have hhi := Text.notMem_of_forall (sw.isPlain_ipAt (k := dhcpRangeHi) (by decide)) (c := '\n') rfl
  have hmask : '\n' ∉ (Ipv4.dotted sw.network.netmask).toList := by
    refine Text.notMem_of_forall (isPlain_dotted ?_) rfl
    have hsize := sw.le_network_size
    unfold Ipv4.Network.netmask
    omega
  unfold rangeLine
  simp only [String.append_assoc]
  refine .append (by decide) ?_ (fun _ => rfl) fun _ => rfl
  simp only [String.toList_append, List.mem_append, not_or]
  exact ⟨hlo, by decide, hhi, by decide, hmask, by decide⟩

theorem quiet_optionLines : ∀ line ∈ [rangeLine sw,
    if sc.nat then "dhcp-option=option:router," ++ sw.sidecarIp else "dhcp-option=3",
    if sc.dns then "dhcp-option=option:dns-server," ++ sw.sidecarIp else "dhcp-option=6"],
    QuietLine line := by
  have hip : '\n' ∉ sw.sidecarIp.toList :=
    Text.notMem_of_forall (sw.isPlain_ipAt (k := sidecarOffset) (by decide)) rfl
  intro line hline
  simp only [List.mem_cons, List.not_mem_nil, or_false] at hline
  rcases hline with rfl | rfl | rfl
  · exact quiet_rangeLine sw
  · split_ifs
    · exact .append (by decide) hip (fun _ => rfl) fun _ => rfl
    · exact ⟨by decide, by decide⟩
  · split_ifs
    · exact .append (by decide) hip (fun _ => rfl) fun _ => rfl
    · exact ⟨by decide, by decide⟩

variable {sw}

/-- The lines of the services stay lines and name no NIC. -/
theorem quiet_serviceLines (hwhole : ¬ (sc.dns = true ∧ Torn sw)) :
    ∀ line ∈ serviceLines sw sc macFor, QuietLine line := by
  intro line hline
  simp only [serviceLines, dnsmasqLines, List.mem_append] at hline
  rcases hline with (((((hhead | hserve) | hport) | hupstream) | hoptions) | hdomain) | hnics
  · rw [List.mem_singleton.mp hhead]
    exact ⟨by decide, by decide⟩
  · split_ifs at hserve
    · simp only [List.mem_cons, List.not_mem_nil, or_false] at hserve
      rcases hserve with rfl | rfl | rfl | rfl <;> exact ⟨by decide, by decide⟩
    · cases hserve
  · split_ifs at hport
    · cases hport
    · rw [List.mem_singleton.mp hport]
      exact ⟨by decide, by decide⟩
  · exact quiet_upstreamLines sc line hupstream
  · by_cases hdhcp : sc.dhcp = true
    · rw [if_pos hdhcp] at hoptions
      exact quiet_optionLines sw sc line hoptions
    · rw [if_neg hdhcp] at hoptions
      cases hoptions
  -- The domain line has the name of a network as it stands.
  · split at hdomain
    · rename_i net hdns hlast
      have hnet : '\n' ∉ net.toList := fun hmem => hwhole ⟨hdns, net, hlast, .inl hmem⟩
      rw [List.mem_singleton.mp hdomain, String.append_assoc, String.append_assoc]
      refine .append (by decide) ?_ (fun _ => rfl) fun _ => rfl
      simp only [String.toList_append, List.mem_append, not_or]
      exact ⟨hnet, by decide, Text.notMem_of_forall sw.isPlain_cidr rfl⟩
    · cases hdomain
  · cases hnics

end

/-! ### The lines of the NICs -/

/-- The values of a line that starts with the key. -/
theorem lineValues_append (key : String) (rest : List Char) :
    lineValues key (key.toList ++ rest) = some ((rest.splitOn ',').map String.ofList) := by
  rw [lineValues, if_pos (List.isPrefixOf_iff_prefix.mpr (List.prefix_append _ _)),
    List.drop_left]

/-- Two values without commas are read back. -/
theorem splitOn_pair {a b : String} (ha : ',' ∉ a.toList) (hb : ',' ∉ b.toList) :
    ((a.toList ++ ',' :: b.toList).splitOn ',').map String.ofList = [a, b] := by
  rw [List.splitOn_append_cons_self_of_not_mem ha, List.splitOn_eq_singleton hb]
  simp

theorem parseDirective_hostRecord {name address : String} (hname : ',' ∉ name.toList)
    (haddress : ',' ∉ address.toList) :
    parseDirective ("host-record=" ++ name ++ "," ++ address).toList =
      some (.hostRecord name address) := by
  have htext : ("host-record=" ++ name ++ "," ++ address).toList =
      "host-record=".toList ++ (name.toList ++ ',' :: address.toList) := by
    simp only [String.toList_append, List.append_assoc]
    rfl
  rw [parseDirective, htext, lineValues_append, splitOn_pair hname haddress]

theorem parseDirective_dhcpHost {mac vm : String} (hmac : ',' ∉ mac.toList)
    (hvm : ',' ∉ vm.toList) :
    parseDirective ("dhcp-host=" ++ mac ++ "," ++ vm).toList = some (.dhcpHost mac vm) := by
  have htext : ("dhcp-host=" ++ mac ++ "," ++ vm).toList =
      "dhcp-host=".toList ++ (mac.toList ++ ',' :: vm.toList) := by
    simp only [String.toList_append, List.append_assoc]
    rfl
  have hother : lineValues "host-record=" ("dhcp-host=".toList ++ (mac.toList ++ ',' :: vm.toList)) =
      none := rfl
  rw [parseDirective, htext, hother, lineValues_append, splitOn_pair hmac hvm]

theorem domainLine_toList (sw : Switch) (net : String) : (domainLine sw net).toList =
    "domain=".toList ++ (net.toList ++ ',' :: sw.cidr.toList) := by
  simp only [domainLine, String.toList_append, List.append_assoc]
  rfl

/-- The line of the domain is read back exactly where the name has no comma. -/
theorem lineValues_domainLine (sw : Switch) (net : String) :
    lineValues "domain=" (domainLine sw net).toList = some [net, sw.cidr] ↔ ',' ∉ net.toList := by
  have hcidr : ',' ∉ sw.cidr.toList := Text.notMem_of_forall sw.isPlain_cidr rfl
  rw [domainLine_toList, lineValues_append]
  constructor
  · intro h
    have hmem : net ∈ ((net.toList ++ ',' :: sw.cidr.toList).splitOn ',').map String.ofList := by
      rw [Option.some.inj h]
      exact List.mem_cons_self
    obtain ⟨piece, hpiece, rfl⟩ := List.mem_map.mp hmem
    rw [String.toList_ofList]
    exact Text.notMem_of_mem_splitOn hpiece
  · intro h
    rw [splitOn_pair h hcidr]

/-- Where two names joined by a dot are one text, they are the same names, or the dots that join
them are different dots of it. -/
theorem joined_eq_iff {vm net vm' net' : String} :
    vm ++ "." ++ net = vm' ++ "." ++ net' ↔ (vm = vm' ∧ net = net') ∨
      (∃ k, vm' = vm ++ "." ++ k ∧ net = k ++ "." ++ net') ∨
      ∃ k, vm = vm' ++ "." ++ k ∧ net' = k ++ "." ++ net := by
  constructor
  · intro h
    have htext : vm.toList ++ '.' :: net.toList = vm'.toList ++ '.' :: net'.toList := by
      simpa [String.toList_append, List.append_assoc] using congrArg String.toList h
    -- What is between the two dots is empty, or starts with one of them.
    rcases List.append_eq_append_iff.mp htext with ⟨mid, hvm, hnet⟩ | ⟨mid, hvm, hnet⟩
    · cases mid with
      | nil =>
        rw [List.append_nil] at hvm
        exact .inl ⟨String.toList_inj.mp hvm.symm, String.toList_inj.mp (List.cons.inj hnet).2⟩
      | cons c mid =>
        obtain ⟨rfl, hnet⟩ := List.cons.inj hnet
        refine .inr (.inl ⟨String.ofList mid, String.toList_inj.mp ?_, String.toList_inj.mp ?_⟩)
        · simp [hvm]
        · simpa using hnet
    · cases mid with
      | nil =>
        rw [List.append_nil] at hvm
        exact .inl ⟨String.toList_inj.mp hvm, String.toList_inj.mp (List.cons.inj hnet).2.symm⟩
      | cons c mid =>
        obtain ⟨rfl, hnet⟩ := List.cons.inj hnet
        refine .inr (.inr ⟨String.ofList mid, String.toList_inj.mp ?_, String.toList_inj.mp ?_⟩)
        · simp [hvm]
        · simpa using hnet
  · rintro (⟨rfl, rfl⟩ | ⟨k, rfl, rfl⟩ | ⟨k, rfl, rfl⟩)
    · rfl
    · simp only [String.append_assoc]
    · simp only [String.append_assoc]

/-- The NIC a line is rendered for is static with `dns`, or leases with `dhcp`. -/
theorem nicLine_cases (sw : Switch) (sc : Sidecar) (macFor : String → ℕ → String)
    (x : Attachment) :
    (∃ a, x.nic.network ∈ sw.networks ∧ x.nic.addr = .static a ∧ sc.dns = true ∧
      nicLine sw sc macFor x = some ("host-record=" ++ (x.vm ++ "." ++ x.nic.network) ++ "," ++ a.host) ∧
      x.directive sw sc macFor = some (.hostRecord (x.vm ++ "." ++ x.nic.network) a.host)) ∨
    (x.nic.network ∈ sw.networks ∧ x.nic.addr = .dhcp ∧ sc.dhcp = true ∧
      nicLine sw sc macFor x = some ("dhcp-host=" ++ macFor x.vm x.idx ++ "," ++ x.vm) ∧
      x.directive sw sc macFor = some (.dhcpHost (macFor x.vm x.idx) x.vm)) ∨
    (nicLine sw sc macFor x = none ∧ x.directive sw sc macFor = none) := by
  unfold nicLine Attachment.directive
  by_cases hnet : x.nic.network ∈ sw.networks
  · rw [if_pos hnet, if_pos hnet]
    cases haddr : x.nic.addr with
    | static a =>
      cases hdns : sc.dns with
      | true => exact .inl ⟨a, hnet, rfl, rfl, by simp [String.append_assoc], rfl⟩
      | false => exact .inr (.inr ⟨rfl, rfl⟩)
    | dhcp =>
      cases hdhcp : sc.dhcp with
      | true => exact .inr (.inl ⟨hnet, rfl, rfl, rfl, rfl⟩)
      | false => exact .inr (.inr ⟨rfl, rfl⟩)
    | unconfigured => exact .inr (.inr ⟨rfl, rfl⟩)
  · rw [if_neg hnet, if_neg hnet]
    exact .inr (.inr ⟨rfl, rfl⟩)

/-- Two addresses on one switch of an accepted plan are of one NIC. -/
theorem Hypervisor.Valid.eq_of_ip {hyp : Hypervisor} (h : hyp.Valid) {sw : Switch}
    (hsw : sw ∈ hyp.switches) {x y : Attachment} (hx : x ∈ attachments hyp.vms)
    (hy : y ∈ attachments hyp.vms) {ip : ℕ} (hipx : sw.staticIp x = some ip)
    (hipy : sw.staticIp y = some ip) : x = y := by
  by_contra hne
  have hsymm : Std.Symm (Attachment.Apart hyp.switches) :=
    ⟨fun a b hab c hb ha => hab c ha hb⟩
  exact h.conflictFree.distinct.forall hx hy hne _ (h.claim_of_staticIp hsw hipx)
    (h.claim_of_staticIp hsw hipy)

/-- A VM's name and an index tell a NIC. -/
theorem eq_of_attachments {vms : List VMRecipe} (hnodup : (vms.map (·.name)).Nodup)
    {x y : Attachment} (hx : x ∈ attachments vms) (hy : y ∈ attachments vms) (hvm : x.vm = y.vm)
    (hidx : x.idx = y.idx) : x = y := by
  simp only [attachments, List.mem_flatMap, List.mem_map] at hx hy
  obtain ⟨v, hv, ⟨nic, i⟩, hnic, rfl⟩ := hx
  obtain ⟨v', hv', ⟨nic', i'⟩, hnic', rfl⟩ := hy
  dsimp only at hvm hidx
  have hsame : v = v' := List.inj_on_of_nodup_map hnodup hv hv' hvm
  subst hsame hidx
  rw [List.mem_zipIdx_iff_getElem?] at hnic hnic'
  dsimp only at hnic hnic'
  rw [hnic] at hnic'
  rw [Option.some.inj hnic']

section

variable {hyp : Hypervisor} (h : hyp.Valid) {sw : Switch} {macFor : String → ℕ → String}
  (hmac : ∀ vm i, ∀ c ∈ (macFor vm i).toList, isMacChar c = true)

include h in
theorem Hypervisor.Valid.isNameChar_vm {x : Attachment} (hx : x ∈ attachments hyp.vms) :
    ∀ c ∈ x.vm.toList, isNameChar c = true := by
  obtain ⟨v, hv, hname, -⟩ := mem_attachments hx
  rw [hname]
  exact isNameChar_of_safeName (h.safe_vm v hv).1

include h in
theorem Hypervisor.Valid.nic_network {x : Attachment} (hx : x ∈ attachments hyp.vms) :
    x.nic.network ∈ hyp.networks := by
  obtain ⟨v, hv, -, hnic⟩ := mem_attachments hx
  exact h.nic_mem v hv x.nic hnic

include h hmac

/-- The line of a NIC stays a line and is read back. -/
theorem Hypervisor.Valid.nicLine_read (sc : Sidecar) {x : Attachment}
    (hx : x ∈ attachments hyp.vms) {line : String} (hline : nicLine sw sc macFor x = some line) :
    '\n' ∉ line.toList ∧ some (parseDirective line.toList) = (x.directive sw sc macFor).map some := by
  have hvm := h.isNameChar_vm hx
  -- A host record of a static address, a lease of a MAC, or no line.
  rcases nicLine_cases sw sc macFor x with
    ⟨a, -, -, -, hl, hd⟩ | ⟨-, -, -, hl, hd⟩ | ⟨hl, -⟩
  · have hnetwork := isNameChar_of_safeName (h.safe_network _ (h.nic_network hx)).1
    have hhost : ∀ c ∈ a.host.toList, Ipv4.isPlain c = true := isPlain_dotted a.ip_lt
    obtain rfl := Option.some.inj (hl.symm.trans hline)
    have hname (c : Char) (hc : isNameChar c = false) :
        c ∉ (x.vm ++ "." ++ x.nic.network).toList := by
      have hdot : c ≠ '.' := by
        rintro rfl
        cases hc
      simp only [String.toList_append, List.mem_append, not_or]
      exact ⟨⟨Text.notMem_of_forall hvm hc, by simpa using hdot⟩, Text.notMem_of_forall hnetwork hc⟩
    constructor
    · rw [String.toList_append, String.toList_append, String.toList_append]
      simp only [List.mem_append, not_or]
      exact ⟨⟨⟨by decide, hname _ rfl⟩, by decide⟩, Text.notMem_of_forall hhost rfl⟩
    · rw [parseDirective_hostRecord (hname _ rfl) (Text.notMem_of_forall hhost rfl), hd]
      rfl
  · obtain rfl := Option.some.inj (hl.symm.trans hline)
    have hchars := hmac x.vm x.idx
    constructor
    · simp only [String.toList_append, List.mem_append, not_or]
      exact ⟨⟨⟨by decide, Text.notMem_of_forall hchars rfl⟩, by decide⟩, Text.notMem_of_forall hvm rfl⟩
    · rw [parseDirective_dhcpHost (Text.notMem_of_forall hchars rfl) (Text.notMem_of_forall hvm rfl), hd]
      rfl
  · rw [hl] at hline
    cases hline

end

/-! ### The configuration of an accepted plan -/

/-- The lines of the plan's NICs follow those of the services. -/
theorem dnsmasqLines_eq (sw : Switch) (sc : Sidecar) (vms : List VMRecipe)
    (macFor : String → ℕ → String) : dnsmasqLines sw sc vms macFor =
      serviceLines sw sc macFor ++ (attachments vms).filterMap (nicLine sw sc macFor) := by
  have hnone : (attachments []).filterMap (nicLine sw sc macFor) = [] := rfl
  simp only [serviceLines, dnsmasqLines, hnone, List.append_nil]

/-- An empty last piece ends a joined list with the separator. -/
theorem intercalate_concat_nil {sep : List Char} {pieces : List (List Char)} (hne : pieces ≠ []) :
    sep.intercalate (pieces ++ [[]]) = sep.intercalate pieces ++ sep := by
  induction pieces with
  | nil => exact absurd rfl hne
  | cons a pieces ih =>
    cases pieces with
    | nil => simp [List.intercalate_cons_cons]
    | cons b pieces =>
      have hrest := ih (List.cons_ne_nil b pieces)
      rw [List.cons_append, List.cons_append, List.intercalate_cons_cons, ← List.cons_append, hrest,
        List.intercalate_cons_cons]
      simp only [List.append_assoc]

/-- A rendered configuration is split into its lines. -/
theorem splitOn_rendered {lines : List String} (hne : lines ≠ [])
    (h : ∀ line ∈ lines, '\n' ∉ line.toList) :
    ("\n".intercalate lines ++ "\n").toList.splitOn '\n' = lines.map (·.toList) ++ [[]] := by
  have hlines : ∀ line ∈ lines.map (·.toList), '\n' ∉ line := by
    intro line hline
    obtain ⟨l, hl, rfl⟩ := List.mem_map.mp hline
    exact h l hl
  have htext : ("\n".intercalate lines ++ "\n").toList =
      ['\n'].intercalate (lines.map (·.toList) ++ [[]]) := by
    rw [String.toList_append, String.toList_intercalate]
    exact (intercalate_concat_nil (by simpa using hne)).symm
  rw [htext]
  refine List.splitOn_intercalate '\n' (fun line hline => ?_) (by simp)
  rcases List.mem_append.mp hline with hline | hline
  · exact hlines line hline
  · rw [List.mem_singleton.mp hline]
    exact List.not_mem_nil

/-- The NIC that a host record names is static and on the switch. -/
theorem static_of_hostRecord {sw : Switch} {sc : Sidecar} {macFor : String → ℕ → String}
    {x : Attachment} {name address : String}
    (h : x.directive sw sc macFor = some (.hostRecord name address)) :
    ∃ a, x.nic.network ∈ sw.networks ∧ x.nic.addr = .static a ∧ sc.dns = true ∧
      name = x.vm ++ "." ++ x.nic.network ∧ address = a.host := by
  rcases nicLine_cases sw sc macFor x with
    ⟨a, hnet, haddr, hdns, -, hd⟩ | ⟨-, -, -, -, hd⟩ | ⟨-, hd⟩
  · rw [h] at hd
    cases hd
    exact ⟨a, hnet, haddr, hdns, rfl, rfl⟩
  · rw [h] at hd
    cases hd
  · rw [h] at hd
    cases hd

theorem directive_of_static {sw : Switch} {sc : Sidecar} (macFor : String → ℕ → String)
    {x : Attachment} {a : StaticAddr} (hnet : x.nic.network ∈ sw.networks)
    (haddr : x.nic.addr = .static a) (hdns : sc.dns = true) :
    x.directive sw sc macFor = some (.hostRecord (x.vm ++ "." ++ x.nic.network) a.host) := by
  rw [Attachment.directive, if_pos hnet, haddr]
  dsimp only
  rw [if_pos hdns]

/-- The NIC that a lease is for has this MAC and is of this VM. -/
theorem lease_of_dhcpHost {sw : Switch} {sc : Sidecar} {macFor : String → ℕ → String}
    {x : Attachment} {mac vm : String} (h : x.directive sw sc macFor = some (.dhcpHost mac vm)) :
    macFor x.vm x.idx = mac ∧ x.vm = vm := by
  rcases nicLine_cases sw sc macFor x with
    ⟨a, -, -, -, -, hd⟩ | ⟨-, -, -, -, hd⟩ | ⟨-, hd⟩
  · rw [h] at hd
    cases hd
  · rw [h] at hd
    cases hd
    exact ⟨rfl, rfl⟩
  · rw [h] at hd
    cases hd

section

variable {hyp : Hypervisor} (h : hyp.Valid) {x y : Attachment} (hx : x ∈ attachments hyp.vms)
  (hy : y ∈ attachments hyp.vms)

include h hx hy

/-- On one network an address is that of one NIC. -/
theorem Hypervisor.Valid.eq_of_host {a b : StaticAddr} (hnet : x.nic.network = y.nic.network)
    (ha : x.nic.addr = .static a) (hb : y.nic.addr = .static b) (hhost : a.host = b.host) :
    x = y := by
  -- The check of addresses admits it once on the switch that declares the network.
  obtain ⟨sw, hsw, hmem⟩ := List.mem_flatMap.mp (h.nic_network hx)
  have hip : sw.staticIp x = some a.ip := by
    rw [Switch.staticIp, ha]
    exact if_pos hmem
  have hip' : sw.staticIp y = some a.ip := by
    rw [Switch.staticIp, hb, Ipv4.dotted_inj a.ip_lt b.ip_lt hhost]
    exact if_pos (hnet ▸ hmem)
  exact h.eq_of_ip hsw hx hy hip hip'

end

/-- A name is looked up to one VM on one network, save where two NICs are blurred. -/
theorem lookup_iff {sw : Switch} {sc : Sidecar} {vms : List VMRecipe}
    {macFor : String → ℕ → String} :
    (∀ x ∈ attachments vms, ∀ y ∈ attachments vms, ∀ name a b,
      x.directive sw sc macFor = some (.hostRecord name a) →
      y.directive sw sc macFor = some (.hostRecord name b) →
      x.vm = y.vm ∧ x.nic.network = y.nic.network) ↔ ¬ (sc.dns = true ∧ Blurred sw vms) := by
  constructor
  · rintro hlookup ⟨hdns, x, hx, y, hy, ⟨hnet, a, ha⟩, ⟨hnet', b, hb⟩, k, hvm, hnetwork⟩
    have hname : y.vm ++ "." ++ y.nic.network = x.vm ++ "." ++ x.nic.network :=
      joined_eq_iff.mpr (.inr (.inr ⟨k, hvm, hnetwork⟩))
    have hsame := (hlookup x hx y hy _ _ _ (directive_of_static macFor hnet ha hdns)
      (hname ▸ directive_of_static macFor hnet' hb hdns)).1
    -- The VM of the second is longer than that of the first.
    have hlength := congrArg String.length (hsame.trans hvm)
    simp only [String.length_append] at hlength
    have hdot : ".".length = 1 := rfl
    omega
  · intro hclear x hx y hy name a b hdx hdy
    obtain ⟨a', hnet, ha, hdns, hname, -⟩ := static_of_hostRecord hdx
    obtain ⟨b', hnet', hb, -, hname', -⟩ := static_of_hostRecord hdy
    rcases joined_eq_iff.mp (hname.symm.trans hname') with hsame | ⟨k, hvm, hn⟩ | ⟨k, hvm, hn⟩
    · exact hsame
    · exact absurd ⟨hdns, x, hx, y, hy, ⟨hnet, a', ha⟩, ⟨hnet', b', hb⟩, k, hvm, hn⟩ hclear
    · exact absurd ⟨hdns, y, hy, x, hx, ⟨hnet', b', hb⟩, ⟨hnet, a', ha⟩, k, hvm, hn⟩ hclear

/-- The domain of a configuration whose lines are lines is not torn. -/
theorem Directives.whole {sw : Switch} {sc : Sidecar} {vms : List VMRecipe}
    {macFor : String → ℕ → String} {conf : String} (h : Directives sw sc vms macFor conf) :
    ¬ (sc.dns = true ∧ Torn sw) := by
  rintro ⟨hdns, net, hlast, hnewline | hcomma⟩
  · have hline : domainLine sw net ∈ serviceLines sw sc macFor := by
      simp only [serviceLines, dnsmasqLines, hdns, hlast, domainLine]
      simp
    have hpiece : (domainLine sw net).toList ∈ conf.toList.splitOn '\n' := by
      rw [h.lines]
      exact List.mem_append_left _ (List.mem_append_left _ (List.mem_map_of_mem hline))
    refine Text.notMem_of_mem_splitOn hpiece ?_
    rw [domainLine_toList]
    exact List.mem_append_right _ (List.mem_append_left _ hnewline)
  · exact (lineValues_domainLine sw net).mp (h.domain hdns net hlast) hcomma

/-- The domain of a switch of the plan is not torn. -/
theorem Hypervisor.Valid.not_torn {hyp : Hypervisor} (h : hyp.Valid) {sw : Switch}
    (hsw : sw ∈ hyp.switches) : ¬ Torn sw := by
  rintro ⟨net, hlast, hchar⟩
  have hnet := isNameChar_of_safeName
    (h.safe_network net (List.mem_flatMap.mpr ⟨sw, hsw, List.mem_of_getLast? hlast⟩)).1
  rcases hchar with hchar | hchar
  · exact Text.notMem_of_forall hnet rfl hchar
  · exact Text.notMem_of_forall hnet rfl hchar

namespace Blurred

theorem no_gateway : ∀ g ∈ (none : Option String), (Ipv4.address g.toList).isSome := by simp

theorem no_resolvers : ∀ entry ∈ ([] : List String), (Ipv4.address entry.toList).isSome := by simp

theorem no_nat : (none : Option StaticAddr).isSome = true → false = true := by simp

theorem no_address : ∀ a ∈ (none : Option StaticAddr), '/' ∈ a.addr.toList := by simp

theorem no_uplink : (none : Option String) ≠ some "" := by simp

/-- A static address. -/
def address (text : String) (h : (Ipv4.interface text).isSome) : NicAddr :=
  .static ⟨text, none, [], h, no_gateway, no_resolvers⟩

/-- The VM `app` on the network `eu.corp`. -/
def app : VMRecipe :=
  ⟨"app", "tank", [], [⟨"eu.corp", "office", address "10.0.7.100" (by decide)⟩], by decide⟩

/-- The VM `app.eu` on the network `corp`. -/
def appEu : VMRecipe :=
  ⟨"app.eu", "tank", [], [⟨"corp", "office", address "10.0.7.101" (by decide)⟩], by decide⟩

def names : Sidecar := ⟨false, true, false, none, by decide, no_nat, no_address⟩

/-- A switch with both networks, whose sidecar serves names. -/
def office : Switch :=
  ⟨"office", ["corp", "eu.corp"], "10.0.7.0/24", none, false, some names, by decide, by decide,
    no_uplink, by decide, by decide⟩

def tank : StoragePool := ⟨"tank", 1, by decide, by decide⟩

def hyp : Hypervisor where
  pools := [tank]
  switches := [office]
  vms := [app, appEu]
  explicitEdges := []
  buildSwitch := none
  nodup_pools := by decide
  nodup_switches := by decide
  nodup_vms := by decide

def graph : BuildGraph Node Node.name where
  name := "blurred"
  nodes := [.pool tank, .network office, .sidecar office, .vm app 0, .vm appEu 1]
  edges := [⟨"sidecar:office", "network:office", .ordering, by decide, by decide⟩,
    ⟨"sidecar:office", "pool:tank", .ordering, by decide, by decide⟩,
    ⟨"vm:app", "pool:tank", .ordering, by decide, by decide⟩,
    ⟨"vm:app", "network:office", .ordering, by decide, by decide⟩,
    ⟨"vm:app", "sidecar:office", .ordering, by decide, by decide⟩,
    ⟨"vm:app.eu", "pool:tank", .ordering, by decide, by decide⟩,
    ⟨"vm:app.eu", "network:office", .ordering, by decide, by decide⟩,
    ⟨"vm:app.eu", "sidecar:office", .ordering, by decide, by decide⟩]
  nodup_names := by decide
  edges_known := by decide
  waves_complete := by decide
  contentWaves_complete := by decide

def plan : Plan where
  name := "blurred"
  hyp := hyp
  graph := graph
  name_ne := by decide
  validated := rfl
  assembled := rfl

def mac (vm : String) (_ : ℕ) : String :=
  if vm = "app" then "02:5e:10:00:00:01" else "02:5e:10:00:00:02"

theorem isMacChar_mac (vm : String) (i : ℕ) : ∀ c ∈ (mac vm i).toList, isMacChar c = true := by
  unfold mac
  split_ifs
  · exact List.all_eq_true.mp (by decide)
  · exact List.all_eq_true.mp (by decide)

/-- A build switch whose network breaks the line of the domain. -/
def yard : Switch :=
  ⟨"yard", ["corp\nhost-record=app.corp,10.0.7.7"], "10.97.7.0/24", none, false, some names,
    by decide, by decide, no_uplink, by decide, by decide⟩

end Blurred

end TestRange
