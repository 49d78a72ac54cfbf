/-
The check of a plan's addresses.

All problems are collected.  An address is recorded only when nothing was wrong with it.

* `validateAddressing` — every NIC against its switch, and against the static addresses
  before it;
* `ConflictFree` — what a plan's addresses are to be;
* `validateAddressing_iff` — the check accepts exactly these.
-/
import TestRange.Declared

namespace TestRange

/-! ### The check -/

/-- Where a problem was found. -/
structure Origin where
  vm : String
  nic : ℕ
  network : String
  ip : Option String
  deriving DecidableEq

/-- What is wrong with a NIC. -/
inductive AddressProblem
  | unknownNetwork
  | unparsable
  | notInSubnet (cidr switch : String)
  | networkAddress
  | broadcastAddress
  | sidecarSlot (ip : String)
  | mgmtSlot (ip : String)
  | dhcpPool (lo hi staticLo staticHi : String)
  | duplicate (prior : Origin)
  deriving DecidableEq

/-- A NIC of a VM, with its place. -/
structure Attachment where
  vm : String
  idx : ℕ
  nic : Nic

/-- The NICs of a plan, in the order of the walk. -/
def attachments (vms : List VMRecipe) : List Attachment :=
  vms.flatMap fun v => v.nics.zipIdx.map fun nic => ⟨v.name, nic.2, nic.1⟩

/-- The switch of a network: the first that declares it. -/
def switchFor (switches : List Switch) (network : String) : Option Switch :=
  switches.find? fun sw => network ∈ sw.networks

namespace Switch

/-- What is wrong with a static address on a switch, other addresses apart. -/
def refuses (sw : Switch) (a : StaticAddr) : Option AddressProblem :=
  let base := sw.network.address
  match Ipv4.address a.host.toList with
  | none => some .unparsable
  | some addr =>
    if ¬ sw.network.Contains addr then some (.notInSubnet sw.cidr sw.name)
    else if addr = base then some .networkAddress
    else if addr = sw.network.broadcast then some .broadcastAddress
    else if sw.needsSidecar = true ∧ addr = base + sidecarOffset then
      some (.sidecarSlot (sw.ipAt sidecarOffset))
    else if sw.mgmt = true ∧ addr = base + mgmtOffset then some (.mgmtSlot (sw.ipAt mgmtOffset))
    else if sw.dhcp = true ∧ base + dhcpRangeLo ≤ addr ∧ addr ≤ base + dhcpRangeHi then
      some (.dhcpPool (sw.ipAt dhcpRangeLo) (sw.ipAt dhcpRangeHi) (sw.ipAt userStaticLo)
        (sw.ipAt userStaticHi))
    else none

end Switch

/-- The static addresses so far, by switch name and text. -/
abbrev Seen := List ((String × String) × Origin)

/-- The check of one NIC: a problem, or the addresses seen after it. -/
def checkNic (switches : List Switch) (seen : Seen) (x : Attachment) :
    Except (Origin × AddressProblem) Seen :=
  match switchFor switches x.nic.network with
  | none => .error (⟨x.vm, x.idx, x.nic.network, none⟩, .unknownNetwork)
  | some sw =>
    match x.nic.addr with
    -- A lease cannot collide, and an unconfigured NIC has no address.
    | .unconfigured => .ok seen
    | .dhcp => .ok seen
    | .static a =>
      let origin : Origin := ⟨x.vm, x.idx, x.nic.network, some a.host⟩
      match sw.refuses a with
      | some problem => .error (origin, problem)
      | none =>
        match seen.lookup (sw.name, a.host) with
        | some prior => .error (origin, .duplicate prior)
        | none => .ok (((sw.name, a.host), origin) :: seen)

/-- The problems of a walk. -/
def addressProblems (switches : List Switch) : Seen → List Attachment → List (Origin × AddressProblem)
  | _, [] => []
  | seen, x :: rest =>
    match checkNic switches seen x with
    | .error problem => problem :: addressProblems switches seen rest
    | .ok seen' => addressProblems switches seen' rest

/-- Validate every NIC against the plan's switches. -/
def validateAddressing (switches : List Switch) (vms : List VMRecipe) :
    Except (List (Origin × AddressProblem)) Unit :=
  match addressProblems switches [] (attachments vms) with
  | [] => .ok ()
  | problems => .error problems

/-! ### What it accepts -/

/-- An address that a static NIC may have on a switch. -/
structure Switch.Admits (sw : Switch) (ip : ℕ) : Prop where
  inside : sw.network.Contains ip
  ne_network : ip ≠ sw.network.address
  ne_broadcast : ip ≠ sw.network.broadcast
  ne_sidecar : sw.needsSidecar = true → ip ≠ sw.network.address + sidecarOffset
  ne_mgmt : sw.mgmt = true → ip ≠ sw.network.address + mgmtOffset
  not_leased : sw.dhcp = true →
    ¬ (sw.network.address + dhcpRangeLo ≤ ip ∧ ip ≤ sw.network.address + dhcpRangeHi)

/-- The switch name and the address of a static NIC on a declared network. -/
def Attachment.claim (switches : List Switch) (x : Attachment) : Option (String × ℕ) :=
  match switchFor switches x.nic.network, x.nic.addr with
  | some sw, .static a => some (sw.name, a.ip)
  | _, _ => none

/-- Two NICs that do not claim one address of a switch. -/
abbrev Attachment.Apart (switches : List Switch) (x y : Attachment) : Prop :=
  ∀ c, x.claim switches = some c → y.claim switches ≠ some c

/-- Addresses without conflicts. -/
structure ConflictFree (switches : List Switch) (vms : List VMRecipe) : Prop where
  declared : ∀ v ∈ vms, ∀ nic ∈ v.nics, ∃ sw ∈ switches, nic.network ∈ sw.networks
  admitted : ∀ v ∈ vms, ∀ nic ∈ v.nics, ∀ a, nic.addr = .static a →
    ∀ sw, switchFor switches nic.network = some sw → sw.Admits a.ip
  distinct : (attachments vms).Pairwise (Attachment.Apart switches)

theorem Switch.refuses_eq_none_iff {sw : Switch} {a : StaticAddr} :
    sw.refuses a = none ↔ sw.Admits a.ip := by
  have hparse : Ipv4.address a.host.toList = some a.ip := Ipv4.address_dotted a.ip_lt
  unfold refuses
  simp only [hparse]
  constructor
  · intro h
    split_ifs at h with h₁ h₂ h₃ h₄ h₅ h₆
    exact ⟨h₁, h₂, h₃, fun hs he => h₄ ⟨hs, he⟩, fun hm he => h₅ ⟨hm, he⟩,
      fun hd hr => h₆ ⟨hd, hr⟩⟩
  · intro h
    rw [if_neg (not_not.mpr h.inside), if_neg h.ne_network, if_neg h.ne_broadcast,
      if_neg (fun hc => h.ne_sidecar hc.1 hc.2), if_neg (fun hc => h.ne_mgmt hc.1 hc.2),
      if_neg (fun hc => h.not_leased hc.1 hc.2)]

section

variable {switches : List Switch}

/-- A NIC that is accepted unless its address is taken. -/
def Attachment.Fine (switches : List Switch) (x : Attachment) : Prop :=
  ∃ sw, switchFor switches x.nic.network = some sw ∧
    ∀ a, x.nic.addr = .static a → sw.Admits a.ip

/-- The address has not been seen. -/
def Seen.Free (seen : Seen) (c : String × ℕ) : Prop := seen.lookup (c.1, Ipv4.dotted c.2) = none

theorem Attachment.claim_lt {x : Attachment} {c : String × ℕ} (h : x.claim switches = some c) :
    c.2 < 2 ^ 32 := by
  unfold claim at h
  split at h
  · cases h
    exact StaticAddr.ip_lt _
  · cases h

theorem Attachment.claim_eq_none {x : Attachment} (h : ∀ a, x.nic.addr ≠ .static a) :
    x.claim switches = none := by
  unfold claim
  split
  · exact absurd ‹_› (h _)
  · rfl

theorem Seen.free_cons {seen : Seen} {c d : String × ℕ} {o : Origin} (hc : c.2 < 2 ^ 32)
    (hd : d.2 < 2 ^ 32) :
    Seen.Free (((c.1, Ipv4.dotted c.2), o) :: seen) d ↔ Seen.Free seen d ∧ c ≠ d := by
  have hkey : (d.1, Ipv4.dotted d.2) = (c.1, Ipv4.dotted c.2) ↔ c = d := by
    constructor
    · intro h
      exact Prod.ext (congrArg Prod.fst h).symm (Ipv4.dotted_inj hc hd (congrArg Prod.snd h).symm)
    · rintro rfl
      rfl
  unfold Free
  rw [List.lookup_cons]
  by_cases heq : c = d
  · simp [heq]
  · have hne : ((d.1, Ipv4.dotted d.2) == (c.1, Ipv4.dotted c.2)) = false :=
      beq_eq_false_iff_ne.mpr fun h => heq (hkey.mp h)
    simp [hne, heq]

/-- One step of the walk: the NIC is fine, its address was free, and is taken after it. -/
theorem checkNic_eq_ok {seen seen' : Seen} {x : Attachment}
    (h : checkNic switches seen x = .ok seen') :
    x.Fine switches ∧ (∀ c, x.claim switches = some c → seen.Free c) ∧
      ∀ d, d.2 < 2 ^ 32 → (seen'.Free d ↔ seen.Free d ∧ x.claim switches ≠ some d) := by
  unfold checkNic at h
  split at h
  · cases h
  · rename_i sw hsw
    have hplain : (∀ a, x.nic.addr ≠ .static a) → seen' = seen → x.Fine switches ∧
        (∀ c, x.claim switches = some c → seen.Free c) ∧
        ∀ d, d.2 < 2 ^ 32 → (seen'.Free d ↔ seen.Free d ∧ x.claim switches ≠ some d) := by
      rintro hno rfl
      have hclaim : x.claim switches = none := Attachment.claim_eq_none hno
      exact ⟨⟨sw, hsw, fun a ha => absurd ha (hno a)⟩, by simp [hclaim], by simp [hclaim]⟩
    split at h
    · exact hplain (by simp [*]) (Except.ok.inj h).symm
    · exact hplain (by simp [*]) (Except.ok.inj h).symm
    · rename_i a haddr
      have hclaim : x.claim switches = some (sw.name, a.ip) := by
        simp only [Attachment.claim, hsw, haddr]
      dsimp only at h
      split at h
      · cases h
      · rename_i hrefuses
        split at h
        · cases h
        · rename_i hfree
          cases h
          refine ⟨⟨sw, hsw, ?_⟩, ?_, ?_⟩
          · intro b hb
            rw [haddr] at hb
            cases hb
            exact Switch.refuses_eq_none_iff.mp hrefuses
          · intro c hc
            rw [hclaim] at hc
            cases hc
            exact hfree
          · intro d hd
            rw [hclaim, ne_eq, Option.some.injEq]
            exact Seen.free_cons (c := (sw.name, a.ip)) a.ip_lt hd

/-- A NIC is refused for what it is or for an address that is taken. -/
theorem checkNic_ne_error {seen : Seen} {x : Attachment} (hfine : x.Fine switches)
    (hfree : ∀ c, x.claim switches = some c → seen.Free c) (p : Origin × AddressProblem) :
    checkNic switches seen x ≠ .error p := by
  obtain ⟨sw, hsw, hadmits⟩ := hfine
  unfold checkNic
  rw [hsw]
  dsimp only
  split
  · simp
  · simp
  · rename_i a haddr
    have hclaim : x.claim switches = some (sw.name, a.ip) := by
      simp only [Attachment.claim, hsw, haddr]
    rw [Switch.refuses_eq_none_iff.mpr (hadmits a haddr)]
    dsimp only
    have hlookup : seen.lookup (sw.name, a.host) = none := hfree _ hclaim
    rw [hlookup]
    simp

/-- The walk finds nothing iff every NIC is fine and claims an address that is new. -/
theorem addressProblems_eq_nil_iff (seen : Seen) (l : List Attachment) :
    addressProblems switches seen l = [] ↔
      (∀ x ∈ l, x.Fine switches ∧ ∀ c, x.claim switches = some c → seen.Free c) ∧
        l.Pairwise (Attachment.Apart switches) := by
  induction l generalizing seen with
  | nil => simp [addressProblems]
  | cons x l ih =>
    rw [addressProblems, List.pairwise_cons]
    cases hcheck : checkNic switches seen x with
    | error p =>
      refine iff_of_false (by simp) ?_
      rintro ⟨hall, -⟩
      obtain ⟨hfine, hfree⟩ := hall x List.mem_cons_self
      exact checkNic_ne_error hfine hfree p hcheck
    | ok seen' =>
      obtain ⟨hfine, hfree, hnext⟩ := checkNic_eq_ok hcheck
      dsimp only
      rw [ih]
      constructor
      · rintro ⟨hall, hpair⟩
        have hother : ∀ y ∈ l, ∀ c, y.claim switches = some c →
            seen.Free c ∧ x.claim switches ≠ some c := by
          intro y hy c hc
          exact (hnext c (Attachment.claim_lt hc)).mp ((hall y hy).2 c hc)
        refine ⟨?_, ?_, hpair⟩
        · intro y hy
          rcases List.mem_cons.mp hy with rfl | hy
          · exact ⟨hfine, hfree⟩
          · exact ⟨(hall y hy).1, fun c hc => (hother y hy c hc).1⟩
        · intro y hy c hx hc
          exact (hother y hy c hc).2 hx
      · rintro ⟨hall, hx, hpair⟩
        refine ⟨?_, hpair⟩
        intro y hy
        obtain ⟨hy₁, hy₂⟩ := hall y (List.mem_cons_of_mem _ hy)
        refine ⟨hy₁, fun c hc => (hnext c (Attachment.claim_lt hc)).mpr ⟨hy₂ c hc, ?_⟩⟩
        exact fun hxc => hx y hy c hxc hc

theorem mem_attachments {vms : List VMRecipe} {x : Attachment} (h : x ∈ attachments vms) :
    ∃ v ∈ vms, x.vm = v.name ∧ x.nic ∈ v.nics := by
  simp only [attachments, List.mem_flatMap, List.mem_map] at h
  obtain ⟨v, hv, ⟨nic, i⟩, hnic, rfl⟩ := h
  exact ⟨v, hv, rfl, List.fst_mem_of_mem_zipIdx hnic⟩

theorem exists_attachment {vms : List VMRecipe} {v : VMRecipe} (hv : v ∈ vms) {nic : Nic}
    (hnic : nic ∈ v.nics) : ∃ x ∈ attachments vms, x.nic = nic := by
  obtain ⟨i, hi, hget⟩ := List.mem_iff_getElem.mp hnic
  refine ⟨⟨v.name, i, nic⟩, ?_, rfl⟩
  simp only [attachments, List.mem_flatMap, List.mem_map]
  exact ⟨v, hv, (nic, i), List.mem_zipIdx_iff_getElem?.mpr (by simp [hi, hget]), rfl⟩

/-- **The check accepts exactly the address plans without conflicts.** -/
theorem validateAddressing_iff {vms : List VMRecipe} :
    validateAddressing switches vms = .ok () ↔ ConflictFree switches vms := by
  have hnil : validateAddressing switches vms = .ok () ↔
      addressProblems switches [] (attachments vms) = [] := by
    unfold validateAddressing
    split <;> simp_all
  have hfree : ∀ c, Seen.Free [] c := fun c => rfl
  rw [hnil, addressProblems_eq_nil_iff]
  constructor
  · rintro ⟨hall, hpair⟩
    refine ⟨?_, ?_, hpair⟩
    · intro v hv nic hnic
      obtain ⟨x, hx, rfl⟩ := exists_attachment hv hnic
      obtain ⟨⟨sw, hsw, -⟩, -⟩ := hall x hx
      exact ⟨sw, List.mem_of_find?_eq_some hsw, by simpa using List.find?_some hsw⟩
    · intro v hv nic hnic a ha sw hsw
      obtain ⟨x, hx, rfl⟩ := exists_attachment hv hnic
      obtain ⟨⟨sw', hsw', hadmits⟩, -⟩ := hall x hx
      rw [hsw] at hsw'
      cases hsw'
      exact hadmits a ha
  · intro h
    refine ⟨fun x hx => ⟨?_, fun c _ => hfree c⟩, h.distinct⟩
    obtain ⟨v, hv, -, hnic⟩ := mem_attachments hx
    obtain ⟨sw, hsw, hmem⟩ := h.declared v hv x.nic hnic
    have hsome : (switchFor switches x.nic.network).isSome := by
      rw [switchFor, List.find?_isSome]
      exact ⟨sw, hsw, by simpa using hmem⟩
    obtain ⟨sw', hsw'⟩ := Option.isSome_iff_exists.mp hsome
    exact ⟨sw', hsw', fun a ha => h.admitted v hv x.nic hnic a ha sw' hsw'⟩

end

end TestRange
