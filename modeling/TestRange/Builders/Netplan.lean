/-
The network configuration that the cloud-init builder renders.

One netplan serves the build and the run: the build NIC and every declared NIC have a stanza
each, matched by MAC, and a stanza whose MAC is absent is inert.  The first declared NIC with
a static address is the one that may carry the default route.

* `nicNetplanEntry`, `ethernets`, `renderNetworkConfig` — the stanzas and their text;
* `Routed` — every NIC has its stanza, and one of those with a gateway carries the route;
* `routed_iff`, `renderNetworkConfig_routed_iff` — when that holds.
-/
import TestRange.Lib.Dict
import TestRange.Lib.Scan
import TestRange.Lib.Text
import TestRange.Orchestrator.BuildNic

namespace TestRange

/-- The length of the prefix that is written in an address. -/
def StaticAddr.prefixLen (a : StaticAddr) : ℕ := ((Ipv4.interface a.addr).get a.addr_ok).2

namespace Netplan

/-! ### Stanzas -/

inductive RenderError
  | macs (macs nics : ℕ)
  | noPrefix (addr : String)

/-- `StaticAddr.cidr`: a prefix that is written wins, then the derived one. -/
def cidr (a : StaticAddr) (derivedPrefixLen : Option ℕ) : Except RenderError String :=
  if '/' ∈ a.addr.toList then .ok (a.host ++ "/" ++ toString a.prefixLen)
  else
    match derivedPrefixLen with
    | none => .error (.noPrefix a.addr)
    | some len => .ok (a.host ++ "/" ++ toString len)

/-- The gateway of a static address: the dictated one, else that of the network. -/
def gateway (a : StaticAddr) (sub : Option NetworkAddressing) : Option String :=
  match a.gw with
  | some gw => some gw
  | none => sub.bind (·.gateway)

/-- The resolvers of a static address: the dictated ones, else that of the network. -/
def resolvers (a : StaticAddr) (sub : Option NetworkAddressing) : List String :=
  if a.dns ≠ [] then a.dns else (sub.bind (·.dnsServer)).toList

def isStatic : NicAddr → Bool
  | .static _ => true
  | _ => false

/-- `[{"to": "default", "via": gw}]` -/
def defaultVia (gw : String) : Json := .arr [.obj [("to", .str "default"), ("via", .str gw)]]

/-- The fields of a static address. -/
def staticFields (a : StaticAddr) (sub : Option NetworkAddressing) (emitDefaultRoute : Bool)
    (cidr : String) : List (String × Json) :=
  [("addresses", .arr [.str cidr])] ++
    (if resolvers a sub ≠ [] then
      [("nameservers", .obj [("addresses", .arr ((resolvers a sub).map .str))])] else []) ++
    match gateway a sub with
    | some gw => if emitDefaultRoute then [("routes", defaultVia gw)] else []
    | none => []

-- `str.lower`, and `yaml.safe_dump` with sorted keys.
variable (lower : String → String) (safeDump : Json → String)

/-- One stanza, matched by MAC. -/
def nicNetplanEntry (addr : NicAddr) (mac : String) (sub : Option NetworkAddressing)
    (emitDefaultRoute : Bool) : Except RenderError (List (String × Json)) :=
  let cfg := [("match", .obj [("macaddress", .str (lower mac))])]
  match addr with
  | .unconfigured =>
    .ok (cfg ++ [("dhcp4", .bool false), ("dhcp6", .bool false), ("optional", .bool true)])
  | .dhcp => .ok (cfg ++ [("dhcp4", .bool true), ("dhcp6", .bool false)])
  | .static a =>
    (cidr a (sub.map (·.prefixLen))).map fun cidr => cfg ++ staticFields a sub emitDefaultRoute cidr

/-- `f"id{idx}"` -/
def nicId (idx : ℕ) : String := "id" ++ toString idx

variable (addressing : String → Option NetworkAddressing)

/-- The stanza of a declared NIC; `seen` says that a static one came before. -/
def declaredEntry (idx : ℕ) (seen : Bool) (x : Nic × String) : Except RenderError (String × Json) :=
  (nicNetplanEntry lower x.1.addr x.2 (addressing x.1.network) (isStatic x.1.addr && !seen)).map
    fun stanza => (nicId idx, .obj stanza)

/-- The stanzas by name. -/
def ethernets (nics : List Nic) (buildNic : BuildNic) (macs : List String) :
    Except RenderError (List (String × Json)) := do
  if macs.length ≠ nics.length then throw (.macs macs.length nics.length)
  let build ← nicNetplanEntry lower (.static buildNic.addr) buildNic.mac (some buildNic.addressing)
    true
  let declared ← Scan.scan (fun x => isStatic x.1.addr) (declaredEntry lower addressing) 0 false
    (nics.zip macs)
  pure (Json.dictOf (("build0", .obj build) :: declared))

def renderNetworkConfig (nics : List Nic) (buildNic : BuildNic) (macs : List String) :
    Except RenderError String :=
  (ethernets lower addressing nics buildNic macs).map fun eth =>
    safeDump (.obj [("version", .int 2), ("ethernets", .obj eth)])

/-! ### What is expected of the stanzas -/

/-- The gateway of a declared NIC, if its address is static and has one. -/
def gatewayOf (nic : Nic) : Option String :=
  match nic.addr with
  | .static a => gateway a (addressing nic.network)
  | _ => none

/-- The address mode that a NIC declares, in its stanza. -/
def Mode (nic : Nic) (stanza : Json) : Prop :=
  match nic.addr with
  | .unconfigured => stanza.get? "dhcp4" = some (.bool false) ∧
      stanza.get? "dhcp6" = some (.bool false) ∧ stanza.get? "addresses" = none
  | .dhcp => stanza.get? "dhcp4" = some (.bool true) ∧ stanza.get? "addresses" = none
  | .static a => stanza.get? "dhcp4" = none ∧ ∃ text,
      cidr a ((addressing nic.network).map (·.prefixLen)) = .ok text ∧
        stanza.get? "addresses" = some (.arr [.str text])

/-- The stanza of a declared NIC. -/
def stanzaOf (eth : List (String × Json)) (idx : ℕ) : Option Json := eth.lookup (nicId idx)

/-- A stanza carries a default route. -/
def HasRoute (stanza : Option Json) : Prop := ((stanza.bind (Json.get? "routes")).isSome) = true

/-- Every declared NIC has one stanza, matched by its MAC and with its address mode; at most
one of them carries a default route, and one does, via the gateway of its NIC, if some
static NIC has a gateway; the build stanza carries one just when the build switch has one. -/
structure Routed (nics : List Nic) (buildNic : BuildNic) (macs : List String)
    (eth : List (String × Json)) : Prop where
  names : eth.map Prod.fst = "build0" :: (List.range nics.length).map nicId
  distinct : (eth.map Prod.fst).Nodup
  matched : ∀ idx nic mac, nics[idx]? = some nic → macs[idx]? = some mac →
    ∃ stanza, stanzaOf eth idx = some stanza ∧
      stanza.get? "match" = some (.obj [("macaddress", .str (lower mac))]) ∧
        Mode addressing nic stanza
  single : ∀ i j, HasRoute (stanzaOf eth i) → HasRoute (stanzaOf eth j) → i = j
  routed : (∃ nic ∈ nics, (gatewayOf addressing nic).isSome = true) →
    ∃ idx nic gw stanza, nics[idx]? = some nic ∧ gatewayOf addressing nic = some gw ∧
      stanzaOf eth idx = some stanza ∧ stanza.get? "routes" = some (defaultVia gw)
  build : HasRoute (eth.lookup "build0") ↔ buildNic.addressing.gateway.isSome = true

/-- The first static NIC has a gateway if any has one, and the address of the build NIC
dictates none that the build switch does not have. -/
def FirstRouted (nics : List Nic) (buildNic : BuildNic) : Prop :=
  ((∃ nic ∈ nics, (gatewayOf addressing nic).isSome = true) →
    ∃ idx nic, Scan.First (fun nic => isStatic nic.addr) nics idx nic ∧
      (gatewayOf addressing nic).isSome = true) ∧
  (buildNic.addr.gw.isSome = true → buildNic.addressing.gateway.isSome = true)

variable {lower safeDump addressing}

/-! ### One stanza -/

/-- What a stanza holds: the match, the address mode, and the route if it may carry one. -/
theorem nicNetplanEntry_spec {nic : Nic} {mac : String} {emit : Bool}
    {stanza : List (String × Json)}
    (h : nicNetplanEntry lower nic.addr mac (addressing nic.network) emit = .ok stanza) :
    stanza.lookup "match" = some (.obj [("macaddress", .str (lower mac))]) ∧
      Mode addressing nic (.obj stanza) ∧
      stanza.lookup "routes" =
        if emit then (gatewayOf addressing nic).map defaultVia else none := by
  obtain ⟨network, switch, addr⟩ := nic
  cases addr with
  | unconfigured =>
    cases h
    exact ⟨rfl, ⟨rfl, rfl, rfl⟩, by cases emit <;> rfl⟩
  | dhcp =>
    cases h
    exact ⟨rfl, ⟨rfl, rfl⟩, by cases emit <;> rfl⟩
  | static a =>
    cases htext : cidr a ((addressing network).map (·.prefixLen)) with
    | error e => simp [nicNetplanEntry, htext, Except.map] at h
    | ok text =>
      simp only [nicNetplanEntry, htext, Except.map, Except.ok.injEq] at h
      subst h
      -- The fields that follow are there or not, but are none of those asked for.
      have hfields : (staticFields a (addressing network) emit text).lookup "dhcp4" = none ∧
          (staticFields a (addressing network) emit text).lookup "routes" =
            if emit then (gateway a (addressing network)).map defaultVia else none := by
        unfold staticFields
        by_cases hdns : resolvers a (addressing network) ≠ [] <;>
          cases gateway a (addressing network) <;> cases emit <;> simp [hdns, List.lookup_cons]
      exact ⟨rfl, ⟨hfields.1, text, htext, rfl⟩, hfields.2⟩

/-! ### All stanzas -/

theorem nicId_inj {i j : ℕ} (h : nicId i = nicId j) : i = j := Text.append_toString_inj h

theorem nicId_ne_build (i : ℕ) : nicId i ≠ "build0" := by
  intro h
  have hhead := congrArg (fun s => s.toList.head?) h
  simp [nicId] at hhead

/-- A rendered map: the build stanza, and one stanza for every NIC in its place. -/
structure Rendered (lower : String → String) (addressing : String → Option NetworkAddressing)
    (nics : List Nic) (buildNic : BuildNic) (macs : List String) (eth : List (String × Json)) :
    Prop where
  length : macs.length = nics.length
  build : ∃ stanza, nicNetplanEntry lower (.static buildNic.addr) buildNic.mac
      (some buildNic.addressing) true = .ok stanza ∧ eth.lookup "build0" = some (.obj stanza)
  names : eth.map Prod.fst = "build0" :: (List.range nics.length).map nicId
  distinct : (eth.map Prod.fst).Nodup
  entry : ∀ i nic mac, nics[i]? = some nic → macs[i]? = some mac → ∃ stanza,
    stanzaOf eth i = some (.obj stanza) ∧
      nicNetplanEntry lower nic.addr mac (addressing nic.network)
        (isStatic nic.addr && !(nics.take i).any fun nic => isStatic nic.addr) = .ok stanza

variable {nics : List Nic} {buildNic : BuildNic} {macs : List String} {eth : List (String × Json)}

theorem any_take_zip (hlen : macs.length = nics.length) (i : ℕ) :
    ((nics.zip macs).take i).any (fun x => isStatic x.1.addr) =
      (nics.take i).any fun nic => isStatic nic.addr := by
  have hfst : (nics.zip macs).map Prod.fst = nics := List.map_fst_zip (Nat.le_of_eq hlen.symm)
  calc ((nics.zip macs).take i).any (fun x => isStatic x.1.addr)
      = (((nics.zip macs).map Prod.fst).take i).any fun nic => isStatic nic.addr := by
        rw [← List.map_take, List.any_map]
        rfl
    _ = (nics.take i).any fun nic => isStatic nic.addr := by rw [hfst]

theorem declaredEntry_eq_ok {declared : List (String × Json)} {i : ℕ} {seen : Bool} {nic : Nic}
    {mac : String} {y : String × Json} (hy : declared[i]? = some y)
    (h : declaredEntry lower addressing i seen (nic, mac) = .ok y) : ∃ stanza,
      declared[i]? = some (nicId i, .obj stanza) ∧ nicNetplanEntry lower nic.addr mac
        (addressing nic.network) (isStatic nic.addr && !seen) = .ok stanza := by
  rw [declaredEntry] at h
  cases hstanza : nicNetplanEntry lower nic.addr mac (addressing nic.network)
      (isStatic nic.addr && !seen) with
  | error e => simp [hstanza, Except.map] at h
  | ok stanza =>
    simp only [hstanza, Except.map, Except.ok.injEq] at h
    exact ⟨stanza, by rw [hy, h], rfl⟩

theorem rendered (h : ethernets lower addressing nics buildNic macs = .ok eth) :
    Rendered lower addressing nics buildNic macs eth := by
  rw [ethernets] at h
  by_cases hlen : macs.length = nics.length
  · rw [if_neg (not_not.mpr hlen)] at h
    obtain ⟨build, hbuild, h⟩ := Untyped.bind_eq_ok.mp h
    obtain ⟨declared, hdeclared, h⟩ := Untyped.bind_eq_ok.mp h
    cases h
    obtain ⟨hcount, hall⟩ := Scan.scan_spec hdeclared
    have hzip : (nics.zip macs).length = nics.length := by simp [hlen]
    -- Every entry is named by its place.
    have hentry : ∀ i nic mac, nics[i]? = some nic → macs[i]? = some mac → ∃ stanza,
        declared[i]? = some (nicId i, .obj stanza) ∧
          nicNetplanEntry lower nic.addr mac (addressing nic.network)
            (isStatic nic.addr && !(nics.take i).any fun nic => isStatic nic.addr) = .ok stanza := by
      intro i nic mac hnic hmac
      have hpair : (nics.zip macs)[i]? = some (nic, mac) :=
        List.getElem?_zip_eq_some.mpr ⟨hnic, hmac⟩
      obtain ⟨y, hy, hf⟩ := hall i (nic, mac) hpair
      rw [Bool.false_or, any_take_zip hlen, Nat.zero_add] at hf
      exact declaredEntry_eq_ok hy hf
    have hnames : declared.map Prod.fst = (List.range nics.length).map nicId := by
      refine List.ext_getElem (by simp [hcount, hzip]) fun i hi _ => ?_
      have hi' : i < nics.length := by simpa [hcount, hzip] using hi
      obtain ⟨stanza, hstanza, -⟩ := hentry i nics[i] macs[i] (List.getElem?_eq_getElem hi')
        (List.getElem?_eq_getElem (hlen ▸ hi'))
      obtain ⟨hd, hget⟩ := List.getElem?_eq_some_iff.mp hstanza
      simp [hget]
    have hdistinct : (("build0" :: (List.range nics.length).map nicId)).Nodup := by
      refine List.nodup_cons.mpr ⟨fun hmem => ?_, List.nodup_range.map fun i j => nicId_inj⟩
      obtain ⟨i, -, hi⟩ := List.mem_map.mp hmem
      exact nicId_ne_build i hi
    have hkeys : ((("build0", Json.obj build) :: declared).map Prod.fst).Nodup := by
      rw [List.map_cons, hnames]
      exact hdistinct
    rw [Json.dictOf_of_nodup hkeys]
    refine ⟨hlen, ⟨build, hbuild, rfl⟩, by rw [List.map_cons, hnames], hkeys, ?_⟩
    intro i nic mac hnic hmac
    obtain ⟨stanza, hstanza, hentry⟩ := hentry i nic mac hnic hmac
    have hmem : (nicId i, Json.obj stanza) ∈ declared := List.mem_of_getElem? hstanza
    exact ⟨stanza, (Json.lookup_eq_some_iff_mem hkeys).mpr (List.mem_cons_of_mem _ hmem), hentry⟩
  · rw [if_pos hlen] at h
    obtain ⟨_, hthrow, _⟩ := Untyped.bind_eq_ok.mp h
    cases hthrow

/-! ### Routes -/

/-- The route in the stanza of a declared NIC. -/
theorem Rendered.routes (hr : Rendered lower addressing nics buildNic macs eth) {i : ℕ} {nic : Nic}
    (hnic : nics[i]? = some nic) : ∃ stanza, stanzaOf eth i = some (.obj stanza) ∧
      stanza.lookup "routes" =
        if isStatic nic.addr && !(nics.take i).any fun nic => isStatic nic.addr then
          (gatewayOf addressing nic).map defaultVia
        else none := by
  have hi : i < macs.length := by
    rw [hr.length]
    exact (List.getElem?_eq_some_iff.mp hnic).1
  obtain ⟨stanza, hstanza, hentry⟩ := hr.entry i nic macs[i] hnic (List.getElem?_eq_getElem hi)
  exact ⟨stanza, hstanza, (nicNetplanEntry_spec hentry).2.2⟩

theorem Rendered.routes_first (hr : Rendered lower addressing nics buildNic macs eth) {i : ℕ}
    {nic : Nic} (hfirst : Scan.First (fun nic => isStatic nic.addr) nics i nic) :
    ∃ stanza, stanzaOf eth i = some (.obj stanza) ∧
      stanza.lookup "routes" = (gatewayOf addressing nic).map defaultVia := by
  obtain ⟨stanza, hstanza, hroutes⟩ := hr.routes hfirst.at_place
  rw [hfirst.marked, hfirst.before] at hroutes
  exact ⟨stanza, hstanza, hroutes⟩

/-- A declared NIC's stanza carries a route just when it is the first static one and has a
gateway. -/
theorem Rendered.hasRoute_iff (hr : Rendered lower addressing nics buildNic macs eth) {i : ℕ} :
    HasRoute (stanzaOf eth i) ↔ ∃ nic, Scan.First (fun nic => isStatic nic.addr) nics i nic ∧
      (gatewayOf addressing nic).isSome = true := by
  constructor
  · intro hroute
    obtain ⟨stanza, hstanza⟩ : ∃ stanza, stanzaOf eth i = some stanza := by
      cases hs : stanzaOf eth i with
      | none => rw [hs] at hroute; cases hroute
      | some stanza => exact ⟨stanza, rfl⟩
    have hi : i < nics.length := by
      have hmem := (Json.lookup_eq_some_iff_mem hr.distinct).mp hstanza
      have hname : nicId i ∈ eth.map Prod.fst := List.mem_map_of_mem hmem
      rw [hr.names, List.mem_cons] at hname
      obtain ⟨j, hj, hij⟩ := List.mem_map.mp (hname.resolve_left (nicId_ne_build i))
      rw [← nicId_inj hij]
      exact List.mem_range.mp hj
    obtain ⟨fields, hfields, hroutes⟩ := hr.routes (List.getElem?_eq_getElem hi)
    rw [hfields] at hroute
    have hsome : (fields.lookup "routes").isSome = true := hroute
    rw [hroutes] at hsome
    split at hsome
    · rename_i hemit
      obtain ⟨hstatic, hbefore⟩ := Bool.and_eq_true_iff.mp hemit
      refine ⟨nics[i], ⟨List.getElem?_eq_getElem hi, hstatic, ?_⟩, by simpa using hsome⟩
      simpa using hbefore
    · cases hsome
  · rintro ⟨nic, hfirst, hgw⟩
    obtain ⟨fields, hfields, hroutes⟩ := hr.routes_first hfirst
    rw [hfields]
    show (fields.lookup "routes").isSome = true
    rw [hroutes, Option.isSome_map]
    exact hgw

/-- The build stanza carries a route just when the build NIC has a gateway. -/
theorem Rendered.hasRoute_build (hr : Rendered lower addressing nics buildNic macs eth) :
    HasRoute (eth.lookup "build0") ↔
      buildNic.addr.gw.isSome = true ∨ buildNic.addressing.gateway.isSome = true := by
  obtain ⟨stanza, hentry, hstanza⟩ := hr.build
  obtain ⟨-, -, hroutes⟩ := @nicNetplanEntry_spec lower (fun _ => some buildNic.addressing)
    ⟨"", "", .static buildNic.addr⟩ buildNic.mac true stanza hentry
  rw [hstanza]
  show (stanza.lookup "routes").isSome = true ↔ _
  rw [hroutes, if_pos rfl, Option.isSome_map]
  show (gateway buildNic.addr (some buildNic.addressing)).isSome = true ↔ _
  rw [gateway]
  cases buildNic.addr.gw <;> simp

/-- **The guest gets its default route just when the first static NIC has a gateway if any
has one**; the build stanza has its own, unless the address of the build NIC dictates it. -/
theorem routed_iff (h : ethernets lower addressing nics buildNic macs = .ok eth) :
    Routed lower addressing nics buildNic macs eth ↔ FirstRouted addressing nics buildNic := by
  have hr := rendered h
  constructor
  · intro hrouted
    refine ⟨fun hsome => ?_, fun hgw => hrouted.build.mp (hr.hasRoute_build.mpr (.inl hgw))⟩
    obtain ⟨i, nic, gw, stanza, -, -, hstanza, hroutes⟩ := hrouted.routed hsome
    have hroute : HasRoute (stanzaOf eth i) := by
      rw [hstanza]
      show (stanza.get? "routes").isSome = true
      rw [hroutes]
      rfl
    obtain ⟨first, hfirst, hgw⟩ := hr.hasRoute_iff.mp hroute
    exact ⟨i, first, hfirst, hgw⟩
  · rintro ⟨hfirst, hbuild⟩
    refine ⟨hr.names, hr.distinct, ?_, ?_, ?_, ?_⟩
    · intro i nic mac hnic hmac
      obtain ⟨stanza, hstanza, hentry⟩ := hr.entry i nic mac hnic hmac
      obtain ⟨hmatch, hmode, -⟩ := nicNetplanEntry_spec hentry
      exact ⟨.obj stanza, hstanza, hmatch, hmode⟩
    · intro i j hi hj
      obtain ⟨first, hfirst, -⟩ := hr.hasRoute_iff.mp hi
      obtain ⟨first', hfirst', -⟩ := hr.hasRoute_iff.mp hj
      exact hfirst.unique hfirst'
    · intro hsome
      obtain ⟨i, nic, hplace, hgw⟩ := hfirst hsome
      obtain ⟨gw, hgw⟩ := Option.isSome_iff_exists.mp hgw
      obtain ⟨stanza, hstanza, hroutes⟩ := hr.routes_first hplace
      rw [hgw] at hroutes
      exact ⟨i, nic, gw, .obj stanza, hplace.at_place, hgw, hstanza, hroutes⟩
    · rw [hr.hasRoute_build]
      exact ⟨fun hor => hor.elim hbuild id, .inr⟩

/-- The build NIC that the orchestrator makes dictates no gateway. -/
theorem gw_buildNicFor {composeMac : String → String → ℤ → String} {planName : String} {sw : Switch}
    {v : VMRecipe} {installerOrigin : Bool} {vmIndex : ℕ}
    (h : buildNicFor composeMac planName sw v installerOrigin vmIndex = .ok buildNic) :
    buildNic.addr.gw = none := by
  rw [buildNicFor] at h
  split at h
  · cases h
  split at h
  · cases h
  split at h
  · cases h
    rfl
  · cases h

/-! ### A guest without a route -/

theorem isolated_ok : (Ipv4.interface "10.50.1.107").isSome = true := by decide

theorem routed_ok : (Ipv4.interface "10.50.2.107").isSome = true := by decide

theorem build_ok : (Ipv4.interface "10.50.9.3").isSome = true := by decide

theorem no_gateway : ∀ g ∈ (none : Option String), (Ipv4.address g.toList).isSome := by simp

theorem no_resolver : ∀ entry ∈ ([] : List String), (Ipv4.address entry.toList).isSome := by simp

/-- A static address that dictates nothing. -/
def bare (addr : String) (haddr : (Ipv4.interface addr).isSome = true) : StaticAddr where
  addr := addr
  gw := none
  dns := []
  addr_ok := haddr
  gw_ok := no_gateway
  dns_ok := no_resolver

/-- A NIC on an isolated network, and then one on a network with a gateway. -/
def isolatedFirst : List Nic :=
  [⟨"back", "inner", .static (bare "10.50.1.107" isolated_ok)⟩,
    ⟨"front", "outer", .static (bare "10.50.2.107" routed_ok)⟩]

def exampleNetworks : String → Option NetworkAddressing := fun network =>
  if network = "front" then some ⟨"10.50.2.0/24", 24, true, some "10.50.2.1", none⟩
  else some ⟨"10.50.1.0/24", 24, false, none, none⟩

def exampleBuild : BuildNic where
  mac := "02:00:00:de:ad:01"
  network := "build-net"
  addr := bare "10.50.9.3" build_ok
  addressing := ⟨"10.50.9.0/24", 24, true, some "10.50.9.1", none⟩

end Netplan

end TestRange
