/-
The `answer.toml` of the Proxmox VE installer.

The builder writes it line by line, and every value that a plan or a builder gives stands in it
as a basic string.

* `tomlStr` — the literal of a text, by replacements of the whole text one after the other;
* `tomlStr_eq` — together they spell every character alone;
* `ProxmoxAnswerBuilder`, `buildAnswerToml` — an accepted builder, and its answer file;
* `Network`, `answer` — what the credentials, the first NIC and the settings ask for;
* `answer_read_back` — that, line by line, is what is read of the file.
-/
import Mathlib.Data.List.Dedup
import TestRange.Builders.Netplan
import TestRange.Lib.Toml

namespace TestRange

namespace Answer

/-! ### String literals -/

/-- `text.replace(old, new)`, for one character. -/
def replace (old : Char) (new text : List Char) : List Char :=
  text.flatMap fun c => if c = old then new else [c]

/-- `_toml_str` -/
def tomlStr (value : List Char) : List Char :=
  let escaped := replace '"' ['\\', '"'] (replace '\\' ['\\', '\\'] value)
  let escaped := replace '\t' ['\\', 't'] (replace '\r' ['\\', 'r'] (replace '\n' ['\\', 'n'] escaped))
  let escaped := escaped.flatMap fun c =>
    if ' '.toNat ≤ c.toNat ∧ c.toNat ≠ 0x7f then [c] else Json.uEscape c.toNat
  '"' :: (escaped ++ ['"'])

/-- What the replacements make of one character. -/
def tomlChar (c : Char) : List Char :=
  if c = '\\' then ['\\', '\\']
  else if c = '"' then ['\\', '"']
  else if c = '\n' then ['\\', 'n']
  else if c = '\r' then ['\\', 'r']
  else if c = '\t' then ['\\', 't']
  else if 0x20 ≤ c.toNat ∧ c.toNat ≠ 0x7f then [c]
  else Json.uEscape c.toNat

/-- No replacement touches what an earlier one wrote but the backslashes it leaves alone. -/
theorem tomlStr_eq (value : List Char) : tomlStr value = Toml.quoted tomlChar value := by
  have hchar : ∀ c, (replace '\t' ['\\', 't'] (replace '\r' ['\\', 'r'] (replace '\n' ['\\', 'n']
      (replace '"' ['\\', '"'] (replace '\\' ['\\', '\\'] [c]))))).flatMap (fun c =>
        if ' '.toNat ≤ c.toNat ∧ c.toNat ≠ 0x7f then [c] else Json.uEscape c.toNat) = tomlChar c := by
    intro c
    have hspace : ' '.toNat = 0x20 := rfl
    unfold tomlChar
    split_ifs with h₁ h₂ h₃ h₄ h₅ h₆
    · subst h₁; decide
    · subst h₂; decide
    · subst h₃; decide
    · subst h₄; decide
    · subst h₅; decide
    · simp [replace, h₁, h₂, h₃, h₄, h₅, hspace, h₆]
    · simp only [replace, List.flatMap_cons, List.flatMap_nil, List.append_nil, if_neg h₁, if_neg h₂,
        if_neg h₃, if_neg h₄, if_neg h₅, hspace, if_neg h₆]
  rw [tomlStr, Toml.quoted]
  simp only [replace, List.flatMap_assoc] at hchar ⊢
  congr 2
  refine List.flatMap_congr fun c _ => ?_
  simpa using hchar c

theorem spells_tomlChar (c : Char) : Toml.Spells (tomlChar c) c := by
  unfold tomlChar
  split_ifs with h₁ h₂ h₃ h₄ h₅ h₆
  · exact Toml.spells_short (by rw [h₁]; decide)
  · exact Toml.spells_short (by rw [h₂]; decide)
  · exact Toml.spells_short (by rw [h₃]; decide)
  · exact Toml.spells_short (by rw [h₄]; decide)
  · exact Toml.spells_short (by rw [h₅]; decide)
  · refine Toml.spells_raw ?_ h₂ h₁
    simp [Toml.isRaw, h₆]
  · refine Toml.spells_unicode ?_
    omega

/-- U+0000 to U+001F, and U+007F. -/
def isControl (c : Char) : Bool := c.toNat < 0x20 || c.toNat = 0x7f

theorem not_isControl_tomlChar (c : Char) : ∀ d ∈ tomlChar c, isControl d = false := by
  have hdigit : ∀ m, isControl (Nat.digitChar (m % 16)) = false := by
    intro m
    have hlt := Nat.mod_lt m (show 0 < 16 by decide)
    generalize m % 16 = n at hlt
    interval_cases n <;> decide
  have hshort : ∀ e, isControl e = false → ∀ d ∈ ['\\', e], isControl d = false := by
    intro e he d hd
    simp only [List.mem_cons, List.not_mem_nil, or_false] at hd
    rcases hd with rfl | rfl
    · decide
    · exact he
  unfold tomlChar
  split_ifs with h₁ h₂ h₃ h₄ h₅ h₆
  · exact hshort '\\' (by decide)
  · exact hshort '"' (by decide)
  · exact hshort 'n' (by decide)
  · exact hshort 'r' (by decide)
  · exact hshort 't' (by decide)
  · simp only [List.mem_singleton, forall_eq]
    simp [isControl, h₆]
  · intro d hd
    simp only [Json.uEscape, Json.hex4, List.mem_cons, List.not_mem_nil, or_false] at hd
    rcases hd with rfl | rfl | rfl | rfl | rfl | rfl
    · decide
    · decide
    all_goals exact hdigit _

/-- A literal has no control character in it. -/
theorem not_isControl_tomlStr (value : List Char) : ∀ d ∈ tomlStr value, isControl d = false := by
  intro d hd
  by_contra hc
  rw [Bool.not_eq_false] at hc
  rw [tomlStr_eq] at hd
  refine Toml.notMem_quoted (f := tomlChar) ?_ ?_ value hd
  · rintro rfl
    exact absurd hc (by decide)
  · intro c hmem
    rw [not_isControl_tomlChar c d hmem] at hc
    exact absurd hc (by decide)

example : tomlStr "a\"b\\c".toList = "\"a\\\"b\\\\c\"".toList := by decide

/-! ### The builder -/

/-- What is read of a `PosixCred`. -/
structure PosixCred where
  username : String
  password : Option String
  /-- the `auth_line` of its key -/
  authLine : Option String
  /-- A credential carries a password or a key. -/
  carries : password.isSome ∨ authLine.isSome

inductive Credential
  | posix (c : PosixCred)
  | other (username : String)

def Credential.username : Credential → String
  | .posix c => c.username
  | .other username => username

/-- `c.username == "root" and isinstance(c, PosixCred)` -/
def Credential.asRoot : Credential → Option PosixCred
  | .posix c => if c.username = "root" then some c else none
  | .other _ => none

inductive Package
  | apt (name : String)
  | pip (name : String) (insecure : Bool)
  | other (typeName : String)

/-- The `ValueError`s of the constructor. -/
inductive InitError
  | noRoot
  | rootPassword
  | package (typeName : String)
  | emptyCommand
  | duplicates (usernames : List String)

/-- `next((c for c in creds if c.username == "root"), None)` -/
def rootOf (creds : List Credential) : Option Credential := creds.find? (·.username = "root")

def Package.foreign : Package → Option String
  | .other typeName => some typeName
  | _ => none

/-- `_validate_init_params` -/
def validateInitParams (creds : List Credential) (pkgs : List Package) (cmds : List String) :
    Except InitError Unit :=
  match rootOf creds with
  | none => .error .noRoot
  | some (.other _) => .error .rootPassword
  | some (.posix root) =>
    if root.password = none ∨ root.password = some "" then .error .rootPassword
    else
      match pkgs.findSome? Package.foreign with
      | some typeName => .error (.package typeName)
      | none =>
        if "" ∈ cmds then .error .emptyCommand
        else
          let usernames := creds.map (·.username)
          let dupes := (usernames.filter fun u => 1 < usernames.count u).dedup
          if dupes ≠ [] then .error (.duplicates (dupes.mergeSort fun u v => decide (u ≤ v))) else .ok ()

example : validateInitParams [.posix ⟨"root", some "secret", none, .inl rfl⟩] [.apt "curl"] ["true"] =
    .ok () := rfl

/-- `ProxmoxAnswerBuilder`, with what the constructor accepts. -/
structure ProxmoxAnswerBuilder where
  credentials : List Credential
  packages : List Package
  postInstallCommands : List String
  country : String
  keyboard : String
  timezone : String
  fqdnDomain : String
  mailto : String
  filesystem : String
  diskDevice : String
  networkInterface : String
  accepted : validateInitParams credentials packages postInstallCommands = .ok ()

/-- How `build_answer_toml` may fail. -/
inductive AnswerError
  /-- `ValueError("no root credential")` -/
  | noRoot
  /-- the assertion on the root password -/
  | noPassword
  | render (e : Netplan.RenderError)

/-- `f"{key} = {_toml_str(value)}"` -/
def keyLine (key value : String) : List Char := key.toList ++ " = ".toList ++ tomlStr value.toList

/-- `key = [` and the literals of an array. -/
def arrayLine (key : String) (values : List String) : List Char :=
  key.toList ++ " = ".toList ++
    '[' :: (", ".toList.intercalate (values.map fun v => tomlStr v.toList) ++ [']'])

/-- The resolver that is written: the first dictated one, else that of the network. -/
def resolver (a : StaticAddr) (sub : Option NetworkAddressing) : Option String :=
  match a.dns with
  | dns :: _ => some dns
  | [] => sub.bind (·.dnsServer)

namespace ProxmoxAnswerBuilder

variable (b : ProxmoxAnswerBuilder)

/-- `_root_credential` -/
def rootCredential : Except AnswerError PosixCred :=
  match b.credentials.findSome? Credential.asRoot with
  | some root => .ok root
  | none => .error .noRoot

/-- The public keys of the credentials that have one. -/
def sshKeys : List String :=
  b.credentials.filterMap fun c =>
    match c with
    | .posix c => c.authLine
    | .other _ => none

/-- `_network_block` -/
def networkBlock (nics : List Nic) (addressing : String → Option NetworkAddressing) :
    Except AnswerError (List (List Char)) :=
  match nics with
  | ⟨network, _, .static static⟩ :: _ =>
    let sub := addressing network
    match Netplan.cidr static (sub.map (·.prefixLen)) with
    | .error e => .error (.render e)
    | .ok cidr =>
      .ok (["source = \"from-answer\"".toList, keyLine "cidr" cidr] ++
        (Netplan.gateway static sub).toList.map (keyLine "gateway") ++
        (resolver static sub).toList.map (keyLine "dns") ++
        [keyLine "filter.ID_NET_NAME" b.networkInterface])
  | _ => .ok ["source = \"from-dhcp\"".toList]

/-- `build_answer_toml`; `nics` are those of the spec. -/
def buildAnswerToml (nics : List Nic) (recipe : VMRecipe)
    (addressing : String → Option NetworkAddressing) : Except AnswerError (List Char) := do
  let root ← b.rootCredential
  let password ← root.password.elim (.error .noPassword) .ok
  let globalBlock :=
    [keyLine "country" b.country,
      keyLine "keyboard" b.keyboard,
      keyLine "timezone" b.timezone,
      keyLine "fqdn" (recipe.name ++ "." ++ b.fqdnDomain),
      keyLine "mailto" b.mailto,
      keyLine "root-password" password] ++
    if b.sshKeys ≠ [] then [arrayLine "root-ssh-keys" b.sshKeys] else []
  let diskBlock := [keyLine "filesystem" b.filesystem, arrayLine "disk-list" [b.diskDevice]]
  let networkBlock ← b.networkBlock nics addressing
  let lines :=
    ["[global]".toList] ++ globalBlock ++ [[], "[network]".toList] ++ networkBlock ++
      [[], "[disk-setup]".toList] ++ diskBlock ++
      [[], "[first-boot]".toList, "source = \"from-iso\"".toList,
        "ordering = \"network-online\"".toList]
  pure (['\n'].intercalate lines ++ ['\n'])

end ProxmoxAnswerBuilder

/-! ### What is configured -/

/-- The public key of a credential. -/
def Credential.publicKey : Credential → Option String
  | .posix c => c.authLine
  | .other _ => none

/-- The network of the installer: a lease, or an address in CIDR notation with its gateway and its
resolver. -/
inductive Network
  | lease
  | address (cidr : String) (gateway dns : Option String)

/-- The CIDR notation of a static address, with the prefix that is written in it, else with that
of its network. -/
def cidrOf (a : StaticAddr) (sub : Option NetworkAddressing) : Option String :=
  (Ipv4.interface a.addr).bind fun read =>
    let len := if '/' ∈ a.addr.toList then some read.2 else sub.map (·.prefixLen)
    len.map fun len => Ipv4.dotted read.1 ++ "/" ++ toString len

/-- The network that the first NIC declares; a prefix must be known. -/
def Network.declared (nics : List Nic) (addressing : String → Option NetworkAddressing) :
    Except AnswerError Network :=
  match nics.head? with
  | some ⟨network, _, .static a⟩ =>
    match cidrOf a (addressing network) with
    | some cidr =>
      .ok (.address cidr (a.gw <|> (addressing network).bind (·.gateway))
        (a.dns.head? <|> (addressing network).bind (·.dnsServer)))
    | none => .error (.render (.noPrefix a.addr))
  | _ => .ok .lease

/-! ### What the file says -/

/-- A key and a string. -/
def setting (key value : String) : Toml.Line := .entry (key.toList.splitOn '.') (.str value.toList)

/-- A key and strings. -/
def settings (key : String) (values : List String) : Toml.Line :=
  .entry (key.toList.splitOn '.') (.strs (values.map (·.toList)))

/-- The header of a table. -/
def header (name : String) : Toml.Line := .table [name.toList]

/-- The settings of a network, on the interface `name`. -/
def Network.answer (name : String) : Network → List Toml.Line
  | .lease => [setting "source" "from-dhcp"]
  | .address cidr gateway dns =>
    [setting "source" "from-answer", setting "cidr" cidr] ++
      gateway.toList.map (setting "gateway") ++ dns.toList.map (setting "dns") ++
      [setting "filter.ID_NET_NAME" name]

/-- The lines of an answer: the settings of the builder, the keys of the credentials, the host name
of the VM and its network. -/
def ProxmoxAnswerBuilder.answer (b : ProxmoxAnswerBuilder) (recipe : VMRecipe) (password : String)
    (network : Network) : List Toml.Line :=
  let keys := b.credentials.filterMap Credential.publicKey
  [header "global"] ++
    ([setting "country" b.country, setting "keyboard" b.keyboard, setting "timezone" b.timezone,
      setting "fqdn" (recipe.name ++ "." ++ b.fqdnDomain), setting "mailto" b.mailto,
      setting "root-password" password] ++
      if keys ≠ [] then [settings "root-ssh-keys" keys] else []) ++
    [.blank, header "network"] ++ network.answer b.networkInterface ++
    [.blank, header "disk-setup"] ++
    [setting "filesystem" b.filesystem, settings "disk-list" [b.diskDevice]] ++
    [.blank, header "first-boot", setting "source" "from-iso", setting "ordering" "network-online"]

open Toml (IsKey Reads)

theorem reads_keyLine {key : String} (h : IsKey key.toList) (value : String) :
    Reads (keyLine key value) (setting key value) := by
  have hread : Toml.readValue (tomlStr value.toList) = some (.str value.toList, []) := by
    rw [tomlStr_eq]
    exact Toml.readValue_quoted spells_tomlChar value.toList
  exact Toml.reads_entry h hread fun hmem => absurd (not_isControl_tomlStr _ _ hmem) (by decide)

theorem reads_arrayLine {key : String} (h : IsKey key.toList) (values : List String) :
    Reads (arrayLine key values) (settings key values) := by
  have hmap : (values.map fun v => tomlStr v.toList) =
      (values.map (·.toList)).map (Toml.quoted tomlChar) := by
    rw [List.map_map]
    exact List.map_congr_left fun v _ => tomlStr_eq v.toList
  refine Toml.reads_entry h ?_ ?_
  · rw [hmap]
    exact Toml.readValue_array spells_tomlChar (values.map (·.toList))
  · have hliteral : ∀ text ∈ (values.map fun v => tomlStr v.toList), '\n' ∉ text := by
      intro text htext hmem
      obtain ⟨v, -, rfl⟩ := List.mem_map.mp htext
      exact absurd (not_isControl_tomlStr _ _ hmem) (by decide)
    have hjoin := Toml.notMem_intercalate (show '\n' ∉ ", ".toList by decide) hliteral
    simp only [List.mem_cons, List.mem_append, List.not_mem_nil, or_false, not_or]
    exact ⟨by decide, hjoin, by decide⟩

/-- The first credential of root is the one that is used, if it is of that kind. -/
theorem findSome_asRoot {creds : List Credential} {root : PosixCred}
    (h : rootOf creds = some (.posix root)) : creds.findSome? Credential.asRoot = some root := by
  have hname : root.username = "root" := by
    have hfound := List.find?_some h
    exact of_decide_eq_true hfound
  rw [rootOf] at h
  induction creds with
  | nil => cases h
  | cons c creds ih =>
    by_cases hc : c.username = "root"
    · rw [List.find?_cons_of_pos (by simpa using hc)] at h
      cases h
      rw [List.findSome?_cons, Credential.asRoot, if_pos hname]
    · rw [List.find?_cons_of_neg (by simpa using hc)] at h
      have hnone : c.asRoot = none := by
        cases c with
        | posix c => exact if_neg hc
        | other _ => rfl
      rw [List.findSome?_cons, hnone]
      exact ih h

namespace ProxmoxAnswerBuilder

variable (b : ProxmoxAnswerBuilder)

/-- The first credential of root that an accepted builder has is one with a password. -/
theorem rootCredential_ok : ∃ root password,
    b.credentials.find? (·.username = "root") = some (.posix root) ∧
      root.password = some password ∧ b.rootCredential = .ok root := by
  have h := b.accepted
  unfold validateInitParams at h
  split at h
  · cases h
  · cases h
  · rename_i root hroot
    have hpassword : ¬(root.password = none ∨ root.password = some "") := by
      intro hempty
      rw [if_pos hempty] at h
      cases h
    obtain ⟨password, hsome⟩ : ∃ p, root.password = some p := by
      rw [← Option.ne_none_iff_exists']
      exact fun hnone => hpassword (.inl hnone)
    refine ⟨root, password, hroot, hsome, ?_⟩
    rw [rootCredential, findSome_asRoot hroot]

theorem reads_header {line : List Char} (name : String) (hline : line = '[' :: name.toList ++ [']'])
    (h : IsKey name.toList) (hpart : name.toList.splitOn '.' = [name.toList]) :
    Reads line (header name) := by
  have hreads := Toml.reads_table h
  rw [hpart, ← hline] at hreads
  exact hreads

theorem reads_keyLines {key : String} (h : IsKey key.toList) (values : List String) :
    List.Forall₂ Reads (values.map (keyLine key)) (values.map (setting key)) := by
  induction values with
  | nil => exact .nil
  | cons value values ih => exact .cons (reads_keyLine h value) ih

/-- The keys that are collected are those of the credentials. -/
theorem sshKeys_eq : b.sshKeys = b.credentials.filterMap Credential.publicKey := by
  refine List.filterMap_congr fun c _ => ?_
  cases c with
  | posix c => rfl
  | other username => rfl

/-- A dictated gateway stands before that of the network. -/
theorem gateway_eq (a : StaticAddr) (sub : Option NetworkAddressing) :
    Netplan.gateway a sub = (a.gw <|> sub.bind (·.gateway)) := by
  unfold Netplan.gateway
  cases a.gw <;> rfl

theorem resolver_eq (a : StaticAddr) (sub : Option NetworkAddressing) :
    resolver a sub = (a.dns.head? <|> sub.bind (·.dnsServer)) := by
  unfold resolver
  cases a.dns <;> rfl

/-- The address that is written is the declared one. -/
theorem cidr_eq (a : StaticAddr) (sub : Option NetworkAddressing) :
    Netplan.cidr a (sub.map (·.prefixLen)) =
      match cidrOf a sub with
      | some text => .ok text
      | none => .error (.noPrefix a.addr) := by
  obtain ⟨read, hread⟩ := Option.isSome_iff_exists.mp a.addr_ok
  have hhost : a.host = Ipv4.dotted read.1 := by simp only [StaticAddr.host, StaticAddr.ip, hread, Option.get_some]
  have hlen : a.prefixLen = read.2 := by simp only [StaticAddr.prefixLen, hread, Option.get_some]
  unfold Netplan.cidr cidrOf
  rw [hread, hhost, hlen]
  simp only [Option.bind_some]
  split_ifs with hslash
  · rfl
  · cases sub <;> rfl

/-- The lines of the network block say what the first NIC declares. -/
theorem networkBlock_reads (nics : List Nic) (addressing : String → Option NetworkAddressing) :
    (∃ e, b.networkBlock nics addressing = .error e ∧ Network.declared nics addressing = .error e) ∨
      ∃ lines network, b.networkBlock nics addressing = .ok lines ∧
        Network.declared nics addressing = .ok network ∧
          List.Forall₂ Reads lines (network.answer b.networkInterface) := by
  have hdhcp : List.Forall₂ Reads ["source = \"from-dhcp\"".toList] [setting "source" "from-dhcp"] :=
    reads_keyLines (show IsKey "source".toList by decide) ["from-dhcp"]
  have hsource : Reads "source = \"from-answer\"".toList (setting "source" "from-answer") :=
    reads_keyLine (show IsKey "source".toList by decide) "from-answer"
  have hcidr : IsKey "cidr".toList := by decide
  have hgateway : IsKey "gateway".toList := by decide
  have hdns : IsKey "dns".toList := by decide
  have hfilter : IsKey "filter.ID_NET_NAME".toList := by decide
  unfold networkBlock Network.declared
  cases nics with
  | nil => exact .inr ⟨_, _, rfl, rfl, hdhcp⟩
  | cons nic nics =>
    obtain ⟨network, name, addr⟩ := nic
    cases addr with
    | unconfigured => exact .inr ⟨_, _, rfl, rfl, hdhcp⟩
    | dhcp => exact .inr ⟨_, _, rfl, rfl, hdhcp⟩
    -- Only a static address can be refused.
    | static a =>
      simp only [List.head?_cons, cidr_eq]
      cases cidrOf a (addressing network) with
      | none => exact .inl ⟨_, rfl, rfl⟩
      | some cidr =>
        refine .inr ⟨_, _, rfl, rfl, ?_⟩
        rw [gateway_eq, resolver_eq]
        refine List.rel_append (List.rel_append (List.rel_append ?_ ?_) ?_) ?_
        · exact .cons hsource (.cons (reads_keyLine hcidr cidr) .nil)
        · exact reads_keyLines hgateway _
        · exact reads_keyLines hdns _
        · exact .cons (reads_keyLine hfilter b.networkInterface) .nil

/-- The settings of the installer, the credentials and the host name. -/
theorem reads_global (fqdn password : String) (keys : List String) : List.Forall₂ Reads
    ([keyLine "country" b.country, keyLine "keyboard" b.keyboard, keyLine "timezone" b.timezone,
      keyLine "fqdn" fqdn, keyLine "mailto" b.mailto, keyLine "root-password" password] ++
      if keys ≠ [] then [arrayLine "root-ssh-keys" keys] else [])
    ([setting "country" b.country, setting "keyboard" b.keyboard, setting "timezone" b.timezone,
      setting "fqdn" fqdn, setting "mailto" b.mailto, setting "root-password" password] ++
      if keys ≠ [] then [settings "root-ssh-keys" keys] else []) := by
  have hcountry := reads_keyLine (show IsKey "country".toList by decide) b.country
  have hkeyboard := reads_keyLine (show IsKey "keyboard".toList by decide) b.keyboard
  have htimezone := reads_keyLine (show IsKey "timezone".toList by decide) b.timezone
  have hfqdn := reads_keyLine (show IsKey "fqdn".toList by decide) fqdn
  have hmailto := reads_keyLine (show IsKey "mailto".toList by decide) b.mailto
  have hpassword := reads_keyLine (show IsKey "root-password".toList by decide) password
  refine List.rel_append (.cons hcountry (.cons hkeyboard (.cons htimezone (.cons hfqdn
    (.cons hmailto (.cons hpassword .nil)))))) ?_
  by_cases hkeys : keys ≠ []
  · rw [if_pos hkeys, if_pos hkeys]
    exact .cons (reads_arrayLine (show IsKey "root-ssh-keys".toList by decide) keys) .nil
  · rw [if_neg hkeys, if_neg hkeys]
    exact .nil

/-- The disk the installer partitions. -/
theorem reads_disk : List.Forall₂ Reads
    [keyLine "filesystem" b.filesystem, arrayLine "disk-list" [b.diskDevice]]
    [setting "filesystem" b.filesystem, settings "disk-list" [b.diskDevice]] :=
  .cons (reads_keyLine (show IsKey "filesystem".toList by decide) b.filesystem)
    (.cons (reads_arrayLine (show IsKey "disk-list".toList by decide) [b.diskDevice]) .nil)

/-- **What is read of the answer is what was configured.** A literal is read back as its value and
ends at its own quote; the file of an accepted builder has one line for every setting, which says
that setting, and no other lines. -/
theorem answer_read_back (value : List Char) (nics : List Nic) (recipe : VMRecipe)
    (addressing : String → Option NetworkAddressing) :
    (∃ body, tomlStr value = '"' :: (body ++ ['"']) ∧
      Toml.basic .plain (body ++ ['"']) = some (value, []) ∧ Toml.unescapedQuote false body = false) ∧
    (∀ c ∈ tomlStr value, isControl c = false) ∧
    ∃ root password, b.credentials.find? (·.username = "root") = some (.posix root) ∧
      root.password = some password ∧
      (b.buildAnswerToml nics recipe addressing).map Toml.readLines =
        (Network.declared nics addressing).map fun network =>
          (b.answer recipe password network ++ [Toml.Line.blank]).map some := by
  refine ⟨⟨value.flatMap tomlChar, tomlStr_eq value, Toml.basic_flatMap spells_tomlChar value [],
    Toml.unescapedQuote_flatMap spells_tomlChar value⟩, not_isControl_tomlStr value, ?_⟩
  obtain ⟨root, password, hfirst, hpassword, hroot⟩ := b.rootCredential_ok
  refine ⟨root, password, hfirst, hpassword, ?_⟩
  have hglobal : Reads "[global]".toList (header "global") :=
    reads_header "global" (by decide) (by decide) (by decide)
  have hnet : Reads "[network]".toList (header "network") :=
    reads_header "network" (by decide) (by decide) (by decide)
  have hdisk : Reads "[disk-setup]".toList (header "disk-setup") :=
    reads_header "disk-setup" (by decide) (by decide) (by decide)
  have hboot : Reads "[first-boot]".toList (header "first-boot") :=
    reads_header "first-boot" (by decide) (by decide) (by decide)
  have hsource : Reads "source = \"from-iso\"".toList (setting "source" "from-iso") :=
    reads_keyLine (show IsKey "source".toList by decide) "from-iso"
  have hordering : Reads "ordering = \"network-online\"".toList (setting "ordering" "network-online") :=
    reads_keyLine (show IsKey "ordering".toList by decide) "network-online"
  rw [buildAnswerToml, hroot]
  simp only [bind, Except.bind, hpassword, Option.elim_some]
  -- The block of the network is the only part that fails, and it fails as declared.
  rcases b.networkBlock_reads nics addressing with ⟨e, hblock, hanswer⟩ |
    ⟨lines, network, hblock, hanswer, hnetwork⟩
  · rw [hblock, hanswer]
    rfl
  · rw [hblock, hanswer]
    simp only [pure, Except.pure, Except.map]
    refine congrArg Except.ok (Toml.readLines_join ?_ ?_)
    · simp
    · refine List.rel_append (List.rel_append (List.rel_append (List.rel_append (List.rel_append
        (List.rel_append ?_ ?_) ?_) hnetwork) ?_) b.reads_disk) ?_
      · exact .cons hglobal .nil
      · rw [sshKeys_eq]
        exact b.reads_global (recipe.name ++ "." ++ b.fqdnDomain) password _
      · exact .cons Toml.reads_blank (.cons hnet .nil)
      · exact .cons Toml.reads_blank (.cons hdisk .nil)
      · exact .cons Toml.reads_blank (.cons hboot (.cons hsource (.cons hordering .nil)))

/-- A builder for a root with a password and a key, a user with a key alone, and one of another
system. -/
def labBuilder : ProxmoxAnswerBuilder where
  credentials :=
    [.posix ⟨"alice", none, some "ssh-rsa BBBB alice", .inr rfl⟩,
      .posix ⟨"root", some "a\"b\\c\n[network]", some "ssh-ed25519 AAAA root", .inl rfl⟩,
      .other "Administrator"]
  packages := [.apt "curl", .pip "requests" false]
  postInstallCommands := ["systemctl enable chrony"]
  country := "us"
  keyboard := "en-us"
  timezone := "UTC"
  fqdnDomain := "lab.local"
  mailto := "root@lab.local"
  filesystem := "ext4"
  diskDevice := "sda"
  networkInterface := "ens18"
  accepted := rfl

def labNode : VMRecipe where
  name := "pve1"
  osPool := "pool0"
  dataPools := []
  nics := []
  name_ne := by decide

/-- A bare address with a resolver of its own. -/
def labAddress : StaticAddr where
  addr := "10.0.0.5"
  gw := none
  dns := ["10.0.0.53"]
  addr_ok := by decide
  gw_ok := Netplan.no_gateway
  dns_ok := by decide

/-- A network with a gateway, which is also its resolver. -/
def labNetwork : NetworkAddressing := ⟨"10.0.0.0/24", 24, true, some "10.0.0.1", some "10.0.0.1"⟩

/-- The line feed in the password starts no line, and the brackets behind it no table. -/
theorem lab_answer_read :
    (labBuilder.buildAnswerToml [⟨"lan", "sw0", .static labAddress⟩] labNode fun _ =>
      some labNetwork).map Toml.readLines =
    .ok ([header "global", setting "country" "us", setting "keyboard" "en-us",
      setting "timezone" "UTC", setting "fqdn" "pve1.lab.local", setting "mailto" "root@lab.local",
      setting "root-password" "a\"b\\c\n[network]",
      settings "root-ssh-keys" ["ssh-rsa BBBB alice", "ssh-ed25519 AAAA root"], .blank,
      header "network", setting "source" "from-answer", setting "cidr" "10.0.0.5/24",
      setting "gateway" "10.0.0.1", setting "dns" "10.0.0.53",
      setting "filter.ID_NET_NAME" "ens18", .blank, header "disk-setup",
      setting "filesystem" "ext4", settings "disk-list" ["sda"], .blank, header "first-boot",
      setting "source" "from-iso", setting "ordering" "network-online", .blank].map some) := by
  obtain ⟨-, -, root, password, hfirst, hpassword, hread⟩ := labBuilder.answer_read_back []
    [⟨"lan", "sw0", .static labAddress⟩] labNode fun _ => some labNetwork
  have hroot : labBuilder.credentials.find? (·.username = "root") =
      some (.posix ⟨"root", some "a\"b\\c\n[network]", some "ssh-ed25519 AAAA root", .inl rfl⟩) := rfl
  have hdeclared : Network.declared [⟨"lan", "sw0", .static labAddress⟩] (fun _ => some labNetwork) =
      .ok (.address "10.0.0.5/24" (some "10.0.0.1") (some "10.0.0.53")) := rfl
  rw [hread, hdeclared]
  rw [hroot] at hfirst
  cases hfirst
  cases hpassword
  rfl

end ProxmoxAnswerBuilder

end Answer

end TestRange
