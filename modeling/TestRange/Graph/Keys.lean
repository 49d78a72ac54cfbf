/-
The cache keys of a graph's nodes.

A node's key is the hash of its own inputs, into which the keys of its content dependencies
are folded.  The walk takes the nodes in topological order.

* `computeCacheKeys` — the walk;
* `Node.own_inj` — the own-inputs hash tells declarations apart;
* `foldDependencyKeys_inj` — the fold tells own keys and dependency keys apart;
* `cacheKeys_sound` — keys depend on exactly the content ancestry.

The first 16 digits of SHA-256 are a parameter, injective, and so is what a builder makes
of a VM.
-/
import TestRange.Graph.Waves
import TestRange.Lib.Derive
import TestRange.Lib.Text
import TestRange.Plan

namespace TestRange

/-! ### Hashes -/

/-- The separator of the parts that are hashed. -/
def nul : Char := Char.ofNat 0

/-- What keys are made with. -/
structure Hashing where
  /-- `hashlib.sha256(text.encode()).hexdigest()[:16]` -/
  digest : String → String
  /-- The `config_hash` of the probe of a VM, by its recipe and its place in the plan. -/
  configHash : VMRecipe → ℕ → String
  digest_injective : Function.Injective digest
  nul_notMem_digest : ∀ text, nul ∉ (digest text).toList
  nul_notMem_configHash : ∀ v i, nul ∉ (configHash v i).toList

/-- The parts, each with its terminator. -/
def terminated (parts : List String) : List Char := parts.flatMap fun part => part.toList ++ [nul]

variable (H : Hashing)

/-- `_hash_inputs(*parts)` -/
def hashInputs (parts : List String) : String := H.digest (String.ofList (terminated parts))

/-- What is hashed of the dependencies, in order. -/
def dependencyText (deps : List (String × String)) : List Char :=
  deps.flatMap fun dep => nul :: (dep.1.toList ++ '=' :: dep.2.toList)

/-- By the name of the dependency. -/
def depLe (a b : String × String) : Prop := a.1 ≤ b.1

instance : DecidableRel depLe := fun a b => inferInstanceAs (Decidable (a.1 ≤ b.1))

/-- Fold the keys of the content dependencies into the key of the own inputs. -/
def foldDependencyKeys (ownKey : String) (deps : List (String × String)) : String :=
  if deps = [] then ownKey
  else H.digest (String.ofList (ownKey.toList ++ dependencyText (deps.insertionSort depLe)))

/-! ### Own inputs -/

/-- `str(flag)` -/
def pyBool (flag : Bool) : String := if flag then "True" else "False"

/-- `repr(text)` of a text without quotes. -/
def pyRepr (text : String) : String := "'" ++ text ++ "'"

/-- `repr` of a tuple of such texts. -/
def pyTuple (texts : List String) : String :=
  "(" ++ ", ".intercalate (texts.map pyRepr) ++ (if texts.length = 1 then ",)" else ")")

/-- `str(addr)` -/
def StaticAddr.repr (a : StaticAddr) : String :=
  "StaticAddr(addr=" ++ pyRepr a.addr ++ ", gw=" ++ a.gw.elim "None" pyRepr ++ ", dns=" ++
    pyTuple a.dns ++ ")"

/-- The services of a sidecar, as they are hashed. -/
def Sidecar.text (sc : Sidecar) : String :=
  "dhcp=" ++ pyBool sc.dhcp ++ ",dns=" ++ pyBool sc.dns ++ ",nat=" ++ pyBool sc.nat ++
    ",addr=" ++ sc.addr.elim "None" StaticAddr.repr

/-- The key of a node's own inputs. -/
def Node.own : Node → String
  | .pool p => hashInputs H ["pool", p.name, toString p.sizeGb]
  | .network sw => hashInputs H ["network", sw.name, sw.cidr, sw.uplink.getD "", pyBool sw.mgmt,
      ",".intercalate sw.networks]
  | .sidecar sw => hashInputs H ["sidecar", sw.name, sw.sidecar.elim "" Sidecar.text]
  | .vm v index => H.configHash v index

/-- `node.cache_key(ctx, dependency_keys)` -/
def Node.cacheKey (n : Node) (deps : List (String × String)) : String :=
  foldDependencyKeys H (n.own H) deps

/-! ### The walk -/

/-- The names whose keys fold into the key of `name`: those of the dependencies that some
cacheable edge leads to, in order. -/
def contentDependenciesOf (edges : List Edge) (name : String) : List String :=
  (BuildGraph.needed (contentEdges edges) name).dedup.insertionSort (· ≤ ·)

/-- Compute every node's key, in topological order; `none` for a key that is missing when
it is asked for. -/
def computeCacheKeys (g : BuildGraph Node Node.name) : Option (List (String × String)) :=
  g.waves.flatten.foldlM (fun keys n =>
    ((contentDependenciesOf g.edges n.name).mapM fun dep =>
      (keys.lookup dep).map fun key => (dep, key)).map fun dependencyKeys =>
        (n.name, n.cacheKey H dependencyKeys) :: keys) []

/-- The key of a name. -/
def keyOf (g : BuildGraph Node Node.name) (name : String) : Option String :=
  (computeCacheKeys H g).bind (·.lookup name)

/-! ### The texts tell their parts apart -/

section Texts

/-- The quote of `repr`. -/
def quote : Char := Char.ofNat 39

theorem toList_pyRepr (text : String) : (pyRepr text).toList = quote :: (text.toList ++ [quote]) := by
  rw [pyRepr, String.toList_append, String.toList_append]
  rfl

theorem pyTuple_inj {texts texts' : List String} (h : ∀ t ∈ texts, quote ∉ t.toList)
    (h' : ∀ t ∈ texts', quote ∉ t.toList) (heq : pyTuple texts = pyTuple texts') :
    texts = texts' := by
  have hread : ∀ l : List String, (∀ t ∈ l, quote ∉ t.toList) →
      Text.quoted quote (pyTuple l).toList = l.map String.toList := by
    intro l hl
    have hmap : (l.map pyRepr).map String.toList =
        (l.map String.toList).map fun t => quote :: (t ++ [quote]) := by
      rw [List.map_map, List.map_map]
      exact List.map_congr_left fun t _ => toList_pyRepr t
    have hpost : quote ∉ (if l.length = 1 then ",)" else ")").toList := by
      split_ifs <;> decide
    have hparts : ∀ t ∈ l.map String.toList, quote ∉ t := by
      intro t ht
      obtain ⟨u, hu, rfl⟩ := List.mem_map.mp ht
      exact hl u hu
    rw [pyTuple, String.toList_append, String.toList_append, String.toList_intercalate, hmap,
      List.append_assoc]
    exact Text.quoted_intercalate (by decide) (by decide) hpost hparts
  have hlists := hread texts h
  rw [heq, hread texts' h'] at hlists
  exact List.map_injective_iff.mpr (fun a b hab => String.toList_inj.mp hab) hlists.symm

theorem quote_notMem {cs : List Char} (h : ∀ c ∈ cs, Ipv4.isPlain c = true) : quote ∉ cs :=
  fun hq => absurd (h quote hq) (by decide)

theorem StaticAddr.quote_notMem_addr (a : StaticAddr) : quote ∉ a.addr.toList := by
  obtain ⟨r, hr⟩ := Option.isSome_iff_exists.mp a.addr_ok
  exact quote_notMem (Ipv4.isPlain_of_interface hr)

theorem StaticAddr.quote_notMem_gw (a : StaticAddr) {g : String} (hg : a.gw = some g) :
    quote ∉ g.toList := by
  obtain ⟨r, hr⟩ := Option.isSome_iff_exists.mp (a.gw_ok g hg)
  exact quote_notMem (Ipv4.isPlain_of_address hr)

theorem StaticAddr.quote_notMem_dns (a : StaticAddr) : ∀ t ∈ a.dns, quote ∉ t.toList := by
  intro t ht
  obtain ⟨r, hr⟩ := Option.isSome_iff_exists.mp (a.dns_ok t ht)
  exact quote_notMem (Ipv4.isPlain_of_address hr)

theorem toList_None : "None".toList = 'N' :: ['o', 'n', 'e'] := rfl

theorem toList_pyBool (f : Bool) : (pyBool f).toList =
    if f then 'T' :: ['r', 'u', 'e'] else 'F' :: ['a', 'l', 's', 'e'] := by
  cases f <;> rfl

/-- A gateway or none. -/
theorem elim_pyRepr_inj {o o' : Option String} (h : ∀ g, o = some g → quote ∉ g.toList)
    (h' : ∀ g, o' = some g → quote ∉ g.toList) {b b' : List Char}
    (heq : (o.elim "None" pyRepr).toList ++ b = (o'.elim "None" pyRepr).toList ++ b') :
    o = o' ∧ b = b' := by
  cases o with
  | none =>
    cases o' with
    | none => exact ⟨rfl, List.append_cancel_left heq⟩
    | some g =>
      rw [Option.elim_none, Option.elim_some, toList_pyRepr, toList_None] at heq
      exact absurd (List.cons.inj heq).1 (by decide)
  | some g =>
    cases o' with
    | none =>
      rw [Option.elim_none, Option.elim_some, toList_pyRepr, toList_None] at heq
      exact absurd (List.cons.inj heq).1 (by decide)
    | some g' =>
      rw [Option.elim_some, Option.elim_some, toList_pyRepr, toList_pyRepr, List.cons_append,
        List.cons_append, List.append_assoc, List.append_assoc] at heq
      obtain ⟨hg, hb⟩ := Text.append_cons_inj (h g rfl) (h' g' rfl) (List.cons.inj heq).2
      exact ⟨by rw [String.toList_inj.mp hg], hb⟩

theorem StaticAddr.toList_repr (a : StaticAddr) : a.repr.toList = "StaticAddr(addr=".toList ++
    (quote :: (a.addr.toList ++ quote :: (", gw=".toList ++ ((a.gw.elim "None" pyRepr).toList ++
      (", dns=".toList ++ ((pyTuple a.dns).toList ++ ")".toList)))))) := by
  have hrepr : a.repr = "StaticAddr(addr=" ++ pyRepr a.addr ++ ", gw=" ++
    a.gw.elim "None" pyRepr ++ ", dns=" ++ pyTuple a.dns ++ ")" := rfl
  rw [hrepr]
  -- Only the places of the literals matter.
  generalize "StaticAddr(addr=" = s₁
  generalize ", gw=" = s₂
  generalize ", dns=" = s₃
  generalize ")" = s₄
  simp only [String.toList_append, toList_pyRepr, List.append_assoc, List.cons_append,
    List.nil_append]

theorem StaticAddr.repr_inj {a a' : StaticAddr} (h : a.repr = a'.repr) : a = a' := by
  have htext := congrArg String.toList h
  rw [StaticAddr.toList_repr, StaticAddr.toList_repr] at htext
  obtain ⟨haddr, htext⟩ := Text.append_cons_inj a.quote_notMem_addr a'.quote_notMem_addr
    (List.cons.inj (List.append_cancel_left htext)).2
  obtain ⟨hgw, htext⟩ := elim_pyRepr_inj (fun g => a.quote_notMem_gw) (fun g => a'.quote_notMem_gw)
    (List.append_cancel_left htext)
  have hdns := String.toList_inj.mp (List.append_cancel_right (List.append_cancel_left htext))
  exact StaticAddr.ext (String.toList_inj.mp haddr) hgw
    (pyTuple_inj a.quote_notMem_dns a'.quote_notMem_dns hdns)

theorem pyBool_inj {f f' : Bool} {b b' : List Char}
    (h : (pyBool f).toList ++ b = (pyBool f').toList ++ b') : f = f' ∧ b = b' := by
  cases f with
  | true =>
    cases f' with
    | true => exact ⟨rfl, List.append_cancel_left h⟩
    | false =>
      rw [toList_pyBool, toList_pyBool] at h
      exact absurd (List.cons.inj h).1 (by decide)
  | false =>
    cases f' with
    | true =>
      rw [toList_pyBool, toList_pyBool] at h
      exact absurd (List.cons.inj h).1 (by decide)
    | false => exact ⟨rfl, List.append_cancel_left h⟩

theorem Sidecar.toList_text (sc : Sidecar) : sc.text.toList = "dhcp=".toList ++
    ((pyBool sc.dhcp).toList ++ (",dns=".toList ++ ((pyBool sc.dns).toList ++ (",nat=".toList ++
      ((pyBool sc.nat).toList ++ (",addr=".toList ++
        (sc.addr.elim "None" StaticAddr.repr).toList)))))) := by
  rw [Sidecar.text, String.toList_append, String.toList_append, String.toList_append,
    String.toList_append, String.toList_append, String.toList_append, String.toList_append]
  simp only [List.append_assoc]

theorem Sidecar.text_inj {sc sc' : Sidecar} (h : sc.text = sc'.text) : sc = sc' := by
  have htext := congrArg String.toList h
  rw [Sidecar.toList_text, Sidecar.toList_text] at htext
  obtain ⟨hdhcp, htext⟩ := pyBool_inj (List.append_cancel_left htext)
  obtain ⟨hdns, htext⟩ := pyBool_inj (List.append_cancel_left htext)
  obtain ⟨hnat, htext⟩ := pyBool_inj (List.append_cancel_left htext)
  have haddr := String.toList_inj.mp (List.append_cancel_left htext)
  refine Sidecar.ext hdhcp hdns hnat ?_
  have hhead : ∀ a : StaticAddr, "None" ≠ a.repr := by
    intro a heq
    have hlist := congrArg String.toList heq
    rw [StaticAddr.toList_repr, toList_None] at hlist
    exact absurd (List.cons.inj hlist).1 (by decide)
  cases hsc : sc.addr with
  | none =>
    cases hsc' : sc'.addr with
    | none => rfl
    | some a' =>
      rw [hsc, hsc'] at haddr
      exact absurd haddr (hhead a')
  | some a =>
    cases hsc' : sc'.addr with
    | none =>
      rw [hsc, hsc'] at haddr
      exact absurd haddr.symm (hhead a)
    | some a' =>
      rw [hsc, hsc'] at haddr
      exact congrArg some (StaticAddr.repr_inj haddr)

end Texts

/-! ### Own inputs are told apart -/

theorem terminated_cons (part : String) (parts : List String) :
    terminated (part :: parts) = part.toList ++ nul :: terminated parts := by
  simp [terminated]

theorem terminated_nil : terminated [] = [] := rfl

/-- A part without a terminator in it is told apart from the parts after it. -/
theorem terminated_cons_inj {part part' : String} {parts parts' : List String}
    (hpart : nul ∉ part.toList) (hpart' : nul ∉ part'.toList)
    (h : terminated (part :: parts) = terminated (part' :: parts')) :
    part = part' ∧ terminated parts = terminated parts' := by
  rw [terminated_cons, terminated_cons] at h
  obtain ⟨hhead, htail⟩ := Text.append_cons_inj hpart hpart' h
  exact ⟨String.toList_inj.mp hhead, htail⟩

/-- A common part, whatever is in it. -/
theorem terminated_cons_cancel {part : String} {parts parts' : List String}
    (h : terminated (part :: parts) = terminated (part :: parts')) :
    terminated parts = terminated parts' := by
  rw [terminated_cons, terminated_cons] at h
  exact (List.cons.inj (List.append_cancel_left h)).2

theorem nul_notMem {cs : List Char} (h : ∀ c ∈ cs, Ipv4.isPlain c = true) : nul ∉ cs :=
  fun hq => absurd (h nul hq) (by decide)

theorem nul_notMem_cidr (sw : Switch) : nul ∉ sw.cidr.toList := by
  obtain ⟨net, hnet, -⟩ := sw.cidr_ok
  exact nul_notMem (Ipv4.isPlain_of_network hnet)

theorem nul_notMem_pyBool (f : Bool) : nul ∉ (pyBool f).toList := by
  rw [toList_pyBool]
  cases f <;> decide

/-- The names of a network node's networks have no comma and no terminator in them. -/
def Switch.PlainNetworks (sw : Switch) : Prop := ∀ net ∈ sw.networks, ',' ∉ net.toList ∧ nul ∉ net.toList

theorem Switch.PlainNetworks.nul_notMem {sw : Switch} (h : sw.PlainNetworks) :
    nul ∉ (",".intercalate sw.networks).toList := by
  rw [String.toList_intercalate]
  unfold PlainNetworks at h
  generalize sw.networks = nets at h
  induction nets with
  | nil => simp
  | cons net nets ih =>
    have hnet := (h net List.mem_cons_self).2
    cases nets with
    | nil => simpa using hnet
    | cons net' nets =>
      have hrest := ih fun n hn => h n (List.mem_cons_of_mem _ hn)
      rw [List.map_cons, List.map_cons, List.intercalate_cons_cons, ← List.map_cons, List.mem_append,
        List.mem_append]
      rintro ((hmem | hmem) | hmem)
      · exact hnet hmem
      · exact absurd hmem (by decide)
      · exact hrest hmem

/-- Names without commas read back from their list. -/
theorem networks_inj {sw sw' : Switch} (h : sw.PlainNetworks) (h' : sw'.PlainNetworks)
    (heq : ",".intercalate sw.networks = ",".intercalate sw'.networks) :
    sw.networks = sw'.networks := by
  have hread : ∀ {s : Switch}, s.PlainNetworks → s.networks ≠ [] →
      (",".intercalate s.networks).toList.splitOn ',' = s.networks.map String.toList := by
    intro s hs hne
    rw [String.toList_intercalate]
    refine List.splitOn_intercalate ',' ?_ (by simpa using hne)
    intro l hl
    obtain ⟨net, hnet, rfl⟩ := List.mem_map.mp hl
    exact (hs net hnet).1
  -- A list of names is not empty text: names are not.
  have hempty : ∀ {s : Switch}, s.PlainNetworks → s.networks ≠ [] →
      (",".intercalate s.networks).toList ≠ [] := by
    intro s hs hne hnil
    have hsplit := hread hs hne
    rw [hnil, List.splitOn_nil] at hsplit
    cases hnets : s.networks with
    | nil => exact hne hnets
    | cons net nets =>
      rw [hnets, List.map_cons] at hsplit
      have hnet : net.toList = [] := (List.cons.inj hsplit).1.symm
      exact s.networks_ne net (by simp [hnets]) (String.toList_inj.mp (by rw [hnet]; rfl))
  by_cases hne : sw.networks = []
  · by_cases hne' : sw'.networks = []
    · rw [hne, hne']
    · exact absurd (by rw [← heq, hne]; rfl) (hempty h' hne')
  · by_cases hne' : sw'.networks = []
    · exact absurd (by rw [heq, hne']; rfl) (hempty h hne)
    · have hlists := hread h hne
      rw [heq, hread h' hne'] at hlists
      exact List.map_injective_iff.mpr (fun a b hab => String.toList_inj.mp hab) hlists.symm

/-- What two nodes of one name declare is the same, as far as their keys are to tell. -/
def Node.SameInputs : Node → Node → Prop
  | .pool p, .pool p' => p = p'
  | .network sw, .network sw' => sw.cidr = sw'.cidr ∧ sw.uplink = sw'.uplink ∧ sw.mgmt = sw'.mgmt ∧
      sw.networks = sw'.networks
  | .sidecar sw, .sidecar sw' => sw.sidecar = sw'.sidecar
  | .vm v i, .vm v' i' => H.configHash v i = H.configHash v' i'
  | _, _ => False

/-- Network names are as the checks of a plan have them. -/
def Node.Plain : Node → Prop
  | .network sw => sw.PlainNetworks
  | _ => True

/-- The first letter of a node's name is that of its kind. -/
theorem Node.name_head (n : Node) : n.name.toList.head? = some (match n with
    | .pool _ => 'p'
    | .network _ => 'n'
    | .sidecar _ => 's'
    | .vm _ _ => 'v') := by
  cases n <;> simp [Node.name]

variable {H}

theorem hashInputs_inj {parts parts' : List String} (h : hashInputs H parts = hashInputs H parts') :
    terminated parts = terminated parts' := by
  have htext := H.digest_injective h
  simpa using congrArg String.toList htext

theorem pool_own_inj {p p' : StoragePool} (hname : p.name = p'.name)
    (h : Node.own H (.pool p) = Node.own H (.pool p')) : p = p' := by
  have htext := hashInputs_inj h
  rw [hname] at htext
  have hdigit : ∀ n : ℕ, nul ∉ (toString n).toList := by
    intro n hmem
    have hmem : nul ∈ Nat.toDigits 10 n := by simpa using hmem
    exact absurd (Nat.isDigit_of_mem_toDigits (by omega) (by omega) hmem) (by decide)
  obtain ⟨hsize, -⟩ := terminated_cons_inj (hdigit _) (hdigit _)
    (terminated_cons_cancel (terminated_cons_cancel htext))
  have hdigits : Nat.toDigits 10 p.sizeGb = Nat.toDigits 10 p'.sizeGb := by
    simpa using congrArg String.toList hsize
  have hvalue := congrArg (fun cs => Nat.ofDigitChars 10 cs 0) hdigits
  exact StoragePool.ext hname (by simpa [Nat.ofDigitChars_toDigits] using hvalue)

theorem uplink_inj {sw sw' : Switch} (h : sw.uplink.getD "" = sw'.uplink.getD "") :
    sw.uplink = sw'.uplink := by
  have hne := sw.uplink_ne
  have hne' := sw'.uplink_ne
  cases hup : sw.uplink with
  | none =>
    cases hup' : sw'.uplink with
    | none => rfl
    | some u =>
      rw [hup, hup'] at h
      exact absurd (by rw [hup']; exact congrArg some h.symm) hne'
  | some u =>
    cases hup' : sw'.uplink with
    | none =>
      rw [hup, hup'] at h
      exact absurd (by rw [hup]; exact congrArg some h) hne
    | some u' =>
      rw [hup, hup'] at h
      exact congrArg some h

theorem network_own_inj {sw sw' : Switch} (hname : sw.name = sw'.name) (hplain : sw.PlainNetworks)
    (hplain' : sw'.PlainNetworks) (h : Node.own H (.network sw) = Node.own H (.network sw')) :
    Node.SameInputs H (.network sw) (.network sw') := by
  have htext := hashInputs_inj h
  rw [hname] at htext
  obtain ⟨hcidr, htext⟩ := terminated_cons_inj (nul_notMem_cidr sw) (nul_notMem_cidr sw')
    (terminated_cons_cancel (terminated_cons_cancel htext))
  -- An uplink may hold anything, so the rest is read from its end.
  simp only [terminated_cons, terminated_nil] at htext
  have hshape : ∀ a b c : List Char, a ++ nul :: (b ++ nul :: (c ++ [nul])) =
      (a ++ nul :: b ++ nul :: c) ++ [nul] := by
    intro a b c
    simp
  rw [hshape, hshape] at htext
  obtain ⟨htext, hnets⟩ := Text.append_cons_inj_right hplain.nul_notMem hplain'.nul_notMem
    (List.append_cancel_right htext)
  obtain ⟨huplink, hmgmt⟩ := Text.append_cons_inj_right (nul_notMem_pyBool _) (nul_notMem_pyBool _)
    htext
  refine ⟨hcidr, uplink_inj (String.toList_inj.mp huplink), ?_,
    networks_inj hplain hplain' (String.toList_inj.mp hnets)⟩
  have hflag : (pyBool sw.mgmt).toList ++ [] = (pyBool sw'.mgmt).toList ++ [] := by rw [hmgmt]
  exact (pyBool_inj hflag).1

theorem sidecar_own_inj {sw sw' : Switch} (hname : sw.name = sw'.name)
    (h : Node.own H (.sidecar sw) = Node.own H (.sidecar sw')) : sw.sidecar = sw'.sidecar := by
  have htext := hashInputs_inj h
  rw [hname] at htext
  have htext := terminated_cons_cancel (terminated_cons_cancel htext)
  simp only [terminated_cons, terminated_nil] at htext
  have hservices := String.toList_inj.mp (List.append_cancel_right htext)
  have hne : ∀ sc : Sidecar, "" ≠ sc.text := by
    intro sc heq
    have hlist := congrArg String.toList heq
    rw [Sidecar.toList_text] at hlist
    cases hlist
  cases hsc : sw.sidecar with
  | none =>
    cases hsc' : sw'.sidecar with
    | none => rfl
    | some sc' =>
      rw [hsc, hsc'] at hservices
      exact absurd hservices (hne sc')
  | some sc =>
    cases hsc' : sw'.sidecar with
    | none =>
      rw [hsc, hsc'] at hservices
      exact absurd hservices.symm (hne sc)
    | some sc' =>
      rw [hsc, hsc'] at hservices
      exact congrArg some (Sidecar.text_inj hservices)

/-- **The own-inputs key tells the declarations of a node apart.** -/
theorem Node.own_inj {n n' : Node} (hname : n.name = n'.name) (hplain : n.Plain)
    (hplain' : n'.Plain) (h : n.own H = n'.own H) : n.SameInputs H n' := by
  have hhead : n.name.toList.head? = n'.name.toList.head? := by rw [hname]
  rw [Node.name_head, Node.name_head] at hhead
  cases n with
  | pool p =>
    cases n' with
    | pool p' => exact pool_own_inj (String.append_right_inj _ |>.mp hname) h
    | network sw' => simp at hhead
    | sidecar sw' => simp at hhead
    | vm v' i' => simp at hhead
  | network sw =>
    cases n' with
    | pool p' => simp at hhead
    | network sw' => exact network_own_inj (String.append_right_inj _ |>.mp hname) hplain hplain' h
    | sidecar sw' => simp at hhead
    | vm v' i' => simp at hhead
  | sidecar sw =>
    cases n' with
    | pool p' => simp at hhead
    | network sw' => simp at hhead
    | sidecar sw' => exact sidecar_own_inj (String.append_right_inj _ |>.mp hname) h
    | vm v' i' => simp at hhead
  | vm v i =>
    cases n' with
    | pool p' => simp at hhead
    | network sw' => simp at hhead
    | sidecar sw' => simp at hhead
    | vm v' i' => exact h

/-! ### The fold tells its keys apart -/

theorem nul_notMem_own (n : Node) : nul ∉ (n.own H).toList := by
  cases n with
  | pool p => exact H.nul_notMem_digest _
  | network sw => exact H.nul_notMem_digest _
  | sidecar sw => exact H.nul_notMem_digest _
  | vm v i => exact H.nul_notMem_configHash v i

theorem nul_notMem_cacheKey (n : Node) (deps : List (String × String)) :
    nul ∉ (n.cacheKey H deps).toList := by
  unfold Node.cacheKey foldDependencyKeys
  split_ifs
  · exact nul_notMem_own n
  · exact H.nul_notMem_digest _

/-- The keys read back from what is hashed, given the names. -/
theorem dependencyText_inj {deps deps' : List (String × String)}
    (hnames : deps.map Prod.fst = deps'.map Prod.fst) (h : ∀ d ∈ deps, nul ∉ d.2.toList)
    (h' : ∀ d ∈ deps', nul ∉ d.2.toList) (heq : dependencyText deps = dependencyText deps') :
    deps = deps' := by
  induction deps generalizing deps' with
  | nil =>
    cases deps' with
    | nil => rfl
    | cons d' rest' => cases hnames
  | cons d rest ih =>
    cases deps' with
    | nil => cases hnames
    | cons d' rest' =>
      rw [List.map_cons, List.map_cons] at hnames
      obtain ⟨hname, hnames⟩ := List.cons.inj hnames
      have hkey := h d List.mem_cons_self
      have hkey' := h' d' List.mem_cons_self
      simp only [dependencyText, List.flatMap_cons, List.cons_append, List.append_assoc, hname]
        at heq
      have htail := (List.cons.inj (List.append_cancel_left (List.cons.inj heq).2)).2
      -- A key ends at the next separator or at the end of the text.
      have hsplit : d.2.toList = d'.2.toList ∧ dependencyText rest = dependencyText rest' := by
        cases rest with
        | nil =>
          cases rest' with
          | nil => exact ⟨by simpa [dependencyText] using htail, rfl⟩
          | cons e' rest' => cases hnames
        | cons e rest =>
          cases rest' with
          | nil => cases hnames
          | cons e' rest' =>
            simp only [List.flatMap_cons, List.cons_append] at htail
            obtain ⟨hk, hrest⟩ := Text.append_cons_inj hkey hkey' htail
            exact ⟨hk, congrArg (nul :: ·) hrest⟩
      have hrest := ih hnames (fun e he => h e (List.mem_cons_of_mem _ he))
        (fun e he => h' e (List.mem_cons_of_mem _ he)) hsplit.2
      rw [hrest, Prod.ext hname (String.toList_inj.mp hsplit.1)]

theorem foldDependencyKeys_own_inj {own own' : String} {deps : List (String × String)}
    (h : foldDependencyKeys H own deps = foldDependencyKeys H own' deps) : own = own' := by
  unfold foldDependencyKeys at h
  split_ifs at h
  · exact h
  · have htext := congrArg String.toList (H.digest_injective h)
    rw [String.toList_ofList, String.toList_ofList] at htext
    exact String.toList_inj.mp (List.append_cancel_right htext)

theorem foldDependencyKeys_deps_inj {own : String} {deps deps' : List (String × String)}
    (hnames : deps.map Prod.fst = deps'.map Prod.fst) (hsorted : (deps.map Prod.fst).Pairwise (· ≤ ·))
    (hkeys : ∀ d ∈ deps, nul ∉ d.2.toList) (hkeys' : ∀ d ∈ deps', nul ∉ d.2.toList)
    (h : foldDependencyKeys H own deps = foldDependencyKeys H own deps') : deps = deps' := by
  have hsort : ∀ l : List (String × String), (l.map Prod.fst).Pairwise (· ≤ ·) →
      l.insertionSort depLe = l := by
    intro l hl
    rw [List.pairwise_map] at hl
    exact List.Pairwise.insertionSort_eq hl
  unfold foldDependencyKeys at h
  by_cases hnil : deps = []
  · subst hnil
    exact (List.map_eq_nil_iff.mp hnames.symm).symm
  · have hnil' : deps' ≠ [] := by
      rintro rfl
      exact hnil (List.map_eq_nil_iff.mp hnames)
    rw [if_neg hnil, if_neg hnil', hsort deps hsorted, hsort deps' (hnames ▸ hsorted)] at h
    have htext := congrArg String.toList (H.digest_injective h)
    rw [String.toList_ofList, String.toList_ofList] at htext
    exact dependencyText_inj hnames hkeys hkeys' (List.append_cancel_left htext)

/-! ### What the walk computes -/

theorem mem_contentDependenciesOf {edges : List Edge} {a b : String} :
    b ∈ contentDependenciesOf edges a ↔ b ∈ BuildGraph.needed (contentEdges edges) a := by
  rw [contentDependenciesOf, (List.perm_insertionSort _ _).mem_iff, List.mem_dedup]

theorem sorted_contentDependenciesOf (edges : List Edge) (a : String) :
    (contentDependenciesOf edges a).Pairwise (· ≤ ·) := List.pairwise_insertionSort _ _

/-- The same content dependencies come in the same order. -/
theorem contentDependenciesOf_congr {edges edges' : List Edge} {a : String}
    (h : ∀ b, b ∈ BuildGraph.needed (contentEdges edges) a ↔
      b ∈ BuildGraph.needed (contentEdges edges') a) :
    contentDependenciesOf edges a = contentDependenciesOf edges' a := by
  have hperm : (contentDependenciesOf edges a).Perm (contentDependenciesOf edges' a) := by
    refine (List.perm_ext_iff_of_nodup ?_ ?_).mpr fun b => ?_
    · exact (List.perm_insertionSort _ _).nodup_iff.mpr (List.nodup_dedup _)
    · exact (List.perm_insertionSort _ _).nodup_iff.mpr (List.nodup_dedup _)
    · rw [mem_contentDependenciesOf, mem_contentDependenciesOf, h]
  exact hperm.eq_of_pairwise (fun _ _ _ _ hab hba => le_antisymm hab hba)
    (sorted_contentDependenciesOf edges a) (sorted_contentDependenciesOf edges' a)

namespace BuildGraph

variable (g : BuildGraph Node Node.name)

theorem mem_needed_of_content {a b : String} (h : b ∈ needed (contentEdges g.edges) a) :
    b ∈ needed g.edges a := by
  obtain ⟨e, he, hab⟩ := mem_needed.mp h
  exact mem_needed.mpr ⟨e, (List.mem_filter.mp he).1, hab⟩

/-- The waves are an order in which content dependencies come first. -/
theorem ready_waves :
    Derive.Ready (contentDependenciesOf g.edges) [] (g.waves.flatten.map Node.name) := by
  have hdep : ∀ x ∈ g.nodes, ∀ d ∈ contentDependenciesOf g.edges x.name,
      ∃ m ∈ depsOf Node.name g.nodes g.edges x, m.name = d := by
    intro x hx d hd
    have hneeded := g.mem_needed_of_content (mem_contentDependenciesOf.mp hd)
    obtain ⟨e, he, -, hdep⟩ := mem_needed.mp hneeded
    obtain ⟨m, hm, hmd⟩ := List.mem_map.mp (g.valid.known e he).2
    refine ⟨m, mem_depsOf.mpr ⟨hm, ?_⟩, hmd.trans hdep⟩
    rw [hmd, hdep]
    exact hneeded
  have hlevels : ∀ {done : List Node} {ls : List (List Node)},
      Levelled (depsOf Node.name g.nodes g.edges) done ls → (∀ x ∈ ls.flatten, x ∈ g.nodes) →
      (∀ x ∈ done, x ∈ g.nodes) → ∀ done', (∀ a, a ∈ done' ↔ a ∈ done.map Node.name) →
      Derive.Ready (contentDependenciesOf g.edges) done' (ls.flatten.map Node.name) := by
    intro done ls h
    induction h with
    | nil => exact fun _ _ _ _ => .nil
    | @cons done level rest hnodup hnew hdeps hrest ih =>
      intro hsub hdone done' hdone'
      have hlevel : ∀ x ∈ level, x ∈ g.nodes := fun x hx =>
        hsub x (by rw [List.flatten_cons]; exact List.mem_append_left _ hx)
      have hinj : ∀ x ∈ g.nodes, ∀ y ∈ g.nodes, x.name = y.name → x = y :=
        fun x hx y hy => g.eq_of_nodeName_eq hx hy
      rw [List.flatten_cons, List.map_append]
      refine Derive.Ready.level ?_ ?_ ?_ ?_
      · intro a ha d hd
        obtain ⟨x, hx, rfl⟩ := List.mem_map.mp ha
        obtain ⟨m, hm, rfl⟩ := hdep x (hlevel x hx) d hd
        exact (hdone' _).mpr (List.mem_map_of_mem (hdeps x hx m hm))
      · exact List.Nodup.map_on (fun x hx y hy => hinj x (hlevel x hx) y (hlevel y hy)) hnodup
      · intro a ha hmem
        obtain ⟨x, hx, rfl⟩ := List.mem_map.mp ha
        obtain ⟨y, hy, hyx⟩ := List.mem_map.mp ((hdone' _).mp hmem)
        exact hnew x hx (hinj y (hdone y hy) x (hlevel x hx) hyx ▸ hy)
      · intro done'' hdone''
        refine ih (fun x hx => hsub x (by rw [List.flatten_cons]; exact List.mem_append_right _ hx))
          ?_ done'' ?_
        · intro x hx
          rcases List.mem_append.mp hx with hx | hx
          · exact hdone x hx
          · exact hlevel x hx
        · intro a
          rw [hdone'', hdone', List.map_append, List.mem_append, or_comm]
  exact hlevels (g.wavesOf_levelled g.edges) (g.wavesOf_subset g.edges) (by simp) [] (by simp)

/-- What holds of a node's name if it holds of its content dependencies, holds of all. -/
theorem content_induct {P : String → Prop}
    (hstep : ∀ n ∈ g.nodes, (∀ d ∈ contentDependenciesOf g.edges n.name, P d) → P n.name) :
    ∀ n ∈ g.nodes, P n.name := by
  intro n hn
  refine g.ready_waves.induct (by simp) ?_ n.name (List.mem_map_of_mem (g.mem_waves_iff.mpr hn))
  intro a ha hdeps
  obtain ⟨m, hm, rfl⟩ := List.mem_map.mp ha
  exact hstep m (g.mem_waves_iff.mp hm) hdeps

/-- The keys: a node has one, the hash of its own inputs with the keys of its content
dependencies folded in. -/
theorem keyOf_spec : (∃ keys, computeCacheKeys H g = some keys) ∧
    (∀ a, keyOf H g a ≠ none ↔ a ∈ g.nodes.map Node.name) ∧
    ∀ n ∈ g.nodes, ∃ deps, deps.map Prod.fst = contentDependenciesOf g.edges n.name ∧
      (∀ d ∈ deps, keyOf H g d.1 = some d.2) ∧ keyOf H g n.name = some (n.cacheKey H deps) := by
  have hitems : (g.waves.flatten.map fun n => (n.name, n.cacheKey H)).map Prod.fst =
      g.waves.flatten.map Node.name := by
    rw [List.map_map]
    rfl
  have hnodup : (g.waves.flatten.map Node.name).Nodup :=
    List.Nodup.map_on (fun x hx y hy => g.eq_of_nodeName_eq (g.mem_waves_iff.mp hx)
      (g.mem_waves_iff.mp hy)) g.nodup_waves
  obtain ⟨keys, hrun, hmem, hrule⟩ := Derive.run_spec (by rw [hitems]; exact hnodup)
    (by rw [hitems]; exact g.ready_waves)
  have hkeys : computeCacheKeys H g = some keys := by
    rw [← hrun, Derive.run, List.foldlM_map]
    rfl
  have hlookup : ∀ a, keyOf H g a = keys.lookup a := by
    intro a
    rw [keyOf, hkeys]
    rfl
  refine ⟨⟨keys, hkeys⟩, ?_, ?_⟩
  · intro a
    rw [hlookup, hmem, hitems]
    constructor
    · intro ha
      obtain ⟨n, hn, rfl⟩ := List.mem_map.mp ha
      exact List.mem_map_of_mem (g.mem_waves_iff.mp hn)
    · intro ha
      obtain ⟨n, hn, rfl⟩ := List.mem_map.mp ha
      exact List.mem_map_of_mem (g.mem_waves_iff.mpr hn)
  · intro n hn
    obtain ⟨deps, hfetch, hkey⟩ := hrule (n.name, n.cacheKey H)
      (List.mem_map_of_mem (g.mem_waves_iff.mpr hn))
    obtain ⟨hnames, hdeps⟩ := Derive.of_fetch hfetch
    exact ⟨deps, hnames, fun d hd => (hlookup _).trans (hdeps d hd), (hlookup _).trans hkey⟩

end BuildGraph

theorem nul_notMem_keyOf {g : BuildGraph Node Node.name} {a key : String}
    (h : keyOf H g a = some key) : nul ∉ key.toList := by
  obtain ⟨-, hmem, hkeys⟩ := g.keyOf_spec (H := H)
  obtain ⟨n, hn, rfl⟩ := List.mem_map.mp ((hmem a).mp (by simp [h]))
  obtain ⟨deps, -, -, hkey⟩ := hkeys n hn
  rw [h] at hkey
  rw [Option.some.inj hkey]
  exact nul_notMem_cacheKey n deps

/-- Dependencies with their keys are determined by the names and the keys. -/
theorem dependencyKeys_eq {K K' : String → Option String} {deps deps' : List (String × String)}
    (hnames : deps.map Prod.fst = deps'.map Prod.fst) (h : ∀ d ∈ deps, K d.1 = some d.2)
    (h' : ∀ d ∈ deps', K' d.1 = some d.2) (hsame : ∀ a ∈ deps.map Prod.fst, K' a = K a) :
    deps = deps' := by
  induction deps generalizing deps' with
  | nil => exact (List.map_eq_nil_iff.mp hnames.symm).symm
  | cons d rest ih =>
    cases deps' with
    | nil => cases hnames
    | cons d' rest' =>
      rw [List.map_cons, List.map_cons] at hnames
      obtain ⟨hname, hnames⟩ := List.cons.inj hnames
      have hkey : some d'.2 = some d.2 := by
        rw [← h d List.mem_cons_self, ← h' d' List.mem_cons_self, ← hname]
        exact hsame d.1 (by simp)
      rw [ih hnames (fun e he => h e (List.mem_cons_of_mem _ he))
        (fun e he => h' e (List.mem_cons_of_mem _ he))
        (fun a ha => hsame a (by rw [List.map_cons]; exact List.mem_cons_of_mem _ ha)),
        Prod.ext hname (Option.some.inj hkey).symm]

/-! ### Exactly the content ancestry -/

/-- Some cacheable edge leads from `a` to `b`. -/
def ContentEdge (edges : List Edge) (a b : String) : Prop :=
  ∃ e ∈ edges, e.affectsCacheKey = true ∧ e.dependent = a ∧ e.dependency = b

theorem mem_needed_contentEdges {edges : List Edge} {a b : String} :
    b ∈ BuildGraph.needed (contentEdges edges) a ↔ ContentEdge edges a b := by
  rw [BuildGraph.mem_needed]
  simp only [contentEdges, List.mem_filter, ContentEdge, and_assoc]

section Ancestry

variable {g g' : BuildGraph Node Node.name}
  (hedges : ∀ a b, ContentEdge g.edges a b ↔ ContentEdge g'.edges a b)
include hedges

theorem contentDependenciesOf_eq (a : String) :
    contentDependenciesOf g.edges a = contentDependenciesOf g'.edges a :=
  contentDependenciesOf_congr fun b => by
    rw [mem_needed_contentEdges, mem_needed_contentEdges, hedges]

/-- Only the nodes and the content edges between them matter. -/
theorem keyOf_congr (hnodes : g.nodes.Perm g'.nodes) (a : String) : keyOf H g' a = keyOf H g a := by
  obtain ⟨-, hmem, hkeys⟩ := g.keyOf_spec (H := H)
  obtain ⟨-, hmem', hkeys'⟩ := g'.keyOf_spec (H := H)
  by_cases ha : a ∈ g.nodes.map Node.name
  · obtain ⟨n, hn, rfl⟩ := List.mem_map.mp ha
    refine g.content_induct (P := fun a => keyOf H g' a = keyOf H g a) ?_ n hn
    intro m hm ih
    obtain ⟨deps, hnames, hdeps, hkey⟩ := hkeys m hm
    obtain ⟨deps', hnames', hdeps', hkey'⟩ := hkeys' m (hnodes.mem_iff.mp hm)
    have hsame : deps = deps' := dependencyKeys_eq
      (by rw [hnames, hnames', contentDependenciesOf_eq hedges]) hdeps hdeps'
      (by rw [hnames]; exact ih)
    rw [hkey, hkey', hsame]
  · have ha' : a ∉ g'.nodes.map Node.name := fun hmem => ha ((hnodes.map _).mem_iff.mpr hmem)
    rw [not_ne_iff.mp (mt (hmem a).mp ha), not_ne_iff.mp (mt (hmem' a).mp ha')]

/-- A change of one node's inputs reaches the keys of the nodes that need its content. -/
theorem keyOf_changes {n n' : Node} (hn : n ∈ g.nodes) (hname : n'.name = n.name)
    (hnodes : (g.nodes.map fun m => if m = n then n' else m).Perm g'.nodes)
    (hown : n.own H ≠ n'.own H) :
    ∀ m ∈ g.nodes, keyOf H g' m.name ≠ keyOf H g m.name ↔
      Relation.ReflTransGen (ContentEdge g.edges) m.name n.name := by
  obtain ⟨-, -, hkeys⟩ := g.keyOf_spec (H := H)
  obtain ⟨-, -, hkeys'⟩ := g'.keyOf_spec (H := H)
  have hacyclic : ∀ a, ¬ Relation.TransGen (ContentEdge g.edges) a a := by
    intro a hcycle
    refine g.valid.acyclic a (Relation.TransGen.mono (fun x y hxy => ?_) a a hcycle)
    exact g.mem_needed_of_content (mem_needed_contentEdges.mpr hxy)
  refine g.content_induct (P := fun a => keyOf H g' a ≠ keyOf H g a ↔
    Relation.ReflTransGen (ContentEdge g.edges) a n.name) ?_
  intro m hm ih
  have hdep : ∀ d, d ∈ contentDependenciesOf g.edges m.name ↔ ContentEdge g.edges m.name d :=
    fun d => mem_contentDependenciesOf.trans mem_needed_contentEdges
  obtain ⟨deps, hnames, hdeps, hkey⟩ := hkeys m hm
  by_cases hmn : m = n
  · -- The node itself: its dependencies do not reach it, so only its own key changes.
    subst hmn
    have hmem' : n' ∈ g'.nodes := hnodes.mem_iff.mp (List.mem_map.mpr ⟨m, hm, if_pos rfl⟩)
    obtain ⟨deps', hnames', hdeps', hkey'⟩ := hkeys' n' hmem'
    rw [hname] at hnames' hkey'
    have hsame : deps = deps' := by
      refine dependencyKeys_eq (by rw [hnames, hnames', contentDependenciesOf_eq hedges]) hdeps
        hdeps' fun d hd => ?_
      rw [hnames] at hd
      by_contra hne
      exact hacyclic m.name (Relation.TransGen.head' ((hdep d).mp hd) ((ih d hd).mp hne))
    refine iff_of_true ?_ .refl
    rw [hkey, hkey', hsame]
    intro heq
    exact hown (foldDependencyKeys_own_inj (Option.some.inj heq)).symm
  · have hmem' : m ∈ g'.nodes := hnodes.mem_iff.mp (List.mem_map.mpr ⟨m, hm, if_neg hmn⟩)
    obtain ⟨deps', hnames', hdeps', hkey'⟩ := hkeys' m hmem'
    have hnn : deps.map Prod.fst = deps'.map Prod.fst := by
      rw [hnames, hnames', contentDependenciesOf_eq hedges]
    have hne : m.name ≠ n.name := fun heq => hmn (g.eq_of_nodeName_eq hm hn heq)
    constructor
    · intro hchanged
      by_contra hreach
      refine hchanged ?_
      have hsame : deps = deps' := by
        refine dependencyKeys_eq hnn hdeps hdeps' fun d hd => ?_
        rw [hnames] at hd
        by_contra hdne
        exact hreach (.head ((hdep d).mp hd) ((ih d hd).mp hdne))
      rw [hkey, hkey', hsame]
    · intro hreach heq
      rcases hreach.cases_head with heq' | ⟨d, hmd, hdn⟩
      · exact hne heq'
      · have hd := (hdep d).mpr hmd
        refine (ih d hd).mpr hdn ?_
        have hfold : m.cacheKey H deps' = m.cacheKey H deps := by
          rw [hkey, hkey'] at heq
          exact Option.some.inj heq
        have hsame : deps = deps' := foldDependencyKeys_deps_inj hnn
          (by rw [hnames]; exact sorted_contentDependenciesOf _ _)
          (fun e he => nul_notMem_keyOf (hdeps e he)) (fun e he => nul_notMem_keyOf (hdeps' e he))
          hfold.symm
        rw [← hnames] at hd
        obtain ⟨e, he, rfl⟩ := List.mem_map.mp hd
        rw [hdeps e he, hdeps' e (hsame ▸ he)]

end Ancestry

/-- **Cache keys depend on exactly the content ancestry.**  No key is missing when it is asked
for.  Two graphs of the same nodes, in any order, and with the same pairs joined by cacheable
edges have the same keys: edges may be permuted, repeated, or be ordering edges.  If one node
declares other inputs, the keys that change are its own and those of the nodes that reach it
through cacheable edges. -/
theorem cacheKeys_sound (H : Hashing) (g : BuildGraph Node Node.name) :
    (∃ keys, computeCacheKeys H g = some keys ∧
      ∀ a, keys.lookup a ≠ none ↔ a ∈ g.nodes.map Node.name) ∧
    (∀ g' : BuildGraph Node Node.name, g.nodes.Perm g'.nodes →
      (∀ a b, ContentEdge g.edges a b ↔ ContentEdge g'.edges a b) →
      ∀ a, keyOf H g' a = keyOf H g a) ∧
    ∀ (g' : BuildGraph Node Node.name) (n n' : Node), n ∈ g.nodes → n'.name = n.name →
      (g.nodes.map fun m => if m = n then n' else m).Perm g'.nodes →
      (∀ a b, ContentEdge g.edges a b ↔ ContentEdge g'.edges a b) →
      n.Plain → n'.Plain → ¬ n.SameInputs H n' →
      ∀ m ∈ g.nodes, keyOf H g' m.name ≠ keyOf H g m.name ↔
        Relation.ReflTransGen (ContentEdge g.edges) m.name n.name := by
  refine ⟨?_, fun g' hnodes hedges a => keyOf_congr hedges hnodes a, ?_⟩
  · obtain ⟨⟨keys, hkeys⟩, hmem, -⟩ := g.keyOf_spec (H := H)
    refine ⟨keys, hkeys, fun a => ?_⟩
    rw [← hmem, keyOf, hkeys]
    rfl
  · intro g' n n' hn hname hnodes hedges hplain hplain' hinputs
    exact keyOf_changes hedges hn hname hnodes fun hown =>
      hinputs (Node.own_inj hname.symm hplain hplain' hown)

/-! ### A VM baked on a pool -/

namespace Grown

/-- A number in unary. -/
def unary (c : Char) : List Char := List.replicate c.toNat 'a' ++ ['b']

theorem flatMap_unary_inj {cs cs' : List Char} (h : cs.flatMap unary = cs'.flatMap unary) :
    cs = cs' := by
  have hb : ∀ c : Char, 'b' ∉ List.replicate c.toNat 'a' := by
    intro c hmem
    exact absurd (List.eq_of_mem_replicate hmem) (by decide)
  induction cs generalizing cs' with
  | nil =>
    cases cs' with
    | nil => rfl
    | cons c' cs' => simp [unary] at h
  | cons c cs ih =>
    cases cs' with
    | nil => simp [unary] at h
    | cons c' cs' =>
      rw [List.flatMap_cons, List.flatMap_cons, unary, unary, List.append_assoc, List.append_assoc]
        at h
      obtain ⟨hhead, htail⟩ := Text.append_cons_inj (hb c) (hb c') h
      have hlen := congrArg List.length hhead
      rw [List.length_replicate, List.length_replicate] at hlen
      rw [ih htail, Char.toNat_inj.mp hlen]

/-- A hash without collisions. -/
def hashing : Hashing where
  digest text := String.ofList (text.toList.flatMap unary)
  configHash _ _ := "0"
  digest_injective := by
    intro s t h
    have hlist := congrArg String.toList h
    rw [String.toList_ofList, String.toList_ofList] at hlist
    exact String.toList_inj.mp (flatMap_unary_inj hlist)
  nul_notMem_digest := by
    intro text hmem
    rw [String.toList_ofList] at hmem
    obtain ⟨c, -, hc⟩ := List.mem_flatMap.mp hmem
    rcases List.mem_append.mp hc with hc | hc
    · exact absurd (List.eq_of_mem_replicate hc) (by decide)
    · exact absurd (List.mem_singleton.mp hc) (by decide)
  nul_notMem_configHash := by
    intro v i
    decide

/-- The pool, of one of two sizes. -/
def pool (large : Bool) : Node := .pool ⟨"q", if large then 2 else 1, by decide, by split_ifs <;> omega⟩

def vm : Node := .vm ⟨"db", "q", [], [], by decide⟩ 0

/-- The VM is baked on the pool. -/
def graph (large : Bool) : BuildGraph Node Node.name where
  name := "plan"
  nodes := [pool large, vm]
  edges := [⟨"vm:db", "pool:q", .bake, by decide, by decide⟩]
  nodup_names := by cases large <;> decide
  edges_known := by cases large <;> decide
  waves_complete := by cases large <;> decide
  contentWaves_complete := by cases large <;> decide

/-- A larger pool changes the key of the VM. -/
theorem large_keyOf_ne : ¬ (pool false).SameInputs hashing (pool true) ∧
    keyOf hashing (graph true) "vm:db" ≠ keyOf hashing (graph false) "vm:db" := by
  have hinputs : ¬ (pool false).SameInputs hashing (pool true) := by
    intro h
    exact absurd (congrArg StoragePool.sizeGb h) (by decide)
  refine ⟨hinputs, ((cacheKeys_sound hashing (graph false)).2.2 (graph true) (pool false)
    (pool true) List.mem_cons_self rfl ?_ (fun a b => Iff.rfl) trivial trivial hinputs vm
    (List.mem_cons_of_mem _ List.mem_cons_self)).mpr ?_⟩
  · have hvm : vm ≠ pool false := by
      rintro ⟨⟩
    simp [graph, hvm]
  · exact .single ⟨_, List.mem_cons_self, rfl, rfl, rfl⟩

end Grown

/-! ### Names with commas -/

namespace Commas

/-- A switch with the given networks. -/
def switch (networks : List String) (h : ∀ n ∈ networks, n ≠ "") : Switch where
  name := "sw"
  networks := networks
  cidr := "10.0.0.0/24"
  uplink := some "lan"
  mgmt := false
  sidecar := none
  name_ne := by decide
  networks_ne := h
  uplink_ne := by decide
  cidr_ok := by decide
  nat_uplink := by simp

/-- The graph of one switch. -/
def graph (sw : Switch) : BuildGraph Node Node.name where
  name := "plan"
  nodes := [.network sw]
  edges := []
  nodup_names := by simp
  edges_known := by simp
  waves_complete := by rfl
  contentWaves_complete := by rfl

/-- Two networks `a` and `b`. -/
def two : Switch := switch ["a", "b"] (by decide)

/-- One network `a,b`. -/
def one : Switch := switch ["a,b"] (by decide)

/-- The two switches have one key, whatever the hash. -/
theorem two_keyOf_eq_one : two.networks ≠ one.networks ∧
    (fun H => keyOf H (graph two) "network:sw") = fun H => keyOf H (graph one) "network:sw" := by
  refine ⟨by decide, ?_⟩
  funext H
  have hkey : ∀ sw : Switch, sw.name = "sw" →
      keyOf H (graph sw) "network:sw" = some (Node.own H (.network sw)) := by
    intro sw hname
    obtain ⟨-, -, hkeys⟩ := (graph sw).keyOf_spec (H := H)
    obtain ⟨deps, hnames, -, hkey⟩ := hkeys (.network sw) (by simp [graph])
    have hdeps : deps = [] := List.map_eq_nil_iff.mp hnames
    rw [hdeps, Node.name, hname] at hkey
    exact hkey
  rw [hkey two rfl, hkey one rfl]
  rfl

end Commas

end TestRange
