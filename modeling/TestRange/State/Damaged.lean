/-
Reading a ledger whatever is in it.

`StateStore.read` decodes `state.json` without a look at the types of what it finds; it
turns the decoder's own exception and a foreign schema version into a `StateError`, and lets
any other exception through.  `list_runs` and `forget_run` are written for a `StateError`.

* `Raw.State.fromJson`, `Raw.read` — the decoder and the method, on the bytes of the file;
* `Raw.listRuns`, `Raw.forgetRun` — their callers;
* `Raw.Readable` — the contents that are read or reported;
* `Raw.fromJson_of_typed` — the decoder goes through wherever the fields have the types of
  the schema;
* `Raw.damaged_iff` — what becomes of each content.
-/
import TestRange.Lib.Untyped
import TestRange.State.Schema

namespace TestRange

namespace Raw

open Untyped

variable (I : Interpreter)

/-! ### The decoder -/

/-- A `Resource` with whatever its fields hold; the metadata is the pairs it was made of. -/
structure Resource where
  kind : Json
  backendName : Json
  planName : Json
  intentAt : Json
  outcomeAt : Json
  metadata : List (Json × Json)

/-- `Resource.from_json` -/
def Resource.fromJson (data : Json) : Except Raised Resource := do
  let kind ← item data "kind"
  let backendName ← item data "backend_name"
  let planName ← get data "plan_name"
  let intentAt ← item data "intent_at"
  let outcomeAt ← get data "outcome_at"
  let found ← get data "metadata"
  let metadata ← dict (orElse I found (.obj []))
  return { kind, backendName, planName := planName.getD .null, intentAt,
           outcomeAt := outcomeAt.getD .null, metadata }

/-- A `NodeRecord` with whatever its fields hold. -/
structure NodeRecord where
  name : Json
  materializedAt : Json
  realizedAt : Json

/-- `NodeRecord.from_json` -/
def NodeRecord.fromJson (data : Json) : Except Raised NodeRecord := do
  let name ← item data "name"
  let materializedAt ← get data "materialized_at"
  let realizedAt ← get data "realized_at"
  return { name, materializedAt := materializedAt.getD .null, realizedAt := realizedAt.getD .null }

/-- A `State` with whatever its fields hold. -/
structure State where
  schemaVersion : ℤ
  runId : Json
  planName : Json
  driverClass : Json
  driverUri : Json
  phase : Json
  createdAt : Json
  resources : List Resource
  nodes : List NodeRecord

/-- What reading a ledger raises. -/
inductive Fault
  | state (e : StateError)
  /-- `StateLockedError` -/
  | locked
  | raised (e : Raised)

/-- An exception that nothing translates. -/
def untranslated {α : Type} (x : Except Raised α) : Except Fault α := x.mapError .raised

/-- The fields of a `State` of the current schema version. -/
def State.fields (data : Json) : Except Raised State := do
  let runId ← get data "run_id"
  let planName ← get data "plan_name"
  let driverClass ← get data "driver_class"
  let driverUri ← get data "driver_uri"
  let phase ← get data "phase"
  let createdAt ← get data "created_at"
  let foundResources ← get data "resources"
  let resources ← iter (foundResources.getD (.arr []))
  let resources ← resources.mapM (Resource.fromJson I)
  let foundNodes ← get data "nodes"
  let nodes ← iter (foundNodes.getD (.arr []))
  let nodes ← nodes.mapM NodeRecord.fromJson
  return { schemaVersion := TestRange.schemaVersion
           runId := runId.getD (.str ""), planName := planName.getD (.str "")
           driverClass := driverClass.getD (.str ""), driverUri := driverUri.getD (.str "")
           phase := phase.getD (.str Phase.preflight.name), createdAt := createdAt.getD (.str "")
           resources, nodes }

/-- `int(data.get("schema_version", 0))` -/
def State.version (data : Json) : Except Raised ℤ := do
  let found ← get data "schema_version"
  I.toInt (found.getD (.int 0))

/-- `State.from_json` -/
def State.fromJson (data : Json) : Except Fault State :=
  match State.version I data with
  | .error e => .error (.raised e)
  | .ok version =>
    if version ≠ TestRange.schemaVersion then .error (.state (.version version))
    else untranslated (State.fields I data)

/-- `StateStore.read`, of the bytes of `state.json` if there is one. -/
def read : Option (List UInt8) → Except Fault State
  | none => .error (.state .missing)
  | some bytes =>
    match readText bytes >>= loads I with
    | .error .jsonDecodeError => .error (.state .corrupt)
    | .error e => .error (.raised e)
    | .ok data => State.fromJson I data

/-! ### Its callers -/

/-- A run directory: its name, whether a live process holds its lock, and its ledger. -/
structure RunDir where
  name : String
  running : Bool
  state : Option (List UInt8)

structure RunInfo where
  runId : String
  running : Bool
  phase : Json
  planName : Json
  createdAt : Json
  resourceCount : ℕ
  error : Option StateError

/-- The row of a run without a readable ledger. -/
def RunInfo.failed (d : RunDir) (e : StateError) : RunInfo :=
  ⟨d.name, d.running, .str "", .str "", .str "", 0, some e⟩

/-- The row of a run. -/
def runInfo (d : RunDir) : Except Fault RunInfo :=
  match read I d.state with
  | .ok s => .ok ⟨d.name, d.running, s.phase, s.planName, s.createdAt, s.resources.length, none⟩
  | .error (.state e) => .ok (.failed d e)
  | .error e => .error e

/-- `list_runs` -/
def listRuns (dirs : List RunDir) : Except Fault (List RunInfo) := dirs.mapM (runInfo I)

/-- `forget_run`, of a run directory that exists: what it returns or raises, and the directory
it leaves. -/
def forgetRun (d : RunDir) : Except Fault (List Json) × RunDir :=
  if d.running then (.error .locked, d)
  else
    match d.state with
    | none => (.ok [], d)
    | some bytes =>
      match read I (some bytes) with
      | .ok s => (.ok (s.resources.map (·.backendName)), { d with state := none })
      | .error (.state _) => (.ok [], { d with state := none })
      | .error e => (.error e, d)

/-! ### Shapes -/

/-- What `Resource.from_json` goes through on. -/
structure ResourceShape (data : Json) : Prop where
  kind : HasKey data "kind"
  backendName : HasKey data "backend_name"
  intentAt : HasKey data "intent_at"
  metadata : IsDict (orElse I (data.get? "metadata") (.obj []))

/-- What `State.from_json` goes through on, or finds to be of another version. -/
structure StateShape (data : Json) : Prop where
  object : IsObj data
  version : (I.toInt ((data.get? "schema_version").getD (.int 0))).isOk = true
  resources : I.toInt ((data.get? "schema_version").getD (.int 0)) = .ok TestRange.schemaVersion →
    ListOf (ResourceShape I) ((data.get? "resources").getD (.arr []))
  nodes : I.toInt ((data.get? "schema_version").getD (.int 0)) = .ok TestRange.schemaVersion →
    ListOf (HasKey · "name") ((data.get? "nodes").getD (.arr []))

/-- The contents that are read or reported: UTF-8, within the limits of the interpreter, and
no JSON unless of the shape of a ledger. -/
def Readable (bytes : List UInt8) : Prop :=
  ∃ text, readText bytes = .ok text ∧ I.tooDeep text = false ∧ I.tooLong text = false ∧
    ∀ data, Json.loads text = some data → StateShape I data

variable {I}

theorem isOk_resource {data : Json} :
    (Resource.fromJson I data).isOk = true ↔ ResourceShape I data := by
  have hmeta : (do
      let found ← get data "metadata"
      dict (orElse I found (.obj [])) : Except Raised _).isOk = true ↔
      IsObj data ∧ IsDict (orElse I (data.get? "metadata") (.obj [])) := by
    rw [← isOk_get data "metadata"]
    refine isOk_bind_of fun found hfound => ?_
    rw [(get_eq_ok.mp hfound).2, isOk_dict]
  constructor
  · intro h
    obtain ⟨kind, hkind, h⟩ := isOk_bind.mp h
    obtain ⟨backendName, hname, h⟩ := isOk_bind.mp h
    obtain ⟨planName, hplan, h⟩ := isOk_bind.mp h
    obtain ⟨intentAt, hintent, h⟩ := isOk_bind.mp h
    obtain ⟨outcomeAt, houtcome, h⟩ := isOk_bind.mp h
    obtain ⟨found, hfound, h⟩ := isOk_bind.mp h
    obtain ⟨metadata, hdict, -⟩ := isOk_bind.mp h
    refine ⟨isOk_item.mp (isOk_iff.mpr ⟨_, hkind⟩), isOk_item.mp (isOk_iff.mpr ⟨_, hname⟩),
      isOk_item.mp (isOk_iff.mpr ⟨_, hintent⟩), (hmeta.mp ?_).2⟩
    exact isOk_bind.mpr ⟨found, hfound, isOk_iff.mpr ⟨_, hdict⟩⟩
  · intro h
    have hobj := h.kind.isObj
    obtain ⟨found, hfound, hdict⟩ := isOk_bind.mp (hmeta.mpr ⟨hobj, h.metadata⟩)
    obtain ⟨kind, hkind⟩ := isOk_iff.mp (isOk_item.mpr h.kind)
    obtain ⟨backendName, hname⟩ := isOk_iff.mp (isOk_item.mpr h.backendName)
    obtain ⟨intentAt, hintent⟩ := isOk_iff.mp (isOk_item.mpr h.intentAt)
    obtain ⟨metadata, hdict⟩ := isOk_iff.mp hdict
    rw [Resource.fromJson, hkind, hname, get_of_isObj hobj, hintent, get_of_isObj hobj, hfound]
    simp only [bind, Except.bind, hdict]
    rfl

theorem isOk_node {data : Json} : (NodeRecord.fromJson data).isOk = true ↔ HasKey data "name" := by
  rw [← isOk_item]
  refine (isOk_bind_of fun name hname => ?_).trans (and_iff_left trivial)
  have hobj := (isOk_item.mp (isOk_iff.mpr ⟨_, hname⟩)).isObj
  rw [get_of_isObj hobj, get_of_isObj hobj]
  exact iff_of_true rfl trivial

theorem isOk_version {data : Json} : (State.version I data).isOk = true ↔
    IsObj data ∧ (I.toInt ((data.get? "schema_version").getD (.int 0))).isOk = true := by
  rw [← isOk_get data "schema_version"]
  exact isOk_bind_of fun found hfound => by rw [(get_eq_ok.mp hfound).2]

theorem version_eq_ok {data : Json} {version : ℤ} (h : State.version I data = .ok version) :
    IsObj data ∧ I.toInt ((data.get? "schema_version").getD (.int 0)) = .ok version := by
  have hobj := (isOk_version.mp (isOk_iff.mpr ⟨_, h⟩)).1
  refine ⟨hobj, ?_⟩
  rw [State.version, get_of_isObj hobj] at h
  exact h

/-- A list under a key, read element by element. -/
theorem isOk_list {data : Json} (hobj : IsObj data) {key : String} {α β : Type}
    {f : Json → Except Raised α} {P : Json → Prop} (hf : ∀ x, (f x).isOk = true ↔ P x)
    {next : List α → Except Raised β} {p : Prop} (hnext : ∀ xs, (next xs).isOk = true ↔ p) :
    (do
      let found ← get data key
      let xs ← iter (found.getD (.arr []))
      let ys ← xs.mapM f
      next ys : Except Raised β).isOk = true ↔ ListOf P ((data.get? key).getD (.arr [])) ∧ p := by
  have hread : (iter ((data.get? key).getD (.arr [])) >>= fun xs => xs.mapM f).isOk = true ↔
      ListOf P ((data.get? key).getD (.arr [])) := by
    refine iter_bind_isOk fun xs => ?_
    rw [isOk_mapM]
    exact forall₂_congr fun x _ => hf x
  rw [get_of_isObj hobj, ← hread, isOk_bind]
  simp only [Except.ok.injEq, exists_eq_left']
  rw [← bind_assoc]
  exact isOk_bind_of fun ys _ => hnext ys

theorem isOk_fields {data : Json} (hobj : IsObj data) : (State.fields I data).isOk = true ↔
    ListOf (ResourceShape I) ((data.get? "resources").getD (.arr [])) ∧
      ListOf (HasKey · "name") ((data.get? "nodes").getD (.arr [])) := by
  have hget := get_of_isObj hobj
  unfold State.fields
  rw [hget "run_id", hget "plan_name", hget "driver_class", hget "driver_uri", hget "phase",
    hget "created_at"]
  refine isOk_list hobj (fun x => isOk_resource) fun resources => ?_
  refine (isOk_list hobj (fun x => isOk_node) fun nodes => ?_).trans (and_iff_left trivial)
  exact iff_of_true rfl trivial

/-! ### Where the fields have the types of the schema -/

/-- The fields of a resource are those of a typed one. -/
structure Resource.Shows (r : Resource) (s : TestRange.Resource) : Prop where
  kind : r.kind = .str s.kind
  backendName : r.backendName = .str s.backendName
  planName : r.planName = optJson s.planName
  intentAt : r.intentAt = .str s.intentAt
  outcomeAt : r.outcomeAt = optJson s.outcomeAt
  metadata : ∃ kvs : List (String × Json),
    r.metadata = kvs.map (fun kv => (.str kv.1, kv.2)) ∧ s.metadata = Dict.ofEntries kvs

/-- The fields of a node record are those of a typed one. -/
structure NodeRecord.Shows (n : NodeRecord) (s : TestRange.NodeRecord) : Prop where
  name : n.name = .str s.name
  materializedAt : n.materializedAt = optJson s.materializedAt
  realizedAt : n.realizedAt = optJson s.realizedAt

/-- The fields of a state are those of a typed one. -/
structure State.Shows (r : State) (s : TestRange.State) : Prop where
  schemaVersion : r.schemaVersion = s.schemaVersion
  runId : r.runId = .str s.runId
  planName : r.planName = .str s.planName
  driverClass : r.driverClass = .str s.driverClass
  driverUri : r.driverUri = .str s.driverUri
  phase : r.phase = .str s.phase
  createdAt : r.createdAt = .str s.createdAt
  resources : List.Forall₂ Resource.Shows r.resources s.resources
  nodes : List.Forall₂ NodeRecord.Shows r.nodes s.nodes

section Typed

variable {data : Json} {key : String}

theorem get?_of_reqStr {s : String} (h : reqStr data key = .ok s) : data.get? key = some (.str s) := by
  unfold reqStr at h
  split at h
  · cases h
    assumption
  · cases h
  · cases h

theorem get?_of_strOr {s d : String} (h : strOr data key d = .ok s) :
    (data.get? key).getD (.str d) = .str s := by
  unfold strOr at h
  split at h
  · case h_1 heq =>
    cases h
    rw [heq, Option.getD_some]
  · cases h
  · case h_3 heq =>
    cases h
    rw [heq, Option.getD_none]

theorem get?_of_optStr {o : Option String} (h : optStr data key = .ok o) :
    (data.get? key).getD .null = optJson o := by
  unfold optStr at h
  split at h
  · case h_1 heq =>
    cases h
    rw [heq]
    rfl
  · case h_2 heq =>
    cases h
    rw [heq]
    rfl
  · cases h
  · case h_4 heq =>
    cases h
    rw [heq]
    rfl

theorem get?_of_listOr {xs : List Json} (h : listOr data key = .ok xs) :
    (data.get? key).getD (.arr []) = .arr xs := by
  unfold listOr at h
  split at h
  · case h_1 heq =>
    cases h
    rw [heq, Option.getD_some]
  · cases h
  · case h_3 heq =>
    cases h
    rw [heq, Option.getD_none]

theorem dict_of_dictOr {d : Dict} (h : dictOr data key = .ok d) : ∃ kvs : List (String × Json),
    dict (orElse I (data.get? key) (.obj [])) = .ok (kvs.map fun kv => (.str kv.1, kv.2)) ∧
      d = Dict.ofEntries kvs := by
  unfold dictOr at h
  split at h
  · case h_1 kvs heq =>
    cases h
    refine ⟨kvs, ?_, rfl⟩
    rw [heq]
    cases kvs <;> rfl
  · case h_2 heq =>
    cases h
    refine ⟨[], ?_, rfl⟩
    rw [heq]
    rfl
  · cases h
  · case h_4 heq =>
    cases h
    refine ⟨[], ?_, rfl⟩
    rw [heq]
    rfl

theorem item_of_reqStr {s : String} (h : reqStr data key = .ok s) : item data key = .ok (.str s) := by
  have hget := get?_of_reqStr h
  cases data with
  | obj kvs =>
    rw [Json.get?] at hget
    rw [item, hget]
    rfl
  | _ => simp [Json.get?] at hget

theorem isObj_of_get? {v : Json} (h : data.get? key = some v) : IsObj data :=
  HasKey.isObj (show HasKey data key by rw [HasKey, h]; rfl)

/-- Elements that are read by both readers. -/
theorem mapM_of_typed {α β : Type} {f : Json → Except Raised α} {g : Json → Except StateError β}
    {R : α → β → Prop} (h : ∀ x b, g x = .ok b → ∃ a, f x = .ok a ∧ R a b) {xs : List Json} {bs : List β}
    (hbs : xs.mapM g = .ok bs) : ∃ as, xs.mapM f = .ok as ∧ List.Forall₂ R as bs := by
  induction xs generalizing bs with
  | nil =>
    cases hbs
    exact ⟨[], rfl, .nil⟩
  | cons x xs ih =>
    rw [List.mapM_cons] at hbs
    obtain ⟨b, hb, hbs⟩ := bind_eq_ok.mp hbs
    obtain ⟨bs', hbs', hend⟩ := bind_eq_ok.mp hbs
    cases hend
    obtain ⟨a, ha, hab⟩ := h x b hb
    obtain ⟨as, has, hall⟩ := ih hbs'
    refine ⟨a :: as, ?_, .cons hab hall⟩
    rw [List.mapM_cons, ha, has]
    rfl

theorem resource_of_typed {s : TestRange.Resource} (h : TestRange.Resource.fromJson data = .ok s) :
    ∃ r, Resource.fromJson I data = .ok r ∧ r.Shows s := by
  obtain ⟨kind, hkind, h⟩ := bind_eq_ok.mp h
  obtain ⟨backendName, hname, h⟩ := bind_eq_ok.mp h
  obtain ⟨planName, hplan, h⟩ := bind_eq_ok.mp h
  obtain ⟨intentAt, hintent, h⟩ := bind_eq_ok.mp h
  obtain ⟨outcomeAt, houtcome, h⟩ := bind_eq_ok.mp h
  obtain ⟨metadata, hmeta, h⟩ := bind_eq_ok.mp h
  cases h
  obtain ⟨kvs, hdict, hkvs⟩ := dict_of_dictOr (I := I) hmeta
  have hobj := isObj_of_get? (get?_of_reqStr hkind)
  have hget := get_of_isObj hobj
  refine ⟨⟨.str kind, .str backendName, (data.get? "plan_name").getD .null, .str intentAt,
    (data.get? "outcome_at").getD .null, kvs.map fun kv => (.str kv.1, kv.2)⟩, ?_,
    ⟨rfl, rfl, get?_of_optStr hplan, rfl, get?_of_optStr houtcome, kvs, rfl, hkvs⟩⟩
  rw [Resource.fromJson, item_of_reqStr hkind, item_of_reqStr hname, hget, item_of_reqStr hintent, hget,
    hget]
  simp only [bind, Except.bind, hdict]
  rfl

theorem node_of_typed {s : TestRange.NodeRecord} (h : TestRange.NodeRecord.fromJson data = .ok s) :
    ∃ n, NodeRecord.fromJson data = .ok n ∧ n.Shows s := by
  obtain ⟨name, hname, h⟩ := bind_eq_ok.mp h
  obtain ⟨materializedAt, hmaterialized, h⟩ := bind_eq_ok.mp h
  obtain ⟨realizedAt, hrealized, h⟩ := bind_eq_ok.mp h
  cases h
  have hobj := isObj_of_get? (get?_of_reqStr hname)
  have hget := get_of_isObj hobj
  refine ⟨⟨.str name, (data.get? "materialized_at").getD .null, (data.get? "realized_at").getD .null⟩, ?_,
    ⟨rfl, get?_of_optStr hmaterialized, get?_of_optStr hrealized⟩⟩
  rw [NodeRecord.fromJson, item_of_reqStr hname, hget, hget]
  rfl

/-- The version that the typed decoder finds. -/
theorem version_of_typed {version : ℤ} (h : TestRange.State.versionOf data = .ok version) (hne : version ≠ 0) :
    IsObj data ∧ State.version I data = .ok version := by
  unfold TestRange.State.versionOf at h
  split at h
  · case h_1 n heq =>
    cases h
    have hobj := isObj_of_get? heq
    refine ⟨hobj, ?_⟩
    rw [State.version, get_of_isObj hobj _, heq]
    exact I.toInt_int _
  · case h_2 b heq =>
    cases h
    have hobj := isObj_of_get? heq
    refine ⟨hobj, ?_⟩
    rw [State.version, get_of_isObj hobj _, heq]
    exact I.toInt_bool b
  · cases h
  · cases h
    exact absurd rfl hne

/-- **What the typed decoder accepts is decoded**, with the same fields. -/
theorem fromJson_of_typed {s : TestRange.State} (h : TestRange.State.fromJson data = .ok s) :
    ∃ r, State.fromJson I data = .ok r ∧ r.Shows s := by
  obtain ⟨version, hversion, h⟩ := bind_eq_ok.mp h
  by_cases hcurrent : version = TestRange.schemaVersion
  · subst hcurrent
    rw [if_neg (by simp)] at h
    obtain ⟨-, -, h⟩ := bind_eq_ok.mp h
    obtain ⟨runId, hrun, h⟩ := bind_eq_ok.mp h
    obtain ⟨planName, hplan, h⟩ := bind_eq_ok.mp h
    obtain ⟨driverClass, hclass, h⟩ := bind_eq_ok.mp h
    obtain ⟨driverUri, huri, h⟩ := bind_eq_ok.mp h
    obtain ⟨phase, hphase, h⟩ := bind_eq_ok.mp h
    obtain ⟨createdAt, hcreated, h⟩ := bind_eq_ok.mp h
    obtain ⟨resources, hresources, h⟩ := bind_eq_ok.mp h
    obtain ⟨rs, hrs, h⟩ := bind_eq_ok.mp h
    obtain ⟨nodes, hnodes, h⟩ := bind_eq_ok.mp h
    obtain ⟨ns, hns, h⟩ := bind_eq_ok.mp h
    cases h
    obtain ⟨hobj, hversion⟩ := version_of_typed (I := I) hversion (by decide)
    obtain ⟨rs', hrs', hshowsR⟩ := mapM_of_typed (fun x b => resource_of_typed (I := I)) hrs
    obtain ⟨ns', hns', hshowsN⟩ := mapM_of_typed (fun x b => node_of_typed) hns
    have hget := get_of_isObj hobj
    have hiter : ∀ {key xs}, listOr data key = .ok xs → iter ((data.get? key).getD (.arr [])) = .ok xs := by
      intro key xs hxs
      rw [get?_of_listOr hxs]
      rfl
    refine ⟨⟨TestRange.schemaVersion, (data.get? "run_id").getD (.str ""),
      (data.get? "plan_name").getD (.str ""), (data.get? "driver_class").getD (.str ""),
      (data.get? "driver_uri").getD (.str ""), (data.get? "phase").getD (.str Phase.preflight.name),
      (data.get? "created_at").getD (.str ""), rs', ns'⟩, ?_,
      ⟨rfl, get?_of_strOr hrun, get?_of_strOr hplan, get?_of_strOr hclass,
      get?_of_strOr huri, get?_of_strOr hphase, get?_of_strOr hcreated, hshowsR, hshowsN⟩⟩
    rw [State.fromJson, hversion]
    simp only [ne_eq, not_true_eq_false, if_false, State.fields, hget, bind, Except.bind,
      hiter hresources, hiter hnodes, hrs', hns', pure, Except.pure]
    rfl
  · rw [if_pos hcurrent] at h
    cases h

end Typed

/-! ### What is read or reported -/

/-- A state, or a `StateError`. -/
def Reported {α : Type} (r : Except Fault α) : Prop := (∃ a, r = .ok a) ∨ ∃ e, r = .error (.state e)

theorem not_reported_raised {α : Type} {e : Raised} : ¬ Reported (.error (.raised e) : Except Fault α) := by
  rintro (⟨_, ⟨⟩⟩ | ⟨_, ⟨⟩⟩)

theorem reported_untranslated {α : Type} {x : Except Raised α} :
    Reported (untranslated x) ↔ x.isOk = true := by
  cases x with
  | error e => exact iff_of_false not_reported_raised (by simp)
  | ok a => exact iff_of_true (.inl ⟨a, rfl⟩) rfl

theorem reported_fromJson {data : Json} : Reported (State.fromJson I data) ↔ StateShape I data := by
  unfold State.fromJson
  cases hversion : State.version I data with
  | error e =>
    refine iff_of_false not_reported_raised fun h => ?_
    have hok := isOk_version.mpr ⟨h.object, h.version⟩
    rw [hversion] at hok
    cases hok
  | ok version =>
    obtain ⟨hobj, hint⟩ := version_eq_ok hversion
    dsimp only
    split_ifs with hne
    · -- A foreign version is reported, whatever else the document holds.
      refine iff_of_true (.inr ⟨_, rfl⟩) ⟨hobj, isOk_iff.mpr ⟨_, hint⟩, fun h => ?_, fun h => ?_⟩
      · exact absurd (Except.ok.inj (hint.symm.trans h)) hne
      · exact absurd (Except.ok.inj (hint.symm.trans h)) hne
    · rw [reported_untranslated, isOk_fields hobj]
      rw [not_not.mp hne] at hint
      constructor
      · rintro ⟨hresources, hnodes⟩
        exact ⟨hobj, isOk_iff.mpr ⟨_, hint⟩, fun _ => hresources, fun _ => hnodes⟩
      · intro h
        exact ⟨h.resources hint, h.nodes hint⟩

/-- **`StateStore.read`** reads or reports exactly the readable contents. -/
theorem reported_read {bytes : List UInt8} : Reported (read I (some bytes)) ↔ Readable I bytes := by
  unfold Readable
  cases htext : readText bytes with
  | error e =>
    have hread : read I (some bytes) = .error (.raised .unicodeDecodeError) := by
      rw [read, htext, readText_error htext]
      rfl
    rw [hread]
    refine iff_of_false not_reported_raised ?_
    rintro ⟨text, ⟨⟩, -⟩
  | ok text =>
    have hread : read I (some bytes) = match loads I text with
        | .error .jsonDecodeError => .error (.state .corrupt)
        | .error e => .error (.raised e)
        | .ok data => State.fromJson I data := by
      rw [read, htext]
      rfl
    rw [hread]
    simp only [Except.ok.injEq, exists_eq_left']
    unfold loads
    split_ifs with hdeep hlong
    · exact iff_of_false not_reported_raised fun h => by simp [hdeep] at h
    · exact iff_of_false not_reported_raised fun h => by simp [hlong] at h
    · cases hdata : Json.loads text with
      | none =>
        refine iff_of_true (.inr ⟨_, rfl⟩) ⟨by simpa using hdeep, by simpa using hlong, ?_⟩
        rintro _ ⟨⟩
      | some data =>
        simp only [Option.some.injEq, forall_eq']
        refine reported_fromJson.trans ?_
        simp [hdeep, hlong]

/-- A run directory without a ledger, or with a readable one. -/
def RunDir.Readable (I : Interpreter) (d : RunDir) : Prop :=
  ∀ bytes, d.state = some bytes → Raw.Readable I bytes

theorem reported_of_dir {d : RunDir} : Reported (read I d.state) ↔ d.Readable I := by
  unfold RunDir.Readable
  cases d.state with
  | none => exact iff_of_true (.inr ⟨_, rfl⟩) (by rintro _ ⟨⟩)
  | some bytes => simp [reported_read]

theorem isOk_runInfo {d : RunDir} : (runInfo I d).isOk = true ↔ d.Readable I := by
  rw [← reported_of_dir, runInfo]
  cases read I d.state with
  | ok s => exact iff_of_true rfl (.inl ⟨s, rfl⟩)
  | error e =>
    cases e with
    | state e => exact iff_of_true rfl (.inr ⟨e, rfl⟩)
    | locked => exact iff_of_false (by simp) (by rintro (⟨_, ⟨⟩⟩ | ⟨_, ⟨⟩⟩))
    | raised e => exact iff_of_false (by simp) not_reported_raised

theorem runId_runInfo {d : RunDir} {info : RunInfo} (h : runInfo I d = .ok info) : info.runId = d.name := by
  unfold runInfo at h
  split at h
  · cases h
    rfl
  · cases h
    rfl
  · cases h

/-- The rows are those of the directories, in their order. -/
theorem runIds_listRuns {dirs : List RunDir} {infos : List RunInfo} (h : listRuns I dirs = .ok infos) :
    infos.map (·.runId) = dirs.map (·.name) := by
  unfold listRuns at h
  induction dirs generalizing infos with
  | nil =>
    cases h
    rfl
  | cons d dirs ih =>
    rw [List.mapM_cons] at h
    cases hinfo : runInfo I d with
    | error e => rw [hinfo] at h; cases h
    | ok info =>
      cases hrest : dirs.mapM (runInfo I) with
      | error e => rw [hinfo, hrest] at h; cases h
      | ok rest =>
        rw [hinfo, hrest] at h
        cases h
        rw [List.map_cons, List.map_cons, runId_runInfo hinfo, ih hrest]

/-- **`list_runs`** has a row for every run directory exactly when all of them are readable. -/
theorem listRuns_iff {dirs : List RunDir} :
    (∃ infos, listRuns I dirs = .ok infos ∧ infos.map (·.runId) = dirs.map (·.name)) ↔
      ∀ d ∈ dirs, d.Readable I := by
  have hall : (listRuns I dirs).isOk = true ↔ ∀ d ∈ dirs, d.Readable I := by
    rw [listRuns, isOk_mapM]
    exact forall₂_congr fun d _ => isOk_runInfo
  rw [← hall, isOk_iff]
  constructor
  · rintro ⟨infos, hinfos, -⟩
    exact ⟨infos, hinfos⟩
  · rintro ⟨infos, hinfos⟩
    exact ⟨infos, hinfos, runIds_listRuns hinfos⟩

/-- **`forget_run`** on a run without an owner removes the ledger exactly when it is readable. -/
theorem forgetRun_iff {d : RunDir} (hdead : d.running = false) :
    (forgetRun I d).2.state = none ↔ d.Readable I := by
  rw [forgetRun, if_neg (by simp [hdead]), RunDir.Readable]
  cases hstate : d.state with
  | none => exact iff_of_true hstate (by rintro _ ⟨⟩)
  | some bytes =>
    simp only [Option.some.injEq, forall_eq']
    rw [← reported_read]
    cases read I (some bytes) with
    | ok s => exact iff_of_true rfl (.inl ⟨s, rfl⟩)
    | error e =>
      cases e with
      | state e => exact iff_of_true rfl (.inr ⟨e, rfl⟩)
      | locked => exact iff_of_false (by simp [hstate]) (by rintro (⟨_, ⟨⟩⟩ | ⟨_, ⟨⟩⟩))
      | raised e => exact iff_of_false (by simp [hstate]) not_reported_raised

/-- **A damaged ledger**: for each content of a state file, for any run directories, and for a
run whose owner is dead, what the code does exactly where the ledgers are readable. -/
theorem damaged_iff (I : Interpreter) :
    (∀ bytes, Reported (read I (some bytes)) ↔ Readable I bytes) ∧
    (∀ dirs, (∃ infos, listRuns I dirs = .ok infos ∧ infos.map (·.runId) = dirs.map (·.name)) ↔
      ∀ d ∈ dirs, d.Readable I) ∧
    ∀ d : RunDir, (forgetRun I { d with running := false }).2.state = none ↔ d.Readable I :=
  ⟨fun _ => reported_read, fun _ => listRuns_iff,
    fun d => forgetRun_iff (d := { d with running := false }) rfl⟩

/-! ### An empty list for a ledger -/

/-- The two bytes `[]` are neither read nor reported. -/
theorem brackets_raise : ¬ ∀ bytes, Reported (read unlimited (some bytes)) := by
  intro h
  obtain ⟨text, htext, -, -, hshape⟩ := reported_read.mp (h ("[]".toList.flatMap String.utf8EncodeChar))
  rw [readText_utf8 (by decide)] at htext
  cases htext
  obtain ⟨kvs, ⟨⟩⟩ := (hshape (.arr []) rfl).object

end Raw

end TestRange
