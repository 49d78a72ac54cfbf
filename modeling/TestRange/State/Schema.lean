/-
The state file's schema: resources, node records and the run-level envelope.

A run records every backend object it asks for as a `Resource` before the object
is created, and every finished node hook as a `NodeRecord`.  The `State` of a run
is an immutable value; a mutation of the ledger is a function `State → State`.

* `Resource.fromJson_toJson`, `NodeRecord.fromJson_toJson` — the codecs of the
  two ledgers;
* `State.loads_dumps` — decoding the text written for a state gives that state.

The decoders take a JSON object as Python's do, a missing optional key being its
default.  Python does not check the type of what it finds; a value of another type
than the schema's is an error here.
-/
import TestRange.Lib.Dict

namespace TestRange

open Json

/-- How reading or changing the ledger fails. -/
inductive StateError
  /-- No state file. -/
  | missing
  /-- The file is not JSON. -/
  | corrupt
  /-- The file was written under another schema version. -/
  | version (found : Int)
  /-- A required key is not there. -/
  | key (name : String)
  /-- A key holds a value of another type. -/
  | type (name : String)
  /-- `confirm` of a name that no resource has. -/
  | unknown (backendName : String)
  deriving DecidableEq, Repr

def schemaVersion : Int := 1

/-- The phases of a run; the file holds their names. -/
inductive Phase
  | preflight
  | build
  | run
  | cleanup
  | done
  | leaked
  deriving DecidableEq, Repr

def Phase.name : Phase → String
  | .preflight => "preflight"
  | .build => "build"
  | .run => "run"
  | .cleanup => "cleanup"
  | .done => "done"
  | .leaked => "leaked"

/-! ### Reading the fields of an object -/

/-- `data[key]` for a string. -/
def reqStr (data : Json) (key : String) : Except StateError String :=
  match data.get? key with
  | some (.str s) => .ok s
  | some _ => .error (.type key)
  | none => .error (.key key)

/-- `data.get(key, default)` for a string. -/
def strOr (data : Json) (key default : String) : Except StateError String :=
  match data.get? key with
  | some (.str s) => .ok s
  | some _ => .error (.type key)
  | none => .ok default

/-- `data.get(key)` for a string or `None`. -/
def optStr (data : Json) (key : String) : Except StateError (Option String) :=
  match data.get? key with
  | some (.str s) => .ok (some s)
  | some .null => .ok none
  | some _ => .error (.type key)
  | none => .ok none

/-- `data.get(key, [])` for a list. -/
def listOr (data : Json) (key : String) : Except StateError (List Json) :=
  match data.get? key with
  | some (.arr xs) => .ok xs
  | some _ => .error (.type key)
  | none => .ok []

/-- `dict(data.get(key) or {})`. -/
def dictOr (data : Json) (key : String) : Except StateError Dict :=
  match data.get? key with
  | some (.obj kvs) => .ok (Dict.ofEntries kvs)
  | some .null => .ok Dict.empty
  | some _ => .error (.type key)
  | none => .ok Dict.empty

/-- A string or `None`, as JSON. -/
def optJson : Option String → Json
  | some s => .str s
  | none => .null

/-! ### Resources -/

/-- One backend resource recorded in the state file.  `outcomeAt` is absent while
the create call is in flight, and stays absent when it failed. -/
structure Resource where
  kind : String
  backendName : String
  planName : Option String
  intentAt : String
  outcomeAt : Option String
  metadata : Dict

namespace Resource

/-- The outcome stamp set and metadata merged in. -/
def withOutcome (r : Resource) (outcomeAt : String) (extra : Dict) : Resource :=
  { r with outcomeAt := some outcomeAt, metadata := r.metadata.update extra }

def toJson (r : Resource) : Json :=
  .obj [("kind", .str r.kind), ("backend_name", .str r.backendName),
    ("plan_name", optJson r.planName), ("intent_at", .str r.intentAt),
    ("outcome_at", optJson r.outcomeAt), ("metadata", r.metadata.toJson)]

def fromJson (data : Json) : Except StateError Resource := do
  let kind ← reqStr data "kind"
  let backendName ← reqStr data "backend_name"
  let planName ← optStr data "plan_name"
  let intentAt ← reqStr data "intent_at"
  let outcomeAt ← optStr data "outcome_at"
  let metadata ← dictOr data "metadata"
  return { kind, backendName, planName, intentAt, outcomeAt, metadata }

end Resource

/-- Completion stamps of one graph node, written after its hook returned. -/
structure NodeRecord where
  name : String
  materializedAt : Option String
  realizedAt : Option String
  deriving DecidableEq

namespace NodeRecord

def toJson (n : NodeRecord) : Json :=
  .obj [("name", .str n.name), ("materialized_at", optJson n.materializedAt),
    ("realized_at", optJson n.realizedAt)]

def fromJson (data : Json) : Except StateError NodeRecord := do
  let name ← reqStr data "name"
  let materializedAt ← optStr data "materialized_at"
  let realizedAt ← optStr data "realized_at"
  return { name, materializedAt, realizedAt }

end NodeRecord

/-- The run-level envelope. -/
structure State where
  schemaVersion : Int
  runId : String
  planName : String
  driverClass : String
  driverUri : String
  phase : String
  createdAt : String
  resources : List Resource
  nodes : List NodeRecord

namespace State

def withResource (s : State) (r : Resource) : State :=
  { s with resources := s.resources ++ [r] }

/-- Every resource of that name becomes `new`; there must be one. -/
def replaceResource (s : State) (backendName : String) (new : Resource) :
    Except StateError State :=
  if s.resources.any (·.backendName = backendName) then
    .ok { s with resources :=
      s.resources.map fun r => if r.backendName = backendName then new else r }
  else .error (.unknown backendName)

def removeResource (s : State) (backendName : String) : State :=
  { s with resources := s.resources.filter (·.backendName ≠ backendName) }

/-- Put in one node's record, in the place of any it had. -/
def withNodeRecord (s : State) (record : NodeRecord) : State :=
  { s with nodes := s.nodes.filter (·.name ≠ record.name) ++ [record] }

def nodeRecord (s : State) (name : String) : Option NodeRecord :=
  s.nodes.find? (·.name = name)

def toJson (s : State) : Json :=
  .obj [("schema_version", .int s.schemaVersion), ("run_id", .str s.runId),
    ("plan_name", .str s.planName), ("driver_class", .str s.driverClass),
    ("driver_uri", .str s.driverUri), ("phase", .str s.phase),
    ("created_at", .str s.createdAt), ("resources", .arr (s.resources.map Resource.toJson)),
    ("nodes", .arr (s.nodes.map NodeRecord.toJson))]

/-- `int(data.get("schema_version", 0))`. -/
def versionOf (data : Json) : Except StateError Int :=
  match data.get? "schema_version" with
  | some (.int n) => .ok n
  | some (.bool b) => .ok (if b then 1 else 0)
  | some _ => .error (.type "schema_version")
  | none => .ok 0

def fromJson (data : Json) : Except StateError State := do
  let version ← versionOf data
  if version ≠ TestRange.schemaVersion then throw (.version version)
  let runId ← strOr data "run_id" ""
  let planName ← strOr data "plan_name" ""
  let driverClass ← strOr data "driver_class" ""
  let driverUri ← strOr data "driver_uri" ""
  let phase ← strOr data "phase" Phase.preflight.name
  let createdAt ← strOr data "created_at" ""
  let resources ← (← listOr data "resources").mapM Resource.fromJson
  let nodes ← (← listOr data "nodes").mapM NodeRecord.fromJson
  return { schemaVersion := version, runId, planName, driverClass, driverUri, phase, createdAt,
           resources, nodes }

/-- The text of a state file. -/
def dumps (s : State) : List Char := Json.dumps s.toJson

/-- `StateStore.read` on the text of the file. -/
def loads (text : List Char) : Except StateError State :=
  match Json.loads text with
  | some data => fromJson data
  | none => .error .corrupt

end State

/-! ### Reading undoes writing -/

/-- A way of reordering the keys of JSON objects that lookups do not see: leaving
them as they are, or sorting them. -/
structure KeyOrder (f : Json → Json) : Prop where
  str : ∀ s, f (.str s) = .str s
  null : f .null = .null
  int : ∀ n, f (.int n) = .int n
  arr : ∀ xs, f (.arr xs) = .arr (xs.map f)
  dict : ∀ d : Dict, f d.toJson = d.toJson
  get? : ∀ v : Json, v.Plain → ∀ k, (f v).get? k = (v.get? k).map f

theorem keyOrder_id : KeyOrder id where
  str _ := rfl
  null := rfl
  int _ := rfl
  arr xs := by rw [List.map_id]; rfl
  dict _ := rfl
  get? v _ k := by rw [Option.map_id]; rfl

theorem keyOrder_sortKeys : KeyOrder sortKeys where
  str _ := rfl
  null := rfl
  int _ := rfl
  arr xs := by rw [Json.sortKeys, sortKeysItems_eq_map]
  dict := Dict.sortKeys_toJson
  get? _ h := get?_sortKeys h

theorem KeyOrder.optJson {f : Json → Json} (hf : KeyOrder f) (o : Option String) :
    f (TestRange.optJson o) = TestRange.optJson o := by
  cases o with
  | none => exact hf.null
  | some s => exact hf.str s

theorem optJson_plain (o : Option String) : (optJson o).Plain := by
  cases o <;> exact trivial

section Fields

variable {data : Json} {key : String}

theorem reqStr_of_get? {s : String} (h : data.get? key = some (.str s)) :
    reqStr data key = .ok s := by
  simp [reqStr, h]

theorem strOr_of_get? {s d : String} (h : data.get? key = some (.str s)) :
    strOr data key d = .ok s := by
  simp [strOr, h]

theorem optStr_of_get? {o : Option String} (h : data.get? key = some (optJson o)) :
    optStr data key = .ok o := by
  cases o <;> simp [optStr, h, optJson]

theorem listOr_of_get? {xs : List Json} (h : data.get? key = some (.arr xs)) :
    listOr data key = .ok xs := by
  simp [listOr, h]

theorem dictOr_of_get? {d : Dict} (h : data.get? key = some d.toJson) :
    dictOr data key = .ok d := by
  simp [dictOr, h, Dict.toJson, d.ofEntries_entries]

end Fields

theorem mapM_fromJson {α : Type} (enc : α → Json) {dec : Json → Except StateError α}
    {xs : List α} (h : ∀ x ∈ xs, dec (enc x) = .ok x) : (xs.map enc).mapM dec = .ok xs := by
  induction xs with
  | nil => rfl
  | cons x xs ih =>
    have hx := h x List.mem_cons_self
    have hxs := ih fun y hy => h y (List.mem_cons_of_mem x hy)
    rw [List.map_cons, List.mapM_cons, hx, hxs]
    rfl

namespace Resource

/-- A resource whose metadata is read back exactly. -/
def Plain (r : Resource) : Prop := r.metadata.Plain

theorem plain_toJson {r : Resource} (h : r.Plain) : r.toJson.Plain := by
  rw [toJson, Json.Plain]
  refine ⟨?_, show ["kind", "backend_name", "plan_name", "intent_at", "outcome_at",
    "metadata"].Nodup by decide⟩
  simp only [Json.PlainMembers, Json.Plain, optJson_plain, Dict.plain_toJson h, and_self]

/-- The codec of resources, whatever the order of the keys. -/
theorem fromJson_toJson {f : Json → Json} (hf : KeyOrder f) {r : Resource} (h : r.Plain) :
    fromJson (f r.toJson) = .ok r := by
  have hget := hf.get? r.toJson (plain_toJson h)
  have hkind : (f r.toJson).get? "kind" = some (.str r.kind) :=
    (hget _).trans (congrArg some (hf.str _))
  have hname : (f r.toJson).get? "backend_name" = some (.str r.backendName) :=
    (hget _).trans (congrArg some (hf.str _))
  have hplan : (f r.toJson).get? "plan_name" = some (optJson r.planName) :=
    (hget _).trans (congrArg some (hf.optJson _))
  have hintent : (f r.toJson).get? "intent_at" = some (.str r.intentAt) :=
    (hget _).trans (congrArg some (hf.str _))
  have houtcome : (f r.toJson).get? "outcome_at" = some (optJson r.outcomeAt) :=
    (hget _).trans (congrArg some (hf.optJson _))
  have hmeta : (f r.toJson).get? "metadata" = some r.metadata.toJson :=
    (hget _).trans (congrArg some (hf.dict _))
  rw [fromJson, reqStr_of_get? hkind, reqStr_of_get? hname, optStr_of_get? hplan,
    reqStr_of_get? hintent, optStr_of_get? houtcome, dictOr_of_get? hmeta]
  rfl

end Resource

namespace NodeRecord

theorem plain_toJson (n : NodeRecord) : n.toJson.Plain := by
  rw [toJson, Json.Plain]
  refine ⟨?_, show ["name", "materialized_at", "realized_at"].Nodup by decide⟩
  simp only [Json.PlainMembers, Json.Plain, optJson_plain, and_self]

/-- The codec of node records, whatever the order of the keys. -/
theorem fromJson_toJson {f : Json → Json} (hf : KeyOrder f) (n : NodeRecord) :
    fromJson (f n.toJson) = .ok n := by
  have hget := hf.get? n.toJson (plain_toJson n)
  have hname : (f n.toJson).get? "name" = some (.str n.name) :=
    (hget _).trans (congrArg some (hf.str _))
  have hmat : (f n.toJson).get? "materialized_at" = some (optJson n.materializedAt) :=
    (hget _).trans (congrArg some (hf.optJson _))
  have hreal : (f n.toJson).get? "realized_at" = some (optJson n.realizedAt) :=
    (hget _).trans (congrArg some (hf.optJson _))
  rw [fromJson, reqStr_of_get? hname, optStr_of_get? hmat, optStr_of_get? hreal]
  rfl

end NodeRecord

namespace State

/-- The states a run can be in: of the current schema version, with metadata that
is read back exactly. -/
structure Plain (s : State) : Prop where
  version : s.schemaVersion = TestRange.schemaVersion
  resources : ∀ r ∈ s.resources, r.Plain

theorem plain_toJson {s : State} (h : s.Plain) : s.toJson.Plain := by
  have hr : Json.PlainItems (s.resources.map Resource.toJson) := by
    rw [plainItems_iff]
    intro x hx
    obtain ⟨r, hr, rfl⟩ := List.mem_map.mp hx
    exact Resource.plain_toJson (h.resources r hr)
  have hn : Json.PlainItems (s.nodes.map NodeRecord.toJson) := by
    rw [plainItems_iff]
    intro x hx
    obtain ⟨n, -, rfl⟩ := List.mem_map.mp hx
    exact NodeRecord.plain_toJson n
  rw [toJson, Json.Plain]
  refine ⟨?_, show ["schema_version", "run_id", "plan_name", "driver_class", "driver_uri",
    "phase", "created_at", "resources", "nodes"].Nodup by decide⟩
  simp only [Json.PlainMembers, Json.Plain, hr, hn, and_self]

/-- The codec of states, whatever the order of the keys. -/
theorem fromJson_toJson {f : Json → Json} (hf : KeyOrder f) {s : State} (h : s.Plain) :
    fromJson (f s.toJson) = .ok s := by
  have hget := hf.get? s.toJson (plain_toJson h)
  have hversion : versionOf (f s.toJson) = .ok s.schemaVersion := by
    have hv : (f s.toJson).get? "schema_version" = some (.int s.schemaVersion) :=
      (hget _).trans (congrArg some (hf.int _))
    rw [versionOf, hv]
  have hstr : ∀ k v, s.toJson.get? k = some (.str v) → (f s.toJson).get? k = some (.str v) := by
    intro k v hk
    rw [hget, hk]
    exact congrArg some (hf.str v)
  have hres : (f s.toJson).get? "resources" =
      some (.arr (s.resources.map fun r => f r.toJson)) := by
    refine (hget _).trans (congrArg some ?_)
    rw [hf.arr, List.map_map]
    rfl
  have hnodes : (f s.toJson).get? "nodes" = some (.arr (s.nodes.map fun n => f n.toJson)) := by
    refine (hget _).trans (congrArg some ?_)
    rw [hf.arr, List.map_map]
    rfl
  have hmapR := mapM_fromJson (fun r : Resource => f r.toJson)
    fun r hr => Resource.fromJson_toJson hf (h.resources r hr)
  have hmapN := mapM_fromJson (fun n : NodeRecord => f n.toJson)
    fun n (_ : n ∈ s.nodes) => n.fromJson_toJson hf
  rw [fromJson, hversion, strOr_of_get? (hstr "run_id" _ rfl), strOr_of_get? (hstr "plan_name" _ rfl),
    strOr_of_get? (hstr "driver_class" _ rfl), strOr_of_get? (hstr "driver_uri" _ rfl),
    strOr_of_get? (hstr "phase" _ rfl), strOr_of_get? (hstr "created_at" _ rfl),
    listOr_of_get? hres, listOr_of_get? hnodes]
  simp only [h.version, ne_eq, not_true_eq_false, if_false, bind, Except.bind, pure, Except.pure,
    hmapR, hmapN]
  rw [← h.version]

/-- **Decoding the text written for a state gives that state.** -/
theorem loads_dumps {s : State} (h : s.Plain) : loads s.dumps = .ok s := by
  rw [loads, dumps, Json.loads_dumps (plain_toJson h)]
  exact fromJson_toJson keyOrder_sortKeys h

end State

end TestRange
