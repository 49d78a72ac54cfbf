/-
The HTTP tier and the manager that brokers between it and the local cache.

The server is a path-served file store: `/isos/<sha>.bin` and `/isos/<sha>.json` mirror
the local layout, and `/names/<name>` holds the digest a name points to.  The local tier
is asked first; what the manager changes locally is mirrored best-effort.

* `Cache.httpResolve`, `Cache.fetch`, `Cache.push`, `Cache.httpDelete`, `Cache.httpAddName`,
  `Cache.httpForgetName` — the requests of the HTTP tier;
* `Cache.resolve`, `Cache.managerAdd`, `Cache.delete`, `Cache.addName`, `Cache.forgetName`,
  `Cache.pushEntry`, `Cache.pull` — the manager;
* `Cache.infoOfText_sidecarBody` — a sidecar that was pushed is read back as it was.
-/
import TestRange.Cache.Local
import TestRange.Lib.Text

namespace TestRange

namespace Cache

/-! ### Sidecars on the wire -/

/-- Python's `data.get(key)` on what must be a `dict`. -/
def member (data : Json) (key : String) : Except CacheErr (Option Json) :=
  match data with
  | .obj _ => .ok (data.get? key)
  | _ => .error .other

/-- `tuple(data.get("names") or ())` -/
def namesOf (H : Host) : Option Json → Except CacheErr (List Json)
  | none => .ok []
  | some .null => .ok []
  | some (.bool b) => if b then .error .other else .ok []
  | some (.int n) => if n = 0 then .ok [] else .error .other
  | some (.float text) => if H.floatIsZero text then .ok [] else .error .other
  | some (.str s) => .ok (s.toList.map fun c => .str (String.singleton c))
  | some (.arr xs) => .ok xs
  | some (.obj kvs) => .ok (kvs.map fun kv => .str kv.1)

/-- A name, if the value is one. -/
def asName : Json → Option String
  | .str s => some s
  | _ => none

/-- `data["sha256"]`.  A value that is no string is refused here; in the source it is refused
when no content hashes to it. -/
def shaOf : Option Json → Except CacheErr String
  | some (.str s) => .ok s
  | _ => .error .other

/-- `int(data.get("size", 0))` -/
def sizeOf (H : Host) (v : Option Json) : Except CacheErr ℤ :=
  (H.toInt (v.getD (.int 0))).elim (.error .other) .ok

/-- The `CacheEntryInfo` of a decoded sidecar. -/
def infoOfJson (H : Host) (data : Json) : Except CacheErr CacheEntryInfo := do
  let sha256 ← shaOf (← member data "sha256")
  let size ← sizeOf H (← member data "size")
  let names ← namesOf H (← member data "names")
  let origin ← member data "origin"
  let addedAt ← member data "added_at"
  let description ← member data "description"
  .ok ⟨sha256, size, names.filterMap asName, names.filter fun v => (asName v).isNone,
    origin.getD .null, addedAt.getD (.str ""), description.getD .null⟩

/-- `json.loads(resp.text)`, as a sidecar. -/
def infoOfText (H : Host) (text : List Char) : Except CacheErr CacheEntryInfo :=
  match Json.loads text with
  | some data => infoOfJson H data
  | none => .error .other

/-- The body of a sidecar. -/
def sidecarJson (info : CacheEntryInfo) : Json :=
  .obj [("sha256", .str info.sha256), ("size", .int info.size),
    ("names", .arr (info.names.map .str ++ info.others)), ("origin", info.origin),
    ("added_at", info.addedAt), ("description", info.description)]

/-- `_sidecar_body` -/
def sidecarBody (info : CacheEntryInfo) : List Char := Json.dumps (sidecarJson info)

/-- A text, or nothing. -/
def IsText (v : Json) : Prop := v = .null ∨ ∃ s, v = .str s

/-- An entry as the cache makes it: its names are strings, and what else is known about
it is texts. -/
structure WellTyped (info : CacheEntryInfo) : Prop where
  others : info.others = []
  origin : IsText info.origin
  addedAt : IsText info.addedAt
  description : IsText info.description

theorem IsText.plain {v : Json} (h : IsText v) : v.Plain := by
  rcases h with rfl | ⟨s, rfl⟩ <;> exact trivial

theorem IsText.sortKeys {v : Json} (h : IsText v) : v.sortKeys = v := by
  rcases h with rfl | ⟨s, rfl⟩ <;> rfl

theorem WellTyped.plain {info : CacheEntryInfo} (h : WellTyped info) : (sidecarJson info).Plain := by
  have hnames : Json.PlainItems (info.names.map .str ++ info.others) := by
    rw [h.others, List.append_nil, Json.plainItems_iff]
    intro v hv
    obtain ⟨n, -, rfl⟩ := List.mem_map.mp hv
    exact trivial
  rw [sidecarJson, Json.Plain]
  refine ⟨?_, show ["sha256", "size", "names", "origin", "added_at", "description"].Nodup by decide⟩
  simp only [Json.PlainMembers, Json.Plain, h.origin.plain, h.addedAt.plain, h.description.plain,
    hnames, and_self]

/-- **A sidecar is read back as it was written.** -/
theorem infoOfText_sidecarBody (H : Host) {info : CacheEntryInfo} (h : WellTyped info) :
    infoOfText H (sidecarBody info) = .ok info := by
  rw [infoOfText, sidecarBody, Json.loads_dumps h.plain]
  show infoOfJson H (sidecarJson info).sortKeys = .ok info
  obtain ⟨kvs, hkvs⟩ : ∃ kvs, (sidecarJson info).sortKeys = .obj kvs := ⟨_, rfl⟩
  have hmember : ∀ k, member (sidecarJson info).sortKeys k =
      .ok (((sidecarJson info).get? k).map Json.sortKeys) := by
    intro k
    rw [← Json.get?_sortKeys h.plain, hkvs]
    rfl
  have hsha : member (sidecarJson info).sortKeys "sha256" = .ok (some (.str info.sha256)) := hmember _
  have hsize : member (sidecarJson info).sortKeys "size" = .ok (some (.int info.size)) := hmember _
  have hnames : member (sidecarJson info).sortKeys "names" =
      .ok (some (.arr (info.names.map .str))) := by
    refine (hmember _).trans ?_
    show Except.ok (some (Json.sortKeys (.arr (info.names.map .str ++ info.others)))) = _
    rw [h.others, List.append_nil, Json.sortKeys, Json.sortKeysItems_eq_map, List.map_map]
    rfl
  -- The three texts are their own normal form.
  have htext : ∀ {k v}, IsText v → (sidecarJson info).get? k = some v →
      member (sidecarJson info).sortKeys k = .ok (some v) := by
    intro k v hv hget
    rw [hmember, hget, Option.map_some, hv.sortKeys]
  have horigin : member (sidecarJson info).sortKeys "origin" = .ok (some info.origin) :=
    htext h.origin rfl
  have hadded : member (sidecarJson info).sortKeys "added_at" = .ok (some info.addedAt) :=
    htext h.addedAt rfl
  have hdescription : member (sidecarJson info).sortKeys "description" =
      .ok (some info.description) :=
    htext h.description rfl
  have hstrings : (info.names.map Json.str).filterMap asName = info.names := by
    rw [List.filterMap_map]
    exact List.filterMap_some
  have hrest : (info.names.map Json.str).filter (fun v => (asName v).isNone) = info.others := by
    rw [h.others, List.filter_eq_nil_iff]
    intro v hv
    obtain ⟨n, -, rfl⟩ := List.mem_map.mp hv
    simp [asName]
  have hint : sizeOf H (some (.int info.size)) = .ok info.size := by
    rw [sizeOf, Option.getD_some, H.toInt_int]
    rfl
  have hbind : ∀ {α β : Type} (a : α) (f : α → Except CacheErr β), (Except.ok a >>= f) = f a :=
    fun _ _ => rfl
  simp only [infoOfJson, hsha, hsize, hnames, horigin, hadded, hdescription, hbind, shaOf, hint,
    namesOf, hstrings, hrest, Option.getD_some]

/-! ### The HTTP tier -/

/-- `resp.ok` -/
def respOk (status : ℕ) : Bool := !(400 ≤ status && status < 600)

/-- A file of the server: a miss if it is not there, an error on any other refusal. -/
def getFile (path : String) : CacheProg Response := do
  let resp ← request (.get path)
  if resp.status = 404 then throw .miss
  else if respOk resp.status then pure resp
  else throw .cache

def binPath (sha : String) : String := "/isos/" ++ sha ++ ".bin"

def sidecarPath (sha : String) : String := "/isos/" ++ sha ++ ".json"

def namePath (name : String) : String := "/names/" ++ name

/-- Whether an identifier is taken for a digest in full. -/
def fullSha (identifier : String) : Bool := looksLikeSha identifier && identifier.length = 64

/-- `HttpCache._resolve_name` -/
def resolveName (name : String) : CacheProg String := do
  let resp ← getFile (namePath name)
  let sha := String.ofList (Text.strip resp.text)
  if fullSha sha then pure sha else throw .cache

/-- `HttpCache._read_sidecar` -/
def httpReadSidecar (H : Host) (sha : String) : CacheProg CacheEntryInfo := do
  let resp ← getFile (sidecarPath sha)
  Prog.ofExcept (infoOfText H resp.text)

/-- `HttpCache.resolve` -/
def httpResolve (H : Host) (identifier : String) : CacheProg CacheEntryInfo :=
  if identifier = "" then throw .other
  else if fullSha identifier then httpReadSidecar H identifier
  else do
    let sha ← resolveName identifier
    httpReadSidecar H sha

/-- `HttpCache.fetch`: the content is put in place once it hashes to `sha`. -/
def fetch (H : Host) (sha : String) : CacheProg Unit := do
  let resp ← getFile (binPath sha)
  if H.sha256 resp.content = sha then putBin sha resp.content else throw .cache

/-- A `PUT`, with `_raise_for_put`. -/
def putFile (path : String) (text : List Char) (content : Bytes) : CacheProg Unit := do
  let resp ← request (.put path text content)
  if resp.status = 200 ∨ resp.status = 201 ∨ resp.status = 204 then pure () else throw .cache

/-- `_put_name` -/
def putName (name sha : String) : CacheProg Unit :=
  if validName name then putFile (namePath name) sha.toList [] else throw .cache

/-- `_delete_quiet` -/
def deleteQuiet (path : String) : CacheProg Unit := do
  let resp ← request (.delete path)
  if resp.status = 200 ∨ resp.status = 204 ∨ resp.status = 404 then pure () else throw .cache

/-- `HttpCache.push`: the content, the sidecar, the aliases. -/
def push (info : CacheEntryInfo) : CacheProg Unit := do
  let content ← readBin info.sha256
  putFile (binPath info.sha256) [] content
  putFile (sidecarPath info.sha256) (sidecarBody info) []
  info.names.forM fun n => putName n info.sha256

/-- `HttpCache.delete`: the aliases, the sidecar, the content. -/
def httpDelete (info : CacheEntryInfo) : CacheProg Unit := do
  info.names.forM fun n => deleteQuiet (namePath n)
  deleteQuiet (sidecarPath info.sha256)
  deleteQuiet (binPath info.sha256)

/-- The sidecar with one more alias, unless it has it. -/
def putAliased (info : CacheEntryInfo) (sha name : String) : CacheProg Unit :=
  if name ∈ info.names then pure ()
  else putFile (sidecarPath sha) (sidecarBody { info with names := info.names ++ [name] }) []

/-- `HttpCache.add_name` -/
def httpAddName (H : Host) (sha name : String) : CacheProg Unit :=
  if validName name then do
    match ← (httpReadSidecar H sha).attempt with
    | .ok info =>
      putAliased info sha name
      putName name sha
    | .error .miss => throw .cache
    | .error e => throw e
  else throw .cache

/-- `HttpCache.forget_name` -/
def httpForgetName (H : Host) (name : String) : CacheProg Unit := do
  match ← (resolveName name).attempt with
  | .error .miss => pure ()
  | .error e => throw e
  | .ok sha =>
    deleteQuiet (namePath name)
    match ← (httpReadSidecar H sha).attempt with
    | .error .miss => pure ()
    | .error e => throw e
    | .ok info =>
      putFile (sidecarPath sha) (sidecarBody { info with names := info.names.filter (· ≠ name) }) []

/-! ### The manager -/

/-- `_fetch_and_materialize`: the content first, the sidecar last. -/
def fetchAndMaterialize (H : Host) (info : CacheEntryInfo) : CacheProg CacheEntryInfo := do
  fetch H info.sha256
  writeMaterializedSidecar info

/-- `CacheManager.resolve`; `http` says whether there is an HTTP tier. -/
def resolve (H : Host) (http : Bool) (identifier : String) (fetching : Bool) :
    CacheProg CacheEntryInfo := do
  match ← (localResolve identifier).attempt with
  | .ok info => pure info
  | .error .miss =>
    if http then
      let info ← httpResolve H identifier
      if fetching then fetchAndMaterialize H info else pure info
    else throw .miss
  | .error e => throw e

/-- Mirror a change, best-effort. -/
def mirror (http : Bool) (body : CacheProg Unit) : CacheProg Unit :=
  if http then body.ignore else pure ()

/-- `CacheManager.add` -/
def managerAdd (H : Host) (http : Bool) (content : Bytes) (origin : String)
    (name description : Option String) : CacheProg CacheEntryInfo := do
  let info ← add H content origin name description
  mirror http (push info)
  pure info

/-- `CacheManager.delete` -/
def delete (http : Bool) (identifier : String) : CacheProg CacheEntryInfo := do
  let info ← deleteLocal identifier
  mirror http (httpDelete info)
  pure info

/-- `CacheManager.add_name` -/
def addName (H : Host) (http : Bool) (identifier newName : String) : CacheProg CacheEntryInfo := do
  let info ← addNameLocal identifier newName
  mirror http (httpAddName H info.sha256 newName)
  pure info

/-- `CacheManager.forget_name` -/
def forgetName (H : Host) (http : Bool) (name : String) : CacheProg CacheEntryInfo := do
  let info ← forgetNameLocal name
  mirror http (httpForgetName H name)
  pure info

/-- `CacheManager.push` -/
def pushEntry (http : Bool) (identifier : String) : CacheProg CacheEntryInfo :=
  if http then do
    let info ← localResolve identifier
    push info
    pure info
  else throw .cache

/-- `CacheManager.pull` -/
def pull (H : Host) (http : Bool) (identifier : String) : CacheProg CacheEntryInfo :=
  if http then do
    let info ← httpResolve H identifier
    fetchAndMaterialize H info
  else throw .cache

end Cache

end TestRange
