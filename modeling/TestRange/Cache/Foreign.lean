/-
Sidecars with anything in them, on both tiers.

Both tiers decode a sidecar without a look at the types of what they find.  The local store
skips a file for three exceptions; the HTTP tier turns failed requests into a `CacheError`
and nothing else.  The callers are written for `CacheError` and `CacheMissError`.

* `Foreign.readSidecar`, `Foreign.listEntries`, `Foreign.localResolve` — the local store, on
  the bytes of its files;
* `Foreign.httpResolve` — the HTTP tier, on any answers;
* `Foreign.managerResolve`, `Foreign.resolveFullSet` — their callers;
* `Foreign.infoOfJson_of_decodeInfo` — where the digest is a text the decoder is the typed one;
* `Foreign.tolerant_iff`, `Foreign.escapes_httpResolve`, `Foreign.escapes_managerResolve`,
  `Foreign.escapes_resolveFullSet` — the contents that degrade to a miss or a `CacheError`.
-/
import TestRange.Cache.Coherent
import TestRange.Lib.Untyped

namespace TestRange

namespace Cache

namespace Foreign

open Untyped (Interpreter Raised readText loads get item iter orElse items? IsObj HasKey isOk_bind
  isOk_iff isOk_item bind_eq_ok loads_ok)

/-- What the cache takes from Python and the machine: the interpreter, `hashlib`, `str(v)` and
`==`, whether a temporary file can be made beside `isos/<s>.bin`, and which documents are
nested too deeply to be written. -/
structure Machine extends Interpreter where
  sha256 : Bytes → String
  str : Json → String
  eq : Json → Json → Bool
  canStage : String → Bool
  tooDeepToWrite : Json → Bool

/-! ### Sidecars -/

/-- A `CacheEntryInfo` with whatever its fields hold. -/
structure Info where
  sha256 : Json
  size : ℤ
  names : List Json
  origin : Json
  addedAt : Json
  description : Json

/-- The body of a sidecar. -/
def Info.body (info : Info) : Json :=
  .obj [("sha256", info.sha256), ("size", .int info.size), ("names", .arr info.names),
    ("origin", info.origin), ("added_at", info.addedAt), ("description", info.description)]

/-- The `CacheEntryInfo` that `_read_sidecar` makes of a document. -/
def decodeInfo (I : Interpreter) (data : Json) : Except Raised Info := do
  let sha256 ← item data "sha256"
  let foundSize ← get data "size"
  let size ← I.toInt (foundSize.getD (.int 0))
  let foundNames ← get data "names"
  let names ← iter (orElse I foundNames (.arr []))
  let origin ← get data "origin"
  let addedAt ← get data "added_at"
  let description ← get data "description"
  return ⟨sha256, size, names, origin.getD .null, addedAt.getD (.str ""), description.getD .null⟩

/-- The `CacheEntryInfo` of a text. -/
def infoOf (I : Interpreter) (text : List Char) : Except Raised Info := loads I text >>= decodeInfo I

/-- A `*.json` file of the store; there are no bytes where it cannot be read. -/
structure SidecarFile where
  name : String
  bytes : Option Bytes

/-- The `*.json` files, as `sorted` goes through them. -/
abbrev Store : Type := Keyed SidecarFile.name

/-- `LocalCache._read_sidecar` -/
def readSidecar (I : Interpreter) (f : SidecarFile) : Except Raised Info :=
  match f.bytes with
  | none => .error .osError
  | some bytes => readText bytes >>= infoOf I

/-- The exceptions that `iter_entries` skips a file for. -/
def skipped : Raised → Bool
  | .jsonDecodeError => true
  | .osError => true
  | .keyError => true
  | _ => false

/-- What a method of the cache raises. -/
inductive Fault
  /-- `CacheMissError` -/
  | miss
  /-- any other `CacheError` -/
  | cache
  | raised (e : Raised)

/-! ### The local store -/

/-- `list_entries`: all that `iter_entries` yields. -/
def listEntries (I : Interpreter) : List SidecarFile → Except Raised (List Info)
  | [] => .ok []
  | f :: fs =>
    match readSidecar I f with
    | .ok info => (listEntries I fs).map (info :: ·)
    | .error e => if skipped e then listEntries I fs else .error e

/-- The entries whose digest starts with an identifier; only a text has a `startswith`. -/
def matching (I : Interpreter) (identifier : String) : List SidecarFile → Except Raised (List Info)
  | [] => .ok []
  | f :: fs =>
    match readSidecar I f with
    | .ok info =>
      match info.sha256 with
      | .str sha =>
        (matching I identifier fs).map fun infos =>
          if startsWith sha identifier then info :: infos else infos
      | _ => .error .attributeError
    | .error e => if skipped e then matching I identifier fs else .error e

/-- `identifier in info.names` -/
def Info.hasName (info : Info) (name : String) : Bool :=
  info.names.any fun
    | .str s => s = name
    | _ => false

/-- The first entry with a name; the files after it are not read. -/
def findByName (I : Interpreter) (name : String) : List SidecarFile → Except Raised (Option Info)
  | [] => .ok none
  | f :: fs =>
    match readSidecar I f with
    | .ok info => if info.hasName name then .ok (some info) else findByName I name fs
    | .error e => if skipped e then findByName I name fs else .error e

/-- `LocalCache.resolve` -/
def localResolve (I : Interpreter) (fs : List SidecarFile) (identifier : String) : Except Fault Info :=
  if identifier = "" then .error (.raised .valueError)
  else if looksLikeSha identifier then
    match matching I identifier fs with
    | .ok [] => .error .miss
    | .ok [info] => .ok info
    | .ok _ => .error .cache
    | .error e => .error (.raised e)
  else
    match findByName I identifier fs with
    | .ok (some info) => .ok info
    | .ok none => .error .miss
    | .error e => .error (.raised e)

/-! ### The HTTP tier -/

/-- What the server answers at each path; `none` where a request fails. -/
abbrev Tier : Type := String → Option Response

/-- A file of the server. -/
def getFile (tier : Tier) (path : String) : Except Fault Response :=
  match tier path with
  | none => .error .cache
  | some resp =>
    if resp.status = 404 then .error .miss
    else if respOk resp.status then .ok resp
    else .error .cache

/-- `HttpCache._resolve_name` -/
def resolveName (tier : Tier) (name : String) : Except Fault String :=
  match getFile tier (namePath name) with
  | .error e => .error e
  | .ok resp =>
    let sha := String.ofList (Text.strip resp.text)
    if fullSha sha then .ok sha else .error .cache

/-- `HttpCache._read_sidecar` -/
def httpReadSidecar (I : Interpreter) (tier : Tier) (sha : String) : Except Fault Info :=
  match getFile tier (sidecarPath sha) with
  | .error e => .error e
  | .ok resp => (infoOf I resp.text).mapError .raised

/-- `HttpCache.resolve` -/
def httpResolve (I : Interpreter) (tier : Tier) (identifier : String) : Except Fault Info :=
  if identifier = "" then .error (.raised .valueError)
  else if fullSha identifier then httpReadSidecar I tier identifier
  else
    match resolveName tier identifier with
    | .error e => .error e
    | .ok sha => httpReadSidecar I tier sha

/-! ### The manager -/

/-- Whether `v[:16]` is a text or a list. -/
def sliceable : Json → Bool
  | .str _ => true
  | .arr _ => true
  | _ => false

/-- `HttpCache.fetch`: the content has been put in place, or it raises. -/
def fetch (M : Machine) (tier : Tier) (sha : Json) : Except Fault Unit :=
  match tier (binPath (M.str sha)) with
  | none => .error .cache
  | some resp =>
    if resp.status = 404 then
      if sliceable sha then .error .miss else .error (.raised .typeError)
    else if respOk resp.status then
      if !sliceable sha then .error (.raised .typeError)
      else if !M.canStage (M.str sha) then .error (.raised .osError)
      else
        match sha with
        | .str s => if M.sha256 resp.content = s then .ok () else .error .cache
        | _ => .error .cache
    else .error .cache

/-- `tuple(dict.fromkeys(names))` -/
def fromKeys (M : Machine) (names : List Json) : List Json :=
  names.foldl (fun seen n => if seen.any (M.eq n) then seen else seen ++ [n]) []

/-- `xs == ys`, of tuples -/
def sameTuple (M : Machine) (xs ys : List Json) : Bool :=
  xs.length = ys.length && (xs.zip ys).all fun p => M.eq p.1 p.2

/-- `_write_sidecar` -/
def writeSidecar (M : Machine) (store : Store) (name : String) (info : Info) :
    Except Fault Info × Store :=
  if M.tooDeepToWrite info.body then (.error (.raised .recursionError), store)
  else
    (.ok info, store.put ⟨name, some ((Json.dumps info.body).flatMap String.utf8EncodeChar)⟩)

/-- The file of a sidecar. -/
def sidecarName (M : Machine) (sha : Json) : String := M.str sha ++ ".json"

/-- `LocalCache.write_materialized_sidecar` -/
def writeMaterializedSidecar (M : Machine) (store : Store) (info : Info) :
    Except Fault Info × Store :=
  match store.find (sidecarName M info.sha256) with
  | some f =>
    match readSidecar M.toInterpreter f with
    | .error e => (.error (.raised e), store)
    | .ok existing =>
      if (existing.names ++ info.names).all Untyped.hashable then
        let merged := fromKeys M (existing.names ++ info.names)
        if sameTuple M merged existing.names then (.ok existing, store)
        else writeSidecar M store f.name { existing with names := merged }
      else (.error (.raised .typeError), store)
  | none => writeSidecar M store (sidecarName M info.sha256) info

/-- `CacheManager._fetch_and_materialize` -/
def fetchAndMaterialize (M : Machine) (tier : Tier) (store : Store) (info : Info) :
    Except Fault Info × Store :=
  match fetch M tier info.sha256 with
  | .error e => (.error e, store)
  | .ok _ => writeMaterializedSidecar M store info

/-- `CacheManager.resolve` -/
def managerResolve (M : Machine) (http : Option Tier) (store : Store) (identifier : String)
    (fetching : Bool) : Except Fault Info × Store :=
  match localResolve M.toInterpreter store.items identifier with
  | .error .miss =>
    match http with
    | none => (.error .miss, store)
    | some tier =>
      match httpResolve M.toInterpreter tier identifier with
      | .error e => (.error e, store)
      | .ok info => if fetching then fetchAndMaterialize M tier store info else (.ok info, store)
  | r => (r, store)

/-- `resolve_full_set`: the digest of each role's content, or `none` where it treats the set as
a miss. -/
def resolveFullSet (M : Machine) (http : Option Tier) (configHash : String) (fetching : Bool) :
    List String → Store → Except Raised (Option (List (String × Json))) × Store
  | [], store => (.ok (some []), store)
  | role :: roles, store =>
    match managerResolve M http store (builtArtifactName configHash role) fetching with
    | (.error (.raised e), store) => (.error e, store)
    | (.error _, store) => (.ok none, store)
    | (.ok info, store) =>
      let (rest, store) := resolveFullSet M http configHash fetching roles store
      (rest.map fun found => found.map fun paths =>
        if fetching then (role, info.sha256) :: paths else paths, store)

/-! ### Shapes -/

/-- A document that decodes to an entry. -/
structure InfoShape (I : Interpreter) (data : Json) : Prop where
  sha256 : HasKey data "sha256"
  size : (I.toInt ((data.get? "size").getD (.int 0))).isOk = true
  names : (items? (orElse I (data.get? "names") (.arr []))).isSome = true

/-- A text within the limits of the interpreter. -/
def Within (I : Interpreter) (text : List Char) : Prop := I.tooDeep text = false ∧ I.tooLong text = false

/-- A text that decodes to an entry. -/
def TextShape (I : Interpreter) (text : List Char) : Prop :=
  Within I text ∧ ∃ data, Json.loads text = some data ∧ InfoShape I data

/-- A file that decodes to an entry. -/
def Reads (I : Interpreter) (f : SidecarFile) : Prop :=
  ∃ bytes text, f.bytes = some bytes ∧ readText bytes = .ok text ∧ TextShape I text

/-- A file that decodes to an entry with a text for its digest. -/
def Good (I : Interpreter) (f : SidecarFile) : Prop :=
  ∃ bytes text data sha, f.bytes = some bytes ∧ readText bytes = .ok text ∧ Within I text ∧
    Json.loads text = some data ∧ InfoShape I data ∧ data.get? "sha256" = some (.str sha)

/-- A file that is skipped: it cannot be read, or is no JSON, or is an object without a digest. -/
def Skippable (I : Interpreter) (f : SidecarFile) : Prop :=
  f.bytes = none ∨ ∃ bytes text, f.bytes = some bytes ∧ readText bytes = .ok text ∧ Within I text ∧
    ∀ data, Json.loads text = some data → IsObj data ∧ ¬ HasKey data "sha256"

/-! ### What a sidecar decodes to -/

section Sidecars

variable {I : Interpreter} {data : Json} {text : List Char} {f : SidecarFile} {info : Info} {e : Raised}

/-- An object with a digest: what is left to be decoded. -/
theorem decodeInfo_of_key {kvs : List (String × Json)} {sha : Json} (h : kvs.lookup "sha256" = some sha) :
    decodeInfo I (.obj kvs) = (I.toInt ((Json.get? "size" (.obj kvs)).getD (.int 0)) >>= fun size =>
      iter (orElse I (Json.get? "names" (.obj kvs)) (.arr [])) >>= fun names =>
      .ok ⟨sha, size, names, (Json.get? "origin" (.obj kvs)).getD .null,
        (Json.get? "added_at" (.obj kvs)).getD (.str ""),
        (Json.get? "description" (.obj kvs)).getD .null⟩) := by
  rw [decodeInfo, item, h]
  rfl

theorem isOk_decodeInfo : (decodeInfo I data).isOk = true ↔ InfoShape I data := by
  constructor
  · intro h
    obtain ⟨sha, hsha, -⟩ := isOk_bind.mp h
    have hkey := isOk_item.mp (isOk_iff.mpr ⟨_, hsha⟩)
    obtain ⟨kvs, rfl⟩ := hkey.isObj
    obtain ⟨sha, hlookup⟩ := Option.isSome_iff_exists.mp hkey
    rw [decodeInfo_of_key hlookup] at h
    obtain ⟨size, hsize, h⟩ := isOk_bind.mp h
    obtain ⟨names, hnames, -⟩ := isOk_bind.mp h
    refine ⟨hkey, isOk_iff.mpr ⟨size, hsize⟩, ?_⟩
    unfold iter at hnames
    cases hitems : items? (orElse I (Json.get? "names" (.obj kvs)) (.arr [])) with
    | none => rw [hitems] at hnames; cases hnames
    | some xs => rfl
  · intro h
    obtain ⟨kvs, rfl⟩ := h.sha256.isObj
    obtain ⟨sha, hlookup⟩ := Option.isSome_iff_exists.mp h.sha256
    obtain ⟨size, hsize⟩ := isOk_iff.mp h.size
    obtain ⟨names, hnames⟩ := Option.isSome_iff_exists.mp h.names
    rw [decodeInfo_of_key hlookup, hsize, iter, hnames]
    rfl

/-- The digest of an entry is what the document has for it. -/
theorem sha256_decodeInfo (h : decodeInfo I data = .ok info) : data.get? "sha256" = some info.sha256 := by
  have hkey := (isOk_decodeInfo.mp (isOk_iff.mpr ⟨_, h⟩)).sha256
  obtain ⟨kvs, rfl⟩ := hkey.isObj
  obtain ⟨sha, hlookup⟩ := Option.isSome_iff_exists.mp hkey
  rw [decodeInfo_of_key hlookup] at h
  obtain ⟨size, -, h⟩ := bind_eq_ok.mp h
  obtain ⟨names, -, h⟩ := bind_eq_ok.mp h
  cases h
  exact hlookup

/-- Of the documents that do not decode, those are skipped that are objects without a digest. -/
theorem skipped_decodeInfo (h : decodeInfo I data = .error e) :
    skipped e = true ↔ IsObj data ∧ ¬ HasKey data "sha256" := by
  cases data with
  | obj kvs =>
    cases hlookup : kvs.lookup "sha256" with
    | none =>
      rw [decodeInfo, item, hlookup] at h
      cases h
      exact iff_of_true rfl ⟨⟨kvs, rfl⟩, by simp [HasKey, Json.get?, hlookup]⟩
    | some sha =>
      -- What can still go wrong is none of the exceptions that are caught.
      refine iff_of_false ?_ fun hne => hne.2 (by simp [HasKey, Json.get?, hlookup])
      rw [decodeInfo_of_key hlookup] at h
      cases hsize : I.toInt ((Json.get? "size" (.obj kvs)).getD (.int 0)) with
      | error e' =>
        rw [hsize] at h
        cases h
        rcases I.toInt_raises hsize with rfl | rfl | rfl <;> simp [skipped]
      | ok size =>
        rw [hsize] at h
        cases hitems : items? (orElse I (Json.get? "names" (.obj kvs)) (.arr [])) with
        | none =>
          rw [iter, hitems] at h
          cases h
          simp [skipped]
        | some names =>
          rw [iter, hitems] at h
          cases h
  | _ =>
    cases h
    exact iff_of_false (by simp [skipped]) (by rintro ⟨⟨kvs, ⟨⟩⟩, -⟩)

theorem isOk_infoOf : (infoOf I text).isOk = true ↔ TextShape I text := by
  rw [infoOf, isOk_bind, TextShape, Within]
  constructor
  · rintro ⟨data, hdata, hinfo⟩
    obtain ⟨hdeep, hlong, hloads⟩ := loads_ok.mp hdata
    exact ⟨⟨hdeep, hlong⟩, data, hloads, isOk_decodeInfo.mp hinfo⟩
  · rintro ⟨⟨hdeep, hlong⟩, data, hloads, hshape⟩
    exact ⟨data, loads_ok.mpr ⟨hdeep, hlong, hloads⟩, isOk_decodeInfo.mpr hshape⟩

/-- Of the texts that do not decode, those are skipped that are no JSON or lack a digest. -/
theorem skipped_infoOf (h : infoOf I text = .error e) : skipped e = true ↔
    Within I text ∧ ∀ data, Json.loads text = some data → IsObj data ∧ ¬ HasKey data "sha256" := by
  unfold infoOf loads at h
  split_ifs at h with hdeep hlong
  · cases h
    exact iff_of_false (by simp [skipped]) fun hw => by simp [Within, hdeep] at hw
  · cases h
    exact iff_of_false (by simp [skipped]) fun hw => by simp [Within, hlong] at hw
  · have hwithin : Within I text := ⟨by simpa using hdeep, by simpa using hlong⟩
    rw [and_iff_right hwithin]
    cases hdata : Json.loads text with
    | none =>
      rw [hdata] at h
      cases h
      exact iff_of_true rfl (by rintro _ ⟨⟩)
    | some data =>
      rw [hdata] at h
      rw [skipped_decodeInfo h]
      simp

theorem isOk_readSidecar : (readSidecar I f).isOk = true ↔ Reads I f := by
  unfold readSidecar Reads
  cases f.bytes with
  | none => simp
  | some bytes =>
    dsimp only
    rw [isOk_bind]
    simp [isOk_infoOf]

theorem good_iff : Good I f ↔ ∃ info sha, readSidecar I f = .ok info ∧ info.sha256 = .str sha := by
  constructor
  · rintro ⟨bytes, text, data, sha, hbytes, htext, hwithin, hdata, hshape, hsha⟩
    obtain ⟨info, hinfo⟩ := isOk_iff.mp (isOk_decodeInfo.mpr hshape)
    refine ⟨info, sha, ?_, ?_⟩
    · rw [readSidecar, hbytes]
      exact bind_eq_ok.mpr ⟨text, htext, bind_eq_ok.mpr ⟨data,
        loads_ok.mpr ⟨hwithin.1, hwithin.2, hdata⟩, hinfo⟩⟩
    · have hfound := sha256_decodeInfo hinfo
      rw [hsha] at hfound
      exact (Option.some.inj hfound).symm
  · rintro ⟨info, sha, hread, hsha⟩
    unfold readSidecar at hread
    cases hbytes : f.bytes with
    | none => rw [hbytes] at hread; cases hread
    | some bytes =>
      rw [hbytes] at hread
      obtain ⟨text, htext, hread⟩ := bind_eq_ok.mp hread
      obtain ⟨data, hdata, hinfo⟩ := bind_eq_ok.mp hread
      obtain ⟨hdeep, hlong, hloads⟩ := loads_ok.mp hdata
      refine ⟨bytes, text, data, sha, hbytes, htext, ⟨hdeep, hlong⟩, hloads,
        isOk_decodeInfo.mp (isOk_iff.mpr ⟨_, hinfo⟩), ?_⟩
      rw [sha256_decodeInfo hinfo, hsha]

theorem skippable_iff : Skippable I f ↔ ∃ e, readSidecar I f = .error e ∧ skipped e = true := by
  unfold Skippable readSidecar
  cases f.bytes with
  | none => exact iff_of_true (.inl rfl) ⟨_, rfl, rfl⟩
  | some bytes =>
    simp only [reduceCtorEq, false_or, Option.some.injEq, exists_and_left, exists_eq_left']
    cases htext : readText bytes with
    | error e =>
      have he := Untyped.readText_error htext
      subst he
      refine iff_of_false (by rintro ⟨text, ⟨⟩, -⟩) ?_
      rintro ⟨_, ⟨⟩, ⟨⟩⟩
    | ok text =>
      simp only [Except.ok.injEq, exists_eq_left']
      show _ ↔ ∃ e, infoOf I text = .error e ∧ skipped e = true
      constructor
      · intro h
        cases hinfo : infoOf I text with
        | error e => exact ⟨e, rfl, (skipped_infoOf hinfo).mpr h⟩
        | ok info =>
          obtain ⟨-, data, hdata, hshape⟩ := isOk_infoOf.mp (isOk_iff.mpr ⟨_, hinfo⟩)
          exact absurd hshape.sha256 (h.2 data hdata).2
      · rintro ⟨e, hinfo, hskip⟩
        exact (skipped_infoOf hinfo).mp hskip

end Sidecars

/-! ### Where the digest is a text -/

/-- The interpreter does what the typed cache takes from it. -/
structure Agrees (I : Interpreter) (H : Host) : Prop where
  toInt : ∀ v, H.toInt v = (I.toInt v).toOption
  floatIsZero : ∀ text, H.floatIsZero text = I.floatIsZero text

/-- The typed entry of an untyped one. -/
def Info.typed (info : Info) : Except CacheErr CacheEntryInfo :=
  match info.sha256 with
  | .str sha => .ok ⟨sha, info.size, info.names.filterMap asName,
      info.names.filter fun v => (asName v).isNone, info.origin, info.addedAt, info.description⟩
  | _ => .error .other

theorem namesOf_eq {I : Interpreter} {H : Host} (h : Agrees I H) (v : Option Json) :
    namesOf H v = (items? (orElse I v (.arr []))).elim (.error .other) .ok := by
  cases v with
  | none => rfl
  | some v =>
    cases v with
    | null => rfl
    | bool b => cases b <;> rfl
    | int n =>
      by_cases hn : n = 0
      · simp [namesOf, orElse, Untyped.truthy, hn, items?]
      · simp [namesOf, orElse, Untyped.truthy, hn, items?]
    | float text =>
      by_cases hzero : I.floatIsZero text = true
      · simp [namesOf, orElse, Untyped.truthy, h.floatIsZero, hzero, items?]
      · simp [namesOf, orElse, Untyped.truthy, h.floatIsZero, hzero, items?]
    | str s =>
      by_cases hs : s = ""
      · subst hs
        rfl
      · simp [namesOf, orElse, Untyped.truthy, hs, items?]
    | arr xs => cases xs <;> rfl
    | obj kvs => cases kvs <;> rfl

/-- **The two decoders agree** wherever the digest is a text; elsewhere the typed one refuses. -/
theorem infoOfJson_of_decodeInfo {I : Interpreter} {H : Host} (h : Agrees I H) (data : Json) :
    infoOfJson H data = match decodeInfo I data with
      | .ok info => info.typed
      | .error _ => .error .other := by
  cases data with
  | obj kvs =>
    cases hlookup : kvs.lookup "sha256" with
    | none =>
      rw [decodeInfo, item, hlookup, infoOfJson, member, Json.get?, hlookup]
      rfl
    | some sha =>
      have hsize : sizeOf H (Json.get? "size" (.obj kvs)) =
          (I.toInt ((Json.get? "size" (.obj kvs)).getD (.int 0))).toOption.elim (.error .other) .ok := by
        rw [sizeOf, h.toInt]
      have hmember : ∀ key, member (.obj kvs) key = .ok (Json.get? key (.obj kvs)) := fun _ => rfl
      have hsha : Json.get? "sha256" (.obj kvs) = some sha := hlookup
      rw [decodeInfo_of_key hlookup]
      simp only [infoOfJson, hmember, hsha, hsize, namesOf_eq h, iter, bind, Except.bind]
      cases sha with
      | str s =>
        cases I.toInt ((Json.get? "size" (.obj kvs)).getD (.int 0)) with
        | error e => rfl
        | ok size =>
          cases items? (orElse I (Json.get? "names" (.obj kvs)) (.arr [])) <;> rfl
      | _ =>
        cases I.toInt ((Json.get? "size" (.obj kvs)).getD (.int 0)) with
        | error e => rfl
        | ok size =>
          cases items? (orElse I (Json.get? "names" (.obj kvs)) (.arr [])) <;> rfl
  | _ => rfl

/-! ### The local store skips -/

section Local

variable {I : Interpreter} {fs : List SidecarFile} {f : SidecarFile}

/-- Whether a file decodes to an entry with a text for its digest. -/
def isEntry (I : Interpreter) (f : SidecarFile) : Bool :=
  match readSidecar I f with
  | .ok ⟨.str _, _, _, _, _, _⟩ => true
  | _ => false

theorem isEntry_iff : isEntry I f = true ↔ Good I f := by
  rw [good_iff, isEntry]
  split
  · case h_1 sha size names origin addedAt description heq =>
    exact iff_of_true rfl ⟨_, sha, heq, rfl⟩
  · case h_2 hne =>
    refine iff_of_false (by simp) ?_
    rintro ⟨⟨sha256, size, names, origin, addedAt, description⟩, sha, hread, rfl⟩
    exact hne sha size names origin addedAt description hread

/-- The files that do not decode to an entry behave as if they were absent. -/
def Tolerant (I : Interpreter) (fs : List SidecarFile) : Prop :=
  listEntries I fs = listEntries I (fs.filter (isEntry I)) ∧
    ∀ identifier, identifier ≠ "" →
      localResolve I fs identifier = localResolve I (fs.filter (isEntry I)) identifier

/-- A reader that goes through the files and treats a skipped one as absent. -/
theorem skips_of {α : Type} {g : List SidecarFile → α}
    (hskip : ∀ f fs, Skippable I f → g (f :: fs) = g fs)
    (hcons : ∀ f fs fs', g fs = g fs' → g (f :: fs) = g (f :: fs'))
    (h : ∀ f ∈ fs, Good I f ∨ Skippable I f) : g fs = g (fs.filter (isEntry I)) := by
  induction fs with
  | nil => rfl
  | cons f fs ih =>
    obtain ⟨hf, hfs⟩ := List.forall_mem_cons.mp h
    by_cases hentry : isEntry I f = true
    · rw [List.filter_cons_of_pos hentry]
      exact hcons f fs _ (ih hfs)
    · rw [List.filter_cons_of_neg hentry, ← ih hfs]
      exact hskip f fs (hf.resolve_left (mt isEntry_iff.mpr hentry))

theorem listEntries_skip (f : SidecarFile) (fs : List SidecarFile) (h : Skippable I f) :
    listEntries I (f :: fs) = listEntries I fs := by
  obtain ⟨e, hread, hskip⟩ := skippable_iff.mp h
  simp [listEntries, hread, hskip]

theorem matching_skip (identifier : String) (f : SidecarFile) (fs : List SidecarFile)
    (h : Skippable I f) : matching I identifier (f :: fs) = matching I identifier fs := by
  obtain ⟨e, hread, hskip⟩ := skippable_iff.mp h
  simp [matching, hread, hskip]

theorem findByName_skip (name : String) (f : SidecarFile) (fs : List SidecarFile)
    (h : Skippable I f) : findByName I name (f :: fs) = findByName I name fs := by
  obtain ⟨e, hread, hskip⟩ := skippable_iff.mp h
  simp [findByName, hread, hskip]

/-- What is listed holds whatever decodes; the rest is skipped. -/
theorem of_listEntries {infos : List Info} (h : listEntries I fs = .ok infos) :
    ∀ f ∈ fs, (∃ info ∈ infos, readSidecar I f = .ok info) ∨ Skippable I f := by
  induction fs generalizing infos with
  | nil => simp
  | cons f fs ih =>
    rw [listEntries] at h
    rw [List.forall_mem_cons]
    cases hread : readSidecar I f with
    | error e =>
      rw [hread] at h
      dsimp only at h
      split_ifs at h with hskip
      exact ⟨.inr (skippable_iff.mpr ⟨e, hread, hskip⟩), ih h⟩
    | ok info =>
      rw [hread] at h
      cases hrest : listEntries I fs with
      | error e => rw [hrest] at h; cases h
      | ok rest =>
        rw [hrest] at h
        cases h
        refine ⟨.inl ⟨info, List.mem_cons_self, rfl⟩, fun g hg => ?_⟩
        rcases ih hrest g hg with ⟨info', hinfo', hg'⟩ | hg'
        · exact .inl ⟨info', List.mem_cons_of_mem info hinfo', hg'⟩
        · exact .inr hg'

/-- Entries are listed. -/
theorem listEntries_good (h : ∀ f ∈ fs, Good I f) :
    ∃ infos, listEntries I fs = .ok infos ∧ ∀ info ∈ infos, ∃ sha, info.sha256 = .str sha := by
  induction fs with
  | nil => exact ⟨[], rfl, by simp⟩
  | cons f fs ih =>
    obtain ⟨hf, hfs⟩ := List.forall_mem_cons.mp h
    obtain ⟨infos, hinfos, hall⟩ := ih hfs
    obtain ⟨info, sha, hread, hsha⟩ := good_iff.mp hf
    refine ⟨info :: infos, ?_, List.forall_mem_cons.mpr ⟨⟨sha, hsha⟩, hall⟩⟩
    rw [listEntries, hread, hinfos]
    rfl

/-- **The local store skips what does not decode** exactly when every file decodes to an entry,
cannot be read, or lacks what the three exceptions that are caught stand for. -/
theorem tolerant_iff : Tolerant I fs ↔ ∀ f ∈ fs, Good I f ∨ Skippable I f := by
  constructor
  · rintro ⟨hlist, -⟩ f hf
    have hfilter : ∀ f ∈ fs.filter (isEntry I), Good I f :=
      fun f hf => isEntry_iff.mp (List.mem_filter.mp hf).2
    obtain ⟨infos, hinfos, hall⟩ := listEntries_good hfilter
    rcases of_listEntries (hlist.trans hinfos) f hf with ⟨info, hinfo, hread⟩ | hskip
    · obtain ⟨sha, hsha⟩ := hall info hinfo
      exact .inl (good_iff.mpr ⟨info, sha, hread, hsha⟩)
    · exact .inr hskip
  · intro h
    refine ⟨skips_of listEntries_skip (fun f fs fs' heq => ?_) h, fun identifier _ => ?_⟩
    · simp only [listEntries, heq]
    · have hmatching := skips_of (matching_skip identifier)
        (fun f fs fs' heq => by simp only [matching, heq]) h
      have hfind := skips_of (findByName_skip identifier)
        (fun f fs fs' heq => by simp only [findByName, heq]) h
      rw [localResolve, localResolve, hmatching, hfind]

end Local

/-! ### What escapes -/

/-- Neither a result nor a `CacheError`. -/
def Escapes {α : Type} (r : Except Fault α) : Prop := ∃ e, r = .error (.raised e)

theorem not_escapes_ok {α : Type} (a : α) : ¬ Escapes (.ok a) := by
  rintro ⟨e, ⟨⟩⟩

theorem not_escapes_miss {α : Type} : ¬ Escapes (.error .miss : Except Fault α) := by
  rintro ⟨e, ⟨⟩⟩

theorem not_escapes_cache {α : Type} : ¬ Escapes (.error .cache : Except Fault α) := by
  rintro ⟨e, ⟨⟩⟩

theorem escapes_raised {α : Type} (e : Raised) : Escapes (.error (.raised e) : Except Fault α) := ⟨e, rfl⟩

section LocalEscapes

variable {I : Interpreter} {fs : List SidecarFile} {identifier : String}

/-- The file decodes to an entry with the name. -/
def HasName (I : Interpreter) (f : SidecarFile) (name : String) : Prop :=
  ∃ info, readSidecar I f = .ok info ∧ info.hasName name = true

/-- The file decodes to an entry whose digest starts with the identifier. -/
def HasPrefix (I : Interpreter) (f : SidecarFile) (identifier : String) : Prop :=
  ∃ info sha, readSidecar I f = .ok info ∧ info.sha256 = .str sha ∧ startsWith sha identifier = true

/-- Up to the first entry with the name, every file decodes to an entry or is skipped. -/
def NamesFine (I : Interpreter) (name : String) : List SidecarFile → Prop
  | [] => True
  | f :: fs => (Skippable I f ∧ NamesFine I name fs) ∨
      (Reads I f ∧ (HasName I f name ∨ NamesFine I name fs))

/-- The files that a lookup reads. -/
def LocalFine (I : Interpreter) (fs : List SidecarFile) (identifier : String) : Prop :=
  if looksLikeSha identifier then ∀ f ∈ fs, Good I f ∨ Skippable I f
  else NamesFine I identifier fs

/-- No entry is what the identifier stands for. -/
def Misses (I : Interpreter) (fs : List SidecarFile) (identifier : String) : Prop :=
  if looksLikeSha identifier then ∀ f ∈ fs, ¬ HasPrefix I f identifier
  else ∀ f ∈ fs, ¬ HasName I f identifier

theorem hasPrefix_iff {f : SidecarFile} {info : Info} {sha : String} (h : readSidecar I f = .ok info)
    (hsha : info.sha256 = .str sha) : HasPrefix I f identifier ↔ startsWith sha identifier = true := by
  constructor
  · rintro ⟨info', sha', hread, hsha', hstart⟩
    cases h.symm.trans hread
    cases hsha.symm.trans hsha'
    exact hstart
  · intro hstart
    exact ⟨info, sha, h, hsha, hstart⟩

theorem hasName_iff {f : SidecarFile} {info : Info} (h : readSidecar I f = .ok info) :
    HasName I f identifier ↔ info.hasName identifier = true := by
  constructor
  · rintro ⟨info', hread, hname⟩
    cases h.symm.trans hread
    exact hname
  · intro hname
    exact ⟨info, h, hname⟩

theorem not_good_of_error {f : SidecarFile} {e : Raised} (h : readSidecar I f = .error e) : ¬ Good I f := by
  intro hgood
  obtain ⟨info, sha, hread, -⟩ := good_iff.mp hgood
  cases h.symm.trans hread

/-- What a lookup of a digest comes to. -/
theorem matching_iff (identifier : String) (fs : List SidecarFile) :
    ((matching I identifier fs).isOk = true ↔ ∀ f ∈ fs, Good I f ∨ Skippable I f) ∧
    ∀ infos, matching I identifier fs = .ok infos → (infos = [] ↔ ∀ f ∈ fs, ¬ HasPrefix I f identifier) := by
  induction fs with
  | nil =>
    refine ⟨by simp [matching], ?_⟩
    rintro infos ⟨⟩
    simp
  | cons f fs ih =>
    obtain ⟨ihok, ihnil⟩ := ih
    simp only [List.forall_mem_cons, matching]
    cases hread : readSidecar I f with
    | error e =>
      have hnone : ¬ HasPrefix I f identifier := by
        rintro ⟨info, sha, hread', -⟩
        cases hread.symm.trans hread'
      have hclass : (Good I f ∨ Skippable I f) ↔ skipped e = true := by
        rw [or_iff_right (not_good_of_error hread), skippable_iff, hread]
        simp
      rw [hclass]
      dsimp only
      split_ifs with hskip
      · rw [ihok]
        exact ⟨by simp [hskip], fun infos hinfos => by rw [ihnil infos hinfos, and_iff_right hnone]⟩
      · exact ⟨by simp [hskip], by rintro infos ⟨⟩⟩
    | ok info =>
      obtain ⟨sha256, size, names, origin, addedAt, description⟩ := info
      have hskip : ¬ Skippable I f := by
        rw [skippable_iff, hread]
        rintro ⟨e, ⟨⟩, -⟩
      rw [or_iff_left hskip, good_iff, hread]
      dsimp only
      cases sha256 with
      | str sha =>
        rw [hasPrefix_iff hread rfl, ← ihok]
        cases hrest : matching I identifier fs with
        | error e => exact ⟨by simp [Except.map], by rintro infos ⟨⟩⟩
        | ok rest =>
          refine ⟨by simp [Except.map], ?_⟩
          rintro infos ⟨⟩
          rw [← ihnil rest hrest]
          by_cases hstart : startsWith sha identifier = true
          · simp [hstart]
          · simp [hstart]
      | _ => exact ⟨by simp, by rintro infos ⟨⟩⟩

/-- What a lookup of a name comes to. -/
theorem findByName_iff (identifier : String) (fs : List SidecarFile) :
    ((findByName I identifier fs).isOk = true ↔ NamesFine I identifier fs) ∧
    ∀ found, findByName I identifier fs = .ok found →
      (found = none ↔ ∀ f ∈ fs, ¬ HasName I f identifier) := by
  induction fs with
  | nil =>
    refine ⟨by simp [findByName, NamesFine], ?_⟩
    rintro found ⟨⟩
    simp
  | cons f fs ih =>
    obtain ⟨ihok, ihnone⟩ := ih
    simp only [List.forall_mem_cons, findByName, NamesFine]
    rw [skippable_iff, ← isOk_readSidecar]
    cases hread : readSidecar I f with
    | error e =>
      have hnone : ¬ HasName I f identifier := by
        rintro ⟨info, hread', -⟩
        cases hread.symm.trans hread'
      dsimp only
      split_ifs with hskip
      · rw [ihok]
        exact ⟨by simp [hskip], fun found hfound => by rw [ihnone found hfound, and_iff_right hnone]⟩
      · exact ⟨by simp [hskip], by rintro found ⟨⟩⟩
    | ok info =>
      rw [hasName_iff hread]
      dsimp only
      split_ifs with hname
      · refine ⟨by simp [hname], ?_⟩
        rintro found ⟨⟩
        simp [hname]
      · rw [ihok]
        exact ⟨by simp [hname], fun found hfound => by rw [ihnone found hfound]; simp [hname]⟩

theorem escapes_localResolve (I : Interpreter) (fs : List SidecarFile) (hne : identifier ≠ "") :
    (¬ Escapes (localResolve I fs identifier) ↔ LocalFine I fs identifier) ∧
    (LocalFine I fs identifier →
      (localResolve I fs identifier = .error .miss ↔ Misses I fs identifier)) := by
  rw [localResolve, if_neg hne, LocalFine, Misses]
  split_ifs with hsha
  · obtain ⟨hok, hnil⟩ := matching_iff (I := I) identifier fs
    rw [← hok]
    cases hmatch : matching I identifier fs with
    | error e =>
      exact ⟨iff_of_false (fun h => h (escapes_raised e)) (by simp), fun h => by simp at h⟩
    | ok infos =>
      rw [← hnil infos hmatch]
      match infos with
      | [] => exact ⟨iff_of_true not_escapes_miss rfl, fun _ => by simp⟩
      | [info] => exact ⟨iff_of_true (not_escapes_ok info) rfl, fun _ => by simp⟩
      | _ :: _ :: _ => exact ⟨iff_of_true not_escapes_cache rfl, fun _ => by simp⟩
  · obtain ⟨hok, hnone⟩ := findByName_iff (I := I) identifier fs
    rw [← hok]
    cases hfind : findByName I identifier fs with
    | error e =>
      exact ⟨iff_of_false (fun h => h (escapes_raised e)) (by simp), fun h => by simp at h⟩
    | ok found =>
      rw [← hnone found hfind]
      match found with
      | none => exact ⟨iff_of_true not_escapes_miss rfl, fun _ => by simp⟩
      | some info => exact ⟨iff_of_true (not_escapes_ok info) rfl, fun _ => by simp⟩

end LocalEscapes

/-! ### The HTTP tier -/

section Http

variable {I : Interpreter} {tier : Tier} {path identifier : String} {resp : Response}

/-- The server has a file at the path. -/
def Provides (tier : Tier) (path : String) (resp : Response) : Prop :=
  tier path = some resp ∧ resp.status ≠ 404 ∧ respOk resp.status = true

/-- The digest whose sidecar a lookup reads. -/
def PointsTo (tier : Tier) (identifier sha : String) : Prop :=
  if fullSha identifier then identifier = sha
  else ∃ resp, Provides tier (namePath identifier) resp ∧ String.ofList (Text.strip resp.text) = sha ∧
    fullSha sha = true

/-- A sidecar that a lookup reads decodes to an entry. -/
def HttpFine (I : Interpreter) (tier : Tier) (identifier : String) : Prop :=
  ∀ sha resp, PointsTo tier identifier sha → Provides tier (sidecarPath sha) resp → TextShape I resp.text

/-- The server has an entry for the identifier. -/
def Offers (I : Interpreter) (tier : Tier) (identifier : String) (info : Info) : Prop :=
  ∃ sha resp, PointsTo tier identifier sha ∧ Provides tier (sidecarPath sha) resp ∧
    infoOf I resp.text = .ok info

theorem getFile_eq_ok : getFile tier path = .ok resp ↔ Provides tier path resp := by
  unfold getFile Provides
  cases tier path with
  | none => simp
  | some resp' =>
    dsimp only
    split_ifs with hmissing hok
    · simp only [Option.some.injEq, false_iff]
      rintro ⟨rfl, hne, -⟩
      exact hne hmissing
    · simp only [Except.ok.injEq, Option.some.injEq]
      constructor
      · rintro rfl
        exact ⟨rfl, hmissing, hok⟩
      · rintro ⟨rfl, -, -⟩
        rfl
    · simp only [Option.some.injEq, false_iff]
      rintro ⟨rfl, -, hok'⟩
      exact hok hok'

/-- A failed request is a miss or a `CacheError`. -/
theorem getFile_error {e : Fault} (h : getFile tier path = .error e) : e = .miss ∨ e = .cache := by
  unfold getFile at h
  cases hpath : tier path with
  | none =>
    rw [hpath] at h
    cases h
    exact .inr rfl
  | some resp =>
    rw [hpath] at h
    dsimp only at h
    split_ifs at h
    · cases h
      exact .inl rfl
    · cases h
      exact .inr rfl

/-- What a digest's sidecar comes to. -/
theorem httpReadSidecar_iff (I : Interpreter) (tier : Tier) (sha : String) :
    (¬ Escapes (httpReadSidecar I tier sha) ↔
      ∀ resp, Provides tier (sidecarPath sha) resp → TextShape I resp.text) ∧
    ∀ info, httpReadSidecar I tier sha = .ok info ↔
      ∃ resp, Provides tier (sidecarPath sha) resp ∧ infoOf I resp.text = .ok info := by
  unfold httpReadSidecar
  simp only [← getFile_eq_ok]
  cases hfile : getFile tier (sidecarPath sha) with
  | error e =>
    rcases getFile_error hfile with rfl | rfl
    · exact ⟨iff_of_true not_escapes_miss (by simp), by simp⟩
    · exact ⟨iff_of_true not_escapes_cache (by simp), by simp⟩
  | ok resp =>
    simp only [Except.ok.injEq, forall_eq', exists_eq_left']
    rw [← isOk_infoOf]
    cases infoOf I resp.text with
    | error e => exact ⟨iff_of_false (fun h => h (escapes_raised e)) (by simp), by simp [Except.mapError]⟩
    | ok info => exact ⟨iff_of_true (not_escapes_ok info) rfl, by simp [Except.mapError]⟩

theorem resolveName_eq_ok {sha : String} : resolveName tier identifier = .ok sha ↔
    ∃ resp, Provides tier (namePath identifier) resp ∧ String.ofList (Text.strip resp.text) = sha ∧
      fullSha sha = true := by
  unfold resolveName
  simp only [← getFile_eq_ok]
  cases getFile tier (namePath identifier) with
  | error e => simp
  | ok resp =>
    simp only [Except.ok.injEq, exists_eq_left']
    split_ifs with hfull
    · simp only [Except.ok.injEq]
      constructor
      · rintro rfl
        exact ⟨rfl, hfull⟩
      · exact fun h => h.1
    · simp only [false_iff]
      rintro ⟨rfl, hfull'⟩
      exact hfull hfull'

theorem resolveName_error {e : Fault} (h : resolveName tier identifier = .error e) :
    e = .miss ∨ e = .cache := by
  unfold resolveName at h
  cases hfile : getFile tier (namePath identifier) with
  | error e' =>
    rw [hfile] at h
    cases h
    exact getFile_error hfile
  | ok resp =>
    rw [hfile] at h
    dsimp only at h
    split_ifs at h
    cases h
    exact .inr rfl

/-- **`HttpCache.resolve`**: nothing but a `CacheError` escapes exactly when a sidecar that the
server has for the identifier decodes to an entry. -/
theorem escapes_httpResolve (I : Interpreter) (tier : Tier) (hne : identifier ≠ "") :
    (¬ Escapes (httpResolve I tier identifier) ↔ HttpFine I tier identifier) ∧
    ∀ info, httpResolve I tier identifier = .ok info ↔ Offers I tier identifier info := by
  rw [httpResolve, if_neg hne]
  simp only [HttpFine, Offers, PointsTo]
  split_ifs with hfull
  · obtain ⟨hescapes, hok⟩ := httpReadSidecar_iff I tier identifier
    refine ⟨hescapes.trans ⟨fun h sha resp heq => ?_, fun h resp => h identifier resp rfl⟩,
      fun info => by rw [hok]; simp⟩
    rw [← heq]
    exact h resp
  · simp only [← resolveName_eq_ok]
    cases hname : resolveName tier identifier with
    | error e =>
      rcases resolveName_error hname with rfl | rfl
      · exact ⟨iff_of_true not_escapes_miss (by simp), by simp⟩
      · exact ⟨iff_of_true not_escapes_cache (by simp), by simp⟩
    | ok sha =>
      obtain ⟨hescapes, hok⟩ := httpReadSidecar_iff I tier sha
      refine ⟨hescapes.trans ⟨fun h sha' resp heq => ?_, fun h resp => h sha resp rfl⟩,
        fun info => by rw [hok]; simp⟩
      rw [← Except.ok.inj heq]
      exact h resp

end Http

/-! ### The callers -/

section Callers

variable {M : Machine} {tier : Tier} {store : Store} {info : Info}

/-- The sidecar of a fetched entry can be merged with the one that is there, and written. -/
def Mergeable (M : Machine) (store : Store) (info : Info) : Prop :=
  match store.find (sidecarName M info.sha256) with
  | none => M.tooDeepToWrite info.body = false
  | some f => ∃ existing, readSidecar M.toInterpreter f = .ok existing ∧
      (existing.names ++ info.names).all Untyped.hashable = true ∧
      (sameTuple M (fromKeys M (existing.names ++ info.names)) existing.names = true ∨
        M.tooDeepToWrite { existing with names := fromKeys M (existing.names ++ info.names) }.body = false)

/-- An entry of the server can be fetched and recorded, unless the server refuses its content:
the digest can be cut to 16, a temporary file can be made, and where the content hashes to
the digest its sidecar can be merged. -/
structure Recordable (M : Machine) (tier : Tier) (store : Store) (info : Info) : Prop where
  slice : ∀ resp, tier (binPath (M.str info.sha256)) = some resp →
    resp.status = 404 ∨ respOk resp.status = true → sliceable info.sha256 = true
  stage : ∀ resp, Provides tier (binPath (M.str info.sha256)) resp →
    M.canStage (M.str info.sha256) = true
  merge : ∀ resp sha, Provides tier (binPath (M.str info.sha256)) resp → info.sha256 = .str sha →
    M.sha256 resp.content = sha → Mergeable M store info

/-- What a lookup through the manager needs of both tiers. -/
def ManagerFine (M : Machine) (http : Option Tier) (store : Store) (identifier : String)
    (fetching : Bool) : Prop :=
  LocalFine M.toInterpreter store.items identifier ∧
    (Misses M.toInterpreter store.items identifier → ∀ tier, http = some tier →
      HttpFine M.toInterpreter tier identifier ∧ (fetching = true → ∀ info,
        Offers M.toInterpreter tier identifier info → Recordable M tier store info))

theorem escapes_writeSidecar (name : String) :
    ¬ Escapes (writeSidecar M store name info).1 ↔ M.tooDeepToWrite info.body = false := by
  unfold writeSidecar
  split_ifs with hdeep
  · exact iff_of_false (fun h => h (escapes_raised _)) (by simp [hdeep])
  · exact iff_of_true (not_escapes_ok info) (by simpa using hdeep)

theorem escapes_writeMaterializedSidecar :
    ¬ Escapes (writeMaterializedSidecar M store info).1 ↔ Mergeable M store info := by
  unfold writeMaterializedSidecar Mergeable
  cases store.find (sidecarName M info.sha256) with
  | none => exact escapes_writeSidecar _
  | some f =>
    dsimp only
    cases readSidecar M.toInterpreter f with
    | error e => exact iff_of_false (fun h => h (escapes_raised e)) (by rintro ⟨existing, ⟨⟩, -⟩)
    | ok existing =>
      simp only [Except.ok.injEq, exists_eq_left']
      split_ifs with hhash hsame
      · exact iff_of_true (not_escapes_ok existing) ⟨hhash, .inl hsame⟩
      · rw [escapes_writeSidecar, and_iff_right hhash, or_iff_right hsame]
      · exact iff_of_false (fun h => h (escapes_raised _)) fun h => hhash h.1

/-- **Fetching and recording.** -/
theorem escapes_fetchAndMaterialize :
    ¬ Escapes (fetchAndMaterialize M tier store info).1 ↔ Recordable M tier store info := by
  unfold fetchAndMaterialize fetch
  cases hpath : tier (binPath (M.str info.sha256)) with
  | none =>
    refine iff_of_true not_escapes_cache ⟨?_, ?_, ?_⟩ <;> simp [Provides, hpath]
  | some resp =>
    have hprovides : ∀ resp', Provides tier (binPath (M.str info.sha256)) resp' →
        resp' = resp ∧ resp.status ≠ 404 ∧ respOk resp.status = true := by
      rintro resp' ⟨hsome, hne, hok⟩
      cases hpath.symm.trans hsome
      exact ⟨rfl, hne, hok⟩
    dsimp only
    split_ifs with hmissing hslice hok hslice hstage
    · -- The content is not there.
      refine iff_of_true not_escapes_miss ⟨fun _ _ _ => hslice, fun resp' h => ?_, fun resp' _ h => ?_⟩
      · exact absurd hmissing (hprovides resp' h).2.1
      · exact absurd hmissing (hprovides resp' h).2.1
    · exact iff_of_false (fun h => h (escapes_raised _)) fun h => hslice (h.slice resp hpath (.inl hmissing))
    · refine iff_of_false (fun h => h (escapes_raised _)) fun h => ?_
      simp [h.slice resp hpath (.inr hok)] at hslice
    · refine iff_of_false (fun h => h (escapes_raised _)) fun h => ?_
      simp [h.stage resp ⟨hpath, hmissing, hok⟩] at hstage
    · have hslice : sliceable info.sha256 = true := by simpa using hslice
      have hstage : M.canStage (M.str info.sha256) = true := by simpa using hstage
      cases hsha : info.sha256 with
      | str sha =>
        dsimp only
        split_ifs with hhash
        · -- The content hashes to the digest.
          rw [escapes_writeMaterializedSidecar]
          constructor
          · intro h
            exact ⟨fun _ _ _ => hslice, fun _ _ => hstage, fun _ _ _ _ _ => h⟩
          · intro h
            exact h.merge resp sha ⟨hpath, hmissing, hok⟩ hsha hhash
        · refine iff_of_true not_escapes_cache ⟨fun _ _ _ => hslice, fun _ _ => hstage, ?_⟩
          rintro resp' sha' hresp' hsha' hhash'
          obtain ⟨rfl, -⟩ := hprovides resp' hresp'
          cases hsha.symm.trans hsha'
          exact absurd hhash' hhash
      | _ =>
        refine iff_of_true not_escapes_cache ⟨fun _ _ _ => hslice, fun _ _ => hstage, ?_⟩
        intro resp' sha' _ hsha'
        rw [hsha] at hsha'
        cases hsha'
    · refine iff_of_true not_escapes_cache ⟨?_, fun resp' h => ?_, fun resp' _ h => ?_⟩
      · intro resp' hsome hstatus
        cases hpath.symm.trans hsome
        exact absurd hstatus (not_or.mpr ⟨hmissing, hok⟩)
      · exact absurd (hprovides resp' h).2.2 hok
      · exact absurd (hprovides resp' h).2.2 hok

/-- **`CacheManager.resolve`.** -/
theorem escapes_managerResolve {http : Option Tier} {identifier : String} {fetching : Bool}
    (hne : identifier ≠ "") : ¬ Escapes (managerResolve M http store identifier fetching).1 ↔
      ManagerFine M http store identifier fetching := by
  obtain ⟨hlocal, hmiss⟩ := escapes_localResolve M.toInterpreter store.items hne
  unfold managerResolve ManagerFine
  rw [← hlocal] at hmiss ⊢
  cases hresolve : localResolve M.toInterpreter store.items identifier with
  | ok info =>
    rw [hresolve] at hmiss
    have hfound := (hmiss (not_escapes_ok info)).mpr
    exact iff_of_true (not_escapes_ok info) ⟨not_escapes_ok info, fun h => by cases hfound h⟩
  | error e =>
    rw [hresolve] at hmiss
    cases e with
    | cache =>
      have hfound := (hmiss not_escapes_cache).mpr
      exact iff_of_true not_escapes_cache ⟨not_escapes_cache, fun h => by cases hfound h⟩
    | raised e =>
      exact iff_of_false (fun h => h (escapes_raised e)) fun h => h.1 (escapes_raised e)
    | miss =>
      rw [and_iff_right not_escapes_miss, imp_iff_right ((hmiss not_escapes_miss).mp rfl)]
      cases http with
      | none => exact iff_of_true not_escapes_miss (by rintro _ ⟨⟩)
      | some tier =>
        simp only [Option.some.injEq, forall_eq']
        obtain ⟨hhttp, hoffers⟩ := escapes_httpResolve M.toInterpreter tier hne
        rw [← hhttp]
        simp only [← hoffers]
        cases httpResolve M.toInterpreter tier identifier with
        | error e => simp
        | ok info =>
          cases fetching with
          | false => simp [not_escapes_ok]
          | true => simp [not_escapes_ok, escapes_fetchAndMaterialize]

/-- What the lookups of a set need, each of the store it finds. -/
def SetFine (M : Machine) (http : Option Tier) (configHash : String) (fetching : Bool) :
    List String → Store → Prop
  | [], _ => True
  | role :: roles, store =>
    ManagerFine M http store (builtArtifactName configHash role) fetching ∧
      ∀ info store', managerResolve M http store (builtArtifactName configHash role) fetching =
        (.ok info, store') → SetFine M http configHash fetching roles store'

/-- **`resolve_full_set`.** -/
theorem isOk_resolveFullSet {http : Option Tier} {configHash : String} {fetching : Bool}
    (roles : List String) (store : Store) :
    (resolveFullSet M http configHash fetching roles store).1.isOk = true ↔
      SetFine M http configHash fetching roles store := by
  induction roles generalizing store with
  | nil => exact iff_of_true rfl trivial
  | cons role roles ih =>
    rw [resolveFullSet, SetFine,
      ← escapes_managerResolve (builtArtifactName_ne_empty configHash role)]
    rcases managerResolve M http store (builtArtifactName configHash role) fetching with ⟨e | info, store'⟩
    · cases e with
      | miss => exact iff_of_true rfl ⟨not_escapes_miss, by rintro _ _ ⟨⟩⟩
      | cache => exact iff_of_true rfl ⟨not_escapes_cache, by rintro _ _ ⟨⟩⟩
      | raised e => exact iff_of_false (by simp) fun h => h.1 (escapes_raised e)
    · have hrest : (∀ info' store₁, ((.ok info, store') : Except Fault Info × Store) = (.ok info', store₁) →
          SetFine M http configHash fetching roles store₁) ↔
            SetFine M http configHash fetching roles store' :=
        ⟨fun h => h info store' rfl, by rintro h _ _ ⟨⟩; exact h⟩
      rw [hrest, and_iff_right (not_escapes_ok info), ← ih store']
      show ((resolveFullSet M http configHash fetching roles store').1.map _).isOk = true ↔ _
      rw [Untyped.isOk_map]

end Callers

/-- **Bad metadata** degrades to a miss or a `CacheError`: in the local store, on the HTTP tier,
through the manager, and in the lookup of a set, each exactly for the contents that its
condition describes. -/
theorem degrades_iff (M : Machine) (http : Option Tier) (store : Store) :
    (Tolerant M.toInterpreter store.items ↔
      ∀ f ∈ store.items, Good M.toInterpreter f ∨ Skippable M.toInterpreter f) ∧
    (∀ tier identifier, identifier ≠ "" →
      (¬ Escapes (httpResolve M.toInterpreter tier identifier) ↔
        HttpFine M.toInterpreter tier identifier)) ∧
    (∀ identifier fetching, identifier ≠ "" →
      (¬ Escapes (managerResolve M http store identifier fetching).1 ↔
        ManagerFine M http store identifier fetching)) ∧
    ∀ configHash fetching roles,
      (resolveFullSet M http configHash fetching roles store).1.isOk = true ↔
        SetFine M http configHash fetching roles store :=
  ⟨tolerant_iff, fun _ _ hne => (escapes_httpResolve _ _ hne).1,
    fun _ _ hne => escapes_managerResolve hne, fun _ _ roles => isOk_resolveFullSet roles store⟩

/-! ### An empty list for a sidecar -/

/-- A store with one file, of the two bytes `[]`, cannot be listed. -/
theorem brackets_listed : ¬ ∀ fs, Tolerant Untyped.unlimited fs := by
  intro h
  have hread : readText ("[]".toList.flatMap String.utf8EncodeChar) = .ok "[]".toList :=
    Untyped.readText_utf8 (by decide)
  have hfile := tolerant_iff.mp (h [⟨"disk.json", some ("[]".toList.flatMap String.utf8EncodeChar)⟩]) _
    List.mem_cons_self
  have hobj : ∃ data, Json.loads "[]".toList = some data ∧ IsObj data := by
    rcases hfile with ⟨bytes, text, data, sha, hbytes, htext, -, hdata, hshape, -⟩ | hskip
    · cases hbytes
      cases hread.symm.trans htext
      exact ⟨data, hdata, hshape.sha256.isObj⟩
    · rcases hskip with hnone | ⟨bytes, text, hbytes, htext, -, hall⟩
      · cases hnone
      · cases hbytes
        cases hread.symm.trans htext
        exact ⟨.arr [], rfl, (hall (.arr []) rfl).1⟩
  obtain ⟨data, hdata, kvs, rfl⟩ := hobj
  cases hdata

end Foreign

end Cache

end TestRange
