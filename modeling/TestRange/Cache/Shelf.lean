/-
An honest server: a file store that keeps what it is given.

The server keeps a file for each path.  What the cache puts there is a shelf of contents,
sidecars and pointers, and the requests of the HTTP tier are operations on that shelf.

* `Cache.fileStore` — the server;
* `Cache.Shelf`, `Cache.Shows` — what the files at the paths of the cache say;
* `Cache.Shelf.push`, `Cache.Shelf.drop`, `Cache.Shelf.alias`, `Cache.Shelf.unalias` — what a push, a
  deletion and the change of a name do to the shelf;
* `Cache.exec_push` and its like — the requests do that.
-/
import TestRange.Cache.Aliases

namespace TestRange

namespace Cache

/-! ### The server -/

/-- The files of a server, each read as text or as bytes. -/
abbrev Files : Type := String → Option (List Char × Bytes)

/-- A file store: it answers with what was last put at a path. -/
def fileStore : Server Files
  | .get path, files =>
    ((files path).elim (.ok ⟨404, [], []⟩) fun body => .ok ⟨200, body.1, body.2⟩, files)
  | .put path text content, files =>
    (.ok ⟨201, [], []⟩, Function.update files path (some (text, content)))
  | .delete path, files =>
    (.ok ⟨if (files path).isSome then 204 else 404, [], []⟩, Function.update files path none)

variable {H : Host} {w : World Files}

theorem exec_getFile_found {path : String} {text : List Char} {content : Bytes}
    (h : w.server path = some (text, content)) :
    (getFile path).exec (handler fileStore) w = (.ok ⟨200, text, content⟩, w) := by
  simp only [getFile, Prog.bind_eq_bind, Prog.exec_bind, exec_request, fileStore, h, Option.elim_some,
    Prog.andThen_ok]
  rfl

theorem exec_getFile_missing {path : String} (h : w.server path = none) :
    (getFile path).exec (handler fileStore) w = (.error .miss, w) := by
  simp only [getFile, Prog.bind_eq_bind, Prog.exec_bind, exec_request, fileStore, h, Option.elim_none,
    Prog.andThen_ok]
  rfl

theorem exec_putFile (path : String) (text : List Char) (content : Bytes) :
    (putFile path text content).exec (handler fileStore) w =
      (.ok (), { w with server := Function.update w.server path (some (text, content)) }) := rfl

theorem exec_deleteQuiet (path : String) :
    (deleteQuiet path).exec (handler fileStore) w =
      (.ok (), { w with server := Function.update w.server path none }) := by
  simp only [deleteQuiet, Prog.bind_eq_bind, Prog.exec_bind, exec_request, fileStore, Prog.andThen_ok]
  cases (w.server path).isSome <;> rfl

/-! ### Paths -/

theorem binPath_inj {a b : String} : binPath a = binPath b ↔ a = b := by
  constructor
  · intro h
    have hlist := congrArg String.toList h
    simp only [binPath, String.toList_append, List.append_assoc] at hlist
    exact String.toList_injective (List.append_cancel_right (List.append_cancel_left hlist))
  · rintro rfl
    rfl

theorem sidecarPath_inj {a b : String} : sidecarPath a = sidecarPath b ↔ a = b := by
  constructor
  · intro h
    have hlist := congrArg String.toList h
    simp only [sidecarPath, String.toList_append, List.append_assoc] at hlist
    exact String.toList_injective (List.append_cancel_right (List.append_cancel_left hlist))
  · rintro rfl
    rfl

theorem namePath_inj {a b : String} : namePath a = namePath b ↔ a = b := by
  constructor
  · intro h
    have hlist := congrArg String.toList h
    simp only [namePath, String.toList_append] at hlist
    exact String.toList_injective (List.append_cancel_left hlist)
  · rintro rfl
    rfl

/-- A content and a sidecar differ in the letter before the last of their path. -/
theorem binPath_ne_sidecarPath (a b : String) : binPath a ≠ sidecarPath b := by
  intro h
  have hlast := congrArg (fun s : String => s.toList.reverse.tail.head?) h
  simp [binPath, sidecarPath, String.toList_append] at hlast

/-- Pointers are in a directory of their own. -/
theorem binPath_ne_namePath (a b : String) : binPath a ≠ namePath b := by
  intro h
  have hsecond := congrArg (fun s : String => s.toList.tail.head?) h
  simp [binPath, namePath, String.toList_append] at hsecond

theorem sidecarPath_ne_namePath (a b : String) : sidecarPath a ≠ namePath b := by
  intro h
  have hsecond := congrArg (fun s : String => s.toList.tail.head?) h
  simp [sidecarPath, namePath, String.toList_append] at hsecond

/-! ### The shelf -/

/-- What the server holds: contents and sidecars under their digests, and the digest each
name points to. -/
structure Shelf where
  bins : String → Option Bytes
  sidecars : String → Option CacheEntryInfo
  names : String → Option String

/-- The files show a shelf. -/
structure Shows (files : Files) (s : Shelf) : Prop where
  bin : ∀ sha, files (binPath sha) = (s.bins sha).map fun b => ([], b)
  sidecar : ∀ sha, files (sidecarPath sha) = (s.sidecars sha).map fun info => (sidecarBody info, [])
  name : ∀ n, files (namePath n) = (s.names n).map fun sha => (sha.toList, [])

section Updates

variable {files : Files} {s : Shelf}

theorem Shows.setBin (h : Shows files s) (sha : String) (b : Option Bytes) :
    Shows (Function.update files (binPath sha) (b.map fun b => ([], b)))
      { s with bins := Function.update s.bins sha b } := by
  refine ⟨fun t => ?_, fun t => ?_, fun n => ?_⟩
  · by_cases ht : t = sha
    · subst ht
      simp
    · rw [Function.update_of_ne (mt binPath_inj.mp ht)]
      dsimp only
      rw [Function.update_of_ne ht]
      exact h.bin t
  · rw [Function.update_of_ne (binPath_ne_sidecarPath sha t).symm]
    exact h.sidecar t
  · rw [Function.update_of_ne (binPath_ne_namePath sha n).symm]
    exact h.name n

theorem Shows.setSidecar (h : Shows files s) (sha : String) (info : Option CacheEntryInfo) :
    Shows (Function.update files (sidecarPath sha) (info.map fun info => (sidecarBody info, [])))
      { s with sidecars := Function.update s.sidecars sha info } := by
  refine ⟨fun t => ?_, fun t => ?_, fun n => ?_⟩
  · rw [Function.update_of_ne (binPath_ne_sidecarPath t sha)]
    exact h.bin t
  · by_cases ht : t = sha
    · subst ht
      simp
    · rw [Function.update_of_ne (mt sidecarPath_inj.mp ht)]
      dsimp only
      rw [Function.update_of_ne ht]
      exact h.sidecar t
  · rw [Function.update_of_ne (sidecarPath_ne_namePath sha n).symm]
    exact h.name n

theorem Shows.setName (h : Shows files s) (n : String) (sha : Option String) :
    Shows (Function.update files (namePath n) (sha.map fun sha => (sha.toList, [])))
      { s with names := Function.update s.names n sha } := by
  refine ⟨fun t => ?_, fun t => ?_, fun m => ?_⟩
  · rw [Function.update_of_ne (binPath_ne_namePath t n)]
    exact h.bin t
  · rw [Function.update_of_ne (sidecarPath_ne_namePath t n)]
    exact h.sidecar t
  · by_cases hm : m = n
    · subst hm
      simp
    · rw [Function.update_of_ne (mt namePath_inj.mp hm)]
      dsimp only
      rw [Function.update_of_ne hm]
      exact h.name m

end Updates

/-- An entry whose names may be put on a shelf. -/
structure Proper (info : CacheEntryInfo) : Prop where
  typed : WellTyped info
  names : ∀ n ∈ info.names, validName n = true

/-- Every sidecar is under its digest and has its content, and names point to digests. -/
structure Shelf.Sound (H : Host) (s : Shelf) : Prop where
  sha : ∀ {sha info}, s.sidecars sha = some info → info.sha256 = sha
  proper : ∀ {sha info}, s.sidecars sha = some info → Proper info
  content : ∀ {sha info}, s.sidecars sha = some info → ∃ b, s.bins sha = some b ∧ H.sha256 b = sha
  name : ∀ {n sha}, s.names n = some sha → IsSha sha

/-! ### Looking up -/

/-- A sidecar of the shelf. -/
def Shelf.read (s : Shelf) (sha : String) : Except CacheErr CacheEntryInfo :=
  (s.sidecars sha).elim (.error .miss) .ok

/-- The entry of an identifier. -/
def Shelf.resolve (s : Shelf) (identifier : String) : Except CacheErr CacheEntryInfo :=
  if identifier = "" then .error .other
  else if fullSha identifier then s.read identifier
  else (s.names identifier).elim (.error .miss) s.read

section Lookups

variable {s : Shelf}

theorem exec_httpReadSidecar (hw : Shows w.server s) (hs : s.Sound H) (sha : String) :
    (httpReadSidecar H sha).exec (handler fileStore) w = (s.read sha, w) := by
  have hfile := hw.sidecar sha
  rw [httpReadSidecar, Prog.bind_eq_bind, Prog.exec_bind, Shelf.read]
  cases hinfo : s.sidecars sha with
  | none =>
    rw [hinfo] at hfile
    rw [exec_getFile_missing hfile]
    rfl
  | some info =>
    rw [hinfo] at hfile
    rw [exec_getFile_found hfile, Prog.andThen_ok, infoOfText_sidecarBody H (hs.proper hinfo).typed]
    rfl

theorem isSpace_of_isHexChar {c : Char} (h : isHexChar c = true) : Text.isSpace c = false := by
  have hrange : (48 ≤ c.toNat ∧ c.toNat ≤ 57) ∨ (97 ≤ c.toNat ∧ c.toNat ≤ 102) := by
    simpa [isHexChar, Char.le_def, UInt32.le_iff_toNat_le] using h
  simp only [Text.isSpace, Bool.or_eq_false_iff, Bool.and_eq_false_iff, decide_eq_false_iff_not]
  omega

theorem strip_sha {sha : String} (h : IsSha sha) : String.ofList (Text.strip sha.toList) = sha := by
  rw [Text.strip_of_forall fun c hc => isSpace_of_isHexChar (List.all_eq_true.mp h.1 c hc),
    String.ofList_toList]

theorem exec_resolveName (hw : Shows w.server s) (hs : s.Sound H) (n : String) :
    (resolveName n).exec (handler fileStore) w = ((s.names n).elim (.error .miss) .ok, w) := by
  have hfile := hw.name n
  rw [resolveName, Prog.bind_eq_bind, Prog.exec_bind]
  cases hsha : s.names n with
  | none =>
    rw [hsha] at hfile
    rw [exec_getFile_missing hfile]
    rfl
  | some sha =>
    rw [hsha] at hfile
    have hdigest := hs.name hsha
    rw [exec_getFile_found hfile, Prog.andThen_ok]
    dsimp only
    rw [strip_sha hdigest, if_pos (fullSha_of_isSha hdigest)]
    rfl

/-- A lookup on the server is a lookup on the shelf. -/
theorem exec_httpResolve (hw : Shows w.server s) (hs : s.Sound H) (identifier : String) :
    (httpResolve H identifier).exec (handler fileStore) w = (s.resolve identifier, w) := by
  unfold httpResolve Shelf.resolve
  split_ifs with hempty hfull
  · rfl
  · exact exec_httpReadSidecar hw hs identifier
  · rw [Prog.bind_eq_bind, Prog.exec_bind, exec_resolveName hw hs]
    cases s.names identifier with
    | none => rfl
    | some sha => exact exec_httpReadSidecar hw hs sha

end Lookups

/-! ### Changing -/

/-- The shelf after a push. -/
def Shelf.push (s : Shelf) (info : CacheEntryInfo) (content : Bytes) : Shelf where
  bins := Function.update s.bins info.sha256 (some content)
  sidecars := Function.update s.sidecars info.sha256 (some info)
  names n := if n ∈ info.names then some info.sha256 else s.names n

/-- The shelf after a deletion. -/
def Shelf.drop (s : Shelf) (info : CacheEntryInfo) : Shelf where
  bins := Function.update s.bins info.sha256 none
  sidecars := Function.update s.sidecars info.sha256 none
  names n := if n ∈ info.names then none else s.names n

/-- The shelf after a name was attached, where the digest has a sidecar. -/
def Shelf.alias (s : Shelf) (sha n : String) : Shelf :=
  match s.sidecars sha with
  | none => s
  | some info =>
    { s with
      sidecars := Function.update s.sidecars sha (some
        (if n ∈ info.names then info else { info with names := info.names ++ [n] }))
      names := Function.update s.names n (some sha) }

/-- The shelf after a name was dropped. -/
def Shelf.unalias (s : Shelf) (n : String) : Shelf :=
  match s.names n with
  | none => s
  | some sha =>
    { s with
      sidecars := match s.sidecars sha with
        | none => s.sidecars
        | some info =>
          Function.update s.sidecars sha (some { info with names := info.names.filter (· ≠ n) })
      names := Function.update s.names n none }

section Changes

variable {s : Shelf}

/-- One pointer after another. -/
theorem Shows.setNames {p : String → CacheProg Unit} (sha : Option String) (names : List String)
    (hp : ∀ n ∈ names, ∀ w : World Files, (p n).exec (handler fileStore) w = (.ok (), { w with
      server := Function.update w.server (namePath n) (sha.map fun sha => (sha.toList, [])) }))
    (hw : Shows w.server s) :
    ∃ files, (names.forM p).exec (handler fileStore) w = (.ok (), { w with server := files }) ∧
      Shows files { s with names := fun n => if n ∈ names then sha else s.names n } := by
  induction names generalizing w s with
  | nil => exact ⟨w.server, rfl, by simpa using hw⟩
  | cons n names ih =>
    obtain ⟨hn, hrest⟩ := List.forall_mem_cons.mp hp
    have hstep := hw.setName n sha
    obtain ⟨files, hend, hshows⟩ := ih (w := { w with
      server := Function.update w.server (namePath n) (sha.map fun sha => (sha.toList, [])) }) hrest hstep
    refine ⟨files, ?_, ?_⟩
    · show ((p n).bind fun _ => names.forM p).exec (handler fileStore) w = _
      rw [Prog.exec_bind, hn w, Prog.andThen_ok]
      exact hend
    · convert hshows using 2
      funext m
      by_cases hm : m = n
      · subst hm
        simp
      · simp [hm]

/-- **A push puts the entry on the shelf.** -/
theorem exec_push (hw : Shows w.server s) {info : CacheEntryInfo} (hinfo : Proper info)
    {content : Bytes} (hbin : w.isos.bins info.sha256 = some content) :
    ∃ files, (push info).exec (handler fileStore) w = (.ok (), { w with server := files }) ∧
      Shows files (s.push info content) := by
  have hput := (hw.setBin info.sha256 (some content)).setSidecar info.sha256 (some info)
  obtain ⟨files, hend, hshows⟩ := Shows.setNames (w := { w with
      server := Function.update (Function.update w.server (binPath info.sha256) (some ([], content)))
        (sidecarPath info.sha256) (some (sidecarBody info, [])) })
    (p := fun n => putName n info.sha256) (some info.sha256) info.names
    (fun n hn w => by rw [putName, if_pos (hinfo.names n hn)]; rfl) hput
  refine ⟨files, ?_, hshows⟩
  simp only [push, Prog.bind_eq_bind, Prog.exec_bind, exec_readBin, hbin, Option.elim_some,
    Prog.andThen_ok, exec_putFile]
  exact hend

/-- **A deletion takes the entry off the shelf.** -/
theorem exec_httpDelete (hw : Shows w.server s) (info : CacheEntryInfo) :
    ∃ files, (httpDelete info).exec (handler fileStore) w = (.ok (), { w with server := files }) ∧
      Shows files (s.drop info) := by
  obtain ⟨files, hend, hshows⟩ := Shows.setNames (p := fun n => deleteQuiet (namePath n)) none
    info.names (fun n _ w => exec_deleteQuiet (namePath n)) hw
  refine ⟨_, ?_, (hshows.setSidecar info.sha256 none).setBin info.sha256 none⟩
  simp only [httpDelete, Prog.bind_eq_bind, Prog.exec_bind, hend, Prog.andThen_ok, exec_deleteQuiet]
  rfl

/-- **Attaching a name** changes the sidecar and the pointer. -/
theorem exec_httpAddName (hw : Shows w.server s) (hs : s.Sound H) {n : String}
    (hn : validName n = true) (sha : String) :
    ∃ r files, (httpAddName H sha n).exec (handler fileStore) w = (r, { w with server := files }) ∧
      Shows files (s.alias sha n) := by
  rw [httpAddName, if_pos hn, Prog.bind_eq_bind, Prog.exec_bind, Prog.exec_attempt,
    exec_httpReadSidecar hw hs, Prog.andThen_ok, Shelf.read, Shelf.alias]
  cases hinfo : s.sidecars sha with
  | none => exact ⟨_, w.server, rfl, hw⟩
  | some info =>
    dsimp only [Option.elim_some]
    rw [Prog.bind_eq_bind, Prog.exec_bind, putAliased]
    by_cases hmem : n ∈ info.names
    · rw [if_pos hmem, if_pos hmem]
      refine ⟨.ok (), Function.update w.server (namePath n) (some (sha.toList, [])), ?_, ?_⟩
      · rw [putName, if_pos hn]
        rfl
      · have hsame : Function.update s.sidecars sha (some info) = s.sidecars := by
          rw [← hinfo, Function.update_eq_self]
        rw [hsame]
        exact hw.setName n (some sha)
    · rw [if_neg hmem, if_neg hmem]
      refine ⟨.ok (), _, ?_, (hw.setSidecar sha (some _)).setName n (some sha)⟩
      rw [putName, if_pos hn]
      rfl

theorem of_update_none {f : String → Option String} {n m sha : String}
    (h : Function.update f n none m = some sha) : f m = some sha := by
  by_cases hm : m = n
  · subst hm
    simp at h
  · rwa [Function.update_of_ne hm] at h

/-- **Dropping a name** changes the pointer and the sidecar it pointed to. -/
theorem exec_httpForgetName (hw : Shows w.server s) (hs : s.Sound H) (n : String) :
    ∃ r files, (httpForgetName H n).exec (handler fileStore) w = (r, { w with server := files }) ∧
      Shows files (s.unalias n) := by
  rw [httpForgetName, Prog.bind_eq_bind, Prog.exec_bind, Prog.exec_attempt, exec_resolveName hw hs,
    Prog.andThen_ok, Shelf.unalias]
  cases hsha : s.names n with
  | none => exact ⟨_, w.server, rfl, hw⟩
  | some sha =>
    have hstep := hw.setName n none
    have hsound : ({ s with names := Function.update s.names n none } : Shelf).Sound H :=
      ⟨hs.sha, hs.proper, hs.content, fun hm => hs.name (of_update_none hm)⟩
    dsimp only [Option.elim_some]
    simp only [Prog.bind_eq_bind]
    rw [Prog.exec_bind, exec_deleteQuiet, Prog.andThen_ok, Prog.exec_bind, Prog.exec_attempt,
      exec_httpReadSidecar (w := { w with server := Function.update w.server (namePath n) none })
        hstep hsound, Prog.andThen_ok, Shelf.read]
    cases hinfo : s.sidecars sha with
    | none => exact ⟨_, _, rfl, hstep⟩
    | some info =>
      refine ⟨.ok (), _, rfl, ?_⟩
      exact hstep.setSidecar sha (some { info with names := info.names.filter (· ≠ n) })

end Changes

end Cache

end TestRange
