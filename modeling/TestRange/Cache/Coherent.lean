/-
A full cache hit, and the build it came from.

The disks of a build are captured one at a time, each under a name of its own, and are
looked up one at a time.  A capture does not drop the names that an earlier, unfinished
capture of the same set has left on other contents.

* `Cache.resolveFullSet` — the lookup of a whole set;
* `Cache.Tiers.Attached` — a name is attached to a digest, on some tier;
* `Cache.Shares` — what one manager attaches another may come upon;
* `Cache.attached_effect` — only `add` and `add_name` attach names;
* `Cache.Tidy` — a capture comes upon no names of its set from another build;
* `Cache.full_set_coherent` — a full hit is one build, if every act was tidy.
-/
import TestRange.Cache.Fleet

namespace TestRange

namespace Cache

/-! ### Names of a set -/

/-- `built_artifact_name` -/
def builtArtifactName (configHash role : String) : String := "_built_" ++ configHash ++ "__" ++ role

/-- `data_disk_role` -/
def dataDiskRole (idx : ℕ) : String := "data" ++ toString idx

/-- `built_artifact_roles` -/
def builtArtifactRoles (numDataDisks : ℕ) : List String :=
  "os" :: (List.range numDataDisks).map dataDiskRole

/-- `resolve_full_set`: the content of each role, or nothing when one is missing. -/
def resolveFullSet (H : Host) (http : Bool) (configHash : String) (fetching : Bool) :
    List String → CacheProg (Option (List (String × String)))
  | [] => pure (some [])
  | role :: roles => do
    match ← (resolve H http (builtArtifactName configHash role) fetching).attempt with
    | .ok info =>
      let rest ← resolveFullSet H http configHash fetching roles
      pure (rest.map fun rest => if fetching then (role, info.sha256) :: rest else rest)
    | .error .miss => pure none
    | .error .cache => pure none
    | .error .other => throw .other

theorem builtArtifactName_ne_empty (configHash role : String) : builtArtifactName configHash role ≠ "" := by
  intro h
  have hlist := congrArg String.toList h
  simp [builtArtifactName, String.toList_append] at hlist

/-- No name of a set is taken for a digest. -/
theorem not_looksLikeSha_builtArtifactName (configHash role : String) :
    looksLikeSha (builtArtifactName configHash role) = false := by
  have hfirst : ∃ cs, (builtArtifactName configHash role).toList = '_' :: cs :=
    ⟨_, by simp only [builtArtifactName, String.toList_append]; rfl⟩
  obtain ⟨cs, hcs⟩ := hfirst
  have hmem : '_' ∈ chomp (builtArtifactName configHash role).toList := by
    rw [hcs, chomp]
    split_ifs with hlast
    · cases cs with
      | nil => simp at hlast
      | cons c cs => simp
    · simp
  have hall : (chomp (builtArtifactName configHash role).toList).all isHexChar = false := by
    rw [List.all_eq_false]
    exact ⟨'_', hmem, by decide⟩
  simp [looksLikeSha, matchesClass, hall]

/-! ### Attached names -/

/-- A local entry of the digest has the name, or the shelf has it on the sidecar of the
digest or as a pointer to it. -/
def Tiers.Attached (t : Tiers) (n sha : String) : Prop :=
  Holds t.isos sha n ∨ (∃ info, t.shelf.sidecars sha = some info ∧ n ∈ info.names) ∨
    t.shelf.names n = some sha

/-- The command attaches the name. -/
def Command.Attaches (H : Host) : Command → String → String → Prop
  | .add content _ name _, n, sha => name = some n ∧ sha = H.sha256 content
  | .addName _ newName, n, _ => n = newName
  | _, _, _ => False

section Attached

variable {H : Host} {http : Bool} {clock : String} {t : Tiers} {n sha : String}

theorem holds_put {c : Isos} {info : CacheEntryInfo} {bins : String → Option Bytes}
    (h : Holds ⟨c.sidecars.put info, bins⟩ sha n) :
    (sha = info.sha256 ∧ n ∈ info.names) ∨ Holds c sha n := by
  obtain ⟨e, he, hsha, hn⟩ := h
  rcases Keyed.mem_put.mp he with rfl | ⟨he, -⟩
  · exact .inl ⟨hsha.symm, hn⟩
  · exact .inr ⟨e, he, hsha, hn⟩

/-- What a push attaches is on the pushed entry. -/
theorem Tiers.Attached.of_push {s : Shelf} {info : CacheEntryInfo} {content : Bytes} {c : Isos}
    (h : Tiers.Attached ⟨c, s.push info content⟩ n sha) :
    (sha = info.sha256 ∧ n ∈ info.names) ∨ Tiers.Attached ⟨c, s⟩ n sha := by
  rcases h with h | ⟨info', hinfo', hn⟩ | h
  · exact .inr (.inl h)
  · by_cases hsha : sha = info.sha256
    · subst hsha
      simp only [Shelf.push, Function.update_self, Option.some.injEq] at hinfo'
      subst hinfo'
      exact .inl ⟨rfl, hn⟩
    · simp only [Shelf.push, Function.update_of_ne hsha] at hinfo'
      exact .inr (.inr (.inl ⟨info', hinfo', hn⟩))
  · simp only [Shelf.push] at h
    split_ifs at h with hn
    · cases h
      exact .inl ⟨rfl, hn⟩
    · exact .inr (.inr (.inr h))

/-- A deletion attaches nothing. -/
theorem Tiers.Attached.of_drop {s : Shelf} {info : CacheEntryInfo} {c : Isos}
    (h : Tiers.Attached ⟨c, s.drop info⟩ n sha) : Tiers.Attached ⟨c, s⟩ n sha := by
  rcases h with h | ⟨info', hinfo', hn⟩ | h
  · exact .inl h
  · by_cases hsha : sha = info.sha256
    · subst hsha
      simp [Shelf.drop] at hinfo'
    · simp only [Shelf.drop, Function.update_of_ne hsha] at hinfo'
      exact .inr (.inl ⟨info', hinfo', hn⟩)
  · simp only [Shelf.drop] at h
    split_ifs at h with hn
    exact .inr (.inr h)

/-- Attaching a name on the shelf attaches no other. -/
theorem Tiers.Attached.of_alias {s : Shelf} {sha' m : String} {c : Isos}
    (h : Tiers.Attached ⟨c, s.alias sha' m⟩ n sha) : n = m ∨ Tiers.Attached ⟨c, s⟩ n sha := by
  by_cases hnm : n = m
  · exact .inl hnm
  refine .inr ?_
  cases hinfo : s.sidecars sha' with
  | none =>
    rw [Shelf.alias, hinfo] at h
    exact h
  | some info =>
    rw [Shelf.alias, hinfo] at h
    rcases h with h | ⟨info', hinfo', hn⟩ | h
    · exact .inl h
    · by_cases hsha : sha = sha'
      · subst hsha
        simp only [Function.update_self, Option.some.injEq] at hinfo'
        subst hinfo'
        refine .inr (.inl ⟨info, hinfo, ?_⟩)
        split_ifs at hn
        · exact hn
        · rcases List.mem_append.mp hn with hn | hn
          · exact hn
          · exact absurd (List.mem_singleton.mp hn) hnm
      · simp only [Function.update_of_ne hsha] at hinfo'
        exact .inr (.inl ⟨info', hinfo', hn⟩)
    · simp only [Function.update_of_ne hnm] at h
      exact .inr (.inr h)

/-- Dropping a name on the shelf attaches nothing. -/
theorem Tiers.Attached.of_unalias {s : Shelf} {m : String} {c : Isos}
    (h : Tiers.Attached ⟨c, s.unalias m⟩ n sha) : Tiers.Attached ⟨c, s⟩ n sha := by
  cases hsha : s.names m with
  | none =>
    rw [Shelf.unalias, hsha] at h
    exact h
  | some sha' =>
    rw [Shelf.unalias, hsha] at h
    dsimp only at h
    rcases h with h | ⟨info', hinfo', hn⟩ | h
    · exact .inl h
    · dsimp only at hinfo'
      cases hinfo : s.sidecars sha' with
      | none =>
        rw [hinfo] at hinfo'
        exact .inr (.inl ⟨info', hinfo', hn⟩)
      | some info =>
        rw [hinfo] at hinfo'
        dsimp only at hinfo'
        by_cases heq : sha = sha'
        · subst heq
          simp only [Function.update_self, Option.some.injEq] at hinfo'
          subst hinfo'
          exact .inr (.inl ⟨info, hinfo, (List.mem_filter.mp hn).1⟩)
        · rw [Function.update_of_ne heq] at hinfo'
          exact .inr (.inl ⟨info', hinfo', hn⟩)
    · exact .inr (.inr (of_update_none h))

/-- A mirrored change of the shelf attaches what the change does. -/
theorem Tiers.Attached.of_mirror {f : Shelf → Shelf} (h : (t.mirror http f).Attached n sha) :
    t.Attached n sha ∨ Tiers.Attached ⟨t.isos, f t.shelf⟩ n sha := by
  cases http with
  | false => exact .inl h
  | true => exact .inr h

/-- Recording what the shelf has attaches what the shelf had attached. -/
theorem Tiers.Attached.of_bring (hs : t.shelf.Sound H) {identifier : String}
    (h : (t.bring identifier).Attached n sha) : t.Attached n sha := by
  unfold Tiers.bring at h
  cases hr : t.shelf.resolve identifier with
  | error e =>
    rw [hr] at h
    exact h
  | ok info =>
    rw [hr] at h
    dsimp only at h
    cases hm : merged t.isos info with
    | none =>
      rw [hm] at h
      exact h
    | some info' =>
      rw [hm] at h
      rcases h with h | h | h
      · rcases holds_put h with ⟨rfl, hn⟩ | h
        · rw [sha256_merged hm]
          rcases (mem_names_merged hm).mp hn with hn | hn
          · exact .inr (.inl ⟨info, hs.of_resolve hr, hn⟩)
          · exact .inl hn
        · exact .inl h
      · exact .inr (.inl h)
      · exact .inr (.inr h)

/-- **Only `add` and `add_name` attach names.** -/
theorem attached_effect (hs : t.shelf.Sound H) {cmd : Command}
    (h : (effect H http clock t cmd).Attached n sha) : t.Attached n sha ∨ cmd.Attaches H n sha := by
  cases cmd with
  | add content origin name description =>
    rw [effect] at h
    by_cases hname : name.any (!validName ·) = true
    · rw [if_pos hname] at h
      exact .inl h
    · rw [if_neg hname] at h
      dsimp only at h
      have hsha := sha256_added (c := t.isos) clock (H.sha256 content)
        (binSize (keepOr t.isos.bins (H.sha256 content) content) (H.sha256 content)) origin name description
      -- What is on the added entry was there, or is the name that was given.
      have hentry : n ∈ (added t.isos clock (H.sha256 content)
          (binSize (keepOr t.isos.bins (H.sha256 content) content) (H.sha256 content)) origin name
          description).names → sha = H.sha256 content →
          t.Attached n sha ∨ Command.Attaches H (.add content origin name description) n sha := by
        rintro hn rfl
        rcases (mem_names_added ..).mp hn with hn | hn
        · exact .inr ⟨hn, rfl⟩
        · exact .inl (.inl hn)
      have hlocal : Tiers.Attached ⟨⟨t.isos.sidecars.put (added t.isos clock (H.sha256 content)
          (binSize (keepOr t.isos.bins (H.sha256 content) content) (H.sha256 content)) origin name
          description), keepOr t.isos.bins (H.sha256 content) content⟩, t.shelf⟩ n sha →
          t.Attached n sha ∨ Command.Attaches H (.add content origin name description) n sha := by
        rintro (h | h | h)
        · rcases holds_put h with ⟨heq, hn⟩ | h
          · exact hentry hn (heq.trans hsha)
          · exact .inl (.inl h)
        · exact .inl (.inr (.inl h))
        · exact .inl (.inr (.inr h))
      rcases h.of_mirror with h | h
      · exact hlocal h
      · rcases h.of_push with ⟨heq, hn⟩ | h
        · exact hentry hn (heq.trans hsha)
        · exact hlocal h
  | delete identifier =>
    rw [effect] at h
    cases hr : t.isos.resolve identifier with
    | error e =>
      rw [hr] at h
      exact .inl h
    | ok info =>
      rw [hr] at h
      have hlocal : Tiers.Attached ⟨⟨t.isos.sidecars.erase info.sha256,
          Function.update t.isos.bins info.sha256 none⟩, t.shelf⟩ n sha → t.Attached n sha := by
        rintro (⟨e, he, hsha, hn⟩ | h)
        · exact .inl ⟨e, (Keyed.mem_erase.mp he).1, hsha, hn⟩
        · exact .inr h
      rcases h.of_mirror with h | h
      · exact .inl (hlocal h)
      · exact .inl (hlocal h.of_drop)
  | purge =>
    rcases h with ⟨e, he, hsha, hn⟩ | h
    · exact .inl (.inl ⟨e, (Isos.mem_without.mp he).1, hsha, hn⟩)
    · exact .inl (.inr h)
  | addName identifier m =>
    rw [effect] at h
    by_cases hvalid : validName m = true
    · rw [if_pos hvalid] at h
      cases hr : t.isos.resolve identifier with
      | error e =>
        rw [hr] at h
        exact .inl h
      | ok info =>
        rw [hr] at h
        dsimp only at h
        have hinfo := Isos.mem_of_resolve hr
        have halias : ∀ {c : Isos}, (Tiers.Attached ⟨c, t.shelf⟩ n sha → n = m ∨ t.Attached n sha) →
            ((⟨c, t.shelf⟩ : Tiers).mirror http (·.alias info.sha256 m)).Attached n sha →
            t.Attached n sha ∨ Command.Attaches H (.addName identifier m) n sha := by
          intro c hc h
          rcases h.of_mirror with h | h
          · exact (hc h).symm
          · rcases h.of_alias with rfl | h
            · exact .inr rfl
            · exact (hc h).symm
        split_ifs at h with hn hclash
        · exact halias .inr h
        · exact .inl h
        · refine halias ?_ h
          rintro (h | h)
          · rcases holds_put h with ⟨rfl, hn⟩ | h
            · rcases List.mem_append.mp hn with hn | hn
              · exact .inr (.inl ⟨info, hinfo, rfl, hn⟩)
              · exact .inl (List.mem_singleton.mp hn)
            · exact .inr (.inl h)
          · exact .inr (.inr h)
    · rw [if_neg hvalid] at h
      exact .inl h
  | forgetName m =>
    rw [effect] at h
    cases hfirst : t.isos.sidecars.first fun info => m ∈ info.names with
    | none =>
      rw [hfirst] at h
      exact .inl h
    | some info =>
      rw [hfirst] at h
      have hinfo := (Keyed.first_eq_some.mp hfirst).1
      have hlocal : Tiers.Attached ⟨⟨t.isos.sidecars.put { info with names := info.names.filter (· ≠ m) },
          t.isos.bins⟩, t.shelf⟩ n sha → t.Attached n sha := by
        rintro (h | h)
        · rcases holds_put h with ⟨rfl, hn⟩ | h
          · exact .inl ⟨info, hinfo, rfl, (List.mem_filter.mp hn).1⟩
          · exact .inl h
        · exact .inr h
      rcases h.of_mirror with h | h
      · exact .inl (hlocal h)
      · exact .inl (hlocal h.of_unalias)
  | resolve identifier fetching =>
    rw [effect] at h
    split at h
    · split_ifs at h
      · exact .inl (h.of_bring hs)
      · exact .inl h
    · exact .inl h
  | push identifier =>
    rw [effect] at h
    cases hr : t.isos.resolve identifier with
    | error e =>
      rw [hr] at h
      exact .inl h
    | ok info =>
      rw [hr] at h
      rcases h.of_mirror with h | h
      · exact .inl h
      · rcases h.of_push with ⟨rfl, hn⟩ | h
        · exact .inl (.inl ⟨info, Isos.mem_of_resolve hr, rfl, hn⟩)
        · exact .inl h
  | pull identifier =>
    rw [effect] at h
    split_ifs at h
    · exact .inl (h.of_bring hs)
    · exact .inl h

/-- Without a server a command sees and changes the local files only. -/
theorem effect_without (s : Shelf) (cmd : Command) :
    effect H false clock ⟨t.isos, s⟩ cmd = ⟨(effect H false clock t cmd).isos, s⟩ := by
  cases cmd with
  | add content origin name description =>
    simp only [effect]
    split_ifs <;> rfl
  | delete identifier =>
    simp only [effect]
    cases t.isos.resolve identifier <;> rfl
  | purge => rfl
  | addName identifier m =>
    simp only [effect]
    cases t.isos.resolve identifier with
    | error e => split_ifs <;> rfl
    | ok info =>
      dsimp only
      split_ifs <;> rfl
  | forgetName m =>
    simp only [effect]
    cases t.isos.sidecars.first fun info => m ∈ info.names <;> rfl
  | resolve identifier fetching =>
    simp only [effect]
    rcases t.isos.resolve identifier with (- | - | -) | info <;> rfl
  | push identifier =>
    simp only [effect]
    cases t.isos.resolve identifier <;> rfl
  | pull identifier => rfl

/-- The tiers as a manager sees them, with a server or without. -/
def Tiers.seen (t : Tiers) (http : Bool) : Tiers :=
  if http then t else ⟨t.isos, .empty⟩

theorem Shelf.sound_empty : Shelf.empty.Sound H := (Fleet.sound_empty (ι := Unit)).shelf

/-- So too of what a manager sees. -/
theorem attached_effect_seen (hs : t.shelf.Sound H) {cmd : Command}
    (h : ((effect H http clock t cmd).seen http).Attached n sha) :
    (t.seen http).Attached n sha ∨ cmd.Attaches H n sha := by
  cases http with
  | true => exact attached_effect hs h
  | false =>
    have hseen : (effect H false clock t cmd).seen false = effect H false clock (t.seen false) cmd :=
      (effect_without .empty cmd).symm
    rw [hseen] at h
    exact attached_effect Shelf.sound_empty h

end Attached

/-! ### Histories -/

section Sharing

variable {ι : Type} {server : ι → Prop} {i j k : ι}

/-- Two managers are one, or both have the server. -/
def Shares (server : ι → Prop) (i j : ι) : Prop := i = j ∨ server i ∧ server j

theorem Shares.symm (h : Shares server i j) : Shares server j i :=
  h.imp Eq.symm And.symm

theorem Shares.trans (hij : Shares server i j) (hjk : Shares server j k) : Shares server i k := by
  rcases hij with rfl | hij
  · exact hjk
  · rcases hjk with rfl | hjk
    · exact .inr hij
    · exact .inr ⟨hij.1, hjk.2⟩

theorem Shares.right (h : Shares server i j) (hi : server i) : server j := by
  rcases h with rfl | h
  · exact hi
  · exact h.2

/-- The name is attached to the digest where a manager may come upon it: on a local entry of its own
or of one that it shares the server with, on a sidecar of the server, or as a pointer there. -/
def Fleet.Attached (H : Host) (server : ι → Prop) (F : Fleet ι) (i : ι) (n sha : String) : Prop :=
  (∃ j, Shares server i j ∧ Holds (F.locals j) sha n) ∨
    server i ∧ ((∃ body info, F.files (sidecarPath sha) = some body ∧
      infoOfText H body.1 = .ok info ∧ n ∈ info.names) ∨
    ∃ body, F.files (namePath n) = some body ∧ body.1 = sha.toList)

theorem Fleet.Attached.shared {H : Host} {F : Fleet ι} {n sha : String}
    (h : F.Attached H server i n sha) (hij : Shares server i j) : F.Attached H server j n sha := by
  rcases h with ⟨k, hik, hk⟩ | ⟨hi, h⟩
  · exact .inl ⟨k, hij.symm.trans hik, hk⟩
  · exact .inr ⟨hij.right hi, h⟩

end Sharing

/-- What happens to the caches: a disk of a build run is captured, or any other command. -/
inductive Act (ι R : Type)
  /-- `_capture_disk` -/
  | capture (who : ι) (http : Bool) (clock : String) (run : R) (configHash role : String)
      (content : Bytes) (origin : String)
  | command (m : Move ι)

section Histories

variable {ι R : Type} [DecidableEq ι] {H : Host} {server : ι → Prop}

/-- The move of an act. -/
def Act.move : Act ι R → Move ι
  | .capture who http clock _ configHash role content origin =>
    ⟨who, http, .add content origin (some (builtArtifactName configHash role)) none, clock⟩
  | .command m => m

/-- The fleet after some acts. -/
def history (H : Host) (acts : List (Act ι R)) : Fleet ι := Fleet.after H (acts.map Act.move)

/-- A content was captured under a name from a build run. -/
def Captured (H : Host) (acts : List (Act ι R)) (run : R) (n sha : String) : Prop :=
  ∃ who http clock configHash role content origin,
    .capture who http clock run configHash role content origin ∈ acts ∧
      n = builtArtifactName configHash role ∧ sha = H.sha256 content

/-- Two names of one set. -/
def SameSet (n n' : String) : Prop :=
  ∃ configHash role role', n = builtArtifactName configHash role ∧ n' = builtArtifactName configHash role'

/-- A capture comes upon the names of its set only on contents of its own run; no other command
attaches a name of a set. -/
def Act.Tidy (H : Host) (server : ι → Prop) (done : List (Act ι R)) : Act ι R → Prop
  | .capture who _ _ run configHash role _ _ =>
    ∀ n sha, SameSet (builtArtifactName configHash role) n →
      (history H done).Attached H server who n sha → Captured H done run n sha
  | .command m => ∀ n sha, m.cmd.Attaches H n sha → ∀ configHash role, n ≠ builtArtifactName configHash role

/-- Every act was tidy when it came. -/
def Tidy (H : Host) (server : ι → Prop) (acts : List (Act ι R)) : Prop :=
  ∀ done a, done ++ [a] <+: acts → a.Tidy H server done

/-- Only managers that have the server use it. -/
def Served (server : ι → Prop) (acts : List (Act ι R)) : Prop :=
  ∀ a ∈ acts, a.move.http = true → server a.move.who

omit [DecidableEq ι] in
theorem Captured.concat {acts : List (Act ι R)} {run : R} {n sha : String}
    (h : Captured H acts run n sha) (a : Act ι R) : Captured H (acts ++ [a]) run n sha := by
  obtain ⟨who, http, clock, configHash, role, content, origin, hmem, hn, hsha⟩ := h
  exact ⟨who, http, clock, configHash, role, content, origin, List.mem_append_left _ hmem, hn, hsha⟩

omit [DecidableEq ι] in
/-- What is attached, read off from the shelf. -/
theorem Fleet.attached_iff {F : Fleet ι} {s : Shelf} (hF : F.Sound H s) {i : ι} {n sha : String} :
    F.Attached H server i n sha ↔ (∃ j, Shares server i j ∧ Holds (F.locals j) sha n) ∨
      server i ∧ ((∃ info, s.sidecars sha = some info ∧ n ∈ info.names) ∨ s.names n = some sha) := by
  -- The local parts are the same; a sidecar or pointer on the server is its text, decoded.
  refine or_congr_right (and_congr_right fun _ => or_congr ?_ ?_)
  · have hfile := hF.shows.sidecar sha
    constructor
    · rintro ⟨body, info, hbody, hinfo, hn⟩
      cases hs : s.sidecars sha with
      | none =>
        rw [hs, hbody] at hfile
        cases hfile
      | some e =>
        rw [hs, hbody] at hfile
        cases hfile
        rw [infoOfText_sidecarBody H (hF.shelf.proper hs).typed] at hinfo
        cases hinfo
        exact ⟨_, rfl, hn⟩
    · rintro ⟨info, hs, hn⟩
      rw [hs] at hfile
      exact ⟨_, info, hfile, infoOfText_sidecarBody H (hF.shelf.proper hs).typed, hn⟩
  · have hfile := hF.shows.name n
    constructor
    · rintro ⟨body, hbody, hsha⟩
      cases hs : s.names n with
      | none =>
        rw [hs, hbody] at hfile
        cases hfile
      | some sha' =>
        rw [hs, hbody] at hfile
        cases hfile
        rw [String.toList_injective hsha]
    · intro hs
      rw [hs] at hfile
      exact ⟨_, hfile, rfl⟩

omit [DecidableEq ι] in
/-- What a manager sees attached is attached. -/
theorem Fleet.Sound.attached {F : Fleet ι} {s : Shelf} (hF : F.Sound H s) {i : ι} {http : Bool}
    (hhttp : http = true → server i) {n sha : String}
    (h : (Tiers.seen ⟨F.locals i, s⟩ http).Attached n sha) : F.Attached H server i n sha := by
  rw [Fleet.attached_iff hF]
  cases http with
  | true => exact h.imp (fun h => ⟨i, .inl rfl, h⟩) fun h => ⟨hhttp rfl, h⟩
  | false =>
    rcases h with h | ⟨info, ⟨⟩, -⟩ | ⟨⟨⟩⟩
    exact .inl ⟨i, .inl rfl, h⟩

/-- A move attaches what its command attaches, for those who share with its manager. -/
theorem attached_move {F : Fleet ι} {s : Shelf} (hF : F.Sound H s) {m : Move ι}
    (hm : m.http = true → server m.who) {i : ι} {n sha : String}
    (h : (m.apply H F).Attached H server i n sha) :
    F.Attached H server i n sha ∨ Shares server i m.who ∧ m.cmd.Attaches H n sha := by
  have hcmd := exec_command (hF.depicts m.who m.clock) m.http m.cmd
  have hclock : (F.world m.who m.clock).clock = m.clock := rfl
  rw [hclock] at hcmd
  have hseen (hi : Shares server i m.who)
      (h : ((effect H m.http m.clock ⟨F.locals m.who, s⟩ m.cmd).seen m.http).Attached n sha) :
      F.Attached H server i n sha ∨ Shares server i m.who ∧ m.cmd.Attaches H n sha := by
    rcases attached_effect_seen hF.shelf h with h | h
    · exact .inl ((hF.attached hm h).shared hi.symm)
    · exact .inr ⟨hi, h⟩
  rcases (Fleet.attached_iff (hF.set hcmd)).mp h with ⟨j, hj, hholds⟩ | ⟨hi, hshelf⟩
  · -- It is on a local entry: of the manager that moved, or of another one.
    by_cases heq : j = m.who
    · subst heq
      simp only [Fleet.set, Function.update_self, hcmd.isos] at hholds
      refine hseen hj ?_
      unfold Tiers.seen
      split_ifs <;> exact .inl hholds
    · simp only [Fleet.set, Function.update_of_ne heq] at hholds
      exact .inl ((Fleet.attached_iff hF).mpr (.inl ⟨j, hj, hholds⟩))
  · -- It is on the server, which only a manager that has it changes.
    cases hhttp : m.http with
    | true =>
      refine hseen (.inr ⟨hi, hm hhttp⟩) ?_
      rw [hhttp] at hshelf ⊢
      exact .inr hshelf
    | false =>
      have hkeep : (effect H false m.clock ⟨F.locals m.who, s⟩ m.cmd).shelf = s :=
        congrArg Tiers.shelf (effect_without (t := ⟨F.locals m.who, s⟩) s m.cmd)
      rw [hhttp, hkeep] at hshelf
      exact .inl ((Fleet.attached_iff hF).mpr (.inr ⟨hi, hshelf⟩))

/-- What a manager may come upon under the names of a set comes from one build run. -/
def FromOneRun (H : Host) (server : ι → Prop) (acts : List (Act ι R)) : Prop :=
  ∀ i configHash,
    (∀ role sha, ¬ (history H acts).Attached H server i (builtArtifactName configHash role) sha) ∨
    ∃ run, ∀ role sha, (history H acts).Attached H server i (builtArtifactName configHash role) sha →
      Captured H acts run (builtArtifactName configHash role) sha

theorem history_concat (acts : List (Act ι R)) (a : Act ι R) :
    history H (acts ++ [a]) = a.move.apply H (history H acts) := by
  rw [history, List.map_append, List.map_singleton, Fleet.after_concat]
  rfl

theorem FromOneRun.step {acts : List (Act ι R)} (hacts : FromOneRun H server acts) {a : Act ι R}
    (hserved : a.move.http = true → server a.move.who) (ha : a.Tidy H server acts) :
    FromOneRun H server (acts ++ [a]) := by
  obtain ⟨s, hF⟩ := Fleet.sound_after (H := H) (acts.map Act.move)
  intro i configHash
  have hmove : ∀ {role sha},
      (history H (acts ++ [a])).Attached H server i (builtArtifactName configHash role) sha →
      (history H acts).Attached H server i (builtArtifactName configHash role) sha ∨
        Shares server i a.move.who ∧
          a.move.cmd.Attaches H (builtArtifactName configHash role) sha := by
    intro role sha h
    rw [history_concat] at h
    exact attached_move hF hserved h
  -- Where nothing new is attached, the run is the one it was.
  have hold (hkeep : ∀ {role sha},
      (history H (acts ++ [a])).Attached H server i (builtArtifactName configHash role) sha →
        (history H acts).Attached H server i (builtArtifactName configHash role) sha) :
      (∀ role sha, ¬ (history H (acts ++ [a])).Attached H server i
        (builtArtifactName configHash role) sha) ∨
      ∃ run, ∀ role sha, (history H (acts ++ [a])).Attached H server i
        (builtArtifactName configHash role) sha →
          Captured H (acts ++ [a]) run (builtArtifactName configHash role) sha := by
    rcases hacts i configHash with hnone | ⟨run, hrun⟩
    · exact .inl fun role sha h => hnone role sha (hkeep h)
    · exact .inr ⟨run, fun role sha h => (hrun role sha (hkeep h)).concat _⟩
  cases a with
  | capture who http clock run configHash' role' content origin =>
    by_cases hset : Shares server i who ∧
        ∃ role, builtArtifactName configHash' role' = builtArtifactName configHash role
    · -- A name of this set is captured: the run is the one that holds the set.
      obtain ⟨hshares, role₀, hrole₀⟩ := hset
      refine .inr ⟨run, fun role sha h => ?_⟩
      rcases hmove h with h | ⟨-, hname, rfl⟩
      · exact (ha _ sha ⟨configHash, role₀, role, hrole₀, rfl⟩ (h.shared hshares)).concat _
      · exact ⟨who, http, clock, configHash', role', content, origin, by simp,
          (Option.some.inj hname).symm, rfl⟩
    · refine hold fun h => ?_
      rcases hmove h with h | ⟨hshares, hname, -⟩
      · exact h
      · exact absurd ⟨hshares, _, Option.some.inj hname⟩ hset
  | command m =>
    refine hold fun h => ?_
    rcases hmove h with h | ⟨-, h⟩
    · exact h
    · exact absurd rfl (ha _ _ h configHash _)

theorem not_attached_nil (i : ι) (n sha : String) :
    ¬ (history H ([] : List (Act ι R))).Attached H server i n sha := by
  rintro (⟨j, -, e, he, -⟩ | ⟨-, ⟨body, info, ⟨⟩, -⟩ | ⟨body, ⟨⟩, -⟩⟩)
  exact absurd he Keyed.not_mem_empty

/-- After tidy acts, what a manager may come upon under the names of a set comes from one run. -/
theorem fromOneRun_of_tidy {acts : List (Act ι R)} (hserved : Served server acts)
    (h : Tidy H server acts) : FromOneRun H server acts := by
  induction acts using List.reverseRecOn with
  | nil => exact fun i configHash => .inl fun role sha => not_attached_nil i _ sha
  | append_singleton acts a ih =>
    have hbefore : Tidy H server acts :=
      fun done b hstart => h done b (hstart.trans (List.prefix_append acts [a]))
    have hfirst : Served server acts := fun b hb => hserved b (List.mem_append_left _ hb)
    exact (ih hfirst hbefore).step (hserved a (by simp)) (h acts a (List.prefix_refl _))

/-- What is attached was attached by an act of one that shares with the manager. -/
theorem attached_history {acts : List (Act ι R)} (hserved : Served server acts) {i : ι}
    {n sha : String} (h : (history H acts).Attached H server i n sha) :
    ∃ a ∈ acts, Shares server i a.move.who ∧ a.move.cmd.Attaches H n sha := by
  induction acts using List.reverseRecOn with
  | nil => exact absurd h (not_attached_nil i n sha)
  | append_singleton acts a ih =>
    obtain ⟨s, hF⟩ := Fleet.sound_after (H := H) (acts.map Act.move)
    have hfirst : Served server acts := fun b hb => hserved b (List.mem_append_left _ hb)
    rw [history_concat] at h
    rcases attached_move hF (hserved a (by simp)) h with h | h
    · obtain ⟨b, hb, hattaches⟩ := ih hfirst h
      exact ⟨b, List.mem_append_left _ hb, hattaches⟩
    · exact ⟨a, by simp, h⟩

/-! ### Looking up a set -/

/-- A lookup by a name of a set leaves the tiers as `resolve` does, and returns a content the
name is attached to. -/
theorem attached_resolve {w w' : World Files} {t : Tiers} (hw : Depicts H w t) {http : Bool}
    {configHash role : String} {e : CacheEntryInfo}
    (hend : (resolve H http (builtArtifactName configHash role) true).exec (handler fileStore) w =
      (.ok e, w')) :
    (t.seen http).Attached (builtArtifactName configHash role) e.sha256 := by
  have hne := builtArtifactName_ne_empty configHash role
  have hsha : ¬ looksLikeSha (builtArtifactName configHash role) = true := by
    rw [not_looksLikeSha_builtArtifactName]
    decide
  -- Either the local tier had it, or the server was asked.
  rcases exec_resolve_ok.mp hend with ⟨hr, -⟩ | ⟨-, rfl, info, w₁, hanswer, hfetch⟩
  · rw [hw.isos] at hr
    obtain ⟨he, hn, -⟩ := (Isos.resolve_name hne hsha).mp hr
    cases http <;> exact .inl ⟨e, he, rfl, hn⟩
  · -- The server answered with the entry its pointer names.
    rw [exec_httpResolve hw.shows hw.shelf_sound] at hanswer
    obtain ⟨hr, rfl⟩ := Prod.ext_iff.mp hanswer
    dsimp only at hr
    obtain ⟨-, -, -, -, hm, -⟩ := exec_fetchAndMaterialize_ok.mp hfetch
    rw [sha256_merged hm]
    have hfull : ¬ fullSha (builtArtifactName configHash role) = true := by
      simp [fullSha, not_looksLikeSha_builtArtifactName]
    rw [Shelf.resolve, if_neg hne, if_neg hfull] at hr
    cases hname : t.shelf.names (builtArtifactName configHash role) with
    | none =>
      rw [hname] at hr
      cases hr
    | some sha =>
      rw [hname, Option.elim_some, Shelf.read] at hr
      cases hinfo : t.shelf.sidecars sha with
      | none =>
        rw [hinfo] at hr
        cases hr
      | some info' =>
        rw [hinfo] at hr
        cases hr
        rw [hw.shelf_sound.sha hinfo]
        exact .inr (.inr hname)

/-- Every content a lookup of a set returns was attached to the name of its role. -/
theorem attached_resolveFullSet {w w' : World Files} {t : Tiers} (hw : Depicts H w t) {http : Bool}
    {configHash : String} {roles : List String} {paths : List (String × String)}
    (hend : (resolveFullSet H http configHash true roles).exec (handler fileStore) w =
      (.ok (some paths), w')) :
    paths.map (·.1) = roles ∧
      ∀ p ∈ paths, (t.seen http).Attached (builtArtifactName configHash p.1) p.2 := by
  -- By induction on the roles: what a later one fetches attaches no name.
  induction roles generalizing w t paths with
  | nil =>
    cases hend
    exact ⟨rfl, by simp⟩
  | cons role roles ih =>
    simp only [resolveFullSet, Prog.bind_eq_bind, Prog.exec_bind, Prog.exec_attempt,
      Prog.andThen_ok] at hend
    have hstep := exec_command hw http (.resolve (builtArtifactName configHash role) true)
    rw [Command.prog, isos_discard] at hstep
    rcases hr : (resolve H http (builtArtifactName configHash role) true).exec (handler fileStore) w with
      ⟨err | info, w₁⟩
    · rw [hr] at hend
      cases err <;> cases hend
    · rw [hr] at hend hstep
      dsimp only at hend hstep
      rw [Prog.exec_bind] at hend
      rcases hrest : (resolveFullSet H http configHash true roles).exec (handler fileStore) w₁ with
        ⟨err | rest, w₂⟩
      · rw [hrest] at hend
        cases hend
      · rw [hrest, Prog.andThen_ok] at hend
        cases rest with
        | none => cases hend
        | some rest =>
          cases hend
          obtain ⟨hroles, hall⟩ := ih hstep hrest
          refine ⟨by simp [hroles], fun p hp => ?_⟩
          rcases List.mem_cons.mp hp with rfl | hp
          · exact attached_resolve hw hr
          · rcases attached_effect_seen hw.shelf_sound (hall p hp) with h | h
            · exact h
            · exact absurd h not_false

/-- **A full hit is one build**, after any history whose acts were tidy: every role is there,
and all contents were captured from one run. -/
theorem full_set_coherent (H : Host) {acts : List (Act ι R)} (hserved : Served server acts)
    (htidy : Tidy H server acts) (i : ι) (http : Bool) (hhttp : http = true → server i)
    (clock configHash : String) (roles : List String) (paths : List (String × String))
    {w' : World Files} (hroles : roles ≠ [])
    (hend : (resolveFullSet H http configHash true roles).exec (handler fileStore)
      ((history H acts).world i clock) = (.ok (some paths), w')) :
    paths.map (·.1) = roles ∧
      ∃ run, ∀ p ∈ paths, Captured H acts run (builtArtifactName configHash p.1) p.2 := by
  obtain ⟨s, hF⟩ := Fleet.sound_after (H := H) (acts.map Act.move)
  obtain ⟨hmap, hall⟩ := attached_resolveFullSet (hF.depicts i clock) hend
  refine ⟨hmap, ?_⟩
  rcases fromOneRun_of_tidy hserved htidy i configHash with hnone | ⟨run, hrun⟩
  · -- Something was found, so something was attached.
    obtain ⟨p, hp⟩ := List.exists_mem_of_ne_nil paths (by rintro rfl; exact hroles hmap.symm)
    exact absurd (hF.attached hhttp (hall p hp)) (hnone p.1 p.2)
  · exact ⟨run, fun p hp => hrun p.1 p.2 (hF.attached hhttp (hall p hp))⟩

end Histories

/-! ### Two builds of one set -/

namespace Letters

/-- The key of a set. -/
def key : String := "0123456789abcdef"

/-- A build captures its OS disk and fails; a second build captures both disks. -/
def torn : List (Act Unit ℕ) :=
  [.capture () false "" 1 key "os" [98] "disk", .capture () false "" 2 key "os" [97] "disk",
    .capture () false "" 2 key "data0" [99] "disk"]

theorem captured_torn_os {run : ℕ} (h : Captured host torn run (builtArtifactName key "os") shaB) :
    run = 1 := by
  obtain ⟨who, http, clock, configHash, role, content, origin, hmem, hname, hsha⟩ := h
  simp only [torn, List.mem_cons, List.not_mem_nil, or_false, Act.capture.injEq] at hmem
  rcases hmem with ⟨-, -, -, rfl, -⟩ | ⟨-, -, -, -, -, -, rfl, -⟩ | ⟨-, -, -, -, rfl, rfl, -⟩
  · rfl
  · exact absurd hsha (by decide)
  · exact absurd hname (by decide)

theorem captured_torn_data0 {run : ℕ} (h : Captured host torn run (builtArtifactName key "data0") shaC) :
    run = 2 := by
  obtain ⟨who, http, clock, configHash, role, content, origin, hmem, hname, hsha⟩ := h
  simp only [torn, List.mem_cons, List.not_mem_nil, or_false, Act.capture.injEq] at hmem
  rcases hmem with ⟨-, -, -, -, rfl, rfl, -⟩ | ⟨-, -, -, -, rfl, rfl, -⟩ | ⟨-, -, -, rfl, -⟩
  · exact absurd hname (by decide)
  · exact absurd hname (by decide)
  · rfl

/-- The set then has the OS disk of the first build and the data disk of the second. -/
theorem full_set_torn : ¬ ∀ (acts : List (Act Unit ℕ)) (paths : List (String × String)) (w' : World Files),
    (resolveFullSet host false key true (builtArtifactRoles 1)).exec (handler fileStore)
      ((history host acts).world () "") = (.ok (some paths), w') →
    ∃ run, ∀ p ∈ paths, Captured host acts run (builtArtifactName key p.1) p.2 := by
  intro h
  have hfound : ((resolveFullSet host false key true (builtArtifactRoles 1)).exec (handler fileStore)
      ((history host torn).world () "")).1 = .ok (some [("os", shaB), ("data0", shaC)]) := rfl
  obtain ⟨run, hrun⟩ := h torn _ _ (Prod.ext hfound rfl)
  have hos := captured_torn_os (hrun ("os", shaB) (by simp))
  have hdata := captured_torn_data0 (hrun ("data0", shaC) (by simp))
  omega

/-- On one machine a build captures its OS disk and fails; on another, which has no server either, a
build captures both disks. -/
def apart : List (Act Bool ℕ) :=
  [.capture false false "" 1 key "os" [98] "disk", .capture true false "" 2 key "os" [97] "disk",
    .capture true false "" 2 key "data0" [99] "disk"]

/-- There is one build run on each machine. -/
theorem capture_of_mem_apart {a : Act Bool ℕ} (ha : a ∈ apart) :
    ∃ who role content,
      a = .capture who false "" (if who then 2 else 1) key role content "disk" := by
  simp only [apart, List.mem_cons, List.not_mem_nil, or_false] at ha
  rcases ha with rfl | rfl | rfl
  · exact ⟨_, _, _, rfl⟩
  · exact ⟨_, _, _, rfl⟩
  · exact ⟨_, _, _, rfl⟩

theorem served_apart : Served (fun _ => False) apart := by
  intro a ha hhttp
  obtain ⟨who, role, content, rfl⟩ := capture_of_mem_apart ha
  cases hhttp

theorem tidy_apart : Tidy host (fun _ => False) apart := by
  intro done a hstart
  have hsub : ∀ b ∈ done, b ∈ apart := fun b hb => hstart.subset (List.mem_append_left _ hb)
  obtain ⟨who, role, content, rfl⟩ := capture_of_mem_apart
    (hstart.subset (List.mem_append_right done (List.mem_singleton_self a)))
  intro n sha _ h
  obtain ⟨b, hb, hshares, hattaches⟩ :=
    attached_history (fun b hb => served_apart b (hsub b hb)) h
  obtain ⟨who', role', content', rfl⟩ := capture_of_mem_apart (hsub b hb)
  obtain rfl : who = who' := hshares.resolve_right fun h => h.1
  exact ⟨who, false, "", key, role', content', "disk", hb, (Option.some.inj hattaches.1).symm,
    hattaches.2⟩

/-- The set is found where it is, and is one build. -/
theorem full_set_apart : ∃ run, ∀ p ∈ [("os", shaA), ("data0", shaC)],
    Captured host apart run (builtArtifactName key p.1) p.2 :=
  (full_set_coherent host served_apart tidy_apart true false (by decide) "" key
    (builtArtifactRoles 1) [("os", shaA), ("data0", shaC)] (by decide) (Prod.ext rfl rfl)).2

end Letters

end Cache

end TestRange
