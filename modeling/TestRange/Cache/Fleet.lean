/-
Several managers that share one honest server.

Each manager has a local cache of its own; all of them mirror to one file store.  A command
of a manager is a function of its local files and of the shelf the server shows, and that is
how everything about both tiers is proved.

* `Cache.effect` — what a command does to the local files and to the shelf;
* `Cache.exec_command` — the program of a command does that;
* `Cache.Fleet`, `Cache.Fleet.after` — the managers and their server, after some moves;
* `Cache.Fleet.sound_after` — entries and pointers are well formed after any moves.
-/
import TestRange.Cache.Shelf

namespace TestRange

namespace Cache

/-! ### What a command does -/

/-- The local files of a manager, and what the server shows. -/
structure Tiers where
  isos : Isos
  shelf : Shelf

/-- Change the shelf, where there is an HTTP tier. -/
def Tiers.mirror (t : Tiers) (http : Bool) (f : Shelf → Shelf) : Tiers :=
  if http then { t with shelf := f t.shelf } else t

/-- Record what the shelf has for an identifier. -/
def Tiers.bring (t : Tiers) (identifier : String) : Tiers :=
  match t.shelf.resolve identifier with
  | .ok info =>
    match merged t.isos info with
    | some info' =>
      { t with isos := ⟨t.isos.sidecars.put info',
        Function.update t.isos.bins info.sha256 (t.shelf.bins info.sha256)⟩ }
    | none => t
  | .error _ => t

/-- What a command does to both tiers. -/
def effect (H : Host) (http : Bool) (clock : String) (t : Tiers) : Command → Tiers
  | .add content origin name description =>
    if name.any (!validName ·) then t
    else
      let sha := H.sha256 content
      let bins := keepOr t.isos.bins sha content
      let info := added t.isos clock sha (binSize bins sha) origin name description
      { t with isos := ⟨t.isos.sidecars.put info, bins⟩ }.mirror http
        (·.push info ((bins sha).getD []))
  | .delete identifier =>
    match t.isos.resolve identifier with
    | .ok info =>
      { t with isos := ⟨t.isos.sidecars.erase info.sha256,
        Function.update t.isos.bins info.sha256 none⟩ }.mirror http (·.drop info)
    | .error _ => t
  | .purge => { t with isos := t.isos.without t.isos.sidecars.items }
  | .addName identifier n =>
    if validName n then
      match t.isos.resolve identifier with
      | .ok info =>
        if n ∈ info.names then t.mirror http (·.alias info.sha256 n)
        else if (t.isos.sidecars.first fun info => n ∈ info.names).any (·.sha256 ≠ info.sha256) then t
        else { t with isos := ⟨t.isos.sidecars.put (aliased info n none), t.isos.bins⟩ }.mirror http
          (·.alias info.sha256 n)
      | .error _ => t
    else t
  | .forgetName n =>
    match t.isos.sidecars.first fun info => n ∈ info.names with
    | none => t
    | some info =>
      { t with isos := ⟨t.isos.sidecars.put { info with names := info.names.filter (· ≠ n) },
        t.isos.bins⟩ }.mirror http (·.unalias n)
  | .resolve identifier fetching =>
    match t.isos.resolve identifier with
    | .error .miss => if http && fetching then t.bring identifier else t
    | _ => t
  | .push identifier =>
    match t.isos.resolve identifier with
    | .ok info => t.mirror http (·.push info ((t.isos.bins info.sha256).getD []))
    | .error _ => t
  | .pull identifier => if http then t.bring identifier else t

/-! ### Well-formed tiers -/

/-- The local files are intact, and their entries may be put on a shelf. -/
structure Isos.Sound (H : Host) (c : Isos) : Prop where
  intact : Intact H c
  proper : ∀ e ∈ c.sidecars, Proper e

theorem Isos.Sound.isSha {H : Host} {c : Isos} (hc : c.Sound H) {e : CacheEntryInfo}
    (he : e ∈ c.sidecars) : IsSha e.sha256 := by
  obtain ⟨b, hb⟩ := hc.intact.present e he
  rw [← hc.intact.hashes hb]
  exact H.isSha b

section Shelves

variable {H : Host} {s : Shelf}

theorem Shelf.Sound.push (hs : s.Sound H) {info : CacheEntryInfo} (hinfo : Proper info)
    (hsha : IsSha info.sha256) {content : Bytes} (hhash : H.sha256 content = info.sha256) :
    (s.push info content).Sound H := by
  have hcases : ∀ {sha info'}, (s.push info content).sidecars sha = some info' →
      (sha = info.sha256 ∧ info' = info) ∨ (sha ≠ info.sha256 ∧ s.sidecars sha = some info') := by
    intro sha info' h
    by_cases hne : sha = info.sha256
    · subst hne
      rw [Shelf.push] at h
      simp only [Function.update_self, Option.some.injEq] at h
      exact .inl ⟨rfl, h.symm⟩
    · rw [Shelf.push] at h
      simp only [Function.update_of_ne hne] at h
      exact .inr ⟨hne, h⟩
  refine ⟨fun h => ?_, fun h => ?_, fun h => ?_, fun {n sha} h => ?_⟩
  · rcases hcases h with ⟨rfl, rfl⟩ | ⟨-, h⟩
    · rfl
    · exact hs.sha h
  · rcases hcases h with ⟨rfl, rfl⟩ | ⟨-, h⟩
    · exact hinfo
    · exact hs.proper h
  · rcases hcases h with ⟨rfl, rfl⟩ | ⟨hne, h⟩
    · exact ⟨content, Function.update_self .., hhash⟩
    · obtain ⟨b, hb, hb'⟩ := hs.content h
      exact ⟨b, (Function.update_of_ne hne ..).trans hb, hb'⟩
  · simp only [Shelf.push] at h
    split_ifs at h with hn
    · cases h
      exact hsha
    · exact hs.name h

theorem Shelf.Sound.drop (hs : s.Sound H) (info : CacheEntryInfo) : (s.drop info).Sound H := by
  have hcases : ∀ {sha info'}, (s.drop info).sidecars sha = some info' →
      sha ≠ info.sha256 ∧ s.sidecars sha = some info' := by
    intro sha info' h
    rw [Shelf.drop] at h
    by_cases hne : sha = info.sha256
    · subst hne
      simp at h
    · simp only [Function.update_of_ne hne] at h
      exact ⟨hne, h⟩
  refine ⟨fun h => hs.sha (hcases h).2, fun h => hs.proper (hcases h).2, fun h => ?_, fun {n sha} h => ?_⟩
  · obtain ⟨hne, h⟩ := hcases h
    obtain ⟨b, hb, hb'⟩ := hs.content h
    exact ⟨b, (Function.update_of_ne hne ..).trans hb, hb'⟩
  · simp only [Shelf.drop] at h
    split_ifs at h with hn
    exact hs.name h

/-- Replacing the names of a sidecar keeps the shelf well formed. -/
theorem Shelf.Sound.rename (hs : s.Sound H) {sha : String} {info : CacheEntryInfo}
    (info' : CacheEntryInfo) (hinfo : s.sidecars sha = some info) (hsha : info'.sha256 = info.sha256) (hproper : Proper info')
    {names : String → Option String} (hnames : ∀ {n sha}, names n = some sha → IsSha sha) :
    (⟨s.bins, Function.update s.sidecars sha (some info'), names⟩ : Shelf).Sound H := by
  have hcases : ∀ {t e}, Function.update s.sidecars sha (some info') t = some e →
      (t = sha ∧ e = info') ∨ s.sidecars t = some e := by
    intro t e h
    by_cases ht : t = sha
    · subst ht
      simp only [Function.update_self, Option.some.injEq] at h
      exact .inl ⟨rfl, h.symm⟩
    · rw [Function.update_of_ne ht] at h
      exact .inr h
  refine ⟨fun h => ?_, fun h => ?_, fun h => ?_, hnames⟩
  · rcases hcases h with ⟨rfl, rfl⟩ | h
    · exact hsha.trans (hs.sha hinfo)
    · exact hs.sha h
  · rcases hcases h with ⟨rfl, rfl⟩ | h
    · exact hproper
    · exact hs.proper h
  · rcases hcases h with ⟨rfl, rfl⟩ | h
    · exact hs.content hinfo
    · exact hs.content h

theorem Proper.concat {info : CacheEntryInfo} (h : Proper info) {n : String} (hn : validName n = true) :
    Proper { info with names := info.names ++ [n] } := by
  refine ⟨⟨h.typed.others, h.typed.origin, h.typed.addedAt, h.typed.description⟩, fun m hm => ?_⟩
  rcases List.mem_append.mp hm with hm | hm
  · exact h.names m hm
  · rwa [List.mem_singleton.mp hm]

theorem Proper.filter {info : CacheEntryInfo} (h : Proper info) (n : String) :
    Proper { info with names := info.names.filter (· ≠ n) } :=
  ⟨⟨h.typed.others, h.typed.origin, h.typed.addedAt, h.typed.description⟩,
    fun m hm => h.names m (List.mem_filter.mp hm).1⟩

theorem Shelf.Sound.alias (hs : s.Sound H) {sha n : String} (hsha : IsSha sha)
    (hn : validName n = true) : (s.alias sha n).Sound H := by
  unfold Shelf.alias
  cases hinfo : s.sidecars sha with
  | none => exact hs
  | some info =>
    have hproper := hs.proper hinfo
    refine hs.rename _ hinfo ?_ ?_ fun {m t} h => ?_
    · split_ifs <;> rfl
    · split_ifs
      · exact hproper
      · exact hproper.concat hn
    · by_cases hm : m = n
      · subst hm
        simp only [Function.update_self, Option.some.injEq] at h
        exact h ▸ hsha
      · rw [Function.update_of_ne hm] at h
        exact hs.name h

theorem Shelf.Sound.unalias (hs : s.Sound H) (n : String) : (s.unalias n).Sound H := by
  unfold Shelf.unalias
  cases hsha : s.names n with
  | none => exact hs
  | some sha =>
    dsimp only
    cases hinfo : s.sidecars sha with
    | none => exact ⟨hs.sha, hs.proper, hs.content, fun h => hs.name (of_update_none h)⟩
    | some info =>
      exact hs.rename { info with names := info.names.filter (· ≠ n) } hinfo rfl
        ((hs.proper hinfo).filter n) fun h => hs.name (of_update_none h)

/-- What a lookup on the shelf finds. -/
theorem Shelf.Sound.of_resolve (hs : s.Sound H) {identifier : String} {info : CacheEntryInfo}
    (h : s.resolve identifier = .ok info) : s.sidecars info.sha256 = some info := by
  have hread : ∀ {sha}, s.read sha = .ok info → s.sidecars info.sha256 = some info := by
    intro sha hread
    unfold Shelf.read at hread
    cases hsha : s.sidecars sha with
    | none =>
      rw [hsha] at hread
      cases hread
    | some e =>
      rw [hsha] at hread
      cases hread
      rwa [hs.sha hsha]
  unfold Shelf.resolve at h
  split_ifs at h
  · exact hread h
  · cases hn : s.names identifier with
    | none =>
      rw [hn] at h
      cases h
    | some sha =>
      rw [hn] at h
      exact hread h

end Shelves

/-! ### Local entries -/

section Entries

variable {H : Host} {c : Isos}

theorem Proper.aliased {info : CacheEntryInfo} (h : Proper info) {n : String} (hn : validName n = true)
    (description : Option String) : Proper (aliased info n description) := by
  have hnames := (h.concat hn).names
  refine ⟨⟨h.typed.others, h.typed.origin, h.typed.addedAt, ?_⟩, hnames⟩
  cases description with
  | none => exact h.typed.description
  | some text => exact .inr ⟨text, rfl⟩

theorem Isos.Sound.added (hc : c.Sound H) {name : Option String} (hname : ¬ name.any (!validName ·))
    (clock sha : String) (size : ℕ) (origin : String) (description : Option String) :
    Proper (added c clock sha size origin name description) := by
  have hvalid : ∀ n, name = some n → validName n = true := by
    rintro n rfl
    simpa using hname
  unfold Cache.added
  cases hfind : c.sidecars.find sha with
  | none =>
    refine ⟨⟨rfl, .inr ⟨_, rfl⟩, .inr ⟨_, rfl⟩, ?_⟩, fun n hn => hvalid n (by simpa using hn)⟩
    cases description with
    | none => exact .inl rfl
    | some text => exact .inr ⟨text, rfl⟩
  | some info =>
    have hinfo := hc.proper info (Keyed.find_eq_some.mp hfind).1
    cases name with
    | none => exact hinfo
    | some n =>
      dsimp only
      split_ifs
      · exact hinfo
      · exact hinfo.aliased (hvalid n rfl) description

/-- A well-formed entry can be recorded, and stays well formed. -/
theorem Isos.Sound.merged (hc : c.Sound H) {info : CacheEntryInfo} (hinfo : Proper info) :
    ∃ info', merged c info = some info' ∧ Proper info' := by
  unfold Cache.merged
  cases hfind : c.sidecars.find info.sha256 with
  | none => exact ⟨info, rfl, hinfo⟩
  | some existing =>
    have hexisting := hc.proper existing (Keyed.find_eq_some.mp hfind).1
    have hnone : existing.others ++ info.others = [] := by
      rw [hexisting.typed.others, hinfo.typed.others, List.append_nil]
    dsimp only
    rw [hnone, if_pos List.all_nil]
    refine ⟨_, rfl, ⟨rfl, hexisting.typed.origin, hexisting.typed.addedAt, hexisting.typed.description⟩,
      fun n hn => ?_⟩
    rcases List.mem_append.mp (mem_fromKeys.mp hn) with hn | hn
    · exact hexisting.names n hn
    · exact hinfo.names n hn

theorem Isos.Sound.put (hc : c.Sound H) {info : CacheEntryInfo} (hinfo : Proper info)
    {bins : String → Option Bytes} (hintact : Intact H ⟨c.sidecars.put info, bins⟩) :
    Isos.Sound H ⟨c.sidecars.put info, bins⟩ := by
  refine ⟨hintact, fun e he => ?_⟩
  rcases Keyed.mem_put.mp he with rfl | ⟨he, -⟩
  · exact hinfo
  · exact hc.proper e he

end Entries

/-! ### The program of a command -/

section Programs

variable {H : Host} {w : World Files} {s : Shelf} {http : Bool}

/-- The world shows two well-formed tiers. -/
structure Depicts (H : Host) (w : World Files) (t : Tiers) : Prop where
  isos : w.isos = t.isos
  shows : Shows w.server t.shelf
  local_sound : t.isos.Sound H
  shelf_sound : t.shelf.Sound H

/-- A mirrored change of the shelf. -/
theorem Depicts.mirror {t : Tiers} (hw : Depicts H w t) {body : CacheProg Unit} {f : Shelf → Shelf}
    (hbody : ∃ r files, body.exec (handler fileStore) w = (r, { w with server := files }) ∧
      Shows files (f t.shelf)) (hsound : (f t.shelf).Sound H) :
    Depicts H ((Cache.mirror http body).exec (handler fileStore) w).2 (t.mirror http f) := by
  cases http with
  | false => exact hw
  | true =>
    obtain ⟨r, files, hend, hshows⟩ := hbody
    rw [Cache.mirror, if_pos rfl, Prog.exec_ignore, hend]
    exact ⟨hw.isos, hshows, hw.local_sound, hsound⟩

/-- The world that a mirrored method leaves. -/
theorem exec_mirrored {p : CacheProg CacheEntryInfo} {f : CacheEntryInfo → CacheProg Unit}
    {info : CacheEntryInfo} {w' : World Files} (hp : p.exec (handler fileStore) w = (.ok info, w')) :
    ((discard (do let a ← p; Cache.mirror http (f a); pure a)).exec (handler fileStore) w).2 =
      ((Cache.mirror http (f info)).exec (handler fileStore) w').2 := by
  rw [isos_discard]
  simp only [Prog.bind_eq_bind, Prog.exec_bind, hp, Prog.andThen_ok]
  rcases (Cache.mirror http (f info)).exec (handler fileStore) w' with ⟨e | a, w''⟩ <;> rfl

/-- A mirrored method that raises leaves the world it raised in. -/
theorem exec_mirrored_error {p : CacheProg CacheEntryInfo} {f : CacheEntryInfo → CacheProg Unit}
    {e : CacheErr} {w' : World Files} (hp : p.exec (handler fileStore) w = (.error e, w')) :
    ((discard (do let a ← p; Cache.mirror http (f a); pure a)).exec (handler fileStore) w).2 = w' := by
  rw [isos_discard]
  simp only [Prog.bind_eq_bind, Prog.exec_bind, hp, Prog.andThen_error]

/-- A change of the local files. -/
theorem Depicts.local {t : Tiers} (hw : Depicts H w t) {c : Isos} (hc : c.Sound H) :
    Depicts H { w with isos := c } { t with isos := c } :=
  ⟨rfl, hw.shows, hc, hw.shelf_sound⟩

theorem Depicts.add {t : Tiers} (hw : Depicts H w t) (content : Bytes) (origin : String)
    (name description : Option String) :
    Depicts H (((Command.add content origin name description).prog H http).exec (handler fileStore) w).2
      (effect H http w.clock t (.add content origin name description)) := by
  rw [Command.prog, managerAdd, effect]
  by_cases hname : name.any (!validName ·) = true
  · rw [exec_mirrored_error (exec_add_of_invalid H hname content origin description), if_pos hname]
    exact hw
  · rw [exec_mirrored (exec_add fileStore w H hname content origin description), if_neg hname, hw.isos]
    dsimp only
    have hproper := hw.local_sound.added hname w.clock (H.sha256 content)
      (binSize (keepOr t.isos.bins (H.sha256 content) content) (H.sha256 content)) origin description
    have hsha := sha256_added (c := t.isos) w.clock (H.sha256 content)
      (binSize (keepOr t.isos.bins (H.sha256 content) content) (H.sha256 content)) origin name description
    have hintact := hw.local_sound.intact.change (.add content hname w.clock
      (binSize (keepOr t.isos.bins (H.sha256 content) content) (H.sha256 content)) origin description)
    obtain ⟨b, hb⟩ := keepOr_isSome t.isos.bins (H.sha256 content) content
    have hw' := hw.local (hw.local_sound.put hproper hintact)
    have hdigest : IsSha (H.sha256 content) := H.isSha content
    have hhash : H.sha256 b = H.sha256 content := hintact.hashes hb
    rw [← hsha] at hdigest hhash
    obtain ⟨files, hend, hshows⟩ := exec_push hw'.shows hproper (show keepOr t.isos.bins _ _ _ = some b by
      rw [hsha]; exact hb)
    rw [hb]
    exact hw'.mirror ⟨_, files, hend, hshows⟩ (hw.shelf_sound.push hproper hdigest hhash)

theorem Depicts.delete {t : Tiers} (hw : Depicts H w t) (identifier : String) :
    Depicts H (((Command.delete identifier).prog H http).exec (handler fileStore) w).2
      (effect H http w.clock t (.delete identifier)) := by
  have hexec : (deleteLocal identifier).exec (handler fileStore) w = _ := exec_deleteLocal identifier
  rw [Command.prog, Cache.delete, effect]
  rw [hw.isos] at hexec
  cases hr : t.isos.resolve identifier with
  | error e =>
    rw [hr] at hexec
    rw [exec_mirrored_error hexec]
    exact hw
  | ok info =>
    rw [hr] at hexec
    rw [exec_mirrored hexec]
    have hintact := hw.local_sound.intact.change (.delete (Isos.mem_of_resolve hr))
    have hsound : Isos.Sound H ⟨t.isos.sidecars.erase info.sha256,
        Function.update t.isos.bins info.sha256 none⟩ :=
      ⟨hintact, fun e he => hw.local_sound.proper e (Keyed.mem_erase.mp he).1⟩
    have hw' := hw.local hsound
    obtain ⟨files, hend, hshows⟩ := exec_httpDelete hw'.shows info
    exact hw'.mirror ⟨_, files, hend, hshows⟩ (hw.shelf_sound.drop info)

theorem Depicts.purge {t : Tiers} (hw : Depicts H w t) :
    Depicts H ((Command.purge.prog H http).exec (handler fileStore) w).2
      (effect H http w.clock t .purge) := by
  rw [Command.prog, isos_discard, exec_purge, effect, hw.isos]
  refine hw.local ⟨hw.local_sound.intact.change .purge, fun e he => ?_⟩
  exact hw.local_sound.proper e (Isos.mem_without.mp he).1

theorem Depicts.addName {t : Tiers} (hw : Depicts H w t) (identifier n : String) :
    Depicts H (((Command.addName identifier n).prog H http).exec (handler fileStore) w).2
      (effect H http w.clock t (.addName identifier n)) := by
  have hexec : (addNameLocal identifier n).exec (handler fileStore) w = _ := exec_addNameLocal identifier n
  rw [Command.prog, Cache.addName, effect]
  by_cases hvalid : validName n = true
  · rw [if_pos hvalid]
    rw [if_pos hvalid, hw.isos] at hexec
    cases hr : t.isos.resolve identifier with
    | error e =>
      rw [hr] at hexec
      rw [exec_mirrored_error hexec]
      exact hw
    | ok info =>
      rw [hr] at hexec
      dsimp only at hexec ⊢
      have hinfo := Isos.mem_of_resolve hr
      have hsha := hw.local_sound.isSha hinfo
      -- Whatever was done locally, the name goes to the shelf.
      have hmirror : ∀ {w' : World Files} {t' : Tiers}, Depicts H w' t' → t'.shelf = t.shelf →
          Depicts H ((Cache.mirror http (httpAddName H info.sha256 n)).exec (handler fileStore) w').2
            (t'.mirror http (·.alias info.sha256 n)) := by
        intro w' t' hw' hsame
        exact hw'.mirror (exec_httpAddName hw'.shows hw'.shelf_sound hvalid info.sha256)
          (hw'.shelf_sound.alias hsha hvalid)
      split_ifs at hexec ⊢ with hn hclash
      · rw [exec_mirrored hexec]
        exact hmirror hw rfl
      · rw [exec_mirrored_error hexec]
        exact hw
      · rw [exec_mirrored hexec]
        have hproper := (hw.local_sound.proper info hinfo).aliased hvalid none
        have hput : Isos.Sound H ⟨t.isos.sidecars.put (aliased info n none), t.isos.bins⟩ :=
          hw.local_sound.put hproper
            (hw.local_sound.intact.replace hinfo (show (aliased info n none).sha256 = info.sha256 from rfl))
        exact hmirror (hw.local hput) rfl
  · rw [if_neg hvalid] at hexec ⊢
    rw [exec_mirrored_error hexec]
    exact hw

theorem Depicts.forgetName {t : Tiers} (hw : Depicts H w t) (n : String) :
    Depicts H (((Command.forgetName n).prog H http).exec (handler fileStore) w).2
      (effect H http w.clock t (.forgetName n)) := by
  have hexec : (forgetNameLocal n).exec (handler fileStore) w = _ := exec_forgetNameLocal n
  rw [Command.prog, Cache.forgetName, effect]
  rw [hw.isos] at hexec
  cases hfirst : t.isos.sidecars.first fun info => n ∈ info.names with
  | none =>
    rw [hfirst] at hexec
    rw [exec_mirrored_error hexec]
    exact hw
  | some info =>
    rw [hfirst] at hexec
    rw [exec_mirrored hexec]
    have hinfo := (Keyed.first_eq_some.mp hfirst).1
    have hput : Isos.Sound H ⟨t.isos.sidecars.put { info with names := info.names.filter (· ≠ n) },
        t.isos.bins⟩ :=
      hw.local_sound.put ((hw.local_sound.proper info hinfo).filter n)
        (hw.local_sound.intact.replace hinfo rfl)
    have hw' := hw.local hput
    exact hw'.mirror (exec_httpForgetName hw'.shows hw'.shelf_sound n) (hw'.shelf_sound.unalias n)

/-- Recording what the server has. -/
theorem Depicts.bring {t : Tiers} (hw : Depicts H w t) (identifier : String) :
    Depicts H ((Cache.bring H identifier).exec (handler fileStore) w).2 (t.bring identifier) := by
  rw [Cache.bring, Prog.bind_eq_bind, Prog.exec_bind, exec_httpResolve hw.shows hw.shelf_sound,
    Tiers.bring]
  cases hr : t.shelf.resolve identifier with
  | error e => exact hw
  | ok info =>
    rw [Prog.andThen_ok]
    have hinfo := hw.shelf_sound.of_resolve hr
    obtain ⟨b, hb, hhash⟩ := hw.shelf_sound.content hinfo
    obtain ⟨info', hm, hproper⟩ := hw.local_sound.merged (hw.shelf_sound.proper hinfo)
    have hfile := hw.shows.bin info.sha256
    rw [hb] at hfile
    have hserves : Serves fileStore w.server (binPath info.sha256) ⟨200, [], b⟩ w.server := by
      refine ⟨?_, by simp, rfl⟩
      simp only [fileStore, hfile]
      rfl
    have hend := exec_fetchAndMaterialize_ok.mpr ⟨_, _, hserves, hhash, hw.isos ▸ hm, rfl⟩
    dsimp only
    rw [hend, hw.isos, hm, hb]
    refine hw.local (hw.local_sound.put hproper ?_)
    exact hw.local_sound.intact.change (.merge hhash hm)

theorem Depicts.resolve {t : Tiers} (hw : Depicts H w t) (identifier : String) (fetching : Bool) :
    Depicts H (((Command.resolve identifier fetching).prog H http).exec (handler fileStore) w).2
      (effect H http w.clock t (.resolve identifier fetching)) := by
  rw [Command.prog, isos_discard, Cache.resolve, effect]
  simp only [Prog.bind_eq_bind, Prog.exec_bind, Prog.exec_attempt, exec_localResolve, Prog.andThen_ok,
    hw.isos]
  rcases t.isos.resolve identifier with e | info
  · cases e with
    | miss =>
      cases http with
      | false => exact hw
      | true =>
        cases fetching with
        | true => exact hw.bring identifier
        | false =>
          -- Without fetching the server is only asked.
          have hask : ((httpResolve H identifier).bind fun info => .ret info).exec (handler fileStore) w =
              (t.shelf.resolve identifier, w) := by
            rw [Prog.exec_bind, exec_httpResolve hw.shows hw.shelf_sound]
            rcases t.shelf.resolve identifier with e | info <;> rfl
          show Depicts H (((httpResolve H identifier).bind fun info => .ret info).exec
            (handler fileStore) w).2 t
          rw [hask]
          exact hw
    | cache => exact hw
    | other => exact hw
  · exact hw

theorem Depicts.push {t : Tiers} (hw : Depicts H w t) (identifier : String) :
    Depicts H (((Command.push identifier).prog H http).exec (handler fileStore) w).2
      (effect H http w.clock t (.push identifier)) := by
  rw [Command.prog, isos_discard, pushEntry, effect]
  cases http with
  | false =>
    rw [if_neg (by decide)]
    cases t.isos.resolve identifier <;> exact hw
  | true =>
    rw [if_pos rfl]
    simp only [Prog.bind_eq_bind, Prog.exec_bind, exec_localResolve, hw.isos]
    cases hr : t.isos.resolve identifier with
    | error e => exact hw
    | ok info =>
      have hinfo := Isos.mem_of_resolve hr
      obtain ⟨b, hb⟩ := hw.local_sound.intact.present info hinfo
      have hproper := hw.local_sound.proper info hinfo
      obtain ⟨files, hend, hshows⟩ := exec_push hw.shows hproper (hw.isos ▸ hb)
      simp only [Prog.andThen_ok, Prog.exec_bind, hend, hb, Option.getD_some]
      exact ⟨hw.isos, hshows, hw.local_sound,
        hw.shelf_sound.push hproper (hw.local_sound.isSha hinfo) (hw.local_sound.intact.hashes hb)⟩

/-- **The program of a command does what the command does to the tiers.** -/
theorem exec_command {t : Tiers} (hw : Depicts H w t) (http : Bool) (cmd : Command) :
    Depicts H ((cmd.prog H http).exec (handler fileStore) w).2 (effect H http w.clock t cmd) := by
  cases cmd with
  | add content origin name description => exact hw.add content origin name description
  | delete identifier => exact hw.delete identifier
  | purge => exact hw.purge
  | addName identifier n => exact hw.addName identifier n
  | forgetName n => exact hw.forgetName n
  | resolve identifier fetching => exact hw.resolve identifier fetching
  | push identifier => exact hw.push identifier
  | pull identifier =>
    rw [Command.prog, isos_discard, Cache.pull, effect]
    cases http with
    | false => exact hw
    | true => exact hw.bring identifier

end Programs

/-! ### Several managers -/

/-- The local files of each manager, and the files of their server. -/
structure Fleet (ι : Type) where
  locals : ι → Isos
  files : Files

/-- A command of a manager, with or without the HTTP tier. -/
structure Move (ι : Type) where
  who : ι
  http : Bool
  cmd : Command
  clock : String

section Fleets

variable {ι : Type} [DecidableEq ι]

/-- The world of a manager. -/
def Fleet.world (F : Fleet ι) (i : ι) (clock : String) : World Files := ⟨F.locals i, F.files, clock⟩

/-- The fleet after a manager's world became another. -/
def Fleet.set (F : Fleet ι) (i : ι) (w : World Files) : Fleet ι :=
  ⟨Function.update F.locals i w.isos, w.server⟩

/-- The fleet after a move. -/
def Move.apply (H : Host) (F : Fleet ι) (m : Move ι) : Fleet ι :=
  F.set m.who ((m.cmd.prog H m.http).exec (handler fileStore) (F.world m.who m.clock)).2

/-- No files anywhere. -/
def Fleet.empty : Fleet ι := ⟨fun _ => .empty, fun _ => none⟩

/-- The fleet after some moves. -/
def Fleet.after (H : Host) (moves : List (Move ι)) : Fleet ι := moves.foldl (Move.apply H) .empty

variable {H : Host}

theorem Fleet.after_concat (moves : List (Move ι)) (m : Move ι) :
    Fleet.after H (moves ++ [m]) = m.apply H (Fleet.after H moves) := by
  simp [Fleet.after]

/-- The server shows a shelf, and all entries and pointers are well formed. -/
structure Fleet.Sound (H : Host) (F : Fleet ι) (s : Shelf) : Prop where
  shows : Shows F.files s
  locals : ∀ i, (F.locals i).Sound H
  shelf : s.Sound H

omit [DecidableEq ι] in
theorem Fleet.Sound.depicts {F : Fleet ι} {s : Shelf} (hF : F.Sound H s) (i : ι) (clock : String) :
    Depicts H (F.world i clock) ⟨F.locals i, s⟩ :=
  ⟨rfl, hF.shows, hF.locals i, hF.shelf⟩

theorem Fleet.Sound.set {F : Fleet ι} {s : Shelf} (hF : F.Sound H s) {i : ι} {w : World Files} {t : Tiers}
    (hw : Depicts H w t) : (F.set i w).Sound H t.shelf := by
  refine ⟨hw.shows, fun j => ?_, hw.shelf_sound⟩
  by_cases hj : j = i
  · subst hj
    rw [Fleet.set]
    dsimp only
    rw [Function.update_self, hw.isos]
    exact hw.local_sound
  · rw [Fleet.set]
    dsimp only
    rw [Function.update_of_ne hj]
    exact hF.locals j

/-- Nothing on the shelf. -/
def Shelf.empty : Shelf := ⟨fun _ => none, fun _ => none, fun _ => none⟩

omit [DecidableEq ι] in
theorem Fleet.sound_empty : (Fleet.empty : Fleet ι).Sound H .empty := by
  refine ⟨⟨fun _ => rfl, fun _ => rfl, fun _ => rfl⟩,
    fun i => ⟨intact_empty, fun e he => absurd he Keyed.not_mem_empty⟩, ?_⟩
  exact ⟨by rintro _ _ ⟨⟩, by rintro _ _ ⟨⟩, by rintro _ _ ⟨⟩, by rintro _ _ ⟨⟩⟩

/-- **Entries and pointers are well formed after any moves.** -/
theorem Fleet.sound_after (moves : List (Move ι)) : ∃ s, (Fleet.after H moves).Sound H s := by
  induction moves using List.reverseRecOn with
  | nil => exact ⟨.empty, Fleet.sound_empty⟩
  | append_singleton moves m ih =>
    obtain ⟨s, hF⟩ := ih
    rw [Fleet.after_concat]
    exact ⟨_, hF.set (exec_command (hF.depicts m.who m.clock) m.http m.cmd)⟩

end Fleets

end Cache

end TestRange
