/-
What a command on one entry does to the others.

Each tier holds the same fact twice: an alias is in a list of names and, on the server, in a
pointer as well; and a prefix of a digest is resolved by what other digests there are.

* `Cache.localEntry`, `Cache.httpEntry` — the entry an identifier resolves to on a tier;
* `Cache.Framed` — a command leaves alone the identifiers it should leave alone;
* `Cache.Undisturbed` — the state before the command in which it does so;
* `Cache.frame_iff` — these agree, for every command and after any moves of several managers.
-/
import TestRange.Cache.Coherent

namespace TestRange

namespace Cache

/-! ### The entry of an identifier -/

/-- The local entry of an identifier, by its digest. -/
def localEntry (w : World Files) (identifier : String) : Except CacheErr String :=
  ((localResolve identifier).exec (handler fileStore) w).1.map (·.sha256)

/-- The entry of an identifier on the server, by its digest. -/
def httpEntry (H : Host) (w : World Files) (identifier : String) : Except CacheErr String :=
  ((httpResolve H identifier).exec (handler fileStore) w).1.map (·.sha256)

/-- The local entry of an identifier, read off from the files. -/
def Isos.entry (c : Isos) (identifier : String) : Except CacheErr String :=
  (c.resolve identifier).map (·.sha256)

/-- The entry of an identifier on a shelf. -/
def Shelf.entry (s : Shelf) (identifier : String) : Except CacheErr String :=
  (s.resolve identifier).map (·.sha256)

theorem Depicts.localEntry {H : Host} {w : World Files} {t : Tiers} (hw : Depicts H w t)
    (identifier : String) : localEntry w identifier = t.isos.entry identifier := by
  rw [Cache.localEntry, exec_localResolve, hw.isos]
  rfl

theorem Depicts.httpEntry {H : Host} {w : World Files} {t : Tiers} (hw : Depicts H w t)
    (identifier : String) : httpEntry H w identifier = t.shelf.entry identifier := by
  rw [Cache.httpEntry, exec_httpResolve hw.shows hw.shelf_sound]
  rfl

/-! ### Local candidates -/

/-- There is an entry of the digest. -/
def Has (c : Isos) (sha : String) : Prop := ∃ e ∈ c.sidecars, e.sha256 = sha

/-- A digest an identifier may stand for. -/
def Candidate (c : Isos) (identifier sha : String) : Prop :=
  if looksLikeSha identifier then Has c sha ∧ startsWith sha identifier = true
  else Holds c sha identifier

section Candidates

variable {c c' : Isos} {identifier sha : String}

/-- A start of a digest resolves to the only digest with that start. -/
theorem Isos.entry_sha (hsha : looksLikeSha identifier = true) :
    c.entry identifier = .ok sha ↔ (Has c sha ∧ startsWith sha identifier = true) ∧
      ∀ t, Has c t → startsWith t identifier = true → t = sha := by
  have hentry : c.entry identifier = .ok sha ↔
      ∃ e, c.resolve identifier = .ok e ∧ e.sha256 = sha := by
    rw [Isos.entry]
    rcases c.resolve identifier with err | e <;> simp [Except.map]
  rw [hentry]
  constructor
  · rintro ⟨e, hr, rfl⟩
    obtain ⟨he, hstart, honly⟩ := (Isos.resolve_sha hsha).mp hr
    refine ⟨⟨⟨e, he, rfl⟩, hstart⟩, ?_⟩
    rintro t ⟨f, hf, rfl⟩ hstart'
    rw [honly f hf hstart']
  · rintro ⟨⟨⟨e, he, rfl⟩, hstart⟩, honly⟩
    refine ⟨e, (Isos.resolve_sha hsha).mpr ⟨he, hstart, fun f hf hstart' => ?_⟩, rfl⟩
    exact Keyed.eq_of_key_eq hf he (honly f.sha256 ⟨f, hf, rfl⟩ hstart')

/-- A name resolves to the least digest that holds it. -/
theorem Isos.entry_name (hne : identifier ≠ "") (hsha : ¬ looksLikeSha identifier = true) :
    c.entry identifier = .ok sha ↔ Holds c sha identifier ∧ ∀ t, Holds c t identifier → sha ≤ t := by
  have hentry : c.entry identifier = .ok sha ↔
      ∃ e, c.resolve identifier = .ok e ∧ e.sha256 = sha := by
    rw [Isos.entry]
    rcases c.resolve identifier with err | e <;> simp [Except.map]
  rw [hentry]
  constructor
  · rintro ⟨e, hr, rfl⟩
    obtain ⟨he, hn, hleast⟩ := (Isos.resolve_name hne hsha).mp hr
    refine ⟨⟨e, he, rfl, hn⟩, ?_⟩
    rintro t ⟨f, hf, rfl, hnf⟩
    exact hleast f hf hnf
  · rintro ⟨⟨e, he, rfl, hn⟩, hleast⟩
    refine ⟨e, (Isos.resolve_name hne hsha).mpr ⟨he, hn, fun f hf hnf => ?_⟩, rfl⟩
    exact hleast f.sha256 ⟨f, hf, rfl, hnf⟩

/-- A miss: there is no candidate. -/
theorem Isos.entry_miss (hne : identifier ≠ "") :
    c.entry identifier = .error .miss ↔ ∀ t, ¬ Candidate c identifier t := by
  unfold Isos.entry Isos.resolve Candidate
  rw [if_neg hne]
  by_cases hsha : looksLikeSha identifier = true
  · simp only [if_pos hsha]
    have hnil := Keyed.select_eq_nil (s := c.sidecars) (p := fun info => startsWith info.sha256 identifier)
    constructor
    · rintro h t ⟨⟨e, he, rfl⟩, hstart⟩
      split at h
      case h_1 hempty => exact hnil.mp hempty e he hstart
      case h_2 => cases h
      case h_3 => cases h
    · intro h
      rw [hnil.mpr fun e he hstart => h e.sha256 ⟨⟨e, he, rfl⟩, hstart⟩]
      rfl
  · simp only [if_neg hsha]
    have hnone := Keyed.first_eq_none (s := c.sidecars) (p := fun info => identifier ∈ info.names)
    constructor
    · rintro h t ⟨e, he, rfl, hn⟩
      cases hfirst : c.sidecars.first fun info => identifier ∈ info.names with
      | none => exact hnone.mp hfirst e he (by simpa using hn)
      | some f =>
        rw [hfirst] at h
        cases h
    · intro h
      rw [hnone.mpr fun e he hn => h e.sha256 ⟨e, he, rfl, by simpa using hn⟩]
      rfl

/-- How a lookup ends. -/
theorem Isos.entry_cases (c : Isos) (hne : identifier ≠ "") :
    (∃ sha, c.entry identifier = .ok sha) ∨ c.entry identifier = .error .miss ∨
      (looksLikeSha identifier = true ∧ c.entry identifier = .error .cache) := by
  unfold Isos.entry Isos.resolve
  rw [if_neg hne]
  split_ifs with hsha
  · split
    · exact .inr (.inl rfl)
    · exact .inl ⟨_, rfl⟩
    · exact .inr (.inr ⟨hsha, rfl⟩)
  · split
    · exact .inl ⟨_, rfl⟩
    · exact .inr (.inl rfl)

theorem Isos.entry_empty (c : Isos) : c.entry "" = .error .other := by
  rw [Isos.entry, Isos.resolve, if_pos rfl]
  rfl

/-- The entry of an identifier is determined by its candidates. -/
theorem Isos.entry_congr (h : ∀ t, Candidate c identifier t ↔ Candidate c' identifier t) :
    c.entry identifier = c'.entry identifier := by
  by_cases hne : identifier = ""
  · subst hne
    rw [Isos.entry_empty, Isos.entry_empty]
  have hok : ∀ sha, c.entry identifier = .ok sha ↔ c'.entry identifier = .ok sha := by
    intro sha
    by_cases hsha : looksLikeSha identifier = true
    · have hcand : ∀ t, (Has c t ∧ startsWith t identifier = true) ↔
          (Has c' t ∧ startsWith t identifier = true) := by
        intro t
        have ht := h t
        rwa [Candidate, Candidate, if_pos hsha, if_pos hsha] at ht
      rw [Isos.entry_sha hsha, Isos.entry_sha hsha, hcand]
      refine and_congr_right fun _ => forall_congr' fun t => ?_
      constructor
      · intro ht hhas hstart
        have hboth := (hcand t).mpr ⟨hhas, hstart⟩
        exact ht hboth.1 hboth.2
      · intro ht hhas hstart
        have hboth := (hcand t).mp ⟨hhas, hstart⟩
        exact ht hboth.1 hboth.2
    · have hcand : ∀ t, Holds c t identifier ↔ Holds c' t identifier := by
        intro t
        have ht := h t
        rwa [Candidate, Candidate, if_neg hsha, if_neg hsha] at ht
      rw [Isos.entry_name hne hsha, Isos.entry_name hne hsha, hcand]
      refine and_congr_right fun _ => forall_congr' fun t => ?_
      rw [hcand]
  have hmiss : c.entry identifier = .error .miss ↔ c'.entry identifier = .error .miss := by
    rw [Isos.entry_miss hne, Isos.entry_miss hne]
    exact forall_congr' fun t => not_congr (h t)
  rcases c.entry_cases hne with ⟨sha, hc⟩ | hc | ⟨-, hc⟩
  · rw [hc, (hok sha).mp hc]
  · rw [hc, hmiss.mp hc]
  · rcases c'.entry_cases hne with ⟨sha, hc'⟩ | hc' | ⟨-, hc'⟩
    · rw [(hok sha).mpr hc'] at hc
      cases hc
    · rw [hmiss.mpr hc'] at hc
      cases hc
    · rw [hc, hc']

/-- Entries and their names, where one is put under the names it had and some more. -/
theorem has_put {info : CacheEntryInfo} {bins : String → Option Bytes} :
    Has ⟨c.sidecars.put info, bins⟩ sha ↔ Has c sha ∨ sha = info.sha256 := by
  constructor
  · rintro ⟨e, he, rfl⟩
    rcases Keyed.mem_put.mp he with rfl | ⟨he, -⟩
    · exact .inr rfl
    · exact .inl ⟨e, he, rfl⟩
  · rintro (⟨e, he, rfl⟩ | rfl)
    · by_cases hkey : e.sha256 = info.sha256
      · exact ⟨info, Keyed.mem_put.mpr (.inl rfl), hkey.symm⟩
      · exact ⟨e, Keyed.mem_put.mpr (.inr ⟨he, hkey⟩), rfl⟩
    · exact ⟨info, Keyed.mem_put.mpr (.inl rfl), rfl⟩

theorem holds_put_iff {info : CacheEntryInfo} {bins : String → Option Bytes} {n : String} :
    Holds ⟨c.sidecars.put info, bins⟩ sha n ↔
      (sha = info.sha256 ∧ n ∈ info.names) ∨ (sha ≠ info.sha256 ∧ Holds c sha n) := by
  constructor
  · rintro ⟨e, he, rfl, hn⟩
    rcases Keyed.mem_put.mp he with rfl | ⟨he, hkey⟩
    · exact .inl ⟨rfl, hn⟩
    · exact .inr ⟨hkey, e, he, rfl, hn⟩
  · rintro (⟨rfl, hn⟩ | ⟨hkey, e, he, rfl, hn⟩)
    · exact ⟨info, Keyed.mem_put.mpr (.inl rfl), rfl, hn⟩
    · exact ⟨e, Keyed.mem_put.mpr (.inr ⟨he, hkey⟩), rfl, hn⟩

/-- Attaching names to the entry of a digest. -/
theorem holds_attach {info : CacheEntryInfo} {names : List String}
    (hnames : ∀ n, n ∈ info.names ↔ n ∈ names ∨ Holds c info.sha256 n) {bins : String → Option Bytes}
    {n : String} : Holds ⟨c.sidecars.put info, bins⟩ sha n ↔
      Holds c sha n ∨ (sha = info.sha256 ∧ n ∈ names) := by
  rw [holds_put_iff, hnames]
  by_cases hsha : sha = info.sha256
  · subst hsha
    simp only [true_and, ne_eq, not_true_eq_false, false_and, or_false]
    exact or_comm
  · simp [hsha]

theorem has_erase {k : String} {bins : String → Option Bytes} :
    Has ⟨c.sidecars.erase k, bins⟩ sha ↔ Has c sha ∧ sha ≠ k := by
  constructor
  · rintro ⟨e, he, rfl⟩
    obtain ⟨he, hne⟩ := Keyed.mem_erase.mp he
    exact ⟨⟨e, he, rfl⟩, hne⟩
  · rintro ⟨⟨e, he, rfl⟩, hne⟩
    exact ⟨e, Keyed.mem_erase.mpr ⟨he, hne⟩, rfl⟩

theorem holds_erase {k n : String} {bins : String → Option Bytes} :
    Holds ⟨c.sidecars.erase k, bins⟩ sha n ↔ Holds c sha n ∧ sha ≠ k := by
  constructor
  · rintro ⟨e, he, rfl, hn⟩
    obtain ⟨he, hne⟩ := Keyed.mem_erase.mp he
    exact ⟨⟨e, he, rfl, hn⟩, hne⟩
  · rintro ⟨⟨e, he, rfl, hn⟩, hne⟩
    exact ⟨e, Keyed.mem_erase.mpr ⟨he, hne⟩, rfl, hn⟩

/-- Replacing the names of an entry, but for one name, leaves every other identifier alone. -/
theorem Isos.entry_rename {info : CacheEntryInfo} (info' : CacheEntryInfo) (hinfo : info ∈ c.sidecars)
    (hsha : info'.sha256 = info.sha256) {n : String}
    (hnames : ∀ m, m ≠ n → (m ∈ info'.names ↔ m ∈ info.names)) {bins : String → Option Bytes}
    (hne : identifier ≠ n) : Isos.entry ⟨c.sidecars.put info', bins⟩ identifier = c.entry identifier := by
  refine Isos.entry_congr fun t => ?_
  unfold Candidate
  split_ifs
  · rw [has_put, hsha]
    have hhas : Has c info.sha256 := ⟨info, hinfo, rfl⟩
    constructor
    · rintro ⟨h | rfl, hstart⟩
      · exact ⟨h, hstart⟩
      · exact ⟨hhas, hstart⟩
    · rintro ⟨h, hstart⟩
      exact ⟨.inl h, hstart⟩
  · rw [holds_put_iff, hsha, hnames identifier hne]
    by_cases ht : t = info.sha256
    · subst ht
      have hholds := holds_of_find (Keyed.find_eq_some.mpr ⟨hinfo, rfl⟩) (n := identifier)
      simp only [true_and, ne_eq, not_true_eq_false, false_and, or_false, hholds]
    · simp [ht]

end Candidates

/-! ### Entries of a shelf -/

section Shelves

variable {H : Host} {s s' : Shelf} {identifier : String}

/-- The entry of an identifier, by the pointers and by which sidecars there are. -/
theorem Shelf.Sound.entry (hs : s.Sound H) (identifier : String) : s.entry identifier =
    if identifier = "" then .error .other
    else if fullSha identifier then
      if (s.sidecars identifier).isSome then .ok identifier else .error .miss
    else (s.names identifier).elim (.error .miss) fun sha =>
      if (s.sidecars sha).isSome then .ok sha else .error .miss := by
  have hread : ∀ sha, (s.read sha).map (·.sha256) =
      if (s.sidecars sha).isSome then .ok sha else .error .miss := by
    intro sha
    rw [Shelf.read]
    cases hinfo : s.sidecars sha with
    | none => rfl
    | some info =>
      show Except.ok info.sha256 = _
      rw [hs.sha hinfo]
      rfl
  unfold Shelf.entry Shelf.resolve
  split_ifs with hempty hfull hsome
  · rfl
  · rw [hread, if_pos hsome]
  · rw [hread, if_neg hsome]
  · cases s.names identifier with
    | none => rfl
    | some sha => exact hread sha

/-- Where the pointer of an identifier and the sidecars there are stay, its entry stays. -/
theorem Shelf.entry_congr (hs : s.Sound H) (hs' : s'.Sound H)
    (hhas : ∀ sha, (s'.sidecars sha).isSome = (s.sidecars sha).isSome)
    (hname : s'.names identifier = s.names identifier) : s'.entry identifier = s.entry identifier := by
  simp only [hs.entry, hs'.entry, hhas, hname]

theorem Shelf.isSome_push (info : CacheEntryInfo) (content : Bytes) (sha : String) :
    ((s.push info content).sidecars sha).isSome = (decide (sha = info.sha256) || (s.sidecars sha).isSome) := by
  by_cases hsha : sha = info.sha256
  · subst hsha
    simp [Shelf.push]
  · simp [Shelf.push, hsha]

theorem Shelf.isSome_drop (info : CacheEntryInfo) (sha : String) :
    ((s.drop info).sidecars sha).isSome = (!decide (sha = info.sha256) && (s.sidecars sha).isSome) := by
  by_cases hsha : sha = info.sha256
  · subst hsha
    simp [Shelf.drop]
  · simp [Shelf.drop, hsha]

theorem Shelf.isSome_alias (sha n t : String) :
    ((s.alias sha n).sidecars t).isSome = (s.sidecars t).isSome := by
  unfold Shelf.alias
  cases hinfo : s.sidecars sha with
  | none => rfl
  | some info =>
    by_cases ht : t = sha
    · subst ht
      simp [hinfo]
    · simp [ht]

theorem Shelf.isSome_unalias (n t : String) :
    ((s.unalias n).sidecars t).isSome = (s.sidecars t).isSome := by
  unfold Shelf.unalias
  cases s.names n with
  | none => rfl
  | some sha =>
    dsimp only
    cases hinfo : s.sidecars sha with
    | none => rfl
    | some info =>
      by_cases ht : t = sha
      · subst ht
        simp [hinfo]
      · simp [ht]

/-- Attaching a name leaves every other identifier alone. -/
theorem Shelf.entry_alias (hs : s.Sound H) {sha n : String} (hsha : IsSha sha) (hn : validName n = true)
    (hne : identifier ≠ n) : (s.alias sha n).entry identifier = s.entry identifier := by
  refine Shelf.entry_congr hs (hs.alias hsha hn) (Shelf.isSome_alias sha n) ?_
  unfold Shelf.alias
  cases s.sidecars sha with
  | none => rfl
  | some info => exact Function.update_of_ne hne ..

/-- Dropping a name leaves every other identifier alone. -/
theorem Shelf.entry_unalias (hs : s.Sound H) {n : String} (hne : identifier ≠ n) :
    (s.unalias n).entry identifier = s.entry identifier := by
  refine Shelf.entry_congr hs (hs.unalias n) (Shelf.isSome_unalias n) ?_
  unfold Shelf.unalias
  cases s.names n with
  | none => rfl
  | some sha => exact Function.update_of_ne hne ..

end Shelves

/-! ### What is left alone -/

/-- A command that leads from one world to another leaves alone what it should: a deletion
every identifier that did not resolve to the deleted entry, `add_name` and `forget_name`
every identifier but the name, `add` every identifier but the name and the starts of the
digest, on both tiers; a fetch turns local misses into the fetched entry, for its digest
and its names only. -/
def Framed (H : Host) (w w' : World Files) : Command → Prop
  | .add content _ name _ =>
    ∀ i, name ≠ some i → ¬ startsWith (H.sha256 content) i = true →
      localEntry w' i = localEntry w i ∧ httpEntry H w' i = httpEntry H w i
  | .delete identifier =>
    ∀ e, w.isos.resolve identifier = .ok e → ∀ i,
      (localEntry w i ≠ .ok e.sha256 → localEntry w' i = localEntry w i) ∧
      (httpEntry H w i ≠ .ok e.sha256 → httpEntry H w' i = httpEntry H w i)
  | .addName _ n => ∀ i, i ≠ n → localEntry w' i = localEntry w i ∧ httpEntry H w' i = httpEntry H w i
  | .forgetName n => ∀ i, i ≠ n → localEntry w' i = localEntry w i ∧ httpEntry H w' i = httpEntry H w i
  | .resolve identifier _ => FetchFramed H w w' identifier
  | .pull identifier => FetchFramed H w w' identifier
  | .purge => True
  | .push _ => True
where
  /-- What a fetch leaves alone. -/
  FetchFramed (H : Host) (w w' : World Files) (identifier : String) : Prop :=
    ∀ i, localEntry w' i = localEntry w i ∨
      ∃ e, ((httpResolve H identifier).exec (handler fileStore) w).1 = .ok e ∧
        localEntry w i = .error .miss ∧ localEntry w' i = .ok e.sha256 ∧
        (startsWith e.sha256 i = true ∨ i ∈ e.names)

/-- The local files have room for a fetched entry: no name of it belongs to an entry that
comes later in the order of digests, and, where it is new, no start of its digest resolves
to another entry. -/
def Fits (w : World Files) (e : CacheEntryInfo) : Prop :=
  (∀ n ∈ e.names, ¬ looksLikeSha n = true → ∀ sha, localEntry w n = .ok sha → sha ≤ e.sha256) ∧
    ((∀ f ∈ w.isos.sidecars, f.sha256 ≠ e.sha256) → ∀ p, looksLikeSha p = true →
      startsWith e.sha256 p = true → ∀ sha, localEntry w p ≠ .ok sha)

/-- The state in which a command leaves alone what it should. -/
def Undisturbed (H : Host) (http : Bool) (w : World Files) : Command → Prop
  | .add content _ name _ =>
    -- Every name the pushed entry has on some tier resolves to it on the server.
    http = true → ¬ name.any (!validName ·) → ∀ i, name ≠ some i →
      ¬ startsWith (H.sha256 content) i = true → ¬ fullSha i = true →
      (w.server (namePath i) = some ((H.sha256 content).toList, []) ∨ Holds w.isos (H.sha256 content) i) →
      httpEntry H w i = .ok (H.sha256 content)
  | .delete identifier =>
    ∀ e, w.isos.resolve identifier = .ok e →
      -- No start of its digest is left to exactly one other entry.
      (∀ p, looksLikeSha p = true → startsWith e.sha256 p = true → ∀ f ∈ w.isos.sidecars,
        f.sha256 ≠ e.sha256 → startsWith f.sha256 p = true →
        ∃ g ∈ w.isos.sidecars, g.sha256 ≠ e.sha256 ∧ g.sha256 ≠ f.sha256 ∧
          startsWith g.sha256 p = true) ∧
      -- No name of it resolves to another entry on the server.
      (http = true → ∀ n ∈ e.names, ¬ fullSha n = true →
        httpEntry H w n = .error .miss ∨ httpEntry H w n = .ok e.sha256)
  | .resolve identifier fetching =>
    http = true → fetching = true → w.isos.resolve identifier = .error .miss → ∀ e,
      ((httpResolve H identifier).exec (handler fileStore) w).1 = .ok e → Fits w e
  | .pull identifier =>
    http = true → ∀ e, ((httpResolve H identifier).exec (handler fileStore) w).1 = .ok e → Fits w e
  | _ => True

section Frames

variable {H : Host} {http : Bool} {w w' : World Files} {t : Tiers}

/-- `add_name` leaves alone what it should. -/
theorem framed_addName (hw : Depicts H w t) {identifier n : String}
    (hw' : Depicts H w' (effect H http w.clock t (.addName identifier n))) :
    Framed H w w' (.addName identifier n) := by
  intro i hi
  rw [hw'.localEntry, hw.localEntry, hw'.httpEntry, hw.httpEntry, effect]
  by_cases hvalid : validName n = true
  · rw [if_pos hvalid]
    cases hr : t.isos.resolve identifier with
    | error e => exact ⟨rfl, rfl⟩
    | ok info =>
      dsimp only
      have hinfo := Isos.mem_of_resolve hr
      have hshelf : ∀ c : Isos, ((⟨c, t.shelf⟩ : Tiers).mirror http (·.alias info.sha256 n)).shelf.entry i =
          t.shelf.entry i := by
        intro c
        cases http with
        | false => rfl
        | true => exact Shelf.entry_alias hw.shelf_sound (hw.local_sound.isSha hinfo) hvalid hi
      have hisos : ∀ c : Isos, ((⟨c, t.shelf⟩ : Tiers).mirror http (·.alias info.sha256 n)).isos = c := by
        intro c
        cases http <;> rfl
      split_ifs with hn hclash
      · exact ⟨congrArg (Isos.entry · i) (hisos t.isos), hshelf t.isos⟩
      · exact ⟨rfl, rfl⟩
      · refine ⟨?_, hshelf _⟩
        rw [hisos]
        refine Isos.entry_rename (aliased info n none) hinfo rfl (fun m hm => ?_) hi
        simp [aliased, hm]
  · rw [if_neg hvalid]
    exact ⟨rfl, rfl⟩

/-- `forget_name` leaves alone what it should. -/
theorem framed_forgetName (hw : Depicts H w t) {n : String}
    (hw' : Depicts H w' (effect H http w.clock t (.forgetName n))) : Framed H w w' (.forgetName n) := by
  intro i hi
  rw [hw'.localEntry, hw.localEntry, hw'.httpEntry, hw.httpEntry, effect]
  cases hfirst : t.isos.sidecars.first fun info => n ∈ info.names with
  | none => exact ⟨rfl, rfl⟩
  | some info =>
    dsimp only
    have hinfo := (Keyed.first_eq_some.mp hfirst).1
    have hlocal : Isos.entry ⟨t.isos.sidecars.put { info with names := info.names.filter (· ≠ n) },
        t.isos.bins⟩ i = t.isos.entry i := by
      refine Isos.entry_rename { info with names := info.names.filter (· ≠ n) } hinfo rfl (fun m hm => ?_) hi
      simp [hm]
    cases http with
    | false => exact ⟨hlocal, rfl⟩
    | true => exact ⟨hlocal, Shelf.entry_unalias hw.shelf_sound hi⟩

/-- Erasing an entry leaves the local identifiers alone exactly when no start of its digest
is left to one other entry. -/
theorem erase_framed_iff {c : Isos} {e : CacheEntryInfo} (he : e ∈ c.sidecars)
    {bins : String → Option Bytes} :
    (∀ i, c.entry i ≠ .ok e.sha256 →
        Isos.entry ⟨c.sidecars.erase e.sha256, bins⟩ i = c.entry i) ↔
      ∀ p, looksLikeSha p = true → startsWith e.sha256 p = true → ∀ f ∈ c.sidecars,
        f.sha256 ≠ e.sha256 → startsWith f.sha256 p = true →
        ∃ g ∈ c.sidecars, g.sha256 ≠ e.sha256 ∧ g.sha256 ≠ f.sha256 ∧ startsWith g.sha256 p = true := by
  have hhas : Has c e.sha256 := ⟨e, he, rfl⟩
  constructor
  · intro h p hp hstart f hf hne hstartf
    by_contra hnone
    -- With `e` gone, `f` would be the only entry with this start.
    have hnot : ∀ sha, c.entry p ≠ .ok sha := by
      intro sha hok
      obtain ⟨-, honly⟩ := (Isos.entry_sha hp).mp hok
      exact hne ((honly _ ⟨f, hf, rfl⟩ hstartf).trans (honly _ hhas hstart).symm)
    have hafter : Isos.entry ⟨c.sidecars.erase e.sha256, bins⟩ p = .ok f.sha256 := by
      refine (Isos.entry_sha hp).mpr ⟨⟨has_erase.mpr ⟨⟨f, hf, rfl⟩, hne⟩, hstartf⟩, fun t ht hstartt => ?_⟩
      obtain ⟨⟨g, hg, rfl⟩, hge⟩ := has_erase.mp ht
      by_contra hgf
      exact hnone ⟨g, hg, hge, hgf, hstartt⟩
    rw [h p (hnot _)] at hafter
    exact hnot _ hafter
  · intro h i hnot
    by_cases hempty : i = ""
    · subst hempty
      rw [Isos.entry_empty, Isos.entry_empty]
    by_cases hsha : looksLikeSha i = true
    · by_cases hstart : startsWith e.sha256 i = true
      · -- Two other entries share the start, or none does and it resolved to `e`.
        obtain ⟨f, hf, hne, hstartf⟩ : ∃ f ∈ c.sidecars, f.sha256 ≠ e.sha256 ∧
            startsWith f.sha256 i = true := by
          by_contra hnone
          refine hnot ((Isos.entry_sha hsha).mpr ⟨⟨hhas, hstart⟩, ?_⟩)
          rintro t ⟨f, hf, rfl⟩ hstartf
          by_contra hne
          exact hnone ⟨f, hf, hne, hstartf⟩
        obtain ⟨g, hg, hge, hgf, hstartg⟩ := h i hsha hstart f hf hne hstartf
        have hcache : ∀ {c' : Isos}, Has c' f.sha256 → Has c' g.sha256 → c'.entry i = .error .cache := by
          intro c' hf' hg'
          rcases c'.entry_cases hempty with ⟨sha, hok⟩ | hmiss | ⟨-, hcache⟩
          · obtain ⟨-, honly⟩ := (Isos.entry_sha hsha).mp hok
            exact absurd ((honly _ hg' hstartg).trans (honly _ hf' hstartf).symm) hgf
          · have hcand := (Isos.entry_miss hempty).mp hmiss f.sha256
            rw [Candidate, if_pos hsha] at hcand
            exact absurd ⟨hf', hstartf⟩ hcand
          · exact hcache
        rw [hcache ⟨f, hf, rfl⟩ ⟨g, hg, rfl⟩,
          hcache (has_erase.mpr ⟨⟨f, hf, rfl⟩, hne⟩) (has_erase.mpr ⟨⟨g, hg, rfl⟩, hge⟩)]
      · refine Isos.entry_congr fun t => ?_
        rw [Candidate, Candidate, if_pos hsha, if_pos hsha, has_erase]
        constructor
        · rintro ⟨⟨ht, -⟩, hstartt⟩
          exact ⟨ht, hstartt⟩
        · rintro ⟨ht, hstartt⟩
          refine ⟨⟨ht, ?_⟩, hstartt⟩
          rintro rfl
          exact hstart hstartt
    · -- The first holder of a name is another entry.
      rcases c.entry_cases hempty with ⟨sha, hok⟩ | hmiss | ⟨hlooks, -⟩
      · rw [hok]
        obtain ⟨hholds, hleast⟩ := (Isos.entry_name hempty hsha).mp hok
        refine (Isos.entry_name hempty hsha).mpr ⟨holds_erase.mpr ⟨hholds, ?_⟩, fun t ht => ?_⟩
        · rintro rfl
          exact hnot hok
        · exact hleast t (holds_erase.mp ht).1
      · rw [hmiss]
        refine (Isos.entry_miss hempty).mpr fun t ht => ?_
        rw [Candidate, if_neg hsha] at ht
        refine (Isos.entry_miss hempty).mp hmiss t ?_
        rw [Candidate, if_neg hsha]
        exact (holds_erase.mp ht).1
      · exact absurd hlooks hsha

/-- Taking an entry off a shelf leaves the identifiers there alone exactly when no name of it
resolves to another entry. -/
theorem drop_framed_iff {s : Shelf} (hs : s.Sound H) {e : CacheEntryInfo} (he : Proper e) :
    (∀ i, s.entry i ≠ .ok e.sha256 → (s.drop e).entry i = s.entry i) ↔
      ∀ n ∈ e.names, ¬ fullSha n = true → s.entry n = .error .miss ∨ s.entry n = .ok e.sha256 := by
  have hdrop := (hs.drop e).entry
  constructor
  · intro h n hn hfull
    by_cases hok : s.entry n = .ok e.sha256
    · exact .inr hok
    · have hne : n ≠ "" := by
        rintro rfl
        exact absurd (he.names "" hn) (by decide)
      have hafter : (s.drop e).entry n = .error .miss := by
        rw [hdrop, if_neg hne, if_neg hfull, Shelf.drop]
        simp [hn]
      exact .inl ((h n hok).symm.trans hafter)
  · intro h i hnot
    rw [hs.entry] at hnot
    rw [hdrop, hs.entry]
    by_cases hempty : i = ""
    · rw [if_pos hempty, if_pos hempty]
    rw [if_neg hempty] at hnot ⊢
    rw [if_neg hempty]
    by_cases hfull : fullSha i = true
    · -- The sidecar of another digest stays.
      rw [if_pos hfull] at hnot ⊢
      rw [if_pos hfull, Shelf.isSome_drop]
      by_cases hsome : (s.sidecars i).isSome = true
      · rw [if_pos hsome] at hnot
        have hi : i ≠ e.sha256 := fun heq => hnot (congrArg Except.ok heq)
        simp [hi]
      · simp [hsome]
    · rw [if_neg hfull] at hnot ⊢
      rw [if_neg hfull]
      by_cases hn : i ∈ e.names
      · have hbefore := h i hn hfull
        rw [hs.entry, if_neg hempty, if_neg hfull] at hbefore
        rcases hbefore with hmiss | hok
        · rw [hmiss]
          simp [Shelf.drop, hn]
        · exact absurd hok hnot
      · have hname : (s.drop e).names i = s.names i := by simp [Shelf.drop, hn]
        rw [hname]
        cases hsha : s.names i with
        | none => rfl
        | some sha =>
          rw [hsha] at hnot
          simp only [Option.elim_some, Shelf.isSome_drop] at hnot ⊢
          by_cases heq : sha = e.sha256
          · subst heq
            by_cases hsome : (s.sidecars e.sha256).isSome = true
            · exact absurd (if_pos hsome) hnot
            · simp [hsome]
          · simp [heq]

/-- **A deletion** leaves alone what it should exactly in an undisturbed state. -/
theorem framed_delete_iff (hw : Depicts H w t) {identifier : String}
    (hw' : Depicts H w' (effect H http w.clock t (.delete identifier))) :
    Framed H w w' (.delete identifier) ↔ Undisturbed H http w (.delete identifier) := by
  refine forall_congr' fun e => forall_congr' fun hr => ?_
  simp only [hw'.localEntry, hw.localEntry, hw'.httpEntry, hw.httpEntry]
  rw [hw.isos] at hr ⊢
  have he := Isos.mem_of_resolve hr
  have hisos : (effect H http w.clock t (.delete identifier)).isos =
      ⟨t.isos.sidecars.erase e.sha256, Function.update t.isos.bins e.sha256 none⟩ := by
    rw [effect, hr]
    cases http <;> rfl
  rw [forall_and, hisos, erase_framed_iff he]
  refine and_congr_right fun _ => ?_
  cases http with
  | false =>
    have hshelf : (effect H false w.clock t (.delete identifier)).shelf = t.shelf := by
      rw [effect, hr]
      rfl
    rw [hshelf]
    exact iff_of_true (fun _ _ => rfl) (fun h => by cases h)
  | true =>
    have hshelf : (effect H true w.clock t (.delete identifier)).shelf = t.shelf.drop e := by
      rw [effect, hr]
      rfl
    rw [hshelf, drop_framed_iff hw.shelf_sound (hw.local_sound.proper e he)]
    exact ⟨fun h _ => h, fun h => h rfl⟩

/-- Adding an entry leaves every local identifier alone but its name and the starts of its
digest. -/
theorem Isos.entry_attach {c : Isos} {info : CacheEntryInfo} (names : List String)
    (hnames : ∀ n, n ∈ info.names ↔ n ∈ names ∨ Holds c info.sha256 n) {bins : String → Option Bytes}
    {i : String} (hi : i ∉ names) (hstart : ¬ startsWith info.sha256 i = true) :
    Isos.entry ⟨c.sidecars.put info, bins⟩ i = c.entry i := by
  refine Isos.entry_congr fun t => ?_
  unfold Candidate
  split_ifs
  · rw [has_put]
    constructor
    · rintro ⟨h | rfl, hstartt⟩
      · exact ⟨h, hstartt⟩
      · exact absurd hstartt hstart
    · rintro ⟨h, hstartt⟩
      exact ⟨.inl h, hstartt⟩
  · rw [holds_attach hnames]
    simp [hi]

/-- A push leaves an identifier alone exactly when it does not point to the entry, or resolved
to it already. -/
theorem push_entry_iff {s : Shelf} (hs : s.Sound H) {info : CacheEntryInfo} {content : Bytes}
    (hs' : (s.push info content).Sound H) {i : String} (hstart : ¬ startsWith info.sha256 i = true) :
    (s.push info content).entry i = s.entry i ↔
      (¬ fullSha i = true → (s.names i = some info.sha256 ∨ i ∈ info.names) →
        s.entry i = .ok info.sha256) := by
  have hempty : i ≠ "" := by
    rintro rfl
    exact hstart (by simp [startsWith])
  have hi : i ≠ info.sha256 := by
    rintro rfl
    exact hstart (startsWith_self _)
  have hpushed : ∀ {u}, (s.push info content).names i = some u → (s.push info content).entry i =
      if fullSha i then if (s.sidecars i).isSome then .ok i else .error .miss
      else if u = info.sha256 ∨ (s.sidecars u).isSome then .ok u else .error .miss := by
    intro u hu
    rw [hs'.entry, if_neg hempty, hu, Option.elim_some, Shelf.isSome_push, Shelf.isSome_push]
    simp [hi]
  by_cases hfull : fullSha i = true
  · refine iff_of_true ?_ fun h => absurd hfull h
    rw [hs'.entry, hs.entry, if_neg hempty, if_neg hempty, if_pos hfull, if_pos hfull, Shelf.isSome_push]
    simp [hi]
  · by_cases hn : i ∈ info.names
    · have hname : (s.push info content).names i = some info.sha256 := by simp [Shelf.push, hn]
      rw [hpushed hname, if_neg hfull, if_pos (.inl rfl)]
      exact ⟨fun h _ _ => h.symm, fun h => (h hfull (.inr hn)).symm⟩
    · have hname : (s.push info content).names i = s.names i := by simp [Shelf.push, hn]
      cases hu : s.names i with
      | none =>
        refine iff_of_true ?_ fun _ h => ?_
        · rw [hs'.entry, hs.entry, if_neg hempty, if_neg hempty, if_neg hfull, if_neg hfull, hname, hu]
          rfl
        · rcases h with h | h
          · cases h
          · exact absurd h hn
      | some u =>
        rw [hpushed (hname.trans hu), if_neg hfull]
        by_cases heq : u = info.sha256
        · subst heq
          rw [if_pos (.inl rfl)]
          exact ⟨fun h _ _ => h.symm, fun h => (h hfull (.inl rfl)).symm⟩
        · refine iff_of_true ?_ fun _ h => ?_
          · rw [hs.entry, if_neg hempty, if_neg hfull, hu, Option.elim_some]
            simp [heq]
          · rcases h with h | h
            · exact absurd (Option.some.inj h) heq
            · exact absurd h hn

/-- **`add`** leaves alone what it should exactly in an undisturbed state. -/
theorem framed_add_iff (hw : Depicts H w t) {content : Bytes} {origin : String}
    {name description : Option String}
    (hw' : Depicts H w' (effect H http w.clock t (.add content origin name description))) :
    Framed H w w' (.add content origin name description) ↔
      Undisturbed H http w (.add content origin name description) := by
  rw [Framed, Undisturbed]
  simp only [hw'.localEntry, hw.localEntry, hw'.httpEntry, hw.httpEntry, hw.isos]
  have hpointer : ∀ i, w.server (namePath i) = some ((H.sha256 content).toList, []) ↔
      t.shelf.names i = some (H.sha256 content) := by
    intro i
    rw [hw.shows.name]
    cases t.shelf.names i with
    | none => simp
    | some sha =>
      constructor
      · intro h
        simp only [Option.map_some, Option.some.injEq, Prod.mk.injEq, and_true] at h
        rw [String.toList_injective h]
      · intro h
        rw [Option.some.inj h]
        rfl
  simp only [hpointer]
  have hsound := hw'.shelf_sound
  rw [effect] at hsound ⊢
  by_cases hname : name.any (!validName ·) = true
  · rw [if_pos hname]
    exact iff_of_true (fun _ _ _ => ⟨rfl, rfl⟩) fun _ h => absurd hname h
  · rw [if_neg hname] at hsound ⊢
    dsimp only at hsound ⊢
    have hsha := sha256_added (c := t.isos) w.clock (H.sha256 content)
      (binSize (keepOr t.isos.bins (H.sha256 content) content) (H.sha256 content)) origin name description
    have hnames := fun n => mem_names_added (c := t.isos) w.clock (H.sha256 content)
      (binSize (keepOr t.isos.bins (H.sha256 content) content) (H.sha256 content)) origin name description
      (n := n)
    generalize added t.isos w.clock (H.sha256 content)
      (binSize (keepOr t.isos.bins (H.sha256 content) content) (H.sha256 content)) origin name
      description = info at *
    have hlocal : ∀ i, name ≠ some i → ¬ startsWith (H.sha256 content) i = true →
        Isos.entry ⟨t.isos.sidecars.put info, keepOr t.isos.bins (H.sha256 content) content⟩ i =
          t.isos.entry i := by
      intro i hi hstart
      refine Isos.entry_attach name.toList (fun n => ?_) (by simpa using hi) (hsha ▸ hstart)
      rw [hnames, hsha, Option.mem_toList]
    cases http with
    | false => exact iff_of_true (fun i hi hstart => ⟨hlocal i hi hstart, rfl⟩) fun h => by cases h
    | true =>
      -- What is asked of the shelf, one identifier at a time.
      have hpush : ∀ i, name ≠ some i → ¬ startsWith (H.sha256 content) i = true →
          ((t.shelf.push info ((keepOr t.isos.bins (H.sha256 content) content (H.sha256 content)).getD
            [])).entry i = t.shelf.entry i ↔ (¬ fullSha i = true →
            (t.shelf.names i = some (H.sha256 content) ∨ Holds t.isos (H.sha256 content) i) →
            t.shelf.entry i = .ok (H.sha256 content))) := by
        intro i hi hstart
        rw [push_entry_iff hw.shelf_sound hsound (hsha ▸ hstart), hsha, hnames]
        simp [hi]
      constructor
      · intro h _ _ i hi hstart
        exact (hpush i hi hstart).mp (h i hi hstart).2
      · intro h i hi hstart
        exact ⟨hlocal i hi hstart, (hpush i hi hstart).mpr (h rfl hname i hi hstart)⟩

/-- Recording a fetched entry turns misses into it, and nothing else, exactly when it fits. -/
theorem merge_framed_iff {c : Isos} {e info : CacheEntryInfo} (hm : merged c e = some info)
    (he : ∀ n ∈ e.names, n ≠ "") {bins : String → Option Bytes} :
    (∀ i, Isos.entry ⟨c.sidecars.put info, bins⟩ i = c.entry i ∨
        (c.entry i = .error .miss ∧ Isos.entry ⟨c.sidecars.put info, bins⟩ i = .ok e.sha256 ∧
          (startsWith e.sha256 i = true ∨ i ∈ e.names))) ↔
      (∀ n ∈ e.names, ¬ looksLikeSha n = true → ∀ sha, c.entry n = .ok sha → sha ≤ e.sha256) ∧
        ((∀ f ∈ c.sidecars, f.sha256 ≠ e.sha256) → ∀ p, looksLikeSha p = true →
          startsWith e.sha256 p = true → ∀ sha, c.entry p ≠ .ok sha) := by
  have hsha := sha256_merged hm
  have hhas : ∀ t, Has ⟨c.sidecars.put info, bins⟩ t ↔ Has c t ∨ t = e.sha256 := by
    intro t
    rw [has_put, hsha]
  have hholds : ∀ t n, Holds ⟨c.sidecars.put info, bins⟩ t n ↔
      Holds c t n ∨ (t = e.sha256 ∧ n ∈ e.names) := by
    intro t n
    have hput : ∀ n, n ∈ info.names ↔ n ∈ e.names ∨ Holds c info.sha256 n := by
      intro n
      rw [hsha]
      exact mem_names_merged hm
    rw [holds_attach hput, hsha]
  generalize (⟨c.sidecars.put info, bins⟩ : Isos) = c' at *
  constructor
  · intro h
    refine ⟨fun n hn hlooks sha hok => ?_, fun hnew p hp hstart sha hok => ?_⟩
    · by_contra hlt
      -- The name would now resolve to the fetched entry.
      have hne := he n hn
      have hafter : c'.entry n = .ok e.sha256 := by
        refine (Isos.entry_name hne hlooks).mpr ⟨(hholds _ _).mpr (.inr ⟨rfl, hn⟩), fun t ht => ?_⟩
        rcases (hholds _ _).mp ht with ht | ⟨rfl, -⟩
        · exact (not_le.mp hlt).le.trans (((Isos.entry_name hne hlooks).mp hok).2 t ht)
        · exact le_refl _
      rcases h n with hsame | ⟨hmiss, -⟩
      · rw [hafter, hok] at hsame
        exact hlt (Except.ok.inj hsame).symm.le
      · rw [hok] at hmiss
        cases hmiss
    · -- The start would now be ambiguous.
      obtain ⟨⟨⟨f, hf, rfl⟩, hstartf⟩, -⟩ := (Isos.entry_sha hp).mp hok
      rcases h p with hsame | ⟨hmiss, -⟩
      · rw [hok] at hsame
        have honly := ((Isos.entry_sha hp).mp hsame).2 e.sha256 ((hhas _).mpr (.inr rfl)) hstart
        exact hnew f hf honly.symm
      · rw [hok] at hmiss
        cases hmiss
  · rintro ⟨hnames, hstarts⟩ i
    by_cases hempty : i = ""
    · subst hempty
      rw [Isos.entry_empty, Isos.entry_empty]
      exact .inl rfl
    by_cases hlooks : looksLikeSha i = true
    · by_cases hold : Has c e.sha256
      · refine .inl (Isos.entry_congr fun t => ?_)
        rw [Candidate, Candidate, if_pos hlooks, if_pos hlooks, hhas]
        constructor
        · rintro ⟨ht | rfl, hstart⟩
          · exact ⟨ht, hstart⟩
          · exact ⟨hold, hstart⟩
        · rintro ⟨ht, hstart⟩
          exact ⟨.inl ht, hstart⟩
      · by_cases hstart : startsWith e.sha256 i = true
        · have hnone := hstarts (fun f hf heq => hold ⟨f, hf, heq⟩) i hlooks hstart
          rcases c.entry_cases hempty with ⟨sha, hok⟩ | hmiss | ⟨-, hcache⟩
          · exact absurd hok (hnone sha)
          · refine .inr ⟨hmiss, (Isos.entry_sha hlooks).mpr ⟨⟨(hhas _).mpr (.inr rfl), hstart⟩, ?_⟩,
              .inl hstart⟩
            intro t ht hstartt
            rcases (hhas _).mp ht with ht | rfl
            · have hcand := (Isos.entry_miss hempty).mp hmiss t
              rw [Candidate, if_pos hlooks] at hcand
              exact absurd ⟨ht, hstartt⟩ hcand
            · rfl
          · -- An ambiguous start stays ambiguous.
            rw [hcache]
            rcases c'.entry_cases hempty with ⟨sha, hok⟩ | hmiss | ⟨-, hcache'⟩
            · obtain ⟨-, honly⟩ := (Isos.entry_sha hlooks).mp hok
              have hmiss : c.entry i = .error .miss := by
                refine (Isos.entry_miss hempty).mpr fun t ht => ?_
                rw [Candidate, if_pos hlooks] at ht
                have ht' := honly t ((hhas _).mpr (.inl ht.1)) ht.2
                have he' := honly e.sha256 ((hhas _).mpr (.inr rfl)) hstart
                exact hold (he'.trans ht'.symm ▸ ht.1)
              rw [hmiss] at hcache
              cases hcache
            · have hcand := (Isos.entry_miss hempty).mp hmiss e.sha256
              rw [Candidate, if_pos hlooks] at hcand
              exact absurd ⟨(hhas _).mpr (.inr rfl), hstart⟩ hcand
            · exact .inl hcache'
        · refine .inl (Isos.entry_congr fun t => ?_)
          rw [Candidate, Candidate, if_pos hlooks, if_pos hlooks, hhas]
          constructor
          · rintro ⟨ht | rfl, hstartt⟩
            · exact ⟨ht, hstartt⟩
            · exact absurd hstartt hstart
          · rintro ⟨ht, hstartt⟩
            exact ⟨.inl ht, hstartt⟩
    · by_cases hn : i ∈ e.names
      · rcases c.entry_cases hempty with ⟨sha, hok⟩ | hmiss | ⟨h, -⟩
        · -- The old holder comes first, or is the fetched entry itself.
          obtain ⟨hold, hleast⟩ := (Isos.entry_name hempty hlooks).mp hok
          rw [hok]
          refine .inl ((Isos.entry_name hempty hlooks).mpr ⟨(hholds _ _).mpr (.inl hold), fun t ht => ?_⟩)
          rcases (hholds _ _).mp ht with ht | ⟨rfl, -⟩
          · exact hleast t ht
          · exact hnames i hn hlooks sha hok
        · refine .inr ⟨hmiss, (Isos.entry_name hempty hlooks).mpr
            ⟨(hholds _ _).mpr (.inr ⟨rfl, hn⟩), fun t ht => ?_⟩, .inr hn⟩
          rcases (hholds _ _).mp ht with ht | ⟨rfl, -⟩
          · have hcand := (Isos.entry_miss hempty).mp hmiss t
            rw [Candidate, if_neg hlooks] at hcand
            exact absurd ht hcand
          · exact le_refl _
        · exact absurd h hlooks
      · refine .inl (Isos.entry_congr fun t => ?_)
        rw [Candidate, Candidate, if_neg hlooks, if_neg hlooks, hholds]
        simp [hn]

/-- A fetch leaves alone what it should exactly when what it fetches fits. -/
theorem framed_bring_iff (hw : Depicts H w t) {identifier : String}
    (hw' : Depicts H w' (t.bring identifier)) :
    Framed.FetchFramed H w w' identifier ↔
      ∀ e, ((httpResolve H identifier).exec (handler fileStore) w).1 = .ok e → Fits w e := by
  unfold Framed.FetchFramed Fits
  simp only [hw'.localEntry, hw.localEntry, exec_httpResolve hw.shows hw.shelf_sound, hw.isos]
  rw [Tiers.bring]
  cases hr : t.shelf.resolve identifier with
  | error err =>
    refine iff_of_true (fun _ => .inl rfl) ?_
    rintro e ⟨⟩
  | ok e =>
    have hproper := hw.shelf_sound.proper (hw.shelf_sound.of_resolve hr)
    obtain ⟨info, hm, -⟩ := hw.local_sound.merged hproper
    have hnames : ∀ n ∈ e.names, n ≠ "" := by
      rintro n hn rfl
      exact absurd (hproper.names "" hn) (by decide)
    dsimp only
    rw [hm]
    dsimp only
    simp only [Except.ok.injEq, exists_eq_left', forall_eq']
    exact merge_framed_iff hm hnames

/-- Where nothing is fetched, nothing is changed locally. -/
theorem framed_of_same (hw : Depicts H w t) (hw' : Depicts H w' t) (identifier : String) :
    Framed.FetchFramed H w w' identifier := by
  intro i
  rw [hw'.localEntry, hw.localEntry]
  exact .inl rfl

/-- **A command leaves alone what it should exactly in an undisturbed state.** -/
theorem framed_iff (hw : Depicts H w t) {cmd : Command}
    (hw' : Depicts H w' (effect H http w.clock t cmd)) :
    Framed H w w' cmd ↔ Undisturbed H http w cmd := by
  cases cmd with
  | add content origin name description => exact framed_add_iff hw hw'
  | delete identifier => exact framed_delete_iff hw hw'
  | purge => exact iff_of_true trivial trivial
  | addName identifier n => exact iff_of_true (framed_addName hw hw') trivial
  | forgetName n => exact iff_of_true (framed_forgetName hw hw') trivial
  | push identifier => exact iff_of_true trivial trivial
  | pull identifier =>
    rw [effect] at hw'
    rw [Framed, Undisturbed]
    cases http with
    | false => exact iff_of_true (framed_of_same hw hw' identifier) fun h => by cases h
    | true => exact (framed_bring_iff hw hw').trans ⟨fun h _ => h, fun h => h rfl⟩
  | resolve identifier fetching =>
    rw [effect] at hw'
    rw [Framed, Undisturbed, hw.isos]
    rcases hr : t.isos.resolve identifier with err | info
    · rw [hr] at hw'
      cases err with
      | miss =>
        dsimp only at hw'
        cases http with
        | false => exact iff_of_true (framed_of_same hw hw' identifier) fun h => by cases h
        | true =>
          cases fetching with
          | false => exact iff_of_true (framed_of_same hw hw' identifier) fun _ h => by cases h
          | true => exact (framed_bring_iff hw hw').trans ⟨fun h _ _ _ => h, fun h => h rfl rfl rfl⟩
      | cache => exact iff_of_true (framed_of_same hw hw' identifier) fun _ _ h => by cases h
      | other => exact iff_of_true (framed_of_same hw hw' identifier) fun _ _ h => by cases h
    · rw [hr] at hw'
      exact iff_of_true (framed_of_same hw hw' identifier) fun _ _ h => by cases h

/-- **Commands and other entries**, for several managers that share an honest server: after
any moves, a command of a manager leaves alone what it should, on both tiers, exactly when
the state it finds is undisturbed. -/
theorem frame_iff {ι : Type} [DecidableEq ι] (H : Host) (moves : List (Move ι)) (m : Move ι) :
    let w := (Fleet.after H moves).world m.who m.clock
    Framed H w ((m.cmd.prog H m.http).exec (handler fileStore) w).2 m.cmd ↔
      Undisturbed H m.http w m.cmd := by
  obtain ⟨s, hF⟩ := Fleet.sound_after (H := H) moves
  have hw := hF.depicts m.who m.clock
  exact framed_iff hw (exec_command hw m.http m.cmd)

end Frames

/-! ### Two managers and one name -/

namespace Letters

/-- Two managers add different contents under one name. -/
def rivals : List (Move Bool) :=
  [⟨true, true, .add [97] "a" "x" none, ""⟩, ⟨false, true, .add [98] "b" "x" none, ""⟩]

/-- On the server the name then points to the second content. -/
theorem httpEntry_rivals : httpEntry host ((Fleet.after host rivals).world true "") "x" = .ok shaB := by
  have h₁ := (Fleet.sound_empty (ι := Bool) (H := host)).set (i := true)
    (exec_command (Fleet.sound_empty.depicts true "") true (.add [97] "a" "x" none))
  have h₂ := h₁.set (i := false)
    (exec_command (h₁.depicts false "") true (.add [98] "b" "x" none))
  exact (h₂.depicts true "").httpEntry "x"

/-- When the first manager deletes its content by that name, the name is lost to the other
content as well. -/
theorem frame_rivals : ¬ ∀ (moves : List (Move Bool)) (m : Move Bool),
    Framed host ((Fleet.after host moves).world m.who m.clock)
      ((m.cmd.prog host m.http).exec (handler fileStore) ((Fleet.after host moves).world m.who m.clock)).2
      m.cmd := by
  intro h
  obtain ⟨s, hF⟩ := Fleet.sound_after (H := host) rivals
  have hw := hF.depicts true ""
  have hframed := h rivals ⟨true, true, .delete "x", ""⟩
  have hundisturbed := (framed_iff hw (exec_command hw true (.delete "x"))).mp hframed
  have hname := (hundisturbed ⟨shaA, 1, ["x"], [], .str "a", .str "", .null⟩ rfl).2 rfl "x"
    (by decide) (by decide)
  rw [httpEntry_rivals] at hname
  rcases hname with hname | hname
  · cases hname
  · exact absurd (Except.ok.inj hname) (by decide)

end Letters

end Cache

end TestRange
