/-
Aliases, and how many local entries hold one.

Of the operations that attach a name only `add_name` looks whether another entry has it:
`add` does not, nor does the merge of the names that come with a fetched entry.

* `Cache.Unique` — every name belongs to at most one local entry;
* `Cache.Clear` — the names a command attaches are held by no other local entry;
* `Cache.Unique.step_iff` — a command keeps names unique exactly when it is clear;
* `Cache.unique_iff` — names stay unique throughout a run exactly when all its commands
  are clear.
-/
import TestRange.Cache.Pinned

namespace TestRange

namespace Cache

/-- Every name belongs to at most one entry. -/
def Unique (c : Isos) : Prop :=
  ∀ e ∈ c.sidecars, ∀ f ∈ c.sidecars, ∀ n, n ∈ e.names → n ∈ f.names → e = f

/-! ### Names that are attached -/

theorem mem_fromKeys {names : List String} {n : String} : n ∈ fromKeys names ↔ n ∈ names := by
  -- The loop keeps what it has seen and adds what it has not.
  have hloop : ∀ (names seen : List String),
      n ∈ names.foldl (fun seen n => if n ∈ seen then seen else seen ++ [n]) seen ↔
        n ∈ seen ∨ n ∈ names := by
    intro names
    induction names with
    | nil => simp
    | cons m names ih =>
      intro seen
      rw [List.foldl_cons, ih, List.mem_cons]
      by_cases hm : m ∈ seen
      · rw [if_pos hm]
        constructor
        · rintro (h | h)
          · exact .inl h
          · exact .inr (.inr h)
        · rintro (h | rfl | h)
          · exact .inl h
          · exact .inl hm
          · exact .inr h
      · rw [if_neg hm, List.mem_append, List.mem_singleton, or_assoc]
  rw [fromKeys, hloop]
  simp

variable {c : Isos}

/-- The names of the entry of a digest, if there is one. -/
def Holds (c : Isos) (sha n : String) : Prop := ∃ e ∈ c.sidecars, e.sha256 = sha ∧ n ∈ e.names

theorem holds_of_find {sha : String} {info : CacheEntryInfo} (h : c.sidecars.find sha = some info)
    {n : String} : Holds c sha n ↔ n ∈ info.names := by
  obtain ⟨hmem, hkey⟩ := Keyed.find_eq_some.mp h
  constructor
  · rintro ⟨e, he, hsha, hn⟩
    rwa [← Keyed.eq_of_key_eq he hmem (hsha.trans hkey.symm)]
  · intro hn
    exact ⟨info, hmem, hkey, hn⟩

theorem not_holds_of_find {sha : String} (h : c.sidecars.find sha = none) {n : String} :
    ¬ Holds c sha n := by
  rintro ⟨e, he, hsha, -⟩
  exact Keyed.find_eq_none.mp h e he hsha

/-- The names of an added content. -/
theorem mem_names_added (clock sha : String) (size : ℕ) (origin : String)
    (name description : Option String) {n : String} :
    n ∈ (added c clock sha size origin name description).names ↔ name = some n ∨ Holds c sha n := by
  unfold added
  cases hfind : c.sidecars.find sha with
  | none =>
    have hnone := not_holds_of_find hfind (n := n)
    simp [hnone]
  | some info =>
    rw [holds_of_find hfind]
    cases name with
    | none => simp
    | some m =>
      dsimp only
      split_ifs with hm
      · constructor
        · exact .inr
        · rintro (h | h)
          · rwa [← Option.some.inj h]
          · exact h
      · simp only [aliased, List.mem_append, List.mem_singleton, Option.some.injEq]
        constructor
        · rintro (h | rfl)
          · exact .inr h
          · exact .inl rfl
        · rintro (rfl | h)
          · exact .inr rfl
          · exact .inl h

/-- The names of a fetched entry. -/
theorem mem_names_merged {info info' : CacheEntryInfo} (h : merged c info = some info') {n : String} :
    n ∈ info'.names ↔ n ∈ info.names ∨ Holds c info.sha256 n := by
  unfold merged at h
  cases hfind : c.sidecars.find info.sha256 with
  | none =>
    rw [hfind] at h
    cases h
    simp [not_holds_of_find hfind]
  | some existing =>
    rw [hfind] at h
    dsimp only at h
    split_ifs at h
    cases h
    rw [mem_fromKeys, List.mem_append, holds_of_find hfind, or_comm]

/-- No entry but that of `sha` has the name. -/
def Free (c : Isos) (sha n : String) : Prop := ∀ f ∈ c.sidecars, f.sha256 ≠ sha → n ∉ f.names

/-- Attach names to the entry of a digest: they stay unique exactly when no other entry
has one of them. -/
theorem Unique.put_iff {c' : Isos} (hc : Unique c) {info : CacheEntryInfo} {names : List String}
    (hnames : ∀ n, n ∈ info.names ↔ n ∈ names ∨ Holds c info.sha256 n)
    (hput : c'.sidecars = c.sidecars.put info) :
    Unique c' ↔ ∀ n ∈ names, Free c info.sha256 n := by
  have hother : (∀ n ∈ names, Free c info.sha256 n) → ∀ n ∈ info.names, Free c info.sha256 n := by
    intro hclear n hn f hf hne hnf
    rcases (hnames n).mp hn with hn | ⟨e, he, hsha, hne'⟩
    · exact hclear n hn f hf hne hnf
    · rw [← hsha, hc e he f hf n hne' hnf] at hne
      exact hne rfl
  unfold Unique
  rw [hput]
  constructor
  · intro h n hn f hf hne hnf
    have heq := h info (Keyed.mem_put.mpr (.inl rfl)) f (Keyed.mem_put.mpr (.inr ⟨hf, hne⟩)) n
      ((hnames n).mpr (.inl hn)) hnf
    exact hne (congrArg CacheEntryInfo.sha256 heq.symm)
  · intro hclear e he f hf n hne hnf
    rcases Keyed.mem_put.mp he with rfl | ⟨he', hkey⟩
    · rcases Keyed.mem_put.mp hf with rfl | ⟨hf, hkey⟩
      · rfl
      · exact absurd hnf (hother hclear n hne f hf hkey)
    · rcases Keyed.mem_put.mp hf with rfl | ⟨hf, -⟩
      · exact absurd hne (hother hclear n hnf e he' hkey)
      · exact hc e he' f hf n hne hnf

/-- Where every entry has the names of an old one under its digest, names stay unique. -/
theorem Unique.mono {c' : Isos} (hc : Unique c)
    (h : ∀ e ∈ c'.sidecars, ∃ e₀ ∈ c.sidecars, e₀.sha256 = e.sha256 ∧ ∀ n ∈ e.names, n ∈ e₀.names) :
    Unique c' := by
  intro e he f hf n hne hnf
  obtain ⟨e₀, he₀, hesha, hesub⟩ := h e he
  obtain ⟨f₀, hf₀, hfsha, hfsub⟩ := h f hf
  have heq := hc e₀ he₀ f₀ hf₀ n (hesub n hne) (hfsub n hnf)
  refine Keyed.eq_of_key_eq he hf ?_
  rw [← hesha, ← hfsha, heq]

/-! ### What the server brings -/

section Server

variable {σ : Type} {H : Host} {server : Server σ} {w : World σ}

/-- The digest a name points to. -/
def Points (server : Server σ) (s : σ) (name sha : String) (s' : σ) : Prop :=
  ∃ resp, Serves server s (namePath name) resp s' ∧ String.ofList (Text.strip resp.text) = sha ∧
    fullSha sha = true

/-- The entry the server answers for an identifier. -/
def Answers (H : Host) (server : Server σ) (s : σ) (identifier : String) (info : CacheEntryInfo)
    (s' : σ) : Prop :=
  identifier ≠ "" ∧
    if fullSha identifier then Names H server s identifier info s'
    else ∃ sha s₁, Points server s identifier sha s₁ ∧ Names H server s₁ sha info s'

theorem exec_resolveName_ok {name sha : String} {w' : World σ} :
    (resolveName name).exec (handler server) w = (.ok sha, w') ↔
      ∃ s', Points server w.server name sha s' ∧ w' = { w with server := s' } := by
  rw [resolveName, Prog.bind_eq_bind, Prog.exec_bind]
  rcases hget : (getFile (namePath name)).exec (handler server) w with ⟨e | resp, w₁⟩
  · constructor
    · rintro ⟨⟩
    · rintro ⟨s', ⟨resp, hserves, -⟩, -⟩
      rw [exec_getFile_ok.mpr ⟨s', hserves, rfl⟩] at hget
      cases hget
  · obtain ⟨s₁, hserves, rfl⟩ := exec_getFile_ok.mp hget
    rw [Prog.andThen_ok]
    dsimp only
    constructor
    · intro h
      split_ifs at h with hfull
      · cases h
        exact ⟨s₁, ⟨resp, hserves, rfl, hfull⟩, rfl⟩
      · cases h
    · rintro ⟨s', ⟨resp', hserves', hsha, hfull⟩, rfl⟩
      have heq := hserves.1.symm.trans hserves'.1
      cases heq
      rw [hsha, if_pos hfull]
      rfl

theorem exec_httpResolve_ok {identifier : String} {info : CacheEntryInfo} {w' : World σ} :
    (httpResolve H identifier).exec (handler server) w = (.ok info, w') ↔
      ∃ s', Answers H server w.server identifier info s' ∧ w' = { w with server := s' } := by
  unfold httpResolve Answers
  by_cases hne : identifier = ""
  · rw [if_pos hne]
    constructor
    · rintro ⟨⟩
    · rintro ⟨s', ⟨h, -⟩, -⟩
      exact absurd hne h
  rw [if_neg hne]
  by_cases hfull : fullSha identifier = true
  · rw [if_pos hfull, exec_httpReadSidecar_ok]
    simp only [if_pos hfull, ne_eq, hne, not_false_eq_true, true_and]
  · rw [if_neg hfull, Prog.bind_eq_bind, Prog.exec_bind]
    simp only [if_neg hfull, ne_eq, hne, not_false_eq_true, true_and]
    rcases hend : (resolveName identifier).exec (handler server) w with ⟨e | sha, w₁⟩
    · constructor
      · rintro ⟨⟩
      · rintro ⟨s', ⟨sha, s₁, hpoints, -⟩, -⟩
        rw [exec_resolveName_ok.mpr ⟨s₁, hpoints, rfl⟩] at hend
        cases hend
    · obtain ⟨s₁, hpoints, rfl⟩ := exec_resolveName_ok.mp hend
      rw [Prog.andThen_ok, exec_httpReadSidecar_ok]
      constructor
      · rintro ⟨s', hnames, rfl⟩
        exact ⟨s', ⟨sha, s₁, hpoints, hnames⟩, rfl⟩
      · rintro ⟨s', ⟨sha', s₁', hpoints', hnames⟩, rfl⟩
        rw [exec_resolveName_ok.mpr ⟨s₁', hpoints', rfl⟩] at hend
        cases hend
        exact ⟨s', hnames, rfl⟩

/-- The server answers for an identifier with an entry, serves its content, and the entry
can be recorded. -/
def Brings (H : Host) (server : Server σ) (w : World σ) (identifier : String)
    (info : CacheEntryInfo) : Prop :=
  ∃ s₁ resp s₂, Answers H server w.server identifier info s₁ ∧
    Serves server s₁ (binPath info.sha256) resp s₂ ∧ H.sha256 resp.content = info.sha256 ∧
    ∀ e ∈ w.isos.sidecars, e.sha256 = info.sha256 → (e.others ++ info.others).all hashable = true

/-- A fetch that raises leaves the sidecars alone. -/
theorem sidecars_fetch_error {info : CacheEntryInfo} {e : CacheErr} {w' : World σ}
    (h : (fetchAndMaterialize H info).exec (handler server) w = (.error e, w')) :
    w'.isos.sidecars = w.isos.sidecars := by
  rw [fetchAndMaterialize, Prog.bind_eq_bind, Prog.exec_bind] at h
  rcases exec_fetch H server w info.sha256 with ⟨hsame, e', he⟩ | ⟨w₁, content, hend, -, hisos⟩
  · rcases hend : (fetch H info.sha256).exec (handler server) w with ⟨e₁ | a, w₁⟩
    · rw [hend] at h hsame
      cases h
      exact congrArg Isos.sidecars hsame
    · rw [hend] at he
      cases he
  · rw [hend, Prog.andThen_ok, exec_writeMaterializedSidecar] at h
    cases hm : merged w₁.isos info with
    | none =>
      rw [hm] at h
      cases h
      rw [hisos]
    | some info' =>
      rw [hm] at h
      cases h

/-- Answer an identifier from the server, and record the entry. -/
def bring (H : Host) (identifier : String) : CacheProg CacheEntryInfo := do
  let info ← httpResolve H identifier
  fetchAndMaterialize H info

/-- What recording an entry of the server leaves: its names on the entry of its digest, or
the sidecars as they were. -/
theorem sidecars_bring (H : Host) (server : Server σ) (w : World σ) (identifier : String) :
    (∃ info info', Brings H server w identifier info ∧
      (∀ info₁, Brings H server w identifier info₁ → info₁ = info) ∧
      merged w.isos info = some info' ∧
      ((bring H identifier).exec (handler server) w).2.isos.sidecars = w.isos.sidecars.put info') ∨
    ((∀ info, ¬ Brings H server w identifier info) ∧
      ((bring H identifier).exec (handler server) w).2.isos.sidecars = w.isos.sidecars) := by
  have hremote := (show Remote server (httpResolve H identifier) from remote_httpResolve H _) w
  rw [bring, Prog.bind_eq_bind, Prog.exec_bind]
  rcases hend : (httpResolve H identifier).exec (handler server) w with ⟨e | info, w₁⟩
  · -- There is no answer.
    refine .inr ⟨?_, ?_⟩
    · rintro info ⟨s₁, resp, s₂, hanswers, -⟩
      rw [exec_httpResolve_ok.mpr ⟨s₁, hanswers, rfl⟩] at hend
      cases hend
    · rw [hend] at hremote
      rw [Prog.andThen_error]
      exact congrArg Isos.sidecars hremote.1
  · obtain ⟨s₁, hanswers, rfl⟩ := exec_httpResolve_ok.mp hend
    have honly : ∀ info₁, Brings H server w identifier info₁ → info₁ = info ∧
        ∃ resp s₂, Serves server s₁ (binPath info.sha256) resp s₂ ∧
          H.sha256 resp.content = info.sha256 ∧ (merged w.isos info).isSome = true := by
      rintro info₁ ⟨s₁', resp, s₂, hanswers', hserves, hhash, hrecord⟩
      have hend' := exec_httpResolve_ok.mpr ⟨s₁', hanswers', rfl⟩
      rw [hend] at hend'
      cases hend'
      exact ⟨rfl, resp, s₂, hserves, hhash, merged_isSome.mpr hrecord⟩
    rw [Prog.andThen_ok]
    rcases hfetch : (fetchAndMaterialize H info).exec (handler server) { w with server := s₁ } with
      ⟨e | info', w'⟩
    · refine .inr ⟨fun info₁ hbrings => ?_, ?_⟩
      · obtain ⟨rfl, resp, s₂, hserves, hhash, hsome⟩ := honly info₁ hbrings
        obtain ⟨info', hm⟩ := Option.isSome_iff_exists.mp hsome
        have hok := exec_fetchAndMaterialize_ok (w := { w with server := s₁ }).mpr
          ⟨resp, s₂, hserves, hhash, hm, rfl⟩
        rw [hfetch] at hok
        cases hok
      · have hsame := sidecars_fetch_error hfetch
        exact hsame
    · obtain ⟨resp, s₂, hserves, hhash, hm, rfl⟩ := exec_fetchAndMaterialize_ok.mp hfetch
      refine .inl ⟨info, info', ⟨s₁, resp, s₂, hanswers, hserves, hhash, ?_⟩,
        fun info₁ h => (honly info₁ h).1, hm, rfl⟩
      exact merged_isSome.mp (Option.isSome_iff_exists.mpr ⟨info', hm⟩)

end Server

/-! ### Commands that attach names -/

section Commands

variable {σ : Type} {H : Host} {server : Server σ} {w : World σ} {http : Bool}

/-- No other local entry has a name that the command attaches.  A name that `add_name` is
given needs no such condition. -/
def Clear (H : Host) (server : Server σ) (w : World σ) (http : Bool) : Command → Prop
  | .add content _ name _ =>
    ¬ name.any (!validName ·) → ∀ n ∈ name.toList, Free w.isos (H.sha256 content) n
  | .resolve identifier fetching =>
    fetching = true → http = true → w.isos.resolve identifier = .error .miss →
      ∀ info, Brings H server w identifier info → ∀ n ∈ info.names, Free w.isos info.sha256 n
  | .pull identifier =>
    http = true →
      ∀ info, Brings H server w identifier info → ∀ n ∈ info.names, Free w.isos info.sha256 n
  | _ => True

/-- Putting an entry with some of its own names keeps names unique. -/
theorem Unique.replace {c' : Isos} (hc : Unique c) {info : CacheEntryInfo} (info' : CacheEntryInfo)
    (hinfo : info ∈ c.sidecars) (hsha : info'.sha256 = info.sha256)
    (hsub : ∀ n ∈ info'.names, n ∈ info.names) (hput : c'.sidecars = c.sidecars.put info') :
    Unique c' := by
  refine hc.mono fun e he => ?_
  rw [hput] at he
  rcases Keyed.mem_put.mp he with rfl | ⟨he, -⟩
  · exact ⟨info, hinfo, hsha.symm, hsub⟩
  · exact ⟨e, he, rfl, fun _ hn => hn⟩

/-- `delete` keeps names unique. -/
theorem Unique.delete (hw : Unique w.isos) (identifier : String) :
    Unique (((Command.delete identifier).prog H http).exec (handler server) w).2.isos := by
  rw [Command.prog, isos_discard, Cache.delete, isos_mirrored fun _ => remote_mirror (remote_httpDelete _),
    exec_deleteLocal]
  cases w.isos.resolve identifier with
  | error e => exact hw
  | ok info => exact hw.mono fun e he => ⟨e, (Keyed.mem_erase.mp he).1, rfl, fun _ hn => hn⟩

/-- `purge` keeps names unique. -/
theorem Unique.purge (hw : Unique w.isos) :
    Unique ((Command.purge.prog H http).exec (handler server) w).2.isos := by
  rw [Command.prog, isos_discard, exec_purge]
  exact hw.mono fun e he => ⟨e, (Isos.mem_without.mp he).1, rfl, fun _ hn => hn⟩

/-- `forget_name` keeps names unique. -/
theorem Unique.forgetName (hw : Unique w.isos) (n : String) :
    Unique (((Command.forgetName n).prog H http).exec (handler server) w).2.isos := by
  rw [Command.prog, isos_discard, Cache.forgetName,
    isos_mirrored fun _ => remote_mirror (remote_httpForgetName H _), exec_forgetNameLocal]
  cases hfirst : w.isos.sidecars.first fun info => n ∈ info.names with
  | none => exact hw
  | some info =>
    have hinfo := (Keyed.first_eq_some.mp hfirst).1
    have hsub : ∀ m ∈ info.names.filter (· ≠ n), m ∈ info.names := fun m hm =>
      (List.mem_filter.mp hm).1
    exact hw.replace ({ info with names := info.names.filter (· ≠ n) }) hinfo rfl hsub rfl

/-- `add_name` keeps names unique: it refuses a name that another entry has. -/
theorem Unique.addName (hw : Unique w.isos) (identifier n : String) :
    Unique (((Command.addName identifier n).prog H http).exec (handler server) w).2.isos := by
  rw [Command.prog, isos_discard, Cache.addName,
    isos_mirrored fun _ => remote_mirror (remote_httpAddName H _ _), exec_addNameLocal]
  by_cases hvalid : validName n = true
  · rw [if_pos hvalid]
    cases hr : w.isos.resolve identifier with
    | error e => exact hw
    | ok info =>
      have hinfo := Isos.mem_of_resolve hr
      dsimp only
      split_ifs with hn hclash
      · exact hw
      · exact hw
      · have hnames : ∀ m, m ∈ (aliased info n none).names ↔
            m ∈ [n] ∨ Holds w.isos (aliased info n none).sha256 m := by
          intro m
          rw [show Holds w.isos (aliased info n none).sha256 m ↔ m ∈ info.names from
            holds_of_find (Keyed.find_eq_some.mpr ⟨hinfo, rfl⟩), or_comm]
          exact List.mem_append
        refine (hw.put_iff hnames rfl).mpr ?_
        intro m hm f hf hne hnf
        rw [List.mem_singleton.mp hm] at hnf
        -- The lookup of the name would have found this other entry.
        cases hfirst : w.isos.sidecars.first fun info => n ∈ info.names with
        | none => exact Keyed.first_eq_none.mp hfirst f hf (by simpa using hnf)
        | some g =>
          obtain ⟨hg, hng, -⟩ := Keyed.first_eq_some.mp hfirst
          have hgf : g = f := hw g hg f hf n (by simpa using hng) hnf
          rw [hfirst, hgf] at hclash
          exact hclash (by simpa [aliased] using hne)
  · rw [if_neg hvalid]
    exact hw

/-- `push` leaves the local files alone. -/
theorem Unique.push (hw : Unique w.isos) (identifier : String) :
    Unique (((Command.push identifier).prog H http).exec (handler server) w).2.isos := by
  rw [Command.prog, isos_discard, pushEntry]
  cases http with
  | false => exact hw
  | true =>
    rw [if_pos rfl, isos_mirrored fun _ => remote_push _, exec_localResolve]
    exact hw

/-- `add` keeps names unique exactly when no other entry has the name. -/
theorem Unique.add_iff (hw : Unique w.isos) (content : Bytes) (origin : String)
    (name description : Option String) :
    Unique (((Command.add content origin name description).prog H http).exec (handler server) w).2.isos ↔
      Clear H server w http (.add content origin name description) := by
  rw [Command.prog, isos_discard, managerAdd, isos_mirrored fun _ => remote_mirror (remote_push _)]
  by_cases hname : name.any (!validName ·) = true
  · rw [exec_add_of_invalid H hname]
    exact ⟨fun _ h => absurd hname h, fun _ => hw⟩
  · have hadd := exec_add server w H hname content origin description
    dsimp only at hadd
    generalize binSize (keepOr w.isos.bins (H.sha256 content) content) (H.sha256 content) = size at hadd
    have hsha := sha256_added (c := w.isos) w.clock (H.sha256 content) size origin name description
    have hnames : ∀ n, n ∈ (added w.isos w.clock (H.sha256 content) size origin name description).names ↔
        n ∈ name.toList ∨ Holds w.isos
          (added w.isos w.clock (H.sha256 content) size origin name description).sha256 n := by
      intro n
      rw [hsha, mem_names_added, Option.mem_toList]
    rw [hadd, hw.put_iff hnames rfl, hsha]
    exact ⟨fun h _ => h, fun h => h hname⟩

/-- Recording an entry of the server keeps names unique exactly when no other entry has one
of its names. -/
theorem Unique.bring_iff (hw : Unique w.isos) (identifier : String) :
    Unique ((bring H identifier).exec (handler server) w).2.isos ↔
      ∀ info, Brings H server w identifier info → ∀ n ∈ info.names, Free w.isos info.sha256 n := by
  rcases sidecars_bring H server w identifier with ⟨info, info', hbrings, honly, hm, hput⟩ | ⟨hnone, hkeep⟩
  · have hsha := sha256_merged hm
    have hnames : ∀ n, n ∈ info'.names ↔ n ∈ info.names ∨ Holds w.isos info'.sha256 n := by
      intro n
      rw [hsha]
      exact mem_names_merged hm
    rw [hw.put_iff hnames hput, hsha]
    constructor
    · intro h info₁ hbrings₁
      rw [honly info₁ hbrings₁]
      exact h
    · intro h
      exact h info hbrings
  · refine ⟨fun _ info hbrings => absurd hbrings (hnone info), fun _ => ?_⟩
    refine hw.mono fun e he => ⟨e, ?_, rfl, fun _ hn => hn⟩
    rwa [hkeep] at he

/-- `resolve` keeps names unique exactly when what it fetches brings no name of another
entry. -/
theorem Unique.resolve_iff (hw : Unique w.isos) (identifier : String) (fetching : Bool) :
    Unique (((Command.resolve identifier fetching).prog H http).exec (handler server) w).2.isos ↔
      Clear H server w http (.resolve identifier fetching) := by
  rw [Command.prog, isos_discard, Cache.resolve]
  simp only [Prog.bind_eq_bind, Prog.exec_bind, Prog.exec_attempt, exec_localResolve, Prog.andThen_ok]
  have hlocal : ∀ {P : Prop}, ¬ P → (Unique w.isos ↔ (fetching = true → http = true → P →
      ∀ info, Brings H server w identifier info → ∀ n ∈ info.names, Free w.isos info.sha256 n)) :=
    fun hP => ⟨fun _ _ _ h => absurd h hP, fun _ => hw⟩
  rcases hr : w.isos.resolve identifier with e | info
  · cases e with
    | miss =>
      cases http with
      | false => exact ⟨fun _ _ h => absurd h (by decide), fun _ => hw⟩
      | true =>
        cases fetching with
        | false =>
          refine ⟨fun _ h => absurd h (by decide), fun _ => ?_⟩
          have hremote := (show Remote server (httpResolve H identifier >>= fun info => pure info) from
            .bind (remote_httpResolve H _) fun _ => .ret _) w
          refine hw.mono fun e he => ⟨e, ?_, rfl, fun _ hn => hn⟩
          rw [← hremote.1]
          exact he
        | true =>
          refine (hw.bring_iff identifier).trans ?_
          exact ⟨fun h _ _ _ => h, fun h => h rfl rfl hr⟩
    | cache => exact hlocal (by simp [hr])
    | other => exact hlocal (by simp [hr])
  · exact hlocal (by simp [hr])

/-- `pull` keeps names unique exactly when what it fetches brings no name of another entry. -/
theorem Unique.pull_iff (hw : Unique w.isos) (identifier : String) :
    Unique (((Command.pull identifier).prog H http).exec (handler server) w).2.isos ↔
      Clear H server w http (.pull identifier) := by
  rw [Command.prog, isos_discard, Cache.pull]
  cases http with
  | false => exact ⟨fun _ h => absurd h (by decide), fun _ => hw⟩
  | true => exact (hw.bring_iff identifier).trans ⟨fun h _ => h, fun h => h rfl⟩

/-- **A command keeps names unique exactly when it is clear.** -/
theorem Unique.step_iff (hw : Unique w.isos) (cmd : Command) :
    Unique ((cmd.prog H http).exec (handler server) w).2.isos ↔ Clear H server w http cmd := by
  cases cmd with
  | add content origin name description => exact hw.add_iff content origin name description
  | delete identifier => exact iff_of_true (hw.delete identifier) trivial
  | purge => exact iff_of_true hw.purge trivial
  | addName identifier n => exact iff_of_true (hw.addName identifier n) trivial
  | forgetName n => exact iff_of_true (hw.forgetName n) trivial
  | resolve identifier fetching => exact hw.resolve_iff identifier fetching
  | push identifier => exact iff_of_true (hw.push identifier) trivial
  | pull identifier => exact hw.pull_iff identifier

end Commands

/-! ### Runs -/

section Runs

variable {σ : Type} {H : Host} {server : Server σ} {server₀ : σ} {clock : String}

theorem unique_empty : Unique .empty := fun _ he => absurd he Keyed.not_mem_empty

/-- **Names are unique throughout a run exactly when every command of it is clear**: whatever
the server answers, no command attaches a name that another local entry has. -/
theorem unique_iff (H : Host) (server : Server σ) (server₀ : σ) (clock : String)
    (steps : List (Step σ)) :
    (∀ done, done <+: steps → Unique (after H server server₀ clock done).isos) ↔
      ∀ done s, done ++ [s] <+: steps →
        Clear H server (s.before (after H server server₀ clock done)) s.http s.cmd := by
  have hstep : ∀ done s, Unique (after H server server₀ clock done).isos →
      (Unique (after H server server₀ clock (done ++ [s])).isos ↔
        Clear H server (s.before (after H server server₀ clock done)) s.http s.cmd) := by
    intro done s hdone
    rw [after_concat]
    exact Unique.step_iff (w := s.before (after H server server₀ clock done)) hdone s.cmd
  constructor
  · intro h done s hstart
    have hdone := h done ((List.prefix_append done [s]).trans hstart)
    exact (hstep done s hdone).mp (h (done ++ [s]) hstart)
  · intro h done
    induction done using List.reverseRecOn with
    | nil => exact fun _ => unique_empty
    | append_singleton done s ih =>
      intro hstart
      have hdone := ih ((List.prefix_append done [s]).trans hstart)
      exact (hstep done s hdone).mpr (h done s hstart)

end Runs

namespace Letters

/-- Two contents, added under one name, both have it. -/
theorem unique_twice : ¬ ∀ steps : List (Step Unit), Unique (after host swapped () "" steps).isos := by
  intro h
  have hclear : Clear host swapped (after host swapped () "" [⟨false, .add [97] "a" "x" none, (), ""⟩])
      false (.add [98] "b" "x" none) :=
    ((h [⟨false, .add [97] "a" "x" none, (), ""⟩]).step_iff _).mp
      (h [⟨false, .add [97] "a" "x" none, (), ""⟩, ⟨false, .add [98] "b" "x" none, (), ""⟩])
  have hentry : (⟨shaA, 1, ["x"], [], .str "a", .str "", .null⟩ : CacheEntryInfo) ∈
      (after host swapped () "" [⟨false, .add [97] "a" "x" none, (), ""⟩]).isos.sidecars :=
    List.mem_singleton.mpr rfl
  exact hclear (by decide) "x" (by decide) _ hentry (by decide) (by decide)

end Letters

end Cache

end TestRange
