/-
A name that was attached, and what it then finds.

Whether an identifier is looked up as a digest or as a name is decided by its spelling, and
the two tiers decide it differently: locally any 16 to 64 hexadecimal characters are the
start of a digest, on the server only 64 of them are one.

* `Cache.Selects`, `Cache.SelectsFull` — the spellings that lead to an entry in spite of
  that;
* `Cache.resolve_put_iff` — a recorded name leads to its entry exactly with such a
  spelling;
* `Cache.found_iff` — and so it does for a second manager;
* `Cache.usable_iff` — after `add` and `add_name`, from any state that commands lead to.
-/
import TestRange.Cache.Frame

namespace TestRange

namespace Cache

/-! ### Locally -/

/-- Looked up as a digest or as a name, `n` leads to the entry of `sha`: if it is spelled
like a digest, that of `sha` starts with it, and no other one does. -/
def Selects (c : Isos) (sha n : String) : Prop :=
  looksLikeSha n = true →
    startsWith sha n = true ∧ ∀ f ∈ c.sidecars, startsWith f.sha256 n = true → f.sha256 = sha

theorem ne_empty_of_validName {n : String} (hn : validName n = true) : n ≠ "" := by
  rintro rfl
  exact absurd hn (by decide)

/-- **A recorded name**: it resolves to its entry exactly when its spelling selects it. -/
theorem resolve_put_iff {c : Isos} {e : CacheEntryInfo} {n : String} (bins : String → Option Bytes)
    (hn : validName n = true) (he : n ∈ e.names) (hfree : Free c e.sha256 n) :
    (⟨c.sidecars.put e, bins⟩ : Isos).resolve n = .ok e ↔ Selects c e.sha256 n := by
  have hself : e ∈ c.sidecars.put e := Keyed.mem_put.mpr (.inl rfl)
  by_cases hsha : looksLikeSha n = true
  · rw [Isos.resolve_sha hsha]
    constructor
    · rintro ⟨-, hstart, honly⟩ -
      refine ⟨hstart, fun f hf hfstart => ?_⟩
      by_cases heq : f.sha256 = e.sha256
      · exact heq
      · rw [honly f (Keyed.mem_put.mpr (.inr ⟨hf, heq⟩)) hfstart]
    · intro hselects
      obtain ⟨hstart, honly⟩ := hselects hsha
      refine ⟨hself, hstart, fun f hf hfstart => ?_⟩
      rcases Keyed.mem_put.mp hf with rfl | ⟨hf, hne⟩
      · rfl
      · exact absurd (honly f hf hfstart) hne
  · rw [Isos.resolve_name (ne_empty_of_validName hn) hsha]
    refine iff_of_true ⟨hself, he, fun f hf hnf => ?_⟩ fun h => absurd h hsha
    -- No other entry has the name, so the first that has it is this one.
    rcases Keyed.mem_put.mp hf with rfl | ⟨hf, hne⟩
    · exact le_rfl
    · exact absurd hnf (hfree f hf hne)

section Local

variable {σ : Type} {H : Host} {server : Server σ} {w w' : World σ} {n : String}
  {e : CacheEntryInfo}

/-- After `add`. -/
theorem resolve_add_iff (hn : validName n = true) {content : Bytes} {origin : String}
    {description : Option String}
    (hend : (add H content origin (some n) description).exec (handler server) w = (.ok e, w'))
    (hfree : Free w.isos (H.sha256 content) n) :
    (localResolve n).exec (handler server) w' = (.ok e, w') ↔ Selects w.isos (H.sha256 content) n := by
  have hname : ¬ (some n).any (!validName ·) := by simp [hn]
  rw [exec_add server w H hname content origin description] at hend
  obtain ⟨he, hw'⟩ := Prod.mk.inj hend
  have he := Except.ok.inj he
  have hsha : e.sha256 = H.sha256 content := by rw [← he, sha256_added]
  have hnames : n ∈ e.names := by
    rw [← he, mem_names_added]
    exact .inl rfl
  rw [← hsha] at hfree ⊢
  rw [exec_localResolve, Prod.mk.injEq, and_iff_left rfl, ← resolve_put_iff _ hn hnames hfree, ← hw',
    ← he]

/-- After `add_name`. -/
theorem resolve_addName_iff (hn : validName n = true) {identifier : String}
    (hend : (addNameLocal identifier n).exec (handler server) w = (.ok e, w'))
    (hfree : Free w.isos e.sha256 n) :
    (localResolve n).exec (handler server) w' = (.ok e, w') ↔ Selects w.isos e.sha256 n := by
  rw [exec_addNameLocal, if_pos hn] at hend
  rw [exec_localResolve, Prod.mk.injEq, and_iff_left rfl]
  cases hr : w.isos.resolve identifier with
  | error err => rw [hr] at hend; cases hend
  | ok info =>
    have hinfo := Isos.mem_of_resolve hr
    rw [hr] at hend
    dsimp only at hend
    split_ifs at hend with hmem hclash
    · -- The entry had the name before.
      cases hend
      rw [← resolve_put_iff w.isos.bins hn hmem hfree, Keyed.put_of_mem hinfo]
    · cases hend
    · cases hend
      exact resolve_put_iff w.isos.bins hn (List.mem_append_right info.names (List.mem_singleton.mpr rfl)) hfree

end Local

/-! ### For another manager -/

/-- Looked up on the server as a digest or as a name, `n` leads to the entry of `sha`. -/
def SelectsFull (sha n : String) : Prop := fullSha n = true → n = sha

instance (sha n : String) : Decidable (SelectsFull sha n) := inferInstanceAs (Decidable (_ → _))

/-- A manager that finds `n` gets the entry of `sha`, and for its content that of `isos`. -/
def Found (H : Host) (isos : Isos) (sha n : String) (w : World Files) : Prop :=
  ∃ e w', (resolve H true n true).exec (handler fileStore) w = (.ok e, w') ∧ e.sha256 = sha ∧
    w'.isos.bins sha = isos.bins sha

theorem resolve_empty {n : String} (hne : n ≠ "") : Isos.empty.resolve n = .error .miss := by
  have hlist : Isos.empty.sidecars.items = [] := rfl
  rw [Isos.resolve, if_neg hne, Keyed.select, Keyed.first, hlist]
  split_ifs <;> rfl

/-- **A manager without local files** finds what the server has. -/
theorem exec_resolve_empty {H : Host} {w : World Files} {s : Shelf} (hw : Depicts H w ⟨.empty, s⟩)
    {n : String} (hne : n ≠ "") :
    (resolve H true n true).exec (handler fileStore) w =
      match s.resolve n with
      | .ok info => (.ok info, { w with
          isos := ⟨Isos.empty.sidecars.put info, Function.update Isos.empty.bins info.sha256
            (s.bins info.sha256)⟩ })
      | .error err => (.error err, w) := by
  have hmiss : w.isos.resolve n = .error .miss := by rw [hw.isos, resolve_empty hne]
  have hask := exec_httpResolve hw.shows hw.shelf_sound n
  cases hr : s.resolve n with
  | error err =>
    rw [hr] at hask
    simp only [resolve, Prog.bind_eq_bind, Prog.exec_bind, Prog.exec_attempt, exec_localResolve, hmiss,
      Prog.andThen_ok, if_true, hask, Prog.andThen_error]
  | ok info =>
    rw [hr] at hask
    have hinfo := hw.shelf_sound.of_resolve hr
    obtain ⟨b, hb, hhash⟩ := hw.shelf_sound.content hinfo
    have hfile := hw.shows.bin info.sha256
    rw [hb] at hfile
    have hserves : Serves fileStore w.server (binPath info.sha256) ⟨200, [], b⟩ w.server := by
      refine ⟨?_, by simp, rfl⟩
      simp only [fileStore, hfile]
      rfl
    have hmerged : merged w.isos info = some info := by rw [hw.isos]; rfl
    have hfetch := exec_fetchAndMaterialize_ok.mpr ⟨_, _, hserves, hhash, hmerged, rfl⟩
    rw [exec_resolve_ok.mpr (.inr ⟨hmiss, rfl, info, w, hask, hfetch⟩), hw.isos]
    exact congrArg (fun c => (Except.ok info, { w with
      isos := ⟨Isos.empty.sidecars.put info, Function.update Isos.empty.bins info.sha256 c⟩ })) hb.symm

/-- What a shelf has for a name after the push of an entry with that name. -/
theorem resolve_push {s : Shelf} {info : CacheEntryInfo} {content : Bytes} {n : String} (hne : n ≠ "")
    (hn : n ∈ info.names) (hselects : SelectsFull info.sha256 n) :
    (s.push info content).resolve n = .ok info := by
  have hread : (s.push info content).read info.sha256 = .ok info := by
    simp [Shelf.read, Shelf.push]
  rw [Shelf.resolve, if_neg hne]
  split_ifs with hfull
  · rw [hselects hfull, hread]
  · rw [show (s.push info content).names n = some info.sha256 from if_pos hn]
    exact hread

section Fleets

variable {ι : Type} [DecidableEq ι] {H : Host}

/-- A manager that adds a content pushes an entry with the name, and the bytes it keeps. -/
theorem Fleet.Sound.add {F : Fleet ι} {s : Shelf} (hF : F.Sound H s) (i : ι) {n : String}
    (hn : validName n = true) (content : Bytes) (origin : String) (description : Option String)
    (clock : String) : ∃ info b, info.sha256 = H.sha256 content ∧ n ∈ info.names ∧
      let F' := (⟨i, true, .add content origin (some n) description, clock⟩ : Move ι).apply H F
      F'.Sound H (s.push info b) ∧ (F'.locals i).bins (H.sha256 content) = some b := by
  have hvalid : ¬ (some n).any (!validName ·) := by simp [hn]
  have hcmd := exec_command (hF.depicts i clock) true (.add content origin (some n) description)
  obtain ⟨b, hb⟩ := keepOr_isSome (F.locals i).bins (H.sha256 content) content
  let info := added (F.locals i) clock (H.sha256 content)
    (binSize (keepOr (F.locals i).bins (H.sha256 content) content) (H.sha256 content)) origin (some n)
    description
  have hsha : info.sha256 = H.sha256 content := sha256_added ..
  have hnames : n ∈ info.names := (mem_names_added ..).mpr (.inl rfl)
  have heffect : effect H true clock ⟨F.locals i, s⟩ (.add content origin (some n) description) =
      ⟨⟨(F.locals i).sidecars.put info, keepOr (F.locals i).bins (H.sha256 content) content⟩,
        s.push info b⟩ := by
    rw [effect, if_neg hvalid]
    dsimp only
    rw [hb]
    rfl
  have hcmd : Depicts H _ _ := heffect ▸ hcmd
  refine ⟨info, b, hsha, hnames, hF.set hcmd, ?_⟩
  rw [Move.apply, Fleet.set]
  dsimp only
  rw [Function.update_self, hcmd.isos]
  exact hb

/-- **After `CacheManager.add`**, another manager finds the name exactly when its spelling
selects the entry on the server. -/
theorem found_iff (moves : List (Move ι)) {n : String} (hn : validName n = true) {i j : ι} (hij : j ≠ i)
    (hempty : (Fleet.after H moves).locals j = .empty) (content : Bytes) (origin : String)
    (description : Option String) (clock clock' : String) :
    let F := Fleet.after H (moves ++ [⟨i, true, .add content origin (some n) description, clock⟩])
    Found H (F.locals i) (H.sha256 content) n (F.world j clock') ↔ SelectsFull (H.sha256 content) n := by
  have hne := ne_empty_of_validName hn
  obtain ⟨s, hF⟩ := Fleet.sound_after (H := H) moves
  obtain ⟨info, b, hsha, hnames, hF', hbin⟩ := hF.add i hn content origin description clock
  rw [Fleet.after_concat]
  intro F
  have hsecond : F.locals j = .empty := (Function.update_of_ne hij ..).trans hempty
  have hdepicts := hF'.depicts j clock'
  rw [hsecond] at hdepicts
  have hfind := exec_resolve_empty hdepicts hne
  constructor
  · rintro ⟨e, w', hend, hesha, -⟩ hfull
    rw [hfind] at hend
    cases hr : (s.push info b).resolve n with
    | error err => rw [hr] at hend; cases hend
    | ok info' =>
      rw [hr] at hend
      cases hend
      -- A digest in full is read under itself.
      rw [Shelf.resolve, if_neg hne, if_pos hfull, Shelf.read] at hr
      cases hread : (s.push info b).sidecars n with
      | none => rw [hread] at hr; cases hr
      | some info' =>
        rw [hread] at hr
        cases hr
        rw [← hesha, hF'.shelf.sha hread]
  · intro hselects
    rw [← hsha] at hselects hbin ⊢
    have hpushed : (s.push info b).bins info.sha256 = some b := Function.update_self ..
    rw [resolve_push hne hnames hselects] at hfind
    refine ⟨_, _, hfind, rfl, ?_⟩
    rw [hbin, hpushed]
    exact Function.update_self ..

end Fleets

/-- **A name is usable once added**, in the spellings that select its entry: after any
commands, with any server, `add` and `add_name` return an entry that the name resolves to
exactly when `Selects` holds; and when managers share an honest server, one without local
files finds the content exactly when `SelectsFull` does. -/
theorem usable_iff (H : Host) {n : String} (hn : validName n = true) :
    (∀ {σ : Type} (server : Server σ) (server₀ server₁ : σ) (clock₀ clock₁ : String)
      (steps : List (Step σ)) (e : CacheEntryInfo) (w' : World σ),
      let w : World σ := ⟨(after H server server₀ clock₀ steps).isos, server₁, clock₁⟩
      (∀ content origin description,
        (add H content origin (some n) description).exec (handler server) w = (.ok e, w') →
        Free w.isos (H.sha256 content) n →
        ((localResolve n).exec (handler server) w' = (.ok e, w') ↔
          Selects w.isos (H.sha256 content) n)) ∧
      (∀ identifier,
        (addNameLocal identifier n).exec (handler server) w = (.ok e, w') →
        Free w.isos e.sha256 n →
        ((localResolve n).exec (handler server) w' = (.ok e, w') ↔ Selects w.isos e.sha256 n))) ∧
    ∀ {ι : Type} [DecidableEq ι] (moves : List (Move ι)) (i j : ι), j ≠ i →
      (Fleet.after H moves).locals j = .empty →
      ∀ content origin description clock clock',
        let F := Fleet.after H (moves ++ [⟨i, true, .add content origin (some n) description, clock⟩])
        Found H (F.locals i) (H.sha256 content) n (F.world j clock') ↔
          SelectsFull (H.sha256 content) n := by
  refine ⟨fun server server₀ server₁ clock₀ clock₁ steps e w' => ⟨?_, ?_⟩, ?_⟩
  · intro content origin description hend hfree
    exact resolve_add_iff hn hend hfree
  · intro identifier hend hfree
    exact resolve_addName_iff hn hend hfree
  · intro ι _ moves i j hij hempty content origin description clock clock'
    exact found_iff moves hn hij hempty content origin description clock clock'

/-! ### A name of hexadecimal letters -/

namespace Letters

/-- Added to an empty cache under the name `deadbeefdeadbeef`, a content is not found by it. -/
theorem hex_name_unusable : ¬ ∀ (n : String) (content : Bytes) (e : CacheEntryInfo) (w' : World Unit),
    validName n = true → Free .empty (host.sha256 content) n →
    (add host content "disk" (some n) none).exec (handler swapped) ⟨.empty, (), ""⟩ = (.ok e, w') →
    (localResolve n).exec (handler swapped) w' = (.ok e, w') := by
  intro h
  have hname : ¬ (some "deadbeefdeadbeef").any (!validName ·) := by decide
  have hfree : Free .empty (host.sha256 [97]) "deadbeefdeadbeef" :=
    fun f hf => absurd hf Keyed.not_mem_empty
  have hend := exec_add swapped ⟨.empty, (), ""⟩ host hname [97] "disk" none
  have hfound := h "deadbeefdeadbeef" [97] _ _ (by decide) hfree hend
  have hselects := (resolve_add_iff (by decide) hend hfree).mp hfound (by decide)
  exact absurd hselects.1 (by decide)

/-- The name `debian` is usable. -/
theorem usable_debian :
    let F := Fleet.after host [(⟨true, true, .add [97] "disk" (some "debian") none, ""⟩ : Move Bool)]
    Found host (F.locals true) shaA "debian" (F.world false "") :=
  ((usable_iff host (show validName "debian" = true by decide)).2 [] true false (by decide) rfl [97]
    "disk" none "" "").mpr (by decide)

end Letters

end Cache

end TestRange
