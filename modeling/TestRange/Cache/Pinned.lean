/-
A pinned digest, against a server that answers what it likes.

The digest that is asked for, the one a sidecar names, the one that is downloaded and the
one the bytes hash to are four values.  The last three are made equal by `fetch`; the
first is not compared with any of them.

* `Cache.certified_resolve` — whatever a lookup returns, the local bytes hash to the digest
  it reports;
* `Cache.Misled` — the server answers for a digest with the sidecar of another content;
* `Cache.pinned_iff` — a pinned digest is honoured exactly when the server does not do that.
-/
import TestRange.Cache.Commands

namespace TestRange

namespace Cache

section Pinned

variable {σ : Type} {H : Host} {server : Server σ} {w : World σ}

/-- How a lookup ended, and the world it left. -/
abbrev Outcome (σ : Type) : Type := Except CacheErr CacheEntryInfo × World σ

/-- What is returned has local bytes that hash to the digest it reports. -/
def Certified (H : Host) (out : Outcome σ) : Prop :=
  ∀ e w', out = (.ok e, w') → ∃ b, w'.isos.bins e.sha256 = some b ∧ H.sha256 b = e.sha256

/-- A lookup of the digest `s` raises, or returns the entry of `s`, whose local bytes hash
to `s`. -/
def Honoured (H : Host) (s : String) (out : Outcome σ) : Prop :=
  ∀ e w', out = (.ok e, w') → e.sha256 = s ∧ ∃ b, w'.isos.bins s = some b ∧ H.sha256 b = s

/-! ### What the server says -/

/-- The server serves a file. -/
def Serves (server : Server σ) (s : σ) (path : String) (resp : Response) (s' : σ) : Prop :=
  server (.get path) s = (.ok resp, s') ∧ resp.status ≠ 404 ∧ respOk resp.status = true

theorem exec_getFile_ok {path : String} {resp : Response} {w' : World σ} :
    (getFile path).exec (handler server) w = (.ok resp, w') ↔
      ∃ s', Serves server w.server path resp s' ∧ w' = { w with server := s' } := by
  rw [getFile, Prog.bind_eq_bind, Prog.exec_bind, exec_request]
  rcases hans : server (.get path) w.server with ⟨e | r, s'⟩
  · simp [Serves, hans]
  · rw [Prog.andThen_ok]
    by_cases h404 : r.status = 404
    · rw [if_pos h404]
      constructor
      · rintro ⟨⟩
      · rintro ⟨s'', ⟨hr, hne, -⟩, -⟩
        rw [hans] at hr
        cases hr
        exact absurd h404 hne
    · rw [if_neg h404]
      by_cases hok : respOk r.status = true
      · rw [if_pos hok]
        constructor
        · rintro ⟨⟩
          exact ⟨s', ⟨hans, h404, hok⟩, rfl⟩
        · rintro ⟨s'', ⟨hr, -, -⟩, rfl⟩
          rw [hans] at hr
          cases hr
          rfl
      · rw [if_neg hok]
        constructor
        · rintro ⟨⟩
        · rintro ⟨s'', ⟨hr, -, hok'⟩, -⟩
          rw [hans] at hr
          cases hr
          exact absurd hok' hok

/-- The sidecar the server answers for a digest. -/
def Names (H : Host) (server : Server σ) (s : σ) (sha : String) (info : CacheEntryInfo) (s' : σ) :
    Prop :=
  ∃ resp, Serves server s (sidecarPath sha) resp s' ∧ infoOfText H resp.text = .ok info

theorem exec_httpReadSidecar_ok {sha : String} {info : CacheEntryInfo} {w' : World σ} :
    (httpReadSidecar H sha).exec (handler server) w = (.ok info, w') ↔
      ∃ s', Names H server w.server sha info s' ∧ w' = { w with server := s' } := by
  rw [httpReadSidecar, Prog.bind_eq_bind, Prog.exec_bind]
  rcases hget : (getFile (sidecarPath sha)).exec (handler server) w with ⟨e | resp, w₁⟩
  · constructor
    · rintro ⟨⟩
    · rintro ⟨s', ⟨resp, hserves, -⟩, -⟩
      rw [exec_getFile_ok.mpr ⟨s', hserves, rfl⟩] at hget
      cases hget
  · obtain ⟨s₁, hserves, rfl⟩ := exec_getFile_ok.mp hget
    rw [Prog.andThen_ok]
    constructor
    · intro h
      cases hinfo : infoOfText H resp.text with
      | error e =>
        rw [hinfo] at h
        cases h
      | ok info' =>
        rw [hinfo] at h
        cases h
        exact ⟨s₁, ⟨resp, hserves, hinfo⟩, rfl⟩
    · rintro ⟨s', ⟨resp', hserves', hinfo⟩, rfl⟩
      have heq := hserves.1.symm.trans hserves'.1
      cases heq
      rw [hinfo]
      rfl

/-! ### Fetching -/

/-- What a fetch that ends well has put in place. -/
theorem exec_fetchAndMaterialize_ok {info e : CacheEntryInfo} {w' : World σ} :
    (fetchAndMaterialize H info).exec (handler server) w = (.ok e, w') ↔
      ∃ resp s', Serves server w.server (binPath info.sha256) resp s' ∧
        H.sha256 resp.content = info.sha256 ∧ merged w.isos info = some e ∧
        w' = ⟨⟨w.isos.sidecars.put e,
          Function.update w.isos.bins info.sha256 (some resp.content)⟩, s', w.clock⟩ := by
  simp only [fetchAndMaterialize, fetch, Prog.bind_eq_bind, Prog.exec_bind]
  rcases hget : (getFile (binPath info.sha256)).exec (handler server) w with ⟨e' | resp, w₁⟩
  · constructor
    · rintro ⟨⟩
    · rintro ⟨resp, s', hserves, -⟩
      rw [exec_getFile_ok.mpr ⟨s', hserves, rfl⟩] at hget
      cases hget
  · obtain ⟨s₁, hserves, rfl⟩ := exec_getFile_ok.mp hget
    have hresp : ∀ {resp' : Response} {s' : σ},
        Serves server w.server (binPath info.sha256) resp' s' → resp' = resp ∧ s' = s₁ := by
      intro resp' s' h
      have heq := hserves.1.symm.trans h.1
      cases heq
      exact ⟨rfl, rfl⟩
    rw [Prog.andThen_ok]
    by_cases hhash : H.sha256 resp.content = info.sha256
    · rw [if_pos hhash, exec_putBin, Prog.andThen_ok, exec_writeMaterializedSidecar]
      have hsame : merged ⟨w.isos.sidecars,
          Function.update w.isos.bins info.sha256 (some resp.content)⟩ info = merged w.isos info := rfl
      dsimp only
      rw [hsame]
      constructor
      · intro h
        cases hm : merged w.isos info with
        | none =>
          rw [hm] at h
          cases h
        | some info' =>
          rw [hm] at h
          cases h
          exact ⟨resp, s₁, hserves, hhash, rfl, rfl⟩
      · rintro ⟨resp', s', hserves', -, hm, rfl⟩
        obtain ⟨rfl, rfl⟩ := hresp hserves'
        rw [hm]
    · rw [if_neg hhash]
      constructor
      · rintro ⟨⟩
      · rintro ⟨resp', s', hserves', hhash', -⟩
        obtain ⟨rfl, rfl⟩ := hresp hserves'
        exact absurd hhash' hhash

/-- What is fetched is certified. -/
theorem certified_fetch (info : CacheEntryInfo) :
    Certified H ((fetchAndMaterialize H info).exec (handler server) w) := by
  intro e w' hend
  obtain ⟨resp, s', -, hhash, hm, rfl⟩ := exec_fetchAndMaterialize_ok.mp hend
  have hsha := sha256_merged hm
  rw [hsha]
  exact ⟨resp.content, Function.update_self .., hhash⟩

/-! ### Lookups -/

/-- The two ways in which a lookup ends well. -/
theorem exec_resolve_ok {http : Bool} {identifier : String} {e : CacheEntryInfo} {w' : World σ} :
    (resolve H http identifier true).exec (handler server) w = (.ok e, w') ↔
      (w.isos.resolve identifier = .ok e ∧ w' = w) ∨
      (w.isos.resolve identifier = .error .miss ∧ http = true ∧ ∃ info w₁,
        (httpResolve H identifier).exec (handler server) w = (.ok info, w₁) ∧
        (fetchAndMaterialize H info).exec (handler server) w₁ = (.ok e, w')) := by
  simp only [resolve, Prog.bind_eq_bind, Prog.exec_bind, Prog.exec_attempt, exec_localResolve,
    Prog.andThen_ok]
  rcases hr : w.isos.resolve identifier with err | info
  · cases err with
    | miss =>
      dsimp only
      cases http with
      | false =>
        constructor
        · rintro ⟨⟩
        · rintro (⟨⟨⟩, -⟩ | ⟨-, ⟨⟩, -⟩)
      | true =>
        rw [if_pos rfl, Prog.exec_bind]
        rcases hend : (httpResolve H identifier).exec (handler server) w with ⟨err | info, w₁⟩
        · constructor
          · rintro ⟨⟩
          · rintro (⟨⟨⟩, -⟩ | ⟨-, -, info, w₁, ⟨⟩, -⟩)
        · rw [Prog.andThen_ok, if_pos trivial]
          constructor
          · intro h
            exact .inr ⟨rfl, rfl, info, w₁, rfl, h⟩
          · rintro (⟨⟨⟩, -⟩ | ⟨-, -, info', w₁', heq, h⟩)
            cases heq
            exact h
    | cache =>
      constructor
      · rintro ⟨⟩
      · rintro (⟨⟨⟩, -⟩ | ⟨⟨⟩, -⟩)
    | other =>
      constructor
      · rintro ⟨⟩
      · rintro (⟨⟨⟩, -⟩ | ⟨⟨⟩, -⟩)
  · constructor
    · rintro ⟨⟩
      exact .inl ⟨rfl, rfl⟩
    · rintro (⟨⟨⟩, rfl⟩ | ⟨⟨⟩, -⟩)
      rfl

/-- **Whatever a lookup returns, the local bytes hash to the digest it reports.** -/
theorem certified_resolve (hw : Intact H w.isos) (http : Bool) (identifier : String) :
    Certified H ((resolve H http identifier true).exec (handler server) w) := by
  intro e w' hend
  rcases exec_resolve_ok.mp hend with ⟨hr, rfl⟩ | ⟨-, -, info, w₁, -, hfetch⟩
  · obtain ⟨b, hb⟩ := hw.present e (Isos.mem_of_resolve hr)
    exact ⟨b, hb, hw.hashes hb⟩
  · exact certified_fetch info e w' hfetch

/-! ### Pinned digests -/

/-- There is an HTTP tier, the digest is not held locally, and the server answers for it
with a sidecar that names another one, whose content it then serves; what else its list
of names holds may be the keys of a `dict`. -/
def Misled (H : Host) (server : Server σ) (w : World σ) (http : Bool) (s : String) : Prop :=
  http = true ∧ (∀ e ∈ w.isos.sidecars, e.sha256 ≠ s) ∧
    ∃ info s₁ resp s₂, Names H server w.server s info s₁ ∧ info.sha256 ≠ s ∧
      Serves server s₁ (binPath info.sha256) resp s₂ ∧ H.sha256 resp.content = info.sha256 ∧
      ∀ e ∈ w.isos.sidecars, e.sha256 = info.sha256 → (e.others ++ info.others).all hashable = true

/-- A fetched entry can be recorded. -/
theorem merged_isSome {c : Isos} {info : CacheEntryInfo} : (merged c info).isSome = true ↔
    ∀ e ∈ c.sidecars, e.sha256 = info.sha256 → (e.others ++ info.others).all hashable = true := by
  unfold merged
  cases hfind : c.sidecars.find info.sha256 with
  | none =>
    have hnone := Keyed.find_eq_none.mp hfind
    exact ⟨fun _ e he heq => absurd heq (hnone e he), fun _ => rfl⟩
  | some existing =>
    obtain ⟨hmem, hkey⟩ := Keyed.find_eq_some.mp hfind
    dsimp only
    split_ifs with hhash
    · refine ⟨fun _ e he heq => ?_, fun _ => rfl⟩
      rwa [Keyed.eq_of_key_eq he hmem (heq.trans hkey.symm)]
    · constructor
      · intro h
        cases h
      · intro h
        exact absurd (h existing hmem hkey) hhash

theorem fullSha_of_isSha {s : String} (hs : IsSha s) : fullSha s = true := by
  simp [fullSha, hs.looksLikeSha, ← String.length_toList, hs.2]

/-- Where every entry is under a digest, a digest that is not held is a miss. -/
theorem resolve_miss {c : Isos} (hsha : ∀ e ∈ c.sidecars, IsSha e.sha256) {s : String}
    (hs : IsSha s) : c.resolve s = .error .miss ↔ ∀ e ∈ c.sidecars, e.sha256 ≠ s := by
  have hne : s ≠ "" := by
    rintro rfl
    have := hs.2
    simp at this
  have hmatch : ∀ e ∈ c.sidecars, startsWith e.sha256 s = true → e.sha256 = s :=
    fun e he h => (hsha e he).eq_of_startsWith hs h
  rw [Isos.resolve, if_neg hne, if_pos hs.looksLikeSha]
  have hnil := Keyed.select_eq_nil (s := c.sidecars) (p := fun info => startsWith info.sha256 s)
  constructor
  · intro h e he heq
    split at h
    case h_1 hempty =>
      refine hnil.mp hempty e he ?_
      rw [heq]
      exact startsWith_self s
    case h_2 => cases h
    case h_3 => cases h
  · intro h
    rw [hnil.mpr fun e he hstart => h e he (hmatch e he hstart)]

/-- **A pinned digest is honoured exactly when the server does not mislead.** -/
theorem honoured_iff (hw : Intact H w.isos) (http : Bool) {s : String} (hs : IsSha s) :
    Honoured H s ((resolve H http s true).exec (handler server) w) ↔
      ¬ Misled H server w http s := by
  have hsha : ∀ e ∈ w.isos.sidecars, IsSha e.sha256 := by
    intro e he
    obtain ⟨b, hb⟩ := hw.present e he
    rw [← hw.hashes hb]
    exact H.isSha b
  have hne : s ≠ "" := by
    rintro rfl
    have := hs.2
    simp at this
  have hhttp : httpResolve H s = httpReadSidecar H s := by
    rw [httpResolve, if_neg hne, if_pos (fullSha_of_isSha hs)]
  constructor
  · rintro h ⟨rfl, hmiss, info, s₁, resp, s₂, hnames, hother, hserves, hhash, hmerged⟩
    obtain ⟨e, he⟩ := Option.isSome_iff_exists.mp (merged_isSome.mpr hmerged)
    have hread := exec_httpReadSidecar_ok.mpr ⟨s₁, hnames, rfl⟩
    rw [← hhttp] at hread
    have hfetch := exec_fetchAndMaterialize_ok (w := { w with server := s₁ }).mpr
      ⟨resp, s₂, hserves, hhash, he, rfl⟩
    obtain ⟨heq, -⟩ := h e _ (exec_resolve_ok.mpr
      (.inr ⟨(resolve_miss hsha hs).mpr hmiss, rfl, info, _, hread, hfetch⟩))
    exact hother ((sha256_merged he).symm.trans heq)
  · intro hnot e w' hend
    have hkey : e.sha256 = s := by
      rcases exec_resolve_ok.mp hend with ⟨hr, rfl⟩ | ⟨hmiss, rfl, info, w₁, hread, hfetch⟩
      · obtain ⟨he, hstart, -⟩ := (Isos.resolve_sha hs.looksLikeSha).mp hr
        exact (hsha e he).eq_of_startsWith hs hstart
      · rw [hhttp] at hread
        obtain ⟨s₁, hnames, rfl⟩ := exec_httpReadSidecar_ok.mp hread
        obtain ⟨resp, s₂, hserves, hhash, hm, -⟩ := exec_fetchAndMaterialize_ok.mp hfetch
        rw [sha256_merged hm]
        by_contra hother
        exact hnot ⟨rfl, (resolve_miss hsha hs).mp hmiss, info, s₁, resp, s₂, hnames, hother,
          hserves, hhash, merged_isSome.mp (Option.isSome_iff_exists.mpr ⟨e, hm⟩)⟩
    refine ⟨hkey, ?_⟩
    have hcert := certified_resolve hw http s e w' hend
    rwa [hkey] at hcert

/-- **A pinned digest against an untrusted server**: after any commands, whatever the server
answers, the digest `s` is honoured and every lookup is certified exactly when the server
does not mislead about `s`. -/
theorem pinned_iff (H : Host) (server : Server σ) (server₀ server₁ : σ) (clock₀ clock₁ : String)
    (steps : List (Step σ)) (http : Bool) {s : String} (hs : IsSha s) :
    let w : World σ := ⟨(after H server server₀ clock₀ steps).isos, server₁, clock₁⟩
    (Honoured H s ((resolve H http s true).exec (handler server) w) ∧
        ∀ identifier, Certified H ((resolve H http identifier true).exec (handler server) w)) ↔
      ¬ Misled H server w http s := by
  intro w
  have hw : Intact H w.isos := intact_after steps
  rw [← honoured_iff hw http hs]
  exact and_iff_left fun identifier => certified_resolve hw http identifier

end Pinned

/-! ### A server that swaps two contents -/

namespace Letters

/-- A server that answers for `b` with the sidecar of `a`, and serves `a`. -/
def swapped : Server Unit
  | .get path, s =>
    if path = sidecarPath shaB then (.ok ⟨200, sidecarBody (entry shaA []), []⟩, s)
    else if path = binPath shaA then (.ok ⟨200, [], [97]⟩, s)
    else (.ok ⟨404, [], []⟩, s)
  | _, s => (.ok ⟨204, [], []⟩, s)

theorem misled_swapped : Misled host swapped ⟨.empty, (), ""⟩ true shaB := by
  refine ⟨rfl, fun e he => absurd he Keyed.not_mem_empty, entry shaA [], (), ⟨200, [], [97]⟩, (),
    ⟨⟨200, sidecarBody (entry shaA []), []⟩, ⟨rfl, by decide, by decide⟩, ?_⟩, by decide,
    ⟨?_, by decide, by decide⟩, rfl, fun e he => absurd he Keyed.not_mem_empty⟩
  · exact infoOfText_sidecarBody host (wellTyped_entry shaA [])
  · have hne : binPath (entry shaA []).sha256 ≠ sidecarPath shaB := by decide
    simp only [swapped, if_neg hne]
    rfl

/-- Asked for `b` by its digest, an empty cache returns the entry of `a`. -/
theorem pinned_swapped : ¬ (IsSha shaB → Honoured host shaB
    ((resolve host true shaB true).exec (handler swapped) ⟨.empty, (), ""⟩)) := by
  intro h
  exact (honoured_iff intact_empty true isSha_B).mp (h isSha_B) misled_swapped

/-! ### A server that answers for the digest it is asked -/

/-- A server that has the content `b` under its own digest. -/
def stocked : Server Unit
  | .get path, s =>
    if path = sidecarPath shaB then (.ok ⟨200, sidecarBody (entry shaB []), []⟩, s)
    else if path = binPath shaB then (.ok ⟨200, [], [98]⟩, s)
    else (.ok ⟨404, [], []⟩, s)
  | _, s => (.ok ⟨204, [], []⟩, s)

/-- A manager that has added `a`. -/
def holdsA : World Unit :=
  ⟨(after host stocked () "" [⟨false, .add [97] "a" none none, (), ""⟩]).isos, (), ""⟩

theorem names_stocked : Names host stocked () shaB (entry shaB []) () :=
  ⟨⟨200, sidecarBody (entry shaB []), []⟩, ⟨rfl, by decide, by decide⟩,
    infoOfText_sidecarBody host (wellTyped_entry shaB [])⟩

theorem serves_stocked : Serves stocked () (binPath shaB) ⟨200, [], [98]⟩ () := by
  have hne : binPath shaB ≠ sidecarPath shaB := by decide
  refine ⟨?_, by decide, by decide⟩
  simp only [stocked, if_neg hne]
  rfl

theorem holdsA_missing : ∀ e ∈ holdsA.isos.sidecars, e.sha256 ≠ shaB := by
  intro e he
  rw [List.mem_singleton.mp he]
  decide

/-- What the server has for the digest is fetched. -/
theorem resolve_stocked : ∃ e w', (resolve host true shaB true).exec (handler stocked) holdsA =
    (.ok e, w') ∧ w'.isos.bins shaB = some [98] := by
  have hmiss := (resolve_miss (c := holdsA.isos) (fun e he => by
    rw [List.mem_singleton.mp he]
    exact isSha_A) isSha_B).mpr holdsA_missing
  have hread : (httpResolve host shaB).exec (handler stocked) holdsA = (.ok (entry shaB []), holdsA) := by
    rw [httpResolve, if_neg (by decide), if_pos (fullSha_of_isSha isSha_B)]
    exact exec_httpReadSidecar_ok.mpr ⟨(), names_stocked, rfl⟩
  have hmerged : (merged holdsA.isos (entry shaB [])).isSome = true :=
    merged_isSome.mpr fun e he heq => absurd heq (holdsA_missing e he)
  obtain ⟨e, he⟩ := Option.isSome_iff_exists.mp hmerged
  have hfetch : (fetchAndMaterialize host (entry shaB [])).exec (handler stocked) holdsA =
      (.ok e, _) :=
    exec_fetchAndMaterialize_ok.mpr ⟨⟨200, [], [98]⟩, (), serves_stocked, rfl, he, rfl⟩
  exact ⟨e, _, exec_resolve_ok.mpr (.inr ⟨hmiss, rfl, entry shaB [], holdsA, hread, hfetch⟩),
    show Function.update holdsA.isos.bins shaB _ shaB = _ from Function.update_self ..⟩

/-- The digest of `b` is honoured by this server: an entry of it is returned, with the content. -/
theorem pinned_stocked :
    Honoured host shaB ((resolve host true shaB true).exec (handler stocked) holdsA) ∧
      (∀ identifier, Certified host ((resolve host true identifier true).exec (handler stocked) holdsA)) ∧
      ∃ e w', (resolve host true shaB true).exec (handler stocked) holdsA = (.ok e, w') ∧
        e.sha256 = shaB ∧ w'.isos.bins shaB = some [98] := by
  have hfaithful : ¬ Misled host stocked holdsA true shaB := by
    rintro ⟨-, -, info, s₁, -, -, hnames, hother, -⟩
    obtain ⟨hexec, -⟩ := Prod.mk.inj
      ((exec_httpReadSidecar_ok (w := holdsA).mpr ⟨s₁, hnames, rfl⟩).symm.trans
        (exec_httpReadSidecar_ok (w := holdsA).mpr ⟨(), names_stocked, rfl⟩))
    cases hexec
    exact hother rfl
  obtain ⟨hhonoured, hcertified⟩ := (pinned_iff host stocked () () "" ""
    [⟨false, .add [97] "a" none none, (), ""⟩] true isSha_B).mpr hfaithful
  obtain ⟨e, w', hend, hbin⟩ := resolve_stocked
  exact ⟨hhonoured, hcertified, e, w', hend, (hhonoured e w' hend).1, hbin⟩

end Letters

end Cache

end TestRange
