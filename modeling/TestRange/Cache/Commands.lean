/-
What a command of the cache can do to the local files.

Whatever a server answers, a command changes `isos/` in one of a few ways; every property
of the local cache is read off from these.

* `Cache.Command.prog` — the commands of a manager, with or without an HTTP tier;
* `Cache.Change` — the ways in which a command changes the local files;
* `Cache.change_of_command` — a command changes them in one of these ways;
* `Cache.Intact`, `Cache.intact_after` — every sidecar has its content, and every content hashes
  to its name, after any commands and for any server;
* `Cache.Letters` — contents of one letter, for small runs.
-/
import Mathlib.Data.List.Induction
import TestRange.Cache.Manager

namespace TestRange

namespace Cache

/-- What a manager is asked to do. -/
inductive Command
  | add (content : Bytes) (origin : String) (name description : Option String)
  | delete (identifier : String)
  | purge
  | addName (identifier newName : String)
  | forgetName (name : String)
  | resolve (identifier : String) (fetching : Bool)
  | push (identifier : String)
  | pull (identifier : String)

/-- Run for the effect. -/
def discard {α : Type} (p : CacheProg α) : CacheProg Unit := do
  let _ ← p
  pure ()

/-- The program of a command; `http` says whether the manager has an HTTP tier. -/
def Command.prog (H : Host) (http : Bool) : Command → CacheProg Unit
  | .add content origin name description => discard (managerAdd H http content origin name description)
  | .delete identifier => discard (Cache.delete http identifier)
  | .purge => discard Cache.purge
  | .addName identifier newName => discard (Cache.addName H http identifier newName)
  | .forgetName name => discard (Cache.forgetName H http name)
  | .resolve identifier fetching => discard (Cache.resolve H http identifier fetching)
  | .push identifier => discard (pushEntry http identifier)
  | .pull identifier => discard (Cache.pull H http identifier)

/-! ### Programs that leave the local files alone -/

section Remote

variable {σ : Type} {server : Server σ} {α β : Type}

/-- The program leaves the local files and the clock alone. -/
def Remote (server : Server σ) (p : CacheProg α) : Prop :=
  ∀ w, (p.exec (handler server) w).2.isos = w.isos ∧ (p.exec (handler server) w).2.clock = w.clock

theorem Remote.ret (a : α) : Remote server (.ret a) := fun _ => ⟨rfl, rfl⟩

theorem Remote.raise (e : CacheErr) : Remote server (.raise e : CacheProg α) := fun _ => ⟨rfl, rfl⟩

theorem Remote.bind {p : CacheProg α} {f : α → CacheProg β} (hp : Remote server p)
    (hf : ∀ a, Remote server (f a)) : Remote server (p.bind f) := by
  intro w
  obtain ⟨hisos, hclock⟩ := hp w
  rw [Prog.exec_bind]
  rcases hend : p.exec (handler server) w with ⟨e | a, w'⟩
  · rw [hend] at hisos hclock
    exact ⟨hisos, hclock⟩
  · rw [hend] at hisos hclock
    obtain ⟨hisos', hclock'⟩ := hf a w'
    exact ⟨hisos'.trans hisos, hclock'.trans hclock⟩

theorem Remote.attempt {p : CacheProg α} (hp : Remote server p) : Remote server p.attempt := by
  intro w
  rw [Prog.exec_attempt]
  exact hp w

theorem Remote.ignore {p : CacheProg α} (hp : Remote server p) : Remote server p.ignore := by
  intro w
  rw [Prog.exec_ignore]
  exact hp w

theorem Remote.ofExcept (r : Except CacheErr α) : Remote server (.ofExcept r) := by
  cases r with
  | ok a => exact .ret a
  | error e => exact .raise e

theorem Remote.ite {c : Prop} [Decidable c] {p q : CacheProg α} (hp : Remote server p)
    (hq : Remote server q) : Remote server (if c then p else q) := by
  split_ifs
  · exact hp
  · exact hq

theorem Remote.forM {xs : List β} {f : β → CacheProg PUnit} (hf : ∀ x, Remote server (f x)) :
    Remote server (xs.forM f) := by
  induction xs with
  | nil => exact .ret _
  | cons x xs ih => exact .bind (hf x) fun _ => ih

theorem remote_request (r : Request) : Remote server (request r) := by
  intro w
  rw [exec_request]
  exact ⟨rfl, rfl⟩

theorem remote_readBin (sha : String) : Remote server (readBin sha) := by
  intro w
  rw [exec_readBin]
  exact ⟨rfl, rfl⟩

theorem remote_getFile (path : String) : Remote server (getFile path) :=
  .bind (remote_request _) fun _ => .ite (.raise _) (.ite (.ret _) (.raise _))

theorem remote_resolveName (name : String) : Remote server (resolveName name) :=
  .bind (remote_getFile _) fun _ => .ite (.ret _) (.raise _)

variable (H : Host)

theorem remote_httpReadSidecar (sha : String) : Remote server (httpReadSidecar H sha) :=
  .bind (remote_getFile _) fun _ => .ofExcept _

theorem remote_httpResolve (identifier : String) : Remote server (httpResolve H identifier) :=
  .ite (.raise _) (.ite (remote_httpReadSidecar H _)
    (.bind (remote_resolveName _) fun _ => remote_httpReadSidecar H _))

theorem remote_putFile (path : String) (text : List Char) (content : Bytes) :
    Remote server (putFile path text content) :=
  .bind (remote_request _) fun _ => .ite (.ret _) (.raise _)

theorem remote_putName (name sha : String) : Remote server (putName name sha) :=
  .ite (remote_putFile _ _ _) (.raise _)

theorem remote_deleteQuiet (path : String) : Remote server (deleteQuiet path) :=
  .bind (remote_request _) fun _ => .ite (.ret _) (.raise _)

theorem remote_push (info : CacheEntryInfo) : Remote server (push info) :=
  .bind (remote_readBin _) fun _ => .bind (remote_putFile _ _ _) fun _ =>
    .bind (remote_putFile _ _ _) fun _ => .forM fun _ => remote_putName _ _

theorem remote_httpDelete (info : CacheEntryInfo) : Remote server (httpDelete info) :=
  .bind (.forM fun _ => remote_deleteQuiet _) fun _ =>
    .bind (remote_deleteQuiet _) fun _ => remote_deleteQuiet _

theorem remote_httpAddName (sha name : String) : Remote server (httpAddName H sha name) := by
  refine .ite (.bind (remote_httpReadSidecar H _).attempt ?_) (.raise _)
  rintro (e | info)
  · cases e <;> exact .raise _
  · exact .bind (.ite (.ret _) (remote_putFile _ _ _)) fun _ => remote_putName _ _

theorem remote_httpForgetName (name : String) : Remote server (httpForgetName H name) := by
  refine .bind (remote_resolveName _).attempt ?_
  rintro (e | sha)
  · cases e <;> first | exact .ret _ | exact .raise _
  · refine .bind (remote_deleteQuiet _) fun _ => .bind (remote_httpReadSidecar H _).attempt ?_
    rintro (e | info)
    · cases e <;> first | exact .ret _ | exact .raise _
    · exact remote_putFile _ _ _

theorem remote_mirror {http : Bool} {body : CacheProg Unit} (h : Remote server body) :
    Remote server (mirror http body) :=
  .ite h.ignore (.ret _)

end Remote

/-! ### Changes of the local files -/

/-- The ways in which a command changes the local files. -/
inductive Change (H : Host) (c : Isos) : Isos → Prop
  | same : Change H c c
  /-- A fetched content whose sidecar could not be written. -/
  | fetched (content : Bytes) :
      Change H c ⟨c.sidecars, Function.update c.bins (H.sha256 content) (some content)⟩
  | add (content : Bytes) {name : Option String} (hname : ¬ name.any (!validName ·))
      (clock : String) (size : ℕ) (origin : String) (description : Option String) :
      Change H c ⟨c.sidecars.put (added c clock (H.sha256 content) size origin name description),
        keepOr c.bins (H.sha256 content) content⟩
  | addName {info : CacheEntryInfo} {n : String} (hinfo : info ∈ c.sidecars)
      (hvalid : validName n = true) (hnew : ∀ f ∈ c.sidecars, n ∉ f.names) :
      Change H c ⟨c.sidecars.put (aliased info n none), c.bins⟩
  | forgetName {info : CacheEntryInfo} {n : String} (hinfo : info ∈ c.sidecars) (hn : n ∈ info.names)
      (hfirst : ∀ f ∈ c.sidecars, n ∈ f.names → info.sha256 ≤ f.sha256) :
      Change H c ⟨c.sidecars.put { info with names := info.names.filter (· ≠ n) }, c.bins⟩
  | merge {content : Bytes} {info info' : CacheEntryInfo} (hsha : H.sha256 content = info.sha256)
      (hmerged : merged c info = some info') :
      Change H c ⟨c.sidecars.put info', Function.update c.bins info.sha256 (some content)⟩
  | delete {info : CacheEntryInfo} (hinfo : info ∈ c.sidecars) :
      Change H c ⟨c.sidecars.erase info.sha256, Function.update c.bins info.sha256 none⟩
  | purge : Change H c (c.without c.sidecars.items)

section Changes

variable {σ : Type} {server : Server σ} {H : Host} {w : World σ} {α β : Type}

theorem isos_discard (p : CacheProg α) :
    ((discard p).exec (handler server) w).2 = (p.exec (handler server) w).2 := by
  rw [discard, Prog.bind_eq_bind, Prog.exec_bind]
  rcases p.exec (handler server) w with ⟨e | a, w'⟩ <;> rfl

/-- A local method, mirrored: the mirror does not touch the local files. -/
theorem isos_mirrored {p : CacheProg α} {f : α → CacheProg Unit} (hf : ∀ a, Remote server (f a)) :
    ((do let a ← p; f a; pure a : CacheProg α).exec (handler server) w).2.isos =
      (p.exec (handler server) w).2.isos := by
  simp only [Prog.bind_eq_bind, Prog.exec_bind]
  rcases p.exec (handler server) w with ⟨e | a, w'⟩
  · rfl
  · rw [Prog.andThen_ok]
    exact (Remote.bind (hf a) (fun _ => Remote.ret a) w').1

/-- What `fetch` leaves. -/
theorem exec_fetch (H : Host) (server : Server σ) (w : World σ) (sha : String) :
    ((fetch H sha).exec (handler server) w).2.isos = w.isos ∧
        (∃ e, ((fetch H sha).exec (handler server) w).1 = .error e) ∨
      ∃ w' content, (fetch H sha).exec (handler server) w = (.ok (), w') ∧
        H.sha256 content = sha ∧ w'.isos = ⟨w.isos.sidecars,
          Function.update w.isos.bins sha (some content)⟩ := by
  rw [fetch, Prog.bind_eq_bind, Prog.exec_bind]
  have hget := (show Remote server (getFile (binPath sha)) from remote_getFile _) w
  rcases hend : (getFile (binPath sha)).exec (handler server) w with ⟨e | resp, w'⟩
  · rw [hend] at hget
    exact .inl ⟨hget.1, e, rfl⟩
  · rw [hend] at hget
    rw [Prog.andThen_ok]
    by_cases hhash : H.sha256 resp.content = sha
    · refine .inr ⟨{ w' with isos.bins := Function.update w'.isos.bins sha (some resp.content) },
        resp.content, ?_, hhash, ?_⟩
      · rw [if_pos hhash, exec_putBin]
      · rw [← hget.1]
    · rw [if_neg hhash]
      exact .inl ⟨hget.1, .cache, rfl⟩

theorem change_fetchAndMaterialize (info : CacheEntryInfo) :
    Change H w.isos ((fetchAndMaterialize H info).exec (handler server) w).2.isos := by
  rw [fetchAndMaterialize, Prog.bind_eq_bind, Prog.exec_bind]
  rcases exec_fetch H server w info.sha256 with
    ⟨hsame, e, he⟩ | ⟨w', content, hend, hsha, hisos⟩
  · rcases hend : (fetch H info.sha256).exec (handler server) w with ⟨e' | a, w'⟩
    · rw [hend] at hsame
      rw [Prog.andThen_error]
      exact hsame ▸ .same
    · rw [hend] at he
      cases he
  · rw [hend, Prog.andThen_ok, exec_writeMaterializedSidecar]
    have hmerged : merged w'.isos info = merged w.isos info := by
      rw [hisos]
      rfl
    rw [hmerged]
    cases hm : merged w.isos info with
    | none =>
      rw [hisos, ← hsha]
      exact .fetched content
    | some info' =>
      have hsidecars : w'.isos.sidecars = w.isos.sidecars := by rw [hisos]
      have hbins : w'.isos.bins = Function.update w.isos.bins info.sha256 (some content) := by
        rw [hisos]
      dsimp only
      rw [hsidecars, hbins]
      exact .merge hsha hm

/-- **What a command can do to the local files.** -/
theorem change_of_command (http : Bool) (cmd : Command) :
    Change H w.isos ((cmd.prog H http).exec (handler server) w).2.isos := by
  cases cmd with
  | add content origin name description =>
    rw [Command.prog, isos_discard, managerAdd, isos_mirrored fun _ => remote_mirror (remote_push _)]
    by_cases hname : name.any (!validName ·) = true
    · rw [exec_add_of_invalid H hname]
      exact .same
    · rw [exec_add server w H hname content origin description]
      exact .add content hname w.clock _ origin description
  | delete identifier =>
    rw [Command.prog, isos_discard, Cache.delete, isos_mirrored fun _ => remote_mirror (remote_httpDelete _),
      exec_deleteLocal]
    cases hr : w.isos.resolve identifier with
    | error e => exact .same
    | ok info => exact .delete (Isos.mem_of_resolve hr)
  | purge =>
    rw [Command.prog, isos_discard, exec_purge]
    exact .purge
  | addName identifier n =>
    rw [Command.prog, isos_discard, Cache.addName,
      isos_mirrored fun _ => remote_mirror (remote_httpAddName H _ _), exec_addNameLocal]
    by_cases hvalid : validName n = true
    · rw [if_pos hvalid]
      cases hr : w.isos.resolve identifier with
      | error e => exact .same
      | ok info =>
        dsimp only
        have hinfo := Isos.mem_of_resolve hr
        split_ifs with hn hclash
        · exact .same
        · exact .same
        · refine .addName hinfo hvalid fun f hf hnf => ?_
          -- The first holder of the name would be this very entry.
          cases hfirst : w.isos.sidecars.first fun info => n ∈ info.names with
          | none => exact Keyed.first_eq_none.mp hfirst f hf (by simpa using hnf)
          | some g =>
            obtain ⟨hg, hng, -⟩ := Keyed.first_eq_some.mp hfirst
            rw [hfirst] at hclash
            have hsame : g.sha256 = info.sha256 := by simpa using hclash
            have heq : g = info := Keyed.eq_of_key_eq hg hinfo hsame
            subst heq
            exact hn (by simpa using hng)
    · rw [if_neg hvalid]
      exact .same
  | forgetName n =>
    rw [Command.prog, isos_discard, Cache.forgetName,
      isos_mirrored fun _ => remote_mirror (remote_httpForgetName H _), exec_forgetNameLocal]
    cases hfirst : w.isos.sidecars.first fun info => n ∈ info.names with
    | none => exact .same
    | some info =>
      obtain ⟨hinfo, hn, hleast⟩ := Keyed.first_eq_some.mp hfirst
      exact .forgetName hinfo (by simpa using hn) fun f hf hnf => hleast f hf (by simpa using hnf)
  | resolve identifier fetching =>
    rw [Command.prog, isos_discard, Cache.resolve]
    simp only [Prog.bind_eq_bind, Prog.exec_bind, Prog.exec_attempt, exec_localResolve,
      Prog.andThen_ok]
    rcases hr : w.isos.resolve identifier with e | info
    · cases e with
      | miss =>
        dsimp only
        cases http with
        | false => exact .same
        | true =>
          rw [if_pos rfl, Prog.exec_bind]
          have hget := (show Remote server (httpResolve H identifier) from remote_httpResolve H _) w
          rcases hend : (httpResolve H identifier).exec (handler server) w with ⟨e | info, w'⟩
          · rw [hend] at hget
            exact hget.1 ▸ .same
          · rw [hend] at hget
            rw [Prog.andThen_ok]
            cases fetching with
            | false => exact hget.1 ▸ .same
            | true => exact hget.1 ▸ change_fetchAndMaterialize info
      | cache => exact .same
      | other => exact .same
    · exact .same
  | push identifier =>
    rw [Command.prog, isos_discard, pushEntry]
    cases http with
    | false => exact .same
    | true =>
      rw [if_pos rfl, isos_mirrored fun _ => remote_push _, exec_localResolve]
      exact .same
  | pull identifier =>
    rw [Command.prog, isos_discard, Cache.pull]
    cases http with
    | false => exact .same
    | true =>
      rw [if_pos rfl, Prog.bind_eq_bind, Prog.exec_bind]
      have hget := (show Remote server (httpResolve H identifier) from remote_httpResolve H _) w
      rcases hend : (httpResolve H identifier).exec (handler server) w with ⟨e | info, w'⟩
      · rw [hend] at hget
        exact hget.1 ▸ .same
      · rw [hend] at hget
        rw [Prog.andThen_ok]
        exact hget.1 ▸ change_fetchAndMaterialize info

end Changes

/-! ### Entries keep their digest -/

section Entries

variable {c : Isos} {H : Host}

theorem sha256_added (clock sha : String) (size : ℕ) (origin : String)
    (name description : Option String) :
    (added c clock sha size origin name description).sha256 = sha := by
  unfold added
  cases hfind : c.sidecars.find sha with
  | none => rfl
  | some info =>
    have hsha := (Keyed.find_eq_some.mp hfind).2
    cases name with
    | none => exact hsha
    | some n =>
      dsimp only
      split_ifs
      · exact hsha
      · exact hsha

theorem sha256_merged {info info' : CacheEntryInfo} (h : merged c info = some info') :
    info'.sha256 = info.sha256 := by
  unfold merged at h
  cases hfind : c.sidecars.find info.sha256 with
  | none =>
    rw [hfind] at h
    cases h
    rfl
  | some existing =>
    rw [hfind] at h
    dsimp only at h
    split_ifs at h
    cases h
    exact (Keyed.find_eq_some.mp hfind).2

/-- Every sidecar has its content, and every content hashes to its name. -/
structure Intact (H : Host) (c : Isos) : Prop where
  hashes : ∀ {sha : String} {b : Bytes}, c.bins sha = some b → H.sha256 b = sha
  present : ∀ e ∈ c.sidecars, ∃ b, c.bins e.sha256 = some b

theorem hashes_update {bins : String → Option Bytes}
    (h : ∀ {sha : String} {b : Bytes}, bins sha = some b → H.sha256 b = sha)
    {sha : String} {o : Option Bytes} (ho : ∀ b, o = some b → H.sha256 b = sha) {sha' : String}
    {b : Bytes} (hb : Function.update bins sha o sha' = some b) : H.sha256 b = sha' := by
  by_cases heq : sha' = sha
  · subst heq
    exact ho b (by simpa using hb)
  · rw [Function.update_of_ne heq] at hb
    exact h hb

theorem present_update {bins : String → Option Bytes} {sha sha' : String} {content : Bytes}
    (h : sha' ≠ sha → ∃ b, bins sha' = some b) :
    ∃ b, Function.update bins sha (some content) sha' = some b := by
  by_cases heq : sha' = sha
  · subst heq
    exact ⟨content, Function.update_self ..⟩
  · rw [Function.update_of_ne heq]
    exact h heq

/-- An entry under its old digest keeps its content. -/
theorem Intact.replace (hc : Intact H c) {info info' : CacheEntryInfo} (hinfo : info ∈ c.sidecars)
    (hsha : info'.sha256 = info.sha256) : Intact H ⟨c.sidecars.put info', c.bins⟩ := by
  refine ⟨hc.hashes, fun e he => ?_⟩
  rcases Keyed.mem_put.mp he with rfl | ⟨he, -⟩
  · rw [hsha]
    exact hc.present info hinfo
  · exact hc.present e he

/-- A command keeps the local files intact. -/
theorem Intact.change {c' : Isos} (hc : Intact H c) (h : Change H c c') : Intact H c' := by
  cases h with
  | same => exact hc
  | fetched content =>
    refine ⟨hashes_update hc.hashes (by rintro b ⟨⟩; rfl), fun e he => ?_⟩
    exact present_update fun _ => hc.present e he
  | add content hname clock size origin description =>
    have hsha := sha256_added (c := c) clock (H.sha256 content) size origin
    unfold keepOr
    split_ifs with hsome
    · refine ⟨hc.hashes, fun e he => ?_⟩
      rcases Keyed.mem_put.mp he with rfl | ⟨he, -⟩
      · rw [hsha]
        exact Option.isSome_iff_exists.mp hsome
      · exact hc.present e he
    · refine ⟨hashes_update hc.hashes (by rintro b ⟨⟩; rfl), fun e he => ?_⟩
      rcases Keyed.mem_put.mp he with rfl | ⟨he, -⟩
      · rw [hsha]
        exact ⟨content, Function.update_self ..⟩
      · exact present_update fun _ => hc.present e he
  | addName hinfo hvalid hnew => exact hc.replace hinfo rfl
  | forgetName hinfo hn hfirst => exact hc.replace hinfo rfl
  | @merge content info info' hsha hmerged =>
    have hsame := sha256_merged hmerged
    refine ⟨hashes_update hc.hashes (by rintro b ⟨⟩; exact hsha), fun e he => ?_⟩
    rcases Keyed.mem_put.mp he with rfl | ⟨he, -⟩
    · rw [hsame]
      exact ⟨content, Function.update_self ..⟩
    · exact present_update fun _ => hc.present e he
  | delete hinfo =>
    refine ⟨hashes_update hc.hashes (by rintro b ⟨⟩), fun e he => ?_⟩
    obtain ⟨he, hne⟩ := Keyed.mem_erase.mp he
    obtain ⟨b, hb⟩ := hc.present e he
    exact ⟨b, (Function.update_of_ne hne ..).trans hb⟩
  | purge =>
    refine ⟨fun hb => hc.hashes (Isos.bins_without hb), fun e he => ?_⟩
    obtain ⟨he, hne⟩ := Isos.mem_without.mp he
    exact absurd rfl (hne e he)

end Entries

/-! ### Sequences of commands -/

/-- A command, and what the server and the clock have come to before it. -/
structure Step (σ : Type) where
  http : Bool
  cmd : Command
  server : σ
  clock : String

section Sequences

variable {σ : Type} (H : Host) (server : Server σ)

/-- The world a command of a step finds. -/
def Step.before (w : World σ) (s : Step σ) : World σ := { w with server := s.server, clock := s.clock }

/-- The world a step leaves. -/
def Step.apply (w : World σ) (s : Step σ) : World σ :=
  ((s.cmd.prog H s.http).exec (handler server) (s.before w)).2

/-- A cache without files. -/
def Isos.empty : Isos := ⟨.empty, fun _ => none⟩

/-- The world that some steps lead to, from an empty cache. -/
def after (server₀ : σ) (clock : String) (steps : List (Step σ)) : World σ :=
  steps.foldl (Step.apply H server) ⟨.empty, server₀, clock⟩

variable {H server} {server₀ : σ} {clock : String}

theorem after_concat (steps : List (Step σ)) (s : Step σ) :
    after H server server₀ clock (steps ++ [s]) =
      s.apply H server (after H server server₀ clock steps) := by
  simp [after]

theorem change_step (w : World σ) (s : Step σ) : Change H w.isos (s.apply H server w).isos :=
  change_of_command (w := s.before w) s.http s.cmd

theorem intact_empty : Intact H .empty :=
  ⟨by rintro sha b ⟨⟩, fun _ he => absurd he Keyed.not_mem_empty⟩

/-- **The local files are intact after any commands**, for any server. -/
theorem intact_after (steps : List (Step σ)) : Intact H (after H server server₀ clock steps).isos := by
  induction steps using List.reverseRecOn with
  | nil => exact intact_empty
  | append_singleton steps s ih =>
    rw [after_concat]
    exact ih.change (change_step _ s)

end Sequences

/-! ### Contents of one letter -/

namespace Letters

/-- `sha256(b"a")` -/
def shaA : String := "ca978112ca1bbdcafac231b39a23dc4da786eff8147c4e72b9807785afee48bb"

/-- `sha256(b"b")` -/
def shaB : String := "3e23e8160039594a33894f6564e1b1348bbd7a0088d42c4acb73eeaed59c009d"

/-- `sha256(b"c")` -/
def shaC : String := "2e7d2c03a9507ae265ecf5b5356885a53393a2029d241394997265a1a25aefc6"

theorem isSha_A : IsSha shaA := by decide

theorem isSha_B : IsSha shaB := by decide

theorem isSha_C : IsSha shaC := by decide

/-- A host for the contents `a`, `b` and `c`; any other content is taken for the empty one. -/
def host : Host where
  sha256
    | [97] => shaA
    | [98] => shaB
    | [99] => shaC
    | _ => "e3b0c44298fc1c149afbf4c8996fb92427ae41e4649b934ca495991b7852b855"
  toInt
    | .int n => some n
    | _ => none
  floatIsZero text := text = "0.0"
  isSha content := by
    split
    · exact isSha_A
    · exact isSha_B
    · exact isSha_C
    · decide
  toInt_int _ := rfl

/-- The entry of a content of one letter. -/
def entry (sha : String) (names : List String) : CacheEntryInfo :=
  ⟨sha, 1, names, [], .str "image.iso", .str "2025-01-01T00:00:00+00:00", .null⟩

theorem wellTyped_entry (sha : String) (names : List String) : WellTyped (entry sha names) :=
  ⟨rfl, .inr ⟨_, rfl⟩, .inr ⟨_, rfl⟩, .inl rfl⟩

end Letters

end Cache

end TestRange
