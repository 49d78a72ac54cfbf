/-
What holds in every run of the SSH jump gateway.

* `Ok`, `ok_of_run` — what is known at every point of the code;
* `live_tracked` — a live client is the one of the gateway, or about to be closed;
* `late_of_run` — a thread that was serving before a `close` neither connects nor dials
  through a newer client;
* `closed_of_returned` — a `close` that has returned has closed the listeners;
* `one_tracked_bastion` — the three together.
-/
import TestRange.Gateways.SshJump

namespace TestRange.Jump

variable {ι : Type}

/-! ### What is known at the points -/

/-- Something was done in a run. -/
def Did (tr : List (Monitor.Event ι Act)) (a : Act) : Prop := ∃ e ∈ tr, e.act = a

theorem did_concat {tr : List (Monitor.Event ι Act)} {e : Monitor.Event ι Act} {a : Act} :
    Did (tr ++ [e]) a ↔ Did tr a ∨ e.act = a := by
  simp [Did, or_and_right, exists_or]

/-- The points at which the generation was checked and the lock was kept since. -/
def Point.checked : Point → Bool
  | .ensure _ | .connecting _ | .jumped _ _ => true
  | _ => false

/-- The generation that a local forward hands to its thread. -/
def Point.generation : Point → Option ℕ
  | .forwardRead g | .forwardBound g _ | .forwardRegistered g _ | .forwardReleased g _ => some g
  | _ => none

/-- The client that a thread has in hand. -/
def Point.client : Point → Option ℕ
  | .jumped _ c | .dialing c => some c
  | _ => none

/-- A `close` has cleared the listeners and still has the lock. -/
def Point.cleared? : Point → Bool
  | .cleared | .detached _ => true
  | _ => false

/-- A `close` has released the lock and not returned yet. -/
def Point.afterClose : Point → Bool
  | .released _ | .returning => true
  | _ => false

theorem Point.critical_of_checked {p : Point} (h : p.checked = true) : p.critical = true := by
  cases p <;> first | rfl | cases h

theorem Point.critical_of_cleared {p : Point} (h : p.cleared? = true) : p.critical = true := by
  cases p <;> first | rfl | cases h

/-- The generation a thread serves under, or is about to hand on. -/
def Thread.Carries (th : Thread) (g : ℕ) : Prop :=
  (∃ l, th.serves = some (l, g)) ∨ th.point.generation = some g

/-- What is known of the gateway and of a thread. -/
structure Ok (tr : List (Monitor.Event ι Act)) (sh : Shared) (t : ι) (th : Thread) : Prop where
  stored : ∀ c, sh.client = some c → Did tr (.connected c)
  listeners : ∀ l, Did tr (.registered l) → l ∈ sh.closed ∨ l ∈ sh.listeners
  carried : ∀ g, th.Carries g → g ≤ sh.generation
  caller : th.point = .forwardEnter → th.serves = none
  checked : th.point.checked = true → ∀ l g, th.serves = some (l, g) → g = sh.generation
  unset : ∀ k, th.point = .connecting k → sh.client = none
  client : ∀ c, th.point.client = some c → Did tr (.connected c)
  closing : ∀ rest, th.point = .closing rest → ∀ l, Did tr (.registered l) →
    l ∈ sh.closed ∨ l ∈ rest
  cleared : th.point.cleared? = true → ∀ l, Did tr (.registered l) → l ∈ sh.closed
  released : th.point.afterClose = true → ∃ before after e,
    tr = before ++ e :: after ∧ e.thread = t ∧ e.act = .closeReleased ∧
      ∀ e' ∈ after, e'.thread = t → e'.act ≠ .callClose

variable {tr : List (Monitor.Event ι Act)} {sh sh' : Shared} {t u : ι} {th th' : Thread}
  {q : Option Thread} {e : Monitor.Event ι Act}

theorem Ok.stored_move (hok : Ok tr sh t th) (h : Move sh th e.act sh' th' q) :
    ∀ c, sh'.client = some c → Did (tr ++ [e]) (.connected c) := by
  intro c hc
  rw [did_concat]
  generalize e.act = a at h ⊢
  cases h
  case connected =>
    right
    rw [Option.some.inj hc]
  case detachedClient => cases hc
  all_goals exact .inl (hok.stored c hc)

theorem Ok.listeners_move (hok : Ok tr sh t th) (h : Move sh th e.act sh' th' q) :
    ∀ l, Did (tr ++ [e]) (.registered l) → l ∈ sh'.closed ∨ l ∈ sh'.listeners := by
  intro l hl
  rw [did_concat] at hl
  generalize e.act = a at h hl
  cases h
  case registered =>
    rcases hl with hl | hl
    · rcases hok.listeners l hl with hl | hl
      · exact .inl hl
      · exact .inr (List.mem_append_left _ hl)
    · cases hl
      exact .inr (List.mem_append_right _ (List.mem_singleton_self _))
  case closedListener =>
    rcases hok.listeners l (hl.resolve_right Act.noConfusion) with hl | hl
    · exact .inl (List.mem_cons_of_mem _ hl)
    · exact .inr hl
  case clearedListeners =>
    left
    rcases hok.closing [] rfl l (hl.resolve_right Act.noConfusion) with hl | hl
    · exact hl
    · cases hl
  all_goals exact hok.listeners l (hl.resolve_right Act.noConfusion)

theorem Ok.carried_move (hok : Ok tr sh t th) (h : Move sh th e.act sh' th' q) :
    ∀ g, th'.Carries g → g ≤ sh'.generation := by
  intro g hg
  rcases hg with ⟨l, hl⟩ | hg
  · rw [h.serves] at hl
    exact Nat.le_trans (hok.carried g (.inl ⟨l, hl⟩)) h.generation_le
  · have hkept : th.point.generation = some g → g ≤ sh'.generation := fun hg =>
      Nat.le_trans (hok.carried g (.inr hg)) h.generation_le
    generalize e.act = a at h
    cases h
    case readGeneration =>
      cases hg
      exact Nat.le_refl _
    case bound => exact hkept hg
    case registered => exact hkept hg
    case forwardReleased => exact hkept hg
    all_goals cases hg

theorem Ok.checked_move (hok : Ok tr sh t th) (h : Move sh th e.act sh' th' q) :
    th'.point.checked = true → ∀ l g, th'.serves = some (l, g) → g = sh'.generation := by
  intro hchecked l g hserves
  generalize e.act = a at h
  cases h
  case checked hfresh => exact hfresh l g hserves
  case found => exact hok.checked rfl l g hserves
  case connect => exact hok.checked rfl l g hserves
  case connected => exact hok.checked rfl l g hserves
  case forwardEnter =>
    have hnone : _ = none := hok.caller rfl
    rw [hnone] at hserves
    cases hserves
  all_goals cases hchecked

theorem Ok.client_move (hok : Ok tr sh t th) (h : Move sh th e.act sh' th' q) :
    ∀ c, th'.point.client = some c → Did (tr ++ [e]) (.connected c) := by
  intro c hc
  rw [did_concat]
  generalize e.act = a at h ⊢
  cases h
  case found hclient => exact .inl (hok.stored c (hclient.trans hc))
  case connected =>
    right
    rw [Option.some.inj hc]
  case released => exact .inl (hok.client c hc)
  all_goals cases hc

theorem Ok.closing_move (hok : Ok tr sh t th) (h : Move sh th e.act sh' th' q) :
    ∀ rest, th'.point = .closing rest → ∀ l, Did (tr ++ [e]) (.registered l) →
      l ∈ sh'.closed ∨ l ∈ rest := by
  intro rest hrest l hl
  rw [did_concat] at hl
  generalize e.act = a at h hl
  cases h
  case bumped =>
    cases hrest
    exact hok.listeners l (hl.resolve_right Act.noConfusion)
  case closedListener =>
    cases hrest
    rcases hok.closing _ rfl l (hl.resolve_right Act.noConfusion) with hl | hl
    · exact .inl (List.mem_cons_of_mem _ hl)
    · rcases List.mem_cons.mp hl with rfl | hl
      · exact .inl List.mem_cons_self
      · exact .inr hl
  all_goals cases hrest

theorem Ok.cleared_move (hok : Ok tr sh t th) (h : Move sh th e.act sh' th' q) :
    th'.point.cleared? = true → ∀ l, Did (tr ++ [e]) (.registered l) → l ∈ sh'.closed := by
  intro hcleared l hl
  rw [did_concat] at hl
  generalize e.act = a at h hl
  cases h
  case clearedListeners =>
    exact (hok.closing [] rfl l (hl.resolve_right Act.noConfusion)).resolve_right List.not_mem_nil
  case detachedClient => exact hok.cleared rfl l (hl.resolve_right Act.noConfusion)
  all_goals cases hcleared

/-- What is known of a released lock is kept by what is not a new call. -/
theorem released_concat {t : ι} (h : ∃ before after e, tr = before ++ e :: after ∧ e.thread = t ∧
      e.act = .closeReleased ∧ ∀ e' ∈ after, e'.thread = t → e'.act ≠ .callClose)
    (he : e.thread = t → e.act ≠ .callClose) : ∃ before after e', tr ++ [e] = before ++ e' :: after ∧
      e'.thread = t ∧ e'.act = .closeReleased ∧
        ∀ e'' ∈ after, e''.thread = t → e''.act ≠ .callClose := by
  obtain ⟨before, after, r, rfl, hthread, hact, hafter⟩ := h
  refine ⟨before, after ++ [e], r, by simp, hthread, hact, ?_⟩
  intro e' he'
  rcases List.mem_append.mp he' with he' | he'
  · exact hafter e' he'
  · rw [List.mem_singleton.mp he']
    exact he

theorem Ok.released_move (hok : Ok tr sh e.thread th) (h : Move sh th e.act sh' th' q) :
    th'.point.afterClose = true → ∃ before after r, tr ++ [e] = before ++ r :: after ∧
      r.thread = e.thread ∧ r.act = .closeReleased ∧
        ∀ e' ∈ after, e'.thread = e.thread → e'.act ≠ .callClose := by
  intro hafter
  generalize hact : e.act = a at h
  cases h
  case closeReleased => exact ⟨tr, [], e, rfl, rfl, hact, by simp⟩
  case closedClient =>
    refine released_concat (hok.released rfl) fun _ => ?_
    rw [hact]
    exact Act.noConfusion
  all_goals cases hafter

/-- The moves of a thread keep what is known of it. -/
theorem Ok.own (hok : Ok tr sh e.thread th) (h : Move sh th e.act sh' th' q) :
    Ok (tr ++ [e]) sh' e.thread th' where
  stored := hok.stored_move h
  listeners := hok.listeners_move h
  carried := hok.carried_move h
  caller hpoint := by
    generalize e.act = a at h
    cases h
    case callForward => rfl
    all_goals cases hpoint
  checked := hok.checked_move h
  unset k hpoint := by
    generalize e.act = a at h
    cases h
    case connect hclient => exact hclient
    all_goals cases hpoint
  client := hok.client_move h
  closing := hok.closing_move h
  cleared := hok.cleared_move h
  released := hok.released_move h

/-- A thread that is started carries the generation it was handed. -/
theorem Ok.child {th₀ : Thread} (hok : Ok tr sh t th) (h : Move sh th e.act sh' th' (some th₀)) :
    Ok (tr ++ [e]) sh' u th₀ := by
  have hstored := hok.stored_move h
  have hlisteners := hok.listeners_move h
  generalize e.act = a at h
  cases h
  constructor
  case stored => exact hstored
  case listeners => exact hlisteners
  case carried =>
    rintro g (⟨l, hl⟩ | hg)
    · cases hl
      exact hok.carried _ (.inr rfl)
    · cases hg
  all_goals simp [Point.checked, Point.client, Point.cleared?, Point.afterClose]

/-- The moves of the others keep what is known of a thread. -/
theorem Ok.other {thᵤ : Thread} (hu : Ok tr sh u thᵤ) (hok : Ok tr sh t th)
    (h : Move sh th e.act sh' th' q) (hne : u ≠ e.thread)
    (hexcl : thᵤ.point.critical = true → th.point.critical = false) :
    Ok (tr ++ [e]) sh' u thᵤ where
  stored := hok.stored_move h
  listeners := hok.listeners_move h
  carried g hg := Nat.le_trans (hu.carried g hg) h.generation_le
  caller := hu.caller
  checked hpoint l g hserves := by
    rw [(h.outside (hexcl (Point.critical_of_checked hpoint))).2.1]
    exact hu.checked hpoint l g hserves
  unset k hpoint := by
    have hcritical : thᵤ.point.critical = true := by rw [hpoint]; rfl
    rw [(h.outside (hexcl hcritical)).1]
    exact hu.unset k hpoint
  client c hc := did_concat.mpr (.inl (hu.client c hc))
  closing rest hpoint l hl := by
    have hcritical : thᵤ.point.critical = true := by rw [hpoint]; rfl
    have hold := (did_concat.mp hl).resolve_right ((h.outside (hexcl hcritical)).2.2.1 l)
    exact (hu.closing rest hpoint l hold).imp_left h.closed_mono
  cleared hpoint l hl := by
    have hcritical := Point.critical_of_cleared hpoint
    have hold := (did_concat.mp hl).resolve_right ((h.outside (hexcl hcritical)).2.2.1 l)
    exact h.closed_mono (hu.cleared hpoint l hold)
  released hpoint := released_concat (hu.released hpoint) fun heq => absurd heq.symm hne

variable {s₀ s : Monitor.State ι Shared Thread}

theorem Start.free (h : Start s₀) : gateway.Free s₀ := by
  intro t
  rcases h.threads t with ht | ht <;> rw [ht] <;> rfl

theorem ok_start (h : Start s₀) (t : ι) : Ok [] s₀.shared t (s₀.point t) := by
  rw [h.shared]
  rcases h.threads t with ht | ht <;> rw [ht]
  all_goals
    constructor <;> simp [Did, Shared.init, Thread.Carries, Point.generation, Point.checked,
      Point.client, Point.cleared?, Point.afterClose]

variable [DecidableEq ι]

/-- **What is known of every thread in every run.** -/
theorem ok_of_run (h₀ : Start s₀) (h : Trace.Run gateway.Step s₀ tr s) (t : ι) :
    Ok tr s.shared t (s.point t) :=
  Monitor.outline h₀.free (ok_start h₀) (fun hok hmove => hok.own hmove)
    (fun hok hmove _ => hok.child hmove) (fun hu hok hmove hne hexcl => hu.other hok hmove hne hexcl)
    h t

/-! ### One tracked client -/

/-- A point at which a `close` has a client in hand. -/
def Point.detaches (p : Point) (c : ℕ) : Prop := p = .detached (some c) ∨ p = .released (some c)

omit [DecidableEq ι] in
/-- What a move does to a client that is live afterwards. -/
theorem Ok.live_move {c : ℕ} (hok : Ok tr sh t th) {a : Act} (h : Move sh th a sh' th' q)
    (hc : c ∈ sh'.live) : sh'.client = some c ∨ (c ∈ sh.live ∧
      (sh.client = some c → sh'.client = some c ∨ th'.point.detaches c) ∧
      (th.point.detaches c → th'.point.detaches c)) := by
  cases h
  case connected =>
    rcases List.mem_cons.mp hc with rfl | hc
    · exact .inl rfl
    · right
      have hnone : sh.client = none := hok.unset _ rfl
      refine ⟨hc, fun hclient => ?_, ?_⟩
      · rw [hnone] at hclient
        cases hclient
      · rintro (hp | hp) <;> cases hp
  case detachedClient =>
    refine .inr ⟨hc, fun hclient => .inr (.inl ?_), ?_⟩
    · rw [hclient]
    · rintro (hp | hp) <;> cases hp
  case closeReleased =>
    refine .inr ⟨hc, .inl, ?_⟩
    rintro (hp | hp)
    · cases hp
      exact .inr rfl
    · cases hp
  case closedClient =>
    obtain ⟨hc, hne⟩ := List.mem_filter.mp hc
    refine .inr ⟨hc, .inl, ?_⟩
    rintro (hp | hp)
    · cases hp
    · cases hp
      simp at hne
  all_goals
    refine .inr ⟨hc, .inl, ?_⟩
    rintro (hp | hp) <;> cases hp

/-- **A live client is the one of the gateway, or one that a `close` is about to close.** -/
theorem live_tracked (h₀ : Start s₀) (h : Trace.Run gateway.Step s₀ tr s) :
    ∀ c ∈ s.shared.live, s.shared.client = some c ∨ ∃ t, (s.point t).point.detaches c := by
  refine h.keeps_reached (P := fun _ s => ∀ c ∈ s.shared.live, s.shared.client = some c ∨
    ∃ t, (s.point t).point.detaches c) ?_ ?_
  · rw [h₀.shared]
    simp [Shared.init]
  · intro tr s e s' hrun ih hstep c hc
    obtain ⟨⟨q, hmove, hchild⟩, hothers, -⟩ := hstep.moved
    rcases (ok_of_run h₀ hrun e.thread).live_move hmove hc with hc | ⟨hlive, hclient, hdetached⟩
    · exact .inl hc
    · rcases ih c hlive with hc | ⟨t, ht⟩
      · exact (hclient hc).imp_right fun hd => ⟨e.thread, hd⟩
      · right
        by_cases hte : t = e.thread
        · rw [hte] at ht
          exact ⟨e.thread, hdetached ht⟩
        · refine ⟨t, ?_⟩
          rw [hothers t hte fun hspawn => ?_]
          · exact ht
          · -- A thread that does not exist yet has no client in hand.
            rw [(hchild t hspawn).2.1] at ht
            rcases ht with ht | ht <;> cases ht

/-! ### Late threads -/

/-- A `close` has bumped the generation and still has the lock. -/
def Point.bumped : Point → Bool
  | .closing _ | .cleared | .detached _ | .closeRaising => true
  | _ => false

theorem Point.critical_of_bumped {p : Point} (h : p.bumped = true) : p.critical = true := by
  cases p <;> first | rfl | cases h

/-- A generation comes from `open_local_forward` alone, which reads it inside the lock. -/
theorem Move.carries {a : Act} {g : ℕ} (h : Move sh th a sh' th' q) :
    (th'.Carries g → th.Carries g ∨ a = .readGeneration) ∧
      ∀ th₀, q = some th₀ → th₀.Carries g → th.Carries g := by
  constructor
  · rintro (⟨l, hl⟩ | hg)
    · rw [h.serves] at hl
      exact .inl (.inl ⟨l, hl⟩)
    · cases h
      case readGeneration => exact .inr rfl
      case bound => exact .inl (.inr hg)
      case registered => exact .inl (.inr hg)
      case forwardReleased => exact .inl (.inr hg)
      all_goals cases hg
  · intro th₀ hq hg
    cases h
    case spawned =>
      cases hq
      rcases hg with ⟨l, hl⟩ | hg
      · cases hl
        exact .inr rfl
      · cases hg
    all_goals cases hq

theorem carries_of_step {s' : Monitor.State ι Shared Thread} (hstep : gateway.Step s e s') {u : ι}
    {g : ℕ} (hg : (s'.point u).Carries g) :
    (∃ v, (s.point v).Carries g) ∨ e.act = .readGeneration := by
  obtain ⟨⟨q, hmove, hchild⟩, hothers, -⟩ := hstep.moved
  obtain ⟨hown, hspawned⟩ := Move.carries (g := g) hmove
  by_cases hue : u = e.thread
  · rw [hue] at hg
    exact (hown hg).imp_left fun hc => ⟨e.thread, hc⟩
  · by_cases hc : e.child = some u
    · exact .inl ⟨e.thread, hspawned _ (hchild u hc).1 hg⟩
    · rw [hothers u hue hc] at hg
      exact .inl ⟨u, hg⟩

/-- A move that ends after the bump is the bump, or began after it. -/
theorem Move.of_bumped {a : Act} (h : Move sh th a sh' th' q) (hp : th'.point.bumped = true) :
    a ≠ .readGeneration ∧ (sh'.generation = sh.generation + 1 ∨
      sh'.generation = sh.generation ∧ th.point.bumped = true) := by
  cases h
  case bumped => exact ⟨Act.noConfusion, .inl rfl⟩
  case closedListener => exact ⟨Act.noConfusion, .inr ⟨rfl, rfl⟩⟩
  case closeListenerFailed => exact ⟨Act.noConfusion, .inr ⟨rfl, rfl⟩⟩
  case clearedListeners => exact ⟨Act.noConfusion, .inr ⟨rfl, rfl⟩⟩
  case detachedClient => exact ⟨Act.noConfusion, .inr ⟨rfl, rfl⟩⟩
  all_goals cases hp

/-- While a `close` has the lock, no thread carries the new generation. -/
theorem carried_lt (h₀ : Start s₀) (h : Trace.Run gateway.Step s₀ tr s) :
    ∀ t, (s.point t).point.bumped = true → ∀ u g, (s.point u).Carries g → g < s.shared.generation := by
  refine h.keeps_reached (P := fun _ s => ∀ t, (s.point t).point.bumped = true →
    ∀ u g, (s.point u).Carries g → g < s.shared.generation) ?_ ?_
  · intro t ht
    rcases h₀.threads t with hp | hp <;> rw [hp] at ht <;> cases ht
  · intro tr s e s' hrun ih hstep t ht u g hg
    obtain ⟨⟨q, hmove, hchild⟩, hothers, -⟩ := hstep.moved
    have hfrom := carries_of_step hstep hg
    by_cases hte : t = e.thread
    · rw [hte] at ht
      obtain ⟨hact, hgen⟩ := hmove.of_bumped ht
      obtain ⟨v, hv⟩ := hfrom.resolve_right hact
      rcases hgen with hgen | ⟨hgen, hbefore⟩
      · -- The bump: what was carried is at most the old generation.
        rw [hgen]
        exact Nat.lt_succ_of_le ((ok_of_run h₀ hrun v).carried g hv)
      · rw [hgen]
        exact ih e.thread hbefore v g hv
    · have hnotchild : e.child ≠ some t := by
        intro hc
        obtain ⟨rfl, -, -⟩ := hchild t hc
        have hfree := gateway.child_free hmove
        rw [show gateway.critical (s'.point t) = true from Point.critical_of_bumped ht] at hfree
        cases hfree
      rw [hothers t hte hnotchild] at ht
      -- The lock is `t`'s, so the move is one from outside.
      have hout := Monitor.outside_of_critical h₀.free hrun hte
        (show gateway.critical (s.point t) = true from Point.critical_of_bumped ht)
      obtain ⟨-, hgen, -, hact⟩ := hmove.outside hout
      obtain ⟨v, hv⟩ := hfrom.resolve_right hact
      rw [hgen]
      exact ih t ht v g hv

/-- A thread was started in a run. -/
def Started (tr : List (Monitor.Event ι Act)) (u : ι) : Prop := ∃ e ∈ tr, e.child = some u

/-- The acts by which a `close` gives the lock back. -/
def Act.endsClose : Act → Bool
  | .closeReleased | .closeRaised => true
  | _ => false

theorem Move.child_serves {a : Act} {th₀ : Thread} (h : Move sh th a sh' th' (some th₀)) :
    ∃ l g, th₀.serves = some (l, g) := by
  cases h
  exact ⟨_, _, rfl⟩

/-- A thread that was started serves a listener for good. -/
theorem serves_of_started (h : Trace.Run gateway.Step s₀ tr s) :
    ∀ u, Started tr u → ∃ l g, (s.point u).serves = some (l, g) := by
  refine h.keeps (P := fun tr s => ∀ u, Started tr u → ∃ l g, (s.point u).serves = some (l, g)) ?_ ?_
  · rintro u ⟨e, he, -⟩
    cases he
  · rintro tr s e s' ih hstep u ⟨e', he', hu⟩
    obtain ⟨⟨q, hmove, hchild⟩, hothers, -⟩ := hstep.moved
    by_cases hc : e.child = some u
    · obtain ⟨rfl, -, -⟩ := hchild u hc
      exact hmove.child_serves
    · have hold : Started tr u := by
        rcases List.mem_append.mp he' with he' | he'
        · exact ⟨e', he', hu⟩
        · rw [List.mem_singleton.mp he'] at hu
          exact absurd hu hc
      obtain ⟨l, g, hserves⟩ := ih u hold
      by_cases hue : u = e.thread
      · rw [hue] at hserves ⊢
        exact ⟨l, g, hmove.serves.trans hserves⟩
      · rw [hothers u hue hc]
        exact ⟨l, g, hserves⟩

/-- What a thread can do that was not let past the check of the generation. -/
theorem Move.unchecked {a : Act} (h : Move sh th a sh' th' q) (hp : th.point.checked = false) :
    (a ≠ .connect ∧ ∀ c, a ≠ .connected c) ∧ (∀ c, a = .dialled c → th.point.client = some c) ∧
      th'.point.client = none := by
  cases h
  case dialled =>
    refine ⟨⟨Act.noConfusion, fun _ => Act.noConfusion⟩, fun c hc => ?_, rfl⟩
    cases hc
    rfl
  all_goals first
    | cases hp; done
    | exact ⟨⟨Act.noConfusion, fun _ => Act.noConfusion⟩, fun _ => Act.noConfusion, rfl⟩

/-- What ends a `close` comes after its bump and starts nothing. -/
theorem Move.of_endsClose {a : Act} (h : Move sh th a sh' th' q) (ha : a.endsClose = true) :
    th.point.bumped = true ∧ sh' = sh ∧ th'.point.client = none ∧ q = none := by
  cases h
  case closeReleased => exact ⟨rfl, rfl, rfl, rfl⟩
  case closeRaised => exact ⟨rfl, rfl, rfl, rfl⟩
  all_goals cases ha

/-- A thread that was serving before some `close` gave the lock back: its generation is over,
it has made no connection since, and has dialled through older clients only. -/
structure Late (before after : List (Monitor.Event ι Act)) (s : Monitor.State ι Shared Thread)
    (u : ι) : Prop where
  serves : ∃ l g, (s.point u).serves = some (l, g) ∧ g < s.shared.generation
  hand : ∀ c, (s.point u).point.client = some c → Did before (.connected c)
  connects : ∀ e ∈ after, e.thread = u → e.act ≠ .connect ∧ ∀ c, e.act ≠ .connected c
  dials : ∀ e ∈ after, e.thread = u → ∀ c, e.act = .dialled c → Did before (.connected c)

/-- The moment a `close` gives the lock back. -/
theorem late_of_endsClose {s' : Monitor.State ι Shared Thread} {u : ι} (h₀ : Start s₀)
    (h : Trace.Run gateway.Step s₀ tr s) (hstep : gateway.Step s e s') (he : e.act.endsClose = true)
    (hu : Started tr u) : Late tr [] s' u := by
  obtain ⟨⟨q, hmove, hchild⟩, hothers, -⟩ := hstep.moved
  obtain ⟨hbumped, hsh, hclient, rfl⟩ := hmove.of_endsClose he
  obtain ⟨l, g, hserves⟩ := serves_of_started h u hu
  have hlt := carried_lt h₀ h e.thread hbumped u g (.inl ⟨l, hserves⟩)
  have hnotchild : e.child ≠ some u := fun hc => by cases (hchild u hc).1
  refine ⟨⟨l, g, ?_, by rw [hsh]; exact hlt⟩, fun c hc => ?_, by simp, by simp⟩
  · by_cases hue : u = e.thread
    · rw [hue] at hserves ⊢
      exact hmove.serves.trans hserves
    · rw [hothers u hue hnotchild]
      exact hserves
  · by_cases hue : u = e.thread
    · rw [hue, hclient] at hc
      cases hc
    · rw [hothers u hue hnotchild] at hc
      exact (ok_of_run h₀ h u).client c hc

/-- Whatever happens afterwards. -/
theorem Late.step {s' : Monitor.State ι Shared Thread} {u : ι}
    {before after : List (Monitor.Event ι Act)} (hlate : Late before after s u) (h₀ : Start s₀)
    (h : Trace.Run gateway.Step s₀ tr s) (hstep : gateway.Step s e s') :
    Late before (after ++ [e]) s' u := by
  obtain ⟨⟨q, hmove, hchild⟩, hothers, -⟩ := hstep.moved
  obtain ⟨⟨l, g, hserves, hlt⟩, hhand, hconnects, hdials⟩ := hlate
  have hnotchild : e.child ≠ some u := by
    intro hc
    rw [(hchild u hc).2.1] at hserves
    cases hserves
  have hlt' : g < s'.shared.generation := Nat.lt_of_lt_of_le hlt hmove.generation_le
  by_cases hue : u = e.thread
  · subst hue
    -- Past the check its generation would be the current one.
    have hunchecked : (s.point e.thread).point.checked = false := by
      cases hp : (s.point e.thread).point.checked with
      | false => rfl
      | true =>
        have heq := (ok_of_run h₀ h e.thread).checked hp l g hserves
        omega
    obtain ⟨hconnect, hdial, hclient⟩ := hmove.unchecked hunchecked
    refine ⟨⟨l, g, hmove.serves.trans hserves, hlt'⟩, fun c hc => ?_, ?_, ?_⟩
    · rw [hclient] at hc
      cases hc
    · intro e' he' ht
      rcases List.mem_append.mp he' with he' | he'
      · exact hconnects e' he' ht
      · rw [List.mem_singleton.mp he']
        exact hconnect
    · intro e' he' ht c hc
      rcases List.mem_append.mp he' with he' | he'
      · exact hdials e' he' ht c hc
      · rw [List.mem_singleton.mp he'] at hc
        exact hhand c (hdial c hc)
  · have hpoint := hothers u hue hnotchild
    have hmem : ∀ e' ∈ after ++ [e], e'.thread = u → e' ∈ after := by
      intro e' he' ht
      rcases List.mem_append.mp he' with he' | he'
      · exact he'
      · rw [List.mem_singleton.mp he'] at ht
        exact absurd ht.symm hue
    refine ⟨⟨l, g, by rw [hpoint]; exact hserves, hlt'⟩, fun c hc => hhand c (by rwa [hpoint] at hc),
      fun e' he' ht => hconnects e' (hmem e' he' ht) ht,
      fun e' he' ht => hdials e' (hmem e' he' ht) ht⟩

/-- A split of a longer run is at its last event, or one of the run before. -/
theorem split_concat {α : Type} {xs before after : List α} {x y : α}
    (h : xs ++ [x] = before ++ y :: after) :
    (before = xs ∧ y = x ∧ after = []) ∨ ∃ mid, after = mid ++ [x] ∧ xs = before ++ y :: mid := by
  rcases List.eq_nil_or_concat after with rfl | ⟨mid, z, rfl⟩
  · obtain ⟨hxs, hx⟩ := List.append_inj' h rfl
    exact .inl ⟨hxs.symm, (List.singleton_inj.mp hx).symm, rfl⟩
  · right
    have hassoc : before ++ y :: (mid ++ [z]) = (before ++ y :: mid) ++ [z] := by simp
    rw [List.concat_eq_append, hassoc] at h
    obtain ⟨hxs, hx⟩ := List.append_inj' h rfl
    rw [List.concat_eq_append, List.singleton_inj.mp hx]
    exact ⟨mid, rfl, hxs⟩

/-- **A thread that was serving before a `close` gave the lock back neither connects nor
dials through a newer client.** -/
theorem late_of_run (h₀ : Start s₀) (h : Trace.Run gateway.Step s₀ tr s) :
    ∀ before after e u, tr = before ++ e :: after → e.act.endsClose = true → Started before u →
      Late before after s u := by
  refine h.keeps_reached (P := fun tr s => ∀ before after e u, tr = before ++ e :: after →
    e.act.endsClose = true → Started before u → Late before after s u) ?_ ?_
  · intro before after e u htr
    simp at htr
  · intro tr s e s' hrun ih hstep before after e' u htr he' hu
    rcases split_concat htr with ⟨rfl, rfl, rfl⟩ | ⟨mid, rfl, rfl⟩
    · exact late_of_endsClose h₀ hrun hstep he' hu
    · exact (ih before mid e' u rfl he' hu).step h₀ hrun hstep

/-! ### Listeners -/

omit [DecidableEq ι] in
theorem Ok.closed_move (hok : Ok tr sh t th) (h : Move sh th .closeReleased sh' th' q) :
    ∀ l, Did tr (.registered l) → l ∈ sh.closed := by
  cases h
  exact hok.cleared rfl

omit [DecidableEq ι] in
/-- A `close` returns after it has released the lock. -/
theorem Ok.returned_move (hok : Ok tr sh t th) (h : Move sh th .closeReturned sh' th' q) :
    ∃ before after e, tr = before ++ e :: after ∧ e.thread = t ∧ e.act = .closeReleased ∧
      ∀ e' ∈ after, e'.thread = t → e'.act ≠ .callClose := by
  cases h <;> exact hok.released rfl

/-- **Every listener registered before a `close` released the lock is closed from then on.** -/
theorem closed_of_released (h₀ : Start s₀) (h : Trace.Run gateway.Step s₀ tr s) :
    ∀ before after e, tr = before ++ e :: after → e.act = .closeReleased →
      ∀ l, Did before (.registered l) → l ∈ s.shared.closed := by
  refine h.keeps_reached (P := fun tr s => ∀ before after e, tr = before ++ e :: after →
    e.act = .closeReleased → ∀ l, Did before (.registered l) → l ∈ s.shared.closed) ?_ ?_
  · intro before after e htr
    simp at htr
  · intro tr s e s' hrun ih hstep before after e' htr he' l hl
    obtain ⟨⟨q, hmove, -⟩, -, -⟩ := hstep.moved
    rcases split_concat htr with ⟨rfl, rfl, rfl⟩ | ⟨mid, rfl, rfl⟩
    · rw [he'] at hmove
      exact hmove.closed_mono ((ok_of_run h₀ hrun e'.thread).closed_move hmove l hl)
    · exact hmove.closed_mono (ih before mid e' rfl he' l hl)

/-- **A `close` that has returned has closed every listener registered before its call.** -/
theorem closed_of_returned {before after : List (Monitor.Event ι Act)}
    {call ret : Monitor.Event ι Act} (h₀ : Start s₀)
    (h : Trace.Run gateway.Step s₀ (before ++ call :: after ++ [ret]) s)
    (hcall : call.act = .callClose) (hret : ret.act = .closeReturned)
    (hthread : ret.thread = call.thread) {l : ℕ} (hl : Did before (.registered l)) :
    l ∈ s.shared.closed := by
  obtain ⟨s₁, hrun, hstep⟩ := h.last
  obtain ⟨⟨q, hmove, -⟩, -, -⟩ := hstep.moved
  rw [hret] at hmove
  obtain ⟨first, rest, released, htr, hthread', hact, hrest⟩ :=
    (ok_of_run h₀ hrun ret.thread).returned_move hmove
  -- The call is not after the release, so what was before the call is before the release.
  obtain ⟨mid, hmid⟩ : before <+: first := by
    rcases List.append_eq_append_iff.mp htr with ⟨mid, hfirst, -⟩ | ⟨mid, hbefore, hmid⟩
    · exact ⟨mid, hfirst.symm⟩
    · cases mid with
      | nil => exact ⟨[], by simpa using hbefore⟩
      | cons x mid =>
        have hmem : call ∈ rest := by
          rw [(List.cons.inj hmid).2]
          simp
        exact absurd hcall (hrest call hmem hthread.symm)
  refine hmove.closed_mono (closed_of_released h₀ hrun first rest released htr hact l ?_)
  obtain ⟨e, he, ha⟩ := hl
  exact ⟨e, by rw [← hmid]; exact List.mem_append_left _ he, ha⟩

/-! ### The gateway as a whole -/

/-- **The gateway keeps one tracked bastion.**  A live client is the one it stores, or one
that a `close` has detached and is about to close; a thread that was serving before a `close`
released the lock neither connects afterwards nor dials through a client connected
afterwards; and when a `close` returns, every listener registered before its call is closed. -/
theorem one_tracked_bastion (h₀ : Start s₀) (h : Trace.Run gateway.Step s₀ tr s) :
    (∀ c ∈ s.shared.live, ¬ (∃ t, (s.point t).point.detaches c) → s.shared.client = some c) ∧
    (∀ before after e u, tr = before ++ e :: after → e.act.endsClose = true → Started before u →
      (∀ e' ∈ after, e'.thread = u → e'.act ≠ .connect ∧ ∀ c, e'.act ≠ .connected c) ∧
        ∀ e' ∈ after, e'.thread = u → ∀ c, e'.act = .dialled c → Did before (.connected c)) ∧
    ∀ before call after ret, tr = before ++ call :: after ++ [ret] → call.act = .callClose →
      ret.act = .closeReturned → ret.thread = call.thread →
        ∀ l, Did before (.registered l) → l ∈ s.shared.closed := by
  refine ⟨fun c hc hd => (live_tracked h₀ h c hc).resolve_right hd, ?_, ?_⟩
  · intro before after e u htr he hu
    have hlate := late_of_run h₀ h before after e u htr he hu
    exact ⟨hlate.connects, hlate.dials⟩
  · rintro before call after ret rfl hcall hret hthread l hl
    exact closed_of_returned h₀ h hcall hret hthread hl

/-! ### A late thread beside a client that is opened again -/

/-- A caller, and a thread that it starts. -/
def twoThreads : Monitor.State Bool Shared Thread :=
  ⟨.init, none, fun t => if t then ⟨none, .unborn⟩ else ⟨none, .idle⟩⟩

theorem start_twoThreads : Start twoThreads where
  shared := rfl
  lock := rfl
  threads t := by
    cases t
    · exact .inl rfl
    · exact .inr rfl

/-- The caller opens a forward, whose thread accepts a connection. -/
def opening : List (Monitor.Event Bool Act) :=
  [⟨false, .callForward, none⟩, ⟨false, .entered, none⟩, ⟨false, .connect, none⟩,
    ⟨false, .connected 0, none⟩, ⟨false, .readGeneration, none⟩, ⟨false, .bound 0, none⟩,
    ⟨false, .registered 0, none⟩, ⟨false, .released, none⟩, ⟨false, .spawned, some true⟩,
    ⟨true, .accepted, none⟩]

/-- A `close`, up to the release of the lock, -/
def closing : List (Monitor.Event Bool Act) :=
  [⟨false, .callClose, none⟩, ⟨false, .entered, none⟩, ⟨false, .bumped, none⟩,
    ⟨false, .closedListener 0, none⟩, ⟨false, .clearedListeners, none⟩, ⟨false, .detachedClient, none⟩]

/-- and from there on, while the thread is refused. -/
def leaving : List (Monitor.Event Bool Act) :=
  [⟨true, .entered, none⟩, ⟨true, .refused, none⟩, ⟨false, .closedClient 0, none⟩,
    ⟨false, .closeReturned, none⟩]

/-- The caller opens a socket through a new client; the thread accepts another connection, and is
refused again. -/
def reopening : List (Monitor.Event Bool Act) :=
  [⟨true, .raised, none⟩, ⟨false, .callSocket, none⟩, ⟨true, .accepted, none⟩,
    ⟨false, .entered, none⟩, ⟨false, .checked, none⟩, ⟨false, .connect, none⟩,
    ⟨false, .connected 1, none⟩, ⟨false, .released, none⟩, ⟨true, .entered, none⟩,
    ⟨true, .refused, none⟩, ⟨true, .raised, none⟩, ⟨false, .dialled 1, none⟩]

/-- What has happened when the lock is released. -/
def release : List (Monitor.Event Bool Act) := opening ++ closing

theorem reopened_run : ∃ s₁ s₂,
    Trace.Run gateway.Step twoThreads (release ++ ⟨false, .closeReleased, none⟩ :: leaving) s₁ ∧
    Trace.Run gateway.Step twoThreads
      (release ++ ⟨false, .closeReleased, none⟩ :: (leaving ++ reopening)) s₂ ∧
    s₂.shared.live = [1] ∧ ∀ t, (s₂.point t).point = .idle := by
  have h0 : Trace.Run gateway.Step twoThreads [] twoThreads := .start
  -- A forward is opened, and the thread that serves it has accepted a connection.
  have h1 := h0.step (.move (t := false) Move.callForward rfl)
  have h2 := h1.step (.move (t := false) Move.forwardEnter ⟨rfl, rfl⟩)
  have h3 := h2.step (.move (t := false) (Move.connect rfl) rfl)
  have h4 := h3.step (.move (t := false) Move.connected rfl)
  have h5 := h4.step (.move (t := false) Move.readGeneration rfl)
  have h6 := h5.step (.move (t := false) Move.bound rfl)
  have h7 := h6.step (.move (t := false) Move.registered rfl)
  have h8 := h7.step (.move (t := false) Move.forwardReleased rfl)
  have h9 := h8.step (.fork (t := false) (u := true) Move.spawned rfl rfl (by decide))
  have h10 := h9.step (.move (t := true) Move.accepted rfl)
  -- The gateway is closed before that thread dials.
  have h11 := h10.step (.move (t := false) Move.callClose rfl)
  have h12 := h11.step (.move (t := false) Move.closeEnter ⟨rfl, rfl⟩)
  have h13 := h12.step (.move (t := false) Move.bumped rfl)
  have h14 := h13.step (.move (t := false) Move.closedListener rfl)
  have h15 := h14.step (.move (t := false) Move.clearedListeners rfl)
  have h16 := h15.step (.move (t := false) Move.detachedClient rfl)
  have h17 := h16.step (.move (t := false) Move.closeReleased rfl)
  -- What the thread goes on with belongs to the closed generation, and is refused.
  have h18 := h17.step (.move (t := true) Move.channelEnter ⟨rfl, rfl⟩)
  have h19 := h18.step (.move (t := true) (Move.refused (by decide)) rfl)
  have h20 := h19.step (.move (t := false) Move.closedClient rfl)
  have h21 := h20.step (.move (t := false) Move.closeReturned rfl)
  have h22 := h21.step (.move (t := true) Move.raised rfl)
  -- A new client is opened, which the late thread does not get at either.
  have h23 := h22.step (.move (t := false) Move.callSocket rfl)
  have h24 := h23.step (.move (t := true) Move.accepted rfl)
  have h25 := h24.step (.move (t := false) Move.channelEnter ⟨rfl, rfl⟩)
  have h26 := h25.step (.move (t := false) (Move.checked fun _ _ h => by cases h) rfl)
  have h27 := h26.step (.move (t := false) (Move.connect rfl) rfl)
  have h28 := h27.step (.move (t := false) Move.connected rfl)
  have h29 := h28.step (.move (t := false) Move.released rfl)
  have h30 := h29.step (.move (t := true) Move.channelEnter ⟨rfl, rfl⟩)
  have h31 := h30.step (.move (t := true) (Move.refused (by decide)) rfl)
  have h32 := h31.step (.move (t := true) Move.raised rfl)
  have h33 := h32.step (.move (t := false) Move.dialled rfl)
  exact ⟨_, _, h21, h33, rfl, fun t => by cases t <;> rfl⟩

/-- In that run the client that is live at the end is the new one, which is stored; the thread has
neither connected nor dialled through it; and the listener was closed when `close` returned. -/
theorem reopened_run_tracked : ∃ s₁ s₂,
    Trace.Run gateway.Step twoThreads (release ++ ⟨false, .closeReleased, none⟩ :: leaving) s₁ ∧
    Trace.Run gateway.Step twoThreads
      (release ++ ⟨false, .closeReleased, none⟩ :: (leaving ++ reopening)) s₂ ∧
    0 ∈ s₁.shared.closed ∧ s₂.shared.live = [1] ∧ s₂.shared.client = some 1 ∧
    (∀ e ∈ leaving ++ reopening, e.thread = true → e.act ≠ .connect ∧ ∀ c, e.act ≠ .connected c) ∧
    ∀ e ∈ leaving ++ reopening, e.thread = true → ∀ c, e.act = .dialled c → Did release (.connected c) := by
  obtain ⟨s₁, s₂, hreturned, hrun, hlive, hidle⟩ := reopened_run
  obtain ⟨-, -, hclosed⟩ := one_tracked_bastion start_twoThreads hreturned
  obtain ⟨htracked, hlate, -⟩ := one_tracked_bastion start_twoThreads hrun
  have hregistered : Did opening (.registered 0) := ⟨⟨false, .registered 0, none⟩, by simp [opening], rfl⟩
  have hzero : 0 ∈ s₁.shared.closed := hclosed opening ⟨false, .callClose, none⟩
    (closing.tail ++ ⟨false, .closeReleased, none⟩ :: leaving.dropLast) ⟨false, .closeReturned, none⟩
    rfl rfl rfl rfl 0 hregistered
  have hattached : ¬ ∃ t, (s₂.point t).point.detaches 1 := by
    rintro ⟨t, ht | ht⟩ <;> (rw [hidle t] at ht; cases ht)
  have hstarted : Started release true := ⟨⟨false, .spawned, some true⟩, by simp [release, opening], rfl⟩
  obtain ⟨hconnects, hdials⟩ := hlate release (leaving ++ reopening) ⟨false, .closeReleased, none⟩ true
    rfl rfl hstarted
  have hone : 1 ∈ s₂.shared.live := by
    rw [hlive]
    exact List.mem_singleton_self _
  exact ⟨s₁, s₂, hreturned, hrun, hzero, hlive, htracked 1 hone hattached, hconnects, hdials⟩

end TestRange.Jump
