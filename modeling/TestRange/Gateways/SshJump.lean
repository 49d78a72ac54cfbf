/-
The SSH jump gateway: one bastion client, shared by every caller and every accept loop.

Callers open sockets and local forwards and close the gateway; a local forward starts a
thread that accepts connections and dials for each of them.  `close` is not terminal, so a
later call connects again; a thread that serves a forward opened before is refused then.

* `Move`, `gateway` — the statements of the gateway as moves under its lock;
* `Start` — a new gateway;
* `Move.outside` and its like — what one move can do.
-/
import TestRange.Lib.Monitor

namespace TestRange.Jump

/-! ### The gateway -/

/-- The fields of the gateway, and what it has made of the world.  Clients and listeners are
numbered in the order in which they are made. -/
structure Shared where
  client : Option ℕ
  listeners : List ℕ
  generation : ℕ
  /-- The clients that connected and were not closed. -/
  live : List ℕ
  /-- The listeners that were closed. -/
  closed : List ℕ
  clients : ℕ
  sockets : ℕ

def Shared.init : Shared := ⟨none, [], 0, [], [], 0, 0⟩

/-- Who called `_ensure_jump`. -/
inductive Caller
  | channelTo | localForward
  deriving DecidableEq

/-- A point of the code. -/
inductive Point
  | unborn
  /-- Between two calls; before `accept` in a thread that serves. -/
  | idle
  | ended
  /-- In `_channel_to`: before the lock, and in front of the check of the generation. -/
  | channelEnter
  | channelHeld
  /-- In `_ensure_jump`: in front of the check of `_client`, and of `connect`. -/
  | ensure (k : Caller)
  | connecting (k : Caller)
  /-- Back from `_ensure_jump` with a client. -/
  | jumped (k : Caller) (c : ℕ)
  /-- An exception is leaving the lock. -/
  | raising
  /-- In `_channel_to`, with a client and without the lock. -/
  | dialing (c : ℕ)
  /-- In `open_local_forward`: before the lock, with the generation, with a listener, with a
  registered listener, and in front of `Thread.start`. -/
  | forwardEnter
  | forwardRead (g : ℕ)
  | forwardBound (g l : ℕ)
  | forwardRegistered (g l : ℕ)
  | forwardReleased (g l : ℕ)
  /-- In `close`: before the lock, inside it, over the listeners, with none left, with the
  client detached, without the lock, and at the end. -/
  | closeEnter
  | closeHeld
  | closing (rest : List ℕ)
  | cleared
  | detached (c : Option ℕ)
  | closeRaising
  | released (c : Option ℕ)
  | returning
  deriving DecidableEq

/-- A thread: the listener and the generation of a thread that serves, and its point. -/
structure Thread where
  serves : Option (ℕ × ℕ)
  point : Point

inductive Act
  | callSocket
  | callForward
  | callClose
  | accepted
  | acceptFailed
  | entered
  | refused
  | checked
  | found (c : ℕ)
  | connect
  | connected (c : ℕ)
  | connectFailed
  | released
  | raised
  | dialled (c : ℕ)
  | noTransport
  | readGeneration
  | bound (l : ℕ)
  | bindFailed
  | registered (l : ℕ)
  | spawned
  | spawnFailed
  | bumped
  | closedListener (l : ℕ)
  | closeListenerFailed
  | clearedListeners
  | detachedClient
  | closeReleased
  | closeRaised
  | closedClient (c : ℕ)
  | closeReturned
  deriving DecidableEq

/-- The points between the acquisition of the lock and its release. -/
def Point.critical : Point → Bool
  | .channelHeld | .ensure _ | .connecting _ | .jumped _ _ | .raising | .forwardRead _
  | .forwardBound _ _ | .forwardRegistered _ _ | .closeHeld | .closing _ | .cleared | .detached _
  | .closeRaising => true
  | _ => false

/-- The moves of a thread `⟨r, p⟩`; `r` is what it serves. -/
inductive Move : Shared → Thread → Act → Shared → Thread → Option Thread → Prop
  -- What a caller calls, and what a thread that serves accepts.
  | callSocket {sh} : Move sh ⟨none, .idle⟩ .callSocket sh ⟨none, .channelEnter⟩ none
  | callForward {sh} : Move sh ⟨none, .idle⟩ .callForward sh ⟨none, .forwardEnter⟩ none
  | callClose {sh} : Move sh ⟨none, .idle⟩ .callClose sh ⟨none, .closeEnter⟩ none
  | accepted {sh l g} : Move sh ⟨some (l, g), .idle⟩ .accepted sh ⟨some (l, g), .channelEnter⟩ none
  | acceptFailed {sh l g} : Move sh ⟨some (l, g), .idle⟩ .acceptFailed sh ⟨some (l, g), .ended⟩ none
  -- `_channel_to`
  | channelEnter {sh r} : Move sh ⟨r, .channelEnter⟩ .entered sh ⟨r, .channelHeld⟩ none
  | refused {sh l g} (hstale : g ≠ sh.generation) :
      Move sh ⟨some (l, g), .channelHeld⟩ .refused sh ⟨some (l, g), .raising⟩ none
  | checked {sh r} (hfresh : ∀ l g, r = some (l, g) → g = sh.generation) :
      Move sh ⟨r, .channelHeld⟩ .checked sh ⟨r, .ensure .channelTo⟩ none
  | released {sh r c} : Move sh ⟨r, .jumped .channelTo c⟩ .released sh ⟨r, .dialing c⟩ none
  | raised {sh r} : Move sh ⟨r, .raising⟩ .raised sh ⟨r, .idle⟩ none
  | dialled {sh r c} : Move sh ⟨r, .dialing c⟩ (.dialled c) sh ⟨r, .idle⟩ none
  | noTransport {sh r c} : Move sh ⟨r, .dialing c⟩ .noTransport sh ⟨r, .idle⟩ none
  -- `_ensure_jump`
  | found {sh r k c} (hclient : sh.client = some c) :
      Move sh ⟨r, .ensure k⟩ (.found c) sh ⟨r, .jumped k c⟩ none
  | connect {sh r k} (hclient : sh.client = none) :
      Move sh ⟨r, .ensure k⟩ .connect sh ⟨r, .connecting k⟩ none
  -- `connect` returns and the client is stored.
  | connected {sh r k} : Move sh ⟨r, .connecting k⟩ (.connected sh.clients)
      { sh with client := some sh.clients, live := sh.clients :: sh.live, clients := sh.clients + 1 }
      ⟨r, .jumped k sh.clients⟩ none
  | connectFailed {sh r k} : Move sh ⟨r, .connecting k⟩ .connectFailed sh ⟨r, .raising⟩ none
  -- `open_local_forward`
  | forwardEnter {sh r} : Move sh ⟨r, .forwardEnter⟩ .entered sh ⟨r, .ensure .localForward⟩ none
  | readGeneration {sh r c} : Move sh ⟨r, .jumped .localForward c⟩ .readGeneration sh
      ⟨r, .forwardRead sh.generation⟩ none
  | bound {sh r g} : Move sh ⟨r, .forwardRead g⟩ (.bound sh.sockets)
      { sh with sockets := sh.sockets + 1 } ⟨r, .forwardBound g sh.sockets⟩ none
  | bindFailed {sh r g} : Move sh ⟨r, .forwardRead g⟩ .bindFailed sh ⟨r, .raising⟩ none
  | registered {sh r g l} : Move sh ⟨r, .forwardBound g l⟩ (.registered l)
      { sh with listeners := sh.listeners ++ [l] } ⟨r, .forwardRegistered g l⟩ none
  | forwardReleased {sh r g l} :
      Move sh ⟨r, .forwardRegistered g l⟩ .released sh ⟨r, .forwardReleased g l⟩ none
  | spawned {sh r g l} : Move sh ⟨r, .forwardReleased g l⟩ .spawned sh ⟨r, .idle⟩
      (some ⟨some (l, g), .idle⟩)
  -- The port of a listener that was closed meanwhile cannot be read.
  | spawnFailed {sh r g l} : Move sh ⟨r, .forwardReleased g l⟩ .spawnFailed sh ⟨r, .idle⟩ none
  -- `close`
  | closeEnter {sh r} : Move sh ⟨r, .closeEnter⟩ .entered sh ⟨r, .closeHeld⟩ none
  | bumped {sh r} : Move sh ⟨r, .closeHeld⟩ .bumped { sh with generation := sh.generation + 1 }
      ⟨r, .closing sh.listeners⟩ none
  | closedListener {sh r l rest} : Move sh ⟨r, .closing (l :: rest)⟩ (.closedListener l)
      { sh with closed := l :: sh.closed } ⟨r, .closing rest⟩ none
  | closeListenerFailed {sh r l rest} :
      Move sh ⟨r, .closing (l :: rest)⟩ .closeListenerFailed sh ⟨r, .closeRaising⟩ none
  | clearedListeners {sh r} : Move sh ⟨r, .closing []⟩ .clearedListeners { sh with listeners := [] }
      ⟨r, .cleared⟩ none
  | detachedClient {sh r} : Move sh ⟨r, .cleared⟩ .detachedClient { sh with client := none }
      ⟨r, .detached sh.client⟩ none
  | closeReleased {sh r c} : Move sh ⟨r, .detached c⟩ .closeReleased sh ⟨r, .released c⟩ none
  | closeRaised {sh r} : Move sh ⟨r, .closeRaising⟩ .closeRaised sh ⟨r, .idle⟩ none
  -- `client.close()`; what it raises is logged.
  | closedClient {sh r c} : Move sh ⟨r, .released (some c)⟩ (.closedClient c)
      { sh with live := sh.live.filter (· ≠ c) } ⟨r, .returning⟩ none
  | noClient {sh r} : Move sh ⟨r, .released none⟩ .closeReturned sh ⟨r, .idle⟩ none
  | closeReturned {sh r} : Move sh ⟨r, .returning⟩ .closeReturned sh ⟨r, .idle⟩ none

/-- The gateway as a program of threads. -/
def gateway : Monitor Shared Thread Act where
  critical th := th.point.critical
  unborn := ⟨none, .unborn⟩
  move := Move
  child_free h := by
    cases h
    rfl

/-- A new gateway; its threads are callers, or not started yet. -/
structure Start {ι : Type} (s : Monitor.State ι Shared Thread) : Prop where
  shared : s.shared = .init
  lock : s.lock = none
  threads : ∀ t, s.point t = ⟨none, .idle⟩ ∨ s.point t = ⟨none, .unborn⟩

/-! ### What one move does -/

/-- The thread keeps what it serves. -/
theorem Move.serves {sh sh' : Shared} {th th' : Thread} {a : Act} {q : Option Thread}
    (h : Move sh th a sh' th' q) : th'.serves = th.serves := by
  cases h <;> rfl

theorem Move.generation_le {sh sh' : Shared} {th th' : Thread} {a : Act} {q : Option Thread}
    (h : Move sh th a sh' th' q) : sh.generation ≤ sh'.generation := by
  cases h
  case bumped => exact Nat.le_succ _
  all_goals exact Nat.le_refl _

/-- A closed listener stays closed. -/
theorem Move.closed_mono {sh sh' : Shared} {th th' : Thread} {a : Act} {q : Option Thread}
    (h : Move sh th a sh' th' q) {l : ℕ} (hl : l ∈ sh.closed) : l ∈ sh'.closed := by
  cases h
  case closedListener => exact List.mem_cons_of_mem _ hl
  all_goals exact hl

/-- Outside the lock nothing is changed that the lock guards. -/
theorem Move.outside {sh sh' : Shared} {th th' : Thread} {a : Act} {q : Option Thread}
    (h : Move sh th a sh' th' q) (hout : th.point.critical = false) :
    sh'.client = sh.client ∧ sh'.generation = sh.generation ∧ (∀ l, a ≠ .registered l) ∧
      a ≠ .readGeneration := by
  cases h <;> first
    | cases hout; done
    | exact ⟨rfl, rfl, fun _ => Act.noConfusion, Act.noConfusion⟩

end TestRange.Jump
