import Tent.Foundation.Binary32
import Tent.Session.Delivery

/-!
# The two threads of a session

`session::start` runs in the main thread.  When the agents are there it starts a second thread for
`session::engine`, and then waits to be notified and prints the progress, over and over, as long as
`running_` holds.  The engine polls the reactor and the timer under the lock, again as long as
`running_` holds, and notifies the main thread after each round.  `session::stop` is called by what
the engine calls under the lock: by the piece handler, when the last piece was written, and by the
engine itself, when the poll failed.

`Threads` is the state of both, with the session that the callbacks of the engine work on.  Each
step is one access of the source to the lock, the condition variable or one of the two flags, and
the steps of the threads may come in any order.  The lock is never held by both (`Ordered`), one of
them can always go on until the main thread is back (`not_stuck`), and when `session::stop` was
called the main thread is back soon (`returns_after_stop`), with complete files unless a poll failed
(`complete_of_returned`).  What it printed by then is the final progress, if there was need to print
that (`progress_printed`).
-/

set_option autoImplicit false

namespace Tent

open Transition

/-- The main thread and the thread of the engine. -/
inductive Thread where
  /-- The main thread. -/
  | main
  /-- `engine_thread`. -/
  | engine
deriving DecidableEq, Repr

/-- Where `session::start` is, once the thread of the engine was started. -/
inductive StartPc where
  /-- At `std::unique_lock<std::mutex> lock(mutex_)`. -/
  | lock
  /-- At `while(running_)`. -/
  | loop
  /-- In `cv_.wait`, at the predicate. -/
  | test
  /-- In `cv_.wait`, blocked. -/
  | blocked
  /-- In `cv_.wait`, woken up and about to take the lock again. -/
  | relock
  /-- At `print_progress(progress_str)`. -/
  | print
  /-- At `notified_ = false`. -/
  | clear
  /-- At `engine_thread.join()`. -/
  | join
  /-- Back. -/
  | returned
deriving DecidableEq, Repr

/-- Where `session::engine` is. -/
inductive EnginePc where
  /-- At `while(running_)`. -/
  | loop
  /-- At `std::unique_lock<std::mutex> lg{mutex_}`. -/
  | lock
  /-- In `reactor_.poll()`. -/
  | poll
  /-- In `timer_.tock()`. -/
  | tock
  /-- At `notified_ = true`. -/
  | notify
  /-- At `cv_.notify_one()`. -/
  | notifyOne
  /-- At the end of the scope of the lock. -/
  | unlock
  /-- Back. -/
  | returned
deriving DecidableEq, Repr

/-- The main thread has the lock.  It keeps the lock while it joins. -/
def StartPc.holds : StartPc → Bool
  | .loop | .test | .print | .clear | .join => true
  | .lock | .blocked | .relock | .returned => false

/-- The main thread is in `cv_.wait`. -/
def StartPc.waits : StartPc → Bool
  | .test | .blocked | .relock => true
  | _ => false

/-- The main thread is neither in front of `print_progress` nor about to take the lock. -/
def StartPc.settled : StartPc → Bool
  | .loop | .clear | .join | .returned => true
  | _ => false

/-- The engine has the lock. -/
def EnginePc.holds : EnginePc → Bool
  | .poll | .tock | .notify | .notifyOne | .unlock => true
  | .loop | .lock | .returned => false

/-- The engine is going to call `cv_.notify_one()` before it gives the lock back. -/
def EnginePc.notifies : EnginePc → Bool
  | .poll | .tock | .notify | .notifyOne => true
  | .loop | .lock | .unlock | .returned => false

/-- The state of a session with its two threads. -/
structure Threads where
  /-- The main thread. -/
  start : StartPc
  /-- The thread of the engine. -/
  engine : EnginePc
  /-- Who has `mutex_`. -/
  owner : Option Thread
  /-- `notified_`. -/
  notified : Bool
  /-- `running_`. -/
  running : Bool
  /-- Some call of `poll` failed. -/
  failed : Bool
  /-- The values of `piece_handler_.written()` that were printed. -/
  printed : List ℕ
  /-- The agents and what they share. -/
  world : World

/-- A step of one of the threads. -/
inductive ThreadLabel where
  /-- The next access of `session::start`. -/
  | start
  /-- The next access of `session::engine`. -/
  | engine
  /-- A callback of an agent, from `poll` or `tock`. -/
  | callback (i : ℕ) (l : Label)
  /-- `poll` returns, and failed or did not. -/
  | polled (failed : Bool)
  /-- A wake-up without a notification. -/
  | spurious

/-- The label is a callback of an agent. -/
def ThreadLabel.isCallback : ThreadLabel → Bool
  | .callback _ _ => true
  | _ => false

/-- A timeout is called by `tock`, everything else by `poll`. -/
def EnginePc.calls : EnginePc → Label → Bool
  | .poll, .timeout _ _ => false
  | .poll, _ => true
  | .tock, .timeout _ _ => true
  | _, _ => false

/-- What the engine calls, it calls under the lock and before it notifies. -/
lemma EnginePc.holds_of_calls {pc : EnginePc} {l : Label} (h : pc.calls l = true) :
    pc.holds = true ∧ pc.notifies = true := by
  cases pc <;> first | exact ⟨rfl, rfl⟩ | exact Bool.noConfusion h

/-- How far the main thread is from its end when the session was stopped. -/
def StartPc.rank : StartPc → ℕ
  | .returned => 0
  | .join => 1
  | .loop => 2
  | .clear => 3
  | .lock => 3
  | .print => 4
  | .test => 5
  | .relock => 6
  | .blocked => 7

/-- How far the engine is from its end when the session was stopped. -/
def EnginePc.rank : EnginePc → ℕ
  | .returned => 0
  | .loop => 1
  | .unlock => 2
  | .notifyOne => 3
  | .notify => 4
  | .tock => 5
  | .poll => 6
  | .lock => 7

lemma StartPc.rank_le (pc : StartPc) : pc.rank ≤ 7 := by cases pc <;> decide

lemma EnginePc.rank_le (pc : EnginePc) : pc.rank ≤ 7 := by cases pc <;> decide

namespace Threads

variable {Digest : Type*} (env : AgentEnv Digest)

/-- The state of `session::start` after the thread of the engine was started. -/
def initial (peers : List Peer) : Threads where
  start := .lock
  engine := .loop
  owner := none
  notified := false
  running := true
  failed := false
  printed := []
  world := World.create env peers

/-- `session::stop`. -/
def stop (s : Threads) : Threads := { s with running := false, notified := true }

/-- `session::completed`, in the arithmetic of `float`. -/
def completed (s : Threads) : Float32 :=
  100 * s.world.shared.handler.writtenPieces.toFloat32 / env.torrent.numPieces.toFloat32

/-- `print_progress` has something to print: the pieces are there, or more of them than
`progress_str` shows, which has one character for each number printed. -/
def ProgressDue (s : Threads) : Prop :=
  100 ≤ s.completed env ∨ s.printed.length.toFloat32 < s.completed env

instance (s : Threads) : Decidable (s.ProgressDue env) := inferInstanceAs (Decidable (_ ∨ _))

/-- `session::print_progress`. -/
def printProgress (s : Threads) : List ℕ :=
  if s.ProgressDue env then s.printed ++ [s.world.shared.handler.writtenPieces] else s.printed

/-- The next access of `session::start`; none while it has to wait. -/
def stepStart (s : Threads) : Option Threads :=
  match s.start with
  | .lock => if s.owner = none then some { s with start := .loop, owner := some .main } else none
  | .loop => some { s with start := if s.running then .test else .join }
  | .test =>
    if s.notified then some { s with start := .print }
    else some { s with start := .blocked, owner := none }
  | .blocked => none
  | .relock => if s.owner = none then some { s with start := .test, owner := some .main } else none
  | .print => some { s with start := .clear, printed := s.printProgress env }
  | .clear => some { s with start := .loop, notified := false }
  | .join =>
    if s.engine = .returned then some { s with start := .returned, owner := none } else none
  | .returned => none

/-- The next access of `session::engine`; none while it has to wait or `poll` is running. -/
def stepEngine (s : Threads) : Option Threads :=
  match s.engine with
  | .loop => some { s with engine := if s.running then .lock else .returned }
  | .lock => if s.owner = none then some { s with engine := .poll, owner := some .engine } else none
  | .poll => none
  | .tock => some { s with engine := .notify }
  | .notify => some { s with engine := .notifyOne, notified := true }
  | .notifyOne => some { s with
      engine := .unlock
      start := if s.start = .blocked then .relock else s.start }
  | .unlock => some { s with engine := .loop, owner := none }
  | .returned => none

variable [DecidableEq Digest]

/-- A callback of an agent, which may call `session::stop`. -/
def callback (i : ℕ) (l : Label) (s : Threads) : Threads :=
  let world := s.world.step env (i, l)
  if s.world.shared.handler.log.count .stop < world.shared.handler.log.count .stop then
    { s with world := world }.stop
  else { s with world := world }

/-- One step of one of the threads, if it is enabled. -/
def step (s : Threads) : ThreadLabel → Option Threads
  | .start => s.stepStart env
  | .engine => s.stepEngine
  | .callback i l => if s.engine.calls l then some (s.callback env i l) else none
  | .polled failed =>
    if s.engine = .poll then
      some { if failed then { s.stop with failed := true } else s with engine := .tock }
    else none
  | .spurious => if s.start = .blocked then some { s with start := .relock } else none

/-- What is true of the lock, the flags and the notifications at any time. -/
structure Ordered (s : Threads) : Prop where
  /-- The owner of the lock is the thread that is where it needs it. -/
  owner_eq : s.owner =
    if s.start.holds then some .main else if s.engine.holds then some .engine else none
  /-- Not both threads are. -/
  exclusive : s.start.holds = true → s.engine.holds = false
  /-- The engine takes the lock only while the session is running. -/
  lock : s.engine = .lock → s.running = true
  /-- When the session was stopped, whoever waits will find that it was notified. -/
  notified : s.running = false → s.start.waits = true → s.notified = true
  /-- When the session was stopped, whoever is blocked will be woken up. -/
  blocked : s.running = false → s.start = .blocked → s.engine.notifies = true
  /-- The engine returns only when the session was stopped. -/
  engine : s.engine = .returned → s.running = false
  /-- The main thread leaves its loop only when the session was stopped. -/
  left : s.start = .join ∨ s.start = .returned → s.running = false
  /-- The main thread waits for the engine. -/
  joined : s.start = .returned → s.engine = .returned

omit [DecidableEq Digest] in
/-- The threads start in order. -/
lemma ordered_initial (peers : List Peer) : (initial env peers).Ordered := by
  constructor <;> simp [initial, StartPc.holds, EnginePc.holds, StartPc.waits]

omit [DecidableEq Digest] in
/-- A step of the main thread keeps order. -/
lemma Ordered.stepStart {s t : Threads} (hs : s.Ordered) (h : s.stepStart env = some t) :
    t.Ordered := by
  obtain ⟨howner, hexcl, hlock, hnot, hblocked, hengine, hleft, hjoined⟩ := hs
  unfold Threads.stepStart at h
  cases hpc : s.start with
  | lock =>
    simp only [hpc, Option.ite_none_right_eq_some, Option.some.injEq] at h
    obtain ⟨hfree, rfl⟩ := h
    have hengine : s.engine.holds = false := by
      rw [hfree, hpc] at howner
      simpa [StartPc.holds] using howner
    constructor <;> simp_all [StartPc.holds, StartPc.waits]
  | loop =>
    simp only [hpc, Option.some.injEq] at h
    subst h
    cases hrun : s.running with
    | true => constructor <;> simp_all [StartPc.holds, StartPc.waits]
    | false => constructor <;> simp_all [StartPc.holds, StartPc.waits]
  | test =>
    simp only [hpc] at h
    cases hnotified : s.notified with
    | true =>
      rw [hnotified, if_pos rfl, Option.some.injEq] at h
      subst h
      constructor <;> simp_all [StartPc.holds, StartPc.waits]
    | false =>
      rw [hnotified, if_neg Bool.false_ne_true, Option.some.injEq] at h
      subst h
      have hrun : s.running = true := by
        cases hrun : s.running with
        | true => rfl
        | false => simpa [hnotified] using hnot hrun (by rw [hpc]; rfl)
      constructor <;> simp_all [StartPc.holds, StartPc.waits]
  | blocked => simp [hpc] at h
  | relock =>
    simp only [hpc, Option.ite_none_right_eq_some, Option.some.injEq] at h
    obtain ⟨hfree, rfl⟩ := h
    have hengine : s.engine.holds = false := by
      rw [hfree, hpc] at howner
      simpa [StartPc.holds] using howner
    constructor <;> simp_all [StartPc.holds, StartPc.waits]
  | print =>
    simp only [hpc, Option.some.injEq] at h
    subst h
    constructor <;> simp_all [StartPc.holds, StartPc.waits]
  | clear =>
    simp only [hpc, Option.some.injEq] at h
    subst h
    constructor <;> simp_all [StartPc.holds, StartPc.waits]
  | join =>
    simp only [hpc, Option.ite_none_right_eq_some, Option.some.injEq] at h
    obtain ⟨hreturned, rfl⟩ := h
    constructor <;> simp_all [StartPc.holds, StartPc.waits]
  | returned => simp [hpc] at h

omit [DecidableEq Digest] in
/-- A step of the engine keeps order. -/
lemma Ordered.stepEngine {s t : Threads} (hs : s.Ordered) (h : s.stepEngine = some t) :
    t.Ordered := by
  obtain ⟨howner, hexcl, hlock, hnot, hblocked, hengine, hleft, hjoined⟩ := hs
  unfold Threads.stepEngine at h
  cases hpc : s.engine with
  | loop =>
    simp only [hpc, Option.some.injEq] at h
    subst h
    cases hrun : s.running with
    | true => constructor <;> simp_all [EnginePc.holds, EnginePc.notifies]
    | false => constructor <;> simp_all [EnginePc.holds, EnginePc.notifies]
  | lock =>
    simp only [hpc, Option.ite_none_right_eq_some, Option.some.injEq] at h
    obtain ⟨hfree, rfl⟩ := h
    have hstart : s.start.holds = false := by
      rw [hfree, hpc] at howner
      simpa [EnginePc.holds] using howner
    constructor <;> simp_all [EnginePc.holds, EnginePc.notifies]
  | poll => simp [hpc] at h
  | tock =>
    simp only [hpc, Option.some.injEq] at h
    subst h
    constructor <;> simp_all [EnginePc.holds, EnginePc.notifies]
  | notify =>
    simp only [hpc, Option.some.injEq] at h
    subst h
    constructor <;> simp_all [EnginePc.holds, EnginePc.notifies]
  | notifyOne =>
    simp only [hpc, Option.some.injEq] at h
    subst h
    by_cases hblock : s.start = .blocked
    · constructor <;> simp_all [EnginePc.holds, EnginePc.notifies, StartPc.holds, StartPc.waits]
    · constructor <;> simp_all [EnginePc.holds, EnginePc.notifies]
  | unlock =>
    simp only [hpc, Option.some.injEq] at h
    subst h
    constructor <;> simp_all [EnginePc.holds, EnginePc.notifies]
  | returned => simp [hpc] at h

omit [DecidableEq Digest] in
/-- Order is a matter of the places, the lock and the two flags. -/
lemma Ordered.congr {s t : Threads} (hs : s.Ordered) (hstart : t.start = s.start)
    (hengine : t.engine = s.engine) (howner : t.owner = s.owner)
    (hnotified : t.notified = s.notified) (hrunning : t.running = s.running) : t.Ordered := by
  obtain ⟨h₁, h₂, h₃, h₄, h₅, h₆, h₇, h₈⟩ := hs
  constructor <;> simp only [hstart, hengine, howner, hnotified, hrunning] <;> assumption

omit [DecidableEq Digest] in
/-- Stopping the session from what the engine calls keeps order. -/
lemma Ordered.stop {s : Threads} (hs : s.Ordered) (hengine : s.engine.notifies = true)
    (hholds : s.engine.holds = true) : s.stop.Ordered where
  owner_eq := hs.owner_eq
  exclusive := hs.exclusive
  lock hlock := by
    rw [show s.engine = .lock from hlock] at hholds
    exact Bool.noConfusion hholds
  notified _ _ := rfl
  blocked _ _ := hengine
  engine _ := rfl
  left _ := rfl
  joined := hs.joined

/-- What a callback does: a step of the session, and a call of `stop` if it makes one. -/
lemma callback_eq (i : ℕ) (l : Label) (s : Threads) :
    ∃ world, world = s.world.step env (i, l) ∧
      (s.callback env i l = { s with world := world } ∧
          world.shared.handler.log.count .stop ≤ s.world.shared.handler.log.count .stop ∨
        s.callback env i l = { s with world := world }.stop ∧
          s.world.shared.handler.log.count .stop < world.shared.handler.log.count .stop) := by
  refine ⟨_, rfl, ?_⟩
  unfold callback
  dsimp only
  split_ifs with hcount
  · exact .inr ⟨rfl, hcount⟩
  · exact .inl ⟨rfl, Nat.le_of_not_lt hcount⟩

variable {env}

/-- Every step of the threads keeps order. -/
theorem Ordered.step {s t : Threads} (hs : s.Ordered) {l : ThreadLabel}
    (h : s.step env l = some t) : t.Ordered := by
  cases l with
  | start => exact hs.stepStart env h
  | engine => exact hs.stepEngine h
  | callback i l =>
    simp only [Threads.step, Option.ite_none_right_eq_some, Option.some.injEq] at h
    obtain ⟨hcalls, rfl⟩ := h
    obtain ⟨hholds, hnotifies⟩ := EnginePc.holds_of_calls hcalls
    obtain ⟨world, -, ⟨heq, -⟩ | ⟨heq, -⟩⟩ := callback_eq env i l s
    · rw [heq]
      exact hs.congr rfl rfl rfl rfl rfl
    · rw [heq]
      exact (hs.stop hnotifies hholds).congr rfl rfl rfl rfl rfl
  | polled failed =>
    simp only [Threads.step, Option.ite_none_right_eq_some, Option.some.injEq] at h
    obtain ⟨hpoll, rfl⟩ := h
    obtain ⟨howner, hexcl, hlock, hnot, hblocked, hengine, hleft, hjoined⟩ := hs
    cases failed with
    | true => constructor <;> simp_all [Threads.stop, EnginePc.holds, EnginePc.notifies]
    | false => constructor <;> simp_all [EnginePc.holds, EnginePc.notifies]
  | spurious =>
    simp only [Threads.step, Option.ite_none_right_eq_some, Option.some.injEq] at h
    obtain ⟨hblock, rfl⟩ := h
    obtain ⟨howner, hexcl, hlock, hnot, hblocked, hengine, hleft, hjoined⟩ := hs
    constructor <;> simp_all [StartPc.holds, StartPc.waits]

variable {s t : Threads}

/-- The threads are in order in every state of every run. -/
lemma ordered_runs {peers : List Peer} {labels : List ThreadLabel}
    (h : runs (step env) (initial env peers) labels = some s) : s.Ordered :=
  runs_invariant (fun _ _ _ hs hstep => hs.step hstep) (ordered_initial env peers) h

/-! ### Neither thread waits for ever -/

/-- How far the threads are from their ends when the session was stopped. -/
def rank (s : Threads) : ℕ := s.start.rank + s.engine.rank

/-- One of the threads can go on until the main thread is back. -/
lemma Ordered.exists_step (hs : s.Ordered) (hstart : s.start ≠ .returned) :
    ∃ l, l.isCallback = false ∧ l ≠ .spurious ∧ (s.step env l).isSome = true := by
  have hfree : s.start.holds = false → s.engine.holds = false → s.owner = none := by
    intro hmain hengine
    rw [hs.owner_eq, hmain, hengine]
    rfl
  -- the main thread goes on unless it waits for the engine
  have hmain : s.engine.holds = false → s.start ≠ .blocked →
      (s.start = .join → s.engine = .returned) → (s.step env .start).isSome = true := by
    intro hengine hblocked hjoin
    unfold Threads.step Threads.stepStart
    cases hpc : s.start with
    | lock => simp [hfree (by rw [hpc]; rfl) hengine]
    | relock => simp [hfree (by rw [hpc]; rfl) hengine]
    | test => dsimp only; split_ifs <;> rfl
    | join => simp [hjoin hpc]
    | blocked => exact absurd hpc hblocked
    | returned => exact absurd hpc hstart
    | _ => rfl
  cases hpc : s.engine with
  | poll => exact ⟨.polled false, rfl, by simp, by simp [Threads.step, hpc]⟩
  | lock =>
    cases howner : s.owner with
    | none => exact ⟨.engine, rfl, by simp, by simp [Threads.step, Threads.stepEngine, hpc, howner]⟩
    | some owner =>
      refine ⟨.start, rfl, by simp, hmain (by rw [hpc]; rfl) ?_ fun hjoin => ?_⟩
      · intro hblocked
        rw [hfree (by rw [hblocked]; rfl) (by rw [hpc]; rfl)] at howner
        exact absurd howner (by simp)
      · have hrun := hs.lock hpc
        rw [hs.left (.inl hjoin)] at hrun
        exact Bool.noConfusion hrun
  | returned =>
    refine ⟨.start, rfl, by simp, hmain (by rw [hpc]; rfl) (fun hblocked => ?_) fun _ => hpc⟩
    have hnotifies := hs.blocked (hs.engine hpc) hblocked
    rw [hpc] at hnotifies
    exact Bool.noConfusion hnotifies
  | _ => exact ⟨.engine, rfl, by simp, by simp [Threads.step, Threads.stepEngine, hpc]⟩

omit [DecidableEq Digest] in
/-- A step of the main thread brings it closer to its end when the session was stopped. -/
lemma Ordered.rank_stepStart (hs : s.Ordered) (hrun : s.running = false)
    (h : s.stepStart env = some t) :
    t.running = false ∧ t.rank < s.rank := by
  unfold Threads.stepStart at h
  unfold Threads.rank
  cases hpc : s.start with
  | test =>
    have hnotified := hs.notified hrun (by rw [hpc]; rfl)
    simp only [hpc, hnotified, if_true, Option.some.injEq] at h
    subst h
    simp [hrun, StartPc.rank]
  | blocked => simp [hpc] at h
  | returned => simp [hpc] at h
  | _ =>
    simp only [hpc, hrun, Bool.false_eq_true, if_false, Option.ite_none_right_eq_some,
      Option.some.injEq] at h
    first | subst h | obtain ⟨-, rfl⟩ := h
    simp [StartPc.rank]

/-- A step of the engine brings it closer to its end when the session was stopped. -/
lemma Ordered.rank_stepEngine (hs : s.Ordered) (hrun : s.running = false)
    (h : s.stepEngine = some t) :
    t.running = false ∧ t.rank < s.rank := by
  unfold Threads.stepEngine at h
  unfold Threads.rank
  cases hpc : s.engine with
  | lock =>
    rw [hs.lock hpc] at hrun
    exact Bool.noConfusion hrun
  | notifyOne =>
    simp only [hpc, Option.some.injEq] at h
    subst h
    by_cases hblocked : s.start = .blocked
    · simp [hrun, hblocked, EnginePc.rank, StartPc.rank]
    · simp [hrun, hblocked, EnginePc.rank]
  | poll => simp [hpc] at h
  | returned => simp [hpc] at h
  | _ =>
    simp only [hpc, hrun, Bool.false_eq_true, if_false, Option.some.injEq] at h
    subst h
    simp [EnginePc.rank]

/-- When the session was stopped, every step that is not a callback brings the threads closer to
their ends. -/
lemma Ordered.rank_step (hs : s.Ordered) (hrun : s.running = false) {l : ThreadLabel}
    (h : s.step env l = some t) :
    t.running = false ∧ if !l.isCallback then t.rank < s.rank else t.rank ≤ s.rank := by
  cases l with
  | start => exact hs.rank_stepStart hrun h
  | engine => exact hs.rank_stepEngine hrun h
  | callback i l =>
    simp only [Threads.step, Option.ite_none_right_eq_some, Option.some.injEq] at h
    obtain ⟨-, rfl⟩ := h
    obtain ⟨world, -, ⟨heq, -⟩ | ⟨heq, -⟩⟩ := callback_eq env i l s
    · rw [heq]
      exact ⟨hrun, Nat.le_refl _⟩
    · rw [heq]
      exact ⟨rfl, Nat.le_refl _⟩
  | polled failed =>
    simp only [Threads.step, Option.ite_none_right_eq_some, Option.some.injEq] at h
    obtain ⟨hpoll, rfl⟩ := h
    cases failed <;>
      simp [ThreadLabel.isCallback, Threads.rank, Threads.stop, hpoll, hrun, EnginePc.rank]
  | spurious =>
    simp only [Threads.step, Option.ite_none_right_eq_some, Option.some.injEq] at h
    obtain ⟨hblocked, rfl⟩ := h
    simp [ThreadLabel.isCallback, Threads.rank, hblocked, hrun, StartPc.rank]

/-- The steps of agents among the steps of the threads. -/
def callbacks (labels : List ThreadLabel) : List (ℕ × Label) :=
  labels.flatMap fun
    | .callback i l => [(i, l)]
    | _ => []

/-! ### A session that downloads one byte -/

/-- The main thread blocks, and the engine handles the handshake and the block of the only peer. -/
def sampleDownload : List ThreadLabel :=
  [.start, .start, .start, .engine, .engine,
    .callback 0 (.read (some (MsgFactory.handshake sampleAgentEnv.oob (List.replicate 20 1) [] ++
      MsgFactory.piece 0 0 [1]))), .callback 0 .frame, .callback 0 .frame]

/-- The engine notifies the main thread and returns, and the main thread prints the progress and
joins. -/
def sampleReturn : List ThreadLabel :=
  .polled false :: List.replicate 5 .engine ++ List.replicate 6 .start

/-- The whole session. -/
def sampleSchedule : List ThreadLabel := sampleDownload ++ sampleReturn

/-- All steps are enabled.  The block stops the session while the main thread is blocked, and the
main thread comes back. -/
lemma sampleSchedule_runs : ∃ s t,
    runs (step sampleAgentEnv) (initial sampleAgentEnv [⟨[], 3, true⟩]) sampleDownload = some s ∧
      runs (step sampleAgentEnv) s sampleReturn = some t ∧
      runs (step sampleAgentEnv) (initial sampleAgentEnv [⟨[], 3, true⟩]) sampleSchedule = some t ∧
      (s.start = .blocked ∧ s.running = false) ∧
      t.start = .returned ∧ t.failed = false ∧ t.printed = [1] := by
  have hmap : (runs (step sampleAgentEnv) (initial sampleAgentEnv [⟨[], 3, true⟩])
      sampleDownload).map (fun s => ((s.start, s.running),
        (runs (step sampleAgentEnv) s sampleReturn).map fun t => (t.start, t.failed, t.printed))) =
      some ((.blocked, false), some (.returned, false, [1])) := by
    decide +kernel
  obtain ⟨s, hs, heq⟩ := Option.map_eq_some_iff.mp hmap
  obtain ⟨hblocked, hreturn⟩ := Prod.mk.inj heq
  obtain ⟨t, ht, hreturned⟩ := Option.map_eq_some_iff.mp hreturn
  simp only [Prod.mk.injEq] at hblocked hreturned
  exact ⟨s, t, hs, ht, (runs_append hs sampleReturn).trans ht, hblocked, hreturned⟩

/-- The peer delivers the block of the torrent. -/
lemma nominal_sampleSchedule : ∀ d ∈ World.deliveries sampleAgentEnv
    (World.create sampleAgentEnv [⟨[], 3, true⟩]) (callbacks sampleSchedule),
    Nominal sampleAgentEnv.toEnv d := by
  have hone : World.deliveries sampleAgentEnv (World.create sampleAgentEnv [⟨[], 3, true⟩])
      (callbacks sampleSchedule) = [⟨⟨0, 0⟩, [1]⟩] := by
    decide +kernel
  rw [hone]
  intro d hd
  obtain rfl := List.mem_singleton.mp hd
  exact ⟨by decide, fun _ => by decide⟩

/-! ### Whole runs of the threads -/

/-- No deadlock: in every state of every run one of the threads can take a step, other than a
callback or a spurious wake-up, until the main thread is back. -/
theorem not_stuck {peers : List Peer} {labels : List ThreadLabel}
    (h : runs (step env) (initial env peers) labels = some s) :
    s.start = .returned ∨
      ∃ l, l.isCallback = false ∧ l ≠ .spurious ∧ (s.step env l).isSome = true := by
  by_cases hstart : s.start = .returned
  · exact .inl hstart
  · exact .inr ((ordered_runs h).exists_step hstart)

/-- The threads are not stuck when the engine has the block and the main thread is blocked. -/
theorem not_stuck_sample : ∃ s,
    runs (step sampleAgentEnv) (initial sampleAgentEnv [⟨[], 3, true⟩]) sampleDownload = some s ∧
      s.start = .blocked ∧
      (s.start = .returned ∨ ∃ l, l.isCallback = false ∧ l ≠ .spurious ∧
        (s.step sampleAgentEnv l).isSome = true) := by
  obtain ⟨s, -, hs, -, -, ⟨hblocked, -⟩, -⟩ := sampleSchedule_runs
  exact ⟨s, hs, hblocked, not_stuck hs⟩

/-- Once the session was stopped, whatever the order of the steps, the main thread is back after at
most fourteen of them that are not callbacks. -/
theorem returns_after_stop {peers : List Peer} {labels more : List ThreadLabel}
    (h : runs (step env) (initial env peers) labels = some s) (hstop : s.running = false)
    (hmore : runs (step env) s more = some t) :
    (more.countP fun l => !l.isCallback) ≤ 14 ∧ t.running = false ∧
      (t.start = .returned ∨
        ∃ l, l.isCallback = false ∧ l ≠ .spurious ∧ (t.step env l).isSome = true) := by
  have hs := ordered_runs h
  have hcount := countP_add_rank_le (P := fun s => s.Ordered ∧ s.running = false)
    (fun l => !l.isCallback) rank (fun s l t hs hstep => by
      obtain ⟨hrun, hrank⟩ := hs.1.rank_step hs.2 hstep
      exact ⟨⟨hs.1.step hstep, hrun⟩, hrank⟩) ⟨hs, hstop⟩ hmore
  obtain ⟨ht, hrun⟩ : t.Ordered ∧ t.running = false :=
    runs_invariant (P := fun s => s.Ordered ∧ s.running = false)
      (fun s l t hs hstep => ⟨hs.1.step hstep, (hs.1.rank_step hs.2 hstep).1⟩) ⟨hs, hstop⟩ hmore
  have hle : s.rank ≤ 14 := Nat.add_le_add (StartPc.rank_le _) (EnginePc.rank_le _)
  refine ⟨by omega, hrun, ?_⟩
  by_cases hstart : t.start = .returned
  · exact .inl hstart
  · exact .inr (ht.exists_step hstart)

/-- The block stops the session while the main thread is blocked, and twelve steps later the main
thread is back. -/
theorem returns_after_stop_sample : ∃ s t,
    runs (step sampleAgentEnv) (initial sampleAgentEnv [⟨[], 3, true⟩]) sampleDownload = some s ∧
      (s.start = .blocked ∧ s.running = false) ∧
      runs (step sampleAgentEnv) s sampleReturn = some t ∧
      (sampleReturn.countP fun l => !l.isCallback) ≤ 14 ∧ t.running = false ∧
      (t.start = .returned ∨ ∃ l, l.isCallback = false ∧ l ≠ .spurious ∧
        (t.step sampleAgentEnv l).isSome = true) := by
  obtain ⟨s, t, hs, ht, -, hblocked, -⟩ := sampleSchedule_runs
  exact ⟨s, t, hs, hblocked, ht, returns_after_stop hs hblocked.2 ht⟩

/-! ### What the session is stopped for -/

omit [DecidableEq Digest] in
/-- The main thread leaves the agents and the flags of the engine alone. -/
lemma stepStart_world (h : s.stepStart env = some t) :
    t.world = s.world ∧ t.running = s.running ∧ t.failed = s.failed := by
  unfold stepStart at h
  cases hpc : s.start <;> simp only [hpc] at h <;> (try split_ifs at h) <;> cases h <;>
    exact ⟨rfl, rfl, rfl⟩

omit [DecidableEq Digest] in
/-- Outside its calls the engine leaves the agents and its flags alone. -/
lemma stepEngine_world (h : s.stepEngine = some t) :
    t.world = s.world ∧ t.running = s.running ∧ t.failed = s.failed := by
  unfold stepEngine at h
  cases hpc : s.engine <;> simp only [hpc] at h <;> (try split_ifs at h) <;> cases h <;>
    exact ⟨rfl, rfl, rfl⟩

/-- Among the steps of the threads only the callbacks do something to the agents, and
`session::stop` is called by one that logs it and after a poll that failed. -/
lemma step_world {l : ThreadLabel} (h : s.step env l = some t) :
    t.world = run (World.step env) s.world (callbacks [l]) ∧
      (t.running = false ↔ s.running = false ∨ l = .polled true ∨
        s.world.shared.handler.log.count .stop < t.world.shared.handler.log.count .stop) ∧
      (t.failed = true ↔ s.failed = true ∨ l = .polled true) := by
  have hquiet : t.world = s.world → ¬ s.world.shared.handler.log.count .stop <
      t.world.shared.handler.log.count .stop := by
    intro hworld
    rw [hworld]
    exact Nat.lt_irrefl _
  cases l with
  | start =>
    obtain ⟨hworld, hrun, hfailed⟩ := stepStart_world h
    exact ⟨hworld, by simp [hrun, hquiet hworld], by simp [hfailed]⟩
  | engine =>
    obtain ⟨hworld, hrun, hfailed⟩ := stepEngine_world h
    exact ⟨hworld, by simp [hrun, hquiet hworld], by simp [hfailed]⟩
  | callback i l =>
    simp only [step, Option.ite_none_right_eq_some, Option.some.injEq] at h
    obtain ⟨-, rfl⟩ := h
    obtain ⟨world, rfl, ⟨heq, hcount⟩ | ⟨heq, hcount⟩⟩ := callback_eq env i l s
    · rw [heq]
      exact ⟨rfl, by simp [hcount], by simp⟩
    · rw [heq]
      exact ⟨rfl, iff_of_true rfl (.inr (.inr hcount)), by simp [stop]⟩
  | polled failed =>
    simp only [step, Option.ite_none_right_eq_some, Option.some.injEq] at h
    obtain ⟨-, rfl⟩ := h
    cases failed with
    | true => exact ⟨rfl, by simp [stop], by simp⟩
    | false => exact ⟨rfl, by simp, by simp⟩
  | spurious =>
    simp only [step, Option.ite_none_right_eq_some, Option.some.injEq] at h
    obtain ⟨-, rfl⟩ := h
    exact ⟨rfl, by simp, by simp⟩

/-- The session is no longer running if and only if a poll failed or the handler called
`session::stop`. -/
def StoppedForCause (s : Threads) : Prop :=
  s.running = false ↔ s.failed = true ∨ .stop ∈ s.world.shared.handler.log

/-- Every step keeps it so. -/
lemma StoppedForCause.step (hs : s.StoppedForCause) {l : ThreadLabel}
    (h : s.step env l = some t) : t.StoppedForCause := by
  obtain ⟨hworld, hrun, hfailed⟩ := step_world h
  unfold StoppedForCause at hs ⊢
  rw [hrun, hfailed, hs]
  cases hl : callbacks [l] with
  | nil =>
    rw [hl, run_nil] at hworld
    rw [hworld]
    simp only [Nat.lt_irrefl, or_false]
    exact or_right_comm
  | cons label labels =>
    obtain ⟨i, k, rfl⟩ : ∃ i k, l = .callback i k := by
      cases l with
      | callback i k => exact ⟨i, k, rfl⟩
      | _ => exact absurd hl (by simp [callbacks])
    have hlog : s.world.shared.handler.log <+: t.world.shared.handler.log := by
      rw [hworld]
      exact (Ctx.log_prefix_step env (s.world.ctx i) k).1
    obtain ⟨new, hnew⟩ := hlog
    rw [← hnew, List.count_append, List.mem_append, ← List.count_pos_iff (l := new)]
    simp only [reduceCtorEq, or_false, false_or, Nat.lt_add_right_iff_pos]
    exact or_assoc

/-- The agents in a state that the threads reach. -/
lemma world_runs {peers : List Peer} {labels : List ThreadLabel}
    (h : runs (step env) (initial env peers) labels = some s) :
    s.world = run (World.step env) (World.create env peers) (callbacks labels) := by
  have hworld := runs_simulates (fun l => callbacks [l]) world
    (fun s l t hstep => (step_world hstep).1) h
  have hout : (labels.flatMap fun l => callbacks [l]) = callbacks labels :=
    List.flatMap_congr fun l _ => by simp [callbacks]
  rw [hworld, hout]
  rfl

/-- In a state that the threads reach the session was stopped for a cause. -/
lemma stoppedForCause_runs {peers : List Peer} {labels : List ThreadLabel}
    (h : runs (step env) (initial env peers) labels = some s) : s.StoppedForCause := by
  refine runs_invariant (P := StoppedForCause) (fun _ _ _ hs hstep => hs.step hstep) ?_ h
  change true = false ↔ false = true ∨ .stop ∈ (World.create env peers).shared.handler.log
  rw [World.create_handler]
  simp [PieceHandler.create]

/-- The session runs until all pieces were found valid or a poll failed, and no longer. -/
theorem stopped_iff (hreg : Regular env.toEnv) {peers : List Peer} {labels : List ThreadLabel}
    (hnominal : ∀ d ∈ World.deliveries env (World.create env peers) (callbacks labels),
      Nominal env.toEnv d)
    (h : runs (step env) (initial env peers) labels = some s) :
    s.running = false ↔ s.failed = true ∨
      ∀ i < env.torrent.numPieces, .validated i ∈ s.world.shared.handler.log := by
  have ha := World.assembles_run hreg peers hnominal
  rw [← world_runs h] at ha
  have hall : .stop ∈ s.world.shared.handler.log ↔
      ∀ i < env.torrent.numPieces, .validated i ∈ s.world.shared.handler.log := by
    rw [ha.stop_iff]
    exact forall₂_congr fun i hi => (ha.validated_iff i hi).symm
  rw [← hall]
  exact stoppedForCause_runs h

/-- The session that downloads one byte is stopped for that byte. -/
theorem stopped_iff_sample : ∃ s,
    runs (step sampleAgentEnv) (initial sampleAgentEnv [⟨[], 3, true⟩]) sampleSchedule = some s ∧
      (s.running = false ↔ s.failed = true ∨ ∀ i < sampleAgentEnv.torrent.numPieces,
        .validated i ∈ s.world.shared.handler.log) := by
  obtain ⟨-, s, -, -, hs, -⟩ := sampleSchedule_runs
  exact ⟨s, hs, stopped_iff World.regular_sample nominal_sampleSchedule hs⟩

/-- If `session::start` returns and no poll failed, every byte of every file is the right one,
whatever the peers sent and in whatever order the threads took their steps. -/
theorem complete_of_returned {content : ℕ → UInt8} (hreg : Regular env.toEnv)
    (hauth : Authentic env.toEnv content) {peers : List Peer} {labels : List ThreadLabel}
    (hnominal : ∀ d ∈ World.deliveries env (World.create env peers) (callbacks labels),
      Nominal env.toEnv d)
    (h : runs (step env) (initial env peers) labels = some s) (hreturned : s.start = .returned)
    (hfailed : s.failed = false) :
    ∀ f < env.torrent.numFiles, ∀ o < env.torrent.fileSize f,
      s.world.shared.handler.disk.image f o = some (content (env.torrent.position f o)) := by
  intro f hf o ho
  have hstopped := (ordered_runs h).left (.inr hreturned)
  rcases (stoppedForCause_runs h).mp hstopped with hcase | hstop
  · rw [hfailed] at hcase
    exact Bool.noConfusion hcase
  · have ha := World.assembles_run hreg peers hnominal
    rw [← world_runs h] at ha
    have hlt := env.torrent.div_pieceLength_lt (PieceHandler.position_lt_totalSize hf ho)
    rw [ha.image_authentic hauth hf ho, if_pos (ha.stop_iff.mp hstop _ hlt)]

/-- The byte that was downloaded. -/
theorem complete_of_returned_sample : ∃ s,
    runs (step sampleAgentEnv) (initial sampleAgentEnv [⟨[], 3, true⟩]) sampleSchedule = some s ∧
      ∀ f < sampleAgentEnv.torrent.numFiles, ∀ o < sampleAgentEnv.torrent.fileSize f,
        s.world.shared.handler.disk.image f o = some 1 := by
  obtain ⟨-, s, -, -, hs, -, hreturned, hfailed, -⟩ := sampleSchedule_runs
  exact ⟨s, hs, complete_of_returned World.regular_sample World.authentic_sample
    nominal_sampleSchedule hs hreturned hfailed⟩

/-! ### The progress that is printed -/

/-- What was printed. -/
structure Prints (env : AgentEnv Digest) (s : Threads) : Prop where
  /-- The numbers do not fall. -/
  sorted : s.printed.Pairwise (· ≤ ·)
  /-- No number is larger than that of the pieces written by now. -/
  bound : ∀ n ∈ s.printed, n ≤ s.world.shared.handler.writtenPieces
  /-- Nothing is printed before the lock was taken. -/
  fresh : s.start = .lock → s.printed = []
  /-- When the session was stopped, the last number is the final one, or that is not due. -/
  last : s.running = false → s.start.settled = true →
    s.printed = [] ∨ s.printed.getLast? = some s.world.shared.handler.writtenPieces ∨
      ¬ s.ProgressDue env

/-- While the engine calls something the main thread neither prints nor is about to return. -/
lemma Ordered.settled_eq_false (hs : s.Ordered) (hengine : s.engine.holds = true) :
    s.start.settled = false := by
  cases hpc : s.start with
  | loop => simpa [hengine] using hs.exclusive (by rw [hpc]; rfl)
  | clear => simpa [hengine] using hs.exclusive (by rw [hpc]; rfl)
  | join => simpa [hengine] using hs.exclusive (by rw [hpc]; rfl)
  | returned =>
    rw [hs.joined hpc] at hengine
    exact Bool.noConfusion hengine
  | _ => rfl

omit [DecidableEq Digest] in
/-- Whether there is something to print depends on the pieces written and on what was printed. -/
lemma progressDue_congr (hworld : t.world = s.world) (hprinted : t.printed = s.printed) :
    t.ProgressDue env ↔ s.ProgressDue env := by
  unfold ProgressDue completed
  rw [hworld, hprinted]

omit [DecidableEq Digest] in
/-- A step of the main thread prints what there is. -/
lemma Prints.stepStart (hp : s.Prints env) (h : s.stepStart env = some t) : t.Prints env := by
  obtain ⟨hsorted, hbound, hfresh, hlast⟩ := hp
  unfold Threads.stepStart at h
  cases hpc : s.start with
  | print =>
    simp only [hpc, Option.some.injEq, printProgress] at h
    split_ifs at h with hdue
    · subst h
      refine ⟨?_, ?_, fun hlock => absurd hlock (by simp), fun _ _ => .inr (.inl ?_)⟩
      · rw [List.pairwise_append]
        refine ⟨hsorted, List.pairwise_singleton _ _, fun n hn m hm => ?_⟩
        rw [List.mem_singleton.mp hm]
        exact hbound n hn
      · intro n hn
        rcases List.mem_append.mp hn with hn | hn
        · exact hbound n hn
        · exact Nat.le_of_eq (List.mem_singleton.mp hn)
      · exact List.getLast?_concat
    · subst h
      exact ⟨hsorted, hbound, fun hlock => absurd hlock (by simp), fun _ _ => .inr (.inr hdue)⟩
  | _ =>
    simp only [hpc] at h
    (try split_ifs at h) <;> cases h <;> constructor <;>
      simp_all [StartPc.settled, ProgressDue, completed]

/-- Every step of the threads keeps to what was printed. -/
lemma Prints.step (hs : s.Ordered) (hp : s.Prints env) {l : ThreadLabel}
    (h : s.step env l = some t) : t.Prints env := by
  obtain ⟨hsorted, hbound, hfresh, hlast⟩ := hp
  cases l with
  | start => exact Prints.stepStart ⟨hsorted, hbound, hfresh, hlast⟩ h
  | engine =>
    obtain ⟨hworld, hrun, -⟩ := stepEngine_world h
    have hkeep : t.printed = s.printed ∧ (t.start = .lock → s.start = .lock) ∧
        (t.start.settled = true → s.start.settled = true) := by
      change s.stepEngine = some t at h
      unfold Threads.stepEngine at h
      cases hpc : s.engine <;> simp only [hpc] at h <;> (try split_ifs at h) <;> cases h <;>
        first | exact ⟨rfl, id, id⟩ | exact ⟨rfl, by simp, by simp [StartPc.settled]⟩
    obtain ⟨hprinted, hlock, hsettled⟩ := hkeep
    constructor
    · rwa [hprinted]
    · rwa [hprinted, hworld]
    · exact fun hpc => hprinted.trans (hfresh (hlock hpc))
    · intro hstop hset
      rw [progressDue_congr hworld hprinted, hprinted, hworld]
      exact hlast (hrun.symm.trans hstop) (hsettled hset)
  | callback i l =>
    simp only [Threads.step, Option.ite_none_right_eq_some, Option.some.injEq] at h
    obtain ⟨hcalls, rfl⟩ := h
    have hsettled := hs.settled_eq_false (EnginePc.holds_of_calls hcalls).1
    have hle := (Ctx.log_prefix_step env (s.world.ctx i) l).2
    obtain ⟨world, rfl, ⟨heq, -⟩ | ⟨heq, -⟩⟩ := callback_eq env i l s
    · rw [heq]
      exact ⟨hsorted, fun n hn => (hbound n hn).trans hle, hfresh,
        fun _ hset => absurd (hsettled.symm.trans hset) Bool.false_ne_true⟩
    · rw [heq]
      exact ⟨hsorted, fun n hn => (hbound n hn).trans hle, hfresh,
        fun _ hset => absurd (hsettled.symm.trans hset) Bool.false_ne_true⟩
  | polled failed =>
    simp only [Threads.step, Option.ite_none_right_eq_some, Option.some.injEq] at h
    obtain ⟨hpoll, rfl⟩ := h
    have hsettled := hs.settled_eq_false (by rw [hpoll]; rfl)
    cases failed with
    | true => exact ⟨hsorted, hbound, hfresh,
        fun _ hset => absurd (hsettled.symm.trans hset) Bool.false_ne_true⟩
    | false => exact ⟨hsorted, hbound, hfresh, hlast⟩
  | spurious =>
    simp only [Threads.step, Option.ite_none_right_eq_some, Option.some.injEq] at h
    obtain ⟨-, rfl⟩ := h
    exact ⟨hsorted, hbound, fun hlock => absurd hlock (by simp),
      fun _ hset => absurd hset (by simp [StartPc.settled])⟩

omit [DecidableEq Digest] in
/-- When all pieces are written, that is a hundred percent, as far as a `float` can say it. -/
lemma completed_eq (hpos : 0 < env.torrent.numPieces) (hlt : 100 * env.torrent.numPieces < 2 ^ 24)
    (hwritten : s.world.shared.handler.writtenPieces = env.torrent.numPieces) :
    s.completed env = 100 := by
  rw [completed, hwritten]
  exact Binary32.mul_div_cancel (by decide) hpos (by decide) (by omega) hlt

/-- With more pieces there may be something missing when all of them are written. -/
example : ¬ (100 : Float32) ≤ 100 * Nat.toFloat32 671089 / Nat.toFloat32 671089 := by
  decide +kernel

/-- The progress that is printed never falls.  When `session::start` is back, the last number that
was printed, if any was, is that of the pieces written in the whole session, unless these are less
than a hundred percent and no more percent than there are numbers printed; so if all pieces were
written it is their number. -/
theorem progress_printed {peers : List Peer} {labels : List ThreadLabel}
    (h : runs (step env) (initial env peers) labels = some s) :
    s.printed.Pairwise (· ≤ ·) ∧
      (∀ n ∈ s.printed, n ≤ s.world.shared.handler.writtenPieces) ∧
      (s.start = .returned → s.printed = [] ∨
        s.printed.getLast? = some s.world.shared.handler.writtenPieces ∨
        ¬ 100 ≤ s.completed env ∧ ¬ s.printed.length.toFloat32 < s.completed env) ∧
      (s.start = .returned → 0 < env.torrent.numPieces → 100 * env.torrent.numPieces < 2 ^ 24 →
        s.world.shared.handler.writtenPieces = env.torrent.numPieces →
        s.printed = [] ∨ s.printed.getLast? = some env.torrent.numPieces) := by
  have hstart : (initial env peers).Prints env :=
    ⟨.nil, fun n hn => absurd hn (by simp [initial]), fun _ => rfl, fun _ _ => .inl rfl⟩
  obtain ⟨hs, hp⟩ := runs_invariant (P := fun s => s.Ordered ∧ s.Prints env)
    (fun _ _ _ hs hstep => ⟨hs.1.step hstep, hs.2.step hs.1 hstep⟩)
    ⟨ordered_initial env peers, hstart⟩ h
  have hlast : s.start = .returned → s.printed = [] ∨
      s.printed.getLast? = some s.world.shared.handler.writtenPieces ∨
      ¬ 100 ≤ s.completed env ∧ ¬ s.printed.length.toFloat32 < s.completed env := by
    intro hreturned
    have hlast := hp.last (hs.left (.inr hreturned)) (by rw [hreturned]; rfl)
    rwa [ProgressDue, not_or] at hlast
  refine ⟨hp.sorted, hp.bound, hlast, fun hreturned hpos hlt hwritten => ?_⟩
  rcases hlast hreturned with hnil | hfinal | ⟨hless, -⟩
  · exact .inl hnil
  · exact .inr (hwritten ▸ hfinal)
  · rw [completed_eq hpos hlt hwritten] at hless
    exact absurd (by decide +kernel : (100 : Float32) ≤ 100) hless

/-- The progress that is printed while one byte is downloaded. -/
theorem progress_printed_sample : ∃ s,
    runs (step sampleAgentEnv) (initial sampleAgentEnv [⟨[], 3, true⟩]) sampleSchedule = some s ∧
      s.start = .returned ∧ s.printed = [1] ∧
      s.printed.Pairwise (· ≤ ·) ∧
      (∀ n ∈ s.printed, n ≤ s.world.shared.handler.writtenPieces) ∧
      (s.start = .returned → s.printed = [] ∨
        s.printed.getLast? = some s.world.shared.handler.writtenPieces ∨
        ¬ 100 ≤ s.completed sampleAgentEnv ∧
          ¬ s.printed.length.toFloat32 < s.completed sampleAgentEnv) ∧
      (s.start = .returned → 0 < sampleAgentEnv.torrent.numPieces →
        100 * sampleAgentEnv.torrent.numPieces < 2 ^ 24 →
        s.world.shared.handler.writtenPieces = sampleAgentEnv.torrent.numPieces →
        s.printed = [] ∨ s.printed.getLast? = some sampleAgentEnv.torrent.numPieces) := by
  obtain ⟨-, s, -, -, hs, -, hreturned, -, hprinted⟩ := sampleSchedule_runs
  exact ⟨s, hs, hreturned, hprinted, progress_printed hs⟩

end Threads

end Tent
