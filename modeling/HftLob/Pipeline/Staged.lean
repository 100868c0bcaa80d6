import HftLob.Pipeline.Poised
import HftLob.Pipeline.Shutdown

/-!
# Who moves, and how far `main` has come

A step of the process is a step of one of its threads, and the others stay where they are
(`ThreadMove`): what one thread needs to know of the rest is which steps can disturb it.
Only `main` registers, starts and stops; it goes through its stages in one direction, so its
stage alone says which consumers are registered, which threads have been started and which
have been told to stop (`Staged`).

Together with what every thread knows of its own calls this is `Store.Poised`, which every
step of the process keeps.
-/

namespace HftLob.Pipeline

open HftLob.Lib HftLob.Ring HftLob.Book HftLob.Engine

/-! ## Who moves -/

/-- The threads that read the ring. -/
inductive Follower where
  | matcher
  | wal
  | db
  deriving DecidableEq

def Follower.id : Follower → Nat
  | .matcher => matcherId
  | .wal => walId
  | .db => dbId

theorem Follower.id_ne {x y : Follower} (h : x ≠ y) : x.id ≠ y.id := by
  cases x <;> cases y <;> first | exact absurd rfl h | decide

/-- The threads of the process. -/
inductive Worker where
  | main
  | sequencer
  | follower (x : Follower)
  deriving DecidableEq

/-- Whose step it is; a poll that pushes or drains is not `main` coming to its next stage. -/
def StoreAction.worker : StoreAction → Option Worker
  | .main _ => some .main
  | .sequencer _ => some .sequencer
  | .matcher | .pushAck => some (.follower .matcher)
  | .wal _ _ => some (.follower .wal)
  | .db _ _ => some (.follower .db)
  | .push _ | .produce | .drainAcks _ => none

section ThreadMove

variable {cfg : Config} {n : Nat} {s s' : Store cfg}

def Process.thread (p : Process cfg) : Follower → ConsumerThread
  | .matcher => p.matcher
  | .wal => p.walThread
  | .db => p.dbThread

/-- A step that the poll loop makes at the queue of the gateway. -/
def Process.Accepts (a : SequencerAction) : Prop :=
  (∃ item, a = .push .gateway item) ∨ a = .produce .gateway

theorem Process.Accepts.ne {a : SequencerAction} (h : Process.Accepts a) (now : Nanos) :
    a ≠ .run now := by
  rcases h with ⟨item, rfl⟩ | rfl <;> nofun

/-- What a step does to the threads of the process. -/
inductive ThreadMove (s s' : Store cfg) (worker : Option Worker) : Prop where
  | main (started : Bool) (hworker : worker = some .main)
      (hstep : s.process.mainStep started = some s'.process)
  | sequencer (a : SequencerAction) (ha : a ≠ .register ∧ ∀ id, a ≠ .consume id ∧ a ≠ .read id)
      (hworker : (∃ now, a = .run now) ∧ worker = some .sequencer
        ∨ Process.Accepts a ∧ s.process.main = .polling ∧ worker = none)
      (hstep : s.process.sequencer.step cfg.capIn cfg.capOut cfg.maxConsumers a
        = some s'.process.sequencer)
      (hthreads : ∀ x, s'.process.thread x = s.process.thread x)
      (hmain : s'.process.main = s.process.main)
  | follower (x : Follower) (hworker : worker = some (.follower x)) (out : Outcome)
      (hstep : (s.process.thread x).step cfg.capIn cfg.capOut cfg.maxConsumers x.id
        s.process.sequencer = some (s'.process.thread x, s'.process.sequencer, out))
      (hthreads : ∀ y, y ≠ x → s'.process.thread y = s.process.thread y)
      (hmain : s'.process.main = s.process.main)
  | still (hprocess : s'.process = s.process)

theorem threadMove_onSinks {k : SinkAction} {fillsPc : FillsPc} {worker : Option Worker}
    (hs : s.onSinks k fillsPc = some s') : ThreadMove s s' worker := by
  obtain ⟨sinks, _, rfl⟩ := onSinks_eq_some hs
  exact .still rfl

theorem threadMove_onSequencer {a : SequencerAction} {worker : Option Worker} {p : Process cfg}
    (hs : s.process.onSequencer a s.process.main = some p)
    (ha : a ≠ .register ∧ ∀ id, a ≠ .consume id ∧ a ≠ .read id)
    (hworker : (∃ now, a = .run now) ∧ worker = some .sequencer
      ∨ Process.Accepts a ∧ s.process.main = .polling ∧ worker = none) :
    ThreadMove s { s with process := p } worker := by
  obtain ⟨seq, hseq, rfl⟩ := onSequencer_eq_some hs
  exact .sequencer a ha hworker hseq (fun x => by cases x <;> rfl) rfl

theorem threadMove_step {a : StoreAction} (hs : s.step n a = some s') :
    ThreadMove s s' a.worker := by
  have hquiet : ∀ {sa : SequencerAction}, ((∃ item, sa = .push .gateway item)
      ∨ sa = .produce .gateway ∨ ∃ now, sa = .run now) →
      sa ≠ .register ∧ ∀ id, sa ≠ .consume id ∧ sa ≠ .read id := by
    rintro sa (⟨item, rfl⟩ | rfl | ⟨now, rfl⟩) <;> exact ⟨nofun, fun _ => ⟨nofun, nofun⟩⟩
  cases a with
  | main started =>
      dsimp only [Store.step, Store.mainStep] at hs
      split at hs
      · exact absurd hs (by simp)
      · obtain ⟨p, hp, rfl⟩ := onProcess_eq_some hs
        exact .main started rfl hp
  | push item =>
      -- the gateway pushes from the poll loop, so only while `main` is in it
      obtain ⟨p, hp, rfl⟩ := onProcess_eq_some hs
      dsimp only [Process.step] at hp
      split at hp
      · rename_i hmain
        rw [← hmain] at hp
        exact threadMove_onSequencer hp (hquiet (Or.inl ⟨item, rfl⟩))
          (Or.inr ⟨Or.inl ⟨item, rfl⟩, hmain, rfl⟩)
      · exact absurd hp (by simp)
  | produce =>
      obtain ⟨p, hp, rfl⟩ := onProcess_eq_some hs
      dsimp only [Process.step] at hp
      split at hp
      · rename_i hmain
        rw [← hmain] at hp
        exact threadMove_onSequencer hp (hquiet (Or.inr (Or.inl rfl)))
          (Or.inr ⟨Or.inr rfl, hmain, rfl⟩)
      · exact absurd hp (by simp)
  | sequencer now =>
      obtain ⟨p, hp, rfl⟩ := onProcess_eq_some hs
      exact threadMove_onSequencer hp (hquiet (Or.inr (Or.inr ⟨now, rfl⟩)))
        (Or.inl ⟨⟨now, rfl⟩, rfl⟩)
  | wal pad elapsed =>
      obtain ⟨p, hp, rfl⟩ := onProcess_eq_some hs
      obtain ⟨⟨c, seq, out⟩, hc, rfl⟩ := Option.map_eq_some_iff.mp hp
      -- what comes of the step decides what is written, not where the thread is
      refine .follower .wal rfl out ?_ (fun y hy => ?_) ?_
      · cases out <;> exact hc
      · cases y <;> first | exact absurd rfl hy | (cases out <;> rfl)
      · cases out <;> rfl
  | matcher =>
      obtain ⟨_, _, c, seq, out, sinks, hc, rfl, _⟩ := matcherStep_eq_some hs
      refine .follower .matcher rfl out ?_ (fun y hy => ?_) ?_
      · cases out <;> exact hc
      · cases y <;> first | exact absurd rfl hy | (cases out <;> rfl)
      · cases out <;> rfl
  | pushAck => exact threadMove_onSinks hs
  | drainAcks call =>
      dsimp only [Store.step] at hs
      split at hs
      · exact threadMove_onSinks hs
      · exact absurd hs (by simp)
  | db due tsNs =>
      dsimp only [Store.step, Store.dbStep] at hs
      -- in its loop over `fills_` it does not touch the ring
      split at hs
      · exact .still (fillsStep_sinks hs).1
      · obtain ⟨⟨c, seq, out⟩, hc, rfl⟩ := Option.map_eq_some_iff.mp hs
        refine .follower .db rfl out hc (fun y hy => ?_) rfl
        cases y <;> first | exact absurd rfl hy | rfl

end ThreadMove

/-! ## How far `main` has come -/

/-- The stage after which the thread is started. -/
def Follower.starting : Follower → MainPc
  | .matcher => .startMatcher
  | .wal => .startWal
  | .db => .startDb

/-- The stage in which the thread has been told to stop, and is waited for. -/
def Follower.joining : Follower → MainPc
  | .matcher => .joinMatcher
  | .wal => .joinWal
  | .db => .joinDb

namespace Process

variable {cfg : Config} {p p' : Process cfg}

structure Staged (p : Process cfg) : Prop where
  registered : p.sequencer.output.consumerCount = min p.main.pos 3
  started : ∀ x : Follower, x.starting.pos < p.main.pos → (p.thread x).pc ≠ .ready
  sequencer : MainPc.startSequencer.pos < p.main.pos → p.sequencer.pc ≠ .ready
  stopped : MainPc.joinSequencer.pos ≤ p.main.pos → p.sequencer.running = false
  told : ∀ x : Follower, x.joining.pos ≤ p.main.pos → (p.thread x).running = false

theorem staged_init (cfg : Config) (buffers : ProducerId → Nat → SequencedEvent)
    (slots : Nat → SequencedEvent) : (Process.init cfg buffers slots).Staged where
  registered := rfl
  started := fun _ h => absurd h (Nat.not_lt_zero _)
  sequencer := fun h => absurd h (Nat.not_lt_zero _)
  stopped := fun h => absurd h (show ¬10 ≤ 0 by decide)
  told := fun x h => absurd (Nat.lt_of_lt_of_le (show 0 < x.joining.pos by cases x <;> decide) h)
    (Nat.lt_irrefl 0)

/-- Before `polling` nobody has been told to stop. -/
theorem Staged.early (hreg : p.sequencer.output.consumerCount = min p.main.pos 3)
    (hstarted : ∀ x : Follower, x.starting.pos < p.main.pos → (p.thread x).pc ≠ .ready)
    (hseq : MainPc.startSequencer.pos < p.main.pos → p.sequencer.pc ≠ .ready)
    (hearly : p.main.pos < MainPc.joinSequencer.pos) : p.Staged where
  registered := hreg
  started := hstarted
  sequencer := hseq
  stopped := fun h => absurd h (Nat.not_le_of_lt hearly)
  told := fun x h => absurd (Nat.le_trans (by cases x <;> decide) h) (Nat.not_le_of_lt hearly)

/-- `main` comes to a stage at which nobody new has been told to stop. -/
theorem Staged.goto (h : p.Staged) {main : MainPc} (hlate : MainPc.startServer.pos ≤ p.main.pos)
    (hlater : p.main.pos ≤ main.pos)
    (hseq : MainPc.joinSequencer.pos ≤ main.pos → MainPc.joinSequencer.pos ≤ p.main.pos)
    (htold : ∀ x : Follower, x.joining.pos ≤ main.pos → x.joining.pos ≤ p.main.pos) :
    Staged { p with main := main } := by
  have hreg := h.registered
  have hstarting : ∀ x : Follower, x.starting.pos < MainPc.startServer.pos := fun x => by
    cases x <;> decide
  have hserver : MainPc.startServer.pos = 7 := rfl
  -- everybody is registered and started by then
  refine ⟨?_, fun x _ => h.started x (Nat.lt_of_lt_of_le (hstarting x) hlate),
    fun _ => h.sequencer (Nat.lt_of_lt_of_le (by decide) hlate), fun hm => h.stopped (hseq hm),
    fun x hm => h.told x (htold x hm)⟩
  dsimp only
  omega

/-- `main` registers a consumer. -/
theorem Staged.register (h : p.Staged) {main : MainPc} (hpos : main.pos = p.main.pos + 1)
    (hearly : p.main.pos < 3) (hs : p.onSequencer .register main = some p') : p'.Staged := by
  obtain ⟨seq, hseq, rfl⟩ := onSequencer_eq_some hs
  have hreg := h.registered
  have hcount : seq.output.consumerCount = p.sequencer.output.consumerCount + 1 := by
    dsimp only [Sequencer.step] at hseq
    split at hseq
    · obtain ⟨r, hr, rfl⟩ := onOutput_eq_some hseq
      obtain ⟨t, ht, rfl⟩ := step_eq_some hr
      dsimp only [BroadcastRing.act, BroadcastRing.register] at ht
      split at ht
      · cases ht; rfl
      · exact absurd ht (by simp)
    · exact absurd hseq (by simp)
  -- three registrations come before the first thread is started
  have hstarting : ∀ x : Follower, 3 ≤ x.starting.pos := fun x => by cases x <;> decide
  refine .early ?_ (fun x hx => ?_) (fun hx => ?_) ?_
  · dsimp only
    omega
  · have := hstarting x
    dsimp only at hx
    omega
  · have hsix : MainPc.startSequencer.pos = 6 := rfl
    dsimp only at hx
    omega
  · have hten : MainPc.joinSequencer.pos = 10 := rfl
    dsimp only
    omega

/-- `main` starts a consumer. -/
theorem Staged.start (h : p.Staged) (x : Follower) (hmain : p.main = x.starting)
    (hpos : p'.main.pos = p.main.pos + 1) (hstart : (p.thread x).start = some (p'.thread x))
    (hthreads : ∀ y, y ≠ x → p'.thread y = p.thread y) (hseq : p'.sequencer = p.sequencer) :
    p'.Staged := by
  have hreg := h.registered
  have hthree : 3 ≤ p.main.pos ∧ p.main.pos < 6 := by rw [hmain]; cases x <;> decide
  refine .early ?_ (fun y hy => ?_) (fun hx => ?_) ?_
  · rw [hseq]
    omega
  · by_cases hyx : y = x
    · rw [hyx, (ConsumerThread.start_pc hstart).2.2]
      nofun
    · -- no two threads are started in one stage
      rw [hthreads y hyx]
      refine h.started y ?_
      have hne : y.starting.pos ≠ x.starting.pos := by
        cases x <;> cases y <;> first | exact absurd rfl hyx | decide
      rw [← hmain] at hne
      omega
  · have hsix : MainPc.startSequencer.pos = 6 := rfl
    omega
  · have hten : MainPc.joinSequencer.pos = 10 := rfl
    omega

/-- `main` tells a consumer to stop. -/
theorem Staged.stop (h : p.Staged) (x : Follower) (hmain : p'.main = x.joining)
    (hpos : p'.main.pos = p.main.pos + 1) (hstop : p'.thread x = (p.thread x).stop)
    (hthreads : ∀ y, y ≠ x → p'.thread y = p.thread y) (hseq : p'.sequencer = p.sequencer) :
    p'.Staged := by
  have hreg := h.registered
  have hlate : 11 ≤ p.main.pos := by
    have : 12 ≤ p'.main.pos := by rw [hmain]; cases x <;> decide
    omega
  have hstarting : ∀ y : Follower, y.starting.pos < 6 := fun y => by cases y <;> decide
  -- `stop` sets a flag and leaves the thread where it is
  have hthread : ∀ y, (p'.thread y).pc = (p.thread y).pc := by
    intro y
    by_cases hyx : y = x
    · rw [hyx, hstop]; rfl
    · rw [hthreads y hyx]
  refine ⟨by rw [hseq]; omega, fun y _ => ?_, fun _ => ?_, fun _ => ?_, fun y hy => ?_⟩
  · rw [hthread]
    exact h.started y (by have := hstarting y; omega)
  · rw [hseq]
    exact h.sequencer (Nat.lt_of_lt_of_le (by decide) hlate)
  · rw [hseq]
    exact h.stopped (Nat.le_trans (by decide) hlate)
  · by_cases hyx : y = x
    · rw [hyx, hstop]; rfl
    · rw [hthreads y hyx]
      refine h.told y ?_
      have hne : y.joining.pos ≠ x.joining.pos := by
        cases x <;> cases y <;> first | exact absurd rfl hyx | decide
      rw [← hmain] at hne
      omega

theorem Staged.mainStep (h : p.Staged) {started : Bool} (hs : p.mainStep started = some p') :
    p'.Staged := by
  unfold Process.mainStep at hs
  cases hm : p.main with
  | registerMatcher | registerWal | registerDb =>
      rw [hm] at hs
      exact h.register (by rw [hm]; rfl) (by rw [hm]; decide) hs
  | startWal =>
      rw [hm] at hs
      obtain ⟨c, hc, rfl⟩ := Option.map_eq_some_iff.mp hs
      exact h.start .wal hm (by rw [hm]; rfl) hc
        (fun y hy => by cases y <;> first | exact absurd rfl hy | rfl) rfl
  | startDb =>
      rw [hm] at hs
      obtain ⟨c, hc, rfl⟩ := Option.map_eq_some_iff.mp hs
      exact h.start .db hm (by rw [hm]; rfl) hc
        (fun y hy => by cases y <;> first | exact absurd rfl hy | rfl) rfl
  | startMatcher =>
      rw [hm] at hs
      obtain ⟨c, hc, rfl⟩ := Option.map_eq_some_iff.mp hs
      exact h.start .matcher hm (by rw [hm]; rfl) hc
        (fun y hy => by cases y <;> first | exact absurd rfl hy | rfl) rfl
  | startSequencer =>
      rw [hm] at hs
      obtain ⟨seq, hseq, rfl⟩ := onSequencer_eq_some hs
      have hreg := h.registered
      rw [hm] at hreg
      dsimp only [Sequencer.step] at hseq
      split at hseq
      · cases hseq
        refine .early hreg (fun x _ => h.started x ?_) (fun _ => nofun)
          (show 7 < 10 by decide)
        rw [hm]
        cases x <;> decide
      · exact absurd hseq (by simp)
  | startServer =>
      rw [hm] at hs
      cases hs
      -- a server that does not start skips the poll loop
      have hearly : (if started then MainPc.polling else .stopSequencer).pos < 10 := by
        cases started <;> decide
      have hjoining : ∀ x : Follower, 10 ≤ x.joining.pos := fun x => by cases x <;> decide
      have hlater : 7 ≤ (if started then MainPc.polling else .stopSequencer).pos := by
        cases started <;> decide
      exact h.goto (by rw [hm]) (by rw [hm]; exact hlater)
        (fun hc => absurd hc (Nat.not_le_of_lt hearly))
        fun x hx => absurd (Nat.le_trans (hjoining x) hx) (Nat.not_le_of_lt hearly)
  | polling =>
      rw [hm] at hs
      dsimp only at hs
      split at hs
      · cases hs
        exact h.goto (by rw [hm]; decide) (by rw [hm]; decide) (fun hc => absurd hc (by decide))
          fun x hx => absurd hx (by cases x <;> decide)
      · exact absurd hs (by simp)
  | stopSequencer =>
      rw [hm] at hs
      obtain ⟨seq, hseq, rfl⟩ := onSequencer_eq_some hs
      cases hseq
      have hreg := h.registered
      rw [hm] at hreg
      refine ⟨hreg, fun x _ => h.started x ?_, fun _ => h.sequencer (by rw [hm]; decide),
        fun _ => rfl, fun x hx => absurd hx (show ¬x.joining.pos ≤ 10 by cases x <;> decide)⟩
      rw [hm]
      cases x <;> decide
  | joinSequencer | joinMatcher | joinWal | joinDb =>
      -- a join tells nobody anything
      rw [hm] at hs
      obtain ⟨_, rfl⟩ := join_eq_some hs
      refine h.goto (by rw [hm]; decide) (by rw [hm]; decide) (fun _ => by rw [hm] <;> decide)
        fun x hx => ?_
      rw [hm]
      revert hx
      cases x <;> decide
  | stopMatcher =>
      rw [hm] at hs
      cases hs
      exact h.stop .matcher rfl (by rw [hm]; rfl) rfl
        (fun y hy => by cases y <;> first | exact absurd rfl hy | rfl) rfl
  | stopWal =>
      rw [hm] at hs
      cases hs
      exact h.stop .wal rfl (by rw [hm]; rfl) rfl
        (fun y hy => by cases y <;> first | exact absurd rfl hy | rfl) rfl
  | stopDb =>
      rw [hm] at hs
      cases hs
      exact h.stop .db rfl (by rw [hm]; rfl) rfl
        (fun y hy => by cases y <;> first | exact absurd rfl hy | rfl) rfl
  | done => rw [hm] at hs; exact absurd hs (by simp)

theorem Staged.threadMove {s s' : Store cfg} {worker : Option Worker} (h : s.process.Staged)
    (hmove : ThreadMove s s' worker) : s'.process.Staged := by
  cases hmove with
  | main started _ hstep => exact h.mainStep hstep
  | sequencer a ha _ hstep hthreads hmain =>
      have hcount := (Sequencer.step_registered hstep).resolve_right fun hr => ha.1 hr.1
      refine ⟨by rw [hmain, hcount]; exact h.registered,
        fun x hx => by rw [hthreads]; exact h.started x (by rwa [hmain] at hx), fun hx => ?_,
        fun hx => ?_, fun x hx => by rw [hthreads]; exact h.told x (by rwa [hmain] at hx)⟩
      all_goals rw [hmain] at hx
      · exact (Sequencer.step_started hstep (h.sequencer hx)).1
      · -- the flag is not set again once the thread runs
        have hpc := h.sequencer (Nat.lt_of_lt_of_le (by decide) hx)
        exact (Sequencer.step_started hstep hpc).2 (h.stopped hx)
  | follower x _ out hstep hthreads hmain =>
      obtain ⟨hrunning, hpc, _⟩ := ConsumerThread.step_sequencer_frame hstep
      -- a follower reads the ring and registers nobody
      have hcount : s'.process.sequencer.output.consumerCount
          = s.process.sequencer.output.consumerCount := by
        rcases ConsumerThread.step_sequencer hstep with he | ⟨a, ha, hread⟩
        · rw [he]
        · refine (Sequencer.step_registered ha).resolve_right fun hr => ?_
          rcases hread with rfl | rfl <;> exact nomatch hr.1
      refine ⟨by rw [hmain, hcount]; exact h.registered, fun y hy => ?_,
        fun hx => by rw [hpc]; exact h.sequencer (by rwa [hmain] at hx),
        fun hx => by rw [hrunning]; exact h.stopped (by rwa [hmain] at hx), fun y hy => ?_⟩
      all_goals rw [hmain] at hy
      · by_cases hyx : y = x
        · rw [hyx]
          exact ConsumerThread.step_ne_ready hstep
        · rw [hthreads y hyx]
          exact h.started y hy
      · by_cases hyx : y = x
        · rw [hyx, (ConsumerThread.step_goes hstep).1, ← hyx]
          exact h.told y hy
        · rw [hthreads y hyx]
          exact h.told y hy
  | still hprocess => rw [hprocess]; exact h

/-! ## What `main` does to the threads -/

/-- A step that `main` makes on behalf of the sequencer. -/
def Governs (a : SequencerAction) : Prop := a = .register ∨ a = .start ∨ a = .stop

theorem Governs.ne {a : SequencerAction} (h : Governs a) :
    (∀ now, a ≠ .run now) ∧ ∀ id, a ≠ .consume id ∧ a ≠ .read id := by
  rcases h with rfl | rfl | rfl <;> exact ⟨nofun, fun _ => ⟨nofun, nofun⟩⟩

theorem mainStep_sequencer {started : Bool} (hs : p.mainStep started = some p') :
    p'.sequencer = p.sequencer ∨ ∃ a, Governs a
      ∧ p.sequencer.step cfg.capIn cfg.capOut cfg.maxConsumers a = some p'.sequencer := by
  have honSequencer : ∀ {a : SequencerAction} {main : MainPc},
      p.onSequencer a main = some p' → Governs a → ∃ a, Governs a
        ∧ p.sequencer.step cfg.capIn cfg.capOut cfg.maxConsumers a = some p'.sequencer := by
    intro a main hs hgoverns
    obtain ⟨seq, hseq, rfl⟩ := onSequencer_eq_some hs
    exact ⟨a, hgoverns, hseq⟩
  unfold Process.mainStep at hs
  cases hm : p.main with
  | registerMatcher | registerWal | registerDb =>
      rw [hm] at hs
      exact Or.inr (honSequencer hs (Or.inl rfl))
  | startSequencer =>
      rw [hm] at hs
      exact Or.inr (honSequencer hs (Or.inr (Or.inl rfl)))
  | stopSequencer =>
      rw [hm] at hs
      exact Or.inr (honSequencer hs (Or.inr (Or.inr rfl)))
  | startWal | startDb | startMatcher =>
      rw [hm] at hs
      obtain ⟨c, _, rfl⟩ := Option.map_eq_some_iff.mp hs
      exact Or.inl rfl
  | startServer | stopMatcher | stopWal | stopDb =>
      rw [hm] at hs
      cases hs
      exact Or.inl rfl
  | polling =>
      rw [hm] at hs
      dsimp only at hs
      split at hs
      · cases hs; exact Or.inl rfl
      · exact absurd hs (by simp)
  | joinSequencer | joinMatcher | joinWal | joinDb =>
      rw [hm] at hs
      obtain ⟨_, rfl⟩ := join_eq_some hs
      exact Or.inl rfl
  | done => rw [hm] at hs; exact absurd hs (by simp)

theorem mainStep_thread {started : Bool} (hs : p.mainStep started = some p') (x : Follower) :
    (p'.thread x).pc = (p.thread x).pc
      ∨ p.main = x.starting ∧ (p.thread x).start = some (p'.thread x) := by
  unfold Process.mainStep at hs
  cases hm : p.main with
  | registerMatcher | registerWal | registerDb | startSequencer | stopSequencer =>
      rw [hm] at hs
      obtain ⟨seq, _, rfl⟩ := onSequencer_eq_some hs
      exact Or.inl (by cases x <;> rfl)
  | startWal =>
      rw [hm] at hs
      obtain ⟨c, hc, rfl⟩ := Option.map_eq_some_iff.mp hs
      cases x with
      | wal => exact Or.inr ⟨rfl, hc⟩
      | _ => exact Or.inl rfl
  | startDb =>
      rw [hm] at hs
      obtain ⟨c, hc, rfl⟩ := Option.map_eq_some_iff.mp hs
      cases x with
      | db => exact Or.inr ⟨rfl, hc⟩
      | _ => exact Or.inl rfl
  | startMatcher =>
      rw [hm] at hs
      obtain ⟨c, hc, rfl⟩ := Option.map_eq_some_iff.mp hs
      cases x with
      | matcher => exact Or.inr ⟨rfl, hc⟩
      | _ => exact Or.inl rfl
  | startServer | stopMatcher | stopWal | stopDb =>
      rw [hm] at hs
      cases hs
      exact Or.inl (by cases x <;> rfl)
  | polling =>
      rw [hm] at hs
      dsimp only at hs
      split at hs
      · cases hs; exact Or.inl (by cases x <;> rfl)
      · exact absurd hs (by simp)
  | joinSequencer | joinMatcher | joinWal | joinDb =>
      rw [hm] at hs
      obtain ⟨_, rfl⟩ := join_eq_some hs
      exact Or.inl (by cases x <;> rfl)
  | done => rw [hm] at hs; exact absurd hs (by simp)

/-- `main` does not go back. -/
theorem mainStep_pos {started : Bool} (hs : p.mainStep started = some p') :
    p.main.pos < p'.main.pos := by
  unfold Process.mainStep at hs
  cases hm : p.main with
  | registerMatcher | registerWal | registerDb | startSequencer | stopSequencer =>
      rw [hm] at hs
      obtain ⟨seq, _, rfl⟩ := onSequencer_eq_some hs
      exact Nat.lt_succ_self _
  | startWal | startDb | startMatcher =>
      rw [hm] at hs
      obtain ⟨c, _, rfl⟩ := Option.map_eq_some_iff.mp hs
      exact Nat.lt_succ_self _
  | startServer =>
      rw [hm] at hs
      cases hs
      cases started with
      | true => exact Nat.lt_succ_self 7
      | false => exact Nat.lt_succ_of_lt (Nat.lt_succ_self 7)
  | polling =>
      rw [hm] at hs
      dsimp only at hs
      split at hs
      · cases hs; exact Nat.lt_succ_self _
      · exact absurd hs (by simp)
  | stopMatcher | stopWal | stopDb =>
      rw [hm] at hs
      cases hs
      exact Nat.lt_succ_self _
  | joinSequencer | joinMatcher | joinWal | joinDb =>
      rw [hm] at hs
      obtain ⟨_, rfl⟩ := join_eq_some hs
      exact Nat.lt_succ_self _
  | done => rw [hm] at hs; exact absurd hs (by simp)

end Process

theorem ThreadMove.pos {cfg : Config} {s s' : Store cfg} {worker : Option Worker}
    (h : ThreadMove s s' worker) : s.process.main.pos ≤ s'.process.main.pos := by
  cases h with
  | main started _ hstep => exact Nat.le_of_lt (Process.mainStep_pos hstep)
  | sequencer a _ _ _ _ hmain => rw [hmain]
  | follower x _ out _ _ hmain => rw [hmain]
  | still hprocess => rw [hprocess]

/-! ## Who is at the matcher's queues -/

section Sinks

variable {cfg : Config} {n : Nat} {s s' : Store cfg}

/-- The matcher's part of its two queues. -/
structure PushSame {cap : PoolCapacity} (k k' : Sinks cap) : Prop where
  phase : k'.phase = k.phase
  rest : k'.rest = k.rest
  acks : k'.acks.producer = k.acks.producer
  fills : k'.fills.producer = k.fills.producer
  pushed : k'.fills.pushed = k.fills.pushed

theorem PushSame.refl {cap : PoolCapacity} (k : Sinks cap) : PushSame k k :=
  ⟨rfl, rfl, rfl, rfl, rfl⟩

theorem pushSame_drain {cap : PoolCapacity} {k k' : Sinks cap} {a : SinkAction} {call : Bool}
    (ha : a = .drainAcks call ∨ a = .drainFills call) (hk : k.step a = some k') :
    PushSame k k' := by
  rcases ha with rfl | rfl
  · obtain ⟨acks, hacks, rfl⟩ := Option.map_eq_some_iff.mp hk
    exact ⟨rfl, rfl, (drain_spec hacks).2, rfl, rfl⟩
  · obtain ⟨fills, hfills, rfl⟩ := Option.map_eq_some_iff.mp hk
    exact ⟨rfl, rfl, rfl, (drain_spec hfills).2, (drain_spec hfills).1⟩

/-- The database's step in its loop over `fills_`. -/
theorem pushSame_fillsStep {due : Bool} {tsNs : UInt64} (hs : s.fillsStep n due tsNs = some s') :
    PushSame s.sinks s'.sinks := by
  have hdrain : ∀ {call : Bool} {fillsPc : FillsPc},
      s.onSinks (.drainFills call) fillsPc = some s' → PushSame s.sinks s'.sinks := by
    intro call fillsPc hs
    obtain ⟨sinks, hk, rfl⟩ := onSinks_eq_some hs
    exact pushSame_drain (Or.inr rfl) hk
  unfold Store.fillsStep at hs
  split at hs
  · exact hdrain hs
  · split at hs
    · exact hdrain hs
    all_goals
      cases hs
      exact .refl _
  · exact absurd hs (by simp)

/-- Only the matcher pushes. -/
theorem pushSame_step {a : StoreAction} (hs : s.step n a = some s')
    (hne : a.worker ≠ some (.follower .matcher)) : PushSame s.sinks s'.sinks := by
  have honProcess : ∀ {b : ProcessAction}, s.onProcess b = some s' → PushSame s.sinks s'.sinks := by
    intro b hb
    obtain ⟨p, _, rfl⟩ := onProcess_eq_some hb
    exact .refl _
  cases a with
  | main started =>
      dsimp only [Store.step, Store.mainStep] at hs
      split at hs
      · exact absurd hs (by simp)
      · exact honProcess hs
  | push item => exact honProcess hs
  | produce => exact honProcess hs
  | sequencer now => exact honProcess hs
  | wal pad elapsed => exact honProcess hs
  | matcher => exact absurd rfl hne
  | pushAck => exact absurd rfl hne
  | drainAcks call =>
      dsimp only [Store.step] at hs
      split at hs
      · obtain ⟨sinks, hk, rfl⟩ := onSinks_eq_some hs
        exact pushSame_drain (Or.inl rfl) hk
      · exact absurd hs (by simp)
  | db due tsNs =>
      dsimp only [Store.step, Store.dbStep] at hs
      split at hs
      · exact pushSame_fillsStep hs
      · obtain ⟨⟨c, seq, out⟩, _, rfl⟩ := Option.map_eq_some_iff.mp hs
        exact .refl _

/-- The database's part of `fills_`. -/
structure PopSame (s s' : Store cfg) : Prop where
  loop : s'.fillsPc = s.fillsPc
  consumer : s'.sinks.fills.consumer = s.sinks.fills.consumer
  popped : s'.sinks.fills.popped = s.sinks.fills.popped

theorem PopSame.of_fills (hloop : s'.fillsPc = s.fillsPc)
    (hfills : s'.sinks.fills = s.sinks.fills) : PopSame s s' :=
  ⟨hloop, by rw [hfills], by rw [hfills]⟩

theorem pushAck_consumer {cap : PoolCapacity} {k k' : Sinks cap} (hk : k.pushAck = some k') :
    k'.fills.consumer = k.fills.consumer ∧ k'.fills.popped = k.fills.popped := by
  have hspec : ∀ {a : SpscAction OutboundAck} {fills : SpscRingBuffer OutboundAck},
      (a = .produce ∨ ∃ item, a = .push item) → k.fills.step ackQueue a = some fills →
        fills.consumer = k.fills.consumer ∧ fills.popped = k.fills.popped :=
    fun ha hq => ⟨(producer_spec ha hq).2.1, (producer_spec ha hq).1⟩
  unfold Sinks.pushAck at hk
  -- before the call, at the client's queue, and at `fills_`, which only the last two touch
  split at hk
  · split at hk
    · exact absurd hk (by simp)
    · obtain ⟨acks, _, rfl⟩ := Option.map_eq_some_iff.mp hk
      exact ⟨rfl, rfl⟩
  · split at hk
    · obtain ⟨fills, hstart, rfl⟩ := Option.map_eq_some_iff.mp hk
      exact hspec (Or.inr ⟨_, rfl⟩) hstart
    · split at hk
      · cases hk; exact ⟨rfl, rfl⟩
      · obtain ⟨acks, _, rfl⟩ := Option.map_eq_some_iff.mp hk
        exact ⟨rfl, rfl⟩
    all_goals
      obtain ⟨acks, _, rfl⟩ := Option.map_eq_some_iff.mp hk
      exact ⟨rfl, rfl⟩
  · split at hk
    · cases hk; exact ⟨rfl, rfl⟩
    · cases hk; exact ⟨rfl, rfl⟩
    all_goals
      obtain ⟨fills, hproduce, rfl⟩ := Option.map_eq_some_iff.mp hk
      exact hspec (Or.inl rfl) hproduce

/-- Only the database pops from `fills_`. -/
theorem popSame_step {a : StoreAction} (hs : s.step n a = some s')
    (hne : a.worker ≠ some (.follower .db)) : PopSame s s' := by
  have honProcess : ∀ {b : ProcessAction}, s.onProcess b = some s' → PopSame s s' := by
    intro b hb
    obtain ⟨p, _, rfl⟩ := onProcess_eq_some hb
    exact .of_fills rfl rfl
  cases a with
  | main started =>
      dsimp only [Store.step, Store.mainStep] at hs
      split at hs
      · exact absurd hs (by simp)
      · exact honProcess hs
  | push item => exact honProcess hs
  | produce => exact honProcess hs
  | sequencer now => exact honProcess hs
  | wal pad elapsed => exact honProcess hs
  | matcher =>
      obtain ⟨_, _, c, seq, out, sinks, _, rfl, ⟨ev, _, hk⟩ | ⟨_, rfl⟩⟩ := matcherStep_eq_some hs
      · exact .of_fills rfl (applyStep_spec hk).2.2.2
      · exact .of_fills rfl rfl
  | pushAck =>
      obtain ⟨sinks, hk, rfl⟩ := onSinks_eq_some hs
      obtain ⟨hconsumer, hpopped⟩ := pushAck_consumer hk
      exact ⟨rfl, hconsumer, hpopped⟩
  | drainAcks call =>
      dsimp only [Store.step] at hs
      split at hs
      · obtain ⟨sinks, hk, rfl⟩ := onSinks_eq_some hs
        obtain ⟨acks, _, rfl⟩ := Option.map_eq_some_iff.mp hk
        exact .of_fills rfl rfl
      · exact absurd hs (by simp)
  | db due tsNs => exact absurd rfl hne

theorem sinksStep {a : StoreAction} (hs : s.step n a = some s') :
    s'.sinks = s.sinks ∨ ∃ k, s.sinks.step k = some s'.sinks := by
  have honProcess : ∀ {b : ProcessAction}, s.onProcess b = some s' → s'.sinks = s.sinks := by
    intro b hb
    obtain ⟨p, _, rfl⟩ := onProcess_eq_some hb
    rfl
  cases a with
  | main started =>
      dsimp only [Store.step, Store.mainStep] at hs
      split at hs
      · exact absurd hs (by simp)
      · exact Or.inl (honProcess hs)
  | push item => exact Or.inl (honProcess hs)
  | produce => exact Or.inl (honProcess hs)
  | sequencer now => exact Or.inl (honProcess hs)
  | wal pad elapsed => exact Or.inl (honProcess hs)
  | matcher =>
      obtain ⟨_, _, c, seq, out, sinks, _, rfl, ⟨ev, _, hk⟩ | ⟨_, rfl⟩⟩ := matcherStep_eq_some hs
      · exact Or.inr ⟨_, hk⟩
      · exact Or.inl rfl
  | pushAck =>
      obtain ⟨sinks, hk, rfl⟩ := onSinks_eq_some hs
      exact Or.inr ⟨_, hk⟩
  | drainAcks call =>
      dsimp only [Store.step] at hs
      split at hs
      · obtain ⟨sinks, hk, rfl⟩ := onSinks_eq_some hs
        exact Or.inr ⟨_, hk⟩
      · exact absurd hs (by simp)
  | db due tsNs =>
      dsimp only [Store.step, Store.dbStep] at hs
      split at hs
      · exact (fillsStep_sinks hs).2
      · obtain ⟨⟨c, seq, out⟩, _, rfl⟩ := Option.map_eq_some_iff.mp hs
        exact Or.inl rfl

end Sinks

/-! ## Whole runs -/

namespace Store

variable {cfg : Config} {n : Nat} {s s' : Store cfg} {file : Database}

structure Poised (s : Store cfg) : Prop where
  staged : s.process.Staged
  sequencer : s.process.sequencer.Poised
  threads : ∀ x : Follower,
    ConsumerThread.Poised x.id (s.process.thread x) s.process.sequencer
  sinks : s.sinks.Poised
  popping : ∀ i, s.fillsPc = .popping i → s.sinks.fills.consumer ≠ .idle
  atRest : (∀ i, s.fillsPc ≠ .popping i) → s.sinks.fills.consumer.AtRest

theorem poised_init (cfg : Config) (buffers : ProducerId → Nat → SequencedEvent)
    (slots : Nat → SequencedEvent) (acksBuffer fillsBuffer : Nat → OutboundAck)
    (file : Database) : (Store.init cfg buffers slots acksBuffer fillsBuffer file).Poised where
  staged := Process.staged_init cfg buffers slots
  sequencer := Sequencer.poised_init buffers slots
  threads := fun x => by cases x <;> exact ConsumerThread.poised_init _ buffers slots
  sinks := Sinks.poised_init cfg.pool acksBuffer fillsBuffer
  popping := nofun
  atRest := fun _ => trivial

theorem poised_thread_of_pc {id : Nat} {c c' : ConsumerThread} {q : Sequencer}
    (h : ConsumerThread.Poised id c q) (hpc : c'.pc = c.pc) : ConsumerThread.Poised id c' q :=
  ⟨by rw [hpc]; exact h.atRest, by rw [hpc]; exact h.consuming, by rw [hpc]; exact h.registered⟩

theorem Poised.sequencer_move (h : s.Poised) {worker : Option Worker}
    (hmove : ThreadMove s s' worker) : s'.process.sequencer.Poised := by
  cases hmove with
  | main started _ hstep =>
      rcases Process.mainStep_sequencer hstep with he | ⟨a, _, ha⟩
      · rw [he]; exact h.sequencer
      · exact h.sequencer.step ha
  | sequencer a _ _ hstep _ _ => exact h.sequencer.step hstep
  | follower x _ out hstep _ _ =>
      rcases ConsumerThread.step_sequencer hstep with he | ⟨a, ha, _⟩
      · rw [he]; exact h.sequencer
      · exact h.sequencer.step ha
  | still hprocess => rw [hprocess]; exact h.sequencer

theorem Poised.thread_move (h : s.Poised) {worker : Option Worker}
    (hmove : ThreadMove s s' worker) (x : Follower) :
    ConsumerThread.Poised x.id (s'.process.thread x) s'.process.sequencer := by
  have hx := h.threads x
  cases hmove with
  | main started _ hstep =>
      have hquiet : Quiet cfg.capIn cfg.capOut cfg.maxConsumers x.id s.process.sequencer
          s'.process.sequencer := by
        rcases Process.mainStep_sequencer hstep with he | ⟨a, hgoverns, ha⟩
        · exact Or.inl he
        · exact Or.inr ⟨a, ha, hgoverns.ne.2 x.id⟩
      rcases Process.mainStep_thread hstep x with hpc | ⟨hmain, hstart⟩
      · exact poised_thread_of_pc (hx.frame hquiet) hpc
      · -- a thread is started when all three are registered
        refine (hx.start hstart ?_).frame hquiet
        rw [h.staged.registered, hmain]
        cases x <;> decide
  | sequencer a ha _ hstep hthreads _ =>
      rw [hthreads]
      exact hx.frame (Or.inr ⟨a, hstep, ha.2 x.id⟩)
  | follower y _ out hstep hthreads _ =>
      by_cases hxy : x = y
      · rw [hxy] at hx ⊢
        exact hx.step hstep
      · rw [hthreads x hxy]
        exact hx.frame (ConsumerThread.step_quiet hstep (Follower.id_ne hxy))
  | still hprocess => rw [hprocess]; exact hx

/-- The thread of the database at the ring is not in a `pop` of `fills_`. -/
theorem poised_loop (h : DbInv file s) (hat : ¬s.AtFills) : ∀ i, s.fillsPc ≠ .popping i := by
  intro i hi
  refine hat ⟨?_, by rw [hi]; nofun⟩
  by_contra hpc
  rw [not_or] at hpc
  exact nomatch hi.symm.trans (h.loop hpc.1 hpc.2)

theorem poised_fillsStep {due : Bool} {tsNs : UInt64}
    (hs : s.fillsStep n due tsNs = some s') :
    (∀ i, s'.fillsPc = .popping i → s'.sinks.fills.consumer ≠ .idle)
      ∧ ((∀ i, s'.fillsPc ≠ .popping i) → s'.sinks.fills.consumer.AtRest) := by
  unfold Store.fillsStep at hs
  split at hs
  · rename_i i _
    obtain ⟨sinks, hk, rfl⟩ := onSinks_eq_some hs
    obtain ⟨fills, hfills, rfl⟩ := drainFills_eq_some hk
    exact ⟨fun _ _ => pop_not_idle hfills, fun hne => absurd rfl (hne i)⟩
  · rename_i i hloop
    split at hs
    · obtain ⟨sinks, hk, rfl⟩ := onSinks_eq_some hs
      obtain ⟨fills, hfills, rfl⟩ := drainFills_eq_some hk
      exact ⟨fun _ _ => consume_not_idle hfills, fun hne => absurd rfl (hne i)⟩
    · rename_i hres
      cases hs
      exact ⟨nofun, fun _ => Consumer.atRest_of_result hres⟩
    · -- a row is appended, and the loop looks at its bound
      rename_i ack hres
      cases hs
      refine ⟨fun j hj => ?_, fun _ => Consumer.atRest_of_result hres⟩
      unfold Store.nextFill at hj
      dsimp only at hj
      split at hj <;> exact nomatch hj
  · exact absurd hs (by simp)

theorem Poised.step (h : s.Poised) (hinv : StoreInv file s) {a : StoreAction}
    (hs : s.step n a = some s') : s'.Poised := by
  have hmove := threadMove_step hs
  have hsinks : s'.sinks.Poised := by
    rcases sinksStep hs with he | ⟨k, hk⟩
    · rw [he]; exact h.sinks
    · exact h.sinks.step hk
  have hfills : (∀ i, s'.fillsPc = .popping i → s'.sinks.fills.consumer ≠ .idle)
      ∧ ((∀ i, s'.fillsPc ≠ .popping i) → s'.sinks.fills.consumer.AtRest) := by
    by_cases hdb : a.worker = some (.follower .db)
    · cases a with
      | db due tsNs =>
          dsimp only [Store.step, Store.dbStep] at hs
          split at hs
          · exact poised_fillsStep hs
          · -- at the ring: the last `pop` of `fills_` is over
            rename_i hat
            have hrest := h.atRest (poised_loop hinv.db hat)
            obtain ⟨⟨c, seq, out⟩, _, rfl⟩ := Option.map_eq_some_iff.mp hs
            exact ⟨nofun, fun _ => hrest⟩
      | _ => exact nomatch hdb
    · have hpop := popSame_step hs hdb
      rw [hpop.loop, hpop.consumer]
      exact ⟨h.popping, h.atRest⟩
  exact ⟨h.staged.threadMove hmove, h.sequencer_move hmove, h.thread_move hmove, hsinks,
    hfills.1, hfills.2⟩

end Store

end HftLob.Pipeline
