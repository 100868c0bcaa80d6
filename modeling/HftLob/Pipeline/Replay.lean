import HftLob.Pipeline.Process

/-!
# The log replays to the live engine

The matcher and the log read the same stream at their own pace. `ProcessInv` ties each
to the part of the stream it has dealt with: the engine is what that part makes of a
fresh one, the bytes written are the records of that part. The shutdown makes the two
parts the whole stream, since each drain starts after the sequencer has been joined.
-/

namespace HftLob.Pipeline

open HftLob.Lib HftLob.Ring HftLob.Book HftLob.Engine

variable {cfg : Config} {s s' : Process cfg}

/-- What the main thread knows of the threads it has joined. -/
structure Joined (s : Process cfg) : Prop where
  sequencer : MainPc.stopMatcher.pos ≤ s.main.pos → s.sequencer.pc = .returned
  matcher : MainPc.stopWal.pos ≤ s.main.pos → s.matcher.pc = .returned
  wal : MainPc.stopDb.pos ≤ s.main.pos → s.walThread.pc = .returned

/-- Before the sequencer is joined there is nothing to know. -/
theorem Joined.early (h : s.main.pos < MainPc.stopMatcher.pos) : Joined s where
  sequencer := fun hle => absurd hle (Nat.not_le_of_lt h)
  matcher := fun hle => absurd (Nat.le_trans (by decide) hle) (Nat.not_le_of_lt h)
  wal := fun hle => absurd (Nat.le_trans (by decide) hle) (Nat.not_le_of_lt h)

/-- The file is open while the thread runs, and holds everything when it has returned. -/
def FileOk (s : Process cfg) : Prop :=
  match s.walThread.pc with
  | .ready => True
  | .returned => s.wal.buffered = []
  | .test | .call _ | .consuming _ | .batchEnd | .drained => s.wal.isOpen

structure ProcessInv (s : Process cfg) : Prop where
  sequencer : SequencerInv cfg.capIn cfg.capOut s.sequencer
  matcher : ∃ handled, ThreadInv matcherId s.matcher s.sequencer handled
    ∧ (MatchingEngineConsumer.init cfg.pool).replay handled = (s.engine, s.acks)
  wal : ∃ handled, ThreadInv walId s.walThread s.sequencer handled
    ∧ IsLog handled s.wal.written
  file : FileOk s
  joined : Joined s

theorem processInv_init (cfg : Config) (buffers : ProducerId → Nat → SequencedEvent)
    (slots : Nat → SequencedEvent) : ProcessInv (Process.init cfg buffers slots) where
  sequencer := sequencerInv_init buffers slots
  matcher := ⟨[], threadInv_init _ buffers slots, rfl⟩
  wal := ⟨[], threadInv_init _ buffers slots, isLog_nil⟩
  file := trivial
  joined := .early (show 0 < 11 by omega)

/-! ## Who moves -/

theorem onSequencer_eq_some {a : SequencerAction} {main : MainPc}
    (hs : s.onSequencer a main = some s') :
    ∃ seq, s.sequencer.step cfg.capIn cfg.capOut cfg.maxConsumers a = some seq
      ∧ s' = { s with sequencer := seq, main := main } := by
  obtain ⟨seq, hseq, he⟩ := Option.map_eq_some_iff.mp hs
  exact ⟨seq, hseq, he.symm⟩

/-- A step of neither the matcher nor the log. -/
theorem ProcessInv.frame (h : ProcessInv s)
    (hinv : SequencerInv cfg.capIn cfg.capOut s'.sequencer)
    (hmatcher : s'.matcher = s.matcher ∧ s'.engine = s.engine ∧ s'.acks = s.acks)
    (hwal : s'.walThread = s.walThread ∧ s'.wal = s.wal)
    (hq : ∀ id, id = matcherId ∨ id = walId →
      Quiet cfg.capIn cfg.capOut cfg.maxConsumers id s.sequencer s'.sequencer)
    (hjoined : Joined s') : ProcessInv s' where
  sequencer := hinv
  matcher := by
    obtain ⟨handled, hthread, hreplay⟩ := h.matcher
    rw [hmatcher.1, hmatcher.2.1, hmatcher.2.2]
    exact ⟨handled, hthread.frame (hq matcherId (Or.inl rfl)), hreplay⟩
  wal := by
    obtain ⟨handled, hthread, hlog⟩ := h.wal
    rw [hwal.1, hwal.2]
    exact ⟨handled, hthread.frame (hq walId (Or.inr rfl)), hlog⟩
  file := by
    have hfile := h.file
    unfold FileOk at hfile ⊢
    rw [hwal.1, hwal.2]
    exact hfile
  joined := hjoined

/-! ## One step -/

/-- A step of the main thread, or of the sequencer's, through the sequencer. -/
theorem ProcessInv.onSequencer (h : ProcessInv s) {a : SequencerAction} {main : MainPc}
    (hs : s.onSequencer a main = some s') (hconsume : ∀ id, a ≠ .consume id)
    (hread : ∀ id, a ≠ .read id) (hmain : main = s.main ∨ main.pos < MainPc.stopMatcher.pos) :
    ProcessInv s' := by
  obtain ⟨seq, hseq, rfl⟩ := onSequencer_eq_some hs
  refine h.frame (sequencerInv_step h.sequencer hseq) ⟨rfl, rfl, rfl⟩ ⟨rfl, rfl⟩
    (fun id _ => Or.inr ⟨a, hseq, hconsume id, hread id⟩) ?_
  rcases hmain with rfl | hearly
  · exact ⟨fun hle => (step_returned hseq (h.joined.sequencer hle)).1, h.joined.matcher,
      h.joined.wal⟩
  · exact .early hearly

/-- A step of the main thread on its own. -/
theorem ProcessInv.goto (h : ProcessInv s) {main : MainPc}
    (hjoined : Joined { s with main := main }) : ProcessInv { s with main := main } :=
  h.frame h.sequencer ⟨rfl, rfl, rfl⟩ ⟨rfl, rfl⟩ (fun _ _ => Or.inl rfl) hjoined

theorem join_eq_some {returned : Bool} {main : MainPc} (hs : s.join returned main = some s') :
    returned = true ∧ s' = { s with main := main } := by
  unfold Process.join at hs
  split at hs
  · exact ⟨‹_›, (Option.some.inj hs).symm⟩
  · exact absurd hs (by simp)

theorem ProcessInv.startWal (h : ProcessInv s) {c : ConsumerThread} {main : MainPc}
    (hc : s.walThread.start = some c) (hmain : main.pos < MainPc.stopMatcher.pos) :
    ProcessInv { s with walThread := c, wal := s.wal.openFile, main := main } := by
  obtain ⟨handled, hthread, hlog⟩ := h.wal
  refine ⟨h.sequencer, h.matcher, ⟨handled, hthread.start hc, hlog⟩, ?_, .early hmain⟩
  unfold ConsumerThread.start at hc
  split at hc
  · cases hc
    rfl
  · exact absurd hc (by simp)

theorem ProcessInv.startMatcher (h : ProcessInv s) {c : ConsumerThread} {main : MainPc}
    (hc : s.matcher.start = some c) (hmain : main.pos < MainPc.stopMatcher.pos) :
    ProcessInv { s with matcher := c, main := main } := by
  obtain ⟨handled, hthread, hreplay⟩ := h.matcher
  exact ⟨h.sequencer, ⟨handled, hthread.start hc, hreplay⟩, h.wal, h.file, .early hmain⟩

theorem ProcessInv.mainStep (h : ProcessInv s) {started : Bool}
    (hs : s.mainStep started = some s') : ProcessInv s' := by
  have hj := h.joined
  unfold Process.mainStep at hs
  cases hm : s.main with
  | registerMatcher | registerWal | registerDb | startSequencer | stopSequencer =>
      rw [hm] at hs
      exact h.onSequencer hs (by intro id he; cases he) (by intro id he; cases he)
        (Or.inr (by decide))
  | startWal =>
      rw [hm] at hs
      obtain ⟨c, hc, rfl⟩ := Option.map_eq_some_iff.mp hs
      exact h.startWal hc (by decide)
  | startDb =>
      rw [hm] at hs
      obtain ⟨c, hc, rfl⟩ := Option.map_eq_some_iff.mp hs
      exact h.frame h.sequencer ⟨rfl, rfl, rfl⟩ ⟨rfl, rfl⟩ (fun _ _ => Or.inl rfl)
        (.early (show 5 < 11 by omega))
  | startMatcher =>
      rw [hm] at hs
      obtain ⟨c, hc, rfl⟩ := Option.map_eq_some_iff.mp hs
      exact h.startMatcher hc (by decide)
  | startServer =>
      rw [hm] at hs
      cases hs
      refine h.goto (.early ?_)
      -- a server that does not start goes straight to the shutdown
      show MainPc.pos (if started then .polling else .stopSequencer) < MainPc.stopMatcher.pos
      cases started <;> decide
  | polling =>
      rw [hm] at hs
      dsimp only at hs
      split at hs
      · cases hs
        exact h.goto (.early (show 9 < 11 by omega))
      · exact absurd hs (by simp)
  | joinSequencer =>
      rw [hm] at hs
      obtain ⟨hreturned, rfl⟩ := join_eq_some hs
      exact h.goto ⟨fun _ => of_decide_eq_true hreturned,
        fun hle => absurd (show 13 ≤ 11 from hle) (by omega),
        fun hle => absurd (show 15 ≤ 11 from hle) (by omega)⟩
  | stopMatcher =>
      rw [hm] at hs
      cases hs
      obtain ⟨handled, hthread, hreplay⟩ := h.matcher
      -- the order of the stops in `main` is what makes the drain complete
      have hseq : s.sequencer.pc = .returned := hj.sequencer (by rw [hm])
      exact ⟨h.sequencer, ⟨handled, hthread.stop hseq, hreplay⟩, h.wal, h.file, fun _ => hseq,
        fun hle => absurd (show 13 ≤ 12 from hle) (by omega),
        fun hle => absurd (show 15 ≤ 12 from hle) (by omega)⟩
  | joinMatcher =>
      rw [hm] at hs
      obtain ⟨hreturned, rfl⟩ := join_eq_some hs
      exact h.goto ⟨fun _ => hj.sequencer (by rw [hm]; decide),
        fun _ => of_decide_eq_true hreturned,
        fun hle => absurd (show 15 ≤ 13 from hle) (by omega)⟩
  | stopWal =>
      rw [hm] at hs
      cases hs
      obtain ⟨handled, hthread, hlog⟩ := h.wal
      have hseq : s.sequencer.pc = .returned := hj.sequencer (by rw [hm]; decide)
      exact ⟨h.sequencer, h.matcher, ⟨handled, hthread.stop hseq, hlog⟩, h.file, fun _ => hseq,
        fun _ => hj.matcher (by rw [hm]),
        fun hle => absurd (show 15 ≤ 14 from hle) (by omega)⟩
  | joinWal =>
      rw [hm] at hs
      obtain ⟨hreturned, rfl⟩ := join_eq_some hs
      exact h.goto ⟨fun _ => hj.sequencer (by rw [hm]; decide),
        fun _ => hj.matcher (by rw [hm]; decide), fun _ => of_decide_eq_true hreturned⟩
  | stopDb =>
      rw [hm] at hs
      cases hs
      exact h.frame h.sequencer ⟨rfl, rfl, rfl⟩ ⟨rfl, rfl⟩ (fun _ _ => Or.inl rfl)
        ⟨fun _ => hj.sequencer (by rw [hm]; decide), fun _ => hj.matcher (by rw [hm]; decide),
          fun _ => hj.wal (by rw [hm])⟩
  | joinDb =>
      rw [hm] at hs
      obtain ⟨_, rfl⟩ := join_eq_some hs
      exact h.goto ⟨fun _ => hj.sequencer (by rw [hm]; decide),
        fun _ => hj.matcher (by rw [hm]; decide), fun _ => hj.wal (by rw [hm]; decide)⟩
  | done => rw [hm] at hs; exact absurd hs (by simp)

theorem ProcessInv.matcherStep (h : ProcessInv s) {c : ConsumerThread} {seq : Sequencer}
    {out : Outcome} (hs : s.consumerStep matcherId s.matcher = some (c, seq, out)) :
    ProcessInv ({ s with matcher := c, sequencer := seq }.matcherDeals out) := by
  obtain ⟨handled, hthread, hreplay⟩ := h.matcher
  obtain ⟨logged, hwal, hlog⟩ := h.wal
  have hinv := ConsumerThread.step_inv h.sequencer hs
  have hthread' := hthread.step h.sequencer hs
  -- the two consumers share the ring, each with a cursor of its own
  have hwal' := hwal.frame (ConsumerThread.step_quiet hs (show walId ≠ matcherId by decide))
  have hjoined : Joined { s with matcher := c, sequencer := seq } :=
    ⟨fun hle => ConsumerThread.step_pc hs (h.joined.sequencer hle),
      -- a thread that has been joined takes no more steps
      fun hle => absurd (h.joined.matcher hle) (ConsumerThread.not_returned hs), h.joined.wal⟩
  cases out with
  | event ev =>
      refine ⟨hinv, ⟨_, hthread', ?_⟩, ⟨logged, hwal', hlog⟩, h.file, hjoined.sequencer,
        hjoined.matcher, hjoined.wal⟩
      rw [Outcome.events, MatchingEngineConsumer.replay_concat, hreplay]
      rfl
  | quiet | batchEnd | drained =>
      rw [Outcome.events, List.append_nil] at hthread'
      exact ⟨hinv, ⟨handled, hthread', hreplay⟩, ⟨logged, hwal', hlog⟩, h.file, hjoined⟩

/-- While the thread of the log runs, its file is open. -/
theorem FileOk.isOpen (h : FileOk s) {c : ConsumerThread} {seq : Sequencer} {out : Outcome}
    (hs : s.consumerStep walId s.walThread = some (c, seq, out)) : s.wal.isOpen := by
  unfold FileOk at h
  unfold Process.consumerStep ConsumerThread.step at hs
  cases hpc : s.walThread.pc with
  | ready => rw [hpc] at hs; exact absurd hs (by simp)
  | returned => rw [hpc] at hs; exact absurd hs (by simp)
  | _ => rw [hpc] at h; exact h

theorem fileOk_of_isOpen (hopen : s.wal.isOpen) (hpc : s.walThread.pc ≠ .returned) : FileOk s := by
  unfold FileOk
  cases h : s.walThread.pc with
  | ready => trivial
  | returned => exact absurd h hpc
  | _ => exact hopen

theorem ProcessInv.walStep (h : ProcessInv s) {c : ConsumerThread} {seq : Sequencer}
    {out : Outcome} {pad : Padding} {elapsed : Bool}
    (hs : s.consumerStep walId s.walThread = some (c, seq, out)) :
    ProcessInv ({ s with walThread := c, sequencer := seq }.walDeals pad elapsed out) := by
  obtain ⟨handled, hmatcher, hreplay⟩ := h.matcher
  obtain ⟨logged, hthread, hlog⟩ := h.wal
  have hinv := ConsumerThread.step_inv h.sequencer hs
  have hthread' := hthread.step h.sequencer hs
  have hmatcher' := hmatcher.frame (ConsumerThread.step_quiet hs (show matcherId ≠ walId by decide))
  have hopen := h.file.isOpen hs
  have hreturns := ConsumerThread.step_returns hs
  have hjoined : Joined { s with walThread := c, sequencer := seq } :=
    ⟨fun hle => ConsumerThread.step_pc hs (h.joined.sequencer hle), h.joined.matcher,
      fun hle => absurd (h.joined.wal hle) (ConsumerThread.not_returned hs)⟩
  cases out with
  | event ev =>
      refine ⟨hinv, ⟨handled, hmatcher', hreplay⟩, ⟨_, hthread', ?_⟩, ?_, hjoined.sequencer,
        hjoined.matcher, hjoined.wal⟩
      · dsimp only [Process.walDeals]
        rw [WalConsumer.append_written]
        exact hlog.concat ev pad
      · exact fileOk_of_isOpen ((WalConsumer.append_isOpen ..).trans hopen)
          fun hpc => absurd (hreturns.mp hpc) (by simp)
  | quiet =>
      rw [Outcome.events, List.append_nil] at hthread'
      exact ⟨hinv, ⟨handled, hmatcher', hreplay⟩, ⟨logged, hthread', hlog⟩,
        fileOk_of_isOpen hopen fun hpc => absurd (hreturns.mp hpc) (by simp), hjoined⟩
  | batchEnd =>
      rw [Outcome.events, List.append_nil] at hthread'
      refine ⟨hinv, ⟨handled, hmatcher', hreplay⟩, ⟨logged, hthread', ?_⟩, ?_, hjoined.sequencer,
        hjoined.matcher, hjoined.wal⟩
      · dsimp only [Process.walDeals]
        rw [WalConsumer.maybeFsync_written]
        exact hlog
      · exact fileOk_of_isOpen ((WalConsumer.maybeFsync_isOpen ..).trans hopen)
          fun hpc => absurd (hreturns.mp hpc) (by simp)
  | drained =>
      rw [Outcome.events, List.append_nil] at hthread'
      refine ⟨hinv, ⟨handled, hmatcher', hreplay⟩, ⟨logged, hthread', ?_⟩, ?_, hjoined.sequencer,
        hjoined.matcher, hjoined.wal⟩
      · dsimp only [Process.walDeals]
        rw [WalConsumer.close_written]
        exact hlog
      · -- `close` forces the last sync before the thread returns
        unfold FileOk
        dsimp only [Process.walDeals]
        rw [hreturns.mpr rfl]
        exact WalConsumer.close_buffered hopen

theorem ProcessInv.dbStep (h : ProcessInv s) {c : ConsumerThread} {seq : Sequencer}
    {out : Outcome} (hs : s.consumerStep dbId s.dbThread = some (c, seq, out)) :
    ProcessInv { s with dbThread := c, sequencer := seq } := by
  refine h.frame (ConsumerThread.step_inv h.sequencer hs) ⟨rfl, rfl, rfl⟩ ⟨rfl, rfl⟩ ?_
    ⟨fun hle => ConsumerThread.step_pc hs (h.joined.sequencer hle), h.joined.matcher, h.joined.wal⟩
  intro id hid
  refine ConsumerThread.step_quiet hs ?_
  rcases hid with rfl | rfl <;> decide

theorem processInv_step {a : ProcessAction} (h : ProcessInv s) (hs : s.step a = some s') :
    ProcessInv s' := by
  cases a with
  | main started => exact h.mainStep hs
  | push item =>
      dsimp only [Process.step] at hs
      split at hs
      · rename_i hm
        exact h.onSequencer hs (by intro id he; cases he) (by intro id he; cases he)
          (Or.inl hm.symm)
      · exact absurd hs (by simp)
  | produce =>
      dsimp only [Process.step] at hs
      split at hs
      · rename_i hm
        exact h.onSequencer hs (by intro id he; cases he) (by intro id he; cases he)
          (Or.inl hm.symm)
      · exact absurd hs (by simp)
  | sequencer now =>
      exact h.onSequencer hs (by intro id he; cases he) (by intro id he; cases he) (Or.inl rfl)
  | matcher =>
      obtain ⟨⟨c, seq, out⟩, hc, rfl⟩ := Option.map_eq_some_iff.mp hs
      exact h.matcherStep hc
  | wal pad elapsed =>
      obtain ⟨⟨c, seq, out⟩, hc, rfl⟩ := Option.map_eq_some_iff.mp hs
      exact h.walStep hc
  | db =>
      obtain ⟨⟨c, seq, out⟩, hc, rfl⟩ := Option.map_eq_some_iff.mp hs
      exact h.dbStep hc

theorem processInv_exec (buffers : ProducerId → Nat → SequencedEvent)
    (slots : Nat → SequencedEvent) (actions : List ProcessAction)
    (hrun : Machine.exec Process.step (Process.init cfg buffers slots) actions = some s) :
    ProcessInv s :=
  Machine.exec_preserves (fun _ _ _ => processInv_step) actions _ s
    (processInv_init cfg buffers slots) hrun

/-! ## After the shutdown -/

theorem ProcessInv.logged (h : ProcessInv s) (hstopped : MainPc.stopDb.pos ≤ s.main.pos)
    (hlen : s.sequencer.output.published.length < 2 ^ 64) :
    IsLog s.sequencer.output.published s.wal.file := by
  have hpc := h.joined.wal hstopped
  obtain ⟨handled, hthread, hlog⟩ := h.wal
  rw [hthread.complete hpc hlen] at hlog
  -- the thread closed the file before it returned
  have hfile := h.file
  unfold FileOk at hfile
  rw [hpc] at hfile
  rwa [WalConsumer.written, hfile, List.append_nil] at hlog

theorem ProcessInv.applied (h : ProcessInv s) (hstopped : MainPc.stopWal.pos ≤ s.main.pos)
    (hlen : s.sequencer.output.published.length < 2 ^ 64) :
    (MatchingEngineConsumer.init cfg.pool).replay s.sequencer.output.published
      = (s.engine, s.acks) := by
  obtain ⟨handled, hthread, hreplay⟩ := h.matcher
  rwa [hthread.complete (h.joined.matcher hstopped) hlen] at hreplay

/-- What the log is for, of one state of a run. -/
structure LogReplays (s : Process cfg) : Prop where
  /-- The file is the records of all published events and nothing else. -/
  file : IsLog s.sequencer.output.published s.wal.file
  ordered : ∀ k ev, s.sequencer.output.published[k]? = some ev → ev.seqNum.toNat = k + 1
  /-- A fresh engine fed with the decoded file becomes the live one, and says the same. -/
  replay : ∃ evs, Bytes.decodeAll recordSize decodeRecord s.wal.file = some evs
    ∧ (MatchingEngineConsumer.init cfg.pool).replay evs = (s.engine, s.acks)

/-- **The log replays to the live engine**, when `wal->stop()` has returned, whatever the
interleaving and wherever in it the shutdown began. -/
theorem wal_replays_to_live_engine (cfg : Config) (buffers : ProducerId → Nat → SequencedEvent)
    (slots : Nat → SequencedEvent) (actions : List ProcessAction) (s : Process cfg)
    (hrun : Machine.exec Process.step (Process.init cfg buffers slots) actions = some s)
    (hstopped : MainPc.stopDb.pos ≤ s.main.pos)
    (hlen : s.sequencer.output.published.length < 2 ^ 64) : LogReplays s := by
  have h := processInv_exec buffers slots actions hrun
  have hlog := h.logged hstopped hlen
  exact ⟨hlog, fun k ev => h.sequencer.gapFree hlen, _, hlog.decode,
    h.applied (Nat.le_trans (by decide) hstopped) hlen⟩

/-- An order is pushed, sequenced and published; then everything stops, and both consumers
read it in their drains. -/
theorem wal_replays_to_live_engine_one_order :
    let cfg : Config := ⟨⟨1, by decide⟩, ⟨0, by decide⟩, 8, ⟨1, by decide⟩, 256⟩
    let pad : Padding := ⟨(7, 7), (7, 7, 7), (7, 7, 7, 7)⟩
    let actions : List ProcessAction :=
      List.replicate 8 (ProcessAction.main true)
      ++ [ProcessAction.push { sessionId := 4, clientOrderId := 9, price := 100, quantity := 5 },
          .produce, .produce, .produce]
      ++ List.replicate 9 (ProcessAction.sequencer 70) ++ [ProcessAction.main true, .main true]
      ++ List.replicate 11 (ProcessAction.sequencer 71) ++ [ProcessAction.main true, .main true]
      ++ List.replicate 10 ProcessAction.matcher ++ [ProcessAction.main true, .main true]
      ++ List.replicate 10 (ProcessAction.wal pad false) ++ [ProcessAction.main true]
    ∃ s, Machine.exec Process.step (Process.init cfg (fun _ _ => {}) (fun _ => {})) actions = some s
      ∧ s.main = .stopDb ∧ s.sequencer.output.published.length = 1 ∧ s.wal.file.length = 56
      ∧ LogReplays s := by
  intro cfg pad actions
  have heval : ((Machine.exec Process.step (Process.init cfg (fun _ _ => {}) (fun _ => {}))
      actions).map fun s => (s.main, s.sequencer.output.published.length, s.wal.file.length))
        = some (.stopDb, 1, 56) := by
    decide +kernel
  obtain ⟨s, hs, heval⟩ := Option.map_eq_some_iff.mp heval
  rw [Prod.mk.injEq, Prod.mk.injEq] at heval
  obtain ⟨hmain, hpub, hfile⟩ := heval
  exact ⟨s, hs, hmain, hpub, hfile,
    wal_replays_to_live_engine cfg (fun _ _ => {}) (fun _ => {}) actions s hs
      (by rw [hmain]) (by rw [hpub]; decide)⟩

end HftLob.Pipeline
