import HftLob.Bridge.Blotter
import HftLob.Bridge.History
import HftLob.Pipeline.Snapshot

/-!
# What the bridge answers from the database

`GET /api/history` and `GET /api/stats`. The bridge opens the file for the request, runs its
query and turns the rows into what the browser shows: an order that has no report yet is
`Submitted`, with all of its quantity left.

The file is read while the gateway writes to it, so the page is a view of a moment: the newest
new orders among the first events of the stream, each with the latest of the acks that have
reached the file (`history_page_is_snapshot`). A page of a moment after the shutdown is
what the log replays to.

The numbers in the file are signed, and shown and compared as such. For a `seq_num` below
`2 ^ 63` that makes no difference; a client chooses its ids as it likes.
-/

namespace HftLob.Bridge

open HftLob.Lib HftLob.Lib.Relational HftLob.Engine HftLob.Pipeline

/-! ## `query_history` -/

structure Stats where
  maxSeq : Int
  orderCount : Nat
  deriving DecidableEq, Repr

def queryStats (file : Option Database) : Stats :=
  match file with
  | none => ⟨0, 0⟩
  | some db =>
      ⟨((db.orders.map fun o => o.seqNum.toInt).max?).getD 0, db.orders.length⟩

section Runs

variable {cap : Book.PoolCapacity} {runs : List (GatewayRun cap)}

/-- How far the sequencer of any of the runs has counted. -/
def longest (runs : List (GatewayRun cap)) : Nat :=
  (runs.map fun run => run.events.length).foldr max 0

theorem le_longest {run : GatewayRun cap} (h : run ∈ runs) : run.events.length ≤ longest runs := by
  induction runs with
  | nil => exact absurd h (by simp)
  | cons first rest ih =>
      have hcons : longest (first :: rest) = max first.events.length (longest rest) := rfl
      rw [hcons]
      rcases List.mem_cons.mp h with rfl | hmem
      · exact Nat.le_max_left _ _
      · exact Nat.le_trans (ih hmem) (Nat.le_max_right _ _)

theorem longest_attained (h : 0 < longest runs) :
    ∃ run ∈ runs, run.events.length = longest runs := by
  induction runs with
  | nil => exact absurd h (by simp [longest])
  | cons first rest ih =>
      have hcons : longest (first :: rest) = max first.events.length (longest rest) := rfl
      rcases Nat.le_total first.events.length (longest rest) with hle | hle
      · rw [hcons, Nat.max_eq_right hle] at h ⊢
        obtain ⟨run, hmem, hrun⟩ := ih h
        exact ⟨run, List.mem_cons_of_mem _ hmem, hrun⟩
      · rw [hcons, Nat.max_eq_left hle]
        exact ⟨first, List.mem_cons_self, rfl⟩

/-- The numbers of a run are those from one on. -/
theorem GatewayRun.mem_seqNums (run : GatewayRun cap) {k : Nat} :
    k ∈ run.events.map (fun ev => ev.seqNum.toNat) ↔ 1 ≤ k ∧ k ≤ run.events.length := by
  have hlen := run.length_lt
  have hnumbers : run.events.map (fun ev => ev.seqNum.toNat)
      = (List.range run.events.length).map fun i => i + 1 := by
    have hstamped := congrArg (List.map UInt64.toNat) run.stamped
    rw [List.map_map, List.map_map] at hstamped
    refine hstamped.trans (List.map_congr_left fun i hi => ?_)
    have hi := List.mem_range.mp hi
    exact toNat_ofNat_seq (by omega)
  rw [hnumbers, List.mem_map]
  constructor
  · rintro ⟨i, hi, rfl⟩
    have := List.mem_range.mp hi
    omega
  · rintro ⟨hpos, hle⟩
    exact ⟨k - 1, List.mem_range.mpr (by omega), by omega⟩

/-- The numbers in the file are those that the longest run has counted. -/
theorem mem_stored (hreq : ∀ run ∈ runs, ∀ ev ∈ run.events, IsRequest ev)
    (hlen : ∀ run ∈ runs, run.events.length < 2 ^ 63) {n : Nat} {x : Int} :
    x ∈ (persist n runs).orders.map (fun o => o.seqNum.toInt) ↔ 1 ≤ x ∧ x ≤ longest runs := by
  have hsigned : ∀ run ∈ runs, ∀ ev ∈ run.events,
      (orderRow ev).seqNum.toInt = ev.seqNum.toNat := by
    intro run hrun ev hev
    have hle := (run.mem_seqNums.mp (List.mem_map_of_mem hev)).2
    exact toInt_toInt64 (Nat.lt_of_le_of_lt hle (hlen run hrun))
  have hkeys : (persist n runs).orders.map (fun o => o.seqNum.toInt)
      = ((persist n runs).orders.map OrderRow.seqNum).map Int64.toInt := by
    rw [List.map_map]
    rfl
  rw [hkeys, List.mem_map, orders_persist]
  constructor
  · rintro ⟨y, hy, rfl⟩
    obtain ⟨o, ho, rfl⟩ := List.mem_map.mp ((mem_keys_insertAll _ _).mp hy)
    obtain ⟨run, hrun, ho⟩ := List.mem_flatMap.mp ho
    obtain ⟨ev, hev, _, rfl⟩ := mem_requestRows.mp ho
    obtain ⟨hpos, hle⟩ := run.mem_seqNums.mp (List.mem_map_of_mem hev)
    have := le_longest hrun
    rw [hsigned run hrun ev hev]
    omega
  · rintro ⟨hpos, hle⟩
    have hsome : 0 < longest runs := by omega
    obtain ⟨run, hrun, hlongest⟩ := longest_attained hsome
    have hcounted : 1 ≤ x.toNat ∧ x.toNat ≤ run.events.length := by omega
    obtain ⟨ev, hev, hx⟩ := List.mem_map.mp (run.mem_seqNums.mpr hcounted)
    refine ⟨(orderRow ev).seqNum, (mem_keys_insertAll _ _).mpr ?_, ?_⟩
    · refine List.mem_map_of_mem (List.mem_flatMap.mpr ⟨run, hrun, ?_⟩)
      exact mem_requestRows.mpr ⟨ev, hev, hreq run hrun ev hev, rfl⟩
    · rw [hsigned run hrun ev hev]
      omega

/-- **The counter on the page is that of the longest run**: over any runs of the gateway on one
file, the largest number and the number of rows are both how far the longest of them has
counted, and not how many requests there have been. -/
theorem stats_show_longest_run (batchEveryN : Nat) (runs : List (GatewayRun cap))
    (hreq : ∀ run ∈ runs, ∀ ev ∈ run.events, IsRequest ev)
    (hlen : ∀ run ∈ runs, run.events.length < 2 ^ 63) :
    queryStats (some (persist batchEveryN runs)) = ⟨longest runs, longest runs⟩ := by
  have hstored : ∀ x : Int, x ∈ (persist batchEveryN runs).orders.map (fun o => o.seqNum.toInt)
      ↔ 1 ≤ x ∧ x ≤ longest runs := fun x => mem_stored hreq hlen
  -- every number from one on is there once
  have hnodup : ((persist batchEveryN runs).orders.map fun o => o.seqNum.toInt).Nodup := by
    have hkeys : ((persist batchEveryN runs).orders.map OrderRow.seqNum).Nodup := by
      rw [orders_persist]
      exact nodup_keys_insertAll (offered runs)
    have hinj : Function.Injective Int64.toInt := fun _ _ h => Int64.toInt_inj.mp h
    have := hkeys.map hinj
    rwa [List.map_map] at this
  have hperm : ((persist batchEveryN runs).orders.map fun o => o.seqNum.toInt).Perm
      ((List.range' 1 (longest runs)).map Nat.cast) := by
    have hrange : ((List.range' 1 (longest runs)).map (Nat.cast : Nat → Int)).Nodup :=
      List.Nodup.map (fun _ _ h => Int.ofNat_inj.mp h) List.nodup_range'
    refine (List.perm_ext_iff_of_nodup hnodup hrange).mpr fun x => ?_
    rw [hstored, List.mem_map]
    constructor
    · rintro ⟨hpos, hle⟩
      exact ⟨x.toNat, List.mem_range'_1.mpr (by omega), by omega⟩
    · rintro ⟨k, hk, rfl⟩
      have := List.mem_range'_1.mp hk
      omega
  have hcount : (persist batchEveryN runs).orders.length = longest runs := by
    have := hperm.length_eq
    rwa [List.length_map, List.length_map, List.length_range'] at this
  have hmax : (((persist batchEveryN runs).orders.map fun o => o.seqNum.toInt).max?).getD 0
      = longest runs := by
    rcases Nat.eq_zero_or_pos (longest runs) with hzero | hpos
    · have hnil : (persist batchEveryN runs).orders = [] :=
        List.eq_nil_of_length_eq_zero (hcount.trans hzero)
      rw [hnil, hzero]
      rfl
    · have hmax : ((persist batchEveryN runs).orders.map fun o => o.seqNum.toInt).max?
          = some (longest runs : Int) := by
        rw [List.max?_eq_some_iff]
        exact ⟨(hstored _).mpr ⟨by omega, by omega⟩, fun x hx => ((hstored x).mp hx).2⟩
      rw [hmax]
      rfl
  rw [queryStats, hmax, hcount]

end Runs

/-- Two orders before a restart and one after it: three requests, and a counter of two. -/
theorem stats_show_longest_run_restart :
    let cap : Book.PoolCapacity := ⟨1, by decide⟩
    let first : SequencedEvent := { seqNum := 1, sessionId := 4, clientOrderId := 1, price := 9 }
    let second : SequencedEvent := { seqNum := 2, sessionId := 4, type := .cancelOrder }
    ∃ before after : GatewayRun cap, before.events = [first, second] ∧ after.events = [first]
      ∧ queryStats (some (persist 256 [before, after])) = ⟨2, 2⟩ := by
  intro cap first second
  let before : GatewayRun cap := ⟨[first, second], rfl, by decide,
    [.event first false, .event second false] ++ (((MatchingEngineConsumer.init cap).replay
      [first, second]).2.map fun ack => .ack ack 0 false), by decide, by decide⟩
  let after : GatewayRun cap := ⟨[first], rfl, by decide,
    [.event first false] ++ (((MatchingEngineConsumer.init cap).replay
      [first]).2.map fun ack => .ack ack 0 false), by decide, by decide⟩
  refine ⟨before, after, rfl, rfl, ?_⟩
  have hreq : ∀ run ∈ [before, after], ∀ ev ∈ run.events, IsRequest ev := by decide
  exact stats_show_longest_run 256 [before, after] hreq (by decide)

end HftLob.Bridge
