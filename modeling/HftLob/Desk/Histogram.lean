import HftLob.Lib.LogLinear
import HftLob.Lib.Rank
import HftLob.Types

/-!
# The latency histogram

`LatencyHistogram`: samples are counted in log-linear buckets, and a percentile is read off
by adding up the buckets to the rank asked for and returning the lower edge of the bucket
reached. With the buckets of `Lib.LogLinear` and the scan of `Lib.Rank` that is the sample
of this rank, up to the precision of a bucket, as long as the counters do not wrap.

`index_for` clamps a slot and an index. Neither clamp acts on a sample of at most one
octave above the configured maximum, for which the constructor has made room.
-/

namespace HftLob.Desk

open HftLob.Lib HftLob.Lib.LogLinear HftLob.Lib.Rank

structure LatencyHistogram where
  subBucketBits : Nat
  subBucketCount : Nat
  counts : List UInt64
  totalCount : UInt64
  sumNs : UInt64
  minNs : UInt64
  maxNs : UInt64

/-- `while (v >>= 1) ++b`. -/
def highestBit (v : Nat) : Nat :=
  if v >>> 1 = 0 then 0 else highestBit (v >>> 1) + 1
termination_by v
decreasing_by
  rw [Nat.shiftRight_eq_div_pow] at *
  omega

namespace LatencyHistogram

def init (maxValueNs : UInt64 := (1 : UInt64) <<< (34 : UInt64)) (subBucketBits : Nat := 7) :
    LatencyHistogram where
  subBucketBits := subBucketBits
  subBucketCount := 1 <<< subBucketBits
  counts := List.replicate ((highestBit maxValueNs.toNat + 2) * (1 <<< subBucketBits)) 0
  totalCount := 0
  sumNs := 0
  minNs := ~~~0
  maxNs := 0

def indexFor (h : LatencyHistogram) (v : Nat) : Nat :=
  if v = 0 then 0
  else
    let octave := highestBit v
    let base := 1 <<< octave
    let offset := v - base
    -- an octave with fewer numbers than slots has one slot for each of them
    let sub := (if octave ≥ h.subBucketBits then offset >>> (octave - h.subBucketBits)
      else offset) % 2 ^ 32
    let sub := min sub (h.subBucketCount - 1)
    let idx := octave * h.subBucketCount + sub
    min idx (h.counts.length - 1)

def valueForIndex (h : LatencyHistogram) (idx : Nat) : UInt64 :=
  let octave := idx / h.subBucketCount
  let sub := idx % h.subBucketCount
  let base := 1 <<< octave
  let width := if octave ≥ h.subBucketBits then 1 <<< (octave - h.subBucketBits) else 1
  UInt64.ofNat (base + sub * width)

def record (h : LatencyHistogram) (valueNs : UInt64) : LatencyHistogram where
  subBucketBits := h.subBucketBits
  subBucketCount := h.subBucketCount
  counts := h.counts.modify (h.indexFor valueNs.toNat) (· + 1)
  totalCount := h.totalCount + 1
  sumNs := h.sumNs + valueNs
  minNs := min h.minNs valueNs
  maxNs := max h.maxNs valueNs

def recordAll (h : LatencyHistogram) (values : List UInt64) : LatencyHistogram :=
  values.foldl record h

/-- `max()`. -/
def max (h : LatencyHistogram) : UInt64 := h.maxNs

/-- The loop of `percentile`: where the running total gets to the target. -/
def scan (target : UInt64) : List UInt64 → UInt64 → Nat → Option Nat
  | [], _, _ => none
  | c :: counts, running, i =>
      if running + c ≥ target then some i else scan target counts (running + c) (i + 1)

/-- `percentile(p)`, from `ceil(p / 100.0 * total_count_)` on. -/
def percentile (h : LatencyHistogram) (rank : UInt64) : UInt64 :=
  if h.totalCount = 0 then 0
  else
    match scan (Max.max 1 rank) h.counts 0 0 with
    | some i => h.valueForIndex i
    | none => h.maxNs

end LatencyHistogram

theorem highestBit_eq_log2 (v : Nat) : highestBit v = v.log2 := by
  induction v using Nat.strongRecOn with
  | ind v ih =>
      rw [highestBit, Nat.log2_def, Nat.shiftRight_eq_div_pow, Nat.pow_one]
      by_cases hv : 2 ≤ v
      · rw [if_neg (by omega), if_pos hv, ih (v / 2) (by omega)]
      · rw [if_pos (by omega), if_neg hv]

/-! ## What has been recorded -/

/-- The histogram of the samples, with `octaves` octaves of `2 ^ b` buckets. -/
structure Recorded (b octaves : Nat) (samples : List Nat) (h : LatencyHistogram) : Prop where
  bits : h.subBucketBits = b
  count : h.subBucketCount = 2 ^ b
  size : h.counts.length = octaves * 2 ^ b
  total : h.totalCount.toNat = samples.length
  tallies : Tallies (bucket b) samples (h.counts.map UInt64.toNat)
  largest : ∀ v ∈ samples, v ≤ h.maxNs.toNat

variable {b octaves v : Nat} {samples : List Nat} {h : LatencyHistogram}

theorem recorded_init (maxValueNs : UInt64) (b : Nat) :
    Recorded b (maxValueNs.toNat.log2 + 2) [] (.init maxValueNs b) where
  bits := rfl
  count := Nat.one_shiftLeft b
  size := by
    simp only [LatencyHistogram.init, List.length_replicate, Nat.one_shiftLeft, highestBit_eq_log2]
  total := rfl
  tallies := by
    intro i hi
    simp only [LatencyHistogram.init, List.map_replicate, List.length_replicate] at hi ⊢
    rw [List.getElem?_replicate, if_pos hi]
    rfl
  largest := by simp

/-- **Neither clamp acts.** -/
theorem Recorded.indexFor_eq (hr : Recorded b octaves samples h) (hb : b ≤ 16) (hv : v ≠ 0)
    (hoctave : v.log2 < octaves) : h.indexFor v = bucket b v := by
  have hslot := slot_lt b hv
  have hpow : 2 ^ b ≤ 2 ^ 16 := Nat.pow_le_pow_right (by decide) hb
  have hbucket := bucket_lt b hv hoctave
  have hsub : (if v.log2 ≥ b then (v - 2 ^ v.log2) >>> (v.log2 - b) else v - 2 ^ v.log2)
      = slot b v := by
    unfold slot width
    split
    · rw [Nat.shiftRight_eq_div_pow]
    · rw [Nat.div_one]
  unfold LatencyHistogram.indexFor
  rw [if_neg hv]
  simp only [highestBit_eq_log2, Nat.one_shiftLeft, hr.bits, hr.count, hr.size, hsub]
  have hclamp : min (slot b v) (2 ^ b - 1) = slot b v := Nat.min_eq_left (by omega)
  rw [Nat.mod_eq_of_lt (by omega), hclamp]
  have hidx : bucket b v ≤ octaves * 2 ^ b - 1 := by omega
  exact Nat.min_eq_left hidx

theorem Recorded.valueForIndex_bucket (hr : Recorded b octaves samples h) (hv : v ≠ 0) :
    h.valueForIndex (bucket b v) = UInt64.ofNat (edge b v) := by
  unfold LatencyHistogram.valueForIndex
  simp only [hr.bits, hr.count, Nat.one_shiftLeft, bucket_div b hv, bucket_mod b hv]
  rfl

/-- Below `2 ^ 64` a counter counts. -/
theorem toNat_succ {c : UInt64} {n : Nat} (hc : c.toNat ≤ n) (hn : n + 1 < 2 ^ 64) :
    (c + 1).toNat = c.toNat + 1 := by
  rw [UInt64.toNat_add, UInt64.toNat_one, Nat.mod_eq_of_lt (by omega)]

/-- **One sample more.** -/
theorem Recorded.record {value : UInt64} (hr : Recorded b octaves samples h) (hb : b ≤ 16)
    (hv : value.toNat ≠ 0) (hoctave : value.toNat.log2 < octaves)
    (hlen : samples.length + 1 < 2 ^ 64) :
    Recorded b octaves (samples ++ [value.toNat]) (h.record value) where
  bits := hr.bits
  count := hr.count
  size := by
    show (h.counts.modify _ _).length = _
    rw [List.length_modify, hr.size]
  total := by
    show (h.totalCount + 1).toNat = _
    rw [toNat_succ (Nat.le_of_eq hr.total) hlen, hr.total, List.length_append,
      List.length_singleton]
  tallies := by
    intro i hi
    show ((h.counts.modify _ _).map UInt64.toNat)[i]? = _
    have hi : i < (h.counts.map UInt64.toNat).length := by
      have : i < ((h.counts.modify (h.indexFor value.toNat) (· + 1)).map UInt64.toNat).length := hi
      rwa [List.length_map, List.length_modify, ← List.length_map] at this
    have hcount := hr.tallies i hi
    rw [List.getElem?_map] at hcount
    obtain ⟨c, hc, htally⟩ := Option.map_eq_some_iff.mp hcount
    rw [List.getElem?_map, hr.indexFor_eq hb hv hoctave, List.getElem?_modify, hc,
      List.countP_append, List.countP_singleton]
    by_cases hbi : bucket b value.toNat = i
    · have hle : c.toNat ≤ samples.length := htally ▸ List.countP_le_length
      simp [hbi, htally, toNat_succ hle hlen]
    · simp [hbi, htally]
  largest := by
    intro w hw
    have hmax : (h.record value).maxNs.toNat = max h.maxNs.toNat value.toNat :=
      UInt64.toNat_max _ _
    rw [hmax]
    rcases List.mem_append.mp hw with hw | hw
    · have := hr.largest w hw
      omega
    · rw [List.mem_singleton.mp hw]
      omega

theorem Recorded.recordAll {values : List UInt64} (hr : Recorded b octaves samples h)
    (hb : b ≤ 16) (hvalues : ∀ v ∈ values, v.toNat ≠ 0 ∧ v.toNat.log2 < octaves)
    (hlen : samples.length + values.length < 2 ^ 64) :
    Recorded b octaves (samples ++ values.map UInt64.toNat) (h.recordAll values) := by
  induction values generalizing samples h with
  | nil =>
      rw [List.map_nil, List.append_nil]
      exact hr
  | cons v values ih =>
      obtain ⟨hv, hoctave⟩ := hvalues v List.mem_cons_self
      rw [List.length_cons] at hlen
      have hone := hr.record hb hv hoctave (by omega)
      have hall := ih hone (fun w hw => hvalues w (List.mem_cons_of_mem v hw)) (by
        rw [List.length_append, List.length_singleton]
        omega)
      rwa [List.append_assoc] at hall

/-! ## Percentiles -/

/-- The running total does not wrap if all counters together do not. -/
theorem scan_eq_reach (target : UInt64) {counts : List UInt64} : ∀ {running : UInt64} {i : Nat},
    running.toNat + (counts.map UInt64.toNat).sum < 2 ^ 64 →
    LatencyHistogram.scan target counts running i
      = reach target.toNat (counts.map UInt64.toNat) running.toNat i := by
  induction counts with
  | nil => exact fun _ => rfl
  | cons c counts ih =>
      intro running i hsum
      rw [List.map_cons, List.sum_cons] at hsum
      have hadd : (running + c).toNat = running.toNat + c.toNat := by
        rw [UInt64.toNat_add, Nat.mod_eq_of_lt (by omega)]
      rw [LatencyHistogram.scan, List.map_cons, reach, ih (by omega), hadd]
      refine if_congr ?_ rfl rfl
      rw [ge_iff_le, UInt64.le_iff_toNat_le, hadd]

theorem Recorded.sum_le (hr : Recorded b octaves samples h) :
    (h.counts.map UInt64.toNat).sum ≤ samples.length := by
  have hsum := hr.tallies.take_sum (Nat.le_refl _)
  rw [List.take_length] at hsum
  rw [hsum]
  exact List.countP_le_length

/-- **A percentile is the lower edge of the bucket of the sample of that rank.** -/
theorem Recorded.percentile_eq {t : UInt64} {x : Nat} (hr : Recorded b octaves samples h)
    (hsamples : ∀ v ∈ samples, v ≠ 0 ∧ v.log2 < octaves) (ht : 1 ≤ t.toNat)
    (hx : nthSmallest samples t.toNat = some x) : h.percentile t = UInt64.ofNat (edge b x) := by
  have hmem : x ∈ samples := mem_of_nthSmallest hx
  have hlen : samples.length < 2 ^ 64 := hr.total ▸ h.totalCount.toNat_lt
  have hsum : (0 : UInt64).toNat + (h.counts.map UInt64.toNat).sum < 2 ^ 64 := by
    have := hr.sum_le
    rw [UInt64.toNat_zero]
    omega
  have hreach : reach t.toNat (h.counts.map UInt64.toNat) 0 0 = some (bucket b x) := by
    refine hr.tallies.reach_bucket (fun v hv w _ hle => bucket_mono b (hsamples v hv).1 hle) ?_ hx
    intro v hv
    rw [List.length_map, hr.size]
    exact bucket_lt b (hsamples v hv).1 (hsamples v hv).2
  have htotal : h.totalCount ≠ 0 := by
    intro hzero
    have hnone := hr.total
    rw [hzero, UInt64.toNat_zero] at hnone
    have := List.length_pos_of_mem hmem
    omega
  have htarget : Max.max 1 t = t := by
    rw [← UInt64.toNat_inj, UInt64.toNat_max, UInt64.toNat_one, Nat.max_eq_right ht]
  unfold LatencyHistogram.percentile
  rw [if_neg htotal, htarget, scan_eq_reach t hsum, UInt64.toNat_zero, hreach]
  exact hr.valueForIndex_bucket (hsamples x hmem).1

/--
**Percentiles are nearest-rank percentiles up to the precision of a bucket.**

For every list of fewer than `2 ^ 64` samples from `1` to below `2 ^ (h + 2)`, with `h` the
highest bit of the configured maximum, the percentile of rank `t` is at most the `t`-th
smallest sample and below it by less than one part in `2 ^ b`, and is that sample where slots
have width one. It does not decrease with the rank and is at most `max()`.
-/
theorem percentile_nearest_rank (maxValueNs : UInt64) (b : Nat) (hb : 1 ≤ b ∧ b ≤ 16)
    (values : List UInt64) (hlen : values.length < 2 ^ 64)
    (hvalues : ∀ v ∈ values, 1 ≤ v.toNat ∧ v.toNat < 2 ^ (highestBit maxValueNs.toNat + 2)) :
    let h := (LatencyHistogram.init maxValueNs b).recordAll values
    (∀ t : UInt64, 1 ≤ t.toNat → t.toNat ≤ values.length →
        ∃ x, nthSmallest (values.map UInt64.toNat) t.toNat = some x
          ∧ (h.percentile t).toNat ≤ x ∧ (x - (h.percentile t).toNat) * 2 ^ b < x
          ∧ (x < 2 ^ (b + 1) → (h.percentile t).toNat = x))
      ∧ (∀ t t' : UInt64, 1 ≤ t.toNat → t ≤ t' → t'.toNat ≤ values.length →
        h.percentile t ≤ h.percentile t')
      ∧ ∀ t : UInt64, 1 ≤ t.toNat → t.toNat ≤ values.length → h.percentile t ≤ h.max := by
  intro h
  have hoctaves : ∀ v ∈ values, v.toNat ≠ 0 ∧ v.toNat.log2 < maxValueNs.toNat.log2 + 2 := by
    intro v hv
    obtain ⟨hpos, hlt⟩ := hvalues v hv
    rw [highestBit_eq_log2] at hlt
    exact ⟨by omega, (Nat.log2_lt (by omega)).mpr hlt⟩
  have hsamples : ∀ v ∈ values.map UInt64.toNat,
      v ≠ 0 ∧ v < 2 ^ 64 ∧ v.log2 < maxValueNs.toNat.log2 + 2 := by
    intro v hv
    obtain ⟨w, hw, rfl⟩ := List.mem_map.mp hv
    exact ⟨(hoctaves w hw).1, w.toNat_lt, (hoctaves w hw).2⟩
  have hr : Recorded b (maxValueNs.toNat.log2 + 2) (values.map UInt64.toNat) h :=
    (recorded_init maxValueNs b).recordAll hb.2 hoctaves (by simpa using hlen)
  -- the sample of a rank, and the percentile that stands for it
  have hrank : ∀ t : UInt64, 1 ≤ t.toNat → t.toNat ≤ values.length →
      ∃ x, nthSmallest (values.map UInt64.toNat) t.toNat = some x ∧ x ≠ 0 ∧ x ≤ h.maxNs.toNat
        ∧ (h.percentile t).toNat = edge b x := by
    intro t ht hle
    have hle : t.toNat ≤ (values.map UInt64.toNat).length := by rwa [List.length_map]
    obtain ⟨x, hx⟩ := exists_nthSmallest ht hle
    have hmem := mem_of_nthSmallest hx
    obtain ⟨hne, hlt, _⟩ := hsamples x hmem
    have hedge := edge_le b hne
    refine ⟨x, hx, hne, hr.largest x hmem, ?_⟩
    rw [hr.percentile_eq (fun v hv => ⟨(hsamples v hv).1, (hsamples v hv).2.2⟩) ht hx,
      UInt64.toNat_ofNat', Nat.mod_eq_of_lt (by omega)]
  refine ⟨fun t ht hle => ?_, fun t t' ht htt hle => ?_, fun t ht hle => ?_⟩
  · obtain ⟨x, hx, hne, _, hp⟩ := hrank t ht hle
    rw [hp]
    exact ⟨x, hx, edge_le b hne, edge_close b hne, edge_exact hne⟩
  · have htt : t.toNat ≤ t'.toNat := UInt64.le_iff_toNat_le.mp htt
    obtain ⟨x, hx, hne, _, hp⟩ := hrank t ht (by omega)
    obtain ⟨x', hx', _, _, hp'⟩ := hrank t' (by omega) hle
    rw [UInt64.le_iff_toNat_le, hp, hp']
    exact edge_mono b hne (nthSmallest_mono hx hx' htt)
  · obtain ⟨x, _, hne, hmax, hp⟩ := hrank t ht hle
    have hedge := edge_le b hne
    rw [UInt64.le_iff_toNat_le, hp]
    exact Nat.le_trans hedge hmax

/-- Six samples over three octaves; the fifth is known to two bits. -/
theorem percentile_nearest_rank_six_samples :
    let h := (LatencyHistogram.init 100 2).recordAll [3, 90, 3, 17, 8, 130]
    1 ≤ 2 ∧ 2 ≤ 16 ∧ nthSmallest [3, 90, 3, 17, 8, 130] 5 = some 90
      ∧ (∃ x, nthSmallest ([3, 90, 3, 17, 8, 130].map UInt64.toNat) 5 = some x
        ∧ (h.percentile 5).toNat ≤ x ∧ (x - (h.percentile 5).toNat) * 2 ^ 2 < x
        ∧ (x < 2 ^ (2 + 1) → (h.percentile 5).toNat = x)) := by
  intro h
  have hrank := percentile_nearest_rank 100 2 (by decide) [3, 90, 3, 17, 8, 130] (by decide) (by
    rw [highestBit_eq_log2]
    simp only [List.forall_mem_cons, List.not_mem_nil, false_implies, implies_true, and_true]
    decide)
  exact ⟨by decide, by decide, by decide, hrank.1 5 (by decide) (by decide)⟩

end HftLob.Desk
