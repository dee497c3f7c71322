/-
The latencies of the benchmark: `save_measurement` and `cal_latency` of
`src/Sherman/src/mb_utils.cpp`, and how `src/microbench/plot_common.py` reads the result.

A sample goes into a bucket of the row of its thread.  The buckets from 1000 on stand for
1000 units each, which the plotting code undoes.  `cal_latency` adds up the rows and walks
over the buckets until the count has reached a threshold.  The counters are `uint16_t` and
wrap; the sums fit their types, because there are 64 rows of at most `LWAIT_WINDOWS`
counters.  Of the percentiles only the two that are returned are kept.
-/
import Dal.Lib.Rank
import Mathlib.Algebra.Group.Action.Defs

namespace Dal.Latency

/-- `MAX_APP_THREAD`. -/
def maxAppThread : Nat := 64

/-- `LWAIT_WINDOWS` and `LATENCY_WINDOWS`. -/
def windows (isLwait : Bool) : Nat := if isLwait then 10000000 else 1000000

/-- What a thread measures, `timer.end()`. -/
structure Sample where
  threadID : Fin maxAppThread
  elapsed : Nat
  deriving DecidableEq, Repr

/-! ### Recording -/

/-- The bucket of `save_measurement`. -/
def bucket (isLwait : Bool) (elapsed : Nat) : Nat :=
  let lw := windows isLwait
  let us10 := if 1000 ≤ elapsed ∧ isLwait = true then 1000 + elapsed / 1000 else elapsed
  if lw ≤ us10 then lw - 1 else us10

/-- `threadID * lw + us_10`. -/
def index (isLwait : Bool) (s : Sample) : Nat :=
  s.threadID * windows isLwait + bucket isLwait s.elapsed

/-- `save_measurement`, on an array of `uint16_t`. -/
def saveMeasurement (isLwait : Bool) (arr : Nat → Nat) (s : Sample) : Nat → Nat :=
  Function.update arr (index isLwait s) ((arr (index isLwait s) + 1) % 2 ^ 16)

/-- The array after some samples. -/
def record (isLwait : Bool) (samples : List Sample) : Nat → Nat :=
  samples.foldl (saveMeasurement isLwait) fun _ => 0

/-! ### Percentiles -/

/-- `latency_th_all[i]`. -/
def latencyThAll (latency : Nat → Nat) (lw i : Nat) : Nat :=
  ∑ k ∈ Finset.range maxAppThread, latency (k * lw + i)

/-- `all_lat`. -/
def allLat (latency : Nat → Nat) (lw : Nat) : Nat :=
  ∑ i ∈ Finset.range lw, latencyThAll latency lw i

/-- The `-1` that a threshold is set to when it was reached. -/
def reached : Nat := 2 ^ 64 - 1

/-- The loop of `cal_latency` from bucket `i` on, with `n` buckets to go; `lats` as far as it
was written. -/
def scan (all : Nat → Nat) (th999 : Nat) : Nat → Nat → Nat → Nat → Option Nat →
    Option Nat × Option Nat
  | 0, _, _, _, lat50 => (lat50, none)
  | n + 1, i, cum, th50, lat50 =>
      let cum := cum + all i
      let lat50' := if th50 ≤ cum then some i else lat50
      let th50' := if th50 ≤ cum then reached else th50
      if th999 ≤ cum then (lat50', some i) else scan all th999 n (i + 1) cum th50' lat50'

/-- `cal_latency` with a factor of 1. -/
def calLatency (latency : Nat → Nat) (lw : Nat) : Option Nat × Option Nat :=
  let all := allLat latency lw
  scan (latencyThAll latency lw) (all * 999 / 1000) lw 0 0 (all / 2) none

/-- The values of `lwait_acq` and `gwait_acq` in `to_pd`. -/
def toPd (v : Nat) : Nat := if 1000 ≤ v then (v - 1000) * 1000 else v

/-! ### What the numbers should be -/

/-- A sample cut to the range of the last bucket, and to full thousands from 1000 on. -/
def rounded (elapsed : Nat) : Nat :=
  let x := min elapsed 9998999999
  if 1000 ≤ x then x / 1000 * 1000 else x

/-- A reported value is the `k`-th smallest sample, and there is a sample in its bucket. -/
def Reports (samples : List Sample) (k : Nat) (lat : Option Nat) : Prop :=
  ∃ i, lat = some i ∧ (∃ s ∈ samples, bucket true s.elapsed = i) ∧
    Rank.kth (samples.map fun s => rounded s.elapsed) k = some (toPd i)

/-- The statistics of the samples are right. -/
structure Faithful (samples : List Sample) : Prop where
  counts : allLat (record true samples) (windows true) = samples.length
  p50 : Reports samples (max 1 (samples.length / 2))
    (calLatency (record true samples) (windows true)).1
  p999 : Reports samples (max 1 (999 * samples.length / 1000))
    (calLatency (record true samples) (windows true)).2

/-! ### Buckets -/

theorem bucket_lt (elapsed : Nat) : bucket true elapsed < windows true := by
  unfold bucket windows
  simp only [if_true, and_true]
  repeat' split
  all_goals omega

theorem toPd_bucket (elapsed : Nat) : toPd (bucket true elapsed) = rounded elapsed := by
  unfold toPd bucket rounded windows
  simp only [if_true, and_true]
  repeat' split
  all_goals omega

/-- Values are in the order of their buckets. -/
theorem bucket_lt_iff (x y : Nat) : bucket true x < bucket true y ↔ rounded x < rounded y := by
  unfold bucket rounded windows
  simp only [if_true, and_true]
  repeat' split
  all_goals omega

theorem bucket_zero {elapsed : Nat} : bucket true elapsed = 0 ↔ elapsed = 0 := by
  unfold bucket windows
  simp only [if_true, and_true]
  repeat' split
  all_goals omega

/-! ### Counters -/

section Counters

variable {samples : List Sample} {k b : Nat}

theorem index_eq_iff (s : Sample) (hb : b < windows true) :
    index true s = k * windows true + b ↔ s.threadID = k ∧ bucket true s.elapsed = b := by
  have hlt := bucket_lt s.elapsed
  unfold index
  generalize bucket true s.elapsed = u at hlt
  rw [show windows true = 10000000 from rfl] at hb hlt ⊢
  omega

/-- How many samples a counter stands for. -/
def stored (samples : List Sample) (k b : Nat) : Nat :=
  samples.countP fun s => decide ((s.threadID : Nat) = k ∧ bucket true s.elapsed = b)

theorem record_concat (samples : List Sample) (s : Sample) :
    record true (samples ++ [s]) = saveMeasurement true (record true samples) s := by
  unfold record
  rw [List.foldl_append, List.foldl_cons, List.foldl_nil]

theorem stored_concat (samples : List Sample) (s : Sample) : stored (samples ++ [s]) k b =
    stored samples k b + if (s.threadID : Nat) = k ∧ bucket true s.elapsed = b then 1 else 0 := by
  unfold stored
  rw [List.countP_append, List.countP_singleton]
  simp only [decide_eq_true_eq]

/-- A counter is the number of its samples, as far as it fits. -/
theorem record_apply (samples : List Sample) (hb : b < windows true) :
    record true samples (k * windows true + b) = stored samples k b % 2 ^ 16 := by
  induction samples using List.reverseRecOn with
  | nil => rfl
  | append_singleton samples s ih =>
      rw [record_concat, stored_concat, saveMeasurement]
      by_cases hs : (s.threadID : Nat) = k ∧ bucket true s.elapsed = b
      · rw [(index_eq_iff s hb).mpr hs, Function.update_self, ih, if_pos hs]
        exact Nat.mod_add_mod _ _ _
      · rw [Function.update_of_ne fun h => hs ((index_eq_iff s hb).mp h.symm), ih, if_neg hs,
          Nat.add_zero]

/-- The rows of the threads add up to the bucket. -/
theorem sum_stored (samples : List Sample) (b : Nat) :
    ∑ k ∈ Finset.range maxAppThread, stored samples k b =
      samples.countP fun s => decide (bucket true s.elapsed = b) := by
  have hfilter : ∀ k, stored samples k b =
      (samples.filter fun s => decide (bucket true s.elapsed = b)).countP
        fun s => decide ((s.threadID : Nat) = k) := by
    intro k
    unfold stored
    rw [List.countP_filter]
    simp only [Bool.decide_and]
  simp only [hfilter]
  rw [Rank.sum_countP, List.countP_eq_length_filter (l := samples), List.countP_eq_length]
  exact fun s _ => decide_eq_true s.threadID.isLt

theorem sum_bucket (samples : List Sample) :
    ∑ b ∈ Finset.range (windows true), samples.countP (fun s => bucket true s.elapsed = b) =
      samples.length := by
  rw [Rank.sum_countP, List.countP_eq_length]
  exact fun s _ => decide_eq_true (bucket_lt s.elapsed)

theorem latencyThAll_record (samples : List Sample) (hb : b < windows true) :
    latencyThAll (record true samples) (windows true) b =
      ∑ k ∈ Finset.range maxAppThread, stored samples k b % 2 ^ 16 :=
  Finset.sum_congr rfl fun _ _ => record_apply samples hb

/-- No sum of a bucket is larger than the number of its samples. -/
theorem latencyThAll_le (samples : List Sample) (hb : b < windows true) :
    latencyThAll (record true samples) (windows true) b ≤
      samples.countP fun s => bucket true s.elapsed = b := by
  rw [latencyThAll_record samples hb, ← sum_stored]
  exact Finset.sum_le_sum fun k _ => Nat.mod_le _ _

/-- No counter has wrapped. -/
def Fits (samples : List Sample) : Prop := ∀ k b, stored samples k b < 2 ^ 16

theorem latencyThAll_eq_iff (samples : List Sample) (hb : b < windows true) :
    latencyThAll (record true samples) (windows true) b =
      samples.countP (fun s => bucket true s.elapsed = b) ↔
    ∀ k < maxAppThread, stored samples k b < 2 ^ 16 := by
  rw [latencyThAll_record samples hb, ← sum_stored,
    Finset.sum_eq_sum_iff_of_le fun k _ => Nat.mod_le _ _]
  constructor
  · intro h k hk
    rw [← h k (Finset.mem_range.mpr hk)]
    exact Nat.mod_lt _ (by decide)
  · intro h k hk
    exact Nat.mod_eq_of_lt (h k (Finset.mem_range.mp hk))

theorem stored_eq_zero (samples : List Sample) (h : ¬ (k < maxAppThread ∧ b < windows true)) :
    stored samples k b = 0 := by
  refine List.countP_eq_zero.mpr fun s _ hs => h ?_
  have hs := of_decide_eq_true hs
  rw [← hs.1, ← hs.2]
  exact ⟨s.threadID.isLt, bucket_lt s.elapsed⟩

/-- The buckets add up to the number of samples when no counter has wrapped. -/
theorem counts_iff (samples : List Sample) :
    allLat (record true samples) (windows true) = samples.length ↔ Fits samples := by
  have hle : ∀ b ∈ Finset.range (windows true),
      latencyThAll (record true samples) (windows true) b ≤
        samples.countP fun s => bucket true s.elapsed = b :=
    fun b hb => latencyThAll_le samples (Finset.mem_range.mp hb)
  rw [← sum_bucket samples, allLat, Finset.sum_eq_sum_iff_of_le hle]
  constructor
  · intro h k b
    by_cases hkb : k < maxAppThread ∧ b < windows true
    · exact (latencyThAll_eq_iff samples hkb.2).mp (h b (Finset.mem_range.mpr hkb.2)) k hkb.1
    · rw [stored_eq_zero samples hkb]
      decide
  · intro h b hb
    exact (latencyThAll_eq_iff samples (Finset.mem_range.mp hb)).mpr fun k _ => h k b

end Counters

/-! ### The walk over the buckets -/

section Scan

variable {all : Nat → Nat} {t50 t999 : Nat}

/-- The median as the loop has it before bucket `i`. -/
def Pending (all : Nat → Nat) (t50 i th50 : Nat) : Option Nat → Prop
  | none => th50 = t50 ∧ ∀ j < i, ∑ j' ∈ Finset.range (j + 1), all j' < t50
  | some a => th50 = reached ∧ Rank.Reaches all t50 a ∧ a < i

/-- One round of the loop, as far as the median goes. -/
theorem Pending.step {i th50 cum : Nat} {lat50 : Option Nat} (h : Pending all t50 i th50 lat50)
    (hcum : cum = ∑ j ∈ Finset.range (i + 1), all j) (hsmall : cum < reached) :
    Pending all t50 (i + 1) (if th50 ≤ cum then reached else th50)
      (if th50 ≤ cum then some i else lat50) := by
  cases lat50 with
  | none =>
      obtain ⟨rfl, hbefore⟩ := h
      by_cases hth : th50 ≤ cum
      · rw [if_pos hth, if_pos hth]
        exact ⟨rfl, ⟨hcum ▸ hth, hbefore⟩, Nat.lt_succ_self i⟩
      · rw [if_neg hth, if_neg hth]
        refine ⟨rfl, fun j hj => ?_⟩
        rcases Nat.lt_succ_iff_lt_or_eq.mp hj with hlt | rfl
        · exact hbefore j hlt
        · exact hcum ▸ Nat.lt_of_not_le hth
  | some a =>
      obtain ⟨rfl, hreaches, hlt⟩ := h
      rw [if_neg (Nat.not_le.mpr hsmall), if_neg (Nat.not_le.mpr hsmall)]
      exact ⟨rfl, hreaches, Nat.lt_succ_of_lt hlt⟩

/-- The loop finds the first bucket at which each of the thresholds is reached. -/
theorem scan_reaches (hle : t50 ≤ t999) (n : Nat) : ∀ i th50 lat50,
    Pending all t50 i th50 lat50 → (∀ j < i, ∑ j' ∈ Finset.range (j + 1), all j' < t999) →
    0 < i + n → t999 ≤ ∑ j ∈ Finset.range (i + n), all j →
    ∑ j ∈ Finset.range (i + n), all j < reached →
    ∃ a b, scan all t999 n i (∑ j ∈ Finset.range i, all j) th50 lat50 = (some a, some b) ∧
      Rank.Reaches all t50 a ∧ Rank.Reaches all t999 b ∧ a < i + n ∧ b < i + n := by
  induction n with
  | zero =>
      intro i th50 lat50 _ hbefore hpos htotal _
      have hlast := hbefore (i - 1) (by omega)
      rw [show i - 1 + 1 = i + 0 by omega] at hlast
      exact absurd htotal (Nat.not_le.mpr hlast)
  | succ n ih =>
      intro i th50 lat50 hpending hbefore _ htotal hsmall
      have hcum := (Finset.sum_range_succ all i).symm
      have hmono : ∑ j ∈ Finset.range (i + 1), all j ≤ ∑ j ∈ Finset.range (i + (n + 1)), all j :=
        Finset.sum_le_sum_of_subset (Finset.range_mono (by omega))
      have hnext := hpending.step hcum (by omega)
      rw [scan]
      by_cases hth : t999 ≤ ∑ j ∈ Finset.range i, all j + all i
      · rw [if_pos hth]
        cases hlat : (if th50 ≤ ∑ j ∈ Finset.range i, all j + all i then some i else lat50) with
        | none =>
            rw [hlat] at hnext
            have hlast := hnext.2 i (Nat.lt_succ_self i)
            omega
        | some a =>
            rw [hlat] at hnext
            refine ⟨a, i, rfl, hnext.2.1, ⟨hcum ▸ hth, hbefore⟩, ?_, by omega⟩
            have hlt := hnext.2.2
            omega
      · rw [if_neg hth, hcum]
        rw [hcum] at hnext hth
        rw [show i + (n + 1) = i + 1 + n by omega] at htotal hsmall ⊢
        refine ih (i + 1) _ _ hnext (fun j hj => ?_) (by omega) htotal hsmall
        rcases Nat.lt_succ_iff_lt_or_eq.mp hj with hlt | rfl
        · exact hbefore j hlt
        · exact Nat.lt_of_not_le hth

end Scan

/-! ### The statistics -/

section Statistics

variable {samples : List Sample}

theorem allLat_lt (samples : List Sample) :
    allLat (record true samples) (windows true) < reached := by
  have hrow : ∀ b ∈ Finset.range (windows true),
      latencyThAll (record true samples) (windows true) b ≤ maxAppThread * 2 ^ 16 := by
    intro b hb
    rw [latencyThAll_record samples (Finset.mem_range.mp hb)]
    refine Nat.le_trans (Finset.sum_le_card_nsmul _ _ (2 ^ 16) fun k _ => ?_) ?_
    · exact Nat.le_of_lt (Nat.mod_lt _ (by decide))
    · rw [Finset.card_range, smul_eq_mul]
  have htotal := Finset.sum_le_card_nsmul _ _ _ hrow
  rw [Finset.card_range, smul_eq_mul] at htotal
  exact Nat.lt_of_le_of_lt htotal (by decide)

/-- When no counter has wrapped, `cal_latency` returns the buckets that reach its thresholds. -/
theorem calLatency_reaches (hfits : Fits samples) :
    ∃ a b, calLatency (record true samples) (windows true) = (some a, some b) ∧
      Rank.Reaches (fun i => samples.countP fun s => bucket true s.elapsed = i)
        (samples.length / 2) a ∧
      Rank.Reaches (fun i => samples.countP fun s => bucket true s.elapsed = i)
        (999 * samples.length / 1000) b := by
  have htotal := (counts_iff samples).mpr hfits
  have hsmall := allLat_lt samples
  rw [htotal] at hsmall
  have hcal : calLatency (record true samples) (windows true) =
      scan (latencyThAll (record true samples) (windows true)) (999 * samples.length / 1000)
        (windows true) 0 0 (samples.length / 2) none := by
    rw [← htotal, Nat.mul_comm 999]
    rfl
  rw [hcal]
  have hpending : Pending (latencyThAll (record true samples) (windows true)) (samples.length / 2) 0
      (samples.length / 2) none := ⟨rfl, fun j hj => absurd hj (Nat.not_lt_zero j)⟩
  have hsum : ∑ j ∈ Finset.range (0 + windows true),
      latencyThAll (record true samples) (windows true) j = samples.length := by
    rw [Nat.zero_add]
    exact htotal
  obtain ⟨a, b, hscan, ha, hb, halt, hblt⟩ := scan_reaches
    (show samples.length / 2 ≤ 999 * samples.length / 1000 by omega) (windows true) 0
    (samples.length / 2) none hpending (fun j hj => absurd hj (Nat.not_lt_zero j)) (by decide)
    (by rw [hsum]; omega) (by rw [hsum]; exact hsmall)
  rw [Nat.zero_add] at halt hblt
  have heq : ∀ i < windows true, latencyThAll (record true samples) (windows true) i =
      samples.countP fun s => bucket true s.elapsed = i :=
    fun i hi => (latencyThAll_eq_iff samples hi).mpr fun k _ => hfits k i
  exact ⟨a, b, hscan, ha.congr fun j hj => heq j (by omega), hb.congr fun j hj => heq j (by omega)⟩

/-- The bucket that reaches `k` has the `k`-th smallest sample. -/
theorem reports_of_reaches {k i : Nat} (hk : 0 < k)
    (h : Rank.Reaches (fun i => samples.countP fun s => bucket true s.elapsed = i) k i) :
    Reports samples k (some i) := by
  obtain ⟨s, hs, hbucket⟩ := h.exists_mem hk
  have hkth := h.kth_map (g := fun s => rounded s.elapsed) (x := s) hk
    (fun y _ => hbucket ▸ bucket_lt_iff y.elapsed s.elapsed)
    (fun y _ => by
      rw [← hbucket, ← not_lt, ← not_lt]
      exact not_congr (bucket_lt_iff s.elapsed y.elapsed))
  refine ⟨i, rfl, ⟨s, hs, hbucket⟩, ?_⟩
  rw [hkth, ← hbucket, toPd_bucket]

/-- A threshold of zero is reached at once, and one sample in bucket 0 is there too. -/
theorem reaches_max {th i : Nat} (hone : 2 ≤ samples.length ∨ ∀ s ∈ samples, s.elapsed = 0)
    (hne : samples ≠ []) (hth : 2 ≤ samples.length → 0 < th)
    (h : Rank.Reaches (fun i => samples.countP fun s => bucket true s.elapsed = i) th i) :
    Rank.Reaches (fun i => samples.countP fun s => bucket true s.elapsed = i) (max 1 th) i := by
  by_cases hpos : 0 < th
  · rwa [Nat.max_eq_right hpos]
  · have hzero : th = 0 := Nat.eq_zero_of_not_pos hpos
    rw [hzero] at h ⊢
    have hall : ∀ s ∈ samples, s.elapsed = 0 := hone.resolve_left fun htwo => hpos (hth htwo)
    have hcount : samples.countP (fun s => bucket true s.elapsed = 0) = samples.length :=
      List.countP_eq_length.mpr fun s hs => decide_eq_true (bucket_zero.mpr (hall s hs))
    rw [h.eq_zero]
    refine ⟨?_, fun j hj => absurd hj (Nat.not_lt_zero j)⟩
    show max 1 0 ≤ ∑ j ∈ Finset.range 1, _
    rw [Finset.sum_range_one, hcount]
    exact List.length_pos_iff.mpr hne

/-- The value reported for a single sample is that of bucket 0. -/
theorem Faithful.zero_of_one (h : Faithful samples) (hne : samples ≠ [])
    (hone : samples.length < 2) : ∀ s ∈ samples, s.elapsed = 0 := by
  have hpos := List.length_pos_iff.mpr hne
  obtain ⟨a, b, hlats, ha, -⟩ := calLatency_reaches ((counts_iff samples).mp h.counts)
  obtain ⟨i, hi, ⟨s, hs, hbucket⟩, -⟩ := h.p50
  rw [hlats] at hi
  rw [show samples.length / 2 = 0 by omega] at ha
  have hzero : s.elapsed = 0 := by
    rw [← bucket_zero, hbucket, ← Option.some.inj hi]
    exact ha.eq_zero
  obtain ⟨x, hx⟩ := List.length_eq_one_iff.mp (show samples.length = 1 by omega)
  rw [hx] at hs ⊢
  intro y hy
  rw [List.mem_singleton.mp hy, ← List.mem_singleton.mp hs]
  exact hzero

end Statistics

/-- The statistics of the samples are right exactly when no counter has wrapped and, if there
is one sample only, it is a sample of zero. -/
theorem latency_iff (samples : List Sample) (hne : samples ≠ []) :
    Faithful samples ↔
      Fits samples ∧ (2 ≤ samples.length ∨ ∀ s ∈ samples, s.elapsed = 0) := by
  constructor
  · intro h
    have hfits := (counts_iff samples).mp h.counts
    refine ⟨hfits, ?_⟩
    by_cases htwo : 2 ≤ samples.length
    · exact Or.inl htwo
    · exact Or.inr (h.zero_of_one hne (by omega))
  · intro h
    obtain ⟨hfits, hone⟩ := h
    obtain ⟨a, b, hlats, ha, hb⟩ := calLatency_reaches hfits
    refine ⟨(counts_iff samples).mpr hfits, ?_, ?_⟩
    · rw [hlats]
      exact reports_of_reaches (by omega) (reaches_max hone hne (by omega) ha)
    · rw [hlats]
      exact reports_of_reaches (by omega) (reaches_max hone hne (by omega) hb)

/-- Three samples of two threads. -/
def threeSamples : List Sample :=
  [⟨⟨0, by decide⟩, 5⟩, ⟨⟨1, by decide⟩, 1500⟩, ⟨⟨0, by decide⟩, 7⟩]

theorem latency_three : Faithful threeSamples := by
  refine (latency_iff threeSamples (by decide)).mpr ⟨fun k b => ?_, Or.inl (by decide)⟩
  exact Nat.lt_of_le_of_lt List.countP_le_length (by decide)

/-- A single sample of 5 is reported as 0. -/
theorem latency_one_sample : ¬ Faithful [⟨⟨0, by decide⟩, 5⟩] := by
  intro h
  have hzero := h.zero_of_one (List.cons_ne_nil _ _) (by decide) _ (List.mem_singleton.mpr rfl)
  exact absurd hzero (by decide)

end Dal.Latency
