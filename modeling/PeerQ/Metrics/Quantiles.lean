/-
  Quantiles of a `LogLinearHistogram`.

  The loop of `quantile` stops at the bucket of the value of that rank
  (`quantile_eq`): buckets are monotone in the values, so their counts tell ranks.
  From this, the error is that of a bucket's centre (`quantile_error`) and quantiles
  are ordered (`quantile_mono`).
-/
import PeerQ.Lib.Ranks
import PeerQ.Metrics

namespace PeerQ

open Py

namespace LogLinearHistogram

variable {H : LogLinearHistogram} {values : List ℚ} {q : ℚ}

/-- The loop stops at the first index at which the counts reach the target. -/
theorem seek_eq {target : ℤ} : ∀ {counts : List ℕ} {idx cumulative j : ℕ}, j < counts.length →
    target ≤ (cumulative + (counts.take (j + 1)).sum : ℕ) →
    (∀ i < j, (cumulative + (counts.take (i + 1)).sum : ℕ) < target) →
    seek target counts idx cumulative = some (idx + j)
  | count :: counts, idx, cumulative, 0, _, hreach, _ => by
    rw [seek, if_pos (by simpa using hreach), Nat.add_zero]
  | count :: counts, idx, cumulative, j + 1, hj, hreach, hbefore => by
    have hfirst : ¬ target ≤ (cumulative + count : ℕ) := by
      simpa using hbefore 0 (Nat.succ_pos j)
    rw [seek, if_neg hfirst, seek_eq (j := j) (by simpa using hj)]
    · rw [Nat.add_right_comm, Nat.add_assoc]
    · simpa [Nat.add_assoc] using hreach
    · intro i hi
      simpa [Nat.add_assoc] using hbefore (i + 1) (by omega)

/-- The rank that `quantile` looks for, counted from zero. -/
def rank (values : List ℚ) (q : ℚ) : ℕ := ⌈q * values.length⌉.toNat - 1

theorem rank_lt (hne : values ≠ []) (h0 : 0 < q) (h1 : q < 1) :
    rank values q < values.length ∧ ⌈q * values.length⌉ = rank values q + 1 := by
  have hlen : (0 : ℚ) < values.length := by
    exact_mod_cast List.length_pos_of_ne_nil hne
  have hpos : 0 < ⌈q * values.length⌉ := Int.ceil_pos.2 (mul_pos h0 hlen)
  have hle : ⌈q * values.length⌉ ≤ values.length :=
    Int.ceil_le.2 (by push_cast; nlinarith)
  rw [rank]
  omega

theorem rank_mono {q₁ q₂ : ℚ} (h : q₁ ≤ q₂) : rank values q₁ ≤ rank values q₂ := by
  have hceil : ⌈q₁ * values.length⌉ ≤ ⌈q₂ * values.length⌉ :=
    Int.ceil_le_ceil (mul_le_mul_of_nonneg_right h (Nat.cast_nonneg _))
  rw [rank, rank]
  omega

theorem totalCount_ne_zero (hne : values ≠ []) (hvalues : ∀ v ∈ values, 0 ≤ v) :
    (H.recorded values).totalCount ≠ 0 := by
  rw [(records_recorded hvalues).total]
  exact (List.length_pos_of_ne_nil hne).ne'

/-- The least and the greatest value are kept exactly. -/
theorem extremes (hne : values ≠ []) (hvalues : ∀ v ∈ values, 0 ≤ v) :
    ∃ lo hi, IsLeast {v | v ∈ values} lo ∧ IsGreatest {v | v ∈ values} hi ∧
      (H.recorded values).min = lo ∧ (H.recorded values).max = hi := by
  obtain ⟨lo, hlo⟩ := WithTop.ne_top_iff_exists.1 (List.minimum_ne_top_of_ne_nil hne)
  obtain ⟨hi, hhi⟩ := WithBot.ne_bot_iff_exists.1 (List.maximum_ne_bot_of_ne_nil hne)
  have hrecords := records_recorded (H := H) hvalues
  have hleast := List.minimum_eq_coe_iff.1 hlo.symm
  have hgreatest := List.maximum_eq_coe_iff.1 hhi.symm
  refine ⟨lo, hi, hleast, hgreatest, hrecords.min.trans hlo.symm, ?_⟩
  have hmax := hrecords.max
  rw [← hhi, ← WithBot.coe_max, max_eq_right (hvalues hi hgreatest.1)] at hmax
  exact WithBot.coe_inj.1 hmax

/-- **Where `quantile` stops**: at the bucket of the value of the rank. -/
theorem quantile_eq (hne : values ≠ []) (hvalues : ∀ v ∈ values, 0 ≤ v) (h0 : 0 < q) (h1 : q < 1) :
    ∃ x, nthSmallest values (rank values q) = some x ∧
      H.quantile (H.recorded values) q = max (H.recorded values).min
        (min ((H.recorded values).max : WithTop ℚ) (H.indexToApproxValue (H.valueToIndex x))) := by
  have hrecords := records_recorded (H := H) hvalues
  obtain ⟨hrank, hceil⟩ := rank_lt hne h0 h1
  obtain ⟨x, hx⟩ := exists_nthSmallest hrank
  obtain ⟨hreach, hbefore⟩ := countP_nthSmallest (valueToIndex_mono (H := H)) hx
  have hseek : seek ⌈q * (H.recorded values).totalCount⌉ (H.recorded values).counts 0 0 =
      some (0 + H.valueToIndex x) := by
    rw [hrecords.total, hceil]
    refine seek_eq (hrecords.length ▸ valueToIndex_lt x) ?_ fun i hi => ?_
    · rw [hrecords.counts]
      omega
    · have := hbefore i hi
      rw [hrecords.counts]
      omega
  refine ⟨x, hx, ?_⟩
  rw [quantile, if_neg (totalCount_ne_zero hne hvalues), if_neg (not_le.2 h0), if_neg (not_le.2 h1),
    hseek, Nat.zero_add]

theorem quantile_of_nonpos (hne : values ≠ []) (hvalues : ∀ v ∈ values, 0 ≤ v) (h : q ≤ 0) :
    H.quantile (H.recorded values) q = (H.recorded values).min := by
  rw [quantile, if_neg (totalCount_ne_zero hne hvalues), if_pos h]

theorem quantile_of_one_le (hne : values ≠ []) (hvalues : ∀ v ∈ values, 0 ≤ v) (h : 1 ≤ q) :
    H.quantile (H.recorded values) q = (H.recorded values).max := by
  rw [quantile, if_neg (totalCount_ne_zero hne hvalues), if_neg (by linarith), if_pos h]

/-- Clamping brings a value no farther from one within the bounds. -/
theorem abs_clamp_sub_le {lo hi a x : ℚ} (hlo : lo ≤ x) (hhi : x ≤ hi) :
    |max lo (min hi a) - x| ≤ |a - x| := by
  have hx : max lo (min hi x) = x := by rw [min_eq_right hhi, max_eq_right hlo]
  calc |max lo (min hi a) - x| = |max lo (min hi a) - max lo (min hi x)| := by rw [hx]
    _ ≤ |min hi a - min hi x| := by
        simpa using abs_max_sub_max_le_max lo (min hi a) lo (min hi x)
    _ ≤ |a - x| := by simpa using abs_min_sub_min_le_max hi a hi x

/-- **The error of a quantile**: it is within half a bucket of the value of that rank, and between
    the least and the greatest value. -/
theorem quantile_error (hne : values ≠ []) (hvalues : ∀ v ∈ values, 0 ≤ v ∧ v ≤ H.maxValue)
    (h0 : 0 < q) (h1 : q < 1) :
    ∃ x y lo hi : ℚ, nthSmallest values (⌈q * values.length⌉.toNat - 1) = some x ∧
      H.quantile (H.recorded values) q = y ∧
      |y - x| ≤ (if 2 ^ H.subBucketBits ≤ x then x / 2 ^ (H.subBucketBits + 1) else 1 / 2) ∧
      IsLeast {v | v ∈ values} lo ∧ IsGreatest {v | v ∈ values} hi ∧ lo ≤ y ∧ y ≤ hi := by
  have hnonneg : ∀ v ∈ values, 0 ≤ v := fun v hv => (hvalues v hv).1
  obtain ⟨lo, hi, hleast, hgreatest, hmin, hmax⟩ := extremes (H := H) hne hnonneg
  obtain ⟨x, hx, hq⟩ := quantile_eq (H := H) hne hnonneg h0 h1
  have hmem := mem_of_nthSmallest hx
  rw [hmin, hmax, ← WithTop.coe_min, ← WithTop.coe_max] at hq
  refine ⟨x, _, lo, hi, hx, hq, ?_, hleast, hgreatest, le_max_left _ _, ?_⟩
  · refine (abs_clamp_sub_le (hleast.2 hmem) (hgreatest.2 hmem)).trans ?_
    rw [indexToApproxValue_eq, valueToIndex_of_le (hvalues x hmem).1 (hvalues x hmem).2]
    exact LogLinear.abs_centre_sub_le (hvalues x hmem).1
  · exact max_le (hleast.2 hgreatest.1) (min_le_left _ _)

namespace Sample

/-- The default histogram; no text of a float is needed. -/
def histogram : LogLinearHistogram where
  repr _ := []

/-- One of the values is larger than `max_value`. -/
def overflow : List ℚ := [2, 10 ^ 12]

end Sample

theorem quantile_error_median :
    ∃ x y lo hi : ℚ, nthSmallest [1, 1000, 200] (⌈(1 / 2 : ℚ) * 3⌉.toNat - 1) = some x ∧
      Sample.histogram.quantile (Sample.histogram.recorded [1, 1000, 200]) (1 / 2) = y ∧
      |y - x| ≤ (if 2 ^ 7 ≤ x then x / 2 ^ 8 else 1 / 2) ∧
      IsLeast {v | v ∈ [1, 1000, 200]} lo ∧ IsGreatest {v | v ∈ [1, 1000, 200]} hi ∧
      lo ≤ y ∧ y ≤ hi :=
  quantile_error (H := Sample.histogram) (by simp) (by norm_num [Sample.histogram]) (by norm_num)
    (by norm_num)

/-- **Quantiles are ordered**, with the exact extremes at the ends. -/
theorem quantile_mono (hne : values ≠ []) (hvalues : ∀ v ∈ values, 0 ≤ v) :
    (∀ q₁ q₂, q₁ ≤ q₂ →
      H.quantile (H.recorded values) q₁ ≤ H.quantile (H.recorded values) q₂) ∧
    ∃ lo hi, IsLeast {v | v ∈ values} lo ∧ IsGreatest {v | v ∈ values} hi ∧
      (∀ q ≤ 0, H.quantile (H.recorded values) q = lo) ∧
      ∀ q, 1 ≤ q → H.quantile (H.recorded values) q = hi := by
  obtain ⟨lo, hi, hleast, hgreatest, hmin, hmax⟩ := extremes (H := H) hne hvalues
  have hlow : ∀ q ≤ 0, H.quantile (H.recorded values) q = lo :=
    fun q h => (quantile_of_nonpos hne hvalues h).trans hmin
  have hhigh : ∀ q, 1 ≤ q → H.quantile (H.recorded values) q = hi :=
    fun q h => (quantile_of_one_le hne hvalues h).trans (by rw [hmax])
  have hle : (lo : WithTop ℚ) ≤ hi := WithTop.coe_le_coe.2 (hleast.2 hgreatest.1)
  -- Inside, a quantile is between the extremes.
  have hinside : ∀ q, 0 < q → q < 1 → (lo : WithTop ℚ) ≤ H.quantile (H.recorded values) q ∧
      H.quantile (H.recorded values) q ≤ hi := by
    intro q h0 h1
    obtain ⟨x, -, hq⟩ := quantile_eq (H := H) hne hvalues h0 h1
    rw [hq, hmin, hmax]
    exact ⟨le_max_left _ _, max_le hle (min_le_left _ _)⟩
  have hbounds : ∀ q, (lo : WithTop ℚ) ≤ H.quantile (H.recorded values) q ∧
      H.quantile (H.recorded values) q ≤ hi := by
    intro q
    obtain h0 | h0 := le_or_gt q 0
    · rw [hlow q h0]
      exact ⟨le_rfl, hle⟩
    obtain h1 | h1 := le_or_gt 1 q
    · rw [hhigh q h1]
      exact ⟨hle, le_rfl⟩
    exact hinside q h0 h1
  refine ⟨fun q₁ q₂ h => ?_, lo, hi, hleast, hgreatest, hlow, hhigh⟩
  obtain h0 | h0 := le_or_gt q₁ 0
  · rw [hlow q₁ h0]
    exact (hbounds q₂).1
  obtain h1 | h1 := le_or_gt 1 q₂
  · rw [hhigh q₂ h1]
    exact (hbounds q₁).2
  obtain ⟨x₁, hx₁, hq₁⟩ := quantile_eq (H := H) hne hvalues h0 (h.trans_lt h1)
  obtain ⟨x₂, hx₂, hq₂⟩ := quantile_eq (H := H) hne hvalues (h0.trans_le h) h1
  have hx := nthSmallest_mono (rank_mono h) hx₁ hx₂
  rw [hq₁, hq₂]
  refine max_le_max_left _ (min_le_min_left _ (WithTop.coe_le_coe.2 ?_))
  exact indexToApproxValue_mono (valueToIndex_mono hx)

theorem quantile_mono_overflow :
    (∀ q₁ q₂, q₁ ≤ q₂ →
      Sample.histogram.quantile (Sample.histogram.recorded Sample.overflow) q₁ ≤
        Sample.histogram.quantile (Sample.histogram.recorded Sample.overflow) q₂) ∧
    ∃ lo hi, IsLeast {v | v ∈ Sample.overflow} lo ∧ IsGreatest {v | v ∈ Sample.overflow} hi ∧
      (∀ q ≤ 0, Sample.histogram.quantile (Sample.histogram.recorded Sample.overflow) q = lo) ∧
      ∀ q, 1 ≤ q → Sample.histogram.quantile (Sample.histogram.recorded Sample.overflow) q = hi :=
  quantile_mono (List.cons_ne_nil _ _) (by norm_num [Sample.overflow])

end LogLinearHistogram

end PeerQ
