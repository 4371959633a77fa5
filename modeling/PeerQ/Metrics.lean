/-
  `LogLinearHistogram` (`peerq/metrics.py`), in exact arithmetic.

  The buckets are the cells of a log-linear numbering (`valueToIndex_eq`,
  `indexToApproxValue_eq`), up to a last one that takes in all larger values, and
  the counts are those of the recorded values (`Records`).
-/
import PeerQ.Lib.LogLinear
import PeerQ.Lib.Runs
import PeerQ.Security

namespace PeerQ

open Py

/-- The arguments of a `LogLinearHistogram` that its constructor accepts, with the text that Python
    has for a float. -/
structure LogLinearHistogram where
  subBucketBits : ℕ := 7
  maxValue : ℚ := 1000000000
  repr : ℚ → Str
  one_le_bits : 1 ≤ subBucketBits := by decide
  bits_le : subBucketBits ≤ 16 := by decide

/-- Its fields that change. -/
structure HistogramState where
  counts : List ℕ
  totalCount : ℕ := 0
  sum : ℚ := 0
  min : WithTop ℚ := ⊤
  max : ℚ := 0

namespace LogLinearHistogram

/-- The constructor. -/
def init (subBucketBits : ℤ) (maxValue : ℚ) (repr : ℚ → Str) : Except Exn LogLinearHistogram :=
  if h : subBucketBits < 1 ∨ 16 < subBucketBits then
    .error (.valueError (str "sub_bucket_bits must be between 1 and 16, got " ++
      (if subBucketBits < 0 then str "-" else []) ++ natText subBucketBits.natAbs))
  else .ok {
    subBucketBits := subBucketBits.toNat
    maxValue, repr
    one_le_bits := by omega
    bits_le := by omega }

variable (H : LogLinearHistogram)

def subBucketCount : ℕ := 1 <<< H.subBucketBits

def subBucketMask : ℕ := H.subBucketCount - 1

def linearSubRange : ℕ := H.subBucketCount

/-- The octave of the largest value; `ceil(log2(max_value))` is `maxOctave_eq_ceil`. -/
def maxOctave : ℕ :=
  if H.linearSubRange < H.maxValue then Nat.clog 2 ⌈H.maxValue⌉₊ else H.subBucketBits

def octaveCount : ℕ := Max.max 1 (H.maxOctave - H.subBucketBits + 1)

def totalBuckets : ℕ := H.linearSubRange + H.octaveCount * H.subBucketCount

def initial : HistogramState where
  counts := List.replicate H.totalBuckets 0

def valueToIndex (value : ℚ) : ℕ :=
  if value < H.linearSubRange then ⌊value⌋₊
  else
    let valInt := ⌊value⌋₊
    -- `bit_length() - 1`
    let octave := Nat.log 2 valInt
    let octaveIndex := octave - H.subBucketBits
    let subIndex := valInt >>> (octave - H.subBucketBits) &&& H.subBucketMask
    Min.min (H.linearSubRange + octaveIndex * H.subBucketCount + subIndex) (H.totalBuckets - 1)

def indexToApproxValue (index : ℕ) : ℚ :=
  if index < H.linearSubRange then index + 1 / 2
  else
    let offset := index - H.linearSubRange
    let octaveIndex := offset / H.subBucketCount
    let subIndex := offset % H.subBucketCount
    let octave := octaveIndex + H.subBucketBits
    let base := 1 <<< octave
    let bucketWidth := 1 <<< (octave - H.subBucketBits)
    (base : ℕ) + subIndex * (bucketWidth : ℕ) + (bucketWidth : ℕ) / 2

def record (s : HistogramState) (value : ℚ) : Except Exn HistogramState :=
  if value < 0 then
    .error (.valueError (str "Histogram values must be non-negative, got " ++ H.repr value))
  else .ok {
    counts := s.counts.modify (H.valueToIndex value) (· + 1)
    totalCount := s.totalCount + 1
    sum := s.sum + value
    min := if value < s.min then value else s.min
    max := if s.max < value then value else s.max }

/-- A call of `record`; one that raises changes nothing. -/
def step (s : HistogramState) (value : ℚ) : HistogramState := (H.record s value).toOption.getD s

/-- The histogram after calls of `record`. -/
def recorded (values : List ℚ) : HistogramState := run H.step H.initial values

/-- The loop of `quantile`: the first index at which the counts reach the target. -/
def seek (target : ℤ) : List ℕ → ℕ → ℕ → Option ℕ
  | [], _, _ => none
  | count :: counts, idx, cumulative =>
    if target ≤ (cumulative + count : ℕ) then some idx
    else seek target counts (idx + 1) (cumulative + count)

def quantile (s : HistogramState) (q : ℚ) : WithTop ℚ :=
  if s.totalCount = 0 then (0 : ℚ)
  else if q ≤ 0 then s.min
  else if 1 ≤ q then s.max
  else
    match seek ⌈q * s.totalCount⌉ s.counts 0 0 with
    | some idx => Max.max s.min (Min.min (s.max : WithTop ℚ) (H.indexToApproxValue idx))
    | none => s.max

/-! ## The buckets -/

variable {H}

@[simp] theorem subBucketCount_eq : H.subBucketCount = 2 ^ H.subBucketBits := Nat.one_shiftLeft _

@[simp] theorem linearSubRange_eq : H.linearSubRange = 2 ^ H.subBucketBits := Nat.one_shiftLeft _

/-- The octave of the largest value, as the source computes it. -/
theorem maxOctave_eq_ceil (h : H.linearSubRange < H.maxValue) :
    (H.maxOctave : ℤ) = ⌈Real.logb 2 H.maxValue⌉ := by
  have hpos : (1 : ℚ) ≤ H.maxValue := by
    refine le_trans ?_ h.le
    rw [linearSubRange_eq]
    exact_mod_cast Nat.one_le_two_pow
  have hreal : (1 : ℝ) ≤ (H.maxValue : ℝ) := by exact_mod_cast hpos
  have hceil : ⌈(H.maxValue : ℝ)⌉₊ = ⌈H.maxValue⌉₊ := by
    rw [← Int.ceil_toNat, ← Int.ceil_toNat, Rat.ceil_cast]
  rw [maxOctave, if_pos h]
  have := Real.ceil_logb_natCast (b := 2) (zero_le_one.trans hreal)
  rw [Nat.cast_ofNat] at this
  rw [this, Int.clog_of_one_le_right _ hreal, hceil]

theorem le_maxOctave : H.subBucketBits ≤ H.maxOctave := by
  unfold maxOctave
  split_ifs with h
  · rw [linearSubRange_eq, Nat.cast_pow, Nat.cast_ofNat] at h
    have hlt : 2 ^ H.subBucketBits < ⌈H.maxValue⌉₊ := Nat.lt_ceil.2 (by push_cast; exact h)
    exact ((Nat.lt_clog_iff_pow_lt one_lt_two).2 hlt).le
  · exact le_rfl

theorem totalBuckets_eq :
    H.totalBuckets = (H.maxOctave - H.subBucketBits + 2) * 2 ^ H.subBucketBits := by
  have := le_maxOctave (H := H)
  rw [totalBuckets, octaveCount, max_eq_right (by omega), linearSubRange_eq, subBucketCount_eq]
  ring

/-- **The bucket of a value** is its cell, or the last one. -/
theorem valueToIndex_eq (value : ℚ) : H.valueToIndex value =
    Min.min (LogLinear.cell H.subBucketBits ⌊value⌋₊) (H.totalBuckets - 1) := by
  have htotal := totalBuckets_eq (H := H)
  rw [add_mul] at htotal
  unfold valueToIndex
  rw [linearSubRange_eq, subBucketCount_eq, Nat.cast_pow, Nat.cast_ofNat]
  split_ifs with hlt
  · have hfloor : ⌊value⌋₊ < 2 ^ H.subBucketBits := by
      rw [Nat.floor_lt' (Nat.two_pow_pos _).ne']
      push_cast
      exact hlt
    rw [LogLinear.cell_of_lt (hfloor.trans (Nat.pow_lt_pow_right one_lt_two (by omega))),
      min_eq_left (by omega)]
  · have hfloor : 2 ^ H.subBucketBits ≤ ⌊value⌋₊ := Nat.le_floor (by push_cast; exact not_lt.1 hlt)
    have hle := LogLinear.le_div_shift hfloor
    have hlt' := LogLinear.div_shift_lt (B := H.subBucketBits) ⌊value⌋₊
    rw [pow_succ] at hlt'
    -- The mask takes off the highest bit of the quotient.
    have hsub : ⌊value⌋₊ >>> (Nat.log 2 ⌊value⌋₊ - H.subBucketBits) &&& H.subBucketMask =
        ⌊value⌋₊ / 2 ^ LogLinear.shift H.subBucketBits ⌊value⌋₊ - 2 ^ H.subBucketBits := by
      rw [subBucketMask, subBucketCount_eq, Nat.shiftRight_eq_div_pow,
        Nat.and_two_pow_sub_one_eq_mod, ← LogLinear.shift, Nat.mod_eq_sub_mod hle]
      exact Nat.mod_eq_of_lt (by omega)
    simp only [hsub]
    rw [LogLinear.cell, ← LogLinear.shift]
    congr 1
    omega

/-- **The value of a bucket** is its centre. -/
theorem indexToApproxValue_eq (index : ℕ) :
    H.indexToApproxValue index = LogLinear.centre H.subBucketBits index := by
  unfold indexToApproxValue LogLinear.centre
  rw [linearSubRange_eq, subBucketCount_eq]
  split_ifs with hlt
  · have hexp : LogLinear.exponent H.subBucketBits index = 0 := by
      rw [LogLinear.exponent, Nat.div_eq_of_lt hlt]
    rw [LogLinear.mantissa, hexp]
    simp
  · have hexp : (index - 2 ^ H.subBucketBits) / 2 ^ H.subBucketBits =
        LogLinear.exponent H.subBucketBits index := by
      rw [LogLinear.exponent, ← Nat.sub_mul_div _ _ 1, mul_one]
    have hmant : LogLinear.mantissa H.subBucketBits index =
        2 ^ H.subBucketBits + (index - 2 ^ H.subBucketBits) % 2 ^ H.subBucketBits := by
      have hdiv := Nat.div_add_mod (index - 2 ^ H.subBucketBits) (2 ^ H.subBucketBits)
      have hsum := LogLinear.exponent_add_mantissa (B := H.subBucketBits) index
      rw [hexp, mul_comm] at hdiv
      omega
    simp only [hexp, hmant, Nat.one_shiftLeft, Nat.add_sub_cancel]
    push_cast
    ring

theorem valueToIndex_lt (value : ℚ) : H.valueToIndex value < H.totalBuckets := by
  have hpos : 0 < H.totalBuckets := by
    rw [totalBuckets_eq]
    positivity
  rw [valueToIndex_eq]
  omega

theorem valueToIndex_mono : Monotone H.valueToIndex := by
  intro v w h
  rw [valueToIndex_eq, valueToIndex_eq]
  exact min_le_min_right _ (LogLinear.cell_mono (Nat.floor_mono h))

theorem indexToApproxValue_mono : Monotone H.indexToApproxValue := by
  intro i j h
  rw [indexToApproxValue_eq, indexToApproxValue_eq]
  exact LogLinear.centre_mono h

/-- Values up to `max_value` do not come into the last bucket by its bound. -/
theorem valueToIndex_of_le {value : ℚ} (h : 0 ≤ value) (hmax : value ≤ H.maxValue) :
    H.valueToIndex value = LogLinear.cell H.subBucketBits ⌊value⌋₊ := by
  have hfloor : ⌊value⌋₊ < 2 ^ (H.maxOctave + 1) := by
    rw [Nat.floor_lt h, pow_succ]
    push_cast
    have hle : value ≤ 2 ^ H.maxOctave := by
      unfold maxOctave
      split_ifs with hrange
      · have := Nat.le_pow_clog one_lt_two ⌈H.maxValue⌉₊
        exact (hmax.trans (Nat.le_ceil _)).trans (by exact_mod_cast this)
      · rw [linearSubRange_eq, Nat.cast_pow, Nat.cast_ofNat, not_lt] at hrange
        exact hmax.trans hrange
    have : (0 : ℚ) < 2 ^ H.maxOctave := by positivity
    linarith
  have hcell := LogLinear.cell_lt (B := H.subBucketBits) hfloor
  rw [← totalBuckets_eq] at hcell
  rw [valueToIndex_eq]
  omega

/-- **The buckets partition the range**: every value has one, larger values have no earlier one, and
    the centre of each is in it. -/
theorem buckets_partition (H : LogLinearHistogram) :
    (∀ value, H.valueToIndex value < H.initial.counts.length) ∧ Monotone H.valueToIndex ∧
      ∀ i < H.initial.counts.length, H.valueToIndex (H.indexToApproxValue i) = i := by
  have hlength : H.initial.counts.length = H.totalBuckets := List.length_replicate
  rw [hlength]
  refine ⟨valueToIndex_lt, valueToIndex_mono, fun i hi => ?_⟩
  rw [valueToIndex_eq, indexToApproxValue_eq, LogLinear.cell_centre]
  exact min_eq_left (Nat.le_sub_one_of_lt hi)

/-- The first bucket beyond the linear ones. -/
theorem buckets_partition_octave :
    let H : LogLinearHistogram := { repr := fun _ => [] }
    H.valueToIndex (H.indexToApproxValue 128) = 128 := by
  intro H
  have hlength : H.initial.counts.length = H.totalBuckets := List.length_replicate
  have htotal : H.totalBuckets = (H.maxOctave - 7 + 2) * 128 := totalBuckets_eq
  exact (buckets_partition H).2.2 128 (by omega)

/-! ## The counts -/

theorem sum_take_modify : ∀ (counts : List ℕ) {k : ℕ} (n : ℕ), k < counts.length →
    ((counts.modify k (· + 1)).take n).sum = (counts.take n).sum + if k < n then 1 else 0
  | [], _, _, h => absurd h (Nat.not_lt_zero _)
  | _ :: _, _, 0, _ => by simp
  | c :: counts, 0, n + 1, _ => by
    simp
    omega
  | c :: counts, k + 1, n + 1, h => by
    have ih := sum_take_modify counts (k := k) n (by simpa using h)
    simp only [List.modify_succ_cons, List.take_succ_cons, List.sum_cons, ih,
      Nat.add_lt_add_iff_right]
    omega

variable (H) in
/-- What a histogram of these values holds. -/
structure Records (values : List ℚ) (s : HistogramState) : Prop where
  length : s.counts.length = H.totalBuckets
  counts : ∀ i, (s.counts.take (i + 1)).sum = values.countP (H.valueToIndex · ≤ i)
  total : s.totalCount = values.length
  min : s.min = values.minimum
  max : (s.max : WithBot ℚ) = Max.max ((0 : ℚ) : WithBot ℚ) values.maximum

theorem records_initial : H.Records [] H.initial where
  length := List.length_replicate
  counts i := by simp [initial]
  total := rfl
  min := rfl
  max := rfl

theorem Records.record {values : List ℚ} {s : HistogramState} (h : H.Records values s) {value : ℚ}
    (hvalue : 0 ≤ value) : H.Records (values ++ [value]) (H.step s value) := by
  have hstep : H.step s value = {
      counts := s.counts.modify (H.valueToIndex value) (· + 1)
      totalCount := s.totalCount + 1
      sum := s.sum + value
      min := if value < s.min then value else s.min
      max := if s.max < value then value else s.max } := by
    rw [step, LogLinearHistogram.record, if_neg (not_lt.2 hvalue)]
    rfl
  rw [hstep]
  refine ⟨?_, fun i => ?_, ?_, ?_, ?_⟩
  · rw [List.length_modify, h.length]
  · rw [sum_take_modify _ _ (h.length ▸ valueToIndex_lt value), h.counts]
    simp
  · rw [h.total, List.length_append, List.length_singleton]
  · rw [List.minimum_concat, ← h.min, min_comm, min_def_lt]
  · rw [List.maximum_concat, ← max_assoc, ← h.max, ← WithBot.coe_max, max_def_lt]

theorem records_recorded {values : List ℚ} (h : ∀ v ∈ values, 0 ≤ v) :
    H.Records values (H.recorded values) := by
  induction values using List.reverseRecOn with
  | nil => exact records_initial
  | append_singleton values value ih =>
    rw [recorded, run_concat]
    exact (ih fun v hv => h v (by simp [hv])).record (h value (by simp))

end LogLinearHistogram

end PeerQ
