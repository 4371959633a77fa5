/-
  The φ-accrual failure detector (`peerq/failure.py`), in exact arithmetic.

  A peer is suspected once its silence is long against the normal distribution
  fitted to the last intervals between its heartbeats.  `suspicion_monotone_complete`:
  a silent peer that is suspected stays so, and one that stays silent is suspected
  in the end exactly if its window holds enough intervals.
-/
import PeerQ.Lib.Runs
import PeerQ.Security

namespace PeerQ

open Py Filter Topology

/-- The functions of `math` that the detector uses. -/
structure MathFunctions (K : Type) where
  sqrt : K → K
  erfc : K → K
  log10 : K → K

inductive ArithmeticError where
  | zeroDivisionError
  deriving DecidableEq

/-- The arguments of a `PhiAccrualDetector`; the clock is read by its callers. -/
structure PhiAccrualDetector (K : Type) [Field K] where
  windowSize : ℕ := 1000
  minSamples : ℤ := 5
  varianceFloor : K := 1 / 10000
  math : MathFunctions K

/-- Its fields that change. -/
structure DetectorState (K : Type) where
  intervals : Dict Str (List K) := .empty
  lastHeartbeat : Dict Str K := .empty

namespace PhiAccrualDetector

section
variable {K : Type} [Field K] (D : PhiAccrualDetector K)

/-- `append` to a `deque` with `maxlen`. -/
def append (window : List K) (delta : K) : List K :=
  (window ++ [delta]).drop (window.length + 1 - D.windowSize)

/-- A window of the last elements takes in another one. -/
theorem append_window (g : List K) (x : K) :
    D.append (g.drop (g.length - D.windowSize)) x =
      (g ++ [x]).drop ((g ++ [x]).length - D.windowSize) := by
  simp only [append, List.length_drop, List.length_append, List.length_singleton]
  rw [← List.drop_append_of_le_length (Nat.sub_le _ _), List.drop_drop]
  congr 1
  omega

variable [LinearOrder K]

def heartbeat (s : DetectorState K) (peerId : Str) (now : K) : DetectorState K where
  intervals :=
    match s.lastHeartbeat.get peerId with
    | none => s.intervals
    | some last =>
      let delta := now - last
      if 0 < delta then
        s.intervals.set peerId (D.append ((s.intervals.get peerId).getD []) delta)
      else s.intervals
  lastHeartbeat := s.lastHeartbeat.set peerId now

def mean (window : List K) : K := window.sum / window.length

def variance (window : List K) : K :=
  (window.map fun x => (x - mean window) ^ 2).sum / window.length

def stdDev (window : List K) : K := D.math.sqrt (max (variance window) D.varianceFloor)

/-- What the deviation from the mean is divided by. -/
def scale (window : List K) : K := D.stdDev window * D.math.sqrt 2

def pLater (window : List K) (timeSinceLast : K) : K :=
  max (1 / 2 * D.math.erfc ((timeSinceLast - mean window) / D.scale window)) (1 / 10 ^ 100)

/-- The suspicion level of a fitted window. -/
def phiVal (window : List K) (timeSinceLast : K) : K :=
  max 0 (-D.math.log10 (D.pLater window timeSinceLast))

def phi (s : DetectorState K) (peerId : Str) (now : K) : Except ArithmeticError (WithTop K) :=
  match s.lastHeartbeat.get peerId with
  | none => .ok ⊤
  | some last =>
    match s.intervals.get peerId with
    | none => .ok (0 : K)
    | some window =>
      if (window.length : ℤ) < D.minSamples then .ok (0 : K)
      else if now - last ≤ 0 then .ok (0 : K)
      else if window = [] ∨ D.scale window = 0 then .error .zeroDivisionError
      else .ok (D.phiVal window (now - last))

def isSuspected (s : DetectorState K) (peerId : Str) (threshold now : K) :
    Except ArithmeticError Bool :=
  (D.phi s peerId now).map fun phi => decide ((threshold : WithTop K) ≤ phi)

/-- The default of `threshold`. -/
def threshold : K := 8

/-- The state after heartbeats of peers at times. -/
def after (es : List (Str × K)) : DetectorState K := run (fun s e => D.heartbeat s e.1 e.2) {} es

/-! ## The window -/

/-- The times of a peer's heartbeats. -/
def arrivals (peer : Str) (es : List (Str × K)) : List K :=
  (es.filter (·.1 = peer)).map Prod.snd

/-- The positive intervals between the heartbeats that follow one another. -/
def gaps : List K → List K
  | [] => []
  | [_] => []
  | a :: b :: l => if 0 < b - a then (b - a) :: gaps (b :: l) else gaps (b :: l)

theorem gaps_concat (l : List K) (t : K) : gaps (l ++ [t]) = gaps l ++
    match l.getLast? with
    | none => []
    | some a => if 0 < t - a then [t - a] else [] := by
  induction l using gaps.induct with
  | case1 => rfl
  | case2 a =>
    simp only [List.cons_append, List.nil_append, gaps, List.getLast?_singleton]
  | case3 a b l hpos ih =>
    rw [List.getLast?_cons_cons, List.cons_append, List.cons_append, gaps, if_pos hpos, gaps,
      if_pos hpos, ← List.cons_append, ih, List.cons_append]
  | case4 a b l hpos ih =>
    rw [List.getLast?_cons_cons, List.cons_append, List.cons_append, gaps, if_neg hpos, gaps,
      if_neg hpos, ← List.cons_append, ih]

/-- **The window of a peer**: the last positive intervals between its heartbeats. -/
theorem after_window (peer : Str) (es : List (Str × K)) :
    (D.after es).lastHeartbeat.get peer = (arrivals peer es).getLast? ∧
      (D.after es).intervals.get peer =
        let g := gaps (arrivals peer es)
        if g = [] then none else some (g.drop (g.length - D.windowSize)) := by
  induction es using List.reverseRecOn with
  | nil => exact ⟨rfl, rfl⟩
  | append_singleton es e ih =>
    obtain ⟨p, t⟩ := e
    obtain ⟨hlast, hwindow⟩ := ih
    have hrun : D.after (es ++ [(p, t)]) = D.heartbeat (D.after es) p t := run_concat _ _ _ _
    rw [hrun]
    by_cases hp : p = peer
    · subst hp
      have harr : arrivals p (es ++ [(p, t)]) = arrivals p es ++ [t] := by simp [arrivals]
      rw [harr, gaps_concat]
      refine ⟨by simp [heartbeat], ?_⟩
      simp only [heartbeat, hlast]
      cases hl : (arrivals p es).getLast? with
      | none => simpa [hl] using hwindow
      | some last =>
        by_cases hpos : 0 < t - last
        · simp only [hpos, if_true, Dict.get_set_self, hwindow]
          have hne : gaps (arrivals p es) ++ [t - last] ≠ [] := by simp
          rw [if_neg hne, ← append_window]
          split_ifs with hnil
          · simp [hnil]
          · rfl
        · simp only [hpos, if_false, List.append_nil]
          exact hwindow
    · have harr : arrivals peer (es ++ [(p, t)]) = arrivals peer es := by simp [arrivals, hp]
      rw [harr]
      refine ⟨by simpa [heartbeat, Dict.get_set_ne _ _ hp] using hlast, ?_⟩
      rw [← hwindow]
      simp only [heartbeat]
      split
      · rfl
      · split_ifs
        · rw [Dict.get_set_ne _ _ hp]
        · rfl

/-- The number of intervals in a peer's window. -/
def samples (peer : Str) (es : List (Str × K)) : ℕ :=
  min D.windowSize (gaps (arrivals peer es)).length

theorem length_window {peer : Str} {es : List (Str × K)} {window : List K}
    (h : (D.after es).intervals.get peer = some window) : window.length = D.samples peer es := by
  rw [(D.after_window peer es).2] at h
  simp only at h
  split_ifs at h with hnil
  obtain rfl := Option.some.inj h
  rw [List.length_drop, samples]
  omega

theorem exists_window {peer : Str} {es : List (Str × K)} (h : 0 < D.samples peer es) :
    ∃ window, (D.after es).intervals.get peer = some window := by
  have hne : gaps (arrivals peer es) ≠ [] := by
    rintro hnil
    simp [samples, hnil] at h
  exact ⟨_, (D.after_window peer es).2.trans (if_neg hne)⟩

theorem exists_lastHeartbeat {peer : Str} {es : List (Str × K)} (h : peer ∈ es.map Prod.fst) :
    ∃ last, (D.after es).lastHeartbeat.get peer = some last := by
  obtain ⟨⟨p, t⟩, he, rfl⟩ := List.mem_map.1 h
  have hmem : t ∈ arrivals p es := List.mem_map.2 ⟨(p, t), by simp [he], rfl⟩
  exact ⟨_, (D.after_window p es).1.trans (List.getLast?_eq_some_getLast (List.ne_nil_of_mem hmem))⟩

/-! ## Suspicion -/

variable {D} {s : DetectorState K} {peer : Str} {t t' : K}

/-- When a peer is suspected. -/
theorem isSuspected_iff [IsStrictOrderedRing K] {threshold : K} (hpos : 0 < threshold) :
    D.isSuspected s peer threshold t = .ok true ↔
      s.lastHeartbeat.get peer = none ∨ ∃ last window, s.lastHeartbeat.get peer = some last ∧
        s.intervals.get peer = some window ∧ D.minSamples ≤ window.length ∧ last < t ∧
        window ≠ [] ∧ D.scale window ≠ 0 ∧ threshold ≤ D.phiVal window (t - last) := by
  have hzero : ¬ (threshold : WithTop K) ≤ ((0 : K) : WithTop K) := by
    simpa using hpos
  unfold isSuspected phi
  cases hl : s.lastHeartbeat.get peer with
  | none => simp [Except.map]
  | some last =>
    cases hw : s.intervals.get peer with
    | none => simpa [Except.map] using hpos
    | some window =>
      simp only [Option.some.injEq, reduceCtorEq, false_or, exists_and_left, exists_eq_left']
      split_ifs with hsamples helapsed hzerodiv
      · refine iff_of_false (by simpa [Except.map] using hpos) fun h => ?_
        exact absurd h.1 (not_le.2 hsamples)
      · refine iff_of_false (by simpa [Except.map] using hpos) fun h => ?_
        exact absurd h.2.1 (not_lt.2 (sub_nonpos.1 helapsed))
      · refine iff_of_false (by simp [Except.map]) fun h => ?_
        exact hzerodiv.elim h.2.2.1 h.2.2.2.1
      · rw [not_or] at hzerodiv
        have hlt := sub_pos.1 (not_le.1 helapsed)
        simp [Except.map, not_lt.1 hsamples, hlt, hzerodiv]

end

/-- What is assumed of the functions of `math`. -/
structure Lawful (M : MathFunctions ℝ) : Prop where
  sqrt_pos : ∀ x, 0 < x → 0 < M.sqrt x
  erfc_antitone : Antitone M.erfc
  erfc_tendsto : Tendsto M.erfc atTop (𝓝 0)
  log10_mono : MonotoneOn M.log10 (Set.Ioi 0)
  log10_threshold : M.log10 (1 / 10 ^ 8) = -8

variable {D : PhiAccrualDetector ℝ} {window : List ℝ}

theorem scale_pos (hM : Lawful D.math) (hfloor : 0 < D.varianceFloor) : 0 < D.scale window :=
  mul_pos (hM.sqrt_pos _ (lt_max_of_lt_right hfloor)) (hM.sqrt_pos _ two_pos)

theorem pLater_pos (x : ℝ) : 0 < D.pLater window x := lt_max_of_lt_right (by positivity)

/-- The longer a peer is silent, the higher the level. -/
theorem phiVal_mono (hM : Lawful D.math) (hfloor : 0 < D.varianceFloor) {x y : ℝ} (h : x ≤ y) :
    D.phiVal window x ≤ D.phiVal window y := by
  have hscale : 0 < D.scale window := scale_pos hM hfloor
  have hdev : (x - mean window) / D.scale window ≤ (y - mean window) / D.scale window := by
    gcongr
  have hlater : D.pLater window y ≤ D.pLater window x := by
    unfold pLater
    gcongr
    exact hM.erfc_antitone hdev
  exact max_le_max_left 0 (neg_le_neg (hM.log10_mono (pLater_pos y) (pLater_pos x) hlater))

/-- The level of a peer that stays silent reaches the threshold. -/
theorem phiVal_reaches (window : List ℝ) (hM : Lawful D.math) (hfloor : 0 < D.varianceFloor) :
    ∃ x₀, ∀ x, x₀ ≤ x → threshold ≤ D.phiVal window x := by
  have hscale : 0 < D.scale window := scale_pos hM hfloor
  obtain ⟨y₀, hy₀⟩ := eventually_atTop.1 (hM.erfc_tendsto.eventually_le_const
    (show (0 : ℝ) < 2 / 10 ^ 8 by norm_num))
  refine ⟨mean window + y₀ * D.scale window, fun x hx => ?_⟩
  have hdev : y₀ ≤ (x - mean window) / D.scale window := by
    rw [le_div_iff₀ hscale]
    linarith
  have hlater : D.pLater window x ≤ 1 / 10 ^ 8 := by
    refine max_le ?_ (by norm_num)
    have := hy₀ _ hdev
    linarith
  have hlog : D.math.log10 (D.pLater window x) ≤ -8 := by
    rw [← hM.log10_threshold]
    exact hM.log10_mono (pLater_pos x) (by norm_num) hlater
  exact le_max_of_le_right (by rw [threshold]; linarith)

/-- **Suspicion is monotone, and complete for warm windows**: after any heartbeats a peer that is
    suspected is so at every later time; and one that was heard from is suspected from some time on
    exactly if its window holds an interval and no fewer than `min_samples`. -/
theorem suspicion_monotone_complete (hM : Lawful D.math) (hfloor : 0 < D.varianceFloor)
    {peer : Str} {es : List (Str × ℝ)} (hknown : peer ∈ es.map Prod.fst) :
    (∀ t t', t ≤ t' → D.isSuspected (D.after es) peer threshold t = .ok true →
      D.isSuspected (D.after es) peer threshold t' = .ok true) ∧
    ((∃ t₀, ∀ t, t₀ ≤ t → D.isSuspected (D.after es) peer threshold t = .ok true) ↔
      0 < D.samples peer es ∧ D.minSamples ≤ D.samples peer es) := by
  have hthreshold : (0 : ℝ) < threshold := by norm_num [threshold]
  obtain ⟨last, hlast⟩ := D.exists_lastHeartbeat hknown
  simp only [isSuspected_iff hthreshold, hlast, reduceCtorEq, false_or]
  refine ⟨?_, ?_, ?_⟩
  · rintro t t' hle ⟨last, window, hl, hw, hsamples, hlt, hne, hscale, hphi⟩
    refine ⟨last, window, hl, hw, hsamples, hlt.trans_le hle, hne, hscale, hphi.trans ?_⟩
    exact phiVal_mono hM hfloor (by linarith)
  · rintro ⟨t₀, h⟩
    obtain ⟨-, window, -, hw, hsamples, -, hne, -⟩ := h t₀ le_rfl
    rw [D.length_window hw] at hsamples
    exact ⟨D.length_window hw ▸ List.length_pos_of_ne_nil hne, hsamples⟩
  · rintro ⟨hpos, hsamples⟩
    obtain ⟨window, hw⟩ := D.exists_window hpos
    obtain ⟨x₀, hx₀⟩ := phiVal_reaches window hM hfloor
    rw [← D.length_window hw] at hpos hsamples
    refine ⟨max (last + 1) (last + x₀), fun t ht => ?_⟩
    refine ⟨last, window, rfl, hw, hsamples, ?_, ?_, ?_, ?_⟩
    · linarith [(le_max_left _ _).trans ht]
    · exact List.ne_nil_of_length_pos hpos
    · exact (scale_pos hM hfloor).ne'
    · exact hx₀ _ (by linarith [(le_max_right _ _).trans ht])

namespace Sample

/-- The defaults, with a function for `erfc` that meets what is assumed of it. -/
noncomputable def detector : PhiAccrualDetector ℝ where
  math := ⟨Real.sqrt, fun x => Real.exp (-x), Real.logb 10⟩

theorem detector_lawful : Lawful detector.math where
  sqrt_pos _ := Real.sqrt_pos.2
  erfc_antitone _ _ h := Real.exp_le_exp.2 (neg_le_neg h)
  erfc_tendsto := Real.tendsto_exp_neg_atTop_nhds_zero
  log10_mono := (Real.strictMonoOn_logb (by norm_num)).monotoneOn
  log10_threshold := by
    change Real.logb 10 (1 / 10 ^ 8) = -8
    rw [one_div, Real.logb_inv, Real.logb_pow]
    norm_num

theorem detector_varianceFloor : 0 < detector.varianceFloor := by norm_num [detector]

end Sample

/-- Six heartbeats at intervals of one second fill the window. -/
theorem suspicion_complete_steady :
    let es : List (Str × ℝ) := (List.range 6).map fun (i : ℕ) => (str "b", (i : ℝ))
    ∃ t₀, ∀ t, t₀ ≤ t →
      Sample.detector.isSuspected (Sample.detector.after es) (str "b") threshold t = .ok true := by
  intro es
  refine (suspicion_monotone_complete Sample.detector_lawful Sample.detector_varianceFloor
    (by simp [es, List.range_succ])).2.2 ?_
  have hgaps : gaps (arrivals (str "b") es) = [1, 1, 1, 1, 1] := by
    simp [es, arrivals, List.range_succ, gaps]
    norm_num
  simp [samples, hgaps, Sample.detector]

/-- A peer that was heard from once is never suspected. -/
theorem suspicion_incomplete :
    ¬ ∀ (D : PhiAccrualDetector ℝ), Lawful D.math → 0 < D.varianceFloor →
      ∀ (peer : Str) (es : List (Str × ℝ)), peer ∈ es.map Prod.fst →
        (arrivals peer es).Pairwise (· ≤ ·) →
        ∃ t₀, ∀ t, t₀ ≤ t → D.isSuspected (D.after es) peer threshold t = .ok true := by
  intro h
  obtain ⟨t₀, ht₀⟩ := h Sample.detector Sample.detector_lawful Sample.detector_varianceFloor
    (str "b") [(str "b", 0)] (by simp) (by simp [arrivals])
  have hcold : Sample.detector.phi (Sample.detector.after [(str "b", 0)]) (str "b") t₀ =
      .ok (0 : ℝ) := rfl
  have := ht₀ t₀ le_rfl
  rw [isSuspected, hcold] at this
  simp only [Except.map, Except.ok.injEq, decide_eq_true_eq, WithTop.coe_le_coe] at this
  norm_num [threshold] at this

end PhiAccrualDetector

end PeerQ
