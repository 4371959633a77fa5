/-
  `RateLimiter` (`peerq/security.py`).

  A call of `allow` is an event of the sliding window of its source
  (`allow_eq`).  With at most `max_sources` sources no deque is ever displaced,
  so each source has a window of its own over the whole run (`apart_after`,
  `granted_eq`).
-/
import PeerQ.Lib.SlidingWindow
import PeerQ.Security

namespace PeerQ

open Py

/-- The arguments of a `RateLimiter` that its constructor accepts. -/
structure RateLimiter where
  maxEvents : ℕ
  windowSeconds : ℚ
  maxSources : ℕ := 1024
  maxEvents_pos : 0 < maxEvents
  windowSeconds_pos : 0 < windowSeconds
  maxSources_pos : 0 < maxSources

/-- `_events`: the times by source, the source that called last at the end. -/
abbrev SourceEvents := Dict Str (List ℚ)

namespace RateLimiter

/-- The constructor. -/
def init (maxEvents : ℤ) (windowSeconds : ℚ) (maxSources : ℤ) : Except Exn RateLimiter :=
  if h : maxEvents ≤ 0 ∨ windowSeconds ≤ 0 ∨ maxSources ≤ 0 then
    .error (.valueError (str "rate limiter values must be positive"))
  else .ok {
    maxEvents := maxEvents.toNat
    windowSeconds
    maxSources := maxSources.toNat
    maxEvents_pos := by omega
    windowSeconds_pos := not_le.1 fun hw => h (Or.inr (Or.inl hw))
    maxSources_pos := by omega }

variable (L : RateLimiter)

/-- The deque of a source, which is put last; for a new one the first source may have to go. -/
def eventsOf (s : SourceEvents) (source : Str) : List ℚ × SourceEvents :=
  match s.get source with
  | none => ([], (if L.maxSources ≤ s.size then s.drop 1 else s).set source [])
  | some events => (events, s.moveToEnd source)

def allow (s : SourceEvents) (source : Str) (now : ℚ) : Bool × SourceEvents :=
  let (events, s) := L.eventsOf s source
  let cutoff := now - L.windowSeconds
  let events := events.dropWhile fun t => t < cutoff
  if L.maxEvents ≤ events.length then (false, s.set source events)
  else (true, s.set source (events ++ [now]))

/-- The state after calls of `allow`. -/
def after (es : List (Str × ℚ)) : SourceEvents :=
  run (fun s e => (L.allow s e.1 e.2).2) .empty es

/-- The times at which calls of a source return `True`. -/
def granted (source : Str) (es : List (Str × ℚ)) : List ℚ :=
  trace (fun s e => if e.1 = source ∧ (L.allow s e.1 e.2).1 = true then [e.2] else [])
    (fun s e => (L.allow s e.1 e.2).2) .empty es

variable {L} {s : SourceEvents} {source k : Str} {now : ℚ}

/-! ## One call -/

/-- **A call is an event of the window of its source.** -/
theorem allow_eq : L.allow s source now =
    (SlidingWindow.admits L.maxEvents L.windowSeconds ((s.get source).getD []) now,
      (L.eventsOf s source).2.set source
        (SlidingWindow.record L.maxEvents L.windowSeconds ((s.get source).getD []) now)) := by
  have hfst : (L.eventsOf s source).1 = (s.get source).getD [] := by
    unfold eventsOf
    cases s.get source <;> rfl
  unfold allow SlidingWindow.record SlidingWindow.admits SlidingWindow.live
  rw [← hfst]
  by_cases hfull : L.maxEvents ≤ ((L.eventsOf s source).1.dropWhile fun t =>
      t < now - L.windowSeconds).length
  · simp [hfull, not_lt.2 hfull]
  · simp [hfull, not_le.1 hfull]

/-- A source keeps its deque while others call, as long as there is room. -/
theorem get_eventsOf (h : s.has source = true ∨ s.size < L.maxSources) (hk : source ≠ k) :
    (L.eventsOf s source).2.get k = s.get k := by
  unfold eventsOf
  cases hs : s.get source with
  | none =>
    have hsize : ¬ L.maxSources ≤ s.size := by
      rcases h with h | h
      · simp [Dict.has, hs] at h
      · omega
    rw [if_neg hsize]
    exact s.get_set_ne [] hk
  | some events => exact s.get_moveToEnd source k

/-- What is there after a call was there before, or is new. -/
theorem get_of_eventsOf {l : List ℚ} (h : (L.eventsOf s source).2.get k = some l) :
    s.get k = some l ∨ l = [] := by
  unfold eventsOf at h
  cases hs : s.get source with
  | none =>
    rw [hs] at h
    by_cases hk : source = k
    · subst hk
      rw [Dict.get_set_self] at h
      exact Or.inr (Option.some.inj h).symm
    · rw [Dict.get_set_ne _ _ hk] at h
      split_ifs at h
      exacts [Or.inl (Dict.get_of_drop h), Or.inl h]
  | some events =>
    rw [hs] at h
    exact Or.inl ((s.get_moveToEnd source k).symm.trans h)

theorem has_eventsOf : (L.eventsOf s source).2.has source = true := by
  unfold eventsOf
  cases hs : s.get source with
  | none => exact Dict.has_of_get (Dict.get_set_self _ _ _)
  | some events => exact Dict.has_of_get ((s.get_moveToEnd source source).trans hs)

theorem size_eventsOf (h : s.size ≤ L.maxSources) :
    (L.eventsOf s source).2.size ≤ L.maxSources := by
  unfold eventsOf
  cases hs : s.get source with
  | none =>
    have hpos := L.maxSources_pos
    have hdrop : (s.drop 1).size = s.size - 1 := List.length_drop
    simp only [Dict.size_set]
    split_ifs <;> omega
  | some events => exact (Dict.size_congr (s.get_moveToEnd source)).trans_le h

/-! ## What is retained -/

variable (L) in
/-- Boundedly many sources with boundedly many times. -/
structure Retains (s : SourceEvents) : Prop where
  sources : s.size ≤ L.maxSources
  times : ∀ source l, s.get source = some l → l.length ≤ L.maxEvents

theorem Retains.allow (h : L.Retains s) (source : Str) (now : ℚ) :
    L.Retains (L.allow s source now).2 := by
  rw [allow_eq]
  refine ⟨?_, fun k l hl => ?_⟩
  · rw [Dict.size_set, if_pos has_eventsOf]
    exact size_eventsOf h.sources
  · by_cases hk : source = k
    · subst hk
      rw [Dict.get_set_self] at hl
      rw [← Option.some.inj hl]
      refine SlidingWindow.length_record_le ?_
      cases hs : s.get source with
      | none => exact Nat.zero_le _
      | some events => exact h.times source events hs
    · rw [Dict.get_set_ne _ _ hk] at hl
      rcases get_of_eventsOf hl with hl | rfl
      exacts [h.times k l hl, Nat.zero_le _]

theorem retains_after (es : List (Str × ℚ)) : L.Retains (L.after es) := by
  induction es using List.reverseRecOn with
  | nil => exact ⟨Nat.zero_le _, fun source l h => by simp [after] at h⟩
  | append_singleton es e ih =>
    rw [after, run_concat]
    exact ih.allow e.1 e.2

/-! ## The windows of the sources -/

/-- The times at which a source calls. -/
def calls (source : Str) (es : List (Str × ℚ)) : List ℚ :=
  (es.filter fun e => e.1 = source).map Prod.snd

theorem calls_concat (source : Str) (es : List (Str × ℚ)) (e : Str × ℚ) :
    calls source (es ++ [e]) = calls source es ++ if e.1 = source then [e.2] else [] := by
  unfold calls
  by_cases h : e.1 = source <;> simp [h]

theorem calls_of_not_mem {es : List (Str × ℚ)} (h : source ∉ es.map Prod.fst) :
    calls source es = [] := by
  rw [calls, List.map_eq_nil_iff, List.filter_eq_nil_iff]
  intro e he hs
  exact h (of_decide_eq_true hs ▸ List.mem_map_of_mem (f := Prod.fst) he)

variable (L) in
/-- The deque of a source after calls at these times, if nothing else happens. -/
def window (ts : List ℚ) : List ℚ := run (SlidingWindow.record L.maxEvents L.windowSeconds) [] ts

variable (L) in
/-- Every source that has called has the deque of its own calls. -/
def Apart (es : List (Str × ℚ)) (s : SourceEvents) : Prop :=
  ∀ source, s.get source =
    if source ∈ es.map Prod.fst then some (L.window (calls source es)) else none

theorem Apart.getD {es : List (Str × ℚ)} (h : L.Apart es s) (source : Str) :
    (s.get source).getD [] = L.window (calls source es) := by
  rw [h source]
  split_ifs with hmem
  · rfl
  · rw [calls_of_not_mem hmem]
    rfl

/-- With few sources there is room for the next one. -/
theorem Apart.room {es : List (Str × ℚ)} (h : L.Apart es s) {e : Str × ℚ}
    (hcard : ((es ++ [e]).map Prod.fst).toFinset.card ≤ L.maxSources) :
    s.has e.1 = true ∨ s.size < L.maxSources := by
  by_cases hmem : e.1 ∈ es.map Prod.fst
  · exact Or.inl (Dict.has_of_get ((h e.1).trans (if_pos hmem)))
  · refine Or.inr (lt_of_lt_of_le ?_ hcard)
    have hsize : s.size ≤ (es.map Prod.fst).toFinset.card := by
      refine Dict.size_le_card fun k hk => List.mem_toFinset.2 (by_contra fun hn => ?_)
      rw [Dict.has, h k, if_neg hn] at hk
      exact absurd hk (by simp)
    have hinsert : ((es ++ [e]).map Prod.fst).toFinset = insert e.1 (es.map Prod.fst).toFinset := by
      ext k
      simp
    rw [hinsert, Finset.card_insert_of_notMem (by simpa using hmem)]
    omega

theorem Apart.allow {es : List (Str × ℚ)} (h : L.Apart es s) {e : Str × ℚ}
    (hcard : ((es ++ [e]).map Prod.fst).toFinset.card ≤ L.maxSources) :
    L.Apart (es ++ [e]) (L.allow s e.1 e.2).2 := by
  intro source
  rw [allow_eq, calls_concat]
  by_cases hs : e.1 = source
  · subst hs
    rw [Dict.get_set_self, if_pos (by simp), if_pos rfl, window, run_concat, ← window, ← h.getD e.1]
  · have hmem : source ∈ (es ++ [e]).map Prod.fst ↔ source ∈ es.map Prod.fst := by
      simp [Ne.symm hs]
    rw [Dict.get_set_ne _ _ hs, get_eventsOf (h.room hcard) hs, h source, if_neg hs,
      List.append_nil]
    simp only [hmem]

/-- The sources of the first calls. -/
theorem card_sources_le {es fs : List (Str × ℚ)}
    (h : ((es ++ fs).map Prod.fst).toFinset.card ≤ L.maxSources) :
    (es.map Prod.fst).toFinset.card ≤ L.maxSources := by
  refine (Finset.card_le_card fun k hk => ?_).trans h
  rw [List.mem_toFinset] at hk ⊢
  rw [List.map_append]
  exact List.mem_append_left _ hk

/-- **Every source has a window of its own**, over the whole run. -/
theorem apart_after {es : List (Str × ℚ)} (h : (es.map Prod.fst).toFinset.card ≤ L.maxSources) :
    L.Apart es (L.after es) := by
  induction es using List.reverseRecOn with
  | nil => exact fun source => rfl
  | append_singleton es e ih =>
    rw [after, run_concat]
    exact (ih (card_sources_le h)).allow h

theorem allow_after {es : List (Str × ℚ)} (h : (es.map Prod.fst).toFinset.card ≤ L.maxSources)
    (source : Str) (now : ℚ) : (L.allow (L.after es) source now).1 =
      SlidingWindow.admits L.maxEvents L.windowSeconds (L.window (calls source es)) now := by
  rw [allow_eq, (apart_after h).getD]

/-- What a source is granted is what its window admits. -/
theorem granted_eq {es : List (Str × ℚ)} (h : (es.map Prod.fst).toFinset.card ≤ L.maxSources)
    (source : Str) : L.granted source es =
      SlidingWindow.admitted L.maxEvents L.windowSeconds (calls source es) := by
  induction es using List.reverseRecOn with
  | nil => rfl
  | append_singleton es e ih =>
    rw [granted, trace_concat, ← granted, ← after, ih (card_sources_le h), calls_concat,
      allow_after (card_sources_le h)]
    by_cases hs : e.1 = source
    · rw [if_pos hs, SlidingWindow.admitted_concat, hs, ← window]
      simp only [true_and]
    · rw [if_neg hs, if_neg fun h => hs h.1, List.append_nil, List.append_nil]

theorem calls_sorted {es : List (Str × ℚ)} (h : (es.map Prod.snd).Pairwise (· ≤ ·)) (source : Str) :
    (calls source es).Pairwise (· ≤ ·) :=
  h.sublist (List.filter_sublist.map Prod.snd)

/-- **Sliding-window rate limit.**  As long as time does not go back and there are no more sources
    than the limiter has room for, no source is granted more than `max_events` calls in any window,
    and none is refused a call unless it was granted as many in the window that ends there; whatever
    happens, boundedly much is retained. -/
theorem rate_limited (L : RateLimiter) (es : List (Str × ℚ)) :
    ((es.map Prod.snd).Pairwise (· ≤ ·) → (es.map Prod.fst).toFinset.card ≤ L.maxSources →
      (∀ source t, (L.granted source es).countP (fun u => t ≤ u ∧ u ≤ t + L.windowSeconds) ≤
        L.maxEvents) ∧
      ∀ before source now rest, es = before ++ (source, now) :: rest →
        (L.allow (L.after before) source now).1 = false →
          (L.granted source before).countP (fun u => now - L.windowSeconds ≤ u ∧ u ≤ now) =
            L.maxEvents) ∧
    (L.after es).size ≤ L.maxSources ∧
      ∀ source l, (L.after es).get source = some l → l.length ≤ L.maxEvents := by
  refine ⟨fun hsorted hcard => ⟨fun source t => ?_, ?_⟩, (retains_after es).sources,
    (retains_after es).times⟩
  · rw [granted_eq hcard]
    exact SlidingWindow.countP_admitted_le L.windowSeconds_pos.le (calls_sorted hsorted source) t
  · rintro before source now rest rfl hrefused
    have hbefore := card_sources_le hcard
    have hcalls : (calls source before ++ [now]).Pairwise (· ≤ ·) := by
      have hcall := calls_concat source before (source, now)
      rw [if_pos rfl] at hcall
      rw [← hcall]
      refine calls_sorted (hsorted.sublist ?_) source
      exact List.Sublist.map Prod.snd (List.Sublist.append_left (by simp) before)
    rw [allow_after hbefore] at hrefused
    rw [granted_eq hbefore]
    exact SlidingWindow.countP_admitted_of_refused L.windowSeconds_pos.le hcalls hrefused

namespace Sample

/-- One event in ten seconds. -/
def limiter : RateLimiter where
  maxEvents := 1
  windowSeconds := 10
  maxSources := 1
  maxEvents_pos := Nat.one_pos
  windowSeconds_pos := by decide
  maxSources_pos := Nat.one_pos

/-- The second call comes too early. -/
def attempts : List (Str × ℚ) := [(str "a", 0), (str "a", 1), (str "a", 20)]

end Sample

theorem rate_limited_attempts :
    (∀ t, (Sample.limiter.granted (str "a") Sample.attempts).countP
      (fun u => t ≤ u ∧ u ≤ t + 10) ≤ 1) ∧
    (Sample.limiter.granted (str "a") [(str "a", 0)]).countP
      (fun u => 1 - 10 ≤ u ∧ u ≤ 1) = 1 := by
  obtain ⟨hwindows, hrefused⟩ := (rate_limited Sample.limiter Sample.attempts).1
    (by decide) (by decide)
  exact ⟨hwindows (str "a"),
    hrefused [(str "a", 0)] (str "a") 1 [(str "a", 20)] rfl (by decide +kernel)⟩

end RateLimiter

end PeerQ
