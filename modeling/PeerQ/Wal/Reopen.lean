/-
  A log that is cut at an arbitrary octet, reopened and continued.

  What the cut leaves is a number of whole frames and the beginning of one more
  (`take_frames`).  A reading that meets such a beginning at the end of the file
  stops there.  If frames were appended behind it, it takes their octets for the
  missing ones and fails or stops there: it never comes out at the appended
  frames (`torn_step`).
-/
import PeerQ.Wal

namespace PeerQ

open Py

namespace WalEntry

variable {R : Runtime} {W : WriteAheadLog}

/-- The entries whose frames lie wholly in the first `k` octets of the frames. -/
def wholeBefore (R : Runtime) : ℕ → List WalEntry → List WalEntry
  | _, [] => []
  | k, e :: es =>
    if (e.bytes R).length ≤ k then e :: wholeBefore R (k - (e.bytes R).length) es else []

/-- What the first `k` octets of the frames hold behind the whole ones. -/
def tornTail (R : Runtime) : ℕ → List WalEntry → Bytes
  | _, [] => []
  | k, e :: es =>
    if (e.bytes R).length ≤ k then tornTail R (k - (e.bytes R).length) es else (e.bytes R).take k

theorem take_frames : ∀ (k : ℕ) (es : List WalEntry),
    (es.flatMap (bytes R)).take k = (wholeBefore R k es).flatMap (bytes R) ++ tornTail R k es
  | _, [] => by simp [wholeBefore, tornTail]
  | k, e :: es => by
    have ih := take_frames (k - (e.bytes R).length) es
    unfold wholeBefore tornTail
    split_ifs with h
    · rw [List.flatMap_cons, List.take_append, List.take_of_length_le h, ih, List.flatMap_cons,
        List.append_assoc]
    · rw [List.flatMap_cons, List.take_append, Nat.sub_eq_zero_of_le (by omega)]; simp

theorem wholeBefore_sub : ∀ {k : ℕ} {es : List WalEntry}, ∀ e ∈ wholeBefore R k es, e ∈ es
  | _, [], e, he => by simp [wholeBefore] at he
  | k, e' :: es, e, he => by
    unfold wholeBefore at he
    split_ifs at he with h
    · rcases List.mem_cons.1 he with rfl | he
      exacts [by simp, List.mem_cons_of_mem _ (wholeBefore_sub e he)]
    · simp at he

/-- A torn tail is a proper beginning of a frame. -/
theorem tornTail_cases : ∀ (k : ℕ) (es : List WalEntry), tornTail R k es = [] ∨
    ∃ e ∈ es, ∃ j, 0 < j ∧ j < (e.bytes R).length ∧ tornTail R k es = (e.bytes R).take j
  | _, [] => Or.inl rfl
  | k, e :: es => by
    unfold tornTail
    split_ifs with h
    · rcases tornTail_cases (k - (e.bytes R).length) es with h' | ⟨e', he', hj⟩
      exacts [Or.inl h', Or.inr ⟨e', List.mem_cons_of_mem _ he', hj⟩]
    · rcases Nat.eq_zero_or_pos k with rfl | hk
      · exact Or.inl (by simp)
      · exact Or.inr ⟨e, by simp, k, hk, by omega, rfl⟩

end WalEntry

namespace WriteAheadLog

variable {R : Runtime} {W : WriteAheadLog} {strict : Bool} {off : ℕ}

/-- A torn tail at the end of the file stops the reading. -/
theorem readFrame_torn {e : WalEntry} (h : e.Fits R W) {j : ℕ} (hj : j < (e.bytes R).length) :
    W.readFrame R false off ((e.bytes R).take j) = .stop := by
  have hfl : (e.bytes R).length = 9 + (e.text R).length := length_frame _ _
  by_cases h9 : j < 9
  · exact readFrame_short (by rw [List.length_take]; omega)
  -- the header is complete
  have hlen : ((e.bytes R).take j).take 4 = be32 (e.text R).length := by
    rw [List.take_take, Nat.min_eq_left (by omega)]; rfl
  have hty : ((e.bytes R).take j).getD 8 0 = Fin.ofNat _ e.recordType := by
    rw [List.getD_eq_getElem?_getD, List.getElem?_take_of_lt (by omega)]; rfl
  have hk : (Fin.ofNat 256 e.recordType).val = e.recordType := by
    rcases knownType_lt h.known with h | h | h <;> rw [h] <;> rfl
  refine readFrame_head (by rw [List.length_take]; omega) (by rw [hty, hk]; exact h.known) ?_ ?_
  · rw [hlen, beVal_be32 h.word]; exact h.limit
  · rw [hlen, beVal_be32 h.word, List.length_take]; omega

/-! ## A torn frame followed by frames -/

theorem getD_mem_take {l : Bytes} {i n : ℕ} (hi : i < n) (hl : i < l.length) :
    l.getD i 0 ∈ l.take n := by
  rw [List.getD_eq_getElem _ _ hl]
  exact List.mem_take_iff_getElem.2 ⟨i, by omega, rfl⟩

theorem getD_drop (l : Bytes) (n i : ℕ) : (l.drop n).getD i 0 = l.getD (n + i) 0 := by
  simp [List.getD_eq_getElem?_getD]

section
variable {F e : WalEntry} {T : ℕ} {rest : Bytes}

/-- The torn frame `F`, of which `T` octets are left, followed by the frame of `e`. -/
def tornFile (R : Runtime) (F e : WalEntry) (T : ℕ) (rest : Bytes) : Bytes :=
  (F.bytes R).take T ++ (e.bytes R ++ rest)

/-- The octets of the frame of `e`, at the place where the torn frame ends. -/
theorem tornFile_getD (hT : T ≤ (F.bytes R).length) {i : ℕ} (hi : i < (e.bytes R).length) :
    (tornFile R F e T rest).getD (T + i) 0 = (e.bytes R).getD i 0 := by
  have hl : ((F.bytes R).take T).length = T := by rw [List.length_take]; omega
  rw [tornFile, List.getD_append_right _ _ _ _ (by omega), hl, Nat.add_sub_cancel_left,
    List.getD_append _ _ _ _ hi]

/-- The length that is read, if the torn frame still has its own. -/
theorem tornFile_take4 (hF : F.Fits R W) (h4 : 4 ≤ T) (hT : T ≤ (F.bytes R).length) :
    beVal ((tornFile R F e T rest).take 4) = (F.text R).length := by
  have hl : ((F.bytes R).take T).length = T := by rw [List.length_take]; omega
  have h : (tornFile R F e T rest).take 4 = be32 (F.text R).length := by
    rw [tornFile, List.take_append_of_le_length (by omega), List.take_take,
      Nat.min_eq_left h4]; rfl
  rw [h, beVal_be32 hF.word]

theorem text_printable (e : WalEntry) {i : ℕ} (hi : i < (e.text R).length) :
    0x20 ≤ (e.bytes R).getD (9 + i) 0 := by
  have hg : (e.bytes R).getD (9 + i) 0 = (e.text R).getD i 0 := by
    rw [← getD_drop]
    have := frame_payload e.recordType (e.text R) []
    rw [List.append_nil, List.append_nil] at this
    rw [WalEntry.bytes, this]
  rw [hg, List.getD_eq_getElem _ _ hi]
  exact R.json.dumps_printable _ _ (List.getElem_mem hi)

theorem printable_unknown {b : Byte} (h : 0x20 ≤ b) : knownType b.val = false := by
  rw [Fin.le_def] at h
  by_contra hk
  rw [Bool.not_eq_false] at hk
  rcases knownType_lt hk with hb | hb | hb <;> rw [hb] at h <;> exact absurd h (by decide)

/-- An octet below 4 stands in no payload. -/
theorem loads_low {c : Bool} {t : Bytes} {b : Byte} (hb : b ∈ t) (h : b.val < 4) :
    R.json.loads c t = none := by
  have hb' : b < 0x20 := by rw [Fin.lt_def]; exact lt_of_lt_of_le h (by decide)
  refine R.json.loads_control c hb hb' ?_ ?_ ?_ <;> rintro rfl <;> exact absurd h (by decide)

theorem beVal_take4 {l : Bytes} (h : 4 ≤ l.length) : beVal (l.take 4) =
    2 ^ 24 * (l.getD 0 0).val + 2 ^ 16 * (l.getD 1 0).val + 2 ^ 8 * (l.getD 2 0).val +
      (l.getD 3 0).val := by
  match l, h with
  | a :: b :: c :: d :: l, _ =>
    simp only [beVal, List.take_succ_cons, List.take_zero, List.foldl_cons, List.foldl_nil,
      List.getD_cons_zero, List.getD_cons_succ]
    omega

/-- The CRC-32 of a frame with payload `{}` needs more than one octet and its last three. -/
theorem crc32_empty {ty : Byte} (h : knownType ty.val = true) :
    2 ^ 8 ≤ crc32 [ty, 0x7b, 0x7d] ∧ crc32 [ty, 0x7b, 0x7d] % 2 ^ 24 ≠ 0 := by
  have hty : ty = 1 ∨ ty = 2 ∨ ty = 3 := by
    rcases knownType_lt h with h | h | h
    exacts [Or.inl (Fin.ext h), Or.inr (Or.inl (Fin.ext h)), Or.inr (Or.inr (Fin.ext h))]
  rcases hty with rfl | rfl | rfl <;> decide

/-- **Behind a torn frame the reading goes wrong**: if it reads a frame there at all, the octet it
    then takes for a record type is not one. -/
theorem torn_step (hF : F.Fits R W) (he : e.Fits R W) (hT0 : 0 < T) (hT : T < (F.bytes R).length)
    {a : WalRecord} {n : ℕ} (h : W.readFrame R strict off (tornFile R F e T rest) = .item a n) :
    ∃ err, W.readFrame R strict (off + n) ((tornFile R F e T rest).drop n) = .fail err := by
  obtain ⟨h9, hty, hn, hle, hcrc, hload⟩ := readFrame_item h
  have hfl : (F.bytes R).length = 9 + (F.text R).length := length_frame _ _
  have hel : (e.bytes R).length = 9 + (e.text R).length := length_frame _ _
  have hbl : (tornFile R F e T rest).length = T + ((e.bytes R).length + rest.length) := by
    rw [tornFile, List.length_append, List.length_append, List.length_take]; omega
  -- an octet below 4 in the payload that was read is a contradiction
  have hlow : ∀ i, i < (e.bytes R).length → 9 ≤ T + i → T + i < n →
      ¬ ((e.bytes R).getD i 0).val < 4 := by
    intro i hi h1 h2 hlt
    have hmem := getD_mem_take (l := (tornFile R F e T rest).drop 9) (i := T + i - 9)
      (n := beVal ((tornFile R F e T rest).take 4)) (by omega) (by rw [List.length_drop]; omega)
    rw [getD_drop, show 9 + (T + i - 9) = T + i by omega, tornFile_getD hT.le hi] at hmem
    rw [loads_low hmem hlt] at hload
    exact absurd hload (by simp)
  -- so the payload ends before the record type of `e`
  have hety : (e.bytes R).getD 8 0 = Fin.ofNat _ e.recordType := by
    have := frame_type e.recordType (e.text R) []
    rwa [List.append_nil] at this
  have hn8 : n ≤ T + 8 := by
    by_contra hc
    refine hlow 8 (by omega) (by omega) (by omega) ?_
    rw [hety]
    rcases knownType_lt he.known with h | h | h <;> rw [h] <;> decide
  -- and behind the torn octets
  have hnT : T < n := by
    by_cases h4 : 4 ≤ T
    · have hFlen : beVal ((tornFile R F e T rest).take 4) = (F.text R).length :=
        tornFile_take4 hF h4 hT.le
      omega
    · omega
  by_contra hne
  -- otherwise the next record type is an octet of the payload of `e`
  have hshort : (e.text R).length ≤ n - T - 1 := by
    by_contra hc
    refine hne (readFrame_type (by rw [List.length_drop]; omega) ?_)
    rw [getD_drop, show n + 8 = T + (9 + (n - T - 1)) by omega, tornFile_getD hT.le (by omega)]
    exact printable_unknown (text_printable e (by omega))
  have hword : ∀ i < 3, (e.bytes R).getD i 0 = 0 := by
    have hlen : be32 (e.text R).length = [0, 0, 0, Fin.ofNat _ (e.text R).length] := by
      simp only [be32, List.cons.injEq, and_true]
      refine ⟨Fin.ext ?_, Fin.ext ?_, Fin.ext ?_⟩ <;> simp only [Fin.val_ofNat] <;> omega
    intro i hi
    have : (e.bytes R).getD i 0 = (be32 (e.text R).length).getD i 0 := by
      rw [WalEntry.bytes, frame_eq, List.getD_append _ _ _ _ (by rw [length_be32]; omega)]
    rw [this, hlen]
    interval_cases i <;> rfl
  have hT8 : T ≤ 8 := by
    by_contra hc
    exact hlow 0 (by omega) (by omega) (by omega) (by rw [hword 0 (by omega)]; decide)
  obtain ⟨h2, h2'⟩ := R.json.loads_obj false hload
  rw [List.length_take, List.length_drop, Nat.min_eq_left (by omega)] at h2 h2'
  have hzero : ∀ i < 3, ((tornFile R F e T rest).getD (T + i) 0).val = 0 := fun i hi => by
    rw [tornFile_getD hT.le (by omega), hword i hi]; rfl
  have hT5 : T ≤ 5 := by
    -- the record type that was read is one of the zeros
    by_contra hc
    have h0 := hzero (8 - T) (by omega)
    rw [show T + (8 - T) = 8 by omega] at h0
    rw [h0] at hty; exact absurd hty (by decide)
  have hT3 : T ≠ 3 := by
    -- the last octet of the length is one of the zeros
    rintro rfl
    have h0 := hzero 0 (by omega)
    have hv := beVal_take4 (l := tornFile R F e 3 rest) (by omega)
    simp only [Nat.add_zero] at h0
    omega
  have hFlen : beVal ((tornFile R F e T rest).take 4) = (F.text R).length :=
    tornFile_take4 hF (by omega) hT.le
  have hF2 : (F.text R).length = 2 := by
    rcases F.payload.dumps_length R.json with h' | h'
    · rw [WalEntry.text, h']; rfl
    · rw [← WalEntry.text] at h'; omega
  rw [h2' (by omega)] at hcrc
  obtain ⟨hbig, hmod⟩ := crc32_empty hty
  have hv := beVal_take4 (l := (tornFile R F e T rest).drop 4) (by rw [List.length_drop]; omega)
  simp only [getD_drop] at hv
  rw [hcrc, hv] at hbig hmod
  have hlt := ((tornFile R F e T rest).getD 7 0).isLt
  rcases show T = 4 ∨ T = 5 by omega with rfl | rfl
  · have h0 := hzero 0 (by omega)
    have h1 := hzero 1 (by omega)
    have h2 := hzero 2 (by omega)
    simp only [Nat.add_zero, Nat.reduceAdd] at h0 h1 h2 hbig
    omega
  · have h0 := hzero 0 (by omega)
    have h1 := hzero 1 (by omega)
    have h2 := hzero 2 (by omega)
    simp only [Nat.add_zero, Nat.reduceAdd] at h0 h1 h2 hmod
    omega

end

/-! ## Reopening -/

/-- A file cut inside its header cannot be opened. -/
theorem openFile_short {b : Bytes} (h0 : b ≠ []) (h8 : b.length < 8) {f : Bytes} :
    W.openFile (some b) ≠ .ok f := by
  obtain ⟨x, t, rfl⟩ := List.exists_cons_of_ne_nil h0
  have hl : ((x :: t).take 8).length < 8 := by rw [List.length_take]; omega
  simp only [openFile]
  rw [if_pos (Or.inl hl)]
  exact fun h => by cases h

/-- What opening a cut log leaves: the whole frames and the torn tail. -/
theorem openFile_cut {es : List WalEntry} {cut : ℕ} {f : Bytes}
    (h : W.openFile (some ((walMagic ++ es.flatMap (WalEntry.bytes R)).take cut)) = .ok f) :
    f = walMagic ++ ((WalEntry.wholeBefore R (cut - 8) es).flatMap (WalEntry.bytes R) ++
      WalEntry.tornTail R (cut - 8) es) := by
  rw [← WalEntry.take_frames]
  by_cases h8 : 8 ≤ cut
  · have ht : (walMagic ++ es.flatMap (WalEntry.bytes R)).take cut =
        walMagic ++ (es.flatMap (WalEntry.bytes R)).take (cut - 8) := by
      rw [List.take_append, List.take_of_length_le (show walMagic.length ≤ cut from h8)]; rfl
    rw [ht] at h
    exact (Except.ok.inj h).symm
  · have ht : (walMagic ++ es.flatMap (WalEntry.bytes R)).take cut = walMagic.take cut :=
      List.take_append_of_le_length (show cut ≤ walMagic.length by
        have : walMagic.length = 8 := rfl
        omega)
    rw [ht] at h
    rw [show cut - 8 = 0 by omega, List.take_zero, List.append_nil]
    rcases Nat.eq_zero_or_pos cut with rfl | hc
    · exact (Except.ok.inj h).symm
    · have hm : (walMagic.take cut).length = cut := by
        rw [List.length_take, show walMagic.length = 8 from rfl]; omega
      refine absurd h (openFile_short (fun h0 => ?_) (by omega))
      rw [h0, List.length_nil] at hm; omega

/-- **A log that was cut and continued is read back** (every whole record before the cut, then
    every record appended since, and no error) exactly if nothing was appended or the cut left no
    torn frame. -/
theorem reopen_replay_iff {recs later : List WalEntry} {cut : ℕ} {f₀ f₁ f₂ f₃ : Bytes}
    (h₀ : W.openFile none = .ok f₀) (h₁ : W.appendAll R f₀ recs = .ok f₁)
    (h₂ : W.openFile (some (f₁.take cut)) = .ok f₂) (h₃ : W.appendAll R f₂ later = .ok f₃) :
    ((W.replay R false f₃).2 = none ∧ (W.replay R false f₃).1.map WalRecord.content =
        (WalEntry.wholeBefore R (cut - 8) recs ++ later).map WalEntry.content) ↔
      later = [] ∨ WalEntry.tornTail R (cut - 8) recs = [] := by
  obtain rfl : walMagic = f₀ := Except.ok.inj h₀
  obtain ⟨hr, rfl⟩ := appendAll_ok_iff.1 h₁
  obtain ⟨hl, rfl⟩ := appendAll_ok_iff.1 h₃
  obtain rfl := openFile_cut h₂
  have hw : ∀ e ∈ WalEntry.wholeBefore R (cut - 8) recs, e.Fits R W :=
    fun e he => hr e (WalEntry.wholeBefore_sub e he)
  rw [List.append_assoc, List.append_assoc, replay_magic, read_entries hw]
  generalize hoff : 8 + ((WalEntry.wholeBefore R (cut - 8) recs).flatMap
    (WalEntry.bytes R)).length = off
  simp only [List.map_append, content_recordsAt, List.append_cancel_left_eq]
  rcases WalEntry.tornTail_cases (R := R) (cut - 8) recs with ht | ⟨F, hF, T, hT0, hT, ht⟩
  · -- no torn frame: the later frames follow the whole ones
    simp only [ht, List.nil_append, or_true, iff_true]
    rw [read_whole hl, content_recordsAt]
    exact ⟨rfl, rfl⟩
  · have hne : WalEntry.tornTail R (cut - 8) recs ≠ [] := by
      rw [ht]
      intro h0
      have := congrArg List.length h0
      simp only [List.length_take, List.length_nil] at this; omega
    simp only [hne, or_false]
    constructor
    · -- a later frame behind the torn one is not read
      rintro ⟨herr, hmap⟩
      cases later with
      | nil => rfl
      | cons e es =>
        exfalso
        have hfile : WalEntry.tornTail R (cut - 8) recs ++ (e :: es).flatMap (WalEntry.bytes R) =
            tornFile R F e T (es.flatMap (WalEntry.bytes R)) := by
          rw [ht, List.flatMap_cons, tornFile]
        rw [hfile] at herr hmap
        cases hn : W.readFrame R false off (tornFile R F e T (es.flatMap (WalEntry.bytes R))) with
        | stop => rw [read_stop hn] at hmap; simp at hmap
        | fail x => rw [read_fail hn] at herr; simp at herr
        | item a n =>
          obtain ⟨x, hx⟩ := torn_step (hr F hF) (hl e (by simp)) hT0 hT hn
          rw [read_item readFrame_progress hn, read_fail hx] at herr
          simp at herr
    · rintro rfl
      rw [ht, List.flatMap_nil, List.append_nil, read_stop (readFrame_torn (hr F hF) hT)]
      simp

namespace Sample

def log : WriteAheadLog := { path := str "peer.wal", maxRecordBytes_pos := maxFrameSize_pos }

noncomputable def runtime : Runtime := .ofScheme .suffix

/-- An entry with an empty object. -/
def entry (ty : ℕ) : WalEntry := ⟨ty, ⟨[], by decide⟩⟩

theorem entry_fits : (entry 1).Fits runtime log ∧ (entry 2).Fits runtime log :=
  ⟨⟨by decide, by decide, by decide, by decide, by decide⟩,
    ⟨by decide, by decide, by decide, by decide, by decide⟩⟩

end Sample

theorem reopen_replay_whole :
    (Sample.log.replay Sample.runtime false (walMagic ++ (Sample.entry 1).bytes Sample.runtime ++
      (Sample.entry 2).bytes Sample.runtime)).2 = none ∧
    (Sample.log.replay Sample.runtime false (walMagic ++ (Sample.entry 1).bytes Sample.runtime ++
      (Sample.entry 2).bytes Sample.runtime)).1.map WalRecord.content =
      [(Sample.entry 1).content, (Sample.entry 2).content] :=
  have hfirst : Sample.log.appendAll Sample.runtime walMagic [Sample.entry 1, Sample.entry 1] =
      .ok _ := appendAll_ok_iff.2 ⟨by simp [Sample.entry_fits.1], rfl⟩
  have hlater : Sample.log.appendAll Sample.runtime (walMagic ++
      (Sample.entry 1).bytes Sample.runtime) [Sample.entry 2] = .ok _ :=
    appendAll_ok_iff.2 ⟨by simp [Sample.entry_fits.2], by simp⟩
  have hcut : Sample.log.openFile (some (List.take 19 _)) =
      .ok (walMagic ++ (Sample.entry 1).bytes Sample.runtime) := by decide
  (reopen_replay_iff rfl hfirst hcut hlater).2 (Or.inr (by decide))

/-- A crash in the middle of a payload, a reopening and one append: replaying fails. -/
theorem reopen_replay_fails :
    ¬ ∀ (R : Runtime) (W : WriteAheadLog) (recs later : List WalEntry) (cut : ℕ)
      (f₀ f₁ f₂ f₃ : Bytes), W.openFile none = .ok f₀ → W.appendAll R f₀ recs = .ok f₁ →
      W.openFile (some (f₁.take cut)) = .ok f₂ → W.appendAll R f₂ later = .ok f₃ →
      (W.replay R false f₃).2 = none ∧ (W.replay R false f₃).1.map WalRecord.content =
        (WalEntry.wholeBefore R (cut - 8) recs ++ later).map WalEntry.content := by
  intro h
  have hbad := (h Sample.runtime Sample.log [Sample.entry 1] [Sample.entry 2] 18 walMagic
    (walMagic ++ (Sample.entry 1).bytes Sample.runtime)
    (walMagic ++ ((Sample.entry 1).bytes Sample.runtime).take 10)
    (walMagic ++ ((Sample.entry 1).bytes Sample.runtime).take 10 ++
      (Sample.entry 2).bytes Sample.runtime) rfl
    (appendAll_ok_iff.2 ⟨by simp [Sample.entry_fits.1], by simp⟩) (by decide)
    (appendAll_ok_iff.2 ⟨by simp [Sample.entry_fits.2], by simp⟩)).1
  revert hbad
  decide

end WriteAheadLog

end PeerQ
