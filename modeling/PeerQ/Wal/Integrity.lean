/-
  A log that is cut, and a log with a changed octet.

  Cut at any octet behind the header, a log is read back up to the last whole
  frame, and a strict reading reports the frame that was cut (`torn_tail`).

  A changed octet of a checksum, a type or a payload is always reported: the
  checksum covers type and payload.  It does not cover the length.  A length that
  was changed so that the frame ends behind the end of the file looks like a torn
  tail, and everything from that frame on is dropped silently; otherwise the change
  is reported, unless the checksum is by chance that of the span that the frame has
  then (`corruption_detected_iff`).
-/
import PeerQ.Wal.Reopen

namespace PeerQ

open Py

namespace WriteAheadLog

variable {R : Runtime} {W : WriteAheadLog} {off : ℕ}

/-! ## Appending, with the offsets -/

/-- Append entries one after the other and keep the offsets that `append` returns. -/
def appendEach (R : Runtime) (W : WriteAheadLog) (file : Bytes) :
    List WalEntry → Except Exn (List ℕ × Bytes)
  | [] => .ok ([], file)
  | e :: es => do
    let r ← W.append R file e.recordType e.payload
    let rs ← appendEach R W r.2 es
    pure (r.1 :: rs.1, rs.2)

/-- The offsets of frames, the first one at `off`. -/
def offsetsAt (R : Runtime) : ℕ → List WalEntry → List ℕ
  | _, [] => []
  | off, e :: es => off :: offsetsAt R (off + (e.bytes R).length) es

theorem appendEach_ok : ∀ {es : List WalEntry} {file f : Bytes} {offsets : List ℕ},
    W.appendEach R file es = .ok (offsets, f) →
      (∀ e ∈ es, e.Fits R W) ∧ offsets = offsetsAt R file.length es ∧
        f = file ++ es.flatMap (WalEntry.bytes R)
  | [], file, f, offsets, h => by
    obtain ⟨rfl, rfl⟩ := Prod.mk.inj (Except.ok.inj h)
    simp [offsetsAt]
  | e :: es, file, f, offsets, h => by
    rw [appendEach, bind_eq_ok] at h
    obtain ⟨⟨o, g⟩, h1, h⟩ := h
    rw [bind_eq_ok] at h
    obtain ⟨⟨os, g'⟩, h2, h⟩ := h
    obtain ⟨hfit, rfl, rfl⟩ := append_ok_iff.1 h1
    obtain ⟨hfits, rfl, rfl⟩ := appendEach_ok h2
    obtain ⟨rfl, rfl⟩ := Prod.mk.inj (Except.ok.inj h)
    refine ⟨List.forall_mem_cons.2 ⟨hfit, hfits⟩, ?_, by simp⟩
    rw [offsetsAt, List.length_append]

/-! ## Torn frames -/

/-- A strict reading reports an incomplete frame at the end. -/
theorem readFrame_torn_strict {e : WalEntry} (h : e.Fits R W) {j : ℕ} (h0 : 0 < j)
    (hj : j < (e.bytes R).length) :
    ∃ msg, W.readFrame R true off ((e.bytes R).take j) = .fail (.walCorruptError msg) := by
  have hfl : (e.bytes R).length = 9 + (e.text R).length := length_frame _ _
  have hl : ((e.bytes R).take j).length = j := by rw [List.length_take]; omega
  have hne : ¬ (((e.bytes R).take j).take 9).isEmpty = true := by
    intro h
    have := congrArg List.length (List.isEmpty_iff.1 h)
    rw [List.length_take, hl, List.length_nil] at this
    omega
  rw [readFrame]
  simp only [frameHeaderLen]
  rw [if_neg hne]
  by_cases h9 : j < 9
  · rw [if_pos (by rw [List.length_take, hl]; omega)]
    exact ⟨_, rfl⟩
  -- the header is complete and says what the frame's own header says
  have hlen : beVal (((e.bytes R).take j).take 4) = (e.text R).length := by
    rw [List.take_take, Nat.min_eq_left (by omega)]
    exact beVal_be32 h.word
  have hty : (((e.bytes R).take j).getD 8 0).val = e.recordType := by
    rw [List.getD_eq_getElem?_getD, List.getElem?_take_of_lt (by omega)]
    rcases knownType_lt h.known with h | h | h <;>
      simp [WalEntry.bytes, frame, h, be32]
  rw [if_neg (by rw [List.length_take, hl]; omega)]
  simp only [take_header, hlen, hty, h.known, Bool.not_true]
  rw [if_neg (by simp), if_neg (not_lt.2 h.limit), if_pos]
  · exact ⟨_, rfl⟩
  · rw [List.length_take, List.length_drop, hl]; omega

/-- The record of an entry at an offset. -/
def recordOf (x : ℕ × WalEntry) : WalRecord := ⟨x.1, x.2.recordType, x.2.payload.canon⟩

/-- The frame that starts at the offset lies below `p`. -/
def below (R : Runtime) (p : ℕ) (x : ℕ × WalEntry) : Bool := x.1 + (x.2.bytes R).length ≤ p

/-- The whole frames before a position are those up to the first that goes beyond it. -/
theorem takeWhile_below : ∀ (es : List WalEntry) (off k : ℕ),
    (((offsetsAt R off es).zip es).takeWhile (below R (off + k))).map recordOf =
      recordsAt R off (WalEntry.wholeBefore R k es)
  | [], _, _ => rfl
  | e :: es, off, k => by
    rw [offsetsAt, List.zip_cons_cons, WalEntry.wholeBefore]
    by_cases h : (e.bytes R).length ≤ k
    · have hb : below R (off + k) (off, e) = true := by simpa [below] using h
      have ih := takeWhile_below es (off + (e.bytes R).length) (k - (e.bytes R).length)
      rw [show off + (e.bytes R).length + (k - (e.bytes R).length) = off + k by omega] at ih
      rw [List.takeWhile_cons_of_pos hb, if_pos h, List.map_cons, ih]
      rfl
    · have hb : ¬ below R (off + k) (off, e) = true := by simpa [below] using h
      rw [List.takeWhile_cons_of_neg hb, if_neg h]
      rfl

/-- Nothing is torn exactly if the cut is at the start of a frame or at the end. -/
theorem tornTail_eq_nil : ∀ (es : List WalEntry) (off k : ℕ),
    k ≤ (es.flatMap (WalEntry.bytes R)).length → (WalEntry.tornTail R k es = [] ↔
      off + k ∈ offsetsAt R off es ++ [off + (es.flatMap (WalEntry.bytes R)).length])
  | [], off, k, hk => by
    obtain rfl : k = 0 := by simpa using hk
    simp [WalEntry.tornTail, offsetsAt]
  | e :: es, off, k, hk => by
    have hpos : 0 < (e.bytes R).length := by
      rw [show (e.bytes R).length = 9 + (e.text R).length from length_frame _ _]; omega
    have hle : ∀ o ∈ offsetsAt R (off + (e.bytes R).length) es, off + (e.bytes R).length ≤ o :=
      offsetsAt_le es _
    rw [List.flatMap_cons, List.length_append] at hk ⊢
    rw [WalEntry.tornTail, offsetsAt]
    by_cases h : (e.bytes R).length ≤ k
    · have ih := tornTail_eq_nil es (off + (e.bytes R).length) (k - (e.bytes R).length) (by omega)
      rw [show off + (e.bytes R).length + (k - (e.bytes R).length) = off + k by omega,
        Nat.add_assoc] at ih
      rw [if_pos h, ih, List.cons_append, List.mem_cons]
      exact ⟨Or.inr, fun h => h.resolve_left (by omega)⟩
    · rw [if_neg h, List.cons_append, List.mem_cons, List.mem_append, List.mem_singleton]
      have hlen : ((e.bytes R).take k).length = k := by rw [List.length_take]; omega
      constructor
      · intro hnil
        rw [hnil, List.length_nil] at hlen
        omega
      · rintro (hk0 | hm | hend)
        · exact List.length_eq_zero_iff.1 (by omega)
        · exact absurd (hle _ hm) (by omega)
        · omega
where
  offsetsAt_le : ∀ (es : List WalEntry) (off : ℕ), ∀ o ∈ offsetsAt R off es, off ≤ o
    | [], _, _, h => by cases h
    | e :: es, off, o, h => by
      rcases List.mem_cons.1 h with rfl | h
      · exact le_rfl
      · exact (Nat.le_add_right _ _).trans (offsetsAt_le es _ o h)

/-- **A log that is cut behind its header** is read back up to the last whole frame, with types,
    payloads and the offsets that `append` returned.  A strict reading returns the same records and
    reports corruption exactly if the cut is not between two frames. -/
theorem torn_tail {es : List WalEntry} {offsets : List ℕ} {f : Bytes}
    (h : W.appendEach R walMagic es = .ok (offsets, f)) {p : ℕ} (h8 : 8 ≤ p) (hp : p ≤ f.length) :
    W.replay R false (f.take p) =
      (((offsets.zip es).takeWhile (below R p)).map recordOf, none) ∧
    (W.replay R true (f.take p)).1 = ((offsets.zip es).takeWhile (below R p)).map recordOf ∧
    ((∃ msg, (W.replay R true (f.take p)).2 = some (.walCorruptError msg)) ↔
      p ∉ offsets ++ [f.length]) ∧
    (p ∈ offsets ++ [f.length] → (W.replay R true (f.take p)).2 = none) := by
  obtain ⟨hfit, rfl, rfl⟩ := appendEach_ok h
  obtain ⟨k, rfl⟩ := Nat.exists_eq_add_of_le h8
  rw [List.length_append, show walMagic.length = 8 from rfl] at hp ⊢
  have hcut : (walMagic ++ es.flatMap (WalEntry.bytes R)).take (8 + k) = walMagic ++
      ((WalEntry.wholeBefore R k es).flatMap (WalEntry.bytes R) ++ WalEntry.tornTail R k es) := by
    rw [← WalEntry.take_frames, List.take_append, List.take_of_length_le (Nat.le_add_right 8 k),
      show walMagic.length = 8 from rfl, Nat.add_sub_cancel_left]
  have hwhole : ∀ e ∈ WalEntry.wholeBefore R k es, e.Fits R W :=
    fun e he => hfit e (WalEntry.wholeBefore_sub e he)
  rw [hcut, replay_magic, replay_magic, read_entries hwhole, read_entries hwhole,
    takeWhile_below, ← tornTail_eq_nil es 8 k (by omega)]
  generalize 8 + ((WalEntry.wholeBefore R k es).flatMap (WalEntry.bytes R)).length = off
  rcases WalEntry.tornTail_cases (R := R) k es with ht | ⟨e, he, j, hj0, hj, ht⟩
  · have hstop : ∀ strict, read (W.readFrame R strict) off [] = ([], none) :=
      fun strict => read_stop rfl
    simp [ht, hstop]
  · have hne : WalEntry.tornTail R k es ≠ [] := by
      intro hnil
      have := congrArg List.length (ht.symm.trans hnil)
      rw [List.length_take, List.length_nil] at this
      omega
    obtain ⟨msg, hfail⟩ : ∃ msg, W.readFrame R true off ((e.bytes R).take j) =
        .fail (.walCorruptError msg) := readFrame_torn_strict (hfit e he) hj0 hj
    rw [ht, read_stop (readFrame_torn (hfit e he) hj), read_fail hfail, ← ht]
    simp [hne]

namespace Sample

/-- A log of two records. -/
noncomputable def twoFrames : Bytes :=
  walMagic ++ ((entry 1).bytes runtime ++ (entry 2).bytes runtime)

theorem append_twoFrames :
    log.appendEach runtime walMagic [entry 1, entry 2] = .ok ([8, 19], twoFrames) := by
  rfl

end Sample

theorem torn_tail_second : Sample.log.replay Sample.runtime false (Sample.twoFrames.take 20) =
    ([recordOf (8, Sample.entry 1)], none) := by
  have h := (torn_tail Sample.append_twoFrames (p := 20) (by decide) (by decide)).1
  have hkept : ([8, 19].zip [Sample.entry 1, Sample.entry 2]).takeWhile
      (below Sample.runtime 20) = [(8, Sample.entry 1)] := by
    rfl
  rwa [hkept] at h

/-! ## A changed octet -/

/-- The checksum of the type and of so many octets behind it is not the stored one. -/
def Mismatch (b : Bytes) (len : ℕ) : Prop :=
  crc32 (b.getD 8 0 :: (b.drop 9).take len) ≠ beVal ((b.drop 4).take 4)

/-- A reading reports the frame at the beginning: its length is beyond the limit, or it lies within
    the file and its checksum is wrong. -/
def Reported (W : WriteAheadLog) (b : Bytes) : Prop :=
  W.maxRecordBytes < beVal (b.take 4) ∨
    9 + beVal (b.take 4) ≤ b.length ∧ Mismatch b (beVal (b.take 4))

theorem readFrame_reported {strict : Bool} {b : Bytes} (h9 : 9 ≤ b.length) (h : W.Reported b) :
    ∃ msg, W.readFrame R strict off b = .fail (.walCorruptError msg) := by
  obtain ⟨hne, hl⟩ := take_header_ne h9
  rw [readFrame]
  simp only [frameHeaderLen, take_header b]
  rw [if_neg hne, if_neg hl]
  split_ifs with hty hmax hshort hstrict hcrc
  · exact ⟨_, rfl⟩
  · exact ⟨_, rfl⟩
  · exact ⟨_, rfl⟩
  · rw [List.length_take, List.length_drop] at hshort
    exact absurd h (by rintro (h | ⟨h, -⟩) <;> omega)
  · exact ⟨_, rfl⟩
  · exact absurd (not_not.1 hcrc) (h.resolve_left hmax).2

/-- A frame in its parts, length and checksum, then what the checksum covers. -/
theorem reported_of_parts {H D : Bytes} (rest : Bytes) (hH : H.length = 8)
    (hD : D.length = 1 + beVal (H.take 4)) (hcrc : crc32 D ≠ beVal (H.drop 4)) :
    W.Reported (H ++ D ++ rest) := by
  obtain ⟨t, p, rfl⟩ := List.exists_cons_of_length_pos (l := D) (by omega)
  rw [List.length_cons, Nat.add_comm] at hD
  have h4 : (H ++ (t :: p) ++ rest).take 4 = H.take 4 := by
    rw [List.append_assoc, List.take_append_of_le_length (by omega)]
  have hstored : ((H ++ (t :: p) ++ rest).drop 4).take 4 = H.drop 4 := by
    rw [List.append_assoc, List.drop_append_of_le_length (by omega), List.take_append_of_le_length
      (by rw [List.length_drop]; omega), List.take_of_length_le (by rw [List.length_drop]; omega)]
  have hdrop : (H ++ (t :: p) ++ rest).drop 8 = t :: (p ++ rest) := by
    rw [List.append_assoc, ← hH, List.drop_left, List.cons_append]
  have htype : (H ++ (t :: p) ++ rest).getD 8 0 = t := by
    rw [← Nat.add_zero 8, ← getD_drop, hdrop, List.getD_cons_zero]
  have hpay : ((H ++ (t :: p) ++ rest).drop 9).take (beVal (H.take 4)) = p := by
    rw [show (9 : ℕ) = 8 + 1 from rfl, ← List.drop_drop, hdrop, List.drop_succ_cons, List.drop_zero,
      show beVal (H.take 4) = p.length by omega, List.take_left]
  refine Or.inr ⟨?_, ?_⟩
  · rw [h4, List.length_append, List.length_append, List.length_cons]
    omega
  · rw [h4, Mismatch, htype, hpay, hstored]
    exact hcrc

/-- A changed octet of a checksum, a type or a payload is reported. -/
theorem reported_of_changed {e : WalEntry} (h : e.Fits R W) {i : ℕ} {x : Byte} (h4 : 4 ≤ i)
    (hi : i < (e.bytes R).length) (hx : (e.bytes R)[i] ≠ x) (rest : Bytes) :
    W.Reported ((e.bytes R).set i x ++ rest) := by
  have hsplit : e.bytes R = (be32 (e.text R).length ++ be32 (crc32 (Fin.ofNat _ e.recordType ::
      e.text R))) ++ (Fin.ofNat _ e.recordType :: e.text R) := by
    rw [WalEntry.bytes, frame_eq, List.append_assoc]
  generalize hD : (Fin.ofNat 256 e.recordType :: e.text R) = D at hsplit
  have hDlen : D.length = 1 + (e.text R).length := by rw [← hD, List.length_cons, Nat.add_comm]
  simp only [hsplit] at hi hx ⊢
  rw [List.length_append, List.length_append, length_be32, length_be32] at hi
  by_cases h8 : i < 8
  · -- the stored checksum is another one
    rw [List.set_append_left _ _ (by simp [length_be32]; omega),
      List.set_append_right _ _ (by simp [length_be32]; omega), length_be32]
    rw [List.getElem_append_left (by simp [length_be32]; omega),
      List.getElem_append_right (by simp [length_be32]; omega)] at hx
    refine reported_of_parts rest (by simp [length_be32]) ?_ ?_
    · rw [List.take_append_of_le_length (by simp [length_be32]), List.take_of_length_le
        (by simp [length_be32]), beVal_be32 h.word, hDlen]
    · rw [show (4 : ℕ) = (be32 (e.text R).length).length from rfl, List.drop_left]
      intro heq
      have hset : be32 (crc32 D) = (be32 (crc32 D)).set (i - 4) x :=
        beVal_inj (by simp) ((beVal_be32 (crc32_lt D)).trans heq)
      exact hx ((List.getElem_of_eq hset (by simp only [length_be32]; omega)).trans
        (List.getElem_set_self (by simp only [List.length_set, length_be32]; omega)))
  · -- the checksum is that of other data
    have hHlen : (be32 (e.text R).length ++ be32 (crc32 D)).length = 8 := by simp [length_be32]
    rw [List.set_append_right _ _ (by omega), hHlen]
    rw [List.getElem_append_right (by omega)] at hx
    simp only [hHlen] at hx
    refine reported_of_parts rest hHlen ?_ ?_
    · rw [List.length_set, List.take_append_of_le_length (by simp [length_be32]),
        List.take_of_length_le (by simp [length_be32]), beVal_be32 h.word, hDlen]
    · rw [show (4 : ℕ) = (be32 (e.text R).length).length from rfl, List.drop_left,
        beVal_be32 (crc32_lt D)]
      exact crc32_set (by omega) hx

/-- The length that the frame of an entry tells when an octet of it was changed. -/
def changedLength (R : Runtime) (e : WalEntry) (i : ℕ) (x : Byte) : ℕ :=
  beVal (((e.bytes R).set i x).take 4)

/-- Where the frame behind those of the entries starts. -/
def frameStart (R : Runtime) (pre : List WalEntry) : ℕ := 8 + (pre.flatMap (WalEntry.bytes R)).length

section
variable {pre post : List WalEntry} {e : WalEntry} {f : Bytes} {i : ℕ} {x : Byte}

/-- The octet is in the frame of `e`, and the frames before it are as they were. -/
theorem set_frame (hi : i < (e.bytes R).length) :
    (walMagic ++ (pre ++ e :: post).flatMap (WalEntry.bytes R)).set (frameStart R pre + i) x =
      walMagic ++ (pre.flatMap (WalEntry.bytes R) ++
        ((e.bytes R).set i x ++ post.flatMap (WalEntry.bytes R))) := by
  have h8 : walMagic.length = 8 := rfl
  rw [List.flatMap_append, List.flatMap_cons, List.set_append_right _ _ (by
    rw [h8, frameStart]; omega), List.set_append_right _ _ (by rw [h8, frameStart]; omega),
    List.set_append_left _ _ (by rw [h8, frameStart]; omega)]
  congr 4
  rw [h8, frameStart]
  omega

/-- A changed length with which the frame ends behind the end of the file ends the reading
    normally: the frame and all behind it are dropped. -/
theorem changed_length_silent (h : W.appendAll R walMagic (pre ++ e :: post) = .ok f) (hi : i < 4)
    (hmax : changedLength R e i x ≤ W.maxRecordBytes)
    (hend : f.length < frameStart R pre + 9 + changedLength R e i x) :
    W.replay R false (f.set (frameStart R pre + i) x) = (recordsAt R 8 pre, none) := by
  obtain ⟨hfit, rfl⟩ := appendAll_ok_iff.1 h
  have he : e.Fits R W := hfit e (by simp)
  have hfl : (e.bytes R).length = 9 + (e.text R).length := length_frame _ _
  rw [set_frame (by omega), replay_magic, read_entries fun e' he' => hfit e' (by simp [he'])]
  generalize hb : (e.bytes R).set i x ++ post.flatMap (WalEntry.bytes R) = b
  have hblen : b.length = (e.bytes R).length + (post.flatMap (WalEntry.bytes R)).length := by
    rw [← hb, List.length_append, List.length_set]
  have h4 : beVal (b.take 4) = changedLength R e i x := by
    rw [← hb, List.take_append_of_le_length (by rw [List.length_set]; omega), changedLength]
  have hty : (b.getD 8 0).val = e.recordType := by
    rw [← hb, List.getD_append _ _ _ _ (by rw [List.length_set]; omega),
      List.getD_eq_getElem?_getD, List.getElem?_set_ne (by omega), ← List.getD_eq_getElem?_getD]
    have htype := frame_type e.recordType (e.text R) []
    rw [List.append_nil] at htype
    rw [WalEntry.bytes, htype]
    rcases knownType_lt he.known with h | h | h <;> rw [h] <;> rfl
  have hflen : (walMagic ++ (pre ++ e :: post).flatMap (WalEntry.bytes R)).length =
      frameStart R pre + b.length := by
    simp only [List.flatMap_append, List.flatMap_cons, List.length_append, hblen, frameStart,
      show walMagic.length = 8 from rfl]
    omega
  have hstop : W.readFrame R false (8 + (pre.flatMap (WalEntry.bytes R)).length) b = .stop :=
    readFrame_head (by omega) (by rw [hty]; exact he.known) (by rw [h4]; exact hmax)
      (by rw [h4]; omega)
  rw [read_stop hstop]
  simp

/-- What stands from the changed frame on. -/
theorem drop_frameStart (hi : i < (e.bytes R).length) :
    ((walMagic ++ (pre ++ e :: post).flatMap (WalEntry.bytes R)).set (frameStart R pre + i) x).drop
      (frameStart R pre) = (e.bytes R).set i x ++ post.flatMap (WalEntry.bytes R) := by
  have hstart : frameStart R pre = (walMagic ++ pre.flatMap (WalEntry.bytes R)).length := by
    rw [List.length_append]
    rfl
  rw [set_frame hi, ← List.append_assoc, hstart, List.drop_left]

/-- A changed frame that is reported ends the reading. -/
theorem changed_reported (h : W.appendAll R walMagic (pre ++ e :: post) = .ok f)
    (hi : i < (e.bytes R).length)
    (hrep : W.Reported ((f.set (frameStart R pre + i) x).drop (frameStart R pre))) :
    ∃ msg, (W.replay R false (f.set (frameStart R pre + i) x)).2 = some (.walCorruptError msg) := by
  obtain ⟨hfit, rfl⟩ := appendAll_ok_iff.1 h
  have hfl : (e.bytes R).length = 9 + (e.text R).length := length_frame _ _
  rw [drop_frameStart hi] at hrep
  obtain ⟨msg, hfail⟩ : ∃ msg, W.readFrame R false (8 + (pre.flatMap (WalEntry.bytes R)).length)
      ((e.bytes R).set i x ++ post.flatMap (WalEntry.bytes R)) = .fail (.walCorruptError msg) :=
    readFrame_reported (by rw [List.length_append, List.length_set]; omega) hrep
  refine ⟨msg, ?_⟩
  rw [set_frame hi, replay_magic, read_entries (fun e' he' => hfit e' (by simp [he'])),
    read_fail hfail]

/-- **Corruption is not mistaken for a torn tail, exactly**: a log in which an octet of a frame was
    changed fails to be read if and only if the octet is not in the length of the frame, or the length
    is then beyond the limit, or the frame still lies within the file.  Otherwise the reading ends
    normally before the frame.  For a frame that still lies within the file, its checksum must differ
    from that of the span that it has then. -/
theorem corruption_detected_iff (h : W.appendAll R walMagic (pre ++ e :: post) = .ok f)
    (hi : i < (e.bytes R).length) (hx : (e.bytes R)[i] ≠ x)
    (hspan : i < 4 → changedLength R e i x ≤ W.maxRecordBytes →
      frameStart R pre + 9 + changedLength R e i x ≤ f.length →
      Mismatch ((f.set (frameStart R pre + i) x).drop (frameStart R pre)) (changedLength R e i x)) :
    ((∃ msg, (W.replay R false (f.set (frameStart R pre + i) x)).2 = some (.walCorruptError msg)) ↔
      (i < 4 → W.maxRecordBytes < changedLength R e i x ∨
        frameStart R pre + 9 + changedLength R e i x ≤ f.length)) ∧
    (i < 4 → changedLength R e i x ≤ W.maxRecordBytes →
      f.length < frameStart R pre + 9 + changedLength R e i x →
      W.replay R false (f.set (frameStart R pre + i) x) = (recordsAt R 8 pre, none)) := by
  have hsilent := fun h4 => changed_length_silent (i := i) (x := x) h h4
  refine ⟨⟨?_, fun hcond => changed_reported h hi ?_⟩, hsilent⟩
  · rintro ⟨msg, hmsg⟩ h4
    by_contra hnot
    obtain ⟨hmax, hend⟩ := not_or.1 hnot
    rw [hsilent h4 (not_lt.1 hmax) (not_le.1 hend)] at hmsg
    cases hmsg
  · obtain ⟨hfit, rfl⟩ := appendAll_ok_iff.1 h
    have he : e.Fits R W := hfit e (by simp)
    have hfl : (e.bytes R).length = 9 + (e.text R).length := length_frame _ _
    rw [drop_frameStart hi] at hspan ⊢
    by_cases h4 : i < 4
    · have hlen : beVal (((e.bytes R).set i x ++ post.flatMap (WalEntry.bytes R)).take 4) =
          changedLength R e i x := by
        rw [List.take_append_of_le_length (by rw [List.length_set]; omega), changedLength]
      have htail : frameStart R pre +
          ((e.bytes R).set i x ++ post.flatMap (WalEntry.bytes R)).length =
          (walMagic ++ (pre ++ e :: post).flatMap (WalEntry.bytes R)).length := by
        simp only [List.flatMap_append, List.flatMap_cons, List.length_append, List.length_set,
          frameStart, show walMagic.length = 8 from rfl]
        omega
      rw [Reported, hlen]
      by_cases hmax : W.maxRecordBytes < changedLength R e i x
      · exact Or.inl hmax
      · have hin := (hcond h4).resolve_left hmax
        exact Or.inr ⟨by omega, hspan h4 (not_lt.1 hmax) hin⟩
    · exact reported_of_changed he (by omega) hi hx _

end

namespace Sample

theorem appendAll_twoFrames :
    log.appendAll runtime walMagic ([] ++ entry 1 :: [entry 2]) = .ok twoFrames :=
  appendAll_ok_iff.2 ⟨by simp [entry_fits.1, entry_fits.2], rfl⟩

end Sample

/-- The length of the first of two frames grows by an octet. -/
theorem corruption_detected_length : ∃ msg, (Sample.log.replay Sample.runtime false
    (Sample.twoFrames.set (8 + 3) 3)).2 = some (.walCorruptError msg) :=
  (corruption_detected_iff Sample.appendAll_twoFrames (i := 3) (x := 3) (by decide) (by decide)
    fun _ _ _ => by unfold Mismatch; decide +kernel).1.2 fun _ => Or.inr (by decide)

/-- A changed length of the first of two frames: both are dropped silently. -/
theorem corruption_missed :
    ¬ ∀ (R : Runtime) (W : WriteAheadLog) (pre post : List WalEntry) (e : WalEntry) (f : Bytes)
      (i : ℕ) (x : Byte) (hi : i < (e.bytes R).length),
      W.appendAll R walMagic (pre ++ e :: post) = .ok f → post ≠ [] → (e.bytes R)[i] ≠ x →
      ∃ msg, (W.replay R false (f.set (frameStart R pre + i) x)).2 =
        some (.walCorruptError msg) := by
  intro h
  obtain ⟨msg, hmsg⟩ := h Sample.runtime Sample.log [] [Sample.entry 2] (Sample.entry 1)
    Sample.twoFrames 2 1 (by decide) Sample.appendAll_twoFrames (by simp) (by decide)
  rw [changed_length_silent Sample.appendAll_twoFrames (by decide) (by decide)
    (by decide)] at hmsg
  cases hmsg

end WriteAheadLog

end PeerQ
