/-
  Reading a log frame by frame, big-endian words, and CRC-32.

  A reader (`Next`) looks at the rest of a log and stops, fails, or returns an
  item with the length of its frame; `read` repeats it to the end.  For frames
  that the reader takes whatever follows them (`Takes`), reading a concatenation
  returns their items and goes on behind them (`read_frames`); so does reading a
  log that was read to its very end before (`read_append`).
-/
import PeerQ.Lib.Text

namespace Py

/-! ## Reading -/

/-- One reading step: stop, fail, or an item and the length of its frame. -/
inductive Next (ε α : Type) where
  | stop
  | fail (e : ε)
  | item (a : α) (n : ℕ)

variable {ε α : Type}

/-- The items up to the end, and the error that ended the reading if any. -/
def readAux (next : ℕ → Bytes → Next ε α) : ℕ → ℕ → Bytes → List α × Option ε
  | 0, _, _ => ([], none)
  | fuel + 1, off, b =>
    match next off b with
    | .stop => ([], none)
    | .fail e => ([], some e)
    | .item a n =>
      let r := readAux next fuel (off + n) (b.drop n)
      (a :: r.1, r.2)

/-- Read a log from offset `off`, of which `b` is the rest. -/
def read (next : ℕ → Bytes → Next ε α) (off : ℕ) (b : Bytes) : List α × Option ε :=
  readAux next (b.length + 1) off b

/-- Frames are not empty and lie in the log. -/
def Progress (next : ℕ → Bytes → Next ε α) : Prop :=
  ∀ off b a n, next off b = .item a n → 0 < n ∧ n ≤ b.length

section
variable {next : ℕ → Bytes → Next ε α} (hp : Progress next)
include hp

theorem readAux_fuel : ∀ (k k' off : ℕ) (b : Bytes), b.length < k → b.length < k' →
    readAux next k off b = readAux next k' off b
  | 0, _, _, _, h, _ => absurd h (Nat.not_lt_zero _)
  | _, 0, _, _, _, h => absurd h (Nat.not_lt_zero _)
  | k + 1, k' + 1, off, b, h, h' => by
    unfold readAux
    cases hn : next off b with
    | stop => rfl
    | fail e => rfl
    | item a n =>
      obtain ⟨h0, hle⟩ := hp off b a n hn
      simp only
      rw [readAux_fuel k k' (off + n) (b.drop n) (by rw [List.length_drop]; omega)
        (by rw [List.length_drop]; omega)]

theorem read_item {off n : ℕ} {b : Bytes} {a : α} (h : next off b = .item a n) :
    read next off b = (a :: (read next (off + n) (b.drop n)).1,
      (read next (off + n) (b.drop n)).2) := by
  obtain ⟨h0, hle⟩ := hp off b a n h
  have hf := readAux_fuel hp b.length ((b.drop n).length + 1) (off + n) (b.drop n)
    (by rw [List.length_drop]; omega) (Nat.lt_succ_self _)
  rw [read, readAux, h]
  simp only [read, hf]

omit hp in
theorem read_stop {off : ℕ} {b : Bytes} (h : next off b = .stop) : read next off b = ([], none) := by
  rw [read, readAux, h]

omit hp in
theorem read_fail {off : ℕ} {b : Bytes} {e : ε} (h : next off b = .fail e) :
    read next off b = ([], some e) := by
  rw [read, readAux, h]

/-- The reader takes the frame `f` for the item `a`, whatever follows it. -/
def Takes (next : ℕ → Bytes → Next ε α) (f : Bytes) (a : ℕ → α) : Prop :=
  ∀ off rest, next off (f ++ rest) = .item (a off) f.length

/-- The items of frames that start at offset `off`. -/
def itemsAt : ℕ → List (Bytes × (ℕ → α)) → List α
  | _, [] => []
  | off, (f, a) :: fs => a off :: itemsAt (off + f.length) fs

/-- Reading a concatenation of frames returns their items and goes on behind them. -/
theorem read_frames : ∀ (fs : List (Bytes × (ℕ → α))) (off : ℕ) (tail : Bytes),
    (∀ f ∈ fs, Takes next f.1 f.2) →
    read next off (fs.flatMap Prod.fst ++ tail) =
      (itemsAt off fs ++ (read next (off + (fs.flatMap Prod.fst).length) tail).1,
        (read next (off + (fs.flatMap Prod.fst).length) tail).2)
  | [], off, tail, _ => by simp [itemsAt]
  | (f, a) :: fs, off, tail, h => by
    have hf : Takes next f a := h (f, a) (by simp)
    have ih := read_frames fs (off + f.length) tail fun g hg => h g (by simp [hg])
    simp only [List.flatMap_cons, List.append_assoc]
    rw [read_item hp (hf off _), List.drop_left, ih]
    simp [itemsAt, List.length_append, Nat.add_assoc]

/-- A log that a reader reads to its very end is read in the same way, whatever is put behind it, by
    one that returns the same items there. -/
theorem read_append {next' : ℕ → Bytes → Next ε α} (hp' : Progress next')
    (hitem : ∀ off b tail a n, next' off b = .item a n → next off (b ++ tail) = .item a n)
    (hstop : ∀ off b, next' off b = .stop → b = []) (tail : Bytes) :
    ∀ (b : Bytes) (off : ℕ), (read next' off b).2 = none →
    read next off (b ++ tail) = ((read next' off b).1 ++ (read next (off + b.length) tail).1,
      (read next (off + b.length) tail).2) := by
  intro b
  -- on the length of what is left to read
  induction hb : b.length using Nat.strong_induction_on generalizing b with
  | _ k ih =>
    intro off h
    cases hn : next' off b with
    | stop =>
      obtain rfl := hstop off b hn
      rw [read_stop hn, ← hb]
      simp
    | fail e =>
      rw [read_fail hn] at h
      exact absurd h (by simp)
    | item a n =>
      obtain ⟨h0, hle⟩ := hp' off b a n hn
      have hlen : (b.drop n).length = b.length - n := List.length_drop
      rw [read_item hp' hn] at h ⊢
      rw [read_item hp (hitem off b tail a n hn), List.drop_append_of_le_length hle,
        ih _ (by omega) (b.drop n) rfl (off + n) h, hlen,
        show off + n + (b.length - n) = off + k by omega]
      simp

end

/-! ## Words -/

/-- The four octets of a word, most significant first. -/
def be32 (n : ℕ) : Bytes :=
  [Fin.ofNat _ (n / 2 ^ 24), Fin.ofNat _ (n / 2 ^ 16), Fin.ofNat _ (n / 2 ^ 8), Fin.ofNat _ n]

/-- The number of big-endian octets. -/
def beVal (b : Bytes) : ℕ := b.foldl (fun n x => 256 * n + x.val) 0

theorem beVal_be32 {n : ℕ} (h : n < 2 ^ 32) : beVal (be32 n) = n := by
  simp only [beVal, be32, List.foldl_cons, List.foldl_nil, Fin.val_ofNat]
  omega

theorem length_be32 (n : ℕ) : (be32 n).length = 4 := rfl

theorem beVal_inj {l l' : Bytes} (hl : l.length = l'.length) (h : beVal l = beVal l') : l = l' := by
  have hfold : ∀ (l l' : Bytes) (a a' : ℕ), l.length = l'.length →
      l.foldl (fun n x => 256 * n + x.val) a = l'.foldl (fun n x => 256 * n + x.val) a' →
      a = a' ∧ l = l' := by
    intro l
    induction l with
    | nil =>
      intro l' a a' hl h
      obtain rfl := List.length_eq_zero_iff.1 hl.symm
      exact ⟨h, rfl⟩
    | cons x l ih =>
      intro l' a a' hl h
      cases l' with
      | nil => cases hl
      | cons y l' =>
        obtain ⟨hstep, rfl⟩ := ih l' _ _ (Nat.succ.inj hl) h
        simp only at hstep
        have hxy : x.val = y.val := by omega
        exact ⟨by omega, by rw [Fin.ext hxy]⟩
  exact (hfold l l' 0 0 hl h).2

/-! ## CRC-32 -/

/-- Eight shifts of the reflected remainder. -/
def crcShift : ℕ → ℕ → ℕ
  | 0, c => c
  | n + 1, c => crcShift n (if c % 2 = 1 then Nat.xor (c / 2) 0xedb88320 else c / 2)

/-- `zlib.crc32`. -/
def crc32 (data : Bytes) : ℕ :=
  Nat.xor (data.foldl (fun c b => crcShift 8 (Nat.xor c b.val)) 0xffffffff) 0xffffffff

theorem crcShift_lt : ∀ (n : ℕ) {c : ℕ}, c < 2 ^ 32 → crcShift n c < 2 ^ 32
  | 0, _, h => h
  | n + 1, c, h => by
    unfold crcShift
    refine crcShift_lt n ?_
    split_ifs
    · exact Nat.xor_lt_two_pow (by omega) (by decide)
    · omega

/-- The remainder after more octets. -/
def crcFold (c : ℕ) (data : Bytes) : ℕ := data.foldl (fun c b => crcShift 8 (Nat.xor c b.val)) c

theorem crcFold_lt : ∀ (data : Bytes) {c : ℕ}, c < 2 ^ 32 → crcFold c data < 2 ^ 32
  | [], _, h => h
  | b :: data, c, h =>
    crcFold_lt data (crcShift_lt 8 (Nat.xor_lt_two_pow h (by omega)))

theorem crc32_lt (data : Bytes) : crc32 data < 2 ^ 32 :=
  Nat.xor_lt_two_pow (crcFold_lt data (by decide)) (by decide)

example : crc32 (ascii "123456789") = 0xcbf43926 := by decide +kernel

/-! ## What CRC-32 detects

The polynomial has its highest bit set, so a shift can be undone; hence every octet of the data counts. -/

theorem crcShift_inj : ∀ (n : ℕ) {c d : ℕ}, c < 2 ^ 32 → d < 2 ^ 32 →
    crcShift n c = crcShift n d → c = d
  | 0, _, _, _, _, h => h
  | n + 1, c, d, hc, hd, h => by
    have hlt : ∀ {c : ℕ}, c < 2 ^ 32 →
        (if c % 2 = 1 then Nat.xor (c / 2) 0xedb88320 else c / 2) < 2 ^ 32 := by
      intro c hc
      split_ifs
      · exact Nat.xor_lt_two_pow (by omega) (by decide)
      · omega
    -- the highest bit of the result tells whether the lowest one was set
    have hhigh : ∀ {c : ℕ}, c < 2 ^ 32 → 2 ^ 31 ≤ Nat.xor (c / 2) 0xedb88320 := by
      intro c hc
      refine Nat.ge_two_pow_of_testBit ?_
      rw [show Nat.xor (c / 2) 0xedb88320 = (c / 2) ^^^ 0xedb88320 from rfl, Nat.testBit_xor,
        Nat.testBit_lt_two_pow (show c / 2 < 2 ^ 31 by omega)]
      decide
    have hstep := crcShift_inj n (hlt hc) (hlt hd) h
    have hchigh := hhigh hc
    have hdhigh := hhigh hd
    split_ifs at hstep with h1 h2 h2
    · have := Nat.xor_left_injective hstep
      omega
    · omega
    · omega
    · omega

theorem crcFold_inj : ∀ (data : Bytes) {c d : ℕ}, c < 2 ^ 32 → d < 2 ^ 32 →
    crcFold c data = crcFold d data → c = d
  | [], _, _, _, _, h => h
  | b :: data, c, d, hc, hd, h => by
    have hc' : Nat.xor c b.val < 2 ^ 32 := Nat.xor_lt_two_pow hc (by omega)
    have hd' : Nat.xor d b.val < 2 ^ 32 := Nat.xor_lt_two_pow hd (by omega)
    have := crcFold_inj data (crcShift_lt 8 hc') (crcShift_lt 8 hd') h
    exact Nat.xor_left_injective (crcShift_inj 8 hc' hd' this)

/-- **CRC-32 detects the change of one octet.** -/
theorem crc32_set {data : Bytes} {i : ℕ} (hi : i < data.length) {x : Byte} (hx : data[i] ≠ x) :
    crc32 (data.set i x) ≠ crc32 data := by
  intro h
  have hold : data = data.take i ++ data[i] :: data.drop (i + 1) := by simp
  have hnew : data.set i x = data.take i ++ x :: data.drop (i + 1) := by
    rw [List.set_eq_take_append_cons_drop, if_pos hi]
  generalize data[i] = y at hx hold
  have hsame : crc32 (data.take i ++ x :: data.drop (i + 1)) =
      crc32 (data.take i ++ y :: data.drop (i + 1)) := by
    rw [← hnew, ← hold]
    exact h
  have hfold : ∀ z : Byte, crc32 (data.take i ++ z :: data.drop (i + 1)) = Nat.xor (crcFold
      (crcShift 8 (Nat.xor (crcFold 0xffffffff (data.take i)) z.val)) (data.drop (i + 1)))
      0xffffffff := by
    intro z
    rw [crc32, List.foldl_append, List.foldl_cons]
    rfl
  have hstart := crcFold_lt (data.take i) (show 0xffffffff < 2 ^ 32 by decide)
  have hlt : ∀ z : Byte, Nat.xor (crcFold 0xffffffff (data.take i)) z.val < 2 ^ 32 :=
    fun z => Nat.xor_lt_two_pow hstart (by omega)
  have hcrc := crcShift_inj 8 (hlt x) (hlt y) (crcFold_inj _ (crcShift_lt 8 (hlt x))
    (crcShift_lt 8 (hlt y)) (Nat.xor_left_injective ((hfold x).symm.trans (hsame.trans (hfold y)))))
  exact hx (Fin.ext (Nat.xor_right_injective hcrc).symm)

end Py
