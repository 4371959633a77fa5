/-
  Registers in which the larger key wins and clocks are joined.

  A register (`Lww`) has a key from a linear order and a clock from a
  semilattice, and key and clock determine it among the registers of one group.
  `merge` keeps the register with the larger key and gives it the join of the
  clocks; it is the join of the order "key and clock at most" (`merge_le`), hence
  commutative, associative and idempotent.

  With a validity check that binds the clock (`Sealed`), merging valid registers
  gives a valid one only if the winner's clock is the larger one
  (`valid_merge_iff`); `guarded_laws_iff` says exactly when the merge that
  prefers valid arguments keeps the laws.
-/
import Mathlib

namespace Py

/-- Registers with a key, a clock that can be replaced, and a group. -/
structure Lww (ρ κ γ α : Type) [LinearOrder κ] [SemilatticeSup γ] where
  key : ρ → κ
  clk : ρ → γ
  put : ρ → γ → ρ
  grp : ρ → α
  key_put : ∀ r c, key (put r c) = key r
  clk_put : ∀ r c, clk (put r c) = c
  grp_put : ∀ r c, grp (put r c) = grp r
  ext : ∀ {r s}, grp r = grp s → key r = key s → clk r = clk s → r = s

namespace Lww

variable {ρ κ γ α : Type} [LinearOrder κ] [SemilatticeSup γ] (M : Lww ρ κ γ α)

/-- The register with the larger key, the first one in a tie. -/
def winner (r s : ρ) : ρ := if M.key s ≤ M.key r then r else s

/-- The winner with the join of the clocks. -/
def merge (r s : ρ) : ρ := M.put (M.winner r s) (M.clk r ⊔ M.clk s)

@[simp] theorem key_merge (r s : ρ) : M.key (M.merge r s) = max (M.key r) (M.key s) := by
  unfold merge winner
  rw [M.key_put]
  split_ifs with h
  · exact (max_eq_left h).symm
  · exact (max_eq_right (le_of_not_ge h)).symm

@[simp] theorem clk_merge (r s : ρ) : M.clk (M.merge r s) = M.clk r ⊔ M.clk s := M.clk_put _ _

variable {M}

theorem grp_merge {r s : ρ} (h : M.grp r = M.grp s) : M.grp (M.merge r s) = M.grp r := by
  unfold merge winner
  rw [M.grp_put]
  split_ifs
  exacts [rfl, h.symm]

theorem merge_self (r : ρ) : M.merge r r = r :=
  M.ext (grp_merge rfl) (by simp) (by simp)

theorem merge_comm {r s : ρ} (h : M.grp r = M.grp s) : M.merge r s = M.merge s r :=
  M.ext (by rw [grp_merge h, grp_merge h.symm, h]) (by simp [max_comm]) (by simp [sup_comm])

theorem merge_assoc {r s t : ρ} (h : M.grp r = M.grp s) (h' : M.grp s = M.grp t) :
    M.merge r (M.merge s t) = M.merge (M.merge r s) t := by
  have h1 : M.grp (M.merge s t) = M.grp s := grp_merge h'
  have h2 : M.grp (M.merge r s) = M.grp r := grp_merge h
  refine M.ext ?_ (by simp [max_assoc]) (by simp [sup_assoc])
  rw [grp_merge (h.trans h1.symm), grp_merge (h2.trans (h.trans h')), h2]

/-- The order of registers: key and clock at most. -/
def Le (M : Lww ρ κ γ α) (r s : ρ) : Prop := M.key r ≤ M.key s ∧ M.clk r ≤ M.clk s

theorem Le.trans {r s t : ρ} (h : M.Le r s) (h' : M.Le s t) : M.Le r t :=
  ⟨h.1.trans h'.1, h.2.trans h'.2⟩

theorem le_merge_left (r s : ρ) : M.Le r (M.merge r s) := ⟨by simp, by simp⟩

theorem le_merge_right (r s : ρ) : M.Le s (M.merge r s) := ⟨by simp, by simp⟩

theorem merge_le {r s t : ρ} (h1 : M.Le r t) (h2 : M.Le s t) : M.Le (M.merge r s) t :=
  ⟨by simp [h1.1, h2.1], by simp [h1.2, h2.2]⟩

theorem merge_eq_left_iff {r s : ρ} (h : M.grp r = M.grp s) : M.merge r s = r ↔ M.Le s r := by
  constructor
  · intro hr; rw [← hr]; exact le_merge_right r s
  · rintro ⟨hk, hc⟩
    exact M.ext (grp_merge h) (by simp [hk]) (by simp [hc])

/-! ## Joins of many registers -/

/-- The least register above those in `S`, up to the group. -/
def IsJoin (M : Lww ρ κ γ α) (S : ρ → Prop) (m : ρ) : Prop :=
  (∀ r, S r → M.Le r m) ∧ ∀ u, (∀ r, S r → M.Le r u) → M.Le m u

/-- Joins of the same registers in one group are equal. -/
theorem IsJoin.unique {S T : ρ → Prop} {m n : ρ} (h : M.IsJoin S m) (h' : M.IsJoin T n)
    (hST : ∀ r, S r ↔ T r) (hg : M.grp m = M.grp n) : m = n := by
  have hmn : M.Le m n := h.2 n fun r hr => h'.1 r ((hST r).1 hr)
  have hnm : M.Le n m := h'.2 m fun r hr => h.1 r ((hST r).2 hr)
  exact M.ext hg (le_antisymm hmn.1 hnm.1) (le_antisymm hmn.2 hnm.2)

theorem IsJoin.congr {S T : ρ → Prop} {m : ρ} (h : M.IsJoin S m) (hST : ∀ r, S r ↔ T r) :
    M.IsJoin T m :=
  ⟨fun r hr => h.1 r ((hST r).2 hr), fun u hu => h.2 u fun r hr => hu r ((hST r).1 hr)⟩

theorem isJoin_single (r : ρ) : M.IsJoin (· = r) r :=
  ⟨fun _ h => h ▸ ⟨le_rfl, le_rfl⟩, fun _ hu => hu r rfl⟩

/-- Merging adds a register to a join. -/
theorem IsJoin.merge {S : ρ → Prop} {m : ρ} (h : M.IsJoin S m) (r : ρ) :
    M.IsJoin (fun x => S x ∨ x = r) (M.merge m r) := by
  refine ⟨?_, fun u hu => merge_le (h.2 u fun x hx => hu x (Or.inl hx)) (hu r (Or.inr rfl))⟩
  rintro x (hx | rfl)
  · exact (h.1 x hx).trans (le_merge_left m r)
  · exact le_merge_right m x

/-! ## Registers of one group -/

/-- The registers of one group. -/
def Group (M : Lww ρ κ γ α) (a : α) : Type := {r : ρ // M.grp r = a}

/-- The registers of one group are ordered, and `merge` is their join. -/
instance instSemilatticeSupGroup (a : α) : SemilatticeSup (M.Group a) where
  le r s := M.Le r.1 s.1
  le_refl _ := ⟨le_rfl, le_rfl⟩
  le_trans _ _ _ := Le.trans
  le_antisymm r s h h' :=
    Subtype.ext (M.ext (r.2.trans s.2.symm) (le_antisymm h.1 h'.1) (le_antisymm h.2 h'.2))
  sup r s := ⟨M.merge r.1 s.1, (grp_merge (r.2.trans s.2.symm)).trans r.2⟩
  le_sup_left r s := le_merge_left r.1 s.1
  le_sup_right r s := le_merge_right r.1 s.1
  sup_le _ _ _ := merge_le

/-! ## Merging with a validity check -/

/-- Merge valid registers; a valid one is preferred to an invalid one, and two invalid ones are
    refused. -/
def guarded (M : Lww ρ κ γ α) (valid : ρ → Bool) (r s : ρ) : Option ρ :=
  if valid r then if valid s then some (M.merge r s) else some r
  else if valid s then some s else none

/-- The check binds the clock: a valid register with a larger clock is not valid. -/
def Sealed (M : Lww ρ κ γ α) (valid : ρ → Bool) : Prop :=
  ∀ r c, M.clk r ≤ c → valid r = true → valid (M.put r c) = true → c = M.clk r

/-- The register with the larger key has the larger clock. -/
def Dom (M : Lww ρ κ γ α) (r s : ρ) : Prop := M.clk r ⊔ M.clk s = M.clk (M.winner r s)

section
variable {valid : ρ → Bool}

theorem put_clk (r : ρ) : M.put r (M.clk r) = r :=
  M.ext (M.grp_put _ _) (M.key_put _ _) (M.clk_put _ _)

theorem valid_winner {r s : ρ} (hr : valid r = true) (hs : valid s = true) :
    valid (M.winner r s) = true := by
  unfold winner; split_ifs <;> assumption

theorem valid_merge_iff (hv : M.Sealed valid) {r s : ρ} (hr : valid r = true)
    (hs : valid s = true) : valid (M.merge r s) = true ↔ M.Dom r s := by
  have hle : M.clk (M.winner r s) ≤ M.clk r ⊔ M.clk s := by
    unfold winner; split_ifs
    exacts [le_sup_left, le_sup_right]
  constructor
  · exact fun h => hv _ _ hle (valid_winner hr hs) h
  · intro h
    rw [merge, h, put_clk]; exact valid_winner hr hs

theorem guarded_valid {r s : ρ} (hr : valid r = true) (hs : valid s = true) :
    M.guarded valid r s = some (M.merge r s) := by simp [guarded, hr, hs]

/-- What the guarded merge does to the key: only an invalid first argument can lose it. -/
theorem guarded_key_iff {r s m : ρ} (hs : valid s = true) (h : M.guarded valid r s = some m) :
    M.key r ≤ M.key m ↔ valid r = true ∨ M.key r ≤ M.key s := by
  unfold guarded at h
  by_cases hr : valid r = true
  · simp only [hr, hs, if_true, Option.some.injEq] at h
    subst h; simp [hr]
  · simp only [hr, hs, if_true, Bool.false_eq_true, if_false, Option.some.injEq] at h
    subst h; simp [hr]

/-- **When the guarded merge keeps the laws**: on valid registers of one group, closure,
    commutativity, associativity and idempotence hold exactly if the first two are ordered alike by
    key and clock, and so are the last two unless the first one tops them. -/
theorem guarded_laws_iff (hv : M.Sealed valid) {r s t : ρ} (hrs : M.grp r = M.grp s)
    (hst : M.grp s = M.grp t) (hr : valid r = true) (hs : valid s = true) (ht : valid t = true) :
    ((∀ m, M.guarded valid r s = some m → valid m = true) ∧
      M.guarded valid r s = M.guarded valid s r ∧
      (M.guarded valid s t).bind (M.guarded valid r) =
        (M.guarded valid r s).bind (M.guarded valid · t) ∧
      M.guarded valid r r = some r) ↔
    M.Dom r s ∧ (M.Dom s t ∨ M.Le s r ∧ M.Le t r) := by
  have hclosed : (∀ m, M.guarded valid r s = some m → valid m = true) ↔ M.Dom r s := by
    rw [guarded_valid hr hs, ← valid_merge_iff hv hr hs]; simp
  have hcomm : M.guarded valid r s = M.guarded valid s r := by
    rw [guarded_valid hr hs, guarded_valid hs hr, merge_comm hrs]
  have hidem : M.guarded valid r r = some r := by rw [guarded_valid hr hr, merge_self]
  have hassoc : M.Dom r s → ((M.guarded valid s t).bind (M.guarded valid r) =
      (M.guarded valid r s).bind (M.guarded valid · t) ↔ M.Dom s t ∨ M.Le s r ∧ M.Le t r) := by
    intro hd
    have hm := (valid_merge_iff hv hr hs).2 hd
    rw [guarded_valid hs ht, guarded_valid hr hs]
    simp only [Option.bind_some]
    rw [guarded_valid hm ht]
    by_cases hd' : M.Dom s t
    · rw [guarded_valid hr ((valid_merge_iff hv hs ht).2 hd'), merge_assoc hrs hst]
      simp [hd']
    · have hn : ¬ valid (M.merge s t) = true := fun h => hd' ((valid_merge_iff hv hs ht).1 h)
      have hg : M.guarded valid r (M.merge s t) = some r := by
        unfold guarded; rw [if_pos hr, if_neg hn]
      rw [hg, Option.some.injEq, ← merge_assoc hrs hst, eq_comm,
        merge_eq_left_iff (by rw [grp_merge hst, hrs])]
      simp only [hd', false_or]
      constructor
      · intro h
        exact ⟨⟨(le_merge_left s t).1.trans h.1, (le_merge_left s t).2.trans h.2⟩,
          ⟨(le_merge_right s t).1.trans h.1, (le_merge_right s t).2.trans h.2⟩⟩
      · exact fun h => merge_le h.1 h.2
  constructor
  · rintro ⟨h1, -, h3, -⟩
    exact ⟨hclosed.1 h1, (hassoc (hclosed.1 h1)).1 h3⟩
  · rintro ⟨h1, h2⟩
    exact ⟨hclosed.2 h1, hcomm, (hassoc h1).2 h2, hidem⟩

end

end Lww

end Py
