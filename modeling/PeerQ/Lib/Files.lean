/-
  Files by path, and the operations that change them one after the other: a crash
  between two of them leaves the files as they are after the first ones.

  Also `suffix` and `with_suffix` of `pathlib`: the suffix of a path is the end of
  its last component from the last dot on, and replacing it by itself gives the
  path back (`withSuffix_eq_self`).
-/
import PeerQ.Lib.Text
import PeerQ.Lib.Runs

namespace Py

/-! ## Files -/

/-- The contents of the files that exist. -/
abbrev Disk := Str → Option Bytes

/-- Create or empty a file, write at its end, or rename it to another, which is replaced. -/
inductive FileOp where
  | create (path : Str)
  | write (path : Str) (data : Bytes)
  | replace (src dst : Str)

namespace FileOp

def apply (d : Disk) : FileOp → Disk
  | .create p => Function.update d p (some [])
  | .write p data => Function.update d p ((d p).map (· ++ data))
  | .replace src dst =>
    if src = dst then d else Function.update (Function.update d dst (d src)) src none

/-- The operation changes no file but possibly these. -/
def touches : FileOp → List Str
  | .create p | .write p _ => [p]
  | .replace src dst => [src, dst]

theorem apply_other {d : Disk} {op : FileOp} {p : Str} (h : p ∉ op.touches) : op.apply d p = d p := by
  cases op with
  | create q => exact Function.update_of_ne (by simpa [touches] using h) _ _
  | write q data => exact Function.update_of_ne (by simpa [touches] using h) _ _
  | replace src dst =>
    simp only [touches, List.mem_cons, List.not_mem_nil, or_false, not_or] at h
    simp only [apply]
    split_ifs
    · rfl
    · rw [Function.update_of_ne h.1, Function.update_of_ne h.2]

@[simp] theorem apply_create (d : Disk) (p : Str) : (create p).apply d p = some [] :=
  Function.update_self p _ d

@[simp] theorem apply_write (d : Disk) (p : Str) (data : Bytes) :
    (write p data).apply d p = (d p).map (· ++ data) := Function.update_self p _ d

theorem apply_replace (d : Disk) (src dst : Str) : (replace src dst).apply d dst = d src := by
  simp only [apply]
  split_ifs with h
  · rw [h]
  · rw [Function.update_of_ne (Ne.symm h), Function.update_self]

end FileOp

/-! ## Suffixes of paths -/

/-- The last component of a path. -/
def pathName (p : Str) : Str := p.rtakeWhile fun c => c ≠ 0x2f

/-- `suffix`: the last component from its last dot on, unless that is its first or last character. -/
def pathSuffix (p : Str) : Str :=
  let ext := (pathName p).rtakeWhile fun c => c ≠ 0x2e
  if ext = [] ∨ (pathName p).length ≤ ext.length + 1 then [] else 0x2e :: ext

/-- `with_suffix`. -/
def withSuffix (p : Str) (suffix : Str) : Str := p.take (p.length - (pathSuffix p).length) ++ suffix

theorem pathSuffix_suffix (p : Str) : pathSuffix p <:+ p := by
  unfold pathSuffix
  simp only
  split_ifs with h
  · exact List.nil_suffix
  · push Not at h
    refine List.IsSuffix.trans ?_ (List.rtakeWhile_suffix _ p : pathName p <:+ p)
    have happ := List.rdropWhile_append_rtakeWhile (p := fun c : CodePoint => decide (c ≠ 0x2e))
      (l := pathName p)
    generalize hpre : (pathName p).rdropWhile (fun c => decide (c ≠ 0x2e)) = pre at happ
    have hne : pre ≠ [] := by
      rintro rfl
      have hlen := congrArg List.length happ
      rw [List.nil_append] at hlen
      omega
    -- the character before the extension is a dot
    have hdot : pre.getLast hne = 0x2e := by
      subst hpre
      simpa using List.rdropWhile_last_not (fun c : CodePoint => decide (c ≠ 0x2e)) (pathName p) hne
    have hsplit : pre.dropLast ++ [0x2e] = pre := by
      rw [← hdot]
      exact List.dropLast_append_getLast hne
    refine ⟨pre.dropLast, ?_⟩
    rw [← List.singleton_append, ← List.append_assoc, hsplit]
    exact happ

/-- A path keeps its name exactly if it has the suffix already. -/
theorem withSuffix_eq_self {p s : Str} : withSuffix p s = p ↔ pathSuffix p = s := by
  obtain ⟨pre, hpre⟩ := pathSuffix_suffix p
  have hlen := congrArg List.length hpre
  rw [List.length_append] at hlen
  have htake : p.take (p.length - (pathSuffix p).length) = pre := by
    have hsub : p.length - (pathSuffix p).length = pre.length := by omega
    rw [hsub]
    conv_lhs => rw [← hpre]
    exact List.take_left
  unfold withSuffix
  rw [htake]
  constructor
  · intro h
    exact (List.append_cancel_left (h.trans hpre.symm)).symm
  · rintro rfl
    exact hpre

example : withSuffix (str "/var/peer.wal") (str ".tmp") = str "/var/peer.tmp" := by decide

end Py
