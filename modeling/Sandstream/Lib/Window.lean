import Mathlib

/-! # Sandstream.Lib.Window -- windows into a flat store

A store is a list of cells of fixed length. `window` reads a run of cells, `overwrite` replaces one.
Both are total: a window that runs past the end is cut short, and the callers carry the bound where
it matters. The lemmas are the read-over-write algebra: what an overwrite puts into a window, and
what it leaves alone. Nothing here refers to a particular program.
-/

namespace Sandstream.Lib.Window

variable {α : Type*}

/-! ## Reading -/

/-- The `len` cells of `xs` that start at `off`. -/
def window (xs : List α) (off len : Nat) : List α := (xs.drop off).take len

@[simp] theorem window_zero (xs : List α) (off : Nat) : window xs off 0 = [] := by
  simp [window]

theorem window_length {xs : List α} {off len : Nat} (h : off + len ≤ xs.length) :
    (window xs off len).length = len := by
  simp only [window, List.length_take, List.length_drop]
  omega

theorem window_getElem? (xs : List α) (off len i : Nat) :
    (window xs off len)[i]? = if i < len then xs[off + i]? else none := by
  simp only [window, List.getElem?_take, List.getElem?_drop]

theorem window_drop (xs : List α) (off len k : Nat) :
    (window xs off len).drop k = window xs (off + k) (len - k) := by
  simp only [window, List.drop_take, List.drop_drop]

theorem window_take (xs : List α) (off len k : Nat) :
    (window xs off len).take k = window xs off (min k len) := by
  simp only [window, List.take_take]

/-- A window splits at any interior point into two adjacent windows. -/
theorem window_add (xs : List α) (off m n : Nat) :
    window xs off (m + n) = window xs off m ++ window xs (off + m) n := by
  simp only [window, List.take_add, List.drop_drop]

/-- Two stores that agree cell by cell on a range show the same window there. -/
theorem window_congr {xs ys : List α} {off off' len : Nat}
    (h : ∀ i, i < len → xs[off + i]? = ys[off' + i]?) :
    window xs off len = window ys off' len := by
  apply List.ext_getElem?
  intro i
  rw [window_getElem?, window_getElem?]
  split
  · exact h i ‹_›
  · rfl

theorem window_full (xs : List α) : window xs 0 xs.length = xs := by
  simp [window]

/-- The first cell of a non-empty window. -/
theorem window_head? {xs : List α} {off len : Nat} (h : 0 < len) :
    (window xs off len).head? = xs[off]? := by
  rw [List.head?_eq_getElem?, window_getElem?, if_pos h, Nat.add_zero]

/-! ## Writing -/

/-- `xs` with the cells from `off` on replaced by `ys`. -/
def overwrite (xs : List α) (off : Nat) (ys : List α) : List α :=
  xs.take off ++ ys ++ xs.drop (off + ys.length)

theorem overwrite_length {xs ys : List α} {off : Nat} (h : off + ys.length ≤ xs.length) :
    (overwrite xs off ys).length = xs.length := by
  simp only [overwrite, List.length_append, List.length_take, List.length_drop]
  omega

@[simp] theorem overwrite_nil (xs : List α) (off : Nat) : overwrite xs off [] = xs := by
  simp [overwrite]

/-- Read over write, cell by cell. -/
theorem overwrite_getElem? {xs ys : List α} {off : Nat} (h : off + ys.length ≤ xs.length)
    (i : Nat) :
    (overwrite xs off ys)[i]? =
      if off ≤ i ∧ i < off + ys.length then ys[i - off]? else xs[i]? := by
  have hlen : (xs.take off).length = off := by
    rw [List.length_take]
    omega
  rw [overwrite, List.append_assoc]
  by_cases hlo : i < off
  · rw [List.getElem?_append_left (by omega), List.getElem?_take_of_lt hlo, if_neg (by omega)]
  · rw [List.getElem?_append_right (by omega), hlen]
    by_cases hhi : i < off + ys.length
    · rw [List.getElem?_append_left (by omega), if_pos ⟨by omega, hhi⟩]
    · rw [List.getElem?_append_right (by omega), List.getElem?_drop, if_neg (by omega)]
      congr 1
      omega

/-- What was written is read back. -/
theorem window_overwrite_self {xs ys : List α} {off : Nat} (h : off + ys.length ≤ xs.length) :
    window (overwrite xs off ys) off ys.length = ys := by
  apply List.ext_getElem?
  intro i
  rw [window_getElem?]
  split
  · rw [overwrite_getElem? h, if_pos ⟨by omega, by omega⟩, Nat.add_sub_cancel_left]
  · exact (List.getElem?_eq_none (by omega)).symm

/-- A window that does not meet the written range is unchanged. -/
theorem window_overwrite_disjoint {xs ys : List α} {off off' len : Nat}
    (h : off + ys.length ≤ xs.length) (hdis : off' + len ≤ off ∨ off + ys.length ≤ off') :
    window (overwrite xs off ys) off' len = window xs off' len := by
  apply window_congr
  intro i hi
  rw [overwrite_getElem? h, if_neg (by omega)]

/-- An overwrite leaves a window as it is exactly when every cell it puts there was there before. -/
theorem window_overwrite_eq_iff {xs ys : List α} {off off' len : Nat}
    (h : off + ys.length ≤ xs.length) :
    window (overwrite xs off ys) off' len = window xs off' len ↔
      ∀ i, i < ys.length → off' ≤ off + i → off + i < off' + len → ys[i]? = xs[off + i]? := by
  constructor
  · intro heq i hi hlo hhi
    have hcell := congrArg (fun zs => zs[off + i - off']?) heq
    simp only [window_getElem?] at hcell
    rwa [if_pos (by omega), if_pos (by omega), Nat.add_sub_cancel' hlo, overwrite_getElem? h,
      if_pos ⟨by omega, by omega⟩, Nat.add_sub_cancel_left] at hcell
  · intro hsame
    apply window_congr
    intro j hj
    rw [overwrite_getElem? h]
    split
    · rename_i hin
      have hcell := hsame (off' + j - off) (by omega) (by omega) (by omega)
      rwa [Nat.add_sub_cancel' hin.1] at hcell
    · rfl

end Sandstream.Lib.Window
