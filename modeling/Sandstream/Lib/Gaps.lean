import Mathlib
import Sandstream.Lib.Resync

/-! # Sandstream.Lib.Gaps -- how far apart the blocks of a stream are

A scanner drops the cells between two blocks. `GapsLe bound s` says that it never drops more than
`bound` of them on the way to a marker of `s`. The property is one of the whole string, but it holds
for every state of an incremental scanner: whatever part has been scanned and whatever is still to
come, what is left over and the rest have it again (`GapsLe.residue_append`).

Streams of framed blocks have it when their extra cells are few and contain no marker
(`gapsLe_framedStream`), and nothing is left of them in the end (`residue_framedStream`).
-/

namespace Sandstream.Lib.Resync

variable {α : Type*} [DecidableEq α] (marker : α)

/-- The number of cells in front of the first marker. -/
def gap (s : List α) : Nat := s.length - (dropToSync marker s).length

/-- The scanner drops at most `bound` cells in front of each marker it stops at. -/
inductive GapsLe (n bound : Nat) : List α → Prop where
  | done {s : List α} : dropToSync marker s = [] → GapsLe n bound s
  | short {s : List α} : gap marker s ≤ bound → (dropToSync marker s).length < n → GapsLe n bound s
  | block {s : List α} : gap marker s ≤ bound → n ≤ (dropToSync marker s).length →
      GapsLe n bound ((dropToSync marker s).drop n) → GapsLe n bound s

/-- Where there is a marker, what follows does not change the gap. -/
theorem gap_append_of_mem {s : List α} (h : marker ∈ s) (t : List α) :
    gap marker (s ++ t) = gap marker s := by
  unfold gap
  rw [dropToSync_append_of_mem marker h, List.length_append, List.length_append]
  omega

theorem gap_dropToSync_append_le (s t : List α) :
    gap marker (dropToSync marker s ++ t) ≤ gap marker (s ++ t) := by
  have hle := dropToSync_length_le marker s
  unfold gap
  rw [dropToSync_append marker s t, List.length_append, List.length_append]
  omega

variable {marker} {n bound : Nat}

/-- In front of a marker in the part already there, at most `bound` cells are dropped. -/
theorem GapsLe.gap_le {s t : List α} (h : GapsLe marker n bound (s ++ t)) (hmem : marker ∈ s) :
    gap marker s ≤ bound := by
  have hsame := gap_append_of_mem marker hmem t
  cases h with
  | done hnil =>
    rw [dropToSync_eq_nil_iff, List.mem_append] at hnil
    exact absurd (Or.inl hmem) hnil
  | short hgap => rwa [hsame] at hgap
  | block hgap => rwa [hsame] at hgap

/-- Dropping eagerly does not widen a gap. -/
theorem GapsLe.dropToSync_append {s t : List α} (h : GapsLe marker n bound (s ++ t)) :
    GapsLe marker n bound (dropToSync marker s ++ t) := by
  have hdrop := Resync.dropToSync_append marker s t
  have hle := gap_dropToSync_append_le marker s t
  cases h with
  | done hnil => exact .done (hdrop ▸ hnil)
  | short hgap hlt => exact .short (hle.trans hgap) (hdrop ▸ hlt)
  | block hgap hlong hrest => exact .block (hle.trans hgap) (hdrop ▸ hlong) (hdrop ▸ hrest)

section Scan

variable [NeZero n]

/-- Behind a block the stream goes on as before. -/
theorem GapsLe.behind {s t : List α} (h : GapsLe marker n bound (s ++ t))
    (hle : n ≤ (dropToSync marker s).length) :
    GapsLe marker n bound ((dropToSync marker s).drop n ++ t) := by
  have hdrop := dropToSync_append_of_le marker hle t
  have hn : 0 < n := Nat.pos_of_ne_zero (NeZero.ne n)
  have hlength : n ≤ (dropToSync marker (s ++ t)).length := by
    rw [hdrop, List.length_append]
    omega
  cases h with
  | done hnil =>
    rw [hnil, List.length_nil] at hlength
    omega
  | short hgap hlt => exact absurd hlength (Nat.not_le.mpr hlt)
  | block hgap hlong hrest => rwa [hdrop, List.drop_append_of_le_length hle] at hrest

/-- **Gaps are bounded in every state of the scanner.** -/
theorem GapsLe.residue_append {s t : List α} (h : GapsLe marker n bound (s ++ t)) :
    GapsLe marker n bound (residue marker n s ++ t) := by
  induction s using residue.induct marker n with
  | case1 s hle ih =>
    rw [residue_of_le marker hle]
    exact ih (h.behind hle)
  | case2 s hlt =>
    rw [residue_of_lt marker (by omega)]
    exact h.dropToSync_append

/-- A stream that breaks off has no wider gaps. -/
theorem GapsLe.left {s t : List α} (h : GapsLe marker n bound (s ++ t)) : GapsLe marker n bound s := by
  induction s using residue.induct marker n with
  | case1 s hle ih =>
    have hmem : marker ∈ s := by
      by_contra hno
      rw [(dropToSync_eq_nil_iff marker).mpr hno] at hle
      exact NeZero.ne n (Nat.le_zero.mp hle)
    exact .block (h.gap_le hmem) hle (ih (h.behind hle))
  | case2 s hlt =>
    by_cases hmem : marker ∈ s
    · exact .short (h.gap_le hmem) (Nat.lt_of_not_le hlt)
    · exact .done ((dropToSync_eq_nil_iff marker).mpr hmem)

theorem gapsLe_of_length_le {s : List α} (h : s.length ≤ bound) : GapsLe marker n bound s := by
  have hgap : gap marker s ≤ bound := (Nat.sub_le _ _).trans h
  induction s using residue.induct marker n with
  | case1 s hle ih =>
    have hless := drop_dropToSync_length_lt marker hle
    exact .block hgap hle (ih (by omega) ((Nat.sub_le _ _).trans (by omega)))
  | case2 s hlt => exact .short hgap (by omega)

end Scan

/-! ## Framed blocks -/

section Framed

variable [NeZero n] {front back : Nat}

omit [NeZero n] in
theorem dropToSync_pending_framed {pending : List α} (hpending : marker ∉ pending) {f : Framed marker n}
    (hbefore : marker ∉ f.before) (rest : List α) :
    dropToSync marker (pending ++ (f.before ++ f.block ++ f.after ++ rest)) =
      f.block ++ (f.after ++ rest) := by
  have hclean : marker ∉ pending ++ f.before := by
    rw [List.mem_append, not_or]
    exact ⟨hpending, hbefore⟩
  have hsplit : pending ++ (f.before ++ f.block ++ f.after ++ rest) =
      (pending ++ f.before) ++ (f.block ++ (f.after ++ rest)) := by
    simp only [List.append_assoc]
  rw [hsplit, dropToSync_append_block, (dropToSync_eq_nil_iff marker).mpr hclean, List.nil_append]

omit [NeZero n] in
/-- Clean extra cells make gaps no wider than they are. -/
theorem gapsLe_framedStream (fs : List (Framed marker n))
    (hbefore : ∀ f ∈ fs, marker ∉ f.before ∧ f.before.length ≤ front)
    (hafter : ∀ f ∈ fs, marker ∉ f.after ∧ f.after.length ≤ back) {pending : List α}
    (hpending : marker ∉ pending) (hlength : pending.length ≤ back) :
    GapsLe marker n (back + front) (pending ++ framedStream fs) := by
  induction fs generalizing pending with
  | nil =>
    apply GapsLe.done
    rw [dropToSync_eq_nil_iff]
    exact (List.append_nil pending).symm ▸ hpending
  | cons f fs ih =>
    have hfront := hbefore f List.mem_cons_self
    have hback := hafter f List.mem_cons_self
    have hdrop := dropToSync_pending_framed hpending hfront.1 (framedStream fs)
    have hblock : f.block.length = n := f.block_length
    have hstream : framedStream (f :: fs) = f.before ++ f.block ++ f.after ++ framedStream fs := rfl
    rw [hstream]
    apply GapsLe.block
    · unfold gap
      rw [hdrop]
      simp only [List.length_append]
      omega
    · rw [hdrop, List.length_append]
      omega
    · rw [hdrop, List.drop_left' hblock]
      apply ih _ _ hback.1 hback.2
      · exact fun g hg => hbefore g (List.mem_cons_of_mem _ hg)
      · exact fun g hg => hafter g (List.mem_cons_of_mem _ hg)

/-- Nothing is left of a stream with clean extra cells. -/
theorem residue_framedStream (fs : List (Framed marker n)) (hbefore : ∀ f ∈ fs, marker ∉ f.before)
    (hafter : ∀ f ∈ fs, marker ∉ f.after) {pending : List α} (hpending : marker ∉ pending) :
    residue marker n (pending ++ framedStream fs) = [] := by
  have hn : 0 < n := Nat.pos_of_ne_zero (NeZero.ne n)
  induction fs generalizing pending with
  | nil =>
    have hnil : dropToSync marker (pending ++ framedStream ([] : List (Framed marker n))) = [] := by
      rw [dropToSync_eq_nil_iff]
      exact (List.append_nil pending).symm ▸ hpending
    rw [residue_of_lt marker (by rw [hnil]; exact hn), hnil]
  | cons f fs ih =>
    have hdrop := dropToSync_pending_framed hpending (hbefore f List.mem_cons_self) (framedStream fs)
    have hblock : f.block.length = n := f.block_length
    have hstream : framedStream (f :: fs) = f.before ++ f.block ++ f.after ++ framedStream fs := rfl
    rw [hstream, residue_of_le marker (by rw [hdrop, List.length_append]; omega), hdrop,
      List.drop_left' hblock]
    apply ih
    · exact fun g hg => hbefore g (List.mem_cons_of_mem _ hg)
    · exact fun g hg => hafter g (List.mem_cons_of_mem _ hg)
    · exact hafter f List.mem_cons_self

end Framed

/-! ## How much of a stream its blocks are -/

section Blocks

variable [NeZero n]

/-- The blocks are taken from the stream one behind the other. -/
theorem flatten_blocks_sublist (s : List α) : (blocks marker n s).flatten.Sublist s := by
  induction hlen : s.length using Nat.strong_induction_on generalizing s with
  | _ k ih =>
    have hfront : (dropToSync marker s).Sublist s := (List.dropWhile_suffix _).sublist
    by_cases hle : n ≤ (dropToSync marker s).length
    · have hless := drop_dropToSync_length_lt marker hle
      have hrest := ih _ (hlen ▸ hless) _ rfl
      rw [blocks_of_le marker hle, List.flatten_cons]
      refine List.Sublist.trans ?_ hfront
      have hjoin := (List.Sublist.refl ((dropToSync marker s).take n)).append hrest
      rwa [List.take_append_drop] at hjoin
    · rw [blocks_of_lt marker (Nat.lt_of_not_le hle)]
      exact List.nil_sublist s

theorem length_of_mem_blocks {s b : List α} (hb : b ∈ blocks marker n s) : b.length = n := by
  induction hlen : s.length using Nat.strong_induction_on generalizing s with
  | _ k ih =>
    by_cases hle : n ≤ (dropToSync marker s).length
    · have hless := drop_dropToSync_length_lt marker hle
      rw [blocks_of_le marker hle] at hb
      rcases List.mem_cons.mp hb with rfl | hb
      · exact List.length_take_of_le hle
      · exact ih _ (hlen ▸ hless) hb rfl
    · rw [blocks_of_lt marker (Nat.lt_of_not_le hle)] at hb
      exact absurd hb List.not_mem_nil

theorem head?_of_mem_blocks {s b : List α} (hb : b ∈ blocks marker n s) : b.head? = some marker := by
  induction hlen : s.length using Nat.strong_induction_on generalizing s with
  | _ k ih =>
    by_cases hle : n ≤ (dropToSync marker s).length
    · have hless := drop_dropToSync_length_lt marker hle
      rw [blocks_of_le marker hle] at hb
      rcases List.mem_cons.mp hb with rfl | hb
      · have hsync := synced_dropToSync marker s
        have hn : n ≠ 0 := NeZero.ne n
        cases hdrop : dropToSync marker s with
        | nil =>
          rw [hdrop, List.length_nil] at hle
          omega
        | cons a t =>
          obtain rfl : a = marker := hsync a (by rw [hdrop]; rfl)
          rw [List.head?_take, if_neg hn]
          rfl
      · exact ih _ (hlen ▸ hless) hb rfl
    · rw [blocks_of_lt marker (Nat.lt_of_not_le hle)] at hb
      exact absurd hb List.not_mem_nil

/-- The blocks fit into the stream. -/
theorem blocks_length_mul_le (s : List α) : (blocks marker n s).length * n ≤ s.length := by
  have hflatten : (blocks marker n s).flatten.length = (blocks marker n s).length * n := by
    rw [List.length_flatten, List.map_congr_left fun b hb => length_of_mem_blocks hb, List.map_const',
      List.sum_replicate_nat]
  rw [← hflatten]
  exact (flatten_blocks_sublist s).length_le

end Blocks

end Sandstream.Lib.Resync
