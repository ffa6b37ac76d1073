import Mathlib

/-! # Sandstream.Lib.Resync -- cutting a stream into marked blocks

A stream carries blocks of `n` cells that begin with a marker cell. A scanner that has lost its place
drops cells up to the next marker, takes `n` cells as a block if so many remain, and repeats. This
module is the specification of such a scanner on a finite string, `blocks` and `residue`, with the one
law every incremental scanner rests on: scanning a prefix first and continuing from its residue gives
the same blocks (`blocks_append`, `residue_append`), wherever the string is cut.

Everything is generic over the cell type, the marker and the block length.
-/

namespace Sandstream.Lib.Resync

variable {α : Type*} [DecidableEq α] (marker : α)

/-! ## Dropping to the next marker -/

/-- `s` without its leading cells up to the first marker. -/
def dropToSync (s : List α) : List α := s.dropWhile (· != marker)

@[simp] theorem dropToSync_nil : dropToSync marker [] = [] := rfl

@[simp] theorem dropToSync_cons_self (s : List α) :
    dropToSync marker (marker :: s) = marker :: s := by
  simp [dropToSync]

theorem dropToSync_cons_of_ne {a : α} (h : a ≠ marker) (s : List α) :
    dropToSync marker (a :: s) = dropToSync marker s := by
  simp [dropToSync, h]

/-- A string is in sync when it is empty or begins with the marker. -/
def Synced (s : List α) : Prop := ∀ a ∈ s.head?, a = marker

omit [DecidableEq α] in
theorem synced_nil : Synced marker [] := by simp [Synced]

theorem synced_dropToSync (s : List α) : Synced marker (dropToSync marker s) := by
  induction s with
  | nil => exact synced_nil marker
  | cons a s ih =>
    by_cases h : a = marker
    · subst h
      simp [Synced]
    · rwa [dropToSync_cons_of_ne marker h]

theorem dropToSync_of_synced {s : List α} (h : Synced marker s) : dropToSync marker s = s := by
  cases s with
  | nil => rfl
  | cons a s =>
    obtain rfl : a = marker := h a rfl
    exact dropToSync_cons_self a s

theorem dropToSync_idem (s : List α) :
    dropToSync marker (dropToSync marker s) = dropToSync marker s :=
  dropToSync_of_synced marker (synced_dropToSync marker s)

theorem dropToSync_eq_nil_iff {s : List α} : dropToSync marker s = [] ↔ marker ∉ s := by
  simp only [dropToSync, List.dropWhile_eq_nil_iff, bne_iff_ne]
  exact ⟨fun h hm => h marker hm rfl, fun h a ha heq => h (heq ▸ ha)⟩

theorem dropToSync_length_le (s : List α) : (dropToSync marker s).length ≤ s.length :=
  (List.dropWhile_sublist _).length_le

/-- A marker once found is not affected by what follows. -/
theorem dropToSync_append_of_mem {s : List α} (h : marker ∈ s) (t : List α) :
    dropToSync marker (s ++ t) = dropToSync marker s ++ t := by
  induction s with
  | nil => simp at h
  | cons a s ih =>
    by_cases ha : a = marker
    · subst ha
      simp
    · rw [List.cons_append, dropToSync_cons_of_ne marker ha, dropToSync_cons_of_ne marker ha]
      exact ih ((List.mem_cons.mp h).resolve_left (Ne.symm ha))

theorem dropToSync_append_of_not_mem {s : List α} (h : marker ∉ s) (t : List α) :
    dropToSync marker (s ++ t) = dropToSync marker t := by
  induction s with
  | nil => rfl
  | cons a s ih =>
    rw [List.mem_cons, not_or] at h
    rw [List.cons_append, dropToSync_cons_of_ne marker (Ne.symm h.1)]
    exact ih h.2

/-- Dropping eagerly commutes with appending: cells dropped before `t` arrives would have been
dropped anyway. -/
theorem dropToSync_append (s t : List α) :
    dropToSync marker (s ++ t) = dropToSync marker (dropToSync marker s ++ t) := by
  by_cases h : marker ∈ s
  · rw [dropToSync_append_of_mem marker h]
    have hne : dropToSync marker s ≠ [] := fun h0 => (dropToSync_eq_nil_iff marker).mp h0 h
    refine (dropToSync_of_synced marker fun a ha => ?_).symm
    obtain ⟨b, rest, hb⟩ := List.exists_cons_of_ne_nil hne
    have hsync := synced_dropToSync marker s
    rw [hb] at ha hsync
    exact hsync a (by simpa using ha)
  · rw [dropToSync_append_of_not_mem marker h, (dropToSync_eq_nil_iff marker).mpr h,
      List.nil_append]

/-! ## Blocks and residue -/

/-- A block makes the string shorter. -/
theorem drop_dropToSync_length_lt {n : Nat} [NeZero n] {s : List α}
    (h : n ≤ (dropToSync marker s).length) : ((dropToSync marker s).drop n).length < s.length := by
  have hn : 0 < n := Nat.pos_of_ne_zero (NeZero.ne n)
  have hle := dropToSync_length_le marker s
  rw [List.length_drop]
  omega

/-- The blocks a scanner takes from `s`. -/
def blocks (n : Nat) [NeZero n] (s : List α) : List (List α) :=
  if n ≤ (dropToSync marker s).length then
    (dropToSync marker s).take n :: blocks n ((dropToSync marker s).drop n)
  else []
termination_by s.length
decreasing_by exact drop_dropToSync_length_lt marker ‹_›

/-- What is left of `s` when no further block is complete. -/
def residue (n : Nat) [NeZero n] (s : List α) : List α :=
  if n ≤ (dropToSync marker s).length then
    residue n ((dropToSync marker s).drop n)
  else dropToSync marker s
termination_by s.length
decreasing_by exact drop_dropToSync_length_lt marker ‹_›

section Scan

variable {n : Nat} [NeZero n]

theorem blocks_of_le {s : List α} (h : n ≤ (dropToSync marker s).length) :
    blocks marker n s =
      (dropToSync marker s).take n :: blocks marker n ((dropToSync marker s).drop n) := by
  rw [blocks, if_pos h]

theorem blocks_of_lt {s : List α} (h : (dropToSync marker s).length < n) :
    blocks marker n s = [] := by
  rw [blocks, if_neg (by omega)]

theorem residue_of_le {s : List α} (h : n ≤ (dropToSync marker s).length) :
    residue marker n s = residue marker n ((dropToSync marker s).drop n) := by
  rw [residue, if_pos h]

theorem residue_of_lt {s : List α} (h : (dropToSync marker s).length < n) :
    residue marker n s = dropToSync marker s := by
  rw [residue, if_neg (by omega)]

/-- Blocks see a string only from its first marker on. -/
theorem blocks_dropToSync (s : List α) :
    blocks marker n (dropToSync marker s) = blocks marker n s := by
  rw [blocks, dropToSync_idem, ← blocks]

theorem residue_dropToSync (s : List α) :
    residue marker n (dropToSync marker s) = residue marker n s := by
  rw [residue, dropToSync_idem, ← residue]

/-- Where a block is complete there is a marker, and what follows is not looked at. -/
theorem dropToSync_append_of_le {s : List α} (h : n ≤ (dropToSync marker s).length) (t : List α) :
    dropToSync marker (s ++ t) = dropToSync marker s ++ t := by
  have hn : 0 < n := Nat.pos_of_ne_zero (NeZero.ne n)
  apply dropToSync_append_of_mem
  by_contra hno
  rw [(dropToSync_eq_nil_iff marker).mpr hno, List.length_nil] at h
  omega

/-- **Scanning is incremental.** The blocks of `s ++ t` are those of `s`, then those of `t` read on
from the residue of `s`. -/
theorem blocks_append (s t : List α) :
    blocks marker n (s ++ t) = blocks marker n s ++ blocks marker n (residue marker n s ++ t) := by
  -- the induction runs along the blocks of `s`; `t` matters only when they are used up
  induction s using residue.induct marker n with
  | case1 s hle ih =>
    have hdrop := dropToSync_append_of_le marker hle t
    rw [blocks_of_le marker (s := s ++ t) (by rw [hdrop, List.length_append]; omega), hdrop,
      List.take_append_of_le_length hle, List.drop_append_of_le_length hle, ih,
      blocks_of_le marker hle, residue_of_le marker hle, List.cons_append]
  | case2 s hlt =>
    rw [blocks_of_lt marker (s := s) (by omega), residue_of_lt marker (by omega), List.nil_append,
      ← blocks_dropToSync marker (s ++ t), dropToSync_append, blocks_dropToSync]

theorem residue_append (s t : List α) :
    residue marker n (s ++ t) = residue marker n (residue marker n s ++ t) := by
  induction s using residue.induct marker n with
  | case1 s hle ih =>
    have hdrop := dropToSync_append_of_le marker hle t
    rw [residue_of_le marker (s := s ++ t) (by rw [hdrop, List.length_append]; omega), hdrop,
      List.drop_append_of_le_length hle, ih, residue_of_le marker hle]
  | case2 s hlt =>
    rw [residue_of_lt marker (s := s) (by omega), ← residue_dropToSync marker (s ++ t),
      dropToSync_append, residue_dropToSync]

end Scan

/-! ## Blocks in a framed stream

A transport format may put extra cells around each block. The scanner finds the blocks of such a stream
unless one of the extra cells is a marker: then it locks onto that cell, and the cells from there to
the true block form a *slip* that shifts the block it takes. -/

/-- A block with the extra cells its format puts around it. -/
structure Framed (marker : α) (n : Nat) where
  before : List α
  block : List α
  after : List α
  block_length : block.length = n
  block_head : block.head? = some marker

variable {marker} {n : Nat}

/-- The stream of a list of framed blocks. -/
def framedStream (fs : List (Framed marker n)) : List α :=
  fs.flatMap fun f => f.before ++ f.block ++ f.after

/-- `pending` are the cells between the last block taken and the next frame. Scanning is undisturbed if
at each frame no marker is left in front of the block, or the block happens to be a prefix of what the
scanner sees from that marker on (it repeats the slip), and no further block follows the last frame. -/
def Undisturbed : List α → List (Framed marker n) → Prop
  | pending, [] => (dropToSync marker pending).length < n
  | pending, f :: fs =>
    let slip := dropToSync marker (pending ++ f.before)
    f.block <+: slip ++ f.block ∧ Undisturbed ((slip ++ f.block).drop n ++ f.after) fs

theorem dropToSync_append_block (pending : List α) (f : Framed marker n) (rest : List α) :
    dropToSync marker (pending ++ (f.block ++ rest)) =
      dropToSync marker pending ++ (f.block ++ rest) := by
  by_cases h : marker ∈ pending
  · exact dropToSync_append_of_mem marker h _
  · rw [dropToSync_append_of_not_mem marker h, (dropToSync_eq_nil_iff marker).mpr h,
      List.nil_append]
    refine dropToSync_of_synced marker fun a ha => ?_
    have hhead := f.block_head
    rw [List.head?_append, hhead, Option.some_or, Option.mem_some_iff] at ha
    exact ha.symm

/-- The scanner takes exactly the framed blocks if and only if it is undisturbed. -/
theorem blocks_framedStream_iff [NeZero n] (pending : List α) (fs : List (Framed marker n)) :
    blocks marker n (pending ++ framedStream fs) = fs.map Framed.block ↔
      Undisturbed pending fs := by
  have hn : 0 < n := Nat.pos_of_ne_zero (NeZero.ne n)
  induction fs generalizing pending with
  | nil =>
    simp only [framedStream, List.flatMap_nil, List.append_nil, List.map_nil, Undisturbed]
    constructor
    · -- a block behind the last frame would be one too many
      intro h
      by_contra hle
      rw [blocks_of_le marker (by omega)] at h
      exact List.cons_ne_nil _ _ h
    · exact blocks_of_lt marker
  | cons f fs ih =>
    -- the scanner locks onto the front of `slip ++ f.block`, whether that is the block or not
    set slip := dropToSync marker (pending ++ f.before) with hslip
    have hsplit : pending ++ framedStream (f :: fs) =
        (pending ++ f.before) ++ (f.block ++ (f.after ++ framedStream fs)) := by
      simp only [framedStream, List.flatMap_cons, List.append_assoc]
    have hdrop : dropToSync marker (pending ++ framedStream (f :: fs)) =
        (slip ++ f.block) ++ (f.after ++ framedStream fs) := by
      rw [hsplit, dropToSync_append_block, List.append_assoc]
    have hlen : n ≤ (slip ++ f.block).length := by
      rw [List.length_append, f.block_length]
      omega
    have hblocks : blocks marker n (pending ++ framedStream (f :: fs)) =
        (slip ++ f.block).take n ::
          blocks marker n (((slip ++ f.block).drop n ++ f.after) ++ framedStream fs) := by
      rw [blocks_of_le marker (by rw [hdrop, List.length_append]; omega), hdrop,
        List.take_append_of_le_length hlen, List.drop_append_of_le_length hlen, List.append_assoc]
    rw [hblocks, List.map_cons, List.cons.injEq, Undisturbed, ← hslip,
      List.prefix_iff_eq_take, f.block_length, eq_comm]
    exact and_congr_right' (ih _)

/-- Extra cells without a marker are skipped, whatever else they are. -/
theorem undisturbed_of_clean [NeZero n] (fs : List (Framed marker n))
    (hbefore : ∀ f ∈ fs, marker ∉ f.before) (hafter : ∀ f ∈ fs, marker ∉ f.after)
    {pending : List α} (hpending : marker ∉ pending) : Undisturbed pending fs := by
  induction fs generalizing pending with
  | nil =>
    rw [Undisturbed, (dropToSync_eq_nil_iff marker).mpr hpending]
    exact Nat.pos_of_ne_zero (NeZero.ne n)
  | cons f fs ih =>
    have hslip : dropToSync marker (pending ++ f.before) = [] := by
      rw [dropToSync_eq_nil_iff, List.mem_append, not_or]
      exact ⟨hpending, hbefore f List.mem_cons_self⟩
    simp only [Undisturbed, hslip, List.nil_append]
    refine ⟨List.prefix_refl _, ?_⟩
    rw [List.drop_of_length_le (Nat.le_of_eq f.block_length), List.nil_append]
    exact ih (fun g hg => hbefore g (List.mem_cons_of_mem f hg))
      (fun g hg => hafter g (List.mem_cons_of_mem f hg)) (hafter f List.mem_cons_self)

end Sandstream.Lib.Resync
