import Mathlib

/-! # Sandstream.Lib.Frames -- self-delimiting units in a byte string

A stream carries units whose first cells say how long they are, and padding cells may stand between a
unit and the next one. A reader holds the cells that have arrived, takes complete units off the front,
drops the padding behind each, and keeps what is left until more cells arrive.

`Format` is what the reader knows of the units. `heads` and `rest` are the outcome of reading a string
to the end: the suffixes at which a complete unit begins, and the cells that are kept. `join_parts` says
that nothing is lost, `units_append` that reading is incremental, and the rules at the end evaluate the
outcome on strings that were put together from units.

Everything is generic over the cell type and the format.
-/

namespace Sandstream.Lib.Frames

variable {α : Type*}

/-- A self-delimiting format. The size of a unit is read off its first cells, so it does not change
when more cells arrive. -/
structure Format (α : Type*) where
  size : List α → Option Nat
  padding : α → Bool
  size_pos : ∀ {s n}, size s = some n → 0 < n
  size_append : ∀ {s n}, size s = some n → ∀ t, size (s ++ t) = some n

namespace Format

variable (f : Format α)

/-- The size of the unit at the front of `s`, if all of it has arrived. -/
def complete (s : List α) : Option Nat := (f.size s).filter (· ≤ s.length)

theorem complete_eq_some_iff {s : List α} {n : Nat} :
    f.complete s = some n ↔ f.size s = some n ∧ n ≤ s.length := by
  simp [complete]

theorem complete_eq_none_iff {s : List α} :
    f.complete s = none ↔ ∀ n, f.size s = some n → s.length < n := by
  simp [complete]

theorem complete_nil : f.complete [] = none :=
  (complete_eq_none_iff f).mpr fun _ hn => f.size_pos hn

/-- A complete unit stays one when more cells arrive. -/
theorem complete_append {s : List α} {n : Nat} (h : f.complete s = some n) (t : List α) :
    f.complete (s ++ t) = some n := by
  obtain ⟨hsize, hle⟩ := (complete_eq_some_iff f).mp h
  refine (complete_eq_some_iff f).mpr ⟨f.size_append hsize t, ?_⟩
  rw [List.length_append]
  omega

/-- What follows a unit of `n` cells and its padding. -/
def after (n : Nat) (s : List α) : List α := (s.drop n).dropWhile f.padding

theorem after_length_le (n : Nat) (s : List α) : (f.after n s).length ≤ s.length - n := by
  rw [← List.length_drop]
  exact (List.dropWhile_sublist _).length_le

/-- The padding that is dropped is the longest run of it. -/
theorem after_eq_drop (n : Nat) (s : List α) :
    f.after n s = s.drop (n + ((s.drop n).takeWhile f.padding).length) := by
  have hsplit : (s.drop n).takeWhile f.padding ++ f.after n s = s.drop n :=
    List.takeWhile_append_dropWhile
  set run := (s.drop n).takeWhile f.padding
  rw [← List.drop_drop, ← hsplit, List.drop_left]

/-! ## Reading a string to the end -/

/-- Read at most `k` units. -/
def scan : Nat → List α → List (List α) × List α
  | 0, s => ([], s)
  | k + 1, s =>
    match f.complete s with
    | none => ([], s)
    | some n => (s :: (scan k (f.after n s)).1, (scan k (f.after n s)).2)

/-- The suffixes of `s` at which a complete unit begins, in order. -/
def heads (s : List α) : List (List α) := (f.scan s.length s).1

/-- The cells that are left when no further unit is complete. -/
def rest (s : List α) : List α := (f.scan s.length s).2

/-- The complete units of `s`, in order. -/
def units (s : List α) : List (List α) := (f.heads s).map fun t => t.take ((f.size t).getD 0)

theorem after_length_lt {s : List α} {n : Nat} (h : f.complete s = some n) :
    (f.after n s).length < s.length := by
  obtain ⟨hsize, hle⟩ := (complete_eq_some_iff f).mp h
  have hpos := f.size_pos hsize
  have := f.after_length_le n s
  omega

/-- More turns than cells change nothing. -/
theorem scan_of_le {k : Nat} {s : List α} (hk : s.length ≤ k) :
    f.scan k s = f.scan s.length s := by
  -- strong induction: both sides go on behind the first unit, with different numbers of turns left
  induction k using Nat.strong_induction_on generalizing s with
  | _ k ih =>
    rcases Nat.eq_or_lt_of_le hk with heq | hlt
    · rw [heq]
    · obtain ⟨j, rfl⟩ : ∃ j, k = j + 1 := ⟨k - 1, by omega⟩
      cases hs : f.complete s with
      | none =>
        cases hlen : s.length with
        | zero => simp only [scan, hs]
        | succ m => simp only [scan, hs]
      | some n =>
        have hdec := f.after_length_lt hs
        obtain ⟨m, hm⟩ : ∃ m, s.length = m + 1 := ⟨s.length - 1, by omega⟩
        have hj := ih j (by omega) (s := f.after n s) (by omega)
        have hm' := ih m (by omega) (s := f.after n s) (by omega)
        rw [hm]
        simp only [scan, hs, hj, hm']

theorem scan_of_incomplete {s : List α} (h : f.complete s = none) (k : Nat) :
    f.scan k s = ([], s) := by
  cases k with
  | zero => rfl
  | succ k => simp only [scan, h]

theorem scan_of_complete {s : List α} {n : Nat} (h : f.complete s = some n) :
    f.scan s.length s = (s :: f.heads (f.after n s), f.rest (f.after n s)) := by
  have hdec := f.after_length_lt h
  obtain ⟨m, hm⟩ : ∃ m, s.length = m + 1 := ⟨s.length - 1, by omega⟩
  rw [hm]
  simp only [scan, h, heads, rest]
  rw [scan_of_le f (by omega : (f.after n s).length ≤ m)]

theorem heads_of_incomplete {s : List α} (h : f.complete s = none) : f.heads s = [] := by
  rw [heads, scan_of_incomplete f h]

theorem rest_of_incomplete {s : List α} (h : f.complete s = none) : f.rest s = s := by
  rw [rest, scan_of_incomplete f h]

theorem units_of_incomplete {s : List α} (h : f.complete s = none) : f.units s = [] := by
  rw [units, heads_of_incomplete f h, List.map_nil]

theorem heads_of_complete {s : List α} {n : Nat} (h : f.complete s = some n) :
    f.heads s = s :: f.heads (f.after n s) := by
  rw [heads, scan_of_complete f h]

theorem rest_of_complete {s : List α} {n : Nat} (h : f.complete s = some n) :
    f.rest s = f.rest (f.after n s) := by
  rw [rest, scan_of_complete f h]

theorem units_of_complete {s : List α} {n : Nat} (h : f.complete s = some n) :
    f.units s = s.take n :: f.units (f.after n s) := by
  rw [units, heads_of_complete f h, List.map_cons, ((complete_eq_some_iff f).mp h).1]
  rfl

/-- Induction along the units of a string. -/
theorem unit_induction {P : List α → Prop} (stop : ∀ s, f.complete s = none → P s)
    (unit : ∀ s n, f.complete s = some n → P (f.after n s) → P s) (s : List α) : P s := by
  induction hlen : s.length using Nat.strong_induction_on generalizing s with
  | _ len ih =>
    cases hs : f.complete s with
    | none => exact stop s hs
    | some n => exact unit s n hs (ih _ (hlen ▸ f.after_length_lt hs) _ rfl)

/-- What is kept never begins with a complete unit. -/
theorem complete_rest (s : List α) : f.complete (f.rest s) = none := by
  induction s using f.unit_induction with
  | stop s h => rwa [rest_of_incomplete f h]
  | unit s n h ih => rwa [rest_of_complete f h]

/-- What is kept is a suffix. -/
theorem rest_suffix (s : List α) : f.rest s <:+ s := by
  induction s using f.unit_induction with
  | stop s h =>
    rw [rest_of_incomplete f h]
  | unit s n h ih =>
    rw [rest_of_complete f h]
    refine ih.trans ?_
    rw [after_eq_drop]
    exact List.drop_suffix _ s

/-- A unit that is found begins somewhere in the string, and all of it is there. -/
theorem of_mem_heads {s t : List α} (h : t ∈ f.heads s) : t <:+ s ∧ ∃ n, f.complete t = some n := by
  induction s using f.unit_induction with
  | stop s hs =>
    rw [heads_of_incomplete f hs] at h
    exact absurd h List.not_mem_nil
  | unit s n hs ih =>
    rw [heads_of_complete f hs] at h
    rcases List.mem_cons.mp h with rfl | h
    · exact ⟨List.suffix_rfl, n, hs⟩
    · obtain ⟨hsuffix, hcomplete⟩ := ih h
      refine ⟨hsuffix.trans ?_, hcomplete⟩
      rw [after_eq_drop]
      exact List.drop_suffix _ s

/-! ## Units and the padding behind them -/

/-- The complete units of `s`, each with the padding behind it. -/
def parts (s : List α) : List (List α × List α) :=
  (f.heads s).map fun t =>
    (t.take ((f.size t).getD 0), (t.drop ((f.size t).getD 0)).takeWhile f.padding)

/-- The string of some units and paddings, and of what follows them. -/
def join (ps : List (List α × List α)) (t : List α) : List α :=
  (ps.flatMap fun p => p.1 ++ p.2) ++ t

@[simp] theorem join_nil (t : List α) : join [] t = t := rfl

theorem join_cons (p : List α × List α) (ps : List (List α × List α)) (t : List α) :
    join (p :: ps) t = p.1 ++ (p.2 ++ join ps t) := by
  simp only [join, List.flatMap_cons, List.append_assoc]

theorem parts_of_incomplete {s : List α} (h : f.complete s = none) : f.parts s = [] := by
  rw [parts, heads_of_incomplete f h, List.map_nil]

theorem parts_of_complete {s : List α} {n : Nat} (h : f.complete s = some n) :
    f.parts s = (s.take n, (s.drop n).takeWhile f.padding) :: f.parts (f.after n s) := by
  rw [parts, heads_of_complete f h, List.map_cons, ((complete_eq_some_iff f).mp h).1]
  rfl

theorem map_fst_parts (s : List α) : (f.parts s).map Prod.fst = f.units s := by
  rw [parts, units, List.map_map]
  rfl

/-- **Nothing is lost**: units, padding and what is kept are the whole string. -/
theorem join_parts (s : List α) : join (f.parts s) (f.rest s) = s := by
  induction s using f.unit_induction with
  | stop s h => rw [parts_of_incomplete f h, rest_of_incomplete f h, join_nil]
  | unit s n h ih =>
    rw [parts_of_complete f h, rest_of_complete f h, join_cons, ih, after,
      List.takeWhile_append_dropWhile, List.take_append_drop]

/-- The padding behind a unit is all there is. -/
theorem padding_maximal {s : List α} {before after : List (List α × List α)}
    {p : List α × List α} (h : f.parts s = before ++ p :: after) :
    p.2 = (p.2 ++ join after (f.rest s)).takeWhile f.padding := by
  induction s using f.unit_induction generalizing before with
  | stop s hs =>
    rw [parts_of_incomplete f hs] at h
    exact absurd h (by simp)
  | unit s n hs ih =>
    rw [parts_of_complete f hs] at h
    rw [rest_of_complete f hs]
    cases before with
    | nil =>
      obtain ⟨rfl, hafter⟩ := List.cons.inj h
      -- behind the padding stands what is read next
      rw [← hafter, join_parts, Format.after, List.takeWhile_append_dropWhile]
    | cons q before => exact ih (List.cons.inj h).2

/-! ## Reading in two steps -/

/-- What follows a unit when more cells arrive, unless they go on with its padding. -/
theorem after_append {s : List α} {n : Nat} (h : f.complete s = some n) {t : List α}
    (hclean : f.after n s = [] → ∀ a ∈ t.head?, f.padding a = false) :
    f.after n (s ++ t) = f.after n s ++ t := by
  have hle := ((complete_eq_some_iff f).mp h).2
  rw [after, List.drop_append_of_le_length hle, List.dropWhile_append]
  split
  · rename_i hempty
    have hnil : f.after n s = [] := List.isEmpty_iff.mp hempty
    rw [hnil, List.nil_append]
    cases t with
    | nil => rfl
    | cons a t => exact List.dropWhile_cons_of_neg (by simp [hclean hnil a rfl])
  · rfl

/-- **Reading is incremental**: reading `s` and going on with `t` from what was kept finds the units of
`s ++ t`, unless the cut lies in front of padding that follows a unit. -/
theorem units_append {s t : List α}
    (hclean : s ≠ [] → f.rest s = [] → ∀ a ∈ t.head?, f.padding a = false) :
    f.units (s ++ t) = f.units s ++ f.units (f.rest s ++ t) ∧
      f.rest (s ++ t) = f.rest (f.rest s ++ t) := by
  induction s using f.unit_induction with
  | stop s h =>
    rw [units_of_incomplete f h, rest_of_incomplete f h, List.nil_append]
    exact ⟨rfl, rfl⟩
  | unit s n h ih =>
    have hne : s ≠ [] := by
      rintro rfl
      exact absurd (f.after_length_lt h) (Nat.not_lt_zero _)
    have hafter : f.after n (s ++ t) = f.after n s ++ t := by
      refine f.after_append h fun hempty => hclean hne ?_
      rw [rest_of_complete f h, hempty, rest_of_incomplete f f.complete_nil]
    have hle := ((complete_eq_some_iff f).mp h).2
    obtain ⟨hunits, hrest⟩ := ih fun _ hempty => hclean hne (by rw [rest_of_complete f h, hempty])
    rw [units_of_complete f (f.complete_append h t), rest_of_complete f (f.complete_append h t),
      hafter, hunits, hrest, units_of_complete f h, rest_of_complete f h,
      List.take_append_of_le_length hle, List.cons_append]
    exact ⟨rfl, rfl⟩

/-- Reading piece by piece, with `r` kept from before: the units that are found, and what is kept. -/
def feed : List α → List (List α) → List (List α) × List α
  | r, [] => ([], r)
  | r, p :: ps => (f.units (r ++ p) ++ (feed (f.rest (r ++ p)) ps).1, (feed (f.rest (r ++ p)) ps).2)

/-- The pieces find what reading their string finds, unless one of them begins in front of padding that
follows a unit. -/
theorem feed_eq {pieces : List (List α)} {u : List α}
    (hclean : ∀ before after, pieces = before ++ after → u ++ before.flatten ≠ [] →
      f.rest (u ++ before.flatten) = [] → ∀ a ∈ after.flatten.head?, f.padding a = false) :
    f.units u ++ (f.feed (f.rest u) pieces).1 = f.units (u ++ pieces.flatten) ∧
      (f.feed (f.rest u) pieces).2 = f.rest (u ++ pieces.flatten) := by
  -- `u` is what has been read before the pieces
  induction pieces generalizing u with
  | nil =>
    rw [feed, List.flatten_nil, List.append_nil, List.append_nil]
    exact ⟨rfl, rfl⟩
  | cons p ps ih =>
    have hfirst : u ≠ [] → f.rest u = [] → ∀ a ∈ p.head?, f.padding a = false := by
      intro hne hrest a ha
      refine hclean [] (p :: ps) rfl (by simpa using hne) (by simpa using hrest) a ?_
      rw [List.flatten_cons, List.head?_append, Option.mem_def.mp ha]
      rfl
    obtain ⟨hunits, hrest⟩ := f.units_append hfirst
    obtain ⟨hunits', hrest'⟩ := ih (u := u ++ p) fun before after h hne hempty => by
      rw [List.append_assoc, ← List.flatten_cons] at hne hempty
      exact hclean (p :: before) after (congrArg (p :: ·) h) hne hempty
    rw [feed, ← hrest, ← List.append_assoc, ← hunits, hunits', hrest', List.flatten_cons,
      List.append_assoc]
    exact ⟨rfl, rfl⟩

/-! ## Strings put together from units -/

/-- `u` is a whole unit, and its first cell cannot be taken for padding. -/
structure IsUnit (u : List α) : Prop where
  size_eq : f.size u = some u.length
  unpadded : ∀ a ∈ u.head?, f.padding a = false

variable {f} {u : List α}

theorem IsUnit.length_pos (h : f.IsUnit u) : 0 < u.length := f.size_pos h.size_eq

theorem IsUnit.complete_append (h : f.IsUnit u) (t : List α) :
    f.complete (u ++ t) = some u.length :=
  f.complete_append ((complete_eq_some_iff f).mpr ⟨h.size_eq, le_rfl⟩) t

/-- A proper prefix of a unit is incomplete, wherever the cut is. -/
theorem IsUnit.complete_take (h : f.IsUnit u) {k : Nat} (hk : k < u.length) :
    f.complete (u.take k) = none := by
  apply (complete_eq_none_iff f).mpr
  intro n hn
  -- a size read off the cut unit is the size of the whole one
  have hsize := f.size_append hn (u.drop k)
  rw [List.take_append_drop, h.size_eq, Option.some.injEq] at hsize
  rw [List.length_take]
  omega

/-- A string that begins like a unit is not changed by dropping padding. -/
theorem IsUnit.dropWhile_take (h : f.IsUnit u) {k : Nat} (hk : 0 < k) (t : List α) :
    (u.take k ++ t).dropWhile f.padding = u.take k ++ t := by
  obtain ⟨a, v, rfl⟩ := List.exists_cons_of_length_pos h.length_pos
  obtain ⟨j, rfl⟩ : ∃ j, k = j + 1 := ⟨k - 1, by omega⟩
  have ha : f.padding a = false := h.unpadded a rfl
  simp [ha]

theorem IsUnit.after_eq (u t : List α) : f.after u.length (u ++ t) = t.dropWhile f.padding := by
  rw [after, List.drop_left]

/-- Reading over one whole unit. -/
theorem IsUnit.units_append (h : f.IsUnit u) (t : List α) :
    f.units (u ++ t) = u :: f.units (t.dropWhile f.padding) := by
  rw [units_of_complete f (h.complete_append t), List.take_left, IsUnit.after_eq]

theorem IsUnit.rest_append (h : f.IsUnit u) (t : List α) :
    f.rest (u ++ t) = f.rest (t.dropWhile f.padding) := by
  rw [rest_of_complete f (h.complete_append t), IsUnit.after_eq]

section Flatten

variable {us : List (List α)} (hus : ∀ u ∈ us, f.IsUnit u)
include hus

/-- No padding is dropped in front of a unit. -/
theorem dropWhile_flatten (hne : us ≠ []) (t : List α) :
    (us.flatten ++ t).dropWhile f.padding = us.flatten ++ t := by
  obtain ⟨u, vs, rfl⟩ := List.exists_cons_of_ne_nil hne
  have hu := hus u List.mem_cons_self
  have hdrop := hu.dropWhile_take hu.length_pos (vs.flatten ++ t)
  rwa [List.take_length, ← List.append_assoc, ← List.flatten_cons] at hdrop

/-- Reading over whole units, one behind the other. -/
theorem units_flatten_append (hne : us ≠ []) (t : List α) :
    f.units (us.flatten ++ t) = us ++ f.units (t.dropWhile f.padding) ∧
      f.rest (us.flatten ++ t) = f.rest (t.dropWhile f.padding) := by
  induction us with
  | nil => exact absurd rfl hne
  | cons u vs ih =>
    have hu := hus u List.mem_cons_self
    have hvs : ∀ v ∈ vs, f.IsUnit v := fun v hv => hus v (List.mem_cons_of_mem u hv)
    rw [List.flatten_cons, List.append_assoc, hu.units_append, hu.rest_append]
    -- behind the last unit `t` may begin with padding, between two units there is none
    by_cases hnil : vs = []
    · subst hnil
      exact ⟨rfl, rfl⟩
    · rw [dropWhile_flatten hvs hnil, (ih hvs hnil).1, (ih hvs hnil).2]
      exact ⟨rfl, rfl⟩

/-- Whole units and then padding: nothing is kept. -/
theorem units_flatten_padding (hne : us ≠ []) {t : List α} (ht : ∀ a ∈ t, f.padding a = true) :
    f.units (us.flatten ++ t) = us ∧ f.rest (us.flatten ++ t) = [] := by
  have hdrop : t.dropWhile f.padding = [] := List.dropWhile_eq_nil_iff.mpr ht
  have hnil := f.complete_nil
  obtain ⟨hunits, hrest⟩ := units_flatten_append hus hne t
  rw [hunits, hrest, hdrop, units_of_incomplete f hnil, rest_of_incomplete f hnil, List.append_nil]
  exact ⟨rfl, rfl⟩

/-- Whole units and then the beginning of one more: the beginning is kept. -/
theorem units_flatten_take (hu : f.IsUnit u) {k : Nat} (hpos : 0 < k) (hk : k < u.length) :
    f.units (us.flatten ++ u.take k) = us ∧ f.rest (us.flatten ++ u.take k) = u.take k := by
  have hcut := hu.complete_take hk
  have hdrop := hu.dropWhile_take hpos []
  rw [List.append_nil] at hdrop
  by_cases hnil : us = []
  · subst hnil
    rw [List.flatten_nil, List.nil_append, units_of_incomplete f hcut, rest_of_incomplete f hcut]
    exact ⟨rfl, rfl⟩
  · obtain ⟨hunits, hrest⟩ := units_flatten_append hus hnil (u.take k)
    rw [hunits, hrest, hdrop, units_of_incomplete f hcut, rest_of_incomplete f hcut,
      List.append_nil]
    exact ⟨rfl, rfl⟩

end Flatten

end Format

end Sandstream.Lib.Frames
