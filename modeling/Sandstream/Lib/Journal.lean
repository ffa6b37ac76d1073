import Mathlib

/-! # Sandstream.Lib.Journal -- stores that are opened and appended to

A program keeps stores under keys. Opening a store empties it, and after that items are appended to it. A
journal lists these operations in the order in which they are made, and `replay` is what they make of
the stores.

A program may write to many stores in turn. `replay_opened` and `replay_not_opened` read the contents
of each off the journal, provided that no store is opened twice and none is written to before it has
been opened (`Disciplined`).

Everything is generic over the keys and the items.
-/

namespace Sandstream.Lib.Journal

/-- An operation on the store of a key. -/
inductive Entry (ι α : Type*) where
  | opened (key : ι)
  | appended (key : ι) (items : List α)

/-- The stores there are, and what is in them. -/
abbrev Stores (ι α : Type*) := ι → Option (List α)

variable {ι α : Type*} [DecidableEq ι]

/-- The key of an operation. -/
def Entry.key : Entry ι α → ι
  | opened k | appended k _ => k

/-- What an operation makes of the stores. A store that is not there cannot be appended to. -/
def Entry.act (stores : Stores ι α) : Entry ι α → Stores ι α
  | opened k => Function.update stores k (some [])
  | appended k items => Function.update stores k ((stores k).map (· ++ items))

/-- What a journal makes of the stores. -/
def replay (stores : Stores ι α) (journal : List (Entry ι α)) : Stores ι α :=
  journal.foldl Entry.act stores

/-- The keys that are opened, in order. -/
def openings (journal : List (Entry ι α)) : List ι :=
  journal.filterMap fun
    | .opened k => some k
    | .appended _ _ => none

/-- What is appended under a key. -/
def itemsOf (k : ι) (journal : List (Entry ι α)) : List α :=
  journal.flatMap fun
    | .opened _ => []
    | .appended k' items => if k' = k then items else []

/-- No store is opened twice, and none is written to before it has been opened. -/
structure Disciplined (journal : List (Entry ι α)) : Prop where
  openedOnce : (openings journal).Nodup
  openedFirst : ∀ before k items after, journal = before ++ .appended k items :: after →
    k ∈ openings before

section Append

variable (journal journal' : List (Entry ι α)) (k k' : ι)

omit [DecidableEq ι] in
theorem openings_append : openings (journal ++ journal') = openings journal ++ openings journal' :=
  List.filterMap_append

omit [DecidableEq ι] in
@[simp] theorem openings_opened : openings [(.opened k : Entry ι α)] = [k] := rfl

omit [DecidableEq ι] in
@[simp] theorem openings_appended (items : List α) : openings [.appended k items] = [] := rfl

theorem itemsOf_append : itemsOf k (journal ++ journal') = itemsOf k journal ++ itemsOf k journal' :=
  List.flatMap_append

@[simp] theorem itemsOf_opened : itemsOf k [(.opened k' : Entry ι α)] = [] := rfl

@[simp] theorem itemsOf_appended (items : List α) :
    itemsOf k [.appended k' items] = if k' = k then items else [] :=
  List.append_nil _

theorem replay_append (stores : Stores ι α) :
    replay stores (journal ++ journal') = replay (replay stores journal) journal' :=
  List.foldl_append

end Append

/-! ## Other keys -/

theorem act_of_ne (stores : Stores ι α) {e : Entry ι α} {k : ι} (h : e.key ≠ k) :
    e.act stores k = stores k := by
  cases e with
  | opened k' => exact Function.update_of_ne (Ne.symm h) _ _
  | appended k' items => exact Function.update_of_ne (Ne.symm h) _ _

/-- A store whose key the journal does not name is left alone. -/
theorem replay_of_not_named {journal : List (Entry ι α)} {k : ι} (h : ∀ e ∈ journal, e.key ≠ k)
    (stores : Stores ι α) : replay stores journal k = stores k := by
  induction journal generalizing stores with
  | nil => rfl
  | cons e journal ih =>
    have htail := ih (fun e' he' => h e' (List.mem_cons_of_mem _ he')) (e.act stores)
    exact htail.trans (act_of_ne stores (h e List.mem_cons_self))

/-! ## Disciplined journals -/

section Disciplined

variable {journal journal' : List (Entry ι α)} {k : ι}

omit [DecidableEq ι] in
theorem Disciplined.left (h : Disciplined (journal ++ journal')) : Disciplined journal where
  openedOnce := by
    have honce := h.openedOnce
    rw [openings_append] at honce
    exact honce.of_append_left
  openedFirst := by
    rintro before k items after rfl
    apply h.openedFirst before k items (after ++ journal')
    rw [List.append_assoc, List.cons_append]

/-- Under a key that is not opened nothing is appended. -/
theorem Disciplined.itemsOf_not_opened (h : Disciplined journal) (hk : k ∉ openings journal) :
    itemsOf k journal = [] := by
  refine List.flatMap_eq_nil_iff.mpr ?_
  intro e he
  cases e with
  | opened k' => rfl
  | appended k' items =>
    obtain ⟨before, after, rfl⟩ := List.append_of_mem he
    have hfirst := h.openedFirst before k' items after rfl
    have hne : k' ≠ k := by
      rintro rfl
      apply hk
      rw [openings_append]
      exact List.mem_append_left _ hfirst
    exact if_neg hne

/-- A store that is not opened keeps its contents, if it has any. -/
theorem Disciplined.replay_not_opened (h : Disciplined journal) (hk : k ∉ openings journal)
    (stores : Stores ι α) : replay stores journal k = stores k := by
  apply replay_of_not_named
  rintro (k' | ⟨k', items⟩) he rfl
  · exact hk (List.mem_filterMap.mpr ⟨_, he, rfl⟩)
  · obtain ⟨before, after, rfl⟩ := List.append_of_mem he
    apply hk
    rw [openings_append]
    exact List.mem_append_left _ (h.openedFirst before k' items after rfl)

/-- **A store that is opened holds what has been appended to it**, whatever it held before. -/
theorem Disciplined.replay_opened (h : Disciplined journal) (hk : k ∈ openings journal)
    (stores : Stores ι α) : replay stores journal k = some (itemsOf k journal) := by
  induction journal using List.reverseRecOn with
  | nil => exact absurd hk List.not_mem_nil
  | append_singleton journal e ih =>
    have hleft := h.left
    rw [replay_append, itemsOf_append]
    by_cases hbefore : k ∈ openings journal
    · -- opened already: the last operation can only append
      show e.act (replay stores journal) k = _
      cases e with
      | opened k' =>
        have hne : k' ≠ k := by
          rintro rfl
          have honce := h.openedOnce
          rw [openings_append, openings_opened, List.nodup_append] at honce
          exact honce.2.2 k' hbefore k' List.mem_cons_self rfl
        rw [act_of_ne _ (e := .opened k') hne, ih hleft hbefore, itemsOf_opened, List.append_nil]
      | appended k' items =>
        rw [itemsOf_appended]
        by_cases hkey : k' = k
        · subst hkey
          rw [if_pos rfl]
          show Function.update _ k' _ k' = _
          rw [Function.update_self, ih hleft hbefore, Option.map_some]
        · rw [if_neg hkey, act_of_ne _ (e := .appended k' items) hkey, ih hleft hbefore,
            List.append_nil]
    · -- opened by the last operation, so nothing has been appended yet
      rw [openings_append, List.mem_append, or_iff_right hbefore] at hk
      cases e with
      | opened k' =>
        obtain rfl : k = k' := List.mem_singleton.mp hk
        rw [hleft.itemsOf_not_opened hbefore, itemsOf_opened]
        show Function.update _ k _ k = _
        rw [Function.update_self]
        rfl
      | appended k' items => exact absurd hk List.not_mem_nil

end Disciplined

omit [DecidableEq ι] in
/-- An operation that keeps the discipline: a new key is opened, or an open store is written to. -/
theorem Disciplined.concat {journal : List (Entry ι α)} (h : Disciplined journal) {e : Entry ι α}
    (hopened : ∀ k, e = .opened k → k ∉ openings journal)
    (happended : ∀ k items, e = .appended k items → k ∈ openings journal) :
    Disciplined (journal ++ [e]) where
  openedOnce := by
    rw [openings_append]
    cases e with
    | opened k =>
      rw [openings_opened]
      refine List.nodup_append.mpr ⟨h.openedOnce, List.nodup_singleton k, ?_⟩
      rintro k' hk' k'' hk'' rfl
      obtain rfl := List.mem_singleton.mp hk''
      exact hopened _ rfl hk'
    | appended k items =>
      rw [openings_appended, List.append_nil]
      exact h.openedOnce
  openedFirst := by
    intro before k items after hsplit
    -- the operation is the last one, or one of those before
    rcases List.eq_nil_or_concat after with rfl | ⟨after, b, rfl⟩
    · obtain ⟨rfl, hlast⟩ := List.append_inj' hsplit rfl
      exact happended k items (List.cons.inj hlast).1
    · rw [List.concat_eq_append, ← List.cons_append, ← List.append_assoc] at hsplit
      obtain ⟨rfl, -⟩ := List.append_inj' hsplit rfl
      exact h.openedFirst before k items after rfl

end Sandstream.Lib.Journal
