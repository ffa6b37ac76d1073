import Mathlib

/-! # Sandstream.Lib.FirstWins -- maps in which the first entry for a key stays

`std::map::emplace` leaves an entry that is already there alone. Filling a map that way from a list of
entries keeps the first entry of the list for each key, and any entry the map had before.
-/

namespace Sandstream.Lib.FirstWins

open Std

variable {κ ν : Type} {cmp : κ → κ → Ordering} [TransCmp cmp] [LawfulEqCmp cmp]
  [DecidableEq κ]

/-- `emplace` each entry in order. -/
def emplaceAll (m : ExtTreeMap κ ν cmp) (entries : List (κ × ν)) : ExtTreeMap κ ν cmp :=
  entries.foldl (fun m e => m.insertIfNew e.1 e.2) m

/-- The map filled from a list of entries. -/
def ofEntries (entries : List (κ × ν)) : ExtTreeMap κ ν cmp := emplaceAll ∅ entries

/-- One `emplace`, at the key of another one or the same. -/
theorem getElem?_insertIfNew_eq (m : ExtTreeMap κ ν cmp) (k k' : κ) (v : ν) :
    (m.insertIfNew k v)[k']? = m[k']?.or (if k = k' then some v else none) := by
  rw [ExtTreeMap.getElem?_insertIfNew]
  by_cases hk : k = k'
  · subst hk
    by_cases hm : k ∈ m
    · simp [hm]
    · simp [hm]
  · have hcmp : ¬ cmp k k' = .eq := fun h => hk (LawfulEqCmp.compare_eq_iff_eq.mp h)
    simp [hk, hcmp]

/-- What was there stays; otherwise the first entry of the list is found. -/
theorem getElem?_emplaceAll (m : ExtTreeMap κ ν cmp) (entries : List (κ × ν)) (k : κ) :
    (emplaceAll m entries)[k]? = m[k]?.or (entries.lookup k) := by
  induction entries generalizing m with
  | nil => simp [emplaceAll]
  | cons e entries ih =>
    rw [emplaceAll, List.foldl_cons, ← emplaceAll, ih, getElem?_insertIfNew_eq, Option.or_assoc,
      List.lookup_cons]
    by_cases hk : e.1 = k
    · subst hk
      simp
    · have hbeq : (k == e.1) = false := beq_eq_false_iff_ne.mpr (Ne.symm hk)
      simp [hk, hbeq]

theorem getElem?_ofEntries (entries : List (κ × ν)) (k : κ) :
    (ofEntries entries : ExtTreeMap κ ν cmp)[k]? = entries.lookup k := by
  simp [ofEntries, getElem?_emplaceAll]

theorem mem_ofEntries_iff (entries : List (κ × ν)) (k : κ) :
    k ∈ (ofEntries entries : ExtTreeMap κ ν cmp) ↔ ∃ v, (k, v) ∈ entries := by
  rw [ExtTreeMap.mem_iff_isSome_getElem?, getElem?_ofEntries]
  induction entries with
  | nil => simp
  | cons e entries ih =>
    rw [List.lookup_cons]
    by_cases hk : k = e.1
    · subst hk
      simp only [beq_self_eq_true, Option.isSome_some, true_iff]
      exact ⟨e.2, List.mem_cons_self⟩
    · have hbeq : (k == e.1) = false := beq_eq_false_iff_ne.mpr hk
      simp only [hbeq, ih, List.mem_cons, Prod.ext_iff, hk, false_and, false_or]

/-! ## Maps filled from the rows of a table -/

section Rows

variable {α : Type} (key : α → κ) (value : α → ν)

/-- A key finds the value of the first row that has it. -/
theorem getElem?_ofEntries_map (rows : List α) (k : κ) :
    (ofEntries (rows.map fun r => (key r, value r)) : ExtTreeMap κ ν cmp)[k]? =
      (rows.find? fun r => key r == k).map value := by
  rw [getElem?_ofEntries]
  induction rows with
  | nil => rfl
  | cons r rows ih =>
    rw [List.map_cons, List.lookup_cons, List.find?_cons]
    by_cases hk : key r = k
    · simp only [hk, beq_self_eq_true, Option.map_some]
    · simp only [beq_eq_false_iff_ne.mpr hk, beq_eq_false_iff_ne.mpr (Ne.symm hk), ih]

theorem mem_ofEntries_map_iff (rows : List α) (k : κ) :
    k ∈ (ofEntries (rows.map fun r => (key r, value r)) : ExtTreeMap κ ν cmp) ↔
      ∃ r ∈ rows, key r = k := by
  rw [mem_ofEntries_iff]
  constructor
  · rintro ⟨v, hmem⟩
    obtain ⟨r, hr, heq⟩ := List.mem_map.mp hmem
    exact ⟨r, hr, congrArg Prod.fst heq⟩
  · rintro ⟨r, hr, rfl⟩
    exact ⟨value r, List.mem_map_of_mem hr⟩

end Rows

omit [LawfulEqCmp cmp] [DecidableEq κ] in
theorem size_emplaceAll_le (m : ExtTreeMap κ ν cmp) (entries : List (κ × ν)) :
    (emplaceAll m entries).size ≤ m.size + entries.length := by
  induction entries generalizing m with
  | nil => exact le_rfl
  | cons e entries ih =>
    have hstep : (m.insertIfNew e.1 e.2).size ≤ m.size + 1 := ExtTreeMap.size_insertIfNew_le
    have hrest := ih (m.insertIfNew e.1 e.2)
    rw [List.length_cons]
    unfold emplaceAll at hrest ⊢
    rw [List.foldl_cons]
    omega

/-! ## The entries of a map -/

omit [DecidableEq κ] in
theorem toList_pairwise_ne (m : ExtTreeMap κ ν cmp) :
    m.toList.Pairwise fun e e' => e.1 ≠ e'.1 :=
  ExtTreeMap.distinct_keys_toList.imp fun hne heq =>
    hne (LawfulEqCmp.compare_eq_iff_eq.mpr heq)

theorem lookup_of_mem {l : List (κ × ν)} (hdistinct : l.Pairwise fun e e' => e.1 ≠ e'.1) {k : κ}
    {v : ν} (hmem : (k, v) ∈ l) : l.lookup k = some v := by
  induction l with
  | nil => simp at hmem
  | cons e l ih =>
    obtain ⟨hne, hdistinct⟩ := List.pairwise_cons.mp hdistinct
    rw [List.lookup_cons]
    rcases List.mem_cons.mp hmem with rfl | hmem
    · simp
    · have hbeq : (k == e.1) = false := beq_eq_false_iff_ne.mpr (hne _ hmem).symm
      simp only [hbeq, ih hdistinct hmem]

/-- Looking a key up in the entries of a map is looking it up in the map. -/
theorem lookup_toList (m : ExtTreeMap κ ν cmp) (k : κ) : m.toList.lookup k = m[k]? := by
  cases hk : m[k]? with
  | none =>
    refine List.lookup_eq_none_iff.mpr fun e he => ?_
    rw [bne_iff_ne]
    rintro rfl
    rw [ExtTreeMap.mem_toList_iff_getElem?_eq_some.mp he] at hk
    exact absurd hk (by simp)
  | some v =>
    exact lookup_of_mem (toList_pairwise_ne m) (ExtTreeMap.mem_toList_iff_getElem?_eq_some.mpr hk)

end Sandstream.Lib.FirstWins
