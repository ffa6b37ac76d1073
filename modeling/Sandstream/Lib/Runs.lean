import Mathlib

/-! # Sandstream.Lib.Runs -- runs of a step that may fail

A run takes a step for each message of a list and stops at the first step that fails. `foldlM_error_iff`
finds that step. `Along` says of a run that a condition holds before each of its steps; `foldlM_filter`
leaves out messages that do nothing there.
-/

namespace Sandstream.Lib.Runs

variable {σ α ε : Type} {step : σ → α → Except ε σ} {s s' : σ} {l : List α}

theorem foldlM_concat (l : List α) (a : α) (s : σ) :
    (l ++ [a]).foldlM step s = l.foldlM step s >>= fun s' => step s' a := by
  rw [List.foldlM_append]
  apply bind_congr
  intro s'
  rw [List.foldlM_cons]
  cases step s' a <;> rfl

/-- A run fails when one of its steps does. -/
theorem foldlM_error_iff {e : ε} :
    l.foldlM step s = .error e ↔
      ∃ before a after s', l = before ++ a :: after ∧ before.foldlM step s = .ok s' ∧
        step s' a = .error e := by
  induction l using List.reverseRecOn with
  | nil =>
    constructor
    · exact fun h => nomatch h
    · rintro ⟨before, a, after, s', hsplit, -⟩
      exact absurd hsplit (by simp)
  | append_singleton l b ih =>
    rw [foldlM_concat]
    constructor
    · intro h
      cases hl : l.foldlM step s with
      | error e' =>
        rw [hl] at h
        rw [hl, show e' = e from Except.error.inj h] at ih
        obtain ⟨before, a, after, s', rfl, hbefore, ha⟩ := ih.mp rfl
        exact ⟨before, a, after ++ [b], s', by simp, hbefore, ha⟩
      | ok s₁ =>
        rw [hl] at h
        exact ⟨l, b, [], s₁, rfl, hl, h⟩
    · rintro ⟨before, a, after, s', hsplit, hbefore, ha⟩
      -- the failing step is the last one, or the run has failed before it
      rcases List.eq_nil_or_concat after with rfl | ⟨after, c, rfl⟩
      · obtain ⟨rfl, hlast⟩ := List.append_inj' hsplit rfl
        obtain rfl : b = a := (List.cons.inj hlast).1
        rw [hbefore]
        exact ha
      · have hsplit' : l ++ [b] = (before ++ a :: after) ++ [c] := by
          rw [hsplit, List.concat_eq_append, List.append_assoc, List.cons_append]
        obtain ⟨rfl, -⟩ := List.append_inj' hsplit' rfl
        rw [ih.mpr ⟨before, a, after, s', rfl, hbefore, ha⟩]
        rfl

/-! ## Conditions along a run -/

/-- `P` holds before each step of a run, as far as the run gets. -/
def Along (step : σ → α → Except ε σ) (P : σ → α → Prop) : σ → List α → Prop
  | _, [] => True
  | s, a :: l => P s a ∧ ∀ s', step s a = .ok s' → Along step P s' l

instance decidableAlong (step : σ → α → Except ε σ) (P : σ → α → Prop)
    [∀ s a, Decidable (P s a)] : (s : σ) → (l : List α) → Decidable (Along step P s l)
  | _, [] => isTrue trivial
  | s, a :: l =>
    have : Decidable (∀ s', step s a = .ok s' → Along step P s' l) :=
      match step s a with
      | .error _ => isTrue fun _ hs' => nomatch hs'
      | .ok s' =>
        have := decidableAlong step P s' l
        decidable_of_iff (Along step P s' l)
          ⟨fun hl _ hs' => Except.ok.inj hs' ▸ hl, fun hl => hl s' rfl⟩
    inferInstanceAs (Decidable (_ ∧ _))

/-- The steps of a run are those from the states its first parts end in. -/
theorem along_iff {P : σ → α → Prop} :
    Along step P s l ↔ ∀ before a after s', l = before ++ a :: after →
      before.foldlM step s = .ok s' → P s' a := by
  induction l generalizing s with
  | nil =>
    refine ⟨fun _ before a after s' hsplit => ?_, fun _ => trivial⟩
    exact absurd hsplit (by simp)
  | cons b l ih =>
    unfold Along
    constructor
    · rintro ⟨hfirst, hlater⟩ before a after s' hsplit hbefore
      cases before with
      | nil =>
        obtain ⟨rfl, -⟩ := List.cons.inj hsplit
        obtain rfl := Except.ok.inj hbefore
        exact hfirst
      | cons c before =>
        obtain ⟨rfl, hl⟩ := List.cons.inj hsplit
        rw [List.foldlM_cons] at hbefore
        cases hb : step s b with
        | error e =>
          rw [hb] at hbefore
          exact nomatch hbefore
        | ok s₁ =>
          rw [hb] at hbefore
          exact ih.mp (hlater s₁ hb) before a after s' hl hbefore
    · intro h
      refine ⟨h [] b l s rfl rfl, fun s₁ hb => ih.mpr ?_⟩
      intro before a after s' hsplit hbefore
      refine h (b :: before) a after s' (congrArg (b :: ·) hsplit) ?_
      rw [List.foldlM_cons, hb]
      exact hbefore

/-- A run returns exactly if each of its steps does. -/
theorem foldlM_returns_iff :
    (∃ s', l.foldlM step s = .ok s') ↔ Along step (fun s a => ∃ s', step s a = .ok s') s l := by
  induction l generalizing s with
  | nil => exact ⟨fun _ => trivial, fun _ => ⟨s, rfl⟩⟩
  | cons a l ih =>
    rw [List.foldlM_cons]
    unfold Along
    constructor
    · rintro ⟨s', hrun⟩
      cases hstep : step s a with
      | error e =>
        rw [hstep] at hrun
        exact nomatch hrun
      | ok s₁ =>
        rw [hstep] at hrun
        refine ⟨⟨s₁, rfl⟩, ?_⟩
        intro s₂ hs₂
        obtain rfl := Except.ok.inj hs₂
        exact ih.mp ⟨s', hrun⟩
    · rintro ⟨⟨s₁, hstep⟩, hlater⟩
      obtain ⟨s', hrun⟩ := ih.mpr (hlater s₁ hstep)
      rw [hstep]
      exact ⟨s', hrun⟩

/-- Messages whose steps leave the state as it is may be left out of the run. -/
theorem foldlM_filter {keep : α → Bool}
    (hinert : Along step (fun s a => keep a = false → step s a = .ok s) s l) :
    (l.filter keep).foldlM step s = l.foldlM step s := by
  induction l generalizing s with
  | nil => rfl
  | cons b l ih =>
    obtain ⟨hfirst, hlater⟩ := hinert
    by_cases hb : keep b = true
    · rw [List.filter_cons_of_pos hb, List.foldlM_cons, List.foldlM_cons]
      cases hs : step s b with
      | error e => rfl
      | ok s' => exact ih (hlater s' hs)
    · have hsame := hfirst (Bool.eq_false_iff.mpr hb)
      rw [List.filter_cons_of_neg hb, List.foldlM_cons, hsame]
      exact ih (hlater s hsame)

end Sandstream.Lib.Runs
