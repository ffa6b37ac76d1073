import Mathlib

/-! # Sandstream.Lib.Dispatch -- many machines behind one dispatcher

A dispatcher keeps machines under keys. A message goes to the machine under its key, if there is one;
the machine takes a step and may announce something, and an announcement may put fresh machines under
keys that have none. So the set of machines grows while the dispatcher runs, and when a machine starts
depends on the messages of others.

`Dispatcher` states what is assumed of such a system, `step` and `run` define it, and the factorisation
says that what happens under one key is the run of one machine alone, on the messages of that key that
come after the machine was put there (`run_of_registered`, `run_of_registration`).

Everything is generic over the state, the keys, the machines, their messages and announcements, and
the failures.
-/

namespace Sandstream.Lib.Dispatch

/-- A dispatcher with states `σ`, keys `κ`, machines `η`, messages `α` and announcements `ω`. -/
structure Dispatcher (σ κ η α ω ε : Type) where
  key : α → κ
  /-- one step of a machine alone -/
  feed : η → α → Except ε (η × List ω)
  lookup : σ → κ → Option η
  /-- the state after the machine under a key has changed -/
  update : σ → κ → η → σ
  /-- the state after a machine has announced something -/
  react : κ → σ → ω → σ
  /-- what has been announced under a key -/
  output : σ → κ → List ω
  /-- the machines that can be put under a key -/
  fresh : κ → η → Prop
  lookup_update : ∀ s k h, lookup (update s k h) k = some h
  lookup_update_of_ne : ∀ s k h k', k' ≠ k → lookup (update s k h) k' = lookup s k'
  output_update : ∀ s k h, output (update s k h) = output s
  lookup_react_of_some : ∀ s k w k' h, lookup s k' = some h → lookup (react k s w) k' = some h
  fresh_react : ∀ s k w k' h, lookup s k' = none → lookup (react k s w) k' = some h → fresh k' h
  output_react : ∀ s k w, output (react k s w) k = output s k ++ [w]
  output_react_of_ne : ∀ s k w k', k' ≠ k → output (react k s w) k' = output s k'

variable {σ κ η α ω ε : Type} (D : Dispatcher σ κ η α ω ε)

namespace Dispatcher

/-! ## Running -/

/-- One machine alone, on several messages. -/
def feedAll (h : η) : List α → Except ε (η × List ω)
  | [] => .ok (h, [])
  | a :: as =>
    match D.feed h a with
    | .error e => .error e
    | .ok (h', ws) =>
      match feedAll h' as with
      | .error e => .error e
      | .ok (h'', ws') => .ok (h'', ws ++ ws')

/-- One message. -/
def step (s : σ) (a : α) : Except ε σ :=
  match D.lookup s (D.key a) with
  | none => .ok s
  | some h =>
    match D.feed h a with
    | .error e => .error e
    | .ok (h', ws) => .ok (D.update (ws.foldl (D.react (D.key a)) s) (D.key a) h')

/-- Several messages. -/
def run (s : σ) : List α → Except ε σ
  | [] => .ok s
  | a :: as =>
    match D.step s a with
    | .error e => .error e
    | .ok s' => run s' as

variable {D} {s s' s'' : σ} {a : α} {as bs : List α} {k : κ} {h h' h'' : η} {ws : List ω}

theorem run_cons_eq_ok_iff :
    D.run s (a :: as) = .ok s'' ↔ ∃ s', D.step s a = .ok s' ∧ D.run s' as = .ok s'' := by
  rw [run]
  cases D.step s a <;> simp

theorem run_append_eq_ok_iff :
    D.run s (as ++ bs) = .ok s'' ↔ ∃ s', D.run s as = .ok s' ∧ D.run s' bs = .ok s'' := by
  induction as generalizing s with
  | nil => simp [run]
  | cons a as ih =>
    simp only [List.cons_append, run_cons_eq_ok_iff, ih]
    constructor
    · rintro ⟨s₁, hstep, s', hrun, hrest⟩
      exact ⟨s', ⟨s₁, hstep, hrun⟩, hrest⟩
    · rintro ⟨s', ⟨s₁, hstep, hrun⟩, hrest⟩
      exact ⟨s₁, hstep, s', hrun, hrest⟩

theorem feedAll_cons_eq_ok_iff :
    D.feedAll h (a :: as) = .ok (h'', ws) ↔
      ∃ h' ws₁ ws₂, D.feed h a = .ok (h', ws₁) ∧ D.feedAll h' as = .ok (h'', ws₂) ∧
        ws = ws₁ ++ ws₂ := by
  rw [feedAll]
  cases hfeed : D.feed h a with
  | error e => simp
  | ok r =>
    obtain ⟨h', ws₁⟩ := r
    dsimp only
    cases hall : D.feedAll h' as with
    | error e => simp [hall]
    | ok r =>
      obtain ⟨h₂, ws₂⟩ := r
      simp [hall, eq_comm, and_assoc]

theorem feedAll_append_eq_ok_iff :
    D.feedAll h (as ++ bs) = .ok (h'', ws) ↔
      ∃ h' ws₁ ws₂, D.feedAll h as = .ok (h', ws₁) ∧ D.feedAll h' bs = .ok (h'', ws₂) ∧
        ws = ws₁ ++ ws₂ := by
  induction as generalizing h ws with
  | nil => simp [feedAll]
  | cons a as ih =>
    simp only [List.cons_append, feedAll_cons_eq_ok_iff, ih]
    constructor
    · rintro ⟨h₁, ws₁, ws₂, hfeed, ⟨h', ws₃, ws₄, hall, hrest, rfl⟩, rfl⟩
      exact ⟨h', ws₁ ++ ws₃, ws₄, ⟨h₁, ws₁, ws₃, hfeed, hall, rfl⟩, hrest,
        (List.append_assoc _ _ _).symm⟩
    · rintro ⟨h', ws₁, ws₂, ⟨h₁, ws₃, ws₄, hfeed, hall, rfl⟩, hrest, rfl⟩
      exact ⟨h₁, ws₃, ws₄ ++ ws₂, hfeed, ⟨h', ws₄, ws₂, hall, hrest, rfl⟩,
        List.append_assoc _ _ _⟩

/-! ## One step -/

theorem lookup_foldl_react (hk : D.lookup s k = some h) (k' : κ) :
    D.lookup (ws.foldl (D.react k') s) k = some h := by
  induction ws generalizing s with
  | nil => exact hk
  | cons w ws ih => exact ih (D.lookup_react_of_some s k' w k h hk)

theorem fresh_foldl_react {k' : κ} (hnone : D.lookup s k = none)
    (hk : D.lookup (ws.foldl (D.react k') s) k = some h) : D.fresh k h := by
  induction ws generalizing s with
  | nil =>
    rw [List.foldl_nil, hnone] at hk
    exact absurd hk (by simp)
  | cons w ws ih =>
    cases hw : D.lookup (D.react k' s w) k with
    | none => exact ih hw hk
    | some h₀ =>
      rw [List.foldl_cons, lookup_foldl_react hw, Option.some.injEq] at hk
      exact hk ▸ D.fresh_react s k' w k h₀ hnone hw

theorem output_foldl_react (ws : List ω) :
    D.output (ws.foldl (D.react k) s) k = D.output s k ++ ws := by
  induction ws generalizing s with
  | nil => rw [List.foldl_nil, List.append_nil]
  | cons w ws ih => rw [List.foldl_cons, ih, D.output_react, List.append_assoc, List.singleton_append]

theorem output_foldl_react_of_ne (ws : List ω) {k' : κ} (hne : k ≠ k') :
    D.output (ws.foldl (D.react k') s) k = D.output s k := by
  induction ws generalizing s with
  | nil => rfl
  | cons w ws ih => rw [List.foldl_cons, ih, D.output_react_of_ne s k' w k hne]

/-- A message without a machine changes nothing. -/
theorem step_of_unregistered (hnone : D.lookup s (D.key a) = none) : D.step s a = .ok s := by
  rw [step, hnone]

/-- What a step does when there is a machine under the key. -/
theorem step_of_registered (hk : D.lookup s (D.key a) = some h) (hstep : D.step s a = .ok s') :
    ∃ h' ws, D.feed h a = .ok (h', ws) ∧
      s' = D.update (ws.foldl (D.react (D.key a)) s) (D.key a) h' := by
  rw [step, hk] at hstep
  dsimp only at hstep
  cases hfeed : D.feed h a with
  | error e =>
    rw [hfeed] at hstep
    exact absurd hstep (by simp)
  | ok r =>
    rw [hfeed] at hstep
    exact ⟨r.1, r.2, rfl, (Except.ok.inj hstep).symm⟩

/-- The machine under the key of the message takes its step. -/
theorem step_own (hk : D.lookup s (D.key a) = some h) (hstep : D.step s a = .ok s') :
    ∃ h' ws, D.feed h a = .ok (h', ws) ∧ D.lookup s' (D.key a) = some h' ∧
      D.output s' (D.key a) = D.output s (D.key a) ++ ws := by
  obtain ⟨h', ws, hfeed, rfl⟩ := step_of_registered hk hstep
  refine ⟨h', ws, hfeed, D.lookup_update _ _ _, ?_⟩
  rw [D.output_update, output_foldl_react]

/-- Every other machine stays as it is. -/
theorem step_other (hne : k ≠ D.key a) (hk : D.lookup s k = some h) (hstep : D.step s a = .ok s') :
    D.lookup s' k = some h ∧ D.output s' k = D.output s k := by
  cases ha : D.lookup s (D.key a) with
  | none =>
    rw [step_of_unregistered ha, Except.ok.injEq] at hstep
    exact hstep ▸ ⟨hk, rfl⟩
  | some g =>
    obtain ⟨g', ws, -, rfl⟩ := step_of_registered ha hstep
    rw [D.lookup_update_of_ne _ _ _ _ hne, lookup_foldl_react hk, D.output_update,
      output_foldl_react_of_ne ws hne]
    exact ⟨rfl, rfl⟩

/-- A key without a machine has announced nothing more after the step, and gets at most a fresh
machine. -/
theorem step_new (hnone : D.lookup s k = none) (hstep : D.step s a = .ok s') :
    D.output s' k = D.output s k ∧ ∀ h, D.lookup s' k = some h → D.fresh k h := by
  cases ha : D.lookup s (D.key a) with
  | none =>
    rw [step_of_unregistered ha, Except.ok.injEq] at hstep
    subst hstep
    exact ⟨rfl, fun h hk => absurd hk (by simp [hnone])⟩
  | some g =>
    have hne : k ≠ D.key a := by
      rintro rfl
      rw [hnone] at ha
      exact absurd ha (by simp)
    obtain ⟨g', ws, -, rfl⟩ := step_of_registered ha hstep
    rw [D.lookup_update_of_ne _ _ _ _ hne, D.output_update, output_foldl_react_of_ne ws hne]
    exact ⟨rfl, fun h hk => fresh_foldl_react hnone hk⟩

/-! ## The factorisation -/

section Factorisation

variable [DecidableEq κ]

/-- The messages under one key. -/
def messagesOf (D : Dispatcher σ κ η α ω ε) (k : κ) (as : List α) : List α :=
  as.filter fun a => D.key a = k

theorem messagesOf_cons_self (as : List α) :
    D.messagesOf (D.key a) (a :: as) = a :: D.messagesOf (D.key a) as := by
  simp [messagesOf]

theorem messagesOf_cons_of_ne (hne : k ≠ D.key a) (as : List α) :
    D.messagesOf k (a :: as) = D.messagesOf k as := by
  simp [messagesOf, Ne.symm hne]

/-- **A machine that is there runs alone**, on the messages of its key. -/
theorem run_of_registered (hk : D.lookup s k = some h) (hrun : D.run s as = .ok s') :
    ∃ h' ws, D.feedAll h (D.messagesOf k as) = .ok (h', ws) ∧ D.lookup s' k = some h' ∧
      D.output s' k = D.output s k ++ ws := by
  induction as generalizing s h with
  | nil =>
    rw [run, Except.ok.injEq] at hrun
    subst hrun
    exact ⟨h, [], rfl, hk, (List.append_nil _).symm⟩
  | cons a as ih =>
    obtain ⟨s₁, hstep, hrest⟩ := run_cons_eq_ok_iff.mp hrun
    -- the message is for this machine, or it leaves the machine alone
    by_cases hkey : k = D.key a
    · subst hkey
      obtain ⟨h₁, ws₁, hfeed, hk₁, hout₁⟩ := step_own hk hstep
      obtain ⟨h', ws₂, hall, hk', hout'⟩ := ih hk₁ hrest
      refine ⟨h', ws₁ ++ ws₂, ?_, hk', ?_⟩
      · rw [messagesOf_cons_self]
        exact feedAll_cons_eq_ok_iff.mpr ⟨h₁, ws₁, ws₂, hfeed, hall, rfl⟩
      · rw [hout', hout₁, List.append_assoc]
    · obtain ⟨hk₁, hout₁⟩ := step_other hkey hk hstep
      rw [messagesOf_cons_of_ne hkey, ← hout₁]
      exact ih hk₁ hrest

/-- A key that has no machine at the end never had one, and nothing was announced under it. -/
theorem run_of_unregistered (hrun : D.run s as = .ok s') (hnone : D.lookup s' k = none) :
    D.lookup s k = none ∧ D.output s' k = D.output s k := by
  -- a machine on the way would be there at the end
  have hstart : ∀ {t bs}, D.run t bs = .ok s' → D.lookup t k = none := by
    intro t bs ht
    by_contra hsome
    obtain ⟨h, hk⟩ := Option.ne_none_iff_exists'.mp hsome
    obtain ⟨h', ws, -, hk', -⟩ := run_of_registered hk ht
    rw [hnone] at hk'
    exact absurd hk' (by simp)
  refine ⟨hstart hrun, ?_⟩
  induction as generalizing s with
  | nil =>
    rw [run, Except.ok.injEq] at hrun
    rw [hrun]
  | cons a as ih =>
    obtain ⟨s₁, hstep, hrest⟩ := run_cons_eq_ok_iff.mp hrun
    rw [ih hrest, (step_new (hstart hrun) hstep).1]

/-- **A machine that was put there on the way** is a fresh one run alone, on the messages of its key
that come after the message it was put there by. -/
theorem run_of_registration (hnone : D.lookup s k = none) (hrun : D.run s as = .ok s')
    (hk : D.lookup s' k = some h) :
    ∃ before a after s₁ s₂ h₀ ws, as = before ++ a :: after ∧
      D.run s before = .ok s₁ ∧ D.lookup s₁ k = none ∧
      D.step s₁ a = .ok s₂ ∧ D.lookup s₂ k = some h₀ ∧ D.fresh k h₀ ∧
      D.feedAll h₀ (D.messagesOf k after) = .ok (h, ws) ∧ D.output s' k = D.output s k ++ ws := by
  induction as generalizing s with
  | nil =>
    rw [run, Except.ok.injEq] at hrun
    subst hrun
    rw [hnone] at hk
    exact absurd hk (by simp)
  | cons a as ih =>
    obtain ⟨s₁, hstep, hrest⟩ := run_cons_eq_ok_iff.mp hrun
    obtain ⟨hout₁, hfresh⟩ := step_new hnone hstep
    -- still no machine: the registration comes later; or one: it is this message
    cases hk₁ : D.lookup s₁ k with
    | none =>
      obtain ⟨before, b, after, t₁, t₂, h₀, ws, rfl, hbefore, ht₁, hb, ht₂, hf, hall, hout⟩ :=
        ih hk₁ hrest
      refine ⟨a :: before, b, after, t₁, t₂, h₀, ws, rfl, ?_, ht₁, hb, ht₂, hf, hall, ?_⟩
      · exact run_cons_eq_ok_iff.mpr ⟨s₁, hstep, hbefore⟩
      · rw [hout, hout₁]
    | some h₀ =>
      obtain ⟨h', ws, hall, hk', hout⟩ := run_of_registered hk₁ hrest
      rw [hk, Option.some.injEq] at hk'
      subst hk'
      exact ⟨[], a, as, s, s₁, h₀, ws, rfl, rfl, hnone, hstep, hk₁, hfresh h₀ hk₁, hall,
        by rw [hout, hout₁]⟩

end Factorisation

end Dispatcher

end Sandstream.Lib.Dispatch
