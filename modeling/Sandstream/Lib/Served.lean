import Mathlib
import Sandstream.Lib.Dispatch

/-! # Sandstream.Lib.Served -- dispatchers that lose no message

A dispatcher drops the messages of a key until somebody announces it. A `Plan` describes messages for
which that never happens: every message of a planned key comes behind an announcement that puts a
machine under its key. Then no step fails, and each machine gets all messages of its key, as if it
were alone (`Plan.run_serves`).

A plan is stated in terms of machines alone only. That the announcements it counts on are really made
is part of what is proved: they come from machines that are themselves put there by announcements.
-/

namespace Sandstream.Lib.Dispatch

variable {σ κ η α ω ε : Type} {D : Dispatcher σ κ η α ω ε}

/-- Which announcements put which machines under a key. -/
structure Registry (D : Dispatcher σ κ η α ω ε) where
  puts : ω → κ → η → Prop
  puts_of_new : ∀ s k w k' h, D.lookup s k' = none → D.lookup (D.react k s w) k' = some h →
    puts w k' h
  lookup_of_puts : ∀ s k w k' h, puts w k' h → ∃ h', D.lookup (D.react k s w) k' = some h'

namespace Registry

variable (R : Registry D) {s : σ} {ws : List ω} {k k' : κ} {h : η}

/-- A machine that is new after several announcements was put there by one of them. -/
theorem puts_of_foldl_new (hnone : D.lookup s k = none)
    (hk : D.lookup (ws.foldl (D.react k') s) k = some h) : ∃ w ∈ ws, R.puts w k h := by
  induction ws generalizing s with
  | nil =>
    rw [List.foldl_nil, hnone] at hk
    exact absurd hk (by simp)
  | cons w ws ih =>
    cases hw : D.lookup (D.react k' s w) k with
    | none =>
      rcases ih hw hk with ⟨w', hmem, hputs⟩
      exact ⟨w', List.mem_cons_of_mem _ hmem, hputs⟩
    | some h₀ =>
      rw [List.foldl_cons, Dispatcher.lookup_foldl_react hw, Option.some.injEq] at hk
      subst hk
      exact ⟨w, List.mem_cons_self, R.puts_of_new s k' w k h₀ hnone hw⟩

theorem lookup_foldl_of_puts {w : ω} (hmem : w ∈ ws) (hputs : R.puts w k h) :
    ∃ h', D.lookup (ws.foldl (D.react k') s) k = some h' := by
  induction ws generalizing s with
  | nil => exact absurd hmem List.not_mem_nil
  | cons w' ws ih =>
    rcases List.mem_cons.mp hmem with rfl | hmem
    · rcases R.lookup_of_puts s k' w k h hputs with ⟨h', hk⟩
      exact ⟨h', Dispatcher.lookup_foldl_react hk k'⟩
    · exact ih hmem

end Registry

/-! ## The state after a step -/

namespace Dispatcher

variable {s : σ} {a : α} {ws : List ω} {k : κ} {h h' g : η}

/-- The state after the machine `h` has taken the message `a` and announced `ws`. -/
def afterFeed (D : Dispatcher σ κ η α ω ε) (s : σ) (a : α) (ws : List ω) (h : η) : σ :=
  D.update (ws.foldl (D.react (D.key a)) s) (D.key a) h

theorem step_of_feed (hk : D.lookup s (D.key a) = some h) (hfeed : D.feed h a = .ok (h', ws)) :
    D.step s a = .ok (D.afterFeed s a ws h') := by
  unfold step
  rw [hk]
  dsimp only
  rw [hfeed]
  rfl

theorem lookup_afterFeed_self : D.lookup (D.afterFeed s a ws h) (D.key a) = some h :=
  D.lookup_update _ _ _

theorem lookup_afterFeed_of_ne (hne : k ≠ D.key a) :
    D.lookup (D.afterFeed s a ws h) k = D.lookup (ws.foldl (D.react (D.key a)) s) k :=
  D.lookup_update_of_ne _ _ _ _ hne

theorem output_afterFeed_self :
    D.output (D.afterFeed s a ws h) (D.key a) = D.output s (D.key a) ++ ws := by
  unfold afterFeed
  rw [D.output_update, output_foldl_react]

theorem output_afterFeed_of_ne (hne : k ≠ D.key a) :
    D.output (D.afterFeed s a ws h) k = D.output s k := by
  unfold afterFeed
  rw [D.output_update, output_foldl_react_of_ne ws hne]

/-- A key that has a machine has one afterwards. -/
theorem exists_lookup_afterFeed (a : α) (ws : List ω) (h : η) (hk : D.lookup s k = some g) :
    ∃ g', D.lookup (D.afterFeed s a ws h) k = some g' := by
  by_cases hkey : k = D.key a
  · subst hkey
    exact ⟨h, lookup_afterFeed_self⟩
  · rw [lookup_afterFeed_of_ne hkey]
    exact ⟨g, lookup_foldl_react hk _⟩

theorem mem_output_afterFeed {w : ω} (hw : w ∈ D.output (D.afterFeed s a ws h) k) :
    w ∈ D.output s k ∨ w ∈ ws := by
  by_cases hkey : k = D.key a
  · subst hkey
    rw [output_afterFeed_self] at hw
    exact List.mem_append.mp hw
  · rw [output_afterFeed_of_ne hkey] at hw
    exact Or.inl hw

/-- What is announced in a step is acted on in this step. -/
theorem exists_lookup_of_puts (R : Registry D) {w : ω} (hw : w ∈ ws) (hputs : R.puts w k g) :
    ∃ g', D.lookup (D.afterFeed s a ws h) k = some g' := by
  by_cases hkey : k = D.key a
  · subst hkey
    exact ⟨h, lookup_afterFeed_self⟩
  · rw [lookup_afterFeed_of_ne hkey]
    exact R.lookup_foldl_of_puts hw hputs

end Dispatcher

/-! ## Plans -/

section Plan

variable [DecidableEq κ]

/-- A plan for the messages `as` from the state `s`. -/
structure Plan (D : Dispatcher σ κ η α ω ε) (R : Registry D) (s : σ) (as : List α) where
  /-- the keys whose messages are to be served -/
  known : κ → Prop
  /-- the machines that may be put under a key -/
  start : κ → η → Prop
  /-- what the machine of a key announces -/
  tells : κ → List α → List ω
  tells_nil : ∀ k, tells k [] = []
  alone : ∀ k h, known k → start k h → ∀ as', as' <+: D.messagesOf k as →
    ∃ h', D.feedAll h as' = .ok (h', tells k as')
  initial : ∀ k h, D.lookup s k = some h → known k ∧ start k h
  silent : ∀ k, D.output s k = []
  /-- announcements put under known keys only, and only the machines planned for them -/
  sound : ∀ k w k' h, known k → w ∈ tells k (D.messagesOf k as) → R.puts w k' h →
    known k' ∧ start k' h
  /-- a message of a known key comes after an announcement of the key -/
  served : ∀ before a after, as = before ++ a :: after → known (D.key a) →
    (∃ h, D.lookup s (D.key a) = some h) ∨
      ∃ k w h, known k ∧ w ∈ tells k (D.messagesOf k before) ∧ R.puts w (D.key a) h

namespace Plan

variable {R : Registry D} {s s' : σ} {as before : List α} (P : Plan D R s as)

/-- The state `s'` after the messages `before` is as planned. -/
structure Serves (before : List α) (s' : σ) : Prop where
  machine : ∀ k h, D.lookup s' k = some h → P.known k ∧ ∃ h₀, P.start k h₀ ∧
    D.feedAll h₀ (D.messagesOf k before) = .ok (h, P.tells k (D.messagesOf k before))
  output_known : ∀ k, P.known k → D.output s' k = P.tells k (D.messagesOf k before)
  output_unknown : ∀ k, ¬ P.known k → D.output s' k = []
  absent : ∀ k, D.lookup s' k = none → P.known k → D.messagesOf k before = []
  kept : ∀ k h, D.lookup s k = some h → ∃ h', D.lookup s' k = some h'
  acted : ∀ k w k' h, w ∈ D.output s' k → R.puts w k' h → ∃ h', D.lookup s' k' = some h'

theorem messagesOf_prefix (k : κ) (hbefore : before <+: as) :
    D.messagesOf k before <+: D.messagesOf k as := by
  rcases hbefore with ⟨after, rfl⟩
  unfold Dispatcher.messagesOf
  rw [List.filter_append]
  exact List.prefix_append _ _

theorem messagesOf_concat_self (D : Dispatcher σ κ η α ω ε) (before : List α) (a : α) :
    D.messagesOf (D.key a) (before ++ [a]) = D.messagesOf (D.key a) before ++ [a] := by
  simp [Dispatcher.messagesOf, List.filter_append]

theorem messagesOf_concat_of_ne {k : κ} {a : α} (hne : k ≠ D.key a) (before : List α) :
    D.messagesOf k (before ++ [a]) = D.messagesOf k before := by
  simp [Dispatcher.messagesOf, List.filter_append, Ne.symm hne]

/-- What a machine announces on some messages, it announces when it gets more. -/
theorem mem_tells_of_prefix {k : κ} {h : η} {as' : List α} {w : ω} (hk : P.known k)
    (hstart : P.start k h) (hfront : as' <+: D.messagesOf k as) (hw : w ∈ P.tells k as') :
    w ∈ P.tells k (D.messagesOf k as) := by
  rcases P.alone k h hk hstart _ (List.prefix_refl _) with ⟨h', hall⟩
  rcases P.alone k h hk hstart as' hfront with ⟨h₁, hfirst⟩
  rcases hfront with ⟨bs, heq⟩
  rw [← heq] at hall ⊢
  -- the run on all messages goes through the run on the first ones
  rcases Dispatcher.feedAll_append_eq_ok_iff.mp hall with ⟨h₂, ws₁, ws₂, hfirst', -, hws⟩
  rw [hfirst, Except.ok.injEq, Prod.mk.injEq] at hfirst'
  rw [hws, ← hfirst'.2]
  exact List.mem_append_left _ hw

theorem serves_nil : P.Serves [] s where
  machine := by
    intro k h hk
    refine ⟨(P.initial k h hk).1, h, (P.initial k h hk).2, ?_⟩
    show D.feedAll h [] = .ok (h, P.tells k [])
    rw [P.tells_nil]
    rfl
  output_known := by
    intro k _
    show D.output s k = P.tells k []
    rw [P.tells_nil, P.silent]
  output_unknown := fun k _ => P.silent k
  absent := fun _ _ _ => rfl
  kept := fun _ h hk => ⟨h, hk⟩
  acted := by
    intro k w k' h hw
    rw [P.silent] at hw
    exact absurd hw List.not_mem_nil

/-- A message of a known key finds its machine. -/
theorem Serves.found {P : Plan D R s as} (hs : P.Serves before s') {a : α} {after : List α}
    (has : as = before ++ a :: after) (hknown : P.known (D.key a)) :
    ∃ h, D.lookup s' (D.key a) = some h := by
  rcases P.served before a after has hknown with ⟨h, hk⟩ | ⟨k, w, h, hk, hw, hputs⟩
  · exact hs.kept _ h hk
  · apply hs.acted k w (D.key a) h ?_ hputs
    rw [hs.output_known k hk]
    exact hw

/-- The machine of a message takes it, as it does alone. -/
theorem Serves.own {P : Plan D R s as} (hs : P.Serves before s') {a : α} {after : List α}
    (has : as = before ++ a :: after) {h : η} (hk : D.lookup s' (D.key a) = some h) :
    P.known (D.key a) ∧ ∃ h₀ h' ws, P.start (D.key a) h₀ ∧ D.feed h a = .ok (h', ws) ∧
      D.feedAll h₀ (D.messagesOf (D.key a) (before ++ [a])) =
        .ok (h', P.tells (D.key a) (D.messagesOf (D.key a) (before ++ [a]))) ∧
      P.tells (D.key a) (D.messagesOf (D.key a) (before ++ [a])) =
        P.tells (D.key a) (D.messagesOf (D.key a) before) ++ ws ∧
      ∀ w ∈ ws, w ∈ P.tells (D.key a) (D.messagesOf (D.key a) as) := by
  have hnext : before ++ [a] <+: as := ⟨after, by rw [has, List.append_assoc]; rfl⟩
  have hfront := messagesOf_prefix (D := D) (D.key a) hnext
  rcases hs.machine _ h hk with ⟨hknown, h₀, hstart, hbefore⟩
  rcases P.alone _ h₀ hknown hstart _ hfront with ⟨h', hall⟩
  have hsplit := hall
  rw [messagesOf_concat_self, Dispatcher.feedAll_append_eq_ok_iff] at hsplit
  rcases hsplit with ⟨h₁, ws₁, ws, hfirst, hone, htells⟩
  rw [hbefore, Except.ok.injEq, Prod.mk.injEq] at hfirst
  rcases hfirst with ⟨rfl, rfl⟩
  rw [← messagesOf_concat_self] at htells
  refine ⟨hknown, h₀, h', ws, hstart, ?_, hall, htells, ?_⟩
  · rcases Dispatcher.feedAll_cons_eq_ok_iff.mp hone with ⟨h₂, ws₁, ws₂, hfeed, hnil, rfl⟩
    cases hnil
    rw [hfeed, List.append_nil]
  · intro w hw
    apply P.mem_tells_of_prefix hknown hstart hfront
    rw [htells]
    exact List.mem_append_right _ hw

/-- A message of a key that nobody has announced changes nothing. -/
theorem Serves.step_unknown {P : Plan D R s as} (hs : P.Serves before s') {a : α}
    (hunknown : ¬ P.known (D.key a)) : P.Serves (before ++ [a]) s' := by
  have hsame : ∀ k, P.known k → D.messagesOf k (before ++ [a]) = D.messagesOf k before := by
    intro k hknown
    apply messagesOf_concat_of_ne
    rintro rfl
    exact hunknown hknown
  refine ⟨?_, ?_, hs.output_unknown, ?_, hs.kept, hs.acted⟩
  · intro k h hsome
    rw [hsame k (hs.machine k h hsome).1]
    exact hs.machine k h hsome
  · intro k hknown
    rw [hsame k hknown]
    exact hs.output_known k hknown
  · intro k hnone hknown
    rw [hsame k hknown]
    exact hs.absent k hnone hknown

/-- A machine that this step puts under a key is one that was planned for it, and has missed nothing. -/
theorem Serves.started {P : Plan D R s as} (hs : P.Serves before s') {k₀ k : κ} {ws : List ω} {g : η}
    (hknown : P.known k₀) (hws : ∀ w ∈ ws, w ∈ P.tells k₀ (D.messagesOf k₀ as))
    (hbefore : D.lookup s' k = none) (hg : D.lookup (ws.foldl (D.react k₀) s') k = some g) :
    P.known k ∧ ∃ h₀, P.start k h₀ ∧
      D.feedAll h₀ (D.messagesOf k before) = .ok (g, P.tells k (D.messagesOf k before)) := by
  rcases R.puts_of_foldl_new hbefore hg with ⟨w, hw, hputs⟩
  rcases P.sound k₀ w k g hknown (hws w hw) hputs with ⟨hknown', hstart'⟩
  refine ⟨hknown', g, hstart', ?_⟩
  rw [hs.absent k hbefore hknown', P.tells_nil]
  rfl

/-- A message of a key with a machine. -/
theorem Serves.step_known {P : Plan D R s as} (hs : P.Serves before s') {a : α} {after : List α}
    (has : as = before ++ a :: after) {h : η} (hk : D.lookup s' (D.key a) = some h) :
    ∃ s'', D.step s' a = .ok s'' ∧ P.Serves (before ++ [a]) s'' := by
  rcases hs.own has hk with ⟨hknown, h₀, h', ws, hstart, hfeed, hall, htells, hlater⟩
  refine ⟨_, Dispatcher.step_of_feed hk hfeed, ?_⟩
  constructor
  case machine =>
    intro k g hg
    by_cases hkey : k = D.key a
    · subst hkey
      obtain rfl : h' = g := Option.some.inj (Dispatcher.lookup_afterFeed_self.symm.trans hg)
      exact ⟨hknown, h₀, hstart, hall⟩
    · rw [Dispatcher.lookup_afterFeed_of_ne hkey] at hg
      rw [messagesOf_concat_of_ne hkey]
      -- under another key, a machine that was there or a new one
      cases hbefore : D.lookup s' k with
      | some g' =>
        rw [Dispatcher.lookup_foldl_react hbefore, Option.some.injEq] at hg
        exact hg ▸ hs.machine k g' hbefore
      | none => exact hs.started hknown hlater hbefore hg
  case output_known =>
    intro k hknown'
    by_cases hkey : k = D.key a
    · subst hkey
      rw [Dispatcher.output_afterFeed_self, hs.output_known _ hknown', htells]
    · rw [Dispatcher.output_afterFeed_of_ne hkey, messagesOf_concat_of_ne hkey]
      exact hs.output_known k hknown'
  case output_unknown =>
    intro k hunknown
    have hkey : k ≠ D.key a := by
      rintro rfl
      exact hunknown hknown
    rw [Dispatcher.output_afterFeed_of_ne hkey]
    exact hs.output_unknown k hunknown
  case absent =>
    intro k hnone hknown'
    have hkey : k ≠ D.key a := by
      rintro rfl
      rw [Dispatcher.lookup_afterFeed_self] at hnone
      exact absurd hnone (by simp)
    rw [messagesOf_concat_of_ne hkey]
    apply hs.absent k ?_ hknown'
    by_contra hsome
    rcases Option.ne_none_iff_exists'.mp hsome with ⟨g, hg⟩
    rcases Dispatcher.exists_lookup_afterFeed a ws h' hg with ⟨g', hg'⟩
    rw [hnone] at hg'
    exact absurd hg' (by simp)
  case kept =>
    intro k g hg
    rcases hs.kept k g hg with ⟨g', hg'⟩
    exact Dispatcher.exists_lookup_afterFeed a ws h' hg'
  case acted =>
    intro k w k' g hw hputs
    -- what was announced before was acted on before
    rcases Dispatcher.mem_output_afterFeed hw with hold | hnew
    · rcases hs.acted k w k' g hold hputs with ⟨g', hg'⟩
      exact Dispatcher.exists_lookup_afterFeed a ws h' hg'
    · exact Dispatcher.exists_lookup_of_puts R hnew hputs

/-- The step lemma. -/
theorem Serves.step {P : Plan D R s as} (hs : P.Serves before s') {a : α} {after : List α}
    (has : as = before ++ a :: after) :
    ∃ s'', D.step s' a = .ok s'' ∧ P.Serves (before ++ [a]) s'' := by
  cases hk : D.lookup s' (D.key a) with
  | some h => exact hs.step_known has hk
  | none =>
    have hunknown : ¬ P.known (D.key a) := by
      intro hknown
      rcases hs.found has hknown with ⟨h, hsome⟩
      rw [hk] at hsome
      exact absurd hsome (by simp)
    exact ⟨s', Dispatcher.step_of_unregistered hk, hs.step_unknown hunknown⟩

/-- **The run lemma.** Everything is served: no step fails, and every machine is where its own messages
bring it. -/
theorem run_serves : ∃ s', D.run s as = .ok s' ∧ P.Serves as s' := by
  -- over the messages so far, since a plan speaks of all of them
  suffices hall : ∀ before, before <+: as → ∃ s', D.run s before = .ok s' ∧ P.Serves before s' from
    hall as (List.prefix_refl as)
  intro before hbefore
  induction before using List.reverseRecOn with
  | nil => exact ⟨s, rfl, P.serves_nil⟩
  | append_singleton before a ih =>
    rcases hbefore with ⟨after, has⟩
    have hsplit : as = before ++ a :: after := by
      rw [← has, List.append_assoc]
      rfl
    rcases ih ⟨a :: after, hsplit.symm⟩ with ⟨s', hrun, hs⟩
    rcases hs.step hsplit with ⟨s'', hstep, hs''⟩
    refine ⟨s'', ?_, hs''⟩
    apply Dispatcher.run_append_eq_ok_iff.mpr
    exact ⟨s', hrun, Dispatcher.run_cons_eq_ok_iff.mpr ⟨s'', hstep, rfl⟩⟩

end Plan

end Plan

end Sandstream.Lib.Dispatch
