import Mathlib.Algebra.Ring.Nat
import Mathlib.Data.List.Basic
import Mathlib.Data.List.Destutter
import Mathlib.Tactic.Common

/-!
# Machines whose steps may fail

A `Machine` has initial states and one step function per label; a step either yields the next state
or fails. A failed step has no next state, so a run stops there and whatever is proved about runs is
about their part before the first failure.

`Run M s tr t` records, for every step taken, the state it was taken in. That is what a statement
about positions in a run quantifies over, and `forall_visited_iff` turns an equivalence proved for a
single step into one about whole runs.

## Main definitions

* `Machine`, `Machine.Run`, `Machine.Reachable`
* `Machine.exec`, `Machine.trace` — the run of a list of labels, computed
* `Machine.stages` — what a run goes through, as seen by some function of the state
* `Machine.Invariant` — holds initially and is kept by every step
* `Machine.Simulation` — every step of one machine is a run of another

## Main results

* `Invariant.reachable` — an invariant holds in every reachable state
* `forall_visited_iff`, `forall_prefix_iff` — from one step to whole runs and executions
* `Run.observed_within` — bounded response, from a rank that every observed step lowers
* `Run.cost_le` — amortised cost, from a potential that pays for every step
* `Simulation.reachable` — reachable states are carried along a simulation
-/

/-! ### Lists without repetitions that follow each other -/

namespace List

variable {α : Type} [DecidableEq α]

/-- Adding an element adds a stage, unless it is the last one. -/
theorem destutter_ne_concat {l : List α} (hl : l ≠ []) (b : α) : (l ++ [b]).destutter (· ≠ ·) =
    l.destutter (· ≠ ·) ++ if l.getLast? = some b then [] else [b] := by
  have hfrom : ∀ (l : List α) (c : α), (l ++ [b]).destutter' (· ≠ ·) c =
      l.destutter' (· ≠ ·) c ++ if (c :: l).getLast? = some b then [] else [b] := by
    intro l
    induction l with
    | nil =>
      intro c
      by_cases hcb : c = b <;> simp [destutter'_nil, hcb]
    | cons d l ih =>
      intro c
      have hlast : (c :: d :: l).getLast? = (d :: l).getLast? := getLast?_cons_cons
      rw [cons_append, destutter'_cons, destutter'_cons, hlast]
      split
      · rw [ih d, cons_append]
      · rename_i hcd
        rw [ih c, not_not.mp hcd]
  obtain ⟨c, l, rfl⟩ := exists_cons_of_ne_nil hl
  exact hfrom l c

theorem getLast?_destutter_ne (l : List α) : (l.destutter (· ≠ ·)).getLast? = l.getLast? := by
  induction l using reverseRecOn with
  | nil => rfl
  | append_singleton l b ih =>
    rcases eq_or_ne l [] with rfl | hl
    · rfl
    · rw [destutter_ne_concat hl]
      split
      · rename_i hlast
        rw [append_nil, ih, hlast, getLast?_concat]
      · rw [getLast?_concat, getLast?_concat]

theorem mem_destutter_ne {l : List α} {a : α} : a ∈ l.destutter (· ≠ ·) ↔ a ∈ l := by
  refine ⟨fun h => (destutter_sublist _ l).subset h, fun h => ?_⟩
  induction l using reverseRecOn with
  | nil => exact h
  | append_singleton l b ih =>
    rcases eq_or_ne l [] with rfl | hl
    · exact h
    · rw [destutter_ne_concat hl]
      rcases mem_append.mp h with h | h
      · exact mem_append_left _ (ih h)
      · obtain rfl : a = b := mem_singleton.mp h
        split
        · rename_i hlast
          exact mem_append_left _ (ih (mem_of_getLast? hlast))
        · exact mem_append_right _ (mem_singleton.mpr rfl)

/-- Repetitions of the element in front do not count. -/
theorem destutter'_ne_replicate_append (a : α) (l : List α) : ∀ n,
    (replicate n a ++ l).destutter' (· ≠ ·) a = l.destutter' (· ≠ ·) a
  | 0 => rfl
  | n + 1 => by
    rw [replicate_succ, cons_append, destutter'_cons, if_neg (not_not.mpr rfl)]
    exact destutter'_ne_replicate_append a l n

/-- A list of blocks, each of one element, counts as the list of these elements. -/
theorem destutter_ne_cons_flatMap {β : Type} (f : β → α) (n : β → ℕ) : ∀ (l : List β) (a : α),
    (∀ b ∈ l, 0 < n b) → (a :: l.flatMap fun b => replicate (n b) (f b)).destutter (· ≠ ·) =
      (a :: l.map f).destutter (· ≠ ·)
  | [], _, _ => rfl
  | b :: l, a, h => by
    have ih := destutter_ne_cons_flatMap f n l (f b) fun b' hb' => h b' (mem_cons_of_mem _ hb')
    simp only [destutter_cons'] at ih ⊢
    obtain ⟨k, hk⟩ := Nat.exists_eq_succ_of_ne_zero (h b mem_cons_self).ne'
    rw [flatMap_cons, hk, replicate_succ, cons_append, destutter'_cons, map_cons, destutter'_cons,
      destutter'_ne_replicate_append, ih]
    split
    · rfl
    · rename_i hab
      rw [not_not.mp hab, destutter'_ne_replicate_append, ih]

end List

/-- What comes of a computation that does not fail. -/
theorem Except.exists_of_isOk {ε α : Type} {r : Except ε α} (h : r.isOk = true) :
    ∃ a, r = .ok a := by
  cases r with
  | error e => cases h
  | ok a => exact ⟨a, rfl⟩

/-- Initial states, and what each label does to a state. -/
structure Machine (σ lab ε : Type) where
  /-- The states a run may start in. -/
  init : σ → Prop
  /-- One step: the next state, or the reason why there is none. -/
  step : lab → σ → Except ε σ

namespace Machine

variable {σ σ' lab lab' ε ε' : Type} {M : Machine σ lab ε}

/-! ### Runs -/

/-- `M.Run s tr t` leads from `s` to `t`; `tr` lists the steps, each with the state it was taken
in. -/
inductive Run (M : Machine σ lab ε) (s : σ) : List (σ × lab) → σ → Prop where
  | nil : Run M s [] s
  | snoc {tr : List (σ × lab)} {t u : σ} {l : lab} :
    Run M s tr t → M.step l t = .ok u → Run M s (tr ++ [(t, l)]) u

/-- The states a run visits, the last one included. -/
def visited (tr : List (σ × lab)) (t : σ) : List σ := tr.map Prod.fst ++ [t]

theorem visited_concat (tr : List (σ × lab)) (x : σ × lab) (t : σ) :
    visited (tr ++ [x]) t = visited tr x.1 ++ [t] := by
  rw [visited, visited, List.map_append, List.map_singleton]

/-- The values of `f` along a run. A value that stays is counted once. -/
def stages {α : Type} [DecidableEq α] (f : σ → α) (tr : List (σ × lab)) (t : σ) : List α :=
  ((visited tr t).map f).destutter (· ≠ ·)

theorem stages_concat {α : Type} [DecidableEq α] (f : σ → α) (tr : List (σ × lab)) (x : σ × lab)
    (t : σ) : stages f (tr ++ [x]) t = stages f tr x.1 ++ if f x.1 = f t then [] else [f t] := by
  have hlast : ((visited tr x.1).map f).getLast? = some (f x.1) := by
    rw [visited, List.map_append, List.map_singleton, List.getLast?_concat]
  rw [stages, visited_concat, List.map_append, List.map_singleton,
    List.destutter_ne_concat (List.ne_nil_of_mem (List.mem_of_getLast? hlast)), hlast, stages]
  simp only [Option.some.injEq]

theorem stages_congr {α : Type} [DecidableEq α] {f : σ → α} {tr : List (σ × lab)} {t t' : σ}
    (h : f t = f t') : stages f tr t = stages f tr t' := by
  simp only [stages, visited, List.map_append, List.map_singleton, h]

theorem mem_stages {α : Type} [DecidableEq α] {f : σ → α} {tr : List (σ × lab)} {t : σ} {a : α} :
    a ∈ stages f tr t ↔ ∃ u ∈ visited tr t, f u = a := by
  rw [stages, List.mem_destutter_ne, List.mem_map]

/-- The states some run from an initial state ends in. -/
inductive Reachable (M : Machine σ lab ε) : σ → Prop where
  | init {s : σ} : M.init s → Reachable M s
  | step {s t : σ} {l : lab} : Reachable M s → M.step l s = .ok t → Reachable M t

theorem Reachable.run {s t : σ} {tr : List (σ × lab)} (hs : M.Reachable s) (h : M.Run s tr t) :
    M.Reachable t := by
  induction h with
  | nil => exact hs
  | snoc _ hstep ih => exact ih.step hstep

/-- Run a list of labels. -/
def exec (M : Machine σ lab ε) : List lab → σ → Except ε σ
  | [], s => .ok s
  | l :: ls, s => match M.step l s with
    | .ok t => M.exec ls t
    | .error e => .error e

theorem exec_concat (l : lab) : ∀ (ls : List lab) (s : σ),
    M.exec (ls ++ [l]) s = (M.exec ls s).bind (M.step l)
  | [], s => by
    show M.exec [l] s = M.step l s
    rw [exec]
    rcases M.step l s with e | t <;> rfl
  | l' :: ls, s => by
    rw [List.cons_append, exec, exec]
    rcases M.step l' s with e | t
    · rfl
    · exact exec_concat l ls t

theorem exec_concat_eq_ok {ls : List lab} {l : lab} {s u : σ} :
    M.exec (ls ++ [l]) s = .ok u ↔ ∃ t, M.exec ls s = .ok t ∧ M.step l t = .ok u := by
  rw [exec_concat]
  rcases M.exec ls s with e | t <;> simp [Except.bind]

theorem exec_append {ls : List lab} {l : lab} {s t u : σ} (h : M.exec ls s = .ok t)
    (hl : M.step l t = .ok u) : M.exec (ls ++ [l]) s = .ok u := by
  rw [exec_concat, h]
  exact hl

theorem exec_singleton {l : lab} {s t : σ} (h : M.step l s = .ok t) : M.exec [l] s = .ok t :=
  exec_append (show M.exec [] s = .ok s from rfl) h

theorem exec_cons_eq_ok {l : lab} {ls : List lab} {s u : σ} :
    M.exec (l :: ls) s = .ok u ↔ ∃ t, M.step l s = .ok t ∧ M.exec ls t = .ok u := by
  rw [exec]
  rcases M.step l s with e | t <;> simp

theorem exec_trans {ls' : List lab} {t u : σ} (h' : M.exec ls' t = .ok u) :
    ∀ {ls : List lab} {s : σ}, M.exec ls s = .ok t → M.exec (ls ++ ls') s = .ok u
  | [], s, h => by
    obtain rfl : s = t := Except.ok.inj h
    exact h'
  | l :: ls, s, h => by
    obtain ⟨s₁, hl, hrest⟩ := exec_cons_eq_ok.mp h
    exact exec_cons_eq_ok.mpr ⟨s₁, hl, exec_trans h' hrest⟩

/-- A failure is that of one of the steps. -/
theorem exists_of_exec_eq_error {e : ε} : ∀ {ls : List lab} {s : σ}, M.exec ls s = .error e →
    ∃ before l t, before ++ [l] <+: ls ∧ M.exec before s = .ok t ∧ M.step l t = .error e
  | [], _, h => by cases h
  | l :: ls, s, h => by
    rw [exec] at h
    cases hl : M.step l s with
    | error e' =>
      rw [hl] at h
      exact ⟨[], l, s, ⟨ls, rfl⟩, rfl, hl.trans h⟩
    | ok t =>
      rw [hl] at h
      obtain ⟨before, l', u, hprefix, hu, hl'⟩ := exists_of_exec_eq_error h
      exact ⟨l :: before, l', u, List.prefix_cons_inj l |>.mpr hprefix,
        exec_cons_eq_ok.mpr ⟨t, hl, hu⟩, hl'⟩

theorem Run.cons {s t u : σ} {l : lab} {tr : List (σ × lab)} (hl : M.step l s = .ok t)
    (h : M.Run t tr u) : M.Run s ((s, l) :: tr) u := by
  induction h with
  | nil => exact .snoc .nil hl
  | snoc _ hstep ih => exact .snoc ih hstep

theorem Run.trans {s t u : σ} {tr tr' : List (σ × lab)} (h : M.Run s tr t) (h' : M.Run t tr' u) :
    M.Run s (tr ++ tr') u := by
  induction h' with
  | nil =>
    rw [List.append_nil]
    exact h
  | snoc _ hstep ih =>
    rw [← List.append_assoc]
    exact .snoc ih hstep

theorem Run.eq_of_nil {s t : σ} {tr : List (σ × lab)} (h : M.Run s tr t) (htr : tr = []) :
    t = s := by
  rcases h with - | ⟨-, -⟩
  · rfl
  · exact absurd htr (List.append_ne_nil_of_right_ne_nil _ (List.cons_ne_nil _ _))

/-- What comes before a step of a run is a run. -/
theorem Run.before {s t : σ} {tr : List (σ × lab)} (h : M.Run s tr t) :
    ∀ {before after : List (σ × lab)} {x : σ × lab}, tr = before ++ x :: after →
      M.Run s before x.1 := by
  induction h with
  | nil =>
    intro before after x heq
    exact absurd heq.symm (List.append_ne_nil_of_right_ne_nil _ (List.cons_ne_nil x after))
  | @snoc tr u v l hrun hl ih =>
    intro before after x heq
    rcases List.eq_nil_or_concat after with rfl | ⟨after, y, rfl⟩
    · obtain ⟨rfl, hx⟩ := List.append_inj' heq rfl
      obtain rfl : (u, l) = x := (List.cons.inj hx).1
      exact hrun
    · rw [List.concat_eq_append, ← List.cons_append, ← List.append_assoc] at heq
      exact ih (List.append_inj' heq rfl).1

/-- A run is followed by another machine that can take the steps `labels` for each of its steps. -/
theorem Run.follow {N : Machine σ' lab' ε'} {R : σ → σ' → Prop} {labels : σ × lab → List lab'}
    (hstep : ∀ s l t s', R s s' → M.step l s = .ok t →
      ∃ t', N.exec (labels (s, l)) s' = .ok t' ∧ R t t')
    {s t : σ} {tr : List (σ × lab)} (h : M.Run s tr t) {s' : σ'} (hs : R s s') :
    ∃ t', N.exec (tr.flatMap labels) s' = .ok t' ∧ R t t' := by
  induction h with
  | nil => exact ⟨s', rfl, hs⟩
  | @snoc tr t u l _ hl ih =>
    obtain ⟨t', ht', hR⟩ := ih
    obtain ⟨u', hu', hR'⟩ := hstep t l u t' hR hl
    rw [List.flatMap_append, List.flatMap_singleton]
    exact ⟨u', exec_trans hu' ht', hR'⟩

/-- The steps of an execution, up to the first failure. -/
def trace (M : Machine σ lab ε) : List lab → σ → List (σ × lab)
  | [], _ => []
  | l :: ls, s => match M.step l s with
    | .ok t => (s, l) :: M.trace ls t
    | .error _ => []

/-- An execution is a run. -/
theorem run_trace {ls : List lab} {t : σ} : ∀ {s : σ}, M.exec ls s = .ok t →
    M.Run s (M.trace ls s) t := by
  induction ls with
  | nil =>
    intro s h
    obtain rfl : s = t := Except.ok.inj h
    exact .nil
  | cons l ls ih =>
    intro s h
    obtain ⟨u, hl, hu⟩ := exec_cons_eq_ok.mp h
    rw [trace, hl]
    exact (ih hu).cons hl

theorem map_snd_trace {ls : List lab} {t : σ} : ∀ {s : σ}, M.exec ls s = .ok t →
    (M.trace ls s).map Prod.snd = ls := by
  induction ls with
  | nil => exact fun _ => rfl
  | cons l ls ih =>
    intro s h
    obtain ⟨u, hl, hu⟩ := exec_cons_eq_ok.mp h
    rw [trace, hl, List.map_cons, ih hu]

theorem trace_append {ls' : List lab} {t : σ} : ∀ {ls : List lab} {s : σ}, M.exec ls s = .ok t →
    M.trace (ls ++ ls') s = M.trace ls s ++ M.trace ls' t
  | [], s, h => by
    obtain rfl : s = t := Except.ok.inj h
    rfl
  | l :: ls, s, h => by
    obtain ⟨u, hl, hu⟩ := exec_cons_eq_ok.mp h
    rw [List.cons_append, trace, trace, hl]
    simp only
    rw [trace_append hu, List.cons_append]

/-- A run is determined by its labels. -/
theorem Run.exec_trace {s t : σ} {tr : List (σ × lab)} (h : M.Run s tr t) :
    M.exec (tr.map Prod.snd) s = .ok t ∧ M.trace (tr.map Prod.snd) s = tr := by
  induction h with
  | nil => exact ⟨rfl, rfl⟩
  | @snoc tr t u l _ hl ih =>
    rw [List.map_append, List.map_singleton, trace_append ih.1, ih.2]
    refine ⟨exec_append ih.1 hl, ?_⟩
    rw [trace, hl]
    rfl

/-- A list of labels that can be run is one of the runs. -/
theorem exists_run_of_exec {ls : List lab} {s t : σ} (h : M.exec ls s = .ok t) :
    ∃ tr, M.Run s tr t ∧ tr.map Prod.snd = ls :=
  ⟨M.trace ls s, run_trace h, map_snd_trace h⟩

theorem Reachable.exists_run {t : σ} (h : M.Reachable t) : ∃ s tr, M.init s ∧ M.Run s tr t := by
  induction h with
  | init hs => exact ⟨_, [], hs, .nil⟩
  | step _ hl ih =>
    obtain ⟨s, tr, hs, hrun⟩ := ih
    exact ⟨s, _, hs, .snoc hrun hl⟩

theorem Reachable.exec {s t : σ} : ∀ {ls : List lab}, M.Reachable s → M.exec ls s = .ok t →
    M.Reachable t := by
  intro ls
  induction ls generalizing s with
  | nil =>
    intro hs h
    cases h
    exact hs
  | cons l ls ih =>
    intro hs h
    rw [Machine.exec] at h
    cases hl : M.step l s with
    | ok u =>
      rw [hl] at h
      exact ih (hs.step hl) h
    | error e =>
      rw [hl] at h
      cases h

/-- What an execution ends in, if that is computed to have a property. -/
theorem exists_exec_of_any {P : σ → Prop} [DecidablePred P] {s : σ} {ls : List lab}
    (h : ((M.exec ls s).toOption.any fun t => decide (P t)) = true) :
    ∃ t, M.exec ls s = .ok t ∧ P t := by
  rcases hexec : M.exec ls s with e | t
  · rw [hexec] at h
    cases h
  · rw [hexec] at h
    exact ⟨t, rfl, of_decide_eq_true h⟩

/-- A run, if it is computed and found to have a property. -/
theorem exists_run_of_any {P : List (σ × lab) → σ → Prop} [∀ tr t, Decidable (P tr t)] {s : σ}
    (ls : List lab) (h : ((M.exec ls s).toOption.any fun t => decide (P (M.trace ls s) t)) = true) :
    ∃ tr t, M.Run s tr t ∧ tr.map Prod.snd = ls ∧ P tr t := by
  obtain ⟨t, hexec, ht⟩ := exists_exec_of_any (P := fun t => P (M.trace ls s) t) h
  exact ⟨_, t, run_trace hexec, map_snd_trace hexec, ht⟩

/-- A run has the properties that are computed for its labels. -/
theorem Run.of_any {P : List (σ × lab) → σ → Prop} [∀ tr t, Decidable (P tr t)] {s t : σ}
    {tr : List (σ × lab)} {ls : List lab} (h : M.Run s tr t) (hls : tr.map Prod.snd = ls)
    (hany : ((M.exec ls s).toOption.any fun t => decide (P (M.trace ls s) t)) = true) : P tr t := by
  obtain ⟨hexec, htrace⟩ := h.exec_trace
  obtain ⟨t', hexec', ht⟩ := exists_exec_of_any (P := fun t => P (M.trace ls s) t) hany
  obtain rfl : t = t' := Except.ok.inj (hexec.symm.trans (hls ▸ hexec'))
  rwa [← hls, htrace] at ht

/-- What a computed run ends in is reachable. -/
theorem Reachable.exists_of_exec {P : σ → Prop} [DecidablePred P] {s : σ} (hs : M.Reachable s)
    (ls : List lab) (h : ((M.exec ls s).toOption.any fun t => decide (P t)) = true) :
    ∃ t, M.Reachable t ∧ P t := by
  obtain ⟨t, hexec, ht⟩ := exists_exec_of_any h
  exact ⟨t, hs.exec hexec, ht⟩

/-! ### Invariants -/

/-- `I` holds initially and every step keeps it. -/
structure Invariant (M : Machine σ lab ε) (I : σ → Prop) : Prop where
  /-- It holds where runs start. -/
  init : ∀ s, M.init s → I s
  /-- A step from a reachable state where it holds leads to one where it holds. What is known of
  all reachable states may be used here. -/
  step : ∀ s l t, M.Reachable s → I s → M.step l s = .ok t → I t

theorem Invariant.reachable {I : σ → Prop} (h : M.Invariant I) {s : σ} (hs : M.Reachable s) :
    I s := by
  induction hs with
  | init hi => exact h.init _ hi
  | step hs hstep ih => exact h.step _ _ _ hs ih hstep

/-- **From one step to whole runs.** If, as long as `P` holds, a step keeps it exactly when the
step meets `C`, then `P` holds all along a run exactly when every step of the run meets `C`. -/
theorem forall_visited_iff {P : σ → Prop} {C : lab → σ → Prop}
    (hstep : ∀ s l t, M.Reachable s → P s → M.step l s = .ok t → (P t ↔ C l s))
    {s t : σ} {tr : List (σ × lab)} (hs : M.Reachable s) (hP : P s) (h : M.Run s tr t) :
    (∀ u ∈ visited tr t, P u) ↔ ∀ x ∈ tr, C x.2 x.1 := by
  induction h with
  | nil =>
    refine ⟨fun _ x hx => absurd hx List.not_mem_nil, fun _ u hu => ?_⟩
    rw [List.mem_singleton.mp hu]
    exact hP
  | @snoc tr u v l hrun hl ih =>
    have hreach : M.Reachable u := hs.run hrun
    constructor
    · intro hall x hx
      have hprev : ∀ w ∈ visited tr u, P w := fun w hw =>
        hall w (by simp only [visited, List.map_append, List.map_singleton, List.mem_append] at *
                   exact Or.inl hw)
      rcases List.mem_append.mp hx with hx | hx
      · exact ih.mp hprev x hx
      · rw [List.mem_singleton.mp hx]
        exact (hstep u l v hreach (hprev u (by simp [visited])) hl).mp (hall v (by simp [visited]))
    · intro hall w hw
      have hprev : ∀ w ∈ visited tr u, P w :=
        ih.mpr fun x hx => hall x (List.mem_append_left _ hx)
      have hu : P u := hprev u (by simp [visited])
      have hv : P v := (hstep u l v hreach hu hl).mpr (hall (u, l) (by simp))
      simp only [visited, List.map_append, List.map_singleton, List.mem_append,
        List.mem_singleton] at hw
      rcases hw with hw | rfl
      · exact hprev w (by simpa [visited] using hw)
      · exact hv

/-- **From one step to whole executions.** `G` says which outcomes are good. If, as long as `I`
holds, a step that meets `C` keeps `I`, and one that does not has no good outcome, then all outcomes
along an execution are good exactly when every step meets `C`. -/
theorem forall_prefix_iff {A : lab → Prop} {I : σ → Prop} {G : Except ε σ → Prop}
    {C : lab → σ → Prop} (hgood : ∀ s, I s → G (.ok s))
    (hkeep : ∀ s l, A l → I s → C l s → ∃ t, M.step l s = .ok t ∧ I t)
    (hbreak : ∀ s l, A l → I s → ¬C l s → ¬G (M.step l s)) :
    ∀ {ls : List lab} {s : σ}, (∀ l ∈ ls, A l) → I s →
      ((∀ pre, pre <+: ls → G (M.exec pre s)) ↔
        ∀ pre l, pre ++ [l] <+: ls → ∀ t, M.exec pre s = .ok t → C l t) := by
  intro ls
  induction ls with
  | nil =>
    intro s _ hI
    refine ⟨fun _ pre l hpre => ?_, fun _ pre hpre => ?_⟩
    · exact absurd (List.prefix_nil.mp hpre) (List.append_ne_nil_of_right_ne_nil _ (by simp))
    · rw [List.prefix_nil.mp hpre]
      exact hgood s hI
  | cons l ls ih =>
    intro s hA hI
    have hAl := hA l List.mem_cons_self
    have hAls : ∀ l' ∈ ls, A l' := fun l' hl' => hA l' (List.mem_cons_of_mem _ hl')
    by_cases hC : C l s
    · obtain ⟨t, hstep, hIt⟩ := hkeep s l hAl hI hC
      have hexec : ∀ pre, M.exec (l :: pre) s = M.exec pre t := fun pre => by rw [exec, hstep]
      constructor
      · intro h pre l' hpre u hu
        cases pre with
        | nil =>
          obtain rfl : l' = l := (List.cons_prefix_cons.mp hpre).1
          cases hu
          exact hC
        | cons l₁ pre =>
          obtain ⟨rfl, hrest⟩ := List.cons_prefix_cons.mp hpre
          rw [hexec] at hu
          refine (ih hAls hIt).mp (fun pre' hpre' => ?_) pre l' hrest u hu
          rw [← hexec]
          exact h _ (List.cons_prefix_cons.mpr ⟨rfl, hpre'⟩)
      · intro h pre hpre
        cases pre with
        | nil => exact hgood s hI
        | cons l₁ pre =>
          obtain ⟨rfl, hrest⟩ := List.cons_prefix_cons.mp hpre
          rw [hexec]
          refine (ih hAls hIt).mpr (fun pre' l' hpre' u hu => ?_) pre hrest
          exact h (l₁ :: pre') l' (List.cons_prefix_cons.mpr ⟨rfl, hpre'⟩) u (by rw [hexec, hu])
    · refine iff_of_false (fun h => hbreak s l hAl hI hC ?_) fun h => hC ?_
      · have hone := h [l] (List.cons_prefix_cons.mpr ⟨rfl, List.nil_prefix⟩)
        rw [exec] at hone
        cases hstep : M.step l s <;> rw [hstep] at hone <;> exact hone
      · exact h [] l (List.cons_prefix_cons.mpr ⟨rfl, List.nil_prefix⟩) s rfl

/-! ### Bounded response -/

/-- **Bounded response.** Some steps of a run are observed. If every step but one with the
observation `a` keeps `I`, and every observed one also lowers a rank, then `a` is observed at the
latest when more steps have been observed than the rank was at first. -/
theorem Run.observed_within {α : Type} {obs : σ × lab → Option α} {a : α} {rank : σ → ℕ}
    {I : σ → Prop} {C : σ × lab → Prop}
    (hstep : ∀ s l t, I s → C (s, l) → M.step l s = .ok t → obs (s, l) ≠ some a →
      I t ∧ rank t + (obs (s, l)).toList.length ≤ rank s)
    {s t : σ} {tr : List (σ × lab)} (h : M.Run s tr t) (hI : I s) (hC : ∀ x ∈ tr, C x) :
    a ∈ (tr.filterMap obs).take (rank s + 1) ∨
      I t ∧ rank t + (tr.filterMap obs).length ≤ rank s := by
  induction h with
  | nil => exact Or.inr ⟨hI, le_rfl⟩
  | @snoc tr u v l _ hl ih =>
    have hlast : (tr ++ [(u, l)]).filterMap obs = tr.filterMap obs ++ (obs (u, l)).toList := by
      rw [List.filterMap_append]
      rcases hobs : obs (u, l) with _ | b <;> simp [hobs]
    rw [hlast]
    rcases ih fun x hx => hC x (List.mem_append_left _ hx) with hmem | ⟨hIu, hrank⟩
    · rw [List.take_append]
      exact Or.inl (List.mem_append_left _ hmem)
    · by_cases ha : obs (u, l) = some a
      · refine Or.inl ?_
        rw [ha, Option.toList_some, List.take_of_length_le (by simp; omega)]
        exact List.mem_append_right _ (List.mem_singleton_self a)
      · obtain ⟨hIv, hrank'⟩ := hstep u l v hIu (hC _ (by simp)) hl ha
        rw [List.length_append]
        exact Or.inr ⟨hIv, by omega⟩

/-- **Amortised cost.** As long as `P` holds, every step pays for its cost out of a potential. So a
run costs no more than the potential it starts with. -/
theorem Run.cost_le {P : σ → Prop} {cost : lab → ℕ} {potential : σ → ℕ}
    (hstep : ∀ s l t, M.Reachable s → P s → P t → M.step l s = .ok t →
      potential t + cost l ≤ potential s)
    {s t : σ} {tr : List (σ × lab)} (hs : M.Reachable s) (h : M.Run s tr t)
    (hP : ∀ u ∈ visited tr t, P u) :
    potential t + (tr.map fun x => cost x.2).sum ≤ potential s := by
  induction h with
  | nil => exact le_rfl
  | @snoc tr u v l hrun hl ih =>
    rw [visited_concat] at hP
    have hu : P u := hP u (List.mem_append_left _ (by simp [visited]))
    have hv : P v := hP v (List.mem_append_right _ (List.mem_singleton_self v))
    have hbefore := ih fun w hw => hP w (List.mem_append_left _ hw)
    have hlast : potential v + cost (u, l).2 ≤ potential u := hstep u l v (hs.run hrun) hu hv hl
    rw [List.map_append, List.sum_append, List.map_singleton, List.sum_singleton]
    omega

/-! ### Simulations -/

/-- `f` carries the runs of `M` to runs of `N`: a step of `M` is any number of steps of `N`. -/
structure Simulation (M : Machine σ lab ε) (N : Machine σ' lab' ε') (f : σ → σ') : Prop where
  /-- Initial states go to initial states. -/
  init : ∀ s, M.init s → N.init (f s)
  /-- A step is matched by a run. -/
  step : ∀ s l t, M.step l s = .ok t → ∃ ls, N.exec ls (f s) = .ok (f t)

theorem Simulation.reachable {N : Machine σ' lab' ε'} {f : σ → σ'} (h : Simulation M N f) {s : σ}
    (hs : M.Reachable s) : N.Reachable (f s) := by
  induction hs with
  | init hi => exact .init (h.init _ hi)
  | step _ hstep ih =>
    obtain ⟨ls, hls⟩ := h.step _ _ _ hstep
    exact ih.exec hls

end Machine
