import Mathlib.Logic.Function.Basic
import ScreenWorms.ForStd.Machine

/-!
# A hub and its nodes

A machine, the hub, and any number of others, its nodes, with a network between them. What has been
given to the network stays there, so that it may be delivered late, in another order, several times
or never. A node gets only what the hub has given for it, and the hub gets from the place of a node
only what a node there has given. Where there is no node, anybody may say anything to the hub.

A node that fails is gone, and the others go on. A node may also join or be stopped at any time.

## Main definitions

* `Party` — a machine that takes messages from a network and gives messages to it
* `Net`, `netMachine`
* `hubTrace` — the steps of the hub in a run of the network

## Main results

* `Run.hub`, `toNodes_of_run` — the hub runs on its own, and gives what nodes get
* `Run.node` — so does a node, and gets what the hub has given
-/

namespace Machine

variable {ι σ τ lab lab' ε ε' up down : Type}

/-- A machine that takes messages of one type from a network and gives it messages of another. -/
structure Party (σ lab ε α β : Type) extends Machine σ lab ε where
  /-- The message that a label takes. -/
  takes : lab → Option α
  /-- The message that a step gives. -/
  gives : σ × lab → Option β

/-- The hub, the nodes at their places, and the messages in the network. -/
structure Net (ι σ τ up down : Type) where
  hub : σ
  nodes : ι → Option τ
  toNodes : List (ι × down)
  toHub : List (ι × up)

/-- A step of the hub or of a node; a node may come and go. -/
inductive NetOp (ι lab : Type) (node : Machine τ lab' ε')
  | hub (l : lab)
  | node (i : ι) (l : lab')
  | join (i : ι) (n : {n // node.init n})
  | stop (i : ι)

/-- Why a step cannot be taken. -/
inductive NetFault (ε : Type)
  /-- The hub fails. -/
  | hub (fault : ε)
  /-- The message is not in the network. -/
  | notGiven
  /-- There is no node at this place. -/
  | noNode
  /-- There is a node at this place. -/
  | occupied

section Step

variable [DecidableEq ι] [DecidableEq up] [DecidableEq down]
  (H : Party σ lab ε (ι × up) (ι × down)) (N : Party τ lab' ε' down up)

/-- One step. -/
def Net.step : NetOp ι lab N.toMachine → Net ι σ τ up down → Except (NetFault ε) (Net ι σ τ up down)
  | .hub l, s =>
    if ∀ x ∈ H.takes l, (s.nodes x.1).isSome = true → x ∈ s.toHub then
      match H.step l s.hub with
      | .error e => .error (.hub e)
      | .ok hub => .ok { s with hub := hub, toNodes := s.toNodes ++ (H.gives (s.hub, l)).toList }
    else .error .notGiven
  | .node i l, s =>
    match s.nodes i with
    | none => .error .noNode
    | some n =>
      if ∀ x ∈ N.takes l, (i, x) ∈ s.toNodes then
        match N.step l n with
        | .error _ => .ok { s with nodes := Function.update s.nodes i none }
        | .ok n' => .ok { s with
            nodes := Function.update s.nodes i (some n')
            toHub := s.toHub ++ ((N.gives (n, l)).map (Prod.mk i)).toList }
      else .error .notGiven
  | .join i n, s =>
    match s.nodes i with
    | none => .ok { s with nodes := Function.update s.nodes i (some n.val) }
    | some _ => .error .occupied
  | .stop i, s => .ok { s with nodes := Function.update s.nodes i none }

/-- A hub and its nodes. There are none at first, and nothing is in the network. -/
def netMachine : Machine (Net ι σ τ up down) (NetOp ι lab N.toMachine) (NetFault ε) where
  init s := H.init s.hub ∧ s.nodes = (fun _ => none) ∧ s.toNodes = [] ∧ s.toHub = []
  step := Net.step H N

end Step

section Traces

variable {N : Machine τ lab' ε'} {tr : List (Net ι σ τ up down × NetOp ι lab N)} {i : ι}

/-- A step of the hub. -/
def hubStep : Net ι σ τ up down × NetOp ι lab N → Option (σ × lab)
  | (s, .hub l) => some (s.hub, l)
  | (_, .node _ _) => none
  | (_, .join _ _) => none
  | (_, .stop _) => none

/-- The steps of the hub in a run. -/
def hubTrace (tr : List (Net ι σ τ up down × NetOp ι lab N)) : List (σ × lab) :=
  tr.filterMap hubStep

theorem hubTrace_concat (x : Net ι σ τ up down × NetOp ι lab N) :
    hubTrace (tr ++ [x]) = hubTrace tr ++ (hubStep x).toList := by
  rw [hubTrace, List.filterMap_append, hubTrace]
  cases hx : hubStep x <;> simp [hx]

/-- The steps `ntr` of a node are steps that its place takes in a run. -/
def StepsOf (tr : List (Net ι σ τ up down × NetOp ι lab N)) (i : ι) (ntr : List (τ × lab')) : Prop :=
  ∀ x ∈ ntr, ∃ u, (u, .node i x.2) ∈ tr ∧ u.nodes i = some x.1

theorem StepsOf.concat {ntr : List (τ × lab')} (h : StepsOf tr i ntr)
    (x : Net ι σ τ up down × NetOp ι lab N) : StepsOf (tr ++ [x]) i ntr := by
  intro y hy
  obtain ⟨u, hu, hn⟩ := h y hy
  exact ⟨u, List.mem_append_left _ hu, hn⟩

end Traces

section Runs

variable [DecidableEq ι] [DecidableEq up] [DecidableEq down]
  {H : Party σ lab ε (ι × up) (ι × down)} {N : Party τ lab' ε' down up}
  {s t u : Net ι σ τ up down} {tr : List (Net ι σ τ up down × NetOp ι lab N.toMachine)}
  {i j : ι} {l : lab} {k : lab'}

/-! ### One step -/

theorem step_hub_eq_ok : (netMachine H N).step (.hub l) s = .ok t ↔
    (∀ x ∈ H.takes l, (s.nodes x.1).isSome = true → x ∈ s.toHub) ∧
    ∃ hub, H.step l s.hub = .ok hub ∧
      { s with hub := hub, toNodes := s.toNodes ++ (H.gives (s.hub, l)).toList } = t := by
  show (Net.step H N (.hub l) s) = .ok t ↔ _
  rw [Net.step]
  split
  · rename_i hgiven
    cases hstep : H.step l s.hub with
    | error e => simp
    | ok hub => simpa using fun _ => hgiven
  · rename_i hnot
    exact iff_of_false (by simp) fun h => hnot h.1

/-- What a step of a node does: the node takes it, or is gone. -/
theorem step_node_cases (h : (netMachine H N).step (.node i k) s = .ok t) :
    ∃ n, s.nodes i = some n ∧ (∀ x ∈ N.takes k, (i, x) ∈ s.toNodes) ∧
      ((∃ e, N.step k n = .error e ∧ t = { s with nodes := Function.update s.nodes i none }) ∨
      ∃ n', N.step k n = .ok n' ∧ t = { s with
        nodes := Function.update s.nodes i (some n')
        toHub := s.toHub ++ ((N.gives (n, k)).map (Prod.mk i)).toList }) := by
  change Net.step H N (.node i k) s = .ok t at h
  rw [Net.step] at h
  split at h
  · cases h
  · rename_i n hn
    split at h
    · rename_i hgiven
      refine ⟨n, hn, hgiven, ?_⟩
      cases hstep : N.step k n with
      | error e =>
        rw [hstep] at h
        exact Or.inl ⟨e, rfl, (Except.ok.inj h).symm⟩
      | ok n' =>
        rw [hstep] at h
        exact Or.inr ⟨n', rfl, (Except.ok.inj h).symm⟩
    · cases h

theorem step_node_of_ok {n n' : τ} (hn : s.nodes i = some n)
    (hgiven : ∀ x ∈ N.takes k, (i, x) ∈ s.toNodes) (hstep : N.step k n = .ok n') :
    (netMachine H N).step (.node i k) s = .ok { s with
      nodes := Function.update s.nodes i (some n')
      toHub := s.toHub ++ ((N.gives (n, k)).map (Prod.mk i)).toList } := by
  show Net.step H N (.node i k) s = _
  rw [Net.step, hn]
  simp only [hstep]
  exact if_pos hgiven

theorem step_node_of_error {n : τ} {e : ε'} (hn : s.nodes i = some n)
    (hgiven : ∀ x ∈ N.takes k, (i, x) ∈ s.toNodes) (hstep : N.step k n = .error e) :
    (netMachine H N).step (.node i k) s = .ok { s with
      nodes := Function.update s.nodes i none } := by
  show Net.step H N (.node i k) s = _
  rw [Net.step, hn]
  simp only [hstep]
  exact if_pos hgiven

theorem step_join_eq_ok {n : {n // N.init n}} : (netMachine H N).step (.join i n) s = .ok t ↔
    s.nodes i = none ∧ { s with nodes := Function.update s.nodes i (some n.val) } = t := by
  show Net.step H N (.join i n) s = .ok t ↔ _
  rw [Net.step]
  cases s.nodes i <;> simp

/-- Messages stay in the network. -/
theorem step_mono {op : NetOp ι lab N.toMachine} (h : (netMachine H N).step op s = .ok t) :
    s.toNodes <+: t.toNodes ∧ s.toHub <+: t.toHub := by
  cases op with
  | hub l =>
    obtain ⟨-, _, -, rfl⟩ := step_hub_eq_ok.mp h
    exact ⟨List.prefix_append _ _, List.prefix_rfl⟩
  | node i k =>
    obtain ⟨_, -, -, ⟨_, -, rfl⟩ | ⟨_, -, rfl⟩⟩ := step_node_cases h
    · exact ⟨List.prefix_rfl, List.prefix_rfl⟩
    · exact ⟨List.prefix_rfl, List.prefix_append _ _⟩
  | join i n =>
    obtain ⟨-, rfl⟩ := step_join_eq_ok.mp h
    exact ⟨List.prefix_rfl, List.prefix_rfl⟩
  | stop i =>
    obtain rfl := Except.ok.inj h
    exact ⟨List.prefix_rfl, List.prefix_rfl⟩

theorem run_mono (h : (netMachine H N).Run s tr t) :
    s.toNodes <+: t.toNodes ∧ s.toHub <+: t.toHub := by
  induction h with
  | nil => exact ⟨List.prefix_rfl, List.prefix_rfl⟩
  | snoc _ hstep ih =>
    have hlast := step_mono hstep
    exact ⟨ih.1.trans hlast.1, ih.2.trans hlast.2⟩

/-! ### The hub -/

/-- A step of the network is one of the hub, or leaves alone what the hub is and has given. -/
theorem step_hub_cases {op : NetOp ι lab N.toMachine} (h : (netMachine H N).step op s = .ok t) :
    (∃ l, op = .hub l ∧ H.step l s.hub = .ok t.hub ∧
      t.toNodes = s.toNodes ++ (H.gives (s.hub, l)).toList) ∨
    hubStep (s, op) = none ∧ t.hub = s.hub ∧ t.toNodes = s.toNodes := by
  cases op with
  | hub l =>
    obtain ⟨-, _, hl, rfl⟩ := step_hub_eq_ok.mp h
    exact Or.inl ⟨l, rfl, hl, rfl⟩
  | node i k =>
    obtain ⟨_, -, -, ⟨_, -, rfl⟩ | ⟨_, -, rfl⟩⟩ := step_node_cases h <;>
      exact Or.inr ⟨rfl, rfl, rfl⟩
  | join i n =>
    obtain ⟨-, rfl⟩ := step_join_eq_ok.mp h
    exact Or.inr ⟨rfl, rfl, rfl⟩
  | stop i =>
    obtain rfl := Except.ok.inj h
    exact Or.inr ⟨rfl, rfl, rfl⟩

/-- **The hub runs on its own.** -/
theorem Run.hub (h : (netMachine H N).Run s tr t) : H.Run s.hub (hubTrace tr) t.hub := by
  induction h with
  | nil => exact .nil
  | snoc _ hstep ih =>
    rw [hubTrace_concat]
    rcases step_hub_cases hstep with ⟨l, rfl, hl, -⟩ | ⟨hnone, hhub, -⟩
    · exact .snoc ih hl
    · rw [hnone, hhub, Option.toList_none, List.append_nil]
      exact ih

/-- What nodes may get is what the hub has given. -/
theorem toNodes_of_run (h : (netMachine H N).Run s tr t) :
    t.toNodes = s.toNodes ++ (hubTrace tr).filterMap H.gives := by
  induction h with
  | nil => exact (List.append_nil _).symm
  | @snoc tr u v op _ hstep ih =>
    rw [hubTrace_concat, List.filterMap_append, ← List.append_assoc, ← ih]
    rcases step_hub_cases hstep with ⟨l, rfl, -, hgives⟩ | ⟨hnone, -, hsame⟩
    · rw [hgives]
      cases hg : H.gives (u.hub, l) <;> simp [hubStep, hg]
    · rw [hnone, hsame, Option.toList_none, List.filterMap_nil, List.append_nil]

/-! ### A node -/

/-- What the hub may get from a node is what a node at its place has given. -/
theorem given_of_run (hs : (netMachine H N).init s) (h : (netMachine H N).Run s tr t) {x : ι × up}
    (hx : x ∈ t.toHub) :
    ∃ u k n, (u, .node x.1 k) ∈ tr ∧ u.nodes x.1 = some n ∧ N.gives (n, k) = some x.2 := by
  induction h with
  | nil =>
    obtain ⟨-, -, -, hnone⟩ := hs
    rw [hnone] at hx
    cases hx
  | @snoc tr u v op _ hstep ih =>
    have later : x ∈ u.toHub → ∃ w k n, (w, .node x.1 k) ∈ tr ++ [(u, op)] ∧
        w.nodes x.1 = some n ∧ N.gives (n, k) = some x.2 := fun hx => by
      obtain ⟨w, k, n, hw, hn⟩ := ih hx
      exact ⟨w, k, n, List.mem_append_left _ hw, hn⟩
    cases op with
    | hub l =>
      obtain ⟨-, _, -, rfl⟩ := step_hub_eq_ok.mp hstep
      exact later hx
    | node i k =>
      obtain ⟨n, hn, -, ⟨_, -, rfl⟩ | ⟨_, -, rfl⟩⟩ := step_node_cases hstep
      · exact later hx
      · rcases List.mem_append.mp hx with hx | hx
        · exact later hx
        · obtain ⟨y, hgives, rfl⟩ := Option.map_eq_some_iff.mp (Option.mem_toList.mp hx)
          exact ⟨u, k, n, List.mem_append_right _ (List.mem_singleton_self _), hn, hgives⟩
    | join i n =>
      obtain ⟨-, rfl⟩ := step_join_eq_ok.mp hstep
      exact later hx
    | stop i =>
      obtain rfl := Except.ok.inj hstep
      exact later hx

/-- **A node runs on its own.** Its run begins when it joins. -/
theorem Run.node (hs : (netMachine H N).init s) (h : (netMachine H N).Run s tr t) {n : τ}
    (hn : t.nodes i = some n) :
    ∃ n₀ ntr, N.init n₀ ∧ N.Run n₀ ntr n ∧ StepsOf tr i ntr := by
  induction h generalizing n with
  | nil =>
    obtain ⟨-, hnodes, -, -⟩ := hs
    rw [hnodes] at hn
    cases hn
  | @snoc tr u v op _ hstep ih =>
    have later : ∀ {n : τ}, u.nodes i = some n →
        ∃ n₀ ntr, N.init n₀ ∧ N.Run n₀ ntr n ∧ StepsOf (tr ++ [(u, op)]) i ntr := fun hn => by
      obtain ⟨n₀, ntr, hinit, hrun, hsteps⟩ := ih hn
      exact ⟨n₀, ntr, hinit, hrun, hsteps.concat _⟩
    cases op with
    | hub l =>
      obtain ⟨-, _, -, rfl⟩ := step_hub_eq_ok.mp hstep
      exact later hn
    | node j k =>
      obtain ⟨m, hm, -, ⟨_, -, rfl⟩ | ⟨m', hk, rfl⟩⟩ := step_node_cases hstep
      · by_cases hij : i = j
        · subst hij
          simp at hn
        · exact later (by simpa [Function.update_of_ne hij] using hn)
      · by_cases hij : i = j
        · subst hij
          obtain rfl : m' = n := by simpa using hn
          obtain ⟨n₀, ntr, hinit, hrun, hsteps⟩ := later hm
          refine ⟨n₀, ntr ++ [(m, k)], hinit, hrun.snoc hk, fun x hx => ?_⟩
          rcases List.mem_append.mp hx with hx | hx
          · exact hsteps x hx
          · rw [List.mem_singleton.mp hx]
            exact ⟨u, List.mem_append_right _ (List.mem_singleton_self _), hm⟩
        · exact later (by simpa [Function.update_of_ne hij] using hn)
    | join j m =>
      obtain ⟨-, rfl⟩ := step_join_eq_ok.mp hstep
      by_cases hij : i = j
      · subst hij
        obtain rfl : m.val = n := by simpa using hn
        exact ⟨m.val, [], m.property, .nil, fun x hx => absurd hx List.not_mem_nil⟩
      · exact later (by simpa [Function.update_of_ne hij] using hn)
    | stop j =>
      obtain rfl := Except.ok.inj hstep
      by_cases hij : i = j
      · subst hij
        simp at hn
      · exact later (by simpa [Function.update_of_ne hij] using hn)

end Runs

end Machine
