import ScreenWorms.ForStd.EventLoop
import ScreenWorms.ForStd.Network

/-!
# Loops on a network

A hub and its nodes, each of them a loop around `poll`. A whole round is one step of this network: it
may take the message that came with `poll`, and it gives what its calls give. Since the calls are
steps of the loop's machine, the network of the machines can do the same, one call after another.

## Main definitions

* `LoopParty`, `LoopParty.party`, `LoopParty.rounds`
* `LoopParty.Lawful` — what a round takes and gives
* `netSteps` — a round, in the network of the machines

## Main results

* `run_netSteps` — what the loops do on a network, their machines do
-/

namespace Machine

variable {σ lab ε W R I α β : Type}

/-- What the calls of a round get from outside. -/
def Poll.input : Poll R I → Option I
  | .timeout => none
  | .failed i => some i
  | .ready _ i => some i

namespace EventLoop

variable {L : EventLoop σ lab ε W R I} {r : R} {i : I}

/-- A call that is made is one of the loop's. -/
theorem exists_call_of_mem_made {l : lab} : ∀ {calls : List (R → I → σ → Option lab)} {s : σ},
    l ∈ L.made r i calls s → ∃ call ∈ calls, ∃ t, call r i t = some l
  | [], _, hl => absurd hl List.not_mem_nil
  | call :: calls, s, hl => by
    have later : (∃ c ∈ calls, ∃ t, c r i t = some l) →
        ∃ c ∈ call :: calls, ∃ t, c r i t = some l := by
      rintro ⟨c, hc, hl⟩
      exact ⟨c, List.mem_cons_of_mem _ hc, hl⟩
    rw [made] at hl
    split at hl
    · exact later (exists_call_of_mem_made hl)
    · rename_i l' hcall
      rcases List.mem_cons.mp hl with rfl | hl
      · exact ⟨call, List.mem_cons_self, s, hcall⟩
      · split at hl
        · cases hl
        · exact later (exists_call_of_mem_made hl)

/-- A round that fails ends with the call that fails, and the ones before are not the last ones of a
round. -/
theorem exists_of_round_eq_error {e : ε} : ∀ {calls : List (R → I → σ → Option lab)} {s : σ},
    L.round r i calls s = .error e → ∃ before l t, L.made r i calls s = before ++ [l] ∧
      L.exec before s = .ok t ∧ L.step l t = .error e ∧
      ∀ x ∈ L.trace before s, ∃ call ∈ calls.dropLast, call r i x.1 = some x.2
  | [], _, h => by cases h
  | call :: calls, s, h => by
    rw [round] at h
    rw [made]
    have hmore : calls ≠ [] → ∀ c ∈ calls.dropLast, c ∈ (call :: calls).dropLast := by
      intro hne c hc
      rw [List.dropLast_cons_of_ne_nil hne]
      exact List.mem_cons_of_mem _ hc
    split at h
    · obtain ⟨before, l, t, hmade, ht, hl, hall⟩ := exists_of_round_eq_error h
      have hne : calls ≠ [] := by
        rintro rfl
        cases h
      refine ⟨before, l, t, hmade, ht, hl, fun x hx => ?_⟩
      obtain ⟨c, hc, hx⟩ := hall x hx
      exact ⟨c, hmore hne c hc, hx⟩
    · rename_i l hcall
      split at h
      · rename_i e' hstep
        cases h
        exact ⟨[], l, s, rfl, rfl, hstep, fun x hx => absurd hx List.not_mem_nil⟩
      · rename_i u hu
        obtain ⟨before, l', t, hmade, ht, hl', hall⟩ := exists_of_round_eq_error h
        have hne : calls ≠ [] := by
          rintro rfl
          cases h
        refine ⟨l :: before, l', t, ?_, exec_cons_eq_ok.mpr ⟨u, hu, ht⟩, hl', fun x hx => ?_⟩
        · rw [hmade, List.cons_append]
        · rw [trace, hu] at hx
          rcases List.mem_cons.mp hx with rfl | hx
          · refine ⟨call, ?_, hcall⟩
            rw [List.dropLast_cons_of_ne_nil hne]
            exact List.mem_cons_self
          · obtain ⟨c, hc, hx⟩ := hall x hx
            exact ⟨c, hmore hne c hc, hx⟩

end EventLoop

/-! ## Parties -/

/-- A loop, and what its calls take from a network and give to it. -/
structure LoopParty (σ lab ε W R I α β : Type) extends EventLoop σ lab ε W R I where
  /-- The message that a call takes. -/
  takes : lab → Option α
  /-- The message that a call gives. -/
  gives : σ × lab → Option β
  /-- The message that comes with the input of a round. -/
  offered : I → Option α

namespace LoopParty

variable (P : LoopParty σ lab ε W R I α β)

/-- The machine on the network: its steps are the calls. -/
def party : Party σ lab ε α β where
  toMachine := P.toMachine
  takes := P.takes
  gives := P.gives

/-- The loop on the network: its steps are the rounds. -/
def rounds : Party (Waiting σ W R) (Poll R I) ε α β where
  toMachine := P.loop
  takes p := p.input.bind P.offered
  gives x := ((P.steps x).filterMap P.gives).head?

/-- A round takes no message but the one it is offered, and only its last call gives one. -/
structure Lawful : Prop where
  takes : ∀ call ∈ P.calls, ∀ r i s l, call r i s = some l → ∀ x ∈ P.takes l, x ∈ P.offered i
  gives : ∀ call ∈ P.calls.dropLast, ∀ r i s l, call r i s = some l → P.gives (s, l) = none

variable {P} {w w' : Waiting σ W R} {p : Poll R I}

theorem input_of_reported {r : R} {i : I} (h : P.reported (w, p) = some (r, i)) :
    p.input = some i := by
  cases p with
  | timeout => cases h
  | failed j =>
    obtain ⟨-, rfl⟩ := Prod.mk.inj (Option.some.inj h)
    rfl
  | ready happened j =>
    obtain ⟨-, rfl⟩ := Prod.mk.inj (Option.some.inj h)
    rfl

theorem Lawful.takes_performed (hP : P.Lawful) {l : lab} (hl : l ∈ P.performed (w, p)) :
    ∀ x ∈ P.takes l, x ∈ P.rounds.takes p := by
  intro x hx
  simp only [EventLoop.performed] at hl
  split at hl
  · cases hl
  · rename_i r i hr
    obtain ⟨call, hcall, t, ht⟩ := EventLoop.exists_call_of_mem_made hl
    show x ∈ p.input.bind P.offered
    rw [input_of_reported hr]
    exact hP.takes call hcall r i t l ht x hx

theorem Lawful.gives_eq_nil (hP : P.Lawful) {r : R} {i : I} {steps : List (σ × lab)}
    (h : ∀ x ∈ steps, ∃ call ∈ P.calls.dropLast, call r i x.1 = some x.2) :
    steps.filterMap P.gives = [] := by
  rw [List.filterMap_eq_nil_iff]
  intro x hx
  obtain ⟨call, hcall, hx⟩ := h x hx
  exact hP.gives call hcall r i x.1 x.2 hx

/-- What a round gives is what its steps give. -/
theorem Lawful.gives_steps (hP : P.Lawful) (h : P.loop.step p w = .ok w') :
    (P.steps (w, p)).filterMap P.gives = (P.rounds.gives (w, p)).toList := by
  have hshort : ((P.steps (w, p)).filterMap P.gives).length ≤ 1 := by
    rcases hr : P.reported (w, p) with _ | ⟨r, i⟩
    · simp only [EventLoop.steps, EventLoop.performed, hr]
      exact Nat.zero_le 1
    · rcases List.eq_nil_or_concat P.calls with hnil | ⟨front, call, hcalls⟩
      · simp only [EventLoop.steps, EventLoop.performed, hr, hnil]
        exact Nat.zero_le 1
      · rw [List.concat_eq_append] at hcalls
        obtain ⟨t, ht, hlast, hsteps⟩ := EventLoop.exists_of_step _ _ hcalls hr h
        have hfront : (P.trace (P.made r i front w.state) w.state).filterMap P.gives = [] :=
          hP.gives_eq_nil (r := r) (i := i) fun x hx => by
            rw [hcalls, List.dropLast_concat]
            exact EventLoop.exists_call_of_mem_trace hx
        rw [hsteps, List.filterMap_append, hfront, List.nil_append]
        refine (List.length_filterMap_le _ _).trans ?_
        rcases EventLoop.round_singleton hlast with ⟨hnone, -⟩ | ⟨l, hl, hstep⟩
        · rw [EventLoop.made, hnone]
          exact Nat.zero_le 1
        · rw [EventLoop.made, hl]
          simp only [trace, hstep, EventLoop.made]
          exact le_rfl
  show _ = (List.head? _).toList
  generalize (P.steps (w, p)).filterMap P.gives = given at hshort
  rcases given with _ | ⟨y, _ | ⟨z, rest⟩⟩
  · rfl
  · rfl
  · simp at hshort

/-- A round that fails gives nothing before. -/
theorem Lawful.exists_of_step_eq_error (hP : P.Lawful) {e : ε} (h : P.loop.step p w = .error e) :
    ∃ before l t, P.performed (w, p) = before ++ [l] ∧ P.exec before w.state = .ok t ∧
      P.step l t = .error e ∧ (P.trace before w.state).filterMap P.gives = [] := by
  rcases hr : P.reported (w, p) with _ | ⟨r, i⟩
  · simp only [EventLoop.loop, hr] at h
    cases h
  · have hround : P.round r i P.calls w.state = .error e := by
      simp only [EventLoop.loop, hr] at h
      split at h
      · rename_i e' he
        cases h
        exact he
      · cases h
    obtain ⟨before, l, t, hmade, ht, hl, hall⟩ := EventLoop.exists_of_round_eq_error hround
    refine ⟨before, l, t, ?_, ht, hl, hP.gives_eq_nil hall⟩
    simp only [EventLoop.performed, hr]
    exact hmade

end LoopParty

/-! ## The network -/

section Net

variable {ι τ lab' ε' W' R' I' up down : Type} [DecidableEq ι] [DecidableEq up] [DecidableEq down]

/-- The hub takes some steps. -/
theorem exec_hub {H : Party σ lab ε (ι × up) (ι × down)} {N : Party τ lab' ε' down up} {hub : σ} :
    ∀ {ls : List lab} {s : Net ι σ τ up down}, H.exec ls s.hub = .ok hub →
      (∀ l ∈ ls, ∀ x ∈ H.takes l, (s.nodes x.1).isSome = true → x ∈ s.toHub) →
      (netMachine H N).exec (ls.map .hub) s = .ok { s with
        hub := hub
        toNodes := s.toNodes ++ (H.trace ls s.hub).filterMap H.gives }
  | [], s, h, _ => by
    obtain rfl : s.hub = hub := Except.ok.inj h
    simp [exec, trace]
  | l :: ls, s, h, hgiven => by
    obtain ⟨t, hl, hrest⟩ := exec_cons_eq_ok.mp h
    let s₁ : Net ι σ τ up down :=
      { s with hub := t, toNodes := s.toNodes ++ (H.gives (s.hub, l)).toList }
    have hstep : (netMachine H N).step (.hub l) s = .ok s₁ :=
      step_hub_eq_ok.mpr ⟨hgiven l List.mem_cons_self, t, hl, rfl⟩
    have hlater := exec_hub (N := N) (s := s₁) hrest fun k hk => hgiven k (List.mem_cons_of_mem _ hk)
    refine exec_cons_eq_ok.mpr ⟨s₁, hstep, hlater.trans ?_⟩
    rw [trace, hl]
    cases hgives : H.gives (s.hub, l) <;> simp [s₁, hgives]

/-- A node takes some steps. -/
theorem exec_node {H : Party σ lab ε (ι × up) (ι × down)} {N : Party τ lab' ε' down up} {i : ι}
    {n' : τ} : ∀ {ls : List lab'} {n : τ} {s : Net ι σ τ up down}, N.exec ls n = .ok n' →
      s.nodes i = some n → (∀ l ∈ ls, ∀ x ∈ N.takes l, (i, x) ∈ s.toNodes) →
      (netMachine H N).exec (ls.map (.node i)) s = .ok { s with
        nodes := Function.update s.nodes i (some n')
        toHub := s.toHub ++ ((N.trace ls n).filterMap N.gives).map (Prod.mk i) }
  | [], n, s, h, hn, _ => by
    obtain rfl : n = n' := Except.ok.inj h
    simp [exec, trace, ← hn]
  | l :: ls, n, s, h, hn, hgiven => by
    obtain ⟨m, hl, hrest⟩ := exec_cons_eq_ok.mp h
    let s₁ : Net ι σ τ up down := { s with
      nodes := Function.update s.nodes i (some m)
      toHub := s.toHub ++ ((N.gives (n, l)).map (Prod.mk i)).toList }
    have hstep : (netMachine H N).step (.node i l) s = .ok s₁ :=
      step_node_of_ok hn (hgiven l List.mem_cons_self) hl
    have hlater := exec_node (H := H) (s := s₁) hrest (Function.update_self ..) fun k hk =>
      hgiven k (List.mem_cons_of_mem _ hk)
    refine exec_cons_eq_ok.mpr ⟨s₁, hstep, hlater.trans ?_⟩
    rw [trace, hl]
    cases hgives : N.gives (n, l) <;> simp [s₁, hgives]

/-- The machines on a network of loops. -/
def Net.states (s : Net ι (Waiting σ W R) (Waiting τ W' R') up down) : Net ι σ τ up down where
  hub := s.hub.state
  nodes i := (s.nodes i).map Waiting.state
  toNodes := s.toNodes
  toHub := s.toHub

variable (H : LoopParty σ lab ε W R I (ι × up) (ι × down))
  (N : LoopParty τ lab' ε' W' R' I' down up)

/-- What happens in the network of the machines. -/
def netSteps : Net ι (Waiting σ W R) (Waiting τ W' R') up down ×
      NetOp ι (Poll R I) N.rounds.toMachine → List (NetOp ι lab N.party.toMachine)
  | (s, .hub p) => (H.performed (s.hub, p)).map .hub
  | (s, .node i p) =>
    match s.nodes i with
    | none => []
    | some n => (N.performed (n, p)).map (.node i)
  | (_, .join i n) => [.join i ⟨n.val.state, n.property.1⟩]
  | (_, .stop i) => [.stop i]

variable {H N} {s t : Net ι (Waiting σ W R) (Waiting τ W' R') up down}
  {tr : List (Net ι (Waiting σ W R) (Waiting τ W' R') up down ×
    NetOp ι (Poll R I) N.rounds.toMachine)}
  {op : NetOp ι (Poll R I) N.rounds.toMachine}

omit [DecidableEq up] [DecidableEq down] in
theorem states_update (i : ι) (n : Option (Waiting τ W' R')) :
    (fun j => (Function.update s.nodes i n j).map Waiting.state) =
      Function.update (fun j => (s.nodes j).map Waiting.state) i (n.map Waiting.state) := by
  funext j
  by_cases hj : j = i
  · subst hj
    simp
  · simp [Function.update_of_ne hj]

/-- **One round** in the network of the machines. -/
theorem exec_netSteps (hH : H.Lawful) (hN : N.Lawful)
    (h : (netMachine H.rounds N.rounds).step op s = .ok t) :
    (netMachine H.party N.party).exec (netSteps H N (s, op)) s.states = .ok t.states := by
  cases op with
  | hub p =>
    obtain ⟨hgiven, hub, hp, rfl⟩ := step_hub_eq_ok.mp h
    refine (exec_hub (EventLoop.exec_of_step hp) fun l hl x hx hnode => ?_).trans ?_
    · exact hgiven x (hH.takes_performed hl x hx) (by simpa [Net.states] using hnode)
    · exact congrArg (fun given => Except.ok { s.states with
        hub := hub.state, toNodes := s.toNodes ++ given }) (hH.gives_steps hp)
  | node i p =>
    obtain ⟨n, hn, hgiven, hcases⟩ := step_node_cases h
    have hstates : s.states.nodes i = some n.state := by simp [Net.states, hn]
    have hsteps : netSteps H N (s, .node i p) = (N.performed (n, p)).map (.node i) := by
      simp only [netSteps, hn]
    have htakes : ∀ l ∈ N.performed (n, p), ∀ x ∈ N.party.takes l, (i, x) ∈ s.states.toNodes :=
      fun l hl x hx => hgiven x (hN.takes_performed hl x hx)
    rw [hsteps]
    rcases hcases with ⟨e, hp, rfl⟩ | ⟨n', hp, rfl⟩
    · obtain ⟨before, l, m, hmade, hm, hl, hnone⟩ := hN.exists_of_step_eq_error hp
      rw [hmade] at htakes ⊢
      rw [List.map_append, List.map_singleton]
      have hbefore := exec_node (H := H.party) (N := N.party) hm hstates fun k hk =>
        htakes k (List.mem_append_left _ hk)
      have hfails := step_node_of_error (H := H.party) (N := N.party)
        (s := { s.states with nodes := Function.update s.states.nodes i (some m) })
        (Function.update_self ..) (htakes l (List.mem_append_right _ (List.mem_singleton_self l))) hl
      have hgives : (N.party.trace before n.state).filterMap N.party.gives = [] := hnone
      rw [hgives, List.map_nil, List.append_nil] at hbefore
      refine (exec_append hbefore hfails).trans ?_
      simp [Net.states, states_update]
    · refine (exec_node (EventLoop.exec_of_step hp) hstates htakes).trans ?_
      have hgives : (N.party.trace (N.performed (n, p)) n.state).filterMap N.party.gives =
        (N.rounds.gives (n, p)).toList := hN.gives_steps hp
      rw [hgives]
      cases N.rounds.gives (n, p) <;> simp [Net.states, states_update]
  | join i n =>
    obtain ⟨hnone, rfl⟩ := step_join_eq_ok.mp h
    refine exec_singleton (step_join_eq_ok.mpr ⟨?_, ?_⟩)
    · simp [Net.states, hnone]
    · simp only [Net.states, states_update, Option.map_some]
  | stop i =>
    obtain rfl := Except.ok.inj h
    refine exec_singleton (congrArg Except.ok ?_)
    simp [Net.states, states_update]

/-- **What the loops do on a network, their machines do.** -/
theorem run_netSteps (hH : H.Lawful) (hN : N.Lawful)
    (h : (netMachine H.rounds N.rounds).Run s tr t) :
    (netMachine H.party N.party).exec (tr.flatMap (netSteps H N)) s.states = .ok t.states := by
  have hfollow : ∃ u, (netMachine H.party N.party).exec (tr.flatMap (netSteps H N)) s.states =
      .ok u ∧ u = t.states :=
    h.follow (R := fun s u => u = s.states) (fun s op t u hsu hstep =>
      ⟨t.states, hsu ▸ exec_netSteps hH hN hstep, rfl⟩) rfl
  obtain ⟨u, hu, rfl⟩ := hfollow
  exact hu

end Net

end Machine
