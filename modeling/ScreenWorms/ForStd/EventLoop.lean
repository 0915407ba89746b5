import ScreenWorms.ForStd.Machine

/-!
# Loops around `poll`

A program that waits until something happens and then makes its calls, in a fixed order, each of
them if its condition holds. A condition is about what `poll` has reported and about the state the
call would be made in. At the end of a round the program says what it waits for next.

When `poll` times out, the round is left out. When it fails, what it has reported before is still
there, and the round goes by that.

## Main definitions

* `EventLoop`, `EventLoop.loop`
* `EventLoop.performed`, `EventLoop.steps` — the calls of a round

## Main results

* `loop_run` — the loop runs as the machine whose calls it makes
* `loop_events` — it waits for what its state asks for
* `loop_reachable_iff`, `loop_fails_iff` — it gets wherever the machine gets, and fails where the
  machine fails
-/

namespace Machine

variable {σ lab ε W R I : Type}

/-- What comes of `poll`. What the calls of the round get from outside comes with it. -/
inductive Poll (R I : Type)
  /-- Nothing has happened. -/
  | timeout
  /-- It fails. -/
  | failed (i : I)
  /-- Something has happened, but only what has been asked for is reported. -/
  | ready (happened : R) (i : I)
deriving DecidableEq

/-- A loop, when it calls `poll`. -/
structure Waiting (σ W R : Type) where
  state : σ
  /-- What it asks for. -/
  events : W
  /-- What was reported last. -/
  revents : R
deriving DecidableEq

/-- A machine, and a loop that makes its steps. -/
structure EventLoop (σ lab ε W R I : Type) extends Machine σ lab ε where
  /-- The calls of a round, given what has been reported, the input, and the state so far. -/
  calls : List (R → I → σ → Option lab)
  /-- What is asked for at first. -/
  start : W
  /-- What is asked for at the end of a round. -/
  wanted : σ → W
  /-- What `poll` reports of what has happened. -/
  report : W → R → R
  /-- What it reports when it times out. -/
  nothing : R

namespace EventLoop

variable (L : EventLoop σ lab ε W R I)

/-- The rest of a round. -/
def round (r : R) (i : I) : List (R → I → σ → Option lab) → σ → Except ε σ
  | [], s => .ok s
  | call :: calls, s =>
    match call r i s with
    | none => round r i calls s
    | some l =>
      match L.step l s with
      | .error e => .error e
      | .ok t => round r i calls t

/-- The calls that are made in it. -/
def made (r : R) (i : I) : List (R → I → σ → Option lab) → σ → List lab
  | [], _ => []
  | call :: calls, s =>
    match call r i s with
    | none => made r i calls s
    | some l => l ::
      match L.step l s with
      | .error _ => []
      | .ok t => made r i calls t

/-- What a round goes by. When `poll` times out, there is none. -/
def reported : Waiting σ W R × Poll R I → Option (R × I)
  | (_, .timeout) => none
  | (w, .failed i) => some (w.revents, i)
  | (w, .ready happened i) => some (L.report w.events happened, i)

/-- The loop. Nobody knows what is in `revents` before the first call of `poll`. -/
def loop : Machine (Waiting σ W R) (Poll R I) ε where
  init w := L.init w.state ∧ w.events = L.start
  step p w :=
    match L.reported (w, p) with
    | none => .ok { w with revents := L.nothing }
    | some (r, i) =>
      match L.round r i L.calls w.state with
      | .error e => .error e
      | .ok s => .ok ⟨s, L.wanted s, r⟩

/-- The calls that a round makes. -/
def performed (x : Waiting σ W R × Poll R I) : List lab :=
  match L.reported x with
  | none => []
  | some (r, i) => L.made r i L.calls x.1.state

/-- The steps that a round takes. -/
def steps (x : Waiting σ W R × Poll R I) : List (σ × lab) := L.trace (L.performed x) x.1.state

variable {L} {r : R} {i : I} {s t : σ} {w w' : Waiting σ W R} {p : Poll R I}
  {tr : List (Waiting σ W R × Poll R I)}

/-! ### A round -/

theorem exec_made : ∀ (calls : List (R → I → σ → Option lab)) (s : σ),
    L.exec (L.made r i calls s) s = L.round r i calls s
  | [], _ => rfl
  | call :: calls, s => by
    rw [made, round]
    split
    · exact exec_made calls s
    · rename_i l _
      rw [exec]
      split
      · rename_i t hstep
        rw [hstep]
        exact exec_made calls t
      · rename_i e hstep
        rw [hstep]

theorem round_singleton {call : R → I → σ → Option lab} (h : L.round r i [call] s = .ok t) :
    call r i s = none ∧ s = t ∨ ∃ l, call r i s = some l ∧ L.step l s = .ok t := by
  rw [round] at h
  split at h
  · rename_i hnone
    exact Or.inl ⟨hnone, Except.ok.inj h⟩
  · rename_i l hsome
    split at h
    · cases h
    · rename_i u hu
      cases h
      exact Or.inr ⟨l, hsome, hu⟩

theorem made_of_forall_eq_none : ∀ {calls : List (R → I → σ → Option lab)},
    (∀ call ∈ calls, ∀ t, call r i t = none) → ∀ s, L.made r i calls s = []
  | [], _, _ => rfl
  | call :: calls, h, s => by
    rw [made, h call List.mem_cons_self s]
    exact made_of_forall_eq_none (fun c hc => h c (List.mem_cons_of_mem _ hc)) s

/-- If no other call is made, whatever the state is, then there is only one. -/
theorem made_eq_singleton (calls : List (R → I → σ → Option lab))
    {calls' : List (R → I → σ → Option lab)} {call : R → I → σ → Option lab} {l : lab}
    (hbefore : ∀ call ∈ calls, ∀ t, call r i t = none) (hcall : call r i s = some l)
    (hafter : ∀ call ∈ calls', ∀ t, call r i t = none) :
    L.made r i (calls ++ call :: calls') s = [l] := by
  induction calls with
  | nil =>
    rw [List.nil_append, made, hcall]
    simp only [made_of_forall_eq_none hafter]
    cases L.step l s <;> rfl
  | cons c calls ih =>
    rw [List.cons_append, made, hbefore c List.mem_cons_self s]
    exact ih fun c hc => hbefore c (List.mem_cons_of_mem _ hc)

/-- The first calls of a round, and then the others. -/
theorem exists_of_round_append : ∀ (calls calls' : List (R → I → σ → Option lab)) {s u : σ},
    L.round r i (calls ++ calls') s = .ok u →
    ∃ t, L.round r i calls s = .ok t ∧ L.round r i calls' t = .ok u ∧
      L.made r i (calls ++ calls') s = L.made r i calls s ++ L.made r i calls' t
  | [], _, s, _, h => ⟨s, rfl, h, rfl⟩
  | call :: calls, calls', s, u, h => by
    rw [List.cons_append, round] at h
    rw [List.cons_append, round, made, made]
    split at h
    · exact exists_of_round_append _ _ h
    · split at h
      · cases h
      · obtain ⟨v, hv, hu, hmade⟩ := exists_of_round_append _ _ h
        exact ⟨v, hv, hu, by rw [hmade, List.cons_append]⟩

/-- **What each call keeps**, all of them keep. -/
theorem round_induction {P : σ → Prop} : ∀ {calls : List (R → I → σ → Option lab)},
    (∀ call ∈ calls, ∀ s l t, P s → call r i s = some l → L.step l s = .ok t → P t) →
    ∀ {s t : σ}, P s → L.round r i calls s = .ok t →
      P t ∧ ∀ x ∈ L.trace (L.made r i calls s) s, P x.1
  | [], _, s, t, hs, h => by
    obtain rfl : s = t := Except.ok.inj h
    exact ⟨hs, fun x hx => absurd hx List.not_mem_nil⟩
  | call :: calls, hcalls, s, t, hs, h => by
    have hrest := fun c hc => hcalls c (List.mem_cons_of_mem call hc)
    rw [round] at h
    rw [made]
    split at h
    · exact round_induction hrest hs h
    · rename_i l hcall
      split at h
      · cases h
      · rename_i u hu
        have hstep := hcalls call List.mem_cons_self s l u hs hcall hu
        obtain ⟨ht, hall⟩ := round_induction hrest hstep h
        refine ⟨ht, fun x hx => ?_⟩
        rw [trace, hu] at hx
        rcases List.mem_cons.mp hx with rfl | hx
        · exact hs
        · exact hall x hx

/-- A step of a round is one of its calls. -/
theorem exists_call_of_mem_trace {x : σ × lab} : ∀ {calls : List (R → I → σ → Option lab)} {s : σ},
    x ∈ L.trace (L.made r i calls s) s → ∃ call ∈ calls, call r i x.1 = some x.2
  | [], _, hx => absurd hx List.not_mem_nil
  | call :: calls, s, hx => by
    have later : (∃ c ∈ calls, c r i x.1 = some x.2) → ∃ c ∈ call :: calls, c r i x.1 = some x.2 := by
      rintro ⟨c, hc, hx⟩
      exact ⟨c, List.mem_cons_of_mem _ hc, hx⟩
    rw [made] at hx
    split at hx
    · exact later (exists_call_of_mem_trace hx)
    · rename_i l hcall
      rw [trace] at hx
      split at hx
      · rename_i t hstep
        rw [hstep] at hx
        rcases List.mem_cons.mp hx with rfl | hx
        · exact ⟨call, List.mem_cons_self, hcall⟩
        · exact later (exists_call_of_mem_trace hx)
      · cases hx

/-- A round that is left out changes nothing. -/
theorem eq_of_step_of_none (hnone : L.reported (w, p) = none) (h : L.loop.step p w = .ok w') :
    { w with revents := L.nothing } = w' := by
  simp only [loop, hnone] at h
  exact Except.ok.inj h

theorem step_eq_ok (hr : L.reported (w, p) = some (r, i)) : L.loop.step p w = .ok w' ↔
    ∃ t, L.round r i L.calls w.state = .ok t ∧ ⟨t, L.wanted t, r⟩ = w' := by
  simp only [loop, hr]
  cases L.round r i L.calls w.state <;> simp

/-- **A round** is its first calls, and then the others. -/
theorem exists_of_step (calls calls' : List (R → I → σ → Option lab))
    (hcalls : L.calls = calls ++ calls') (hr : L.reported (w, p) = some (r, i))
    (h : L.loop.step p w = .ok w') :
    ∃ t, L.round r i calls w.state = .ok t ∧ L.round r i calls' t = .ok w'.state ∧
      L.steps (w, p) = L.trace (L.made r i calls w.state) w.state ++
        L.trace (L.made r i calls' t) t := by
  obtain ⟨u, hu, rfl⟩ := (step_eq_ok hr).mp h
  rw [hcalls] at hu
  obtain ⟨t, ht, hu, hmade⟩ := exists_of_round_append _ _ hu
  refine ⟨t, ht, hu, ?_⟩
  simp only [steps, performed, hr]
  rw [hcalls, hmade]
  exact trace_append ((exec_made _ _).trans ht)

/-- A call in the middle of a round. -/
theorem exists_call_of_step (calls calls' : List (R → I → σ → Option lab))
    {call : R → I → σ → Option lab} (hcalls : L.calls = calls ++ call :: calls')
    (hr : L.reported (w, p) = some (r, i)) (h : L.loop.step p w = .ok w') :
    ∃ t u, L.round r i calls w.state = .ok t ∧ L.round r i [call] t = .ok u ∧
      L.round r i calls' u = .ok w'.state ∧ ∀ l, call r i t = some l → (t, l) ∈ L.steps (w, p) := by
  obtain ⟨t, ht, hothers, hsteps⟩ := exists_of_step _ _ hcalls hr h
  obtain ⟨u, hu, hlast, -⟩ := exists_of_round_append [call] calls' hothers
  refine ⟨t, u, ht, hu, hlast, fun l hcall => ?_⟩
  rw [hsteps]
  rcases round_singleton hu with ⟨hnone, -⟩ | ⟨l', hl', hstep⟩
  · cases hnone.symm.trans hcall
  · obtain rfl := Option.some.inj (hcall.symm.trans hl')
    refine List.mem_append_right _ ?_
    rw [made, hcall]
    simp only [trace, hstep]
    exact List.mem_cons_self

/-- **What comes of a round** is what comes of its calls. -/
theorem exec_performed (w : Waiting σ W R) (p : Poll R I) :
    L.exec (L.performed (w, p)) w.state = (L.loop.step p w).map Waiting.state := by
  rcases hr : L.reported (w, p) with _ | ⟨r, i⟩
  · simp only [performed, loop, hr]
    rfl
  · simp only [performed, loop, hr, exec_made]
    cases L.round r i L.calls w.state <;> rfl

theorem exec_of_step (h : L.loop.step p w = .ok w') :
    L.exec (L.performed (w, p)) w.state = .ok w'.state := by
  rw [exec_performed, h]
  rfl

theorem exists_step_of_exec (h : L.exec (L.performed (w, p)) w.state = .ok t) :
    ∃ w', L.loop.step p w = .ok w' ∧ w'.state = t := by
  rw [exec_performed] at h
  cases hstep : L.loop.step p w with
  | error e =>
    rw [hstep] at h
    cases h
  | ok w' =>
    rw [hstep] at h
    exact ⟨w', rfl, Except.ok.inj h⟩

theorem step_eq_error {e : ε} : L.loop.step p w = .error e ↔
    L.exec (L.performed (w, p)) w.state = .error e := by
  rw [exec_performed]
  cases L.loop.step p w <;> simp [Except.map]

/-! ### Whole runs -/

/-- **The loop runs as the machine**, round by round. -/
theorem loop_run (h : L.loop.Run w tr w') : L.Run w.state (tr.flatMap L.steps) w'.state := by
  induction h with
  | nil => exact .nil
  | snoc _ hstep ih =>
    rw [List.flatMap_append, List.flatMap_singleton]
    exact ih.trans (run_trace (exec_of_step hstep))

theorem loop_reachable (h : L.loop.Reachable w) : L.Reachable w.state := by
  obtain ⟨w₀, tr, hinit, hrun⟩ := h.exists_run
  exact (Reachable.init hinit.1).run (loop_run hrun)

/-- The states within a round are the machine's, too. -/
theorem reachable_of_mem_steps (hw : L.loop.Reachable w) (h : L.loop.step p w = .ok w')
    {x : σ × lab} (hx : x ∈ L.steps (w, p)) : L.Reachable x.1 := by
  obtain ⟨before, after, hsteps⟩ := List.append_of_mem hx
  have hrun : L.Run w.state (L.steps (w, p)) w'.state := run_trace (exec_of_step h)
  exact (loop_reachable hw).run (hrun.before hsteps)

/-- **What it waits for** is what its state asks for. -/
theorem loop_events (hstart : ∀ s, L.init s → L.wanted s = L.start) :
    L.loop.Invariant fun w => w.events = L.wanted w.state where
  init w hw := hw.2.trans (hstart w.state hw.1).symm
  step w p w' _ hw hstep := by
    rcases hr : L.reported (w, p) with _ | ⟨r, i⟩
    · rw [← eq_of_step_of_none hr hstep]
      exact hw
    · obtain ⟨t, -, rfl⟩ := (step_eq_ok hr).mp hstep
      rfl

/-- A call that is the only one of a round. -/
def Single (L : EventLoop σ lab ε W R I) (l : lab) (s : σ) : Prop :=
  ∃ happened i, L.made (L.report (L.wanted s) happened) i L.calls s = [l]

section Exact

variable (hstart : ∀ s, L.init s → L.wanted s = L.start)
  (hsingle : ∀ s l, L.Reachable s → L.step l s = .ok s ∨ L.Single l s)

include hstart

theorem Single.exists_poll {l : lab} (hw : L.loop.Reachable w) (h : L.Single l w.state) :
    ∃ p, L.performed (w, p) = [l] := by
  obtain ⟨happened, i, hmade⟩ := h
  rw [← (loop_events hstart).reachable hw] at hmade
  exact ⟨.ready happened i, hmade⟩

include hsingle

/-- **It gets wherever the machine gets**, if each step of the machine that changes anything can be
the only call of a round. -/
theorem loop_reachable_iff [Nonempty R] :
    (∃ w, L.loop.Reachable w ∧ w.state = s) ↔ L.Reachable s := by
  constructor
  · rintro ⟨w, hw, rfl⟩
    exact loop_reachable hw
  · intro hs
    induction hs with
    | @init s hs => exact ⟨⟨s, L.start, Classical.arbitrary R⟩, .init ⟨hs, rfl⟩, rfl⟩
    | @step s t l hs hstep ih =>
      obtain ⟨w, hw, rfl⟩ := ih
      rcases hsingle _ l hs with hsame | hsingle
      · exact ⟨w, hw, Except.ok.inj (hsame.symm.trans hstep)⟩
      · obtain ⟨p, hp⟩ := hsingle.exists_poll hstart hw
        obtain ⟨w', hw', rfl⟩ := exists_step_of_exec (p := p) (by rw [hp, exec_singleton hstep])
        exact ⟨w', hw.step hw', rfl⟩

/-- **It fails as the machine fails.** -/
theorem loop_fails_iff [Nonempty R] {e : ε} :
    (∃ w p, L.loop.Reachable w ∧ L.loop.step p w = .error e) ↔
      ∃ s l, L.Reachable s ∧ L.step l s = .error e := by
  constructor
  · rintro ⟨w, p, hw, h⟩
    obtain ⟨before, l, t, -, ht, hl⟩ := exists_of_exec_eq_error (step_eq_error.mp h)
    exact ⟨t, l, (loop_reachable hw).exec ht, hl⟩
  · rintro ⟨s, l, hs, h⟩
    obtain ⟨w, hw, rfl⟩ := (loop_reachable_iff hstart hsingle).mpr hs
    rcases hsingle _ l hs with hsame | hsingle
    · cases hsame.symm.trans h
    · obtain ⟨p, hp⟩ := hsingle.exists_poll hstart hw
      refine ⟨w, p, hw, step_eq_error.mpr ?_⟩
      rw [hp, exec, h]

end Exact

end EventLoop

end Machine
