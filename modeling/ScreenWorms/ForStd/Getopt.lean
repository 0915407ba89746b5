import Mathlib.Data.List.Nodup

/-!
# Options on a command line

`getopt`, where every option takes a value. A value is attached to its option or the next argument,
whatever that looks like. Other arguments may stand anywhere, and are collected in their order;
after two dashes there are only such arguments.

## Main definitions

* `scan` — what repeated calls of `getopt` find
* `Spells` — which options and other arguments a command line spells
* `lastValue` — the value of an option that is kept

## Main results

* `scan_eq_ok_iff` — the command lines without mistakes are those that spell something
* `exists_of_scan_eq_error` — a mistake is named by an option of the command line
* `lastValue_eq_some_iff` — the order of different options does not matter
-/

namespace Except

variable {ε α β : Type} {x : Except ε α} {e : ε} {b : β}

theorem map_eq_ok {f : α → β} : x.map f = .ok b ↔ ∃ a, x = .ok a ∧ f a = b := by
  cases x <;> simp [Except.map]

theorem map_eq_error {f : α → β} : x.map f = .error e ↔ x = .error e := by
  cases x <;> simp [Except.map]

theorem bind_eq_ok {f : α → Except ε β} : x >>= f = .ok b ↔ ∃ a, x = .ok a ∧ f a = .ok b := by
  cases x with
  | error e => simp [bind, Except.bind]
  | ok a => simp [bind, Except.bind]

theorem bind_eq_error {f : α → Except ε β} :
    x >>= f = .error e ↔ x = .error e ∨ ∃ a, x = .ok a ∧ f a = .error e := by
  cases x with
  | error e => simp [bind, Except.bind]
  | ok a => simp [bind, Except.bind]

end Except

namespace Getopt

variable {α : Type}

/-- What has been found: options with their values, and other arguments. -/
structure Found (α : Type) where
  options : List (α × List α)
  positional : List (List α)
deriving DecidableEq

namespace Found

/-- One more option, in front. -/
def addOption (c : α) (value : List α) (found : Found α) : Found α :=
  { found with options := (c, value) :: found.options }

/-- One more other argument, in front. -/
def addPositional (arg : List α) (found : Found α) : Found α :=
  { found with positional := arg :: found.positional }

end Found

/-! ## Command lines -/

section Spells

variable (dash : α) (accepted : List α)

/-- A command line spells options with their values, and other arguments. -/
inductive Spells : List (List α) → Found α → Prop
  | nil : Spells [] ⟨[], []⟩
  | stop (args : List (List α)) : Spells ([dash, dash] :: args) ⟨[], args⟩
  | positional {arg : List α} {args : List (List α)} {found : Found α}
      (harg : ∀ c attached, arg ≠ dash :: c :: attached) (h : Spells args found) :
      Spells (arg :: args) (found.addPositional arg)
  | attached {c : α} {value : List α} {args : List (List α)} {found : Found α}
      (hc : c ∈ accepted) (hvalue : value ≠ []) (h : Spells args found) :
      Spells ((dash :: c :: value) :: args) (found.addOption c value)
  | separate {c : α} {value : List α} {args : List (List α)} {found : Found α}
      (hc : c ∈ accepted) (h : Spells args found) :
      Spells ([dash, c] :: value :: args) (found.addOption c value)

variable {dash accepted} {arg : List α} {args : List (List α)} {found : Found α}

/-- Options that are found are on the command line. -/
theorem Spells.mem_options (h : Spells dash accepted args found) {c : α} {value : List α}
    (hmem : (c, value) ∈ found.options) : ∃ attached, dash :: c :: attached ∈ args := by
  induction h with
  | nil => cases hmem
  | stop => cases hmem
  | positional _ _ ih =>
    obtain ⟨attached, harg⟩ := ih hmem
    exact ⟨attached, List.mem_cons_of_mem _ harg⟩
  | @attached c' value' _ _ _ _ _ ih =>
    rcases List.mem_cons.mp hmem with heq | hmem
    · obtain ⟨rfl, rfl⟩ := Prod.mk.inj heq
      exact ⟨_, List.mem_cons_self⟩
    · obtain ⟨attached, harg⟩ := ih hmem
      exact ⟨attached, List.mem_cons_of_mem _ harg⟩
  | @separate c' value' _ _ _ _ ih =>
    rcases List.mem_cons.mp hmem with heq | hmem
    · obtain ⟨rfl, rfl⟩ := Prod.mk.inj heq
      exact ⟨_, List.mem_cons_self⟩
    · obtain ⟨attached, harg⟩ := ih hmem
      exact ⟨attached, List.mem_cons_of_mem _ (List.mem_cons_of_mem _ harg)⟩

/-- Other arguments that are found are on the command line. -/
theorem Spells.mem_positional (h : Spells dash accepted args found) (hmem : arg ∈ found.positional) :
    arg ∈ args := by
  induction h with
  | nil => cases hmem
  | stop => exact List.mem_cons_of_mem _ hmem
  | positional _ _ ih =>
    rcases List.mem_cons.mp hmem with rfl | hmem
    · exact List.mem_cons_self
    · exact List.mem_cons_of_mem _ (ih hmem)
  | attached _ _ _ ih => exact List.mem_cons_of_mem _ (ih hmem)
  | separate _ _ ih => exact List.mem_cons_of_mem _ (List.mem_cons_of_mem _ (ih hmem))

end Spells

/-! ## Scanning -/

/-- What an argument is. -/
inductive Word (α : Type)
  /-- Two dashes. -/
  | stop
  | positional
  /-- An option, with what is attached to it. -/
  | option (c : α) (attached : List α)
  /-- An option that is not accepted. -/
  | unknown (c : α)

section Scan

variable [DecidableEq α] (dash : α) (accepted : List α)

/-- An argument where an option may stand. -/
def word : List α → Word α
  | [] => .positional
  | [_] => .positional
  | first :: c :: attached =>
    if first ≠ dash then .positional
    else if c = dash ∧ attached = [] then .stop
    else if c ∈ accepted then .option c attached
    else .unknown c

/-- The calls of `getopt`, given the option that waits for its value, if there is one. A mistake is
the option that is not accepted, or that has no value. -/
def scan : Option α → List (List α) → Except α (Found α)
  | none, [] => .ok ⟨[], []⟩
  | some c, [] => .error c
  | some c, value :: args => (scan none args).map (·.addOption c value)
  | none, arg :: args =>
    match word dash accepted arg with
    | .stop => .ok ⟨[], args⟩
    | .positional => (scan none args).map (·.addPositional arg)
    | .option c [] => scan (some c) args
    | .option c (a :: attached) => (scan none args).map (·.addOption c (a :: attached))
    | .unknown c => .error c

variable {dash accepted} {arg : List α} {args : List (List α)} {found : Found α}

theorem word_of_positional (harg : ∀ c attached, arg ≠ dash :: c :: attached) :
    word dash accepted arg = .positional := by
  rcases arg with _ | ⟨first, _ | ⟨c, attached⟩⟩
  · rfl
  · rfl
  · have hfirst : first ≠ dash := fun heq => harg c attached (heq ▸ rfl)
    rw [word, if_pos hfirst]

theorem word_cases (dash : α) (accepted arg : List α) :
    ((∀ c attached, arg ≠ dash :: c :: attached) ∧ word dash accepted arg = .positional) ∨
    (arg = [dash, dash] ∧ word dash accepted arg = .stop) ∨
    (∃ c attached, arg = dash :: c :: attached ∧ c ∈ accepted ∧
      word dash accepted arg = .option c attached) ∨
    ∃ c attached, arg = dash :: c :: attached ∧ word dash accepted arg = .unknown c := by
  by_cases hpos : ∀ c attached, arg ≠ dash :: c :: attached
  · exact Or.inl ⟨hpos, word_of_positional hpos⟩
  · simp only [not_forall, not_not] at hpos
    obtain ⟨c, attached, rfl⟩ := hpos
    right
    rw [word, if_neg (not_not.mpr rfl)]
    by_cases hstop : c = dash ∧ attached = []
    · obtain ⟨rfl, rfl⟩ := hstop
      exact Or.inl ⟨rfl, if_pos ⟨rfl, rfl⟩⟩
    · rw [if_neg hstop]
      by_cases hc : c ∈ accepted
      · exact Or.inr (Or.inl ⟨c, attached, rfl, hc, if_pos hc⟩)
      · exact Or.inr (Or.inr ⟨c, attached, rfl, if_neg hc⟩)

theorem word_of_mem (hdash : dash ∉ accepted) {c : α} (hc : c ∈ accepted) (attached : List α) :
    word dash accepted (dash :: c :: attached) = .option c attached := by
  have hne : ¬(c = dash ∧ attached = []) := fun h => hdash (h.1 ▸ hc)
  rw [word, if_neg (not_not.mpr rfl), if_neg hne, if_pos hc]

/-- What a command line spells is found. -/
theorem Spells.scan_eq_ok (hdash : dash ∉ accepted) (h : Spells dash accepted args found) :
    scan dash accepted none args = .ok found := by
  induction h with
  | nil => rfl
  | stop args => rw [scan, word, if_neg (not_not.mpr rfl), if_pos ⟨rfl, rfl⟩]
  | positional harg _ ih =>
    rw [scan, word_of_positional harg, ih]
    rfl
  | @attached c value args found hc hvalue _ ih =>
    obtain ⟨a, attached, rfl⟩ := List.exists_cons_of_ne_nil hvalue
    rw [scan, word_of_mem hdash hc, ih]
    rfl
  | separate hc _ ih =>
    rw [scan, word_of_mem hdash hc]
    show scan dash accepted (some _) _ = _
    rw [scan, ih]
    rfl

/-- What is found is spelled by the command line. -/
theorem spells_of_scan_eq_ok : ∀ {args : List (List α)} {found : Found α},
    scan dash accepted none args = .ok found → Spells dash accepted args found
  | [], found, h => by
    obtain rfl := Except.ok.inj h
    exact .nil
  | arg :: args, found, h => by
    rw [scan] at h
    rcases word_cases dash accepted arg with ⟨harg, hword⟩ | ⟨rfl, hword⟩ |
      ⟨c, attached, rfl, hc, hword⟩ | ⟨c, attached, rfl, hword⟩ <;> rw [hword] at h
    · obtain ⟨rest, hrest, rfl⟩ := Except.map_eq_ok.mp h
      exact .positional harg (spells_of_scan_eq_ok hrest)
    · obtain rfl := Except.ok.inj h
      exact .stop args
    · rcases attached with _ | ⟨a, attached⟩
      · rcases args with _ | ⟨value, args⟩
        · cases h
        · obtain ⟨rest, hrest, rfl⟩ := Except.map_eq_ok.mp h
          exact .separate hc (spells_of_scan_eq_ok hrest)
      · obtain ⟨rest, hrest, rfl⟩ := Except.map_eq_ok.mp h
        exact .attached hc (List.cons_ne_nil _ _) (spells_of_scan_eq_ok hrest)
    · cases h

/-- **The command lines without mistakes** are those that spell something. -/
theorem scan_eq_ok_iff (hdash : dash ∉ accepted) :
    scan dash accepted none args = .ok found ↔ Spells dash accepted args found :=
  ⟨spells_of_scan_eq_ok, fun h => h.scan_eq_ok hdash⟩

/-- **A mistake** is named by an option of the command line. -/
theorem exists_of_scan_eq_error : ∀ {args : List (List α)} {c : α},
    scan dash accepted none args = .error c → ∃ attached, dash :: c :: attached ∈ args
  | [], c, h => by cases h
  | arg :: args, c, h => by
    have hlater : scan dash accepted none args = .error c →
        ∃ attached, dash :: c :: attached ∈ arg :: args := fun h => by
      obtain ⟨attached, hmem⟩ := exists_of_scan_eq_error h
      exact ⟨attached, List.mem_cons_of_mem _ hmem⟩
    rw [scan] at h
    rcases word_cases dash accepted arg with ⟨-, hword⟩ | ⟨rfl, hword⟩ |
      ⟨c', attached, rfl, -, hword⟩ | ⟨c', attached, rfl, hword⟩ <;> rw [hword] at h
    · exact hlater (Except.map_eq_error.mp h)
    · cases h
    · rcases attached with _ | ⟨a, attached⟩
      · rcases args with _ | ⟨value, args⟩
        · obtain rfl := Except.error.inj h
          exact ⟨[], List.mem_cons_self⟩
        · obtain ⟨attached, hmem⟩ := exists_of_scan_eq_error (Except.map_eq_error.mp h)
          exact ⟨attached, List.mem_cons_of_mem _ (List.mem_cons_of_mem _ hmem)⟩
      · exact hlater (Except.map_eq_error.mp h)
    · obtain rfl := Except.error.inj h
      exact ⟨attached, List.mem_cons_self⟩

end Scan

/-! ## Values -/

section Values

variable [DecidableEq α] {options : List (α × List α)} {c : α} {value : List α}

/-- The value of an option, the last one if there are several. -/
def lastValue (c : α) (options : List (α × List α)) : Option (List α) :=
  (options.reverse.find? fun o => o.1 = c).map Prod.snd

theorem lastValue_nil (c : α) : lastValue c [] = none := rfl

theorem lastValue_concat (o : α × List α) :
    lastValue c (options ++ [o]) = if o.1 = c then some o.2 else lastValue c options := by
  rw [lastValue, List.reverse_append, List.reverse_singleton, List.singleton_append, List.find?_cons]
  split <;> simp_all [lastValue]

theorem mem_of_lastValue (h : lastValue c options = some value) : (c, value) ∈ options := by
  obtain ⟨o, ho, rfl⟩ := Option.map_eq_some_iff.mp h
  have hfound := List.find?_some ho
  have hc : o.1 = c := of_decide_eq_true hfound
  rw [← hc]
  exact List.mem_reverse.mp (List.mem_of_find?_eq_some ho)

theorem lastValue_eq_none : lastValue c options = none ↔ c ∉ options.map Prod.fst := by
  rw [lastValue, Option.map_eq_none_iff, List.find?_eq_none]
  constructor
  · rintro hall hmem
    obtain ⟨o, ho, rfl⟩ := List.mem_map.mp hmem
    exact hall o (List.mem_reverse.mpr ho) (decide_eq_true rfl)
  · intro hc o ho heq
    exact hc (List.mem_map.mpr ⟨o, List.mem_reverse.mp ho, of_decide_eq_true heq⟩)

/-- **The order of different options** does not matter. -/
theorem lastValue_eq_some_iff (hnodup : (options.map Prod.fst).Nodup) :
    lastValue c options = some value ↔ (c, value) ∈ options := by
  refine ⟨mem_of_lastValue, fun hmem => ?_⟩
  rcases hlast : lastValue c options with _ | value'
  · exact absurd (List.mem_map_of_mem hmem) (lastValue_eq_none.mp hlast)
  · have heq := List.inj_on_of_nodup_map hnodup (mem_of_lastValue hlast) hmem rfl
    rw [(Prod.mk.inj heq).2]

end Values

end Getopt
