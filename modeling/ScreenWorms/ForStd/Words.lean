import Mathlib.Algebra.BigOperators.Group.List.Basic
import Mathlib.Algebra.Order.BigOperators.Group.List
import Mathlib.Algebra.Order.Ring.Nat
import Mathlib.Data.Finset.Card

/-!
# Words between separators

A list is cut into words at its separators. Every word but one is followed by a separator, which
bounds the lengths of the words by the length of the list. Words that are all different are long
together: there are no more words of one letter than letters, and the others have two at least.

## Main results

* `List.splitOnP_cons_cases`, `List.splitOnP_map`, `List.forall_mem_splitOnP`
* `List.sum_length_filter_splitOnP_le` — how long the words in a list are together
* `List.two_mul_length_le` — how long different words are together
-/

namespace List

variable {α β : Type}

/-! ### Cutting a list -/

/-- One element more. -/
theorem splitOnP_cons_cases (p : α → Bool) (x : α) (l : List α) : ∃ w ws, l.splitOnP p = w :: ws ∧
    (x :: l).splitOnP p = if p x then [] :: w :: ws else (x :: w) :: ws := by
  obtain ⟨w, ws, hl⟩ := exists_cons_of_ne_nil (splitOnP_ne_nil p l)
  refine ⟨w, ws, hl, ?_⟩
  rw [splitOnP_cons_eq_if_modifyHead, hl, modifyHead_cons]

theorem splitOnP_map (f : β → α) (p : α → Bool) (l : List β) :
    (l.map f).splitOnP p = (l.splitOnP fun x => p (f x)).map (map f) := by
  induction l with
  | nil => rfl
  | cons x l ih =>
    obtain ⟨w, ws, hl, hcons⟩ := splitOnP_cons_cases (fun x => p (f x)) x l
    rw [map_cons, splitOnP_cons_eq_if_modifyHead, ih, hl, hcons]
    split <;> rfl

/-- The pieces have no separators in them. -/
theorem forall_mem_splitOnP (p : α → Bool) (l : List α) :
    ∀ w ∈ l.splitOnP p, ∀ c ∈ w, p c = false := by
  induction l with
  | nil => exact forall_mem_singleton.mpr fun c hc => absurd hc not_mem_nil
  | cons x l ih =>
    obtain ⟨w, ws, hl, hcons⟩ := splitOnP_cons_cases p x l
    rw [hl, forall_mem_cons] at ih
    rw [hcons]
    split
    · exact forall_mem_cons.mpr ⟨fun c hc => absurd hc not_mem_nil, forall_mem_cons.mpr ih⟩
    · rename_i hx
      exact forall_mem_cons.mpr
        ⟨forall_mem_cons.mpr ⟨Bool.eq_false_iff.mpr hx, ih.1⟩, ih.2⟩

/-! ### Lengths -/

/-- Every piece but the last is followed by a separator. -/
theorem sum_length_splitOnP (p : α → Bool) (l : List α) :
    ((l.splitOnP p).map fun w => w.length + 1).sum = l.length + 1 := by
  induction l with
  | nil => rfl
  | cons x l ih =>
    obtain ⟨w, ws, hl, hcons⟩ := splitOnP_cons_cases p x l
    rw [hl, map_cons, sum_cons] at ih
    rw [hcons]
    split
    · rw [map_cons, map_cons, sum_cons, sum_cons, length_nil, length_cons]
      omega
    · rw [map_cons, sum_cons, length_cons, length_cons]
      omega

/-- Some of the pieces, each with a separator. -/
theorem sum_length_filter_splitOnP_le (p : α → Bool) (q : List α → Bool) (l : List α) :
    (((l.splitOnP p).filter q).map length).sum + ((l.splitOnP p).filter q).length ≤
      l.length + 1 := by
  have hsub : (((l.splitOnP p).filter q).map fun w => w.length + 1).Sublist
      ((l.splitOnP p).map fun w => w.length + 1) := filter_sublist.map _
  have hle := hsub.sum_le_sum fun n _ => Nat.zero_le n
  rw [sum_length_splitOnP, sum_map_add, map_const', sum_replicate_nat, Nat.mul_one] at hle
  exact hle

/-! ### Different words -/

variable {letters : Finset α} {ws : List (List α)}

/-- Different words of one letter are not more than there are letters. -/
theorem countP_length_eq_one_le (hnodup : ws.Nodup)
    (hletters : ∀ w ∈ ws, ∀ c ∈ w, c ∈ letters) :
    ws.countP (fun w => w.length = 1) ≤ letters.card := by
  have hsub : ws.filter (fun w => w.length = 1) ⊆ letters.toList.map fun c => [c] := by
    intro w hw
    obtain ⟨hw, hone⟩ := mem_filter.mp hw
    obtain ⟨c, rfl⟩ := length_eq_one_iff.mp (of_decide_eq_true hone)
    have hc : c ∈ letters := hletters [c] hw c (mem_singleton_self c)
    exact mem_map.mpr ⟨c, Finset.mem_toList.mpr hc, rfl⟩
  have hle := (hnodup.filter _).length_le_of_subset hsub
  rwa [length_map, Finset.length_toList, ← countP_eq_length_filter] at hle

/-- A word that is not of one letter has two at least. -/
theorem two_mul_length_le_countP (hne : ∀ w ∈ ws, w ≠ []) :
    2 * ws.length ≤ (ws.map length).sum + ws.countP fun w => w.length = 1 := by
  induction ws with
  | nil => exact Nat.zero_le _
  | cons w ws ih =>
    have hpos : 0 < w.length := length_pos_iff.mpr (hne w mem_cons_self)
    have hrest := ih fun v hv => hne v (mem_cons_of_mem _ hv)
    rw [length_cons, map_cons, sum_cons, countP_cons]
    by_cases hone : w.length = 1
    · rw [if_pos (decide_eq_true hone)]
      omega
    · rw [if_neg (by simpa using hone)]
      omega

/-- **Different words are long together.** -/
theorem two_mul_length_le (hnodup : ws.Nodup) (hne : ∀ w ∈ ws, w ≠ [])
    (hletters : ∀ w ∈ ws, ∀ c ∈ w, c ∈ letters) :
    2 * ws.length ≤ (ws.map length).sum + letters.card :=
  (two_mul_length_le_countP hne).trans
    (Nat.add_le_add_left (countP_length_eq_one_le hnodup hletters) _)

end List
