import Mathlib.Data.Nat.ModEq

/-!
# Multiplicative congruential generators

Such a generator draws its seed first, and goes on from a value `v` to `v * a % m`. The seed need
not be below the modulus, so that the first value is special.

A value that is drawn again `d` draws later stays the same under multiplication by `a ^ d`. If
`a ^ d - 1` is prime to `m`, this can only happen to 0, which is drawn for ever once it is drawn.

## Main definitions

* `lehmer` — the `i`-th value drawn

## Main results

* `lehmer_succ` — the recurrence
* `lehmer_add_eq_self_iff` — when a value comes again after a given number of draws
-/

/-- The `i`-th value drawn by the generator with the multiplier `a` and the modulus `m`. -/
def lehmer (a m seed i : ℕ) : ℕ := if i = 0 then seed else seed * a ^ i % m

section Lehmer

variable {a m seed i d : ℕ}

@[simp] theorem lehmer_zero (a m seed : ℕ) : lehmer a m seed 0 = seed := rfl

theorem lehmer_of_ne_zero (hi : i ≠ 0) : lehmer a m seed i = seed * a ^ i % m := if_neg hi

/-- **The recurrence.** -/
theorem lehmer_succ (a m seed i : ℕ) : lehmer a m seed (i + 1) = lehmer a m seed i * a % m := by
  rw [lehmer_of_ne_zero (Nat.succ_ne_zero i), pow_succ, ← mul_assoc]
  rcases Nat.eq_zero_or_pos i with rfl | hi
  · rw [lehmer_zero, pow_zero, mul_one]
  · rw [lehmer_of_ne_zero hi.ne', Nat.mod_mul_mod]

theorem lehmer_lt (hm : 0 < m) (hi : i ≠ 0) : lehmer a m seed i < m := by
  rw [lehmer_of_ne_zero hi]
  exact Nat.mod_lt _ hm

/-- Drawing on from the `i`-th value. -/
theorem lehmer_add (a m seed i d : ℕ) :
    lehmer a m seed (i + d) = lehmer a m (lehmer a m seed i) d := by
  induction d with
  | zero => rfl
  | succ d ih => rw [← Nat.add_assoc, lehmer_succ, lehmer_succ, ih]

/-- All values are below a bound of the seed and the modulus. -/
theorem lehmer_lt_of_le {b : ℕ} (hm : 0 < m) (hmb : m ≤ b) (hseed : seed < b) (i : ℕ) :
    lehmer a m seed i < b := by
  rcases Nat.eq_zero_or_pos i with rfl | hi
  · exact hseed
  · exact (lehmer_lt hm hi.ne').trans_le hmb

section Repetition

variable (hm : 0 < m) (ha : m.Coprime a)

include ha in
/-- Multiples of the modulus are the seeds that lead to multiples of it. -/
theorem dvd_lehmer_iff : m ∣ lehmer a m seed i ↔ m ∣ seed := by
  induction i with
  | zero => rfl
  | succ i ih => rw [lehmer_succ, Nat.dvd_mod_iff dvd_rfl, ha.dvd_mul_right, ih]

variable (hpos : 0 < a) (hd : m.Coprime (a ^ d - 1))

include hm hpos hd

/-- Only the seed 0 comes again after `d` draws. -/
theorem lehmer_eq_self_iff (hne : d ≠ 0) : lehmer a m seed d = seed ↔ seed = 0 := by
  constructor
  · intro heq
    have hlt : seed < m := heq ▸ lehmer_lt hm hne
    rw [lehmer_of_ne_zero hne] at heq
    have hmod : seed ≡ seed * a ^ d [MOD m] := by
      rw [Nat.ModEq, heq, Nat.mod_eq_of_lt hlt]
    have hdvd : m ∣ seed * (a ^ d - 1) := by
      rw [Nat.mul_sub_one]
      exact (Nat.modEq_iff_dvd' (Nat.le_mul_of_pos_right _ (Nat.pow_pos hpos))).mp hmod
    exact Nat.eq_zero_of_dvd_of_lt (hd.dvd_mul_right.mp hdvd) hlt
  · rintro rfl
    rw [lehmer_of_ne_zero hne, zero_mul, Nat.zero_mod]

include ha

/-- **A value comes again** after `d` draws if it is the seed 0, or a later one of a seed that is a
multiple of the modulus. -/
theorem lehmer_add_eq_self_iff (hne : d ≠ 0) :
    lehmer a m seed (i + d) = lehmer a m seed i ↔ if i = 0 then seed = 0 else m ∣ seed := by
  rw [lehmer_add, lehmer_eq_self_iff hm hpos hd hne]
  split
  · rename_i hi
    rw [hi, lehmer_zero]
  · rename_i hi
    rw [← dvd_lehmer_iff ha (i := i)]
    exact ⟨fun hzero => hzero ▸ dvd_zero m,
      fun hdvd => Nat.eq_zero_of_dvd_of_lt hdvd (lehmer_lt hm hi)⟩

end Repetition

end Lehmer
