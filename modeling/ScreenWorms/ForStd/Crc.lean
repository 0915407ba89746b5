import Mathlib.Data.List.Basic
import Mathlib.Logic.Function.Iterate
import Mathlib.Tactic.Common

/-!
# Cyclic redundancy checks

The reflected form of a CRC of any width: `shift p` divides by the polynomial `p` once, and
`feed p` takes in one bit of the input first. Both are linear in exclusive or, which is what makes
table-driven computation possible: `iterate_shift_eq` splits `k` shifts into those of the lowest
`k` bits, which a table can hold, and a plain move of the others.

If the highest bit of `p` is set, nothing is lost on the way. `run_injective` says so of the state,
and `run_bits_injective` of as many bits as the state is wide: a burst of errors that is not longer
than the checksum is always noticed.

## Main definitions

* `Crc.shift`, `Crc.feed`, `Crc.run`
* `Crc.lowBits` — the lowest bits of a number, lowest first

## Main results

* `Crc.run_lowBits` — taking in bits one by one is shifting them all at once
* `Crc.iterate_shift_eq` — the split a table relies on
* `Crc.run_burst_ne` — bursts are noticed
-/

namespace Crc

variable {w : ℕ} (p : BitVec w)

/-- One step of the division. -/
def shift (c : BitVec w) : BitVec w := if c.getLsbD 0 then (c >>> 1) ^^^ p else c >>> 1

/-- A single bit, in the lowest place. -/
def bit (b : Bool) : BitVec w := (BitVec.ofBool b).setWidth w

/-- Take in one bit. -/
def feed (c : BitVec w) (b : Bool) : BitVec w := shift p (c ^^^ bit b)

/-- Take in some bits. -/
def run (c : BitVec w) (bits : List Bool) : BitVec w := bits.foldl (feed p) c

/-- The lowest `k` bits, lowest first. -/
def lowBits (k : ℕ) (v : BitVec w) : List Bool := (List.range k).map v.getLsbD

@[simp] theorem run_cons (c : BitVec w) (b : Bool) (bits : List Bool) :
    run p c (b :: bits) = run p (feed p c b) bits := rfl

theorem run_append (c : BitVec w) (bits bits' : List Bool) :
    run p c (bits ++ bits') = run p (run p c bits) bits' := List.foldl_append

@[simp] theorem length_lowBits (k : ℕ) (v : BitVec w) : (lowBits k v).length = k := by
  simp [lowBits]

theorem lowBits_succ (k : ℕ) (v : BitVec w) :
    lowBits (k + 1) v = v.getLsbD 0 :: lowBits k (v >>> 1) := by
  rw [lowBits, List.range_succ_eq_map, List.map_cons, List.map_map, lowBits]
  congr 1
  refine List.map_congr_left fun i _ => ?_
  simp [Nat.add_comm]

theorem lowBits_congr {k : ℕ} {v v' : BitVec w} (h : ∀ i < k, v.getLsbD i = v'.getLsbD i) :
    lowBits k v = lowBits k v' :=
  List.map_congr_left fun i hi => h i (List.mem_range.mp hi)

/-! ### Linearity -/

theorem shift_eq (c : BitVec w) : shift p c = (c >>> 1) ^^^ if c.getLsbD 0 then p else 0#w := by
  rw [shift]
  split
  · rfl
  · rw [BitVec.xor_zero]

theorem shift_xor (a b : BitVec w) : shift p (a ^^^ b) = shift p a ^^^ shift p b := by
  have hselect : (if a.getLsbD 0 ^^ b.getLsbD 0 then p else 0#w) =
      (if a.getLsbD 0 then p else 0#w) ^^^ if b.getLsbD 0 then p else 0#w := by
    cases a.getLsbD 0 <;> cases b.getLsbD 0 <;> simp
  rw [shift_eq, shift_eq, shift_eq, BitVec.getLsbD_xor, BitVec.ushiftRight_xor_distrib, hselect]
  ac_rfl

theorem bit_ushiftRight (b : Bool) : (bit b : BitVec w) >>> 1 = 0#w := by
  refine BitVec.eq_of_getLsbD_eq fun i _ => ?_
  cases b <;> simp [bit]

theorem bit_getLsbD (v : BitVec w) : (bit (v.getLsbD 0) : BitVec w).getLsbD 0 = v.getLsbD 0 := by
  rcases w with _ | w
  · simp
  · simp [bit]

/-- The lowest bit of what comes next is taken in, and the others move down. -/
theorem shift_xor_eq (c v : BitVec w) :
    shift p (c ^^^ v) = feed p c (v.getLsbD 0) ^^^ (v >>> 1) := by
  rw [feed, shift_eq, shift_eq, BitVec.ushiftRight_xor_distrib, BitVec.ushiftRight_xor_distrib,
    bit_ushiftRight, BitVec.getLsbD_xor, BitVec.getLsbD_xor, bit_getLsbD, BitVec.xor_zero]
  ac_rfl

/-- **Several bits at once.** Shifting takes in the lowest `k` bits one by one, and moves the others
down. -/
theorem iterate_shift_xor : ∀ (k : ℕ) (c v : BitVec w),
    (shift p)^[k] (c ^^^ v) = run p c (lowBits k v) ^^^ (v >>> k)
  | 0, c, v => by rw [BitVec.ushiftRight_zero]; rfl
  | k + 1, c, v => by
    rw [Function.iterate_succ_apply, shift_xor_eq, iterate_shift_xor k, lowBits_succ, run_cons,
      Nat.add_comm k 1, BitVec.shiftRight_add]

theorem run_lowBits {k : ℕ} {v : BitVec w} (hv : v >>> k = 0#w) (c : BitVec w) :
    run p c (lowBits k v) = (shift p)^[k] (c ^^^ v) := by
  rw [iterate_shift_xor, hv, BitVec.xor_zero]

/-- **The table.** Shifting `v` is shifting its lowest bits, and moving the others down. -/
theorem iterate_shift_eq {k : ℕ} {v low : BitVec w} (hlow : low >>> k = 0#w)
    (hbits : ∀ i < k, low.getLsbD i = v.getLsbD i) :
    (shift p)^[k] v = (shift p)^[k] low ^^^ (v >>> k) := by
  have hv := iterate_shift_xor p k 0#w v
  have hl := run_lowBits p hlow 0#w
  rw [BitVec.zero_xor] at hv hl
  rw [hv, ← lowBits_congr hbits, hl]

/-! ### Nothing is lost -/

section Injective

variable {p} (hp : p.msb = true)

include hp

theorem shift_eq_zero {c : BitVec w} (h : shift p c = 0#w) : c = 0#w := by
  rw [shift_eq, BitVec.xor_eq_zero_iff] at h
  rcases hlast : c.getLsbD 0 with _ | _
  · -- nothing is divided off, so that `c` has only moved down
    rw [hlast, if_neg Bool.false_ne_true] at h
    refine BitVec.eq_of_getLsbD_eq fun i _ => ?_
    rw [BitVec.getLsbD_zero]
    rcases i with _ | i
    · exact hlast
    · have hi : (c >>> 1).getLsbD i = false := by rw [h, BitVec.getLsbD_zero]
      rwa [BitVec.getLsbD_ushiftRight, Nat.add_comm] at hi
  · rw [hlast, if_pos rfl] at h
    have hmsb : (c >>> 1).msb = false := by simp [BitVec.msb_ushiftRight]
    rw [h, hp] at hmsb
    cases hmsb

theorem shift_injective : Function.Injective (shift p) := by
  intro a b h
  have hzero : shift p (a ^^^ b) = 0#w := by
    rw [shift_xor, h, BitVec.xor_self]
  exact BitVec.xor_eq_zero_iff.mp (shift_eq_zero hp hzero)

theorem feed_injective (b : Bool) : Function.Injective fun c => feed p c b := by
  intro c c' h
  have hxor := shift_injective hp h
  rwa [BitVec.xor_left_inj] at hxor

/-- **The state is not lost.** -/
theorem run_injective (bits : List Bool) : Function.Injective fun c => run p c bits := by
  induction bits with
  | nil => exact fun _ _ h => h
  | cons b bits ih => exact ih.comp (feed_injective hp b)

/-- **The input is not lost** as long as it is not longer than the state. -/
theorem run_bits_injective {bits bits' : List Bool} {c : BitVec w} (hlen : bits.length ≤ w)
    (hlen' : bits'.length = bits.length) (h : run p c bits = run p c bits') : bits = bits' := by
  have pack : ∀ bits : List Bool, bits.length ≤ w →
      ∃ v : BitVec w, lowBits bits.length v = bits ∧ v >>> bits.length = 0#w := by
    intro bits hlen
    refine ⟨(BitVec.ofBoolListLE bits).setWidth w, List.ext_getElem (by simp) ?_, ?_⟩
    · intro i hi hi'
      have hw := Nat.lt_of_lt_of_le hi' hlen
      simp only [lowBits, List.getElem_map, List.getElem_range, BitVec.getLsbD_setWidth,
        BitVec.getLsbD_ofBoolListLE]
      simp [hi', hw]
    · refine BitVec.eq_of_getLsbD_eq fun i _ => ?_
      rw [BitVec.getLsbD_ushiftRight, BitVec.getLsbD_setWidth, BitVec.getLsbD_ofBoolListLE]
      simp
  obtain ⟨v, hv, hvzero⟩ := pack bits hlen
  obtain ⟨v', hv', hvzero'⟩ := pack bits' (hlen'.symm ▸ hlen)
  rw [← hv, ← hv', run_lowBits p hvzero, run_lowBits p hvzero', hlen'] at h
  have hxor := (shift_injective hp).iterate _ h
  rw [BitVec.xor_right_inj] at hxor
  rw [← hv, ← hv', hlen', hxor]

/-- **A burst is noticed**, whatever lies before and behind it. -/
theorem run_burst_ne {burst burst' : List Bool} (hlen : burst.length ≤ w)
    (hlen' : burst'.length = burst.length) (hne : burst ≠ burst') (c : BitVec w)
    (before after : List Bool) :
    run p c (before ++ (burst ++ after)) ≠ run p c (before ++ (burst' ++ after)) := by
  intro h
  rw [run_append, run_append, run_append, run_append] at h
  exact hne (run_bits_injective hp hlen hlen' (run_injective hp after h))

end Injective

end Crc
