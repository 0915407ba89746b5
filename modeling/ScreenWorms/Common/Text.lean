import ScreenWorms.Common.PlayerNames

/-!
# Numbers in decimal notation

Numbers are read from the command line and written to the graphical interface.

## Main definitions

* `isNonNegativeNumber`
* `valueOf` — what a text of digits says

## Main results

* `isNonNegativeNumber_decimal`, `valueOf_decimal` — what is written can be read
-/

namespace ScreenWorms

/-- `isdigit`. -/
def isDigit (c : Byte) : Bool := 48 ≤ c.val && c.val ≤ 57

/-- `isNonNegativeNumber`. -/
def isNonNegativeNumber (s : List Byte) : Bool := !s.isEmpty && s.all isDigit

/-- The number that digits say. -/
def valueOf (s : List Byte) : ℕ := s.foldl (fun n c => 10 * n + (c.val - 48)) 0

/-- The byte of an ASCII character. -/
def byteOf (c : Char) : Byte := Fin.ofNat 256 c.toNat

theorem decimal_eq (n : ℕ) : decimal n = (Nat.toDigits 10 n).map byteOf := by
  show (toString n).toList.map byteOf = _
  rw [Nat.toString_eq_ofList_toDigits, String.toList_ofList]

theorem toNat_of_isDigit {c : Char} (hc : c.isDigit = true) : 48 ≤ c.toNat ∧ c.toNat ≤ 57 :=
  Char.isDigit_iff_toNat.mp hc

theorem val_byteOf {c : Char} (hc : c.isDigit = true) : (byteOf c).val = c.toNat := by
  have hbounds := toNat_of_isDigit hc
  exact Nat.mod_eq_of_lt (by omega)

theorem isDigit_byteOf {c : Char} (hc : c.isDigit = true) : isDigit (byteOf c) = true := by
  simp only [isDigit, val_byteOf hc, Bool.and_eq_true, decide_eq_true_eq]
  exact toNat_of_isDigit hc

theorem isDigit_of_mem_decimal {n : ℕ} {c : Byte} (hc : c ∈ decimal n) : isDigit c = true := by
  rw [decimal_eq] at hc
  obtain ⟨d, hd, rfl⟩ := List.mem_map.mp hc
  exact isDigit_byteOf (Nat.isDigit_of_mem_toDigits (by decide) (by decide) hd)

theorem decimal_ne_nil (n : ℕ) : decimal n ≠ [] := by
  rw [decimal_eq]
  exact fun hnil => Nat.toDigits_ne_nil (List.map_eq_nil_iff.mp hnil)

theorem isNonNegativeNumber_decimal (n : ℕ) : isNonNegativeNumber (decimal n) = true := by
  rw [isNonNegativeNumber, Bool.and_eq_true, Bool.not_eq_true', List.isEmpty_eq_false_iff,
    List.all_eq_true]
  exact ⟨decimal_ne_nil n, fun c hc => isDigit_of_mem_decimal hc⟩

theorem foldl_byteOf : ∀ {digits : List Char} {init : ℕ}, (∀ c ∈ digits, c.isDigit = true) →
    (digits.map byteOf).foldl (fun n c => 10 * n + (c.val - 48)) init =
      Nat.ofDigitChars 10 digits init
  | [], _, _ => Nat.ofDigitChars_nil.symm
  | c :: digits, init, h => by
    rw [List.map_cons, List.foldl_cons, val_byteOf (h c List.mem_cons_self),
      Nat.ofDigitChars_cons]
    exact foldl_byteOf fun d hd => h d (List.mem_cons_of_mem _ hd)

/-- **What is written is read.** -/
theorem valueOf_decimal (n : ℕ) : valueOf (decimal n) = n := by
  rw [valueOf, decimal_eq, foldl_byteOf fun c hc =>
    Nat.isDigit_of_mem_toDigits (by decide) (by decide) hc]
  exact Nat.ofDigitChars_toDigits (by decide) (by decide)

end ScreenWorms
