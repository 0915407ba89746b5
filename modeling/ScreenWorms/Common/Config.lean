import ScreenWorms.Common.Text
import ScreenWorms.ForStd.Getopt

/-!
# Parameters of the programs

Both programs take options with values, and most values are numbers within limits. The errors are
the texts that are printed before the program ends.

## Main definitions

* `strToU64`, `optionalParamValueToUint`, `parseCmdParameters`
* `Says` — which number a parameter is, if it may be left out

## Main results

* `optionalParamValueToUint_eq_ok` — which values are read, and as which number
* `parseCmdParameters_eq_ok` — what a command line gives
* `blames_of_parseCmdParameters`, `blames_of_valueOr` — errors name what is wrong
-/

namespace ScreenWorms

open Getopt

/-! ## Numbers -/

/-- `utils::strToU64`. Both errors have the same text. -/
def strToU64 (s : List Byte) : Except (List Byte) ℕ :=
  if !isNonNegativeNumber s then .error (ascii "invalid parameter value")
  else if 2 ^ 64 ≤ valueOf s then .error (ascii "invalid parameter value")
  else .ok (valueOf s)

/-- A type of unsigned numbers, and how a stream writes them. -/
structure UintType where
  bits : ℕ
  bits_le : bits ≤ 64
  write : ℕ → List Byte

/-- `uint8_t`, which is written as a character. -/
def uint8 : UintType := ⟨8, Nat.le_of_ble_eq_true rfl, fun n => [Fin.ofNat 256 n]⟩

def uint16 : UintType := ⟨16, Nat.le_of_ble_eq_true rfl, decimal⟩

def uint32 : UintType := ⟨32, Nat.le_of_ble_eq_true rfl, decimal⟩

/-- A number within limits. -/
abbrev Between (minValue maxValue : ℕ) := {n : ℕ // minValue ≤ n ∧ n ≤ maxValue}

/-- The text of `std::out_of_range`. -/
def outOfRange (T : UintType) (minValue maxValue : ℕ) : List Byte :=
  ascii "value out of allowed range [" ++ T.write minValue ++ ascii "; " ++ T.write maxValue ++
    ascii "]"

/-- `utils::optionalParamValueToUint`, of the option and its value. -/
def optionalParamValueToUint (T : UintType) (minValue maxValue : ℕ) (c : Byte) (value : List Byte) :
    Except (List Byte) (Between minValue maxValue) :=
  match strToU64 value with
  | .error what => .error (c :: ascii ": " ++ what)
  | .ok num =>
    let castNum := num % 2 ^ T.bits
    if h : num > 2 ^ T.bits - 1 ∨ castNum > maxValue ∨ castNum < minValue then
      .error (c :: ascii ": " ++ outOfRange T minValue maxValue)
    else .ok ⟨castNum, by omega⟩

/-- The number is the value, or the default if there is no value. -/
def Says (default : ℕ) (n : ℕ) : Option (List Byte) → Prop
  | none => n = default
  | some value => isNonNegativeNumber value = true ∧ valueOf value = n

variable {T : UintType} {minValue maxValue : ℕ} {c : Byte} {value e : List Byte}

theorem strToU64_eq_ok {n : ℕ} :
    strToU64 value = .ok n ↔ isNonNegativeNumber value = true ∧ valueOf value = n ∧ n < 2 ^ 64 := by
  rw [strToU64]
  by_cases hnumber : isNonNegativeNumber value = true
  · rw [if_neg (by simp [hnumber])]
    split
    · rename_i hbig
      exact iff_of_false (fun h => by cases h) fun ⟨_, hn, hlt⟩ => by omega
    · rename_i hsmall
      constructor
      · intro h
        obtain rfl := Except.ok.inj h
        exact ⟨hnumber, rfl, not_le.mp hsmall⟩
      · rintro ⟨-, rfl, -⟩
        rfl
  · rw [if_pos (by simp [hnumber])]
    exact iff_of_false (fun h => by cases h) fun h => hnumber h.1

/-- **Which values are read**, and as which number. -/
theorem optionalParamValueToUint_eq_ok (hmax : maxValue < 2 ^ T.bits)
    {n : Between minValue maxValue} : optionalParamValueToUint T minValue maxValue c value = .ok n ↔
      isNonNegativeNumber value = true ∧ valueOf value = n := by
  obtain ⟨n, hmin, hle⟩ := n
  have hlt : n < 2 ^ 64 :=
    hle.trans_lt (hmax.trans_le (Nat.pow_le_pow_right (by decide) T.bits_le))
  have hok : strToU64 value = .ok n ↔ isNonNegativeNumber value = true ∧ valueOf value = n := by
    rw [strToU64_eq_ok]
    exact ⟨fun h => ⟨h.1, h.2.1⟩, fun h => ⟨h.1, h.2, hlt⟩⟩
  rw [← hok, optionalParamValueToUint]
  rcases strToU64 value with what | num
  · exact iff_of_false (fun h => by cases h) fun h => by cases h
  · simp only [Except.ok.injEq]
    split
    · rename_i hbad
      refine iff_of_false (fun h => by cases h) ?_
      rintro rfl
      rw [Nat.mod_eq_of_lt (hle.trans_lt hmax)] at hbad
      omega
    · rename_i hgood
      have hcast : num % 2 ^ T.bits = num := Nat.mod_eq_of_lt (by
        have hpos := Nat.two_pow_pos T.bits
        omega)
      rw [Except.ok.injEq, Subtype.mk.injEq, hcast]

/-- An error names the option. -/
theorem optionalParamValueToUint_eq_error
    (h : optionalParamValueToUint T minValue maxValue c value = .error e) :
    ∃ what, e = c :: ascii ": " ++ what := by
  rw [optionalParamValueToUint] at h
  split at h
  · exact ⟨_, (Except.error.inj h).symm⟩
  · simp only at h
    split at h
    · exact ⟨_, (Except.error.inj h).symm⟩
    · cases h

/-! ## Parameters -/

/-- The values of options. -/
abbrev Params := SortedMap Byte (List Byte)

/-- `'-'`. -/
def dash : Byte := 45

/-- `utils::parseCmdParameters`: the last value of each option, and the other parameters. -/
def parseCmdParameters (accepted : List Byte) (args : List (List Byte)) :
    Except (List Byte) (Params × List (List Byte)) :=
  match scan dash accepted none args with
  | .error c => .error (c :: ascii ": " ++ ascii "unrecognized parameter or missing value")
  | .ok found => .ok (found.options.foldl (fun params o => params.set o.1 o.2) ∅, found.positional)

/-- `if ((it = params.find(c)) != params.end())`, where the member has a default. -/
def Params.valueOr {α : Type} (c : Byte) (default : α)
    (read : Byte → List Byte → Except (List Byte) α) (params : Params) : Except (List Byte) α :=
  match params.find? c with
  | none => .ok default
  | some value => read c value

/-- The error starts with an option or another parameter that is on the command line. -/
def Blames (args : List (List Byte)) (e : List Byte) : Prop :=
  ∃ name what, e = name ++ (ascii ": " ++ what) ∧
    (name ∈ args ∨ ∃ c attached, name = [c] ∧ dash :: c :: attached ∈ args)

variable {accepted : List Byte} {args : List (List Byte)} {params : Params}
  {options : List (Byte × List Byte)} {positional : List (List Byte)}

theorem find?_foldl_set (options : List (Byte × List Byte)) (c : Byte) :
    (options.foldl (fun params o => params.set o.1 o.2) (∅ : Params)).find? c =
      lastValue c options := by
  induction options using List.reverseRecOn with
  | nil => rfl
  | append_singleton options o ih =>
    rw [List.foldl_append, List.foldl_cons, List.foldl_nil, SortedMap.find?_set, ih,
      lastValue_concat]
    exact if_congr eq_comm rfl rfl

/-- **What a command line gives.** -/
theorem parseCmdParameters_eq_ok (hdash : dash ∉ accepted) :
    parseCmdParameters accepted args = .ok (params, positional) ↔
      ∃ options, Spells dash accepted args ⟨options, positional⟩ ∧
        ∀ c, params.find? c = lastValue c options := by
  simp only [← scan_eq_ok_iff hdash]
  rw [parseCmdParameters]
  constructor
  · intro h
    split at h
    · cases h
    · rename_i found hscan
      obtain ⟨rfl, rfl⟩ := Prod.mk.inj (Except.ok.inj h)
      exact ⟨found.options, hscan, find?_foldl_set found.options⟩
  · rintro ⟨options, hscan, hfind⟩
    have hparams : params = options.foldl (fun params o => params.set o.1 o.2) ∅ :=
      SortedMap.ext_find? fun c => (hfind c).trans (find?_foldl_set options c).symm
    rw [hscan, hparams]

theorem blames_of_parseCmdParameters (h : parseCmdParameters accepted args = .error e) :
    Blames args e := by
  rw [parseCmdParameters] at h
  split at h
  · rename_i c hscan
    obtain ⟨attached, hmem⟩ := exists_of_scan_eq_error hscan
    exact ⟨[c], _, (Except.error.inj h).symm, Or.inr ⟨c, attached, rfl, hmem⟩⟩
  · cases h

theorem exists_of_valueOr {α : Type} {default : α}
    {read : Byte → List Byte → Except (List Byte) α}
    (h : params.valueOr c default read = .error e) :
    ∃ value, params.find? c = some value ∧ read c value = .error e := by
  rw [Params.valueOr] at h
  split at h
  · cases h
  · rename_i value hvalue
    exact ⟨value, hvalue, h⟩

/-- A value that cannot be read is blamed. -/
theorem blames_of_valueOr {α : Type} {default : α}
    {read : Byte → List Byte → Except (List Byte) α}
    (hread : ∀ value e, read c value = .error e → ∃ what, e = c :: ascii ": " ++ what)
    (hspells : Spells dash accepted args ⟨options, positional⟩)
    (hparams : ∀ c, params.find? c = lastValue c options)
    (h : params.valueOr c default read = .error e) : Blames args e := by
  obtain ⟨value, hvalue, he⟩ := exists_of_valueOr h
  obtain ⟨what, rfl⟩ := hread value e he
  obtain ⟨attached, hmem⟩ := hspells.mem_options (mem_of_lastValue ((hparams c).symm.trans hvalue))
  exact ⟨[c], what, rfl, Or.inr ⟨c, attached, rfl, hmem⟩⟩

/-- A number that may be left out. -/
theorem valueOr_eq_ok (hmax : maxValue < 2 ^ T.bits) {default n : Between minValue maxValue} :
    params.valueOr c default (optionalParamValueToUint T minValue maxValue) = .ok n ↔
      Says default n (params.find? c) := by
  rw [Params.valueOr]
  split
  · rename_i hnone
    rw [hnone, Except.ok.injEq, Says, Subtype.ext_iff, eq_comm]
  · rename_i value hvalue
    rw [hvalue, optionalParamValueToUint_eq_ok hmax, Says]

end ScreenWorms
