import Mathlib.Data.List.Sort
import Mathlib.Data.List.Nodup
import Mathlib.Order.Lattice
import Mathlib.Tactic.Common

/-!
# Maps iterated in key order

A `SortedMap` is the list of its entries with strictly ascending keys, so iterating over the map is
reading the list from left to right. Insertion leaves an existing entry alone, as inserting into an
ordered map of the C++ standard library does; overwriting is `set`.

Everything about lookups is derived from one fact, `find?_eq_some`: a lookup returns `v` exactly
when `(k, v)` is an entry. Two maps with the same lookups are equal (`ext_find?`).

## Main definitions

* `SortedMap` — a list of entries and the proof that its keys ascend
* `find?`, `insert`, `set`, `erase`, `adjust`, `mapValues`, `filter`

## Main results

* `find?_insert`, `find?_set`, `find?_erase`, `find?_adjust`, `find?_mapValues`, `find?_filter`
* `ext_find?` — extensionality
* `keys_insert_perm`, `keys_erase`, `keys_adjust` — what each operation does to the keys
-/

/-- A map from `κ` to `ν`: its entries in strictly ascending order of keys. -/
@[ext] structure SortedMap (κ ν : Type) [LinearOrder κ] where
  /-- The entries, in the order an iterator visits them. -/
  entries : List (κ × ν)
  /-- The keys ascend strictly. -/
  sorted : (entries.map Prod.fst).Pairwise (· < ·)
deriving DecidableEq

namespace SortedMap

variable {κ ν ν' : Type} [LinearOrder κ]

/-! ### Reading -/

/-- The keys, in ascending order. -/
def keys (m : SortedMap κ ν) : List κ := m.entries.map Prod.fst

/-- The number of entries. -/
def size (m : SortedMap κ ν) : ℕ := m.entries.length

/-- The value stored under `k`. -/
def find? (m : SortedMap κ ν) (k : κ) : Option ν :=
  (m.entries.find? fun e => e.1 = k).map Prod.snd

instance : Membership κ (SortedMap κ ν) := ⟨fun m k => k ∈ m.keys⟩

instance (k : κ) (m : SortedMap κ ν) : Decidable (k ∈ m) := inferInstanceAs (Decidable (k ∈ m.keys))

instance : EmptyCollection (SortedMap κ ν) := ⟨⟨[], List.Pairwise.nil⟩⟩

theorem mem_keys {m : SortedMap κ ν} {k : κ} : k ∈ m.keys ↔ k ∈ m := Iff.rfl

theorem nodup_keys (m : SortedMap κ ν) : m.keys.Nodup := m.sorted.imp fun h => h.ne

theorem mem_iff {m : SortedMap κ ν} {k : κ} : k ∈ m ↔ ∃ v, (k, v) ∈ m.entries := by
  rw [← mem_keys, keys, List.mem_map]
  constructor
  · rintro ⟨⟨k', v⟩, h, rfl⟩
    exact ⟨v, h⟩
  · rintro ⟨v, h⟩
    exact ⟨(k, v), h, rfl⟩

/-- Two entries under one key are the same entry. -/
theorem eq_of_mem_entries {m : SortedMap κ ν} {k : κ} {v w : ν} (hv : (k, v) ∈ m.entries)
    (hw : (k, w) ∈ m.entries) : v = w := by
  have h := List.inj_on_of_nodup_map m.nodup_keys hv hw rfl
  exact (Prod.mk.inj h).2

/-- **A lookup reads an entry.** Every other lookup lemma goes through this one. -/
theorem find?_eq_some {m : SortedMap κ ν} {k : κ} {v : ν} :
    m.find? k = some v ↔ (k, v) ∈ m.entries := by
  constructor
  · intro h
    obtain ⟨⟨k', v'⟩, hf, rfl⟩ := Option.map_eq_some_iff.mp h
    have hk : k' = k := by simpa using List.find?_some hf
    subst hk
    exact List.mem_of_find?_eq_some hf
  · intro h
    cases hf : m.entries.find? fun e => e.1 = k with
    | none => exact absurd (decide_eq_true rfl) (List.find?_eq_none.mp hf (k, v) h)
    | some e =>
      obtain ⟨k', v'⟩ := e
      have hk : k' = k := by simpa using List.find?_some hf
      subst hk
      rw [find?, hf]
      exact congrArg some (eq_of_mem_entries (List.mem_of_find?_eq_some hf) h)

theorem find?_eq_none {m : SortedMap κ ν} {k : κ} : m.find? k = none ↔ k ∉ m := by
  rw [mem_iff, Option.eq_none_iff_forall_ne_some]
  simp [find?_eq_some]

theorem mem_iff_find? {m : SortedMap κ ν} {k : κ} : k ∈ m ↔ ∃ v, m.find? k = some v := by
  simp [mem_iff, find?_eq_some]

theorem mem_of_find? {m : SortedMap κ ν} {k : κ} {v : ν} (h : m.find? k = some v) : k ∈ m :=
  mem_iff_find?.mpr ⟨v, h⟩

@[simp] theorem entries_empty : (∅ : SortedMap κ ν).entries = [] := rfl

@[simp] theorem not_mem_empty (k : κ) : k ∉ (∅ : SortedMap κ ν) := List.not_mem_nil

theorem length_keys (m : SortedMap κ ν) : m.keys.length = m.size := List.length_map _

/-- **Extensionality.** A map is determined by its lookups. -/
theorem ext_find? {m m' : SortedMap κ ν} (h : ∀ k, m.find? k = m'.find? k) : m = m' := by
  have hs : ∀ x : SortedMap κ ν, x.entries.Pairwise (fun a b => a.1 < b.1) := fun x =>
    List.pairwise_map.mp x.sorted
  have hn : ∀ x : SortedMap κ ν, x.entries.Nodup := fun x =>
    (hs x).imp fun hab heq => absurd (heq ▸ hab) (lt_irrefl _)
  have hp : m.entries.Perm m'.entries := by
    refine (List.perm_ext_iff_of_nodup (hn m) (hn m')).mpr ?_
    rintro ⟨k, v⟩
    rw [← find?_eq_some, ← find?_eq_some, h]
  refine SortedMap.ext (hp.eq_of_pairwise ?_ (hs m) (hs m'))
  intro a b _ _ hab hba
  exact absurd hab (lt_asymm hba)

/-! ### Changing values -/

/-- Apply `f` to every value. -/
def mapValues (f : κ → ν → ν') (m : SortedMap κ ν) : SortedMap κ ν' :=
  ⟨m.entries.map fun e => (e.1, f e.1 e.2), by
    rw [List.map_map]
    exact m.sorted⟩

@[simp] theorem keys_mapValues (f : κ → ν → ν') (m : SortedMap κ ν) :
    (m.mapValues f).keys = m.keys := by
  simp [keys, mapValues, List.map_map, Function.comp_def]

@[simp] theorem mem_mapValues {f : κ → ν → ν'} {m : SortedMap κ ν} {k : κ} :
    k ∈ m.mapValues f ↔ k ∈ m := by
  rw [← mem_keys, keys_mapValues, mem_keys]

@[simp] theorem size_mapValues (f : κ → ν → ν') (m : SortedMap κ ν) :
    (m.mapValues f).size = m.size := List.length_map _

@[simp] theorem find?_mapValues (f : κ → ν → ν') (m : SortedMap κ ν) (k : κ) :
    (m.mapValues f).find? k = (m.find? k).map (f k) := by
  ext v
  rw [find?_eq_some, Option.map_eq_some_iff]
  simp only [mapValues, List.mem_map, Prod.mk.injEq, find?_eq_some]
  constructor
  · rintro ⟨⟨k', w⟩, hm, rfl, rfl⟩
    exact ⟨w, hm, rfl⟩
  · rintro ⟨w, hm, rfl⟩
    exact ⟨(k, w), hm, rfl, rfl⟩

/-- Apply `f` to the value under `k`, if there is one. -/
def adjust (k : κ) (f : ν → ν) (m : SortedMap κ ν) : SortedMap κ ν :=
  m.mapValues fun k' v => if k' = k then f v else v

@[simp] theorem keys_adjust (k : κ) (f : ν → ν) (m : SortedMap κ ν) :
    (m.adjust k f).keys = m.keys := keys_mapValues _ m

@[simp] theorem mem_adjust {k k' : κ} {f : ν → ν} {m : SortedMap κ ν} :
    k' ∈ m.adjust k f ↔ k' ∈ m := mem_mapValues

@[simp] theorem size_adjust (k : κ) (f : ν → ν) (m : SortedMap κ ν) :
    (m.adjust k f).size = m.size := size_mapValues _ m

theorem find?_adjust (k k' : κ) (f : ν → ν) (m : SortedMap κ ν) :
    (m.adjust k f).find? k' = (m.find? k').map fun v => if k' = k then f v else v :=
  find?_mapValues _ m k'

theorem find?_adjust_self {k : κ} {f : ν → ν} {m : SortedMap κ ν} :
    (m.adjust k f).find? k = (m.find? k).map f := by
  simp [find?_adjust]

theorem find?_adjust_of_ne {k k' : κ} {f : ν → ν} {m : SortedMap κ ν} (h : k' ≠ k) :
    (m.adjust k f).find? k' = m.find? k' := by
  simp [find?_adjust, h]

/-! ### Removing entries -/

/-- Keep the entries `p` holds of. -/
def filter (p : κ → ν → Bool) (m : SortedMap κ ν) : SortedMap κ ν :=
  ⟨m.entries.filter fun e => p e.1 e.2, m.sorted.sublist (List.filter_sublist.map _)⟩

theorem find?_filter_eq_some {p : κ → ν → Bool} {m : SortedMap κ ν} {k : κ} {v : ν} :
    (m.filter p).find? k = some v ↔ m.find? k = some v ∧ p k v := by
  simp [find?_eq_some, filter]

theorem find?_filter (p : κ → ν → Bool) (m : SortedMap κ ν) (k : κ) :
    (m.filter p).find? k = (m.find? k).filter (p k) := by
  ext v
  rw [find?_filter_eq_some, Option.filter_eq_some_iff]

/-- Remove the entry under `k`, if there is one. -/
def erase (k : κ) (m : SortedMap κ ν) : SortedMap κ ν := m.filter fun k' _ => k' ≠ k

theorem find?_erase (k k' : κ) (m : SortedMap κ ν) :
    (m.erase k).find? k' = if k' = k then none else m.find? k' := by
  rw [erase, find?_filter]
  by_cases h : k' = k
  · simp [h]
  · cases m.find? k' <;> simp [h]

@[simp] theorem mem_erase {k k' : κ} {m : SortedMap κ ν} : k' ∈ m.erase k ↔ k' ≠ k ∧ k' ∈ m := by
  by_cases h : k' = k <;> simp [mem_iff_find?, find?_erase, h]

theorem keys_erase [BEq κ] [LawfulBEq κ] (k : κ) (m : SortedMap κ ν) :
    (m.erase k).keys = m.keys.erase k := by
  rw [m.nodup_keys.erase_eq_filter, keys, keys, List.filter_map]
  refine congrArg _ (List.filter_congr fun e _ => ?_)
  by_cases h : e.1 = k <;> simp [h]

theorem erase_of_not_mem {k : κ} {m : SortedMap κ ν} (h : k ∉ m) : m.erase k = m := by
  refine ext_find? fun k' => ?_
  rw [find?_erase]
  split
  · rename_i hk
    exact (find?_eq_none.mpr (hk ▸ h)).symm
  · rfl

/-- An entry, and the rest of the map: what a sum or a count over the entries splits into. -/
theorem entries_perm_erase {k : κ} {v : ν} {m : SortedMap κ ν} (h : m.find? k = some v) :
    m.entries.Perm ((k, v) :: (m.erase k).entries) := by
  have hn : m.entries.Nodup := m.nodup_keys.of_map
  have hn' : ((k, v) :: (m.erase k).entries).Nodup := by
    refine List.nodup_cons.mpr ⟨fun hm => ?_, (m.erase k).nodup_keys.of_map⟩
    exact absurd (mem_erase.mp (mem_iff.mpr ⟨v, hm⟩)).1 (by simp)
  refine (List.perm_ext_iff_of_nodup hn hn').mpr ?_
  rintro ⟨k', w⟩
  rw [List.mem_cons, Prod.mk.injEq, ← find?_eq_some, ← find?_eq_some, find?_erase]
  by_cases hk : k' = k
  · simp [hk, h, eq_comm]
  · simp [hk]

theorem countP_entries {k : κ} {v : ν} {m : SortedMap κ ν} (h : m.find? k = some v)
    (p : κ × ν → Bool) :
    m.entries.countP p = (m.erase k).entries.countP p + if p (k, v) then 1 else 0 := by
  rw [(entries_perm_erase h).countP_eq, List.countP_cons]

theorem erase_adjust (k : κ) (f : ν → ν) (m : SortedMap κ ν) :
    (m.adjust k f).erase k = m.erase k := by
  refine ext_find? fun k' => ?_
  rw [find?_erase, find?_erase]
  by_cases h : k' = k
  · simp [h]
  · simp [h, find?_adjust]

/-- An adjustment that leaves the value as it is. -/
theorem adjust_of_find? {k : κ} {v : ν} {f : ν → ν} {m : SortedMap κ ν} (h : m.find? k = some v)
    (hf : f v = v) : m.adjust k f = m := by
  refine ext_find? fun k' => ?_
  rw [find?_adjust]
  by_cases hk : k' = k
  · simp [hk, h, hf]
  · simp [hk]

theorem adjust_adjust (k : κ) (f f' : ν → ν) (m : SortedMap κ ν) :
    (m.adjust k f).adjust k f' = m.adjust k (f' ∘ f) := by
  refine ext_find? fun k' => ?_
  rw [find?_adjust, find?_adjust, find?_adjust, Option.map_map]
  by_cases h : k' = k <;> simp [h, Function.comp_def]

/-- Counting after one entry has changed, with a predicate that may have changed there too. -/
theorem countP_adjust {k : κ} {v w : ν} {m : SortedMap κ ν} (h : m.find? k = some v)
    {p q : κ × ν → Bool} (hpq : ∀ e : κ × ν, e.1 ≠ k → p e = q e) :
    (m.adjust k fun _ => w).entries.countP q + (if p (k, v) then 1 else 0) =
      m.entries.countP p + if q (k, w) then 1 else 0 := by
  have hw : (m.adjust k fun _ => w).find? k = some w := by rw [find?_adjust_self, h]; rfl
  have hsame : (m.erase k).entries.countP p = (m.erase k).entries.countP q := by
    refine List.countP_congr fun e he => ?_
    have hne : e.1 ≠ k := (mem_erase.mp (mem_iff.mpr ⟨e.2, he⟩)).1
    rw [hpq e hne]
  rw [countP_entries hw, countP_entries h, erase_adjust, hsame]
  omega

/-- A change that a predicate does not see leaves the count as it was. -/
theorem countP_mapValues {f : κ → ν → ν'} {m : SortedMap κ ν} {p : κ × ν' → Bool} {q : κ × ν → Bool}
    (h : ∀ k v, p (k, f k v) = q (k, v)) :
    (m.mapValues f).entries.countP p = m.entries.countP q := by
  rw [mapValues, List.countP_map]
  exact List.countP_congr fun e _ => by rw [Function.comp_apply, h]

/-! ### Adding entries -/

/-- Put `(k, v)` at its place in a sorted list of entries, unless `k` is there already. -/
def insertEntry (k : κ) (v : ν) : List (κ × ν) → List (κ × ν)
  | [] => [(k, v)]
  | e :: es =>
    if k < e.1 then (k, v) :: e :: es
    else if k = e.1 then e :: es
    else e :: insertEntry k v es

theorem mem_insertEntry {k : κ} {v : ν} {e : κ × ν} : ∀ {es : List (κ × ν)},
    e ∈ insertEntry k v es → e = (k, v) ∨ e ∈ es
  | [], h => Or.inl (List.mem_singleton.mp h)
  | e' :: es, h => by
    rw [insertEntry] at h
    split at h
    · exact List.mem_cons.mp h
    · split at h
      · exact Or.inr h
      · rcases List.mem_cons.mp h with h | h
        · exact Or.inr (h ▸ List.mem_cons_self)
        · exact (mem_insertEntry h).imp_right (List.mem_cons_of_mem _)

theorem sorted_insertEntry (k : κ) (v : ν) : ∀ {es : List (κ × ν)},
    (es.map Prod.fst).Pairwise (· < ·) → ((insertEntry k v es).map Prod.fst).Pairwise (· < ·)
  | [], _ => List.pairwise_singleton _ _
  | e :: es, h => by
    have hcons := List.pairwise_cons.mp h
    rw [insertEntry]
    split
    · rename_i hlt
      refine List.pairwise_cons.mpr ⟨fun k' hk' => ?_, h⟩
      rcases List.mem_cons.mp hk' with rfl | hk'
      · exact hlt
      · exact hlt.trans (hcons.1 k' hk')
    · split
      · exact h
      · rename_i hge hne
        refine List.pairwise_cons.mpr ⟨fun k' hk' => ?_, sorted_insertEntry k v hcons.2⟩
        obtain ⟨x, hx, rfl⟩ := List.mem_map.mp hk'
        rcases mem_insertEntry hx with rfl | hx
        · exact lt_of_le_of_ne (not_lt.mp hge) (Ne.symm hne)
        · exact hcons.1 x.1 (List.mem_map_of_mem hx)

theorem insertEntry_perm {k : κ} {v : ν} : ∀ {es : List (κ × ν)}, k ∉ es.map Prod.fst →
    (insertEntry k v es).Perm ((k, v) :: es)
  | [], _ => List.Perm.refl _
  | e :: es, h => by
    simp only [List.map_cons, List.mem_cons, not_or] at h
    rw [insertEntry]
    split
    · exact List.Perm.refl _
    · rw [if_neg h.1]
      exact ((insertEntry_perm h.2).cons e).trans (List.Perm.swap ..)

theorem insertEntry_of_mem {k : κ} {v : ν} : ∀ {es : List (κ × ν)},
    (es.map Prod.fst).Pairwise (· < ·) → k ∈ es.map Prod.fst → insertEntry k v es = es
  | [], _, h => absurd h List.not_mem_nil
  | e :: es, hs, h => by
    have hcons := List.pairwise_cons.mp hs
    rw [insertEntry]
    rcases List.mem_cons.mp h with rfl | h
    · simp
    · have hlt := hcons.1 k h
      rw [if_neg (lt_asymm hlt), if_neg hlt.ne', insertEntry_of_mem hcons.2 h]

/-- Add the entry `(k, v)`; an entry that is already under `k` stays as it is. -/
def insert (k : κ) (v : ν) (m : SortedMap κ ν) : SortedMap κ ν :=
  ⟨insertEntry k v m.entries, sorted_insertEntry k v m.sorted⟩

theorem insert_of_mem {k : κ} {v : ν} {m : SortedMap κ ν} (h : k ∈ m) : m.insert k v = m :=
  SortedMap.ext (insertEntry_of_mem m.sorted h)

theorem entries_insert_perm {k : κ} {v : ν} {m : SortedMap κ ν} (h : k ∉ m) :
    (m.insert k v).entries.Perm ((k, v) :: m.entries) :=
  insertEntry_perm h

theorem countP_insert {k : κ} {v : ν} {m : SortedMap κ ν} (h : k ∉ m) (p : κ × ν → Bool) :
    (m.insert k v).entries.countP p = m.entries.countP p + if p (k, v) then 1 else 0 := by
  rw [(entries_insert_perm h).countP_eq, List.countP_cons]

theorem keys_insert_perm {k : κ} {v : ν} {m : SortedMap κ ν} (h : k ∉ m) :
    (m.insert k v).keys.Perm (k :: m.keys) :=
  (entries_insert_perm h).map Prod.fst

theorem size_insert {k : κ} {v : ν} {m : SortedMap κ ν} (h : k ∉ m) :
    (m.insert k v).size = m.size + 1 :=
  (entries_insert_perm h).length_eq

theorem find?_insert {k : κ} {v : ν} {m : SortedMap κ ν} (h : k ∉ m) (k' : κ) :
    (m.insert k v).find? k' = if k' = k then some v else m.find? k' := by
  ext w
  rw [find?_eq_some, (entries_insert_perm h).mem_iff, List.mem_cons, Prod.mk.injEq]
  by_cases hk : k' = k
  · have hnone : (k', w) ∉ m.entries := fun hw => h (hk ▸ mem_iff.mpr ⟨w, hw⟩)
    simp [hk, hk ▸ hnone, eq_comm]
  · simp [hk, find?_eq_some]

@[simp] theorem mem_insert {k k' : κ} {v : ν} {m : SortedMap κ ν} :
    k' ∈ m.insert k v ↔ k' = k ∨ k' ∈ m := by
  by_cases hk : k ∈ m
  · rw [insert_of_mem hk]
    exact ⟨Or.inr, fun h => h.elim (fun e => e ▸ hk) id⟩
  · rw [← mem_keys, (keys_insert_perm hk).mem_iff, List.mem_cons, mem_keys]

/-- Taking an entry out and putting it back with another value. -/
theorem insert_erase {k : κ} (v : ν) {m : SortedMap κ ν} (h : k ∈ m) :
    (m.erase k).insert k v = m.adjust k fun _ => v := by
  obtain ⟨w, hw⟩ := mem_iff_find?.mp h
  refine ext_find? fun k' => ?_
  rw [find?_insert (by simp), find?_erase, find?_adjust]
  by_cases hk : k' = k
  · simp [hk, hw]
  · simp [hk]

/-- Maps with the same keys have them in the same order. -/
theorem keys_congr {m : SortedMap κ ν} {m' : SortedMap κ ν'} (h : ∀ k, k ∈ m ↔ k ∈ m') :
    m.keys = m'.keys := by
  have hperm := (List.perm_ext_iff_of_nodup m.nodup_keys m'.nodup_keys).mpr h
  exact hperm.eq_of_pairwise (fun k k' _ _ hlt hlt' => absurd hlt' hlt.asymm) m.sorted m'.sorted

theorem size_congr {m : SortedMap κ ν} {m' : SortedMap κ ν'} (h : ∀ k, k ∈ m ↔ k ∈ m') :
    m.size = m'.size := by
  rw [← length_keys, ← length_keys, keys_congr h]

theorem size_erase {k : κ} {m : SortedMap κ ν} (h : k ∈ m) : (m.erase k).size + 1 = m.size := by
  obtain ⟨v, hv⟩ := mem_iff_find?.mp h
  exact (entries_perm_erase hv).length_eq.symm

/-- Store `v` under `k`, over the old value if there is one. -/
def set (k : κ) (v : ν) (m : SortedMap κ ν) : SortedMap κ ν :=
  if k ∈ m then m.adjust k fun _ => v else m.insert k v

@[simp] theorem find?_set (k k' : κ) (v : ν) (m : SortedMap κ ν) :
    (m.set k v).find? k' = if k' = k then some v else m.find? k' := by
  rw [set]
  split
  · rename_i hk
    rw [find?_adjust]
    by_cases h : k' = k
    · subst h
      obtain ⟨w, hw⟩ := mem_iff_find?.mp hk
      simp [hw]
    · simp [h]
  · rename_i hk
    exact find?_insert hk k'

theorem erase_set (k : κ) (v : ν) (m : SortedMap κ ν) : (m.set k v).erase k = m.erase k := by
  refine ext_find? fun k' => ?_
  rw [find?_erase, find?_erase, find?_set]
  split <;> rfl

theorem mem_set {k k' : κ} {v : ν} {m : SortedMap κ ν} : k' ∈ m.set k v ↔ k' = k ∨ k' ∈ m := by
  by_cases h : k' = k <;> simp [mem_iff_find?, find?_set, h]

/-- Storing the value that is there. -/
theorem set_of_find? {k : κ} {v : ν} {m : SortedMap κ ν} (h : m.find? k = some v) :
    m.set k v = m := by
  refine ext_find? fun k' => ?_
  rw [find?_set]
  split
  · rename_i hk
    rw [hk, h]
  · rfl

theorem keys_set_of_mem {k : κ} {v : ν} {m : SortedMap κ ν} (h : k ∈ m) :
    (m.set k v).keys = m.keys := by
  rw [set, if_pos h, keys_adjust]

end SortedMap
