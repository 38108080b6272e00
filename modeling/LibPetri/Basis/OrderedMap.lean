import Mathlib

/-! # Insertion-ordered maps

The map of the source language: distinct keys, iterated in the order of their first insertion.
Setting a key that is present keeps its place; deleting and setting it again moves it to the end.
-/

namespace LibPetri.Basis

/-- A map whose entries are listed in insertion order. -/
structure OrderedMap (K V : Type) where
  entries : List (K × V)
  nodup : (entries.map Prod.fst).Nodup
  deriving DecidableEq

namespace OrderedMap

variable {K V : Type} [DecidableEq K]

def empty : OrderedMap K V := ⟨[], List.nodup_nil⟩

def keys (m : OrderedMap K V) : List K := m.entries.map Prod.fst

def values (m : OrderedMap K V) : List V := m.entries.map Prod.snd

def size (m : OrderedMap K V) : Nat := m.entries.length

def get? (m : OrderedMap K V) (k : K) : Option V := m.entries.lookup k

/-- Replaces the value of `k` where it stands. -/
def replaceIn (k : K) (v : V) (entries : List (K × V)) : List (K × V) :=
  entries.map fun e => if e.1 = k then (k, v) else e

theorem keys_replaceIn (k : K) (v : V) (entries : List (K × V)) :
    (replaceIn k v entries).map Prod.fst = entries.map Prod.fst := by
  induction entries with
  | nil => rfl
  | cons e entries ih =>
    simp only [replaceIn, List.map_cons, List.map_map] at ih ⊢
    rw [ih]
    split
    next h => simp [h]
    next => rfl

def set (m : OrderedMap K V) (k : K) (v : V) : OrderedMap K V :=
  if h : k ∈ m.entries.map Prod.fst then
    ⟨replaceIn k v m.entries, by rw [keys_replaceIn]; exact m.nodup⟩
  else
    ⟨m.entries ++ [(k, v)], by
      rw [List.map_append, List.nodup_append]
      refine ⟨m.nodup, by simp, ?_⟩
      intro a ha b hb same
      simp only [List.map_cons, List.map_nil, List.mem_singleton] at hb
      exact h (hb ▸ same ▸ ha)⟩

def delete (m : OrderedMap K V) (k : K) : OrderedMap K V :=
  ⟨m.entries.filter fun e => e.1 ≠ k, (List.Sublist.map _ List.filter_sublist).nodup m.nodup⟩

/-! ## Lookup -/

@[simp] theorem get?_empty (k : K) : (empty : OrderedMap K V).get? k = none := rfl

theorem lookup_eq_none_iff (entries : List (K × V)) (k : K) :
    entries.lookup k = none ↔ k ∉ entries.map Prod.fst := by
  induction entries with
  | nil => simp
  | cons e entries ih =>
    obtain ⟨a, v⟩ := e
    by_cases h : k = a
    · subst h; simp
    · have : (k == a) = false := by simpa using h
      simp only [List.lookup_cons, this, ih, List.map_cons, List.mem_cons, h, false_or]

theorem lookup_replaceIn (k j : K) (v : V) (entries : List (K × V)) :
    (replaceIn k v entries).lookup j =
      if j = k then (if k ∈ entries.map Prod.fst then some v else none) else entries.lookup j := by
  induction entries with
  | nil => simp [replaceIn]
  | cons e entries ih =>
    obtain ⟨a, w⟩ := e
    have ih : (entries.map fun e => if e.1 = k then (k, v) else e).lookup j = _ := ih
    simp only [replaceIn, List.map_cons]
    by_cases ha : a = k
    · subst ha
      by_cases hj : j = a
      · subst hj; simp
      · have : (j == a) = false := by simpa using hj
        simp only [↓reduceIte, List.lookup_cons, this, hj]
        rw [ih, if_neg hj]
    · by_cases hj : j = k
      · subst hj
        have hne : ¬ j = a := fun h => ha h.symm
        have : (j == a) = false := by simpa using hne
        simp only [ha, ↓reduceIte, List.lookup_cons, this, List.mem_cons, hne, false_or]
        rw [ih, if_pos rfl]
      · simp only [ha, ↓reduceIte, List.lookup_cons, hj]
        rw [ih, if_neg hj]

theorem lookup_append_singleton (entries : List (K × V)) (k j : K) (v : V)
    (absent : k ∉ entries.map Prod.fst) :
    (entries ++ [(k, v)]).lookup j = if j = k then some v else entries.lookup j := by
  induction entries with
  | nil =>
    by_cases hj : j = k
    · subst hj; simp
    · have : (j == k) = false := by simpa using hj
      simp [List.lookup_cons, this, hj]
  | cons e entries ih =>
    obtain ⟨a, w⟩ := e
    simp only [List.map_cons, List.mem_cons, not_or] at absent
    simp only [List.cons_append, List.lookup_cons]
    by_cases hja : j = a
    · subst hja
      have : ¬ j = k := fun h => absent.1 h.symm
      simp [this]
    · have : (j == a) = false := by simpa using hja
      simp only [this]
      exact ih absent.2

@[simp] theorem get?_set (m : OrderedMap K V) (k j : K) (v : V) :
    (m.set k v).get? j = if j = k then some v else m.get? j := by
  rw [set, get?]
  split
  next present => simp only [lookup_replaceIn, present, ↓reduceIte, get?]
  next absent => exact lookup_append_singleton _ _ _ _ absent

theorem lookup_filter_ne (entries : List (K × V)) (k j : K) :
    (entries.filter fun e => e.1 ≠ k).lookup j = if j = k then none else entries.lookup j := by
  induction entries with
  | nil => simp
  | cons e entries ih =>
    obtain ⟨a, w⟩ := e
    by_cases ha : a = k
    · subst ha
      rw [List.filter_cons_of_neg (by simp), ih]
      by_cases hj : j = a
      · simp [hj]
      · have : (j == a) = false := by simpa using hj
        simp [hj, List.lookup_cons, this]
    · rw [List.filter_cons_of_pos (by simpa using ha), List.lookup_cons, List.lookup_cons, ih]
      by_cases hj : j = a
      · subst hj
        simp [ha]
      · have : (j == a) = false := by simpa using hj
        simp only [this]

@[simp] theorem get?_delete (m : OrderedMap K V) (k j : K) :
    (m.delete k).get? j = if j = k then none else m.get? j :=
  lookup_filter_ne _ _ _

theorem get?_eq_none_iff (m : OrderedMap K V) (k : K) : m.get? k = none ↔ k ∉ m.keys :=
  lookup_eq_none_iff _ _

theorem lookup_eq_some_iff {entries : List (K × V)} (nodup : (entries.map Prod.fst).Nodup)
    {k : K} {v : V} : entries.lookup k = some v ↔ (k, v) ∈ entries := by
  induction entries with
  | nil => simp
  | cons e entries ih =>
    obtain ⟨a, w⟩ := e
    simp only [List.map_cons, List.nodup_cons] at nodup
    by_cases h : k = a
    · subst h
      have notin : (k, v) ∉ entries := fun h => nodup.1 (List.mem_map_of_mem h)
      simp [notin, eq_comm]
    · have : (k == a) = false := by simpa using h
      simp only [List.lookup_cons, this, ih nodup.2, List.mem_cons, Prod.mk.injEq, h, false_and,
        false_or]

theorem get?_eq_some_iff (m : OrderedMap K V) {k : K} {v : V} :
    m.get? k = some v ↔ (k, v) ∈ m.entries :=
  lookup_eq_some_iff m.nodup

/-! ## Keys and size -/

theorem keys_set (m : OrderedMap K V) (k : K) (v : V) :
    (m.set k v).keys = if k ∈ m.keys then m.keys else m.keys ++ [k] := by
  by_cases present : k ∈ m.entries.map Prod.fst
  · rw [if_pos (show k ∈ m.keys from present), keys, set, dif_pos present]
    exact keys_replaceIn _ _ _
  · rw [if_neg (show k ∉ m.keys from present), keys, set, dif_neg present, List.map_append]
    rfl

theorem size_set_of_absent (m : OrderedMap K V) {k : K} (v : V) (absent : m.get? k = none) :
    (m.set k v).size = m.size + 1 := by
  rw [get?_eq_none_iff] at absent
  have := congrArg List.length (keys_set m k v)
  rw [if_neg absent] at this
  simpa [keys, size] using this

theorem size_set_of_present (m : OrderedMap K V) {k : K} (v : V) (present : (m.get? k).isSome) :
    (m.set k v).size = m.size := by
  have mem : k ∈ m.keys := by
    by_contra absent
    rw [(m.get?_eq_none_iff k).mpr absent] at present
    cases present
  have := congrArg List.length (keys_set m k v)
  rw [if_pos mem] at this
  simpa [keys, size] using this

theorem size_eq_zero_iff (m : OrderedMap K V) : m.size = 0 ↔ ∀ k, m.get? k = none := by
  constructor
  · intro h k
    rw [size, List.length_eq_zero_iff] at h
    rw [get?, h]
    rfl
  · intro h
    rw [size, List.length_eq_zero_iff]
    refine List.eq_nil_iff_forall_not_mem.mpr fun e he => ?_
    have := (m.get?_eq_none_iff e.1).mp (h e.1)
    exact this (List.mem_map_of_mem he)

theorem filter_fst_ne_length {entries : List (K × V)} (nodup : (entries.map Prod.fst).Nodup)
    {k : K} (present : k ∈ entries.map Prod.fst) :
    (entries.filter fun e => e.1 ≠ k).length + 1 = entries.length := by
  induction entries with
  | nil => simp at present
  | cons e entries ih =>
    simp only [List.map_cons, List.nodup_cons, List.mem_cons] at nodup present
    by_cases h : e.1 = k
    · have : entries.filter (fun e => e.1 ≠ k) = entries := by
        refine List.filter_eq_self.mpr fun x hx => ?_
        have : x.1 ≠ k := fun hxk => nodup.1 (h ▸ hxk ▸ List.mem_map_of_mem hx)
        simpa using this
      rw [List.filter_cons_of_neg (by simpa using h), this, List.length_cons]
    · have tail := ih nodup.2 (present.resolve_left fun hk => h hk.symm)
      rw [List.filter_cons_of_pos (by simpa using h), List.length_cons, List.length_cons]
      omega

theorem size_delete_of_present (m : OrderedMap K V) {k : K} {v : V} (present : m.get? k = some v) :
    (m.delete k).size + 1 = m.size :=
  filter_fst_ne_length m.nodup (List.mem_map_of_mem (m.get?_eq_some_iff.mp present))

theorem set_of_absent (m : OrderedMap K V) {k : K} (v : V) (absent : m.get? k = none) :
    (m.set k v).entries = m.entries ++ [(k, v)] := by
  have absent : k ∉ m.entries.map Prod.fst := (m.get?_eq_none_iff k).mp absent
  rw [set, dif_neg absent]

end OrderedMap

end LibPetri.Basis
