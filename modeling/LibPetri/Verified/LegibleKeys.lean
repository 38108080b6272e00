import LibPetri.Basis.Delimited
import LibPetri.Verified.UntimedGraph

/-! # Keys of names with colons

The place of a mark has a colon in its name, where a key that is read from the front breaks off its first entry too
soon.  Read from behind, an entry ends in its count, which has no colon.  So keys tell markings apart where no name has a
comma or a closing brace.
-/

namespace LibPetri.Verified

open LibPetri.Basis LibPetri.Core LibPetri.Runtime LibPetri.Verification MarkingState

/-- A name without the characters that end an entry of a key. -/
def Legible (place : PlaceName) : Prop := ',' ∉ place.toList ∧ '}' ∉ place.toList

instance (place : PlaceName) : Decidable (Legible place) := inferInstanceAs (Decidable (_ ∧ _))

/-! ## An entry -/

section Entries

variable {e e' : PlaceName × Nat}

/-- The characters of an entry: a name, a colon and a count. -/
def countText (e : PlaceName × Nat) : List Char := e.1.toList ++ ':' :: Nat.toDigits 10 e.2

/-- The colon before the count is the last one. -/
theorem countText_inj (same : countText e = countText e') : e = e' := by
  have mirrored (e : PlaceName × Nat) :
      (countText e).reverse = (Nat.toDigits 10 e.2).reverse ++ ':' :: e.1.toList.reverse := by
    simp [countText]
  have digits (n : Nat) : ∀ c ∈ (Nat.toDigits 10 n).reverse, c.isDigit = true := fun c mem =>
    digit_ne (List.mem_reverse.mp mem)
  have backwards := congrArg List.reverse same
  rw [mirrored, mirrored] at backwards
  obtain ⟨count, -, name⟩ := append_cons_inj (digits e.2) (by decide) (digits e'.2) (by decide) backwards
  exact Prod.ext (String.toList_inj.mp (List.reverse_injective name)) (toDigits_inj (List.reverse_injective count))

/-- Nothing in an entry ends it. -/
theorem inside_countText (legible : Legible e.1) : ∀ c ∈ countText e, c ≠ ',' ∧ c ≠ '}' := by
  intro c mem
  rcases List.mem_append.mp mem with name | rest
  · exact ⟨fun comma => legible.1 (comma ▸ name), fun brace => legible.2 (brace ▸ name)⟩
  · rcases List.mem_cons.mp rest with rfl | digit
    · decide
    · have digit : c.isDigit = true := digit_ne digit
      constructor
      · rintro rfl
        exact absurd digit (by decide)
      · rintro rfl
        exact absurd digit (by decide)

/-- An entry is followed by a brace where it is the last one, and else by a comma and the other entries. -/
theorem render_cons (e : PlaceName × Nat) (es : List (PlaceName × Nat)) (rest : List Char) :
    ∃ c tail, render (e :: es) ++ rest = countText e ++ c :: tail ∧
      ((es = [] ∧ c = '}') ∨ (es ≠ [] ∧ c = ',' ∧ tail = ' ' :: (render es ++ rest))) := by
  cases es with
  | nil => exact ⟨'}', rest, by simp [render, countText], .inl ⟨rfl, rfl⟩⟩
  | cons f es =>
    refine ⟨',', ' ' :: (render (f :: es) ++ rest), ?_, .inr ⟨List.cons_ne_nil _ _, rfl, rfl⟩⟩
    simp [render, countText]

/-- No entry reads as the end of a key. -/
theorem render_nil_ne_of_legible (legible : Legible e.1) {es : List (PlaceName × Nat)} {rest rest' : List Char} :
    render [] ++ rest ≠ render (e :: es) ++ rest' := by
  intro same
  obtain ⟨c, tail, shape, -⟩ := render_cons e es rest'
  rw [shape] at same
  cases text : countText e with
  | nil => simp [countText] at text
  | cons x xs =>
    rw [text] at same
    have first : '}' = x := (List.cons.inj same).1
    exact (inside_countText legible x (text ▸ List.mem_cons_self)).2 first.symm

end Entries

/-! ## A key -/

/-- The text of a marking with legible names, with whatever stands behind it, determines the entries. -/
theorem render_inj_of_legible {es es' : List (PlaceName × Nat)} {rest rest' : List Char}
    (names : ∀ e ∈ es, Legible e.1) (names' : ∀ e ∈ es', Legible e.1)
    (same : render es ++ rest = render es' ++ rest') : es = es' := by
  induction es generalizing es' with
  | nil =>
    cases es' with
    | nil => rfl
    | cons e' es' => exact absurd same (render_nil_ne_of_legible (names' e' List.mem_cons_self))
  | cons e es ih =>
    cases es' with
    | nil => exact absurd same.symm (render_nil_ne_of_legible (names e List.mem_cons_self))
    | cons e' es' =>
      obtain ⟨c, tail, shape, next⟩ := render_cons e es rest
      obtain ⟨c', tail', shape', next'⟩ := render_cons e' es' rest'
      rw [shape, shape'] at same
      have stop : ¬(c ≠ ',' ∧ c ≠ '}') := by
        rcases next with ⟨-, rfl⟩ | ⟨-, rfl, -⟩ <;> simp
      have stop' : ¬(c' ≠ ',' ∧ c' ≠ '}') := by
        rcases next' with ⟨-, rfl⟩ | ⟨-, rfl, -⟩ <;> simp
      obtain ⟨text, rfl, behind⟩ := append_cons_inj (inside_countText (names e List.mem_cons_self)) stop
        (inside_countText (names' e' List.mem_cons_self)) stop' same
      obtain rfl := countText_inj text
      -- both go on, or neither does
      rcases next with ⟨rfl, rfl⟩ | ⟨more, rfl, rfl⟩
      · rcases next' with ⟨rfl, -⟩ | ⟨-, stops, -⟩
        · rfl
        · cases stops
      · rcases next' with ⟨-, stops⟩ | ⟨more', -, rfl⟩
        · cases stops
        · rw [ih (fun f mem => names f (List.mem_cons_of_mem _ mem))
            (fun f mem => names' f (List.mem_cons_of_mem _ mem)) (List.cons.inj behind).2]

variable {V N : Type} {net : PetriNet V N} {initialMarking : MarkingState}

/-- Legible names, with or without colons, are enough for the keys of a graph. -/
theorem keysTell_of_legible (legible : ∀ p, Named net initialMarking p → Legible p) :
    KeysTell net initialMarking := by
  intro c d hc hd same
  have same := congrArg String.toList same
  unfold StateClassGraph.classKey at same
  simp only [String.toList_append, toList_toString, List.cons_append, List.append_assoc, List.cons.injEq,
    true_and] at same
  have listed {m : MarkingState} (h : ∀ p, 0 < m.tokens p → Named net initialMarking p) :
      ∀ e ∈ sortByName m.tokenCounts.entries, Legible e.1 := fun e mem =>
    legible e.1 (h e.1 (mem_placesWithTokens.mp (List.mem_map_of_mem (mem_sortByName.mp mem))))
  exact tokens_eq_of_entries (render_inj_of_legible (listed hc) (listed hd) same)

end LibPetri.Verified
