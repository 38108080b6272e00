import LibPetri.Basis.Worklist

/-! # Explorations and their budgets

The exploration with a smaller budget is a prefix of the one with a larger budget, and the same where it
did not give up.  The first edge to a state leads to the very successor the state was made from.
-/

namespace LibPetri.Basis.Exploration

variable {S L K : Type} [DecidableEq K] {key : S → K} {successors : S → List (L × S)} {s₀ : S}

/-! ## Larger budgets -/

/-- `g` has found and expanded nothing that `g'` has not, in the same order. -/
structure Prefix (g g' : Exploration S L) : Prop where
  classes : g.classes <+: g'.classes
  rows : g.rows <+: g'.rows

omit [DecidableEq K] in
theorem Prefix.refl (g : Exploration S L) : Prefix g g := ⟨List.prefix_refl _, List.prefix_refl _⟩

variable (key) in
theorem expandRow_grows (classes : List S) (row : List (L × S)) :
    ∃ more, (expandRow key classes row).1 = classes ++ more :=
  (expandRow_expands classes row).grows

variable (key successors) in
theorem explore_extends (maxClasses fuel : Nat) (g : Exploration S L) :
    Prefix g (explore key successors maxClasses fuel g) := by
  induction fuel generalizing g with
  | zero => exact ⟨List.prefix_refl _, List.prefix_refl _⟩
  | succ fuel ih =>
    unfold explore
    cases next : g.classes[g.rows.length]? with
    | none => exact .refl g
    | some current =>
      dsimp only
      split
      · exact ⟨List.prefix_refl _, List.prefix_refl _⟩
      · obtain ⟨more, grows⟩ := expandRow_grows key g.classes (successors current)
        obtain ⟨classes, rows⟩ := ih { g with
          classes := (expandRow key g.classes (successors current)).1
          rows := g.rows ++ [(expandRow key g.classes (successors current)).2] }
        exact ⟨List.IsPrefix.trans ⟨more, grows.symm⟩ classes,
          List.IsPrefix.trans (List.prefix_append _ _) rows⟩

/-- With more budget and more turns the exploration goes on from where it gave up. -/
theorem explore_le {less more fuel fuel' : Nat} (budget : less ≤ more) (turns : fuel ≤ fuel')
    (g : Exploration S L) :
    explore key successors less fuel g = explore key successors more fuel' g ∨
      (explore key successors less fuel g).complete = false ∧
        Prefix (explore key successors less fuel g) (explore key successors more fuel' g) := by
  induction fuel generalizing fuel' g with
  | zero => exact .inr ⟨rfl, (explore_extends key successors more _ g).classes,
    (explore_extends key successors more _ g).rows⟩
  | succ fuel ih =>
    obtain ⟨fuel', rfl⟩ : ∃ n, fuel' = n + 1 := ⟨fuel' - 1, by omega⟩
    have extends_ := explore_extends key successors more (fuel' + 1) g
    unfold explore at extends_ ⊢
    cases next : g.classes[g.rows.length]? with
    | none => exact .inl rfl
    | some current =>
      rw [next] at extends_
      dsimp only at extends_ ⊢
      by_cases full : less ≤ g.classes.length
      · rw [if_pos full]
        exact .inr ⟨rfl, extends_.classes, extends_.rows⟩
      · rw [if_neg full, if_neg (by omega)]
        exact ih (by omega) _

variable (key successors s₀) in
theorem build_le {less more : Nat} (budget : less ≤ more) :
    build key successors less s₀ = build key successors more s₀ ∨
      (build key successors less s₀).complete = false ∧
        Prefix (build key successors less s₀) (build key successors more s₀) :=
  explore_le budget budget _

theorem build_prefix {less more : Nat} (budget : less ≤ more) :
    Prefix (build key successors less s₀) (build key successors more s₀) := by
  rcases build_le key successors s₀ budget with same | ⟨-, shorter⟩
  · rw [same]
    exact .refl _
  · exact shorter

/-- An exploration that did not give up holds fewer states than it was allowed. -/
theorem explore_complete_lt {maxClasses : Nat} (fuel : Nat) {g : Exploration S L}
    (waiting : g.rows.length < g.classes.length)
    (done : (explore key successors maxClasses fuel g).complete = true) :
    (explore key successors maxClasses fuel g).classes.length < maxClasses := by
  induction fuel generalizing g with
  | zero => cases done
  | succ fuel ih =>
    unfold explore at done ⊢
    rw [List.getElem?_eq_getElem waiting] at done ⊢
    dsimp only at done ⊢
    split at done
    · cases done
    next budget =>
      rw [if_neg budget]
      by_cases more : g.rows.length + 1 <
          (expandRow key g.classes (successors g.classes[g.rows.length])).1.length
      · exact ih (by simpa using more) done
      · -- the last state has been expanded, and found none
        cases fuel with
        | zero => cases done
        | succ fuel =>
          have none_ : (expandRow key g.classes (successors g.classes[g.rows.length])).1[(g.rows ++
              [(expandRow key g.classes (successors g.classes[g.rows.length])).2]).length]? = none := by
            rw [List.getElem?_eq_none_iff, List.length_append, List.length_singleton]
            omega
          unfold explore
          simp only [none_]
          omega

theorem build_complete_lt {maxClasses : Nat}
    (done : (build key successors maxClasses s₀).complete = true) :
    (build key successors maxClasses s₀).classes.length < maxClasses :=
  explore_complete_lt _ Nat.one_pos done

/-- An exploration that did not give up is the one of every budget that exceeds its states. -/
theorem build_eq_of_complete {budget other : Nat}
    (done : (build key successors budget s₀).complete = true)
    (enough : (build key successors budget s₀).classes.length < other) :
    build key successors other s₀ = build key successors budget s₀ := by
  rcases Nat.le_total budget other with le | le
  · rcases build_le key successors s₀ le with same | ⟨gaveUp, -⟩
    · exact same.symm
    · rw [done] at gaveUp
      cases gaveUp
  · rcases build_le key successors s₀ le with same | ⟨gaveUp, shorter⟩
    · exact same
    · have := build_truncated gaveUp
      have := shorter.classes.length_le
      omega

/-- A budget that does not exceed the states of a whole exploration gives up. -/
theorem build_gives_up {budget other : Nat}
    (done : (build key successors budget s₀).complete = true)
    (short : other ≤ (build key successors budget s₀).classes.length) :
    (build key successors other s₀).complete = false := by
  have le : other ≤ budget := le_trans short (Nat.le_of_lt (build_complete_lt done))
  rcases build_le key successors s₀ le with same | ⟨gaveUp, -⟩
  · cases complete : (build key successors other s₀).complete with
    | false => rfl
    | true =>
      have := build_complete_lt complete
      rw [same] at this
      omega
  · exact gaveUp

/-- What gives up with one budget gives up with every smaller one. -/
theorem build_gives_up_below {less more : Nat} (budget : less ≤ more)
    (gaveUp : (build key successors more s₀).complete = false) :
    (build key successors less s₀).complete = false := by
  rcases build_le key successors s₀ budget with same | ⟨less, -⟩
  · rw [same, gaveUp]
  · exact less

/-! ## First edges -/

/-- The first entry of a row that leads to a state. -/
def FirstEntry (row : List (L × Nat)) (l : L) (j : Nat) : Prop :=
  ∃ before after, row = before ++ (l, j) :: after ∧ ∀ l', (l', j) ∉ before

/-- Where no earlier edge leads to a state, the first entry of the row leads to the successor itself. -/
def FoundExactly (successors : S → List (L × S)) (g : Exploration S L) : Prop :=
  ∀ (i : Nat) (row : List (L × Nat)) (l : L) (j : Nat), g.rows[i]? = some row → FirstEntry row l j →
    0 < j → (∀ i' < i, ∀ l', ¬g.Edge i' l' j) →
      ∃ c d, g.classes[i]? = some c ∧ g.classes[j]? = some d ∧ (l, d) ∈ successors c

theorem expandRow_first {classes : List S} {row : List (L × S)} {l : L} {j : Nat}
    (first : FirstEntry (expandRow key classes row).2 l j) (new : classes.length ≤ j) :
    ∃ d, (expandRow key classes row).1[j]? = some d ∧ (l, d) ∈ row := by
  obtain ⟨before, after, split, none_⟩ := first
  induction row generalizing classes before with
  | nil => simp [expandRow] at split
  | cons successor rest ih =>
    obtain ⟨l₀, s⟩ := successor
    simp only [expandRow] at split ⊢
    obtain ⟨i, c, admitted, at_, same⟩ | ⟨admitted, unknown⟩ := intern_cases key classes s
    · rw [admitted] at split ⊢
      cases before with
      | nil =>
        obtain ⟨-, rfl⟩ : l₀ = l ∧ i = j := by simpa using (List.cons.inj split).1
        have := (List.getElem?_eq_some_iff.mp at_).1
        omega
      | cons entry before =>
        obtain ⟨d, there, mem⟩ := ih new before (List.cons.inj split).2
          fun l' mem => none_ l' (List.mem_cons_of_mem _ mem)
        exact ⟨d, there, List.mem_cons_of_mem _ mem⟩
    · rw [admitted] at split ⊢
      cases before with
      | nil =>
        obtain ⟨rfl, rfl⟩ : l₀ = l ∧ classes.length = j := by simpa using (List.cons.inj split).1
        obtain ⟨more, grows⟩ := expandRow_grows key (classes ++ [s]) rest
        refine ⟨s, ?_, List.mem_cons_self⟩
        rw [grows]
        simp
      | cons entry before =>
        have head := (List.cons.inj split).1
        have later : classes.length ≠ j := fun here => none_ l₀ (by
          rw [← head, ← here]
          exact List.mem_cons_self)
        obtain ⟨d, there, mem⟩ := ih (by simp only [List.length_append, List.length_singleton]; omega)
          before (List.cons.inj split).2 fun l' mem => none_ l' (List.mem_cons_of_mem _ mem)
        exact ⟨d, there, List.mem_cons_of_mem _ mem⟩

/-- Expanding the next state keeps first edges exact. -/
theorem Explored.expand_first {g : Exploration S L} (h : Explored key successors s₀ g)
    (exact_ : FoundExactly successors g) {current : S}
    (next : g.classes[g.rows.length]? = some current) :
    FoundExactly successors { g with
      classes := (expandRow key g.classes (successors current)).1
      rows := g.rows ++ [(expandRow key g.classes (successors current)).2] } := by
  obtain ⟨more, grows⟩ := expandRow_grows key g.classes (successors current)
  have keeps {i : Nat} {c : S} (at_ : g.classes[i]? = some c) :
      (expandRow key g.classes (successors current)).1[i]? = some c := by
    rw [grows, List.getElem?_append_left (List.getElem?_eq_some_iff.mp at_).1, at_]
  intro i row l j at_ first pos none_
  have before (i' : Nat) (lt : i' < i) (l' : L) : ¬g.Edge i' l' j :=
    fun edge => none_ i' lt l' (edge_append.mpr (.inl edge))
  rcases Nat.lt_trichotomy i g.rows.length with earlier | here | later
  · rw [List.getElem?_append_left earlier] at at_
    obtain ⟨c, d, from_, to_, mem⟩ := exact_ i row l j at_ first pos before
    exact ⟨c, d, keeps from_, keeps to_, mem⟩
  · subst here
    simp only [List.getElem?_append_right (le_refl _), Nat.sub_self, List.getElem?_cons_zero,
      Option.some.injEq] at at_
    subst at_
    -- a state known before has an edge from an earlier row
    have new : g.classes.length ≤ j := by
      by_contra known
      obtain ⟨i', -, c, l', -, -, edge⟩ :=
        h.found j _ (List.getElem?_eq_getElem (Nat.lt_of_not_le known)) pos
      obtain ⟨row', at', -⟩ := id edge
      exact before i' (List.getElem?_eq_some_iff.mp at').1 l' edge
    obtain ⟨d, there, mem⟩ := expandRow_first first new
    exact ⟨current, d, keeps next, there, mem⟩
  · rw [List.getElem?_eq_none (by simp; omega)] at at_
    cases at_

theorem Explored.explore_first {maxClasses : Nat} {g : Exploration S L}
    (h : Explored key successors s₀ g) (exact_ : FoundExactly successors g) (fuel : Nat) :
    FoundExactly successors (Exploration.explore key successors maxClasses fuel g) := by
  induction fuel generalizing g with
  | zero => exact exact_
  | succ fuel ih =>
    unfold Exploration.explore
    cases next : g.classes[g.rows.length]? with
    | none => exact exact_
    | some current =>
      dsimp only
      split
      · exact exact_
      · exact ih (h.expand next (expandRow_expands _ _)) (h.expand_first exact_ next)

theorem build_first {maxClasses : Nat} :
    FoundExactly successors (build key successors maxClasses s₀) :=
  explored_start.explore_first (fun i row l j at_ => by simp at at_) _

end LibPetri.Basis.Exploration
