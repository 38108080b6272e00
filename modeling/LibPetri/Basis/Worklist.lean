import Mathlib

/-! # Worklist exploration

Breadth-first exploration of a labelled graph, up to a key.  States are kept in the order of their
discovery; the next state to expand is the first one not expanded yet; a successor whose key is known
leads to the state that holds that key.  The exploration gives up once it holds `maxClasses` states.
-/

namespace LibPetri.Basis

/-- What has been explored: the states found, the rows of the states expanded (for each successor its
label and the index of the state it leads to), and whether the exploration has not given up. -/
structure Exploration (S L : Type) where
  classes : List S
  rows : List (List (L × Nat))
  complete : Bool

namespace Exploration

variable {S L K : Type}

/-- How many states have been expanded. -/
def expanded (g : Exploration S L) : Nat := g.rows.length

/-- The row of state `i` has an entry that leads to state `j` by `l`. -/
def Edge (g : Exploration S L) (i : Nat) (l : L) (j : Nat) : Prop :=
  ∃ row, g.rows[i]? = some row ∧ (l, j) ∈ row

variable [DecidableEq K] (key : S → K)

/-- The state with the key of `s`, which is `s` itself where there is none yet. -/
def intern (classes : List S) (s : S) : List S × Nat :=
  match classes.findIdx? fun c => key c = key s with
  | some i => (classes, i)
  | none => (classes ++ [s], classes.length)

def expandRow : List S → List (L × S) → List S × List (L × Nat)
  | classes, [] => (classes, [])
  | classes, (l, s) :: rest =>
    let interned := intern key classes s
    let expanded := expandRow interned.1 rest
    (expanded.1, (l, interned.2) :: expanded.2)

variable (successors : S → List (L × S)) (maxClasses : Nat)

/-- Expands one state after the other.  Every turn needs fewer than `maxClasses` states and expands
one more of them, so `maxClasses` turns are enough. -/
def explore : Nat → Exploration S L → Exploration S L
  | 0, g => { g with complete := false }
  | fuel + 1, g =>
    match g.classes[g.rows.length]? with
    | none => g
    | some current =>
      if maxClasses ≤ g.classes.length then { g with complete := false }
      else
        let expanded := expandRow key g.classes (successors current)
        explore fuel { g with classes := expanded.1, rows := g.rows ++ [expanded.2] }

def build (s₀ : S) : Exploration S L :=
  explore key successors maxClasses maxClasses ⟨[s₀], [], true⟩

/-! ## One row -/

/-- An entry of a row against the successor it was made for. -/
def Leads (classes : List S) (successor : L × S) (entry : L × Nat) : Prop :=
  entry.1 = successor.1 ∧ ∃ c, classes[entry.2]? = some c ∧ key c = key successor.2

variable {key}

omit [DecidableEq K] in
theorem Leads.append {classes : List S} {successor : L × S} {entry : L × Nat}
    (h : Leads key classes successor entry) (more : List S) :
    Leads key (classes ++ more) successor entry := by
  obtain ⟨label, c, at_, same⟩ := h
  refine ⟨label, c, ?_, same⟩
  rw [List.getElem?_append_left (List.getElem?_eq_some_iff.mp at_).1]
  exact at_

variable (key) in
/-- What interning a state does: nothing where its key is known, an append where it is not. -/
theorem intern_cases (classes : List S) (s : S) :
    (∃ i c, intern key classes s = (classes, i) ∧ classes[i]? = some c ∧ key c = key s) ∨
      (intern key classes s = (classes ++ [s], classes.length) ∧ ∀ c ∈ classes, key c ≠ key s) := by
  unfold intern
  cases found : classes.findIdx? fun c => decide (key c = key s) with
  | some i =>
    obtain ⟨bound, holds, -⟩ := List.findIdx?_eq_some_iff_getElem.mp found
    exact .inl ⟨i, classes[i], rfl, List.getElem?_eq_getElem bound, by simpa using holds⟩
  | none =>
    refine .inr ⟨rfl, fun c mem same => ?_⟩
    have := List.findIdx?_eq_none_iff.mp found c mem
    simp [same] at this

/-- What expanding one state does. -/
structure Expands (key : S → K) (classes : List S) (row : List (L × S)) (classes' : List S)
    (entries : List (L × Nat)) : Prop where
  grows : ∃ more, classes' = classes ++ more
  distinct : (classes.map key).Nodup → (classes'.map key).Nodup
  leads : List.Forall₂ (Leads key classes') row entries
  fresh : ∀ (j : Nat) (d : S), classes'[j]? = some d → classes.length ≤ j →
    ∃ l, (l, d) ∈ row ∧ (l, j) ∈ entries
  inOrder : ∀ before l t after, entries = before ++ (l, t) :: after →
    ∀ j < t, classes.length ≤ j → ∃ l', (l', j) ∈ before

theorem expandRow_expands (classes : List S) (row : List (L × S)) :
    Expands key classes row (expandRow key classes row).1 (expandRow key classes row).2 := by
  induction row generalizing classes with
  | nil =>
    refine ⟨⟨[], (List.append_nil _).symm⟩, id, .nil, fun j d at_ past => ?_,
      fun before l t after h => by simp [expandRow] at h⟩
    have := (List.getElem?_eq_some_iff.mp at_).1
    exact absurd this (by simpa [expandRow] using past)
  | cons successor rest ih =>
    obtain ⟨l, s⟩ := successor
    simp only [expandRow]
    obtain ⟨i, c, admitted, at_, same⟩ | ⟨admitted, unknown⟩ := intern_cases key classes s
    · rw [admitted]
      obtain ⟨⟨more, grows⟩, distinct, leads, fresh, inOrder⟩ := ih classes
      refine ⟨⟨more, grows⟩, distinct, .cons ?_ leads, fun j d here past => ?_,
        fun before k t after split j lt past => ?_⟩
      · simp only at grows ⊢
        rw [grows]
        have lead : Leads key classes (l, s) (l, i) := ⟨rfl, c, at_, same⟩
        exact lead.append more
      · obtain ⟨k, mem, entry⟩ := fresh j d here past
        exact ⟨k, List.mem_cons_of_mem _ mem, List.mem_cons_of_mem _ entry⟩
      · cases before with
        | nil =>
          obtain ⟨-, rfl⟩ : l = k ∧ i = t := by simpa using (List.cons.inj split).1
          have := (List.getElem?_eq_some_iff.mp at_).1
          omega
        | cons entry before =>
          obtain ⟨l', mem⟩ := inOrder before k t after (List.cons.inj split).2 j lt past
          exact ⟨l', List.mem_cons_of_mem _ mem⟩
    · rw [admitted]
      obtain ⟨⟨more, grows⟩, distinct, leads, fresh, inOrder⟩ := ih (classes ++ [s])
      have self : (expandRow key (classes ++ [s]) rest).1[classes.length]? = some s := by
        rw [grows]
        simp
      refine ⟨⟨s :: more, by simp [grows]⟩, fun nodup => distinct ?_,
        .cons ⟨rfl, s, self, rfl⟩ leads, fun j d here past => ?_,
        fun before k t after split j lt past => ?_⟩
      · rw [List.map_append, List.map_singleton, List.nodup_append]
        refine ⟨nodup, List.nodup_singleton _, ?_⟩
        intro a known b new
        obtain ⟨c, mem, rfl⟩ := List.mem_map.mp known
        rw [List.mem_singleton.mp new]
        exact unknown c mem
      · rcases Nat.eq_or_lt_of_le past with last | past
        · subst last
          obtain rfl : s = d := by simpa [self] using here
          exact ⟨l, List.mem_cons_self, List.mem_cons_self⟩
        · obtain ⟨k, mem, entry⟩ := fresh j d here (by simpa using past)
          exact ⟨k, List.mem_cons_of_mem _ mem, List.mem_cons_of_mem _ entry⟩
      · cases before with
        | nil =>
          obtain ⟨-, rfl⟩ : l = k ∧ classes.length = t := by simpa using (List.cons.inj split).1
          omega
        | cons entry before =>
          obtain ⟨head, tail⟩ := List.cons.inj split
          rcases Nat.eq_or_lt_of_le past with first | past
          · exact ⟨l, by rw [← head, ← first]; exact List.mem_cons_self⟩
          · obtain ⟨l', mem⟩ := inOrder before k t after tail j lt (by simpa using past)
            exact ⟨l', List.mem_cons_of_mem _ mem⟩

theorem exists_of_mem_right {α β : Type} {R : α → β → Prop} {as : List α} {bs : List β} {b : β}
    (h : List.Forall₂ R as bs) (mem : b ∈ bs) : ∃ a ∈ as, R a b := by
  induction h with
  | nil => cases mem
  | cons head _ ih =>
    cases mem with
    | head => exact ⟨_, List.mem_cons_self, head⟩
    | tail _ mem =>
      obtain ⟨a, in_, related⟩ := ih mem
      exact ⟨a, List.mem_cons_of_mem _ in_, related⟩

theorem exists_of_mem_left {α β : Type} {R : α → β → Prop} {as : List α} {bs : List β} {a : α}
    (h : List.Forall₂ R as bs) (mem : a ∈ as) : ∃ b ∈ bs, R a b :=
  exists_of_mem_right h.flip mem

variable (key) in
/-- Every state but the first was found by expanding an earlier one, every row leads where the
successors of its state do, and rows reach new states in the order of their indices. -/
structure Explored (s₀ : S) (g : Exploration S L) : Prop where
  head : g.classes[0]? = some s₀
  distinct : (g.classes.map key).Nodup
  expanded_le : g.expanded ≤ g.classes.length
  leads : ∀ (i : Nat) (row : List (L × Nat)), g.rows[i]? = some row →
    ∃ c, g.classes[i]? = some c ∧ List.Forall₂ (Leads key g.classes) (successors c) row
  found : ∀ (j : Nat) (d : S), g.classes[j]? = some d → 0 < j →
    ∃ i < j, ∃ c l, g.classes[i]? = some c ∧ (l, d) ∈ successors c ∧ g.Edge i l j
  ordered : ∀ (i : Nat) (row before : List (L × Nat)) l t after, g.rows[i]? = some row →
    row = before ++ (l, t) :: after →
    ∀ j < t, 0 < j → (∃ i' < i, ∃ l', g.Edge i' l' j) ∨ ∃ l', (l', j) ∈ before

variable {successors maxClasses} {s₀ : S}

omit [DecidableEq K] in
theorem explored_start : Explored key successors s₀ (⟨[s₀], [], true⟩ : Exploration S L) where
  head := rfl
  distinct := List.nodup_singleton _
  expanded_le := Nat.zero_le _
  leads i row h := by simp at h
  found j d h pos := by
    have := (List.getElem?_eq_some_iff.mp h).1
    simp at this
    omega
  ordered i row before l t after h := by simp at h

omit [DecidableEq K] in
theorem Explored.completion {g : Exploration S L} (h : Explored key successors s₀ g) (b : Bool) :
    Explored key successors s₀ { g with complete := b } :=
  ⟨h.head, h.distinct, h.expanded_le, h.leads, h.found, h.ordered⟩

theorem edge_append {g : Exploration S L} {classes : List S} {entries : List (L × Nat)} {i j : Nat}
    {l : L} :
    Edge { g with classes := classes, rows := g.rows ++ [entries] } i l j ↔
      g.Edge i l j ∨ (i = g.rows.length ∧ (l, j) ∈ entries) := by
  constructor
  · rintro ⟨row, at_, mem⟩
    simp only at at_
    rcases Nat.lt_trichotomy i g.rows.length with before | here | after
    · rw [List.getElem?_append_left before] at at_
      exact .inl ⟨row, at_, mem⟩
    · subst here
      simp only [List.getElem?_append_right (le_refl _), Nat.sub_self, List.getElem?_cons_zero,
        Option.some.injEq] at at_
      exact .inr ⟨rfl, at_ ▸ mem⟩
    · rw [List.getElem?_eq_none (by simp; omega)] at at_
      cases at_
  · rintro (⟨row, at_, mem⟩ | ⟨rfl, mem⟩)
    · refine ⟨row, ?_, mem⟩
      simp only
      rw [List.getElem?_append_left (List.getElem?_eq_some_iff.mp at_).1, at_]
    · exact ⟨entries, by simp, mem⟩

omit [DecidableEq K] in
/-- Expanding the next state keeps the invariant. -/
theorem Explored.expand {g : Exploration S L} (h : Explored key successors s₀ g) {current : S}
    (next : g.classes[g.rows.length]? = some current) {classes : List S}
    {entries : List (L × Nat)} (e : Expands key g.classes (successors current) classes entries) :
    Explored key successors s₀ { g with classes := classes, rows := g.rows ++ [entries] } := by
  obtain ⟨more, rfl⟩ := e.grows
  have bound := (List.getElem?_eq_some_iff.mp next).1
  have keeps {i : Nat} {c : S} (at_ : g.classes[i]? = some c) :
      (g.classes ++ more)[i]? = some c := by
    rw [List.getElem?_append_left (List.getElem?_eq_some_iff.mp at_).1, at_]
  refine ⟨keeps h.head, e.distinct h.distinct, ?_, ?_, ?_, ?_⟩
  · have := h.expanded_le
    simp only [expanded, List.length_append, List.length_singleton] at this ⊢
    omega
  · intro i row at_
    rcases Nat.lt_trichotomy i g.rows.length with before | here | after
    · rw [List.getElem?_append_left before] at at_
      obtain ⟨c, here, leads⟩ := h.leads i row at_
      exact ⟨c, keeps here, leads.imp fun _ _ lead => lead.append more⟩
    · subst here
      simp only [List.getElem?_append_right (le_refl _), Nat.sub_self, List.getElem?_cons_zero,
        Option.some.injEq] at at_
      exact ⟨current, keeps next, at_ ▸ e.leads⟩
    · rw [List.getElem?_eq_none (by simp; omega)] at at_
      cases at_
  · intro j d at_ pos
    by_cases known : j < g.classes.length
    · rw [List.getElem?_append_left known] at at_
      obtain ⟨i, lt, c, l, here, mem, edge⟩ := h.found j d at_ pos
      exact ⟨i, lt, c, l, keeps here, mem, edge_append.mpr (.inl edge)⟩
    · obtain ⟨l, mem, entry⟩ := e.fresh j d at_ (by omega)
      exact ⟨g.rows.length, by omega, current, l, keeps next, mem,
        edge_append.mpr (.inr ⟨rfl, entry⟩)⟩
  · -- what a row leads to is an old state, found by an earlier row, or a state of the row itself
    intro i row before l t after at_ split j lt pos
    rcases Nat.lt_trichotomy i g.rows.length with earlier | here | later
    · rw [List.getElem?_append_left earlier] at at_
      rcases h.ordered i row before l t after at_ split j lt pos with ⟨i', le, l', edge⟩ | within
      · exact .inl ⟨i', le, l', edge_append.mpr (.inl edge)⟩
      · exact .inr within
    · subst here
      simp only [List.getElem?_append_right (le_refl _), Nat.sub_self, List.getElem?_cons_zero,
        Option.some.injEq] at at_
      by_cases known : j < g.classes.length
      · obtain ⟨i', -, c, l', -, -, edge⟩ := h.found j _ (List.getElem?_eq_getElem known) pos
        obtain ⟨row', at', -⟩ := id edge
        exact .inl ⟨i', (List.getElem?_eq_some_iff.mp at').1, l', edge_append.mpr (.inl edge)⟩
      · exact .inr (e.inOrder before l t after (at_.trans split) j lt (by omega))
    · rw [List.getElem?_eq_none (by simp; omega)] at at_
      cases at_

theorem Explored.explore {g : Exploration S L} (h : Explored key successors s₀ g) (fuel : Nat) :
    Explored key successors s₀ (explore key successors maxClasses fuel g) := by
  induction fuel generalizing g with
  | zero => exact h.completion false
  | succ fuel ih =>
    unfold Exploration.explore
    cases next : g.classes[g.rows.length]? with
    | none => exact h
    | some current =>
      dsimp only
      split
      · exact h.completion false
      · exact ih (h.expand next (expandRow_expands _ _))

theorem build_explored : Explored key successors s₀ (build key successors maxClasses s₀) :=
  explored_start.explore _

/-! ## The end of the exploration -/

theorem explore_complete {g : Exploration S L} (fuel : Nat)
    (done : (explore key successors maxClasses fuel g).complete = true) :
    (explore key successors maxClasses fuel g).classes.length ≤
      (explore key successors maxClasses fuel g).expanded := by
  induction fuel generalizing g with
  | zero => cases done
  | succ fuel ih =>
    unfold explore at done ⊢
    cases next : g.classes[g.rows.length]? with
    | none => exact List.getElem?_eq_none_iff.mp next
    | some current =>
      rw [next] at done
      dsimp only at done ⊢
      split at done
      · cases done
      next budget =>
        rw [if_neg budget]
        exact ih done

/-- An exploration that did not give up has expanded every state. -/
theorem build_complete (done : (build key successors maxClasses s₀).complete = true) :
    (build key successors maxClasses s₀).expanded =
      (build key successors maxClasses s₀).classes.length :=
  le_antisymm build_explored.expanded_le (explore_complete _ done)

theorem explore_truncated {g : Exploration S L} (h : Explored key successors s₀ g) (fuel : Nat)
    (running : g.complete = true) (enough : maxClasses ≤ g.expanded + fuel)
    (gaveUp : (explore key successors maxClasses fuel g).complete = false) :
    maxClasses ≤ (explore key successors maxClasses fuel g).classes.length := by
  induction fuel generalizing g with
  | zero =>
    have := h.expanded_le
    simp only [explore]
    omega
  | succ fuel ih =>
    unfold explore at gaveUp ⊢
    cases next : g.classes[g.rows.length]? with
    | none =>
      rw [next] at gaveUp
      rw [running] at gaveUp
      cases gaveUp
    | some current =>
      rw [next] at gaveUp
      dsimp only at gaveUp ⊢
      split at gaveUp
      next budget => rwa [if_pos budget]
      next budget =>
        rw [if_neg budget]
        refine ih (h.expand next (expandRow_expands _ _)) running ?_ gaveUp
        simp only [expanded, List.length_append, List.length_singleton] at enough ⊢
        omega

/-- An exploration that gave up holds as many states as it was allowed. -/
theorem build_truncated (gaveUp : (build key successors maxClasses s₀).complete = false) :
    maxClasses ≤ (build key successors maxClasses s₀).classes.length :=
  explore_truncated explored_start _ rfl (by simp [expanded]) gaveUp

/-- The exploration never runs out of turns: more of them change nothing. -/
theorem explore_turns {g : Exploration S L} (fuel : Nat) (enough : maxClasses ≤ g.expanded + fuel)
    (next : fuel = 0 → g.expanded < g.classes.length) :
    explore key successors maxClasses (fuel + 1) g = explore key successors maxClasses fuel g := by
  simp only [expanded] at enough next
  induction fuel generalizing g with
  | zero =>
    have more := next rfl
    have budget : maxClasses ≤ g.classes.length := by omega
    unfold explore
    rw [List.getElem?_eq_getElem more]
    simp only [budget, ↓reduceIte]
  | succ fuel ih =>
    rw [explore]
    conv => rhs; rw [explore]
    cases at_ : g.classes[g.rows.length]? with
    | none => rfl
    | some current =>
      dsimp only
      split
      · rfl
      next budget =>
        have := (List.getElem?_eq_some_iff.mp at_).1
        refine ih ?_ fun none => ?_
        · simp only [List.length_append, List.length_singleton]
          omega
        · omega

/-! ## What the exploration covers -/

section Coverage

omit [DecidableEq K]

variable {g : Exploration S L}

/-- What holds of the first state and passes to successors holds of every state. -/
theorem Explored.induction (h : Explored key successors s₀ g) {I : S → Prop} (init : I s₀)
    (keeps : ∀ c l x, I c → (l, x) ∈ successors c → I x) : ∀ c ∈ g.classes, I c := by
  have all : ∀ (n : Nat) (c : S), g.classes[n]? = some c → I c := by
    intro n
    induction n using Nat.strong_induction_on with
    | _ n ih =>
      intro c at_
      rcases Nat.eq_zero_or_pos n with rfl | pos
      · obtain rfl : s₀ = c := by simpa [h.head] using at_
        exact init
      · obtain ⟨i, lt, d, l, here, mem, -⟩ := h.found n c at_ pos
        exact keeps d l c (ih i lt d here) mem
  intro c mem
  obtain ⟨n, at_⟩ := List.mem_iff_getElem?.mp mem
  exact all n c at_

/-- The successors of an expanded state are there, up to the key. -/
theorem Explored.successor (h : Explored key successors s₀ g) {i : Nat} {c : S}
    (at_ : g.classes[i]? = some c) (done : i < g.expanded) {l : L} {x : S}
    (mem : (l, x) ∈ successors c) :
    ∃ j d, g.Edge i l j ∧ g.classes[j]? = some d ∧ key d = key x := by
  have row := List.getElem?_eq_getElem done
  obtain ⟨c', at', leads⟩ := h.leads i _ row
  obtain rfl : c = c' := Option.some.inj (at_.symm.trans at')
  obtain ⟨⟨l', j⟩, entry, label, d, there, same⟩ := exists_of_mem_left leads mem
  obtain rfl : l' = l := label
  exact ⟨j, d, ⟨_, row, entry⟩, there, same⟩

variable {A : Type} {R : A → S → Prop} {Step : A → A → Prop} {a₀ : A}

/-- A complete exploration holds a state for everything its states simulate. -/
theorem Explored.covers (h : Explored key successors s₀ g)
    (done : g.expanded = g.classes.length) (start : R a₀ s₀)
    (respects : ∀ a c d, R a c → d ∈ g.classes → key d = key c → R a d)
    (follows : ∀ a a' c, c ∈ g.classes → R a c → Step a a' → ∃ l x, (l, x) ∈ successors c ∧ R a' x)
    {a : A} (reach : Relation.ReflTransGen Step a₀ a) : ∃ c ∈ g.classes, R a c := by
  induction reach with
  | refl => exact ⟨s₀, List.mem_iff_getElem?.mpr ⟨0, h.head⟩, start⟩
  | tail _ step ih =>
    obtain ⟨c, mem, related⟩ := ih
    obtain ⟨l, x, succ, related'⟩ := follows _ _ c mem related step
    obtain ⟨i, at_⟩ := List.mem_iff_getElem?.mp mem
    have bound := (List.getElem?_eq_some_iff.mp at_).1
    obtain ⟨j, d, -, there, same⟩ := h.successor at_ (done ▸ bound) succ
    have mem' := List.mem_iff_getElem?.mpr ⟨j, there⟩
    exact ⟨d, mem', respects _ _ _ related' mem' same⟩

/-! ## Distances -/

/-- State `j` is at most `n` edges away from the first one. -/
def Within (g : Exploration S L) : Nat → Nat → Prop
  | 0, j => j = 0
  | n + 1, j => Within g n j ∨ ∃ i l, Within g n i ∧ g.Edge i l j

theorem Within.mono {n m j : Nat} (h : g.Within n j) (le : n ≤ m) : g.Within m j := by
  induction le with
  | refl => exact h
  | step _ ih => exact .inl ih

theorem within_start (n : Nat) : g.Within n 0 := Within.mono (n := 0) rfl (Nat.zero_le n)

/-- A row that leads to a state leads, or has an earlier row that leads, to every state before it. -/
theorem Explored.edge_below (h : Explored key successors s₀ g) {i t j : Nat} {l : L}
    (edge : g.Edge i l t) (le : j ≤ t) (pos : 0 < j) : ∃ i' ≤ i, ∃ l', g.Edge i' l' j := by
  rcases Nat.eq_or_lt_of_le le with rfl | lt
  · exact ⟨i, le_refl _, l, edge⟩
  obtain ⟨row, at_, mem⟩ := edge
  obtain ⟨before, after, split⟩ := List.append_of_mem mem
  rcases h.ordered i row before l t after at_ split j lt pos with ⟨i', lt, l', edge⟩ | ⟨l', mem⟩
  · exact ⟨i', Nat.le_of_lt lt, l', edge⟩
  · exact ⟨i, le_refl _, l', row, at_, split ▸ List.mem_append_left _ mem⟩

/-- States are found in the order of their distance. -/
theorem Explored.within_below (h : Explored key successors s₀ g) {n t j : Nat}
    (near : g.Within n t) (le : j ≤ t) : g.Within n j := by
  induction n generalizing t j with
  | zero =>
    obtain rfl : t = 0 := near
    exact Nat.le_zero.mp le
  | succ n ih =>
    rcases near with near | ⟨i, l, near, edge⟩
    · exact .inl (ih near le)
    · rcases Nat.eq_zero_or_pos j with rfl | pos
      · exact within_start _
      · obtain ⟨i', le', l', edge'⟩ := h.edge_below edge le pos
        exact .inr ⟨i', l', ih near le', edge'⟩

/-- What is not past a state that has not been expanded is one edge further away at most. -/
theorem Explored.within_succ (h : Explored key successors s₀ g) {n i j : Nat} (near : g.Within n i)
    (waiting : g.expanded ≤ i) (bound : j < g.classes.length) : g.Within (n + 1) j := by
  by_cases le : j ≤ i
  · exact .inl (h.within_below near le)
  · obtain ⟨i', lt, c, l, -, -, edge⟩ := h.found j _ (List.getElem?_eq_getElem bound) (by omega)
    obtain ⟨row, at_, -⟩ := id edge
    have := (List.getElem?_eq_some_iff.mp at_).1
    simp only [expanded] at waiting
    exact .inr ⟨i', l, h.within_below near (by omega), edge⟩

/-- The states a machine can be in after `n` steps. -/
def After (Step : A → A → Prop) (a₀ : A) : Nat → A → Prop
  | 0, a => a = a₀
  | n + 1, a => ∃ b, After Step a₀ n b ∧ Step b a

/-- After `n` steps a machine is at a state found within `n` edges, unless it has left the part that
has been expanded. -/
theorem Explored.after (h : Explored key successors s₀ g) (start : R a₀ s₀)
    (respects : ∀ a c d, R a c → d ∈ g.classes → key d = key c → R a d)
    (follows : ∀ a a' c, c ∈ g.classes → R a c → Step a a' → ∃ l x, (l, x) ∈ successors c ∧ R a' x)
    {n : Nat} {a : A} (reach : After Step a₀ n a) :
    (∃ i c, g.classes[i]? = some c ∧ R a c ∧ g.Within n i) ∨
      ∃ k < n, ∃ i, g.expanded ≤ i ∧ g.Within k i := by
  induction n generalizing a with
  | zero =>
    obtain rfl : a = a₀ := reach
    exact .inl ⟨0, s₀, h.head, start, rfl⟩
  | succ n ih =>
    obtain ⟨b, reach, step⟩ := reach
    rcases ih reach with ⟨i, c, at_, related, near⟩ | ⟨k, lt, i, waiting, near⟩
    · by_cases done : i < g.expanded
      · have mem := List.mem_iff_getElem?.mpr ⟨i, at_⟩
        obtain ⟨l, x, succ, related'⟩ := follows b a c mem related step
        obtain ⟨j, d, edge, there, same⟩ := h.successor at_ done succ
        have mem' := List.mem_iff_getElem?.mpr ⟨j, there⟩
        exact .inl ⟨j, d, there, respects _ _ _ related' mem' same, .inr ⟨i, l, near, edge⟩⟩
      · exact .inr ⟨n, Nat.lt_succ_self n, i, Nat.le_of_not_lt done, near⟩
    · exact .inr ⟨k, Nat.lt_succ_of_lt lt, i, waiting, near⟩

end Coverage

end Exploration

end LibPetri.Basis
