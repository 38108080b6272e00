import Mathlib

/-! # Forests given by parents

A list in which no parent comes after its child, with trees over it: if the tree at an element encloses just
the trees at its children, then the trees at the roots enclose every tree once.
-/

namespace LibPetri.Basis

open List

section Forest

variable {α : Type} [DecidableEq α] (parent : α → Option α)

/-- The elements right below one. -/
def childrenOf (order : List α) (a : α) : List α := order.filter fun b => parent b = some a

/-- The elements whose parent is not in the list. -/
def rootsOf (order : List α) : List α := order.filter fun b => ∀ a ∈ order, parent b ≠ some a

/-- Nothing is listed twice, and no parent from its child on. -/
structure ParentsFirst (order : List α) : Prop where
  nodup : order.Nodup
  forward : order.Pairwise fun a b => parent a ≠ some b
  irrefl : ∀ a ∈ order, parent a ≠ some a

variable {parent} {order : List α} {a : α}

theorem mem_childrenOf {b : α} : b ∈ childrenOf parent order a ↔ b ∈ order ∧ parent b = some a := by
  simp [childrenOf]

omit [DecidableEq α] in
theorem ParentsFirst.of_append {l : List α} (h : ParentsFirst parent (l ++ order)) :
    ParentsFirst parent order where
  nodup := (nodup_append.mp h.nodup).2.1
  forward := (pairwise_append.mp h.forward).2.1
  irrefl a mem := h.irrefl a (mem_append_right _ mem)

/-- All children come later. -/
theorem ParentsFirst.children_eq {l after : List α} (h : ParentsFirst parent (l ++ a :: after)) :
    childrenOf parent (l ++ a :: after) a = childrenOf parent after a := by
  have earlier : l.filter (fun b => parent b = some a) = [] := by
    refine filter_eq_nil_iff.mpr fun b mem => ?_
    have := (pairwise_append.mp h.forward).2.2 b mem a mem_cons_self
    simpa using this
  have self : ¬ parent a = some a := h.irrefl a (by simp)
  rw [childrenOf, filter_append, earlier, nil_append, filter_cons_of_neg (by simpa using self)]
  rfl

/-- An element that is taken on is a root, and its children stop being roots. -/
theorem ParentsFirst.rootsOf_cons (h : ParentsFirst parent (a :: order)) :
    rootsOf parent (a :: order)
      = a :: (rootsOf parent order).filter fun b => !decide (parent b = some a) := by
  have top : ∀ b ∈ a :: order, parent a ≠ some b := by
    intro b mem
    cases mem with
    | head => exact h.irrefl a mem_cons_self
    | tail _ mem => exact (pairwise_cons.mp h.forward).1 b mem
  rw [rootsOf, filter_cons_of_pos (by simpa using top), rootsOf, filter_filter]
  congr 1
  refine filter_congr fun b _ => ?_
  simp only [mem_cons, forall_eq_or_imp, ne_eq, ← decide_not, ← Bool.decide_and]

/-- Before that they were. -/
theorem ParentsFirst.childrenOf_eq (h : ParentsFirst parent (a :: order)) :
    childrenOf parent order a = (rootsOf parent order).filter fun b => parent b = some a := by
  rw [childrenOf, rootsOf, filter_filter]
  refine filter_congr fun b _ => ?_
  rw [eq_comm, Bool.and_eq_left_iff_imp]
  intro below
  have below : parent b = some a := of_decide_eq_true below
  refine decide_eq_true fun c mem same => ?_
  rw [below, Option.some.injEq] at same
  subst same
  exact (nodup_cons.mp h.nodup).1 mem

variable (parent) in
/-- A list that names every parent, and before its children. -/
structure Rooted (order : List α) : Prop extends ParentsFirst parent order where
  closed : ∀ a ∈ order, ∀ b, parent a = some b → b ∈ order

omit [DecidableEq α] in
theorem rooted_nil : Rooted parent [] where
  nodup := nodup_nil
  forward := Pairwise.nil
  irrefl _ mem := absurd mem not_mem_nil
  closed _ mem := absurd mem not_mem_nil

omit [DecidableEq α] in
/-- A new element may follow once its parent is there. -/
theorem Rooted.concat (h : Rooted parent order) (new : a ∉ order) (above : ∀ b, parent a = some b → b ∈ order) :
    Rooted parent (order ++ [a]) where
  nodup := by
    rw [← concat_eq_append]
    exact h.nodup.concat new
  forward := by
    refine pairwise_append.mpr ⟨h.forward, pairwise_singleton _ _, fun b mem c last same => ?_⟩
    rw [mem_singleton] at last
    subst last
    exact new (h.closed b mem c same)
  irrefl b mem same := by
    rcases mem_append.mp mem with mem | last
    · exact h.irrefl b mem same
    · rw [mem_singleton] at last
      subst last
      exact new (above b same)
  closed b mem c same := by
    rcases mem_append.mp mem with mem | last
    · exact mem_append_left _ (h.closed b mem c same)
    · rw [mem_singleton] at last
      subst last
      exact mem_append_left _ (above c same)

/-- Its roots are those without a parent. -/
theorem Rooted.rootsOf_eq (h : Rooted parent order) :
    rootsOf parent order = order.filter fun a => parent a = none := by
  refine filter_congr fun a mem => decide_eq_decide.mpr ?_
  constructor
  · intro outside
    cases above : parent a with
    | none => rfl
    | some b => exact absurd above (outside b (h.closed a mem b above))
  · intro none b _ same
    rw [none] at same
    cases same

/-! ## Trees over the list -/

variable {β : Type} {enclosed : β → List β} {tree : α → β}

/-- Every tree is enclosed once. -/
theorem ParentsFirst.forest_perm (h : ParentsFirst parent order)
    (encloses : ∀ a ∈ order,
      enclosed (tree a) ~ tree a :: (childrenOf parent order a).flatMap fun b => enclosed (tree b)) :
    (rootsOf parent order).flatMap (fun a => enclosed (tree a)) ~ order.map tree := by
  induction order with
  | nil => exact Perm.refl _
  | cons a rest ih =>
    have later : ParentsFirst parent rest := ParentsFirst.of_append (l := [a]) h
    have here := encloses a mem_cons_self
    have none : childrenOf parent (a :: rest) a = childrenOf parent rest a :=
      ParentsFirst.children_eq (l := []) h
    rw [none] at here
    have there := ih later fun b mem => by
      have eq := encloses b (mem_cons_of_mem _ mem)
      have notAbove : ¬ parent a = some b := (pairwise_cons.mp h.forward).1 b mem
      rwa [childrenOf, filter_cons_of_neg (by simpa using notAbove)] at eq
    -- the children of `a` leave the roots and come back under it
    have moved := (filter_append_perm (fun b => parent b = some a) (rootsOf parent rest)).flatMap_right
      fun b => enclosed (tree b)
    rw [← h.childrenOf_eq, flatMap_append] at moved
    rw [h.rootsOf_cons, flatMap_cons, map_cons]
    exact (here.append_right _).trans ((moved.trans there).cons _)

end Forest

/-! ## Items by key -/

section Keys

variable {α κ : Type} [DecidableEq κ] (locate : α → Option κ)

/-- Items gathered key by key, behind those with no such key, are all the items. -/
theorem filter_ne_append_flatMap_perm {keys : List κ} (nodup : keys.Nodup) (items : List α) :
    (items.filter fun item => ∀ key ∈ keys, locate item ≠ some key) ++
      keys.flatMap (fun key => items.filter fun item => locate item = some key) ~ items := by
  induction keys with
  | nil =>
    rw [flatMap_nil, append_nil, filter_eq_self.mpr]
    simp
  | cons key keys ih =>
    obtain ⟨new, nodup⟩ := nodup_cons.mp nodup
    have here : (items.filter fun item => ∀ k ∈ keys, locate item ≠ some k).filter
        (fun item => locate item = some key) = items.filter fun item => locate item = some key := by
      rw [filter_filter]
      refine filter_congr fun item _ => ?_
      rw [Bool.and_eq_left_iff_imp]
      intro same
      refine decide_eq_true fun k mem found => new ?_
      rw [of_decide_eq_true same, Option.some.injEq] at found
      exact found ▸ mem
    have elsewhere : (items.filter fun item => ∀ k ∈ keys, locate item ≠ some k).filter
        (fun item => !decide (locate item = some key)) =
          items.filter fun item => ∀ k ∈ key :: keys, locate item ≠ some k := by
      rw [filter_filter]
      refine filter_congr fun item _ => ?_
      simp only [mem_cons, forall_eq_or_imp, ne_eq, ← decide_not, ← Bool.decide_and]
    have split := filter_append_perm (fun item => decide (locate item = some key))
      (items.filter fun item => ∀ k ∈ keys, locate item ≠ some k)
    rw [here, elsewhere] at split
    rw [flatMap_cons, ← append_assoc]
    exact ((perm_append_comm.trans split).append_right _).trans (ih nodup)

/-- Items gathered key by key, behind those without a key, are all the items. -/
theorem filter_none_append_flatMap_perm {keys : List κ} (nodup : keys.Nodup) {items : List α}
    (covered : ∀ item ∈ items, ∀ key, locate item = some key → key ∈ keys) :
    (items.filter fun item => locate item = none) ++
      keys.flatMap (fun key => items.filter fun item => locate item = some key) ~ items := by
  have outside : (items.filter fun item => locate item = none) =
      items.filter fun item => ∀ key ∈ keys, locate item ≠ some key := by
    refine filter_congr fun item mem => decide_eq_decide.mpr ?_
    constructor
    · intro none key _ found
      rw [none] at found
      cases found
    · intro apart
      cases found : locate item with
      | none => rfl
      | some key => exact absurd found (apart key (covered item mem key found))
  rw [outside]
  exact filter_ne_append_flatMap_perm locate nodup items

end Keys

/-! ## First occurrences -/

section Firsts

variable {α : Type} [DecidableEq α]

theorem nodup_eraseDups (l : List α) : l.eraseDups.Nodup := by
  induction h : l.length using Nat.strong_induction_on generalizing l with
  | _ n ih =>
    cases l with
    | nil => exact nodup_nil
    | cons a l =>
      rw [eraseDups_cons, nodup_cons]
      constructor
      · simp
      · have shorter := length_filter_le (fun b => !b == a) l
        exact ih _ (by rw [← h, length_cons]; omega) _ rfl

theorem eraseDups_concat (l : List α) (a : α) :
    (l ++ [a]).eraseDups = if a ∈ l then l.eraseDups else l.eraseDups ++ [a] := by
  rw [eraseDups_append]
  by_cases mem : a ∈ l
  · simp [mem, removeAll]
  · simp [mem, removeAll, eraseDups_cons]

omit [DecidableEq α] in
/-- A list that reads the same both ways and repeats nothing has at most one element. -/
theorem eq_of_reverse_eq {l : List α} (nodup : l.Nodup) (same : l.reverse = l) :
    ∀ a ∈ l, ∀ b ∈ l, a = b := by
  cases l with
  | nil => exact fun a mem => absurd mem not_mem_nil
  | cons c l =>
    cases empty : l with
    | nil =>
      intro a amem b bmem
      rw [mem_singleton] at amem bmem
      rw [amem, bmem]
    | cons d l' =>
      have last := congrArg head? same
      rw [head?_reverse, empty, getLast?_cons_cons, head?_cons] at last
      have := mem_of_getLast? last
      rw [empty] at nodup
      exact absurd this (nodup_cons.mp nodup).1

omit [DecidableEq α] in
theorem reverse_eq_of_forall_eq {l : List α} (nodup : l.Nodup) (same : ∀ a ∈ l, ∀ b ∈ l, a = b) :
    l.reverse = l := by
  cases l with
  | nil => rfl
  | cons a l =>
    cases l with
    | nil => rfl
    | cons b l =>
      have := same a mem_cons_self b (mem_cons_of_mem _ mem_cons_self)
      subst this
      exact absurd mem_cons_self (nodup_cons.mp nodup).1

end Firsts

end LibPetri.Basis
