import LibPetri.Verified.DuplicateOutputs

/-! # Ambiguous outputs

Once no branch names a place twice, the children of an and have no place in common, so the branches of the
and are the pairs of their branches, and claim the same places only pair by pair.  The structural search
for the first two branches that claim the same places is then the search for the first repeat in a sum or a
product of lists.
-/

namespace LibPetri.Verified

open LibPetri.Basis LibPetri.Core LibPetri.Runtime LibPetri.Verification

/-! ## Places and branches -/

theorem mem_collectPlacesAll {children : List Out} {p : PlaceName} :
    p ∈ Out.collectPlacesAll children ↔ ∃ c ∈ children, p ∈ c.collectPlaces := by
  induction children with
  | nil => simp [Out.collectPlacesAll]
  | cons c children ih => simp [Out.collectPlacesAll, ih]

mutual

theorem branchLeaves_places : ∀ out : Out, ∀ b ∈ branchLeaves out, ∀ p ∈ b, p ∈ out.collectPlaces
  | .place _, b, mem, p, here => by
    rw [List.mem_singleton.mp mem] at here
    exact here
  | .forwardInput _ _, b, mem, p, here => by
    rw [List.mem_singleton.mp mem] at here
    exact here
  | .timeout _ child, b, mem, p, here => branchLeaves_places child b mem p here
  | .xor children, b, mem, p, here => branchLeavesXor_places children b mem p here
  | .and children, b, mem, p, here => branchLeavesAnd_places children b mem p here

theorem branchLeavesXor_places : ∀ children : List Out, ∀ b ∈ branchLeavesXor children, ∀ p ∈ b,
    p ∈ Out.collectPlacesAll children
  | [], _, mem, _, _ => nomatch mem
  | child :: children, b, mem, p, here => by
    rw [Out.collectPlacesAll, List.mem_append]
    rcases List.mem_append.mp mem with first | later
    · exact .inl (branchLeaves_places child b first p here)
    · exact .inr (branchLeavesXor_places children b later p here)

theorem branchLeavesAnd_places : ∀ children : List Out, ∀ b ∈ branchLeavesAnd children, ∀ p ∈ b,
    p ∈ Out.collectPlacesAll children
  | [], b, mem, p, here => by
    rw [List.mem_singleton.mp mem] at here
    cases here
  | child :: children, b, mem, p, here => by
    obtain ⟨x, memx, y, memy, rfl⟩ := mem_productWith.mp mem
    rw [Out.collectPlacesAll, List.mem_append]
    rcases List.mem_append.mp here with first | later
    · exact .inl (branchLeaves_places child x memx p first)
    · exact .inr (branchLeavesAnd_places children y memy p later)

end

mutual

/-- Each leaf lies on some branch. -/
theorem exists_branch : ∀ out : Out, Choosable out → ∀ p ∈ out.collectPlaces,
    ∃ b ∈ branchLeaves out, p ∈ b
  | .place q, _, _, mem => ⟨[q], List.mem_singleton_self _, mem⟩
  | .forwardInput _ target, _, _, mem => ⟨[target], List.mem_singleton_self _, mem⟩
  | .timeout _ child, h, p, mem => exists_branch child h p mem
  | .xor children, h, p, mem => exists_branchXor children h.2 p mem
  | .and children, h, p, mem => exists_branchAnd children h p mem

theorem exists_branchXor : ∀ children : List Out, ChoosableAll children →
    ∀ p ∈ Out.collectPlacesAll children, ∃ b ∈ branchLeavesXor children, p ∈ b
  | [], _, _, mem => nomatch mem
  | child :: children, h, p, mem => by
    rcases List.mem_append.mp mem with first | later
    · obtain ⟨b, mem, here⟩ := exists_branch child h.1 p first
      exact ⟨b, List.mem_append_left _ mem, here⟩
    · obtain ⟨b, mem, here⟩ := exists_branchXor children h.2 p later
      exact ⟨b, List.mem_append_right _ mem, here⟩

theorem exists_branchAnd : ∀ children : List Out, ChoosableAll children →
    ∀ p ∈ Out.collectPlacesAll children, ∃ b ∈ branchLeavesAnd children, p ∈ b
  | [], _, _, mem => nomatch mem
  | child :: children, h, p, mem => by
    obtain ⟨x₀, memx₀⟩ := List.exists_mem_of_ne_nil _ (branchLeaves_ne_nil child h.1)
    obtain ⟨y₀, memy₀⟩ := List.exists_mem_of_ne_nil _ (branchLeavesAnd_ne_nil children h.2)
    rcases List.mem_append.mp mem with first | later
    · obtain ⟨x, memx, here⟩ := exists_branch child h.1 p first
      exact ⟨x ++ y₀, mem_productWith.mpr ⟨x, memx, y₀, memy₀, rfl⟩, List.mem_append_left _ here⟩
    · obtain ⟨y, memy, here⟩ := exists_branchAnd children h.2 p later
      exact ⟨x₀ ++ y, mem_productWith.mpr ⟨x₀, memx₀, y, memy, rfl⟩, List.mem_append_right _ here⟩

end

/-! ## The enumeration -/

theorem mergeClaim_append (merged a b : List PlaceName) :
    mergeClaim merged (a ++ b) = mergeClaim (mergeClaim merged a) b :=
  List.foldl_append

theorem mergeClaim_of_nodup {merged claim : List PlaceName} (nodup : (merged ++ claim).Nodup) :
    mergeClaim merged claim = merged ++ claim := by
  induction claim generalizing merged with
  | nil => rw [List.append_nil]; rfl
  | cons p claim ih =>
    have absent : p ∉ merged := fun mem =>
      (List.nodup_append.mp nodup).2.2 p mem p List.mem_cons_self rfl
    have step : mergeClaim merged (p :: claim) = mergeClaim (merged ++ [p]) claim := by
      rw [mergeClaim, List.foldl_cons, if_neg absent, mergeClaim]
    rw [step, ih (by simpa using nodup), List.append_assoc, List.singleton_append]

theorem mergeClaim_known {merged claim : List PlaceName} (known : ∀ p ∈ claim, p ∈ merged) :
    mergeClaim merged claim = merged := by
  induction claim with
  | nil => rfl
  | cons p claim ih =>
    have step : mergeClaim merged (p :: claim) = mergeClaim merged claim := by
      rw [mergeClaim, List.foldl_cons, if_pos (known p List.mem_cons_self), mergeClaim]
    rw [step, ih fun q mem => known q (List.mem_cons_of_mem p mem)]

/-- Merging a claim in, without its repetitions or with them. -/
theorem mergeClaim_toSet (merged claim : List PlaceName) :
    mergeClaim merged (toSet claim) = mergeClaim merged claim := by
  induction claim using List.reverseRecOn with
  | nil => rfl
  | append_singleton claim p ih =>
    rw [toSet, mergeClaim_append, mergeClaim_append, ← toSet, ← ih]
    have single (s : List PlaceName) : mergeClaim s [p] = if p ∈ s then s else s ++ [p] := rfl
    rw [single (toSet claim)]
    split
    next known =>
      have known' : ∀ q ∈ [p], q ∈ mergeClaim merged (toSet claim) := fun q mem => by
        rw [List.mem_singleton.mp mem]
        exact mem_mergeClaim.mpr (.inr known)
      exact (mergeClaim_known known').symm
    next => rw [mergeClaim_append]

mutual

/-- The enumeration lists the branches, each as a set. -/
theorem enumerateBranches_eq : ∀ out : Out, enumerateBranches out = (branchLeaves out).map toSet
  | .place _ => rfl
  | .forwardInput _ _ => rfl
  | .timeout _ child => by
    rw [enumerateBranches, branchLeaves]
    exact enumerateBranches_eq child
  | .xor children => by
    rw [enumerateBranches, branchLeaves]
    exact enumerateXor_eq children
  | .and children => by
    rw [enumerateBranches, branchLeaves, enumerateAnd_eq children, productWith, List.flatMap_singleton]
    rfl

theorem enumerateXor_eq : ∀ children : List Out,
    enumerateXor children = (branchLeavesXor children).map toSet
  | [] => rfl
  | child :: children => by
    rw [enumerateXor, branchLeavesXor, List.map_append, enumerateBranches_eq child,
      enumerateXor_eq children]

theorem enumerateAnd_eq : ∀ (children : List Out) (result : List (List PlaceName)),
    enumerateAnd children result = productWith mergeClaim result (branchLeavesAnd children)
  | [], result => (unit_productWith _ _ fun _ => rfl).symm
  | child :: children, result => by
    rw [enumerateAnd, enumerateAnd_eq children, branchLeavesAnd, enumerateBranches_eq child]
    simp only [productWith, Verification.crossProduct, List.flatMap_assoc, List.map_flatMap, List.flatMap_map,
      List.map_map]
    refine List.flatMap_congr fun r _ => List.flatMap_congr fun x _ => List.map_congr_left fun y _ => ?_
    rw [Function.comp_apply, mergeClaim_toSet]
    exact (mergeClaim_append r x y).symm

end

/-! ## Separate children -/

mutual

/-- The children of an and have no place in common. -/
def Separate : Out → Prop
  | .place _ => True
  | .forwardInput _ _ => True
  | .timeout _ child => Separate child
  | .xor children => SeparateAll children
  | .and children => SeparateAll children ∧
      children.Pairwise fun c c' => ∀ p ∈ c.collectPlaces, p ∉ c'.collectPlaces

def SeparateAll : List Out → Prop
  | [] => True
  | child :: children => Separate child ∧ SeparateAll children

end

mutual

theorem separate_of_nodup : ∀ out : Out, Choosable out → (∀ b ∈ branchLeaves out, b.Nodup) → Separate out
  | .place _, _, _ => trivial
  | .forwardInput _ _, _, _ => trivial
  | .timeout _ child, h, nodup => separate_of_nodup child h nodup
  | .xor children, h, nodup => separateXor_of_nodup children h.2 nodup
  | .and children, h, nodup => separateAnd_of_nodup children h nodup

theorem separateXor_of_nodup : ∀ children : List Out, ChoosableAll children →
    (∀ b ∈ branchLeavesXor children, b.Nodup) → SeparateAll children
  | [], _, _ => trivial
  | child :: children, h, nodup =>
    ⟨separate_of_nodup child h.1 fun b mem => nodup b (List.mem_append_left _ mem),
      separateXor_of_nodup children h.2 fun b mem => nodup b (List.mem_append_right _ mem)⟩

theorem separateAnd_of_nodup : ∀ children : List Out, ChoosableAll children →
    (∀ b ∈ branchLeavesAnd children, b.Nodup) → SeparateAll children ∧
      children.Pairwise fun c c' => ∀ p ∈ c.collectPlaces, p ∉ c'.collectPlaces
  | [], _, _ => ⟨trivial, List.Pairwise.nil⟩
  | child :: children, h, nodup => by
    have joined (x : List PlaceName) (memx : x ∈ branchLeaves child) (y : List PlaceName)
        (memy : y ∈ branchLeavesAnd children) : (x ++ y).Nodup :=
      nodup _ (mem_productWith.mpr ⟨x, memx, y, memy, rfl⟩)
    obtain ⟨x₀, memx₀⟩ := List.exists_mem_of_ne_nil _ (branchLeaves_ne_nil child h.1)
    obtain ⟨y₀, memy₀⟩ := List.exists_mem_of_ne_nil _ (branchLeavesAnd_ne_nil children h.2)
    obtain ⟨rest, pairwise⟩ := separateAnd_of_nodup children h.2 fun y memy =>
      (List.nodup_append.mp (joined x₀ memx₀ y memy)).2.1
    refine ⟨⟨separate_of_nodup child h.1 fun x memx => (List.nodup_append.mp (joined x memx y₀ memy₀)).1,
      rest⟩, List.pairwise_cons.mpr ⟨fun c memc p here there => ?_, pairwise⟩⟩
    obtain ⟨x, memx, inx⟩ := exists_branch child h.1 p here
    obtain ⟨y, memy, iny⟩ := exists_branchAnd children h.2 p (mem_collectPlacesAll.mpr ⟨c, memc, there⟩)
    exact (List.nodup_append.mp (joined x memx y memy)).2.2 p inx p iny rfl

end

/-! ## Counts and places -/

mutual

theorem count_eq : ∀ out : Out, count out = (branchLeaves out).length
  | .place _ => rfl
  | .forwardInput _ _ => rfl
  | .timeout _ child => count_eq child
  | .xor children => countXor_eq children
  | .and children => countAnd_eq children

theorem countXor_eq : ∀ children : List Out, countXor children = (branchLeavesXor children).length
  | [] => rfl
  | child :: children => by
    rw [countXor, branchLeavesXor, List.length_append, count_eq child, countXor_eq children]

theorem countAnd_eq : ∀ children : List Out, countAnd children = (branchLeavesAnd children).length
  | [] => rfl
  | child :: children => by
    rw [countAnd, branchLeavesAnd, length_productWith, count_eq child, countAnd_eq children]

end

mutual

theorem mem_universe : ∀ (out : Out) {p : PlaceName}, p ∈ universe_ out ↔ p ∈ out.collectPlaces
  | .place q, p => Iff.rfl
  | .forwardInput _ target, p => Iff.rfl
  | .timeout _ child, p => mem_universe child
  | .xor children, p => (mem_universeAll children).trans (by simp [Out.collectPlaces])
  | .and children, p => (mem_universeAll children).trans (by simp [Out.collectPlaces])

theorem mem_universeAll : ∀ (children : List Out) {u : List PlaceName} {p : PlaceName},
    p ∈ universeAll children u ↔ p ∈ u ∨ p ∈ Out.collectPlacesAll children
  | [], u, p => by simp [universeAll, Out.collectPlacesAll]
  | child :: children, u, p => by
    rw [universeAll, mem_universeAll children, mem_mergeClaim, mem_universe child, Out.collectPlacesAll,
      List.mem_append, or_assoc]

end

mutual

theorem decode_eq : ∀ (out : Out) {n : Nat} {b : List PlaceName}, (branchLeaves out)[n]? = some b →
    decode out n = .ok b
  | .place q, n, b, at_ => by
    rw [List.mem_singleton.mp (List.mem_of_getElem? at_)]
    rfl
  | .forwardInput _ target, n, b, at_ => by
    rw [List.mem_singleton.mp (List.mem_of_getElem? at_)]
    rfl
  | .timeout _ child, n, b, at_ => by
    rw [decode]
    exact decode_eq child at_
  | .xor children, n, b, at_ => by
    rw [decode]
    exact decodeXor_eq children at_
  | .and children, n, b, at_ => by
    have inside : n < countAnd children := by
      rw [countAnd_eq]
      exact (List.getElem?_eq_some_iff.mp at_).1
    rw [decode, decodeAnd_eq children (n := n) (by rwa [Nat.mod_eq_of_lt inside])]

theorem decodeXor_eq : ∀ (children : List Out) {n : Nat} {b : List PlaceName},
    (branchLeavesXor children)[n]? = some b → decodeXor children n = .ok b
  | [], n, b, at_ => by simp [branchLeavesXor] at at_
  | child :: children, n, b, at_ => by
    rw [branchLeavesXor] at at_
    rw [decodeXor, count_eq]
    split
    next lt =>
      rw [List.getElem?_append_left lt] at at_
      exact decode_eq child at_
    next ge =>
      rw [List.getElem?_append_right (Nat.le_of_not_lt ge)] at at_
      exact decodeXor_eq children at_

/-- The digits of an index, from the last on: what is left is the quotient. -/
theorem decodeAnd_eq : ∀ (children : List Out) {n : Nat} {b : List PlaceName},
    (branchLeavesAnd children)[n % countAnd children]? = some b →
    decodeAnd children n = .ok (b, n / countAnd children)
  | [], n, b, at_ => by
    rw [List.mem_singleton.mp (List.mem_of_getElem? at_), decodeAnd, countAnd, Nat.div_one]
  | child :: children, n, b, at_ => by
    obtain ⟨i, j, x, y, split, hx, hy, rfl⟩ := productWith_at at_
    have lti : i < count child := by
      rw [count_eq]
      exact (List.getElem?_eq_some_iff.mp hx).1
    have ltj : j < countAnd children := by
      rw [countAnd_eq]
      exact (List.getElem?_eq_some_iff.mp hy).1
    rw [countAnd, ← countAnd_eq] at split
    have low : n % countAnd children = j := by
      rw [← Nat.mod_mul_left_mod n (count child), split, Nat.mul_comm, Nat.mul_add_mod,
        Nat.mod_eq_of_lt ltj]
    have high : n / countAnd children % count child = i := by
      rw [← Nat.mod_mul_left_div_self, split, Nat.add_comm, Nat.add_mul_div_right _ _ (by omega),
        Nat.div_eq_of_lt ltj, Nat.zero_add]
    rw [decodeAnd, decodeAnd_eq children (low ▸ hy)]
    dsimp only
    rw [if_neg (by omega), decode_eq child (high ▸ hx), countAnd, Nat.div_div_eq_div_mul,
      Nat.mul_comm (countAnd children)]

end

/-! ## The index of a set -/

/-- The set of places each branch claims. -/
def branchSets (out : Out) : List (Finset PlaceName) := (branchLeaves out).map List.toFinset

theorem union_apart {A A' B B' : Finset PlaceName} {P : PlaceName → Prop} (inside : ∀ p ∈ A, P p)
    (inside' : ∀ p ∈ A', P p) (outside : ∀ p ∈ B, ¬ P p) (outside' : ∀ p ∈ B', ¬ P p)
    (same : A ∪ B = A' ∪ B') : A = A' ∧ B = B' := by
  have iff (p : PlaceName) : p ∈ A ∨ p ∈ B ↔ p ∈ A' ∨ p ∈ B' := by
    rw [← Finset.mem_union, same, Finset.mem_union]
  constructor
  · ext p
    constructor
    · intro mem
      exact ((iff p).mp (.inl mem)).resolve_right fun mem' => outside' p mem' (inside p mem)
    · intro mem
      exact ((iff p).mpr (.inl mem)).resolve_right fun mem' => outside p mem' (inside' p mem)
  · ext p
    constructor
    · intro mem
      exact ((iff p).mp (.inr mem)).resolve_left fun mem' => outside p mem (inside' p mem')
    · intro mem
      exact ((iff p).mpr (.inr mem)).resolve_left fun mem' => outside' p mem (inside p mem')

theorem branchSets_and (child : Out) (children : List Out) :
    (branchLeavesAnd (child :: children)).map List.toFinset =
      productWith (· ∪ ·) (branchSets child) ((branchLeavesAnd children).map List.toFinset) := by
  rw [branchLeavesAnd, productWith, productWith, branchSets, List.map_flatMap, List.flatMap_map]
  refine List.flatMap_congr fun x _ => ?_
  rw [List.map_map, List.map_map]
  exact List.map_congr_left fun y _ => List.toFinset_append

/-- The claims of one child and of those after it are told apart in their union. -/
theorem union_apart_of_separate {child : Out} {children : List Out} {A A' B B' : Finset PlaceName}
    (separate : ∀ c ∈ children, ∀ p ∈ child.collectPlaces, p ∉ c.collectPlaces)
    (inA : ∀ p ∈ A, p ∈ child.collectPlaces) (inA' : ∀ p ∈ A', p ∈ child.collectPlaces)
    (inB : ∀ p ∈ B, p ∈ Out.collectPlacesAll children) (inB' : ∀ p ∈ B', p ∈ Out.collectPlacesAll children)
    (same : A ∪ B = A' ∪ B') : A = A' ∧ B = B' := by
  have outside {p : PlaceName} (mem : p ∈ Out.collectPlacesAll children) : p ∉ child.collectPlaces := by
    obtain ⟨c, memc, here⟩ := mem_collectPlacesAll.mp mem
    exact fun there => separate c memc p there here
  exact union_apart inA inA' (fun p mem => outside (inB p mem)) (fun p mem => outside (inB' p mem)) same

theorem branchSets_places {out : Out} {S : Finset PlaceName} (mem : S ∈ branchSets out) :
    ∀ p ∈ S, p ∈ out.collectPlaces := by
  obtain ⟨b, memb, rfl⟩ := List.mem_map.mp mem
  exact fun p here => branchLeaves_places out b memb p (List.mem_toFinset.mp here)

theorem branchSetsAnd_places {children : List Out} {S : Finset PlaceName}
    (mem : S ∈ (branchLeavesAnd children).map List.toFinset) :
    ∀ p ∈ S, p ∈ Out.collectPlacesAll children := by
  obtain ⟨b, memb, rfl⟩ := List.mem_map.mp mem
  exact fun p here => branchLeavesAnd_places children b memb p (List.mem_toFinset.mp here)

section Split

variable {children : List Out}

/-- The first child that can claim a place. -/
def childOf (children : List Out) (p : PlaceName) : Option Nat :=
  children.findIdx? fun c => p ∈ universe_ c

theorem foldlM_split (children : List Out) (set : List PlaceName) (parts : List (List PlaceName)) :
    (∃ p ∈ set, childOf children p = none) ∧
      set.foldlM (fun parts p => (childOf children p).map fun k => parts.modify k (· ++ [p])) parts = none ∨
    (∀ p ∈ set, childOf children p ≠ none) ∧ ∃ parts',
      set.foldlM (fun parts p => (childOf children p).map fun k => parts.modify k (· ++ [p])) parts =
        some parts' ∧
      ∀ k : Nat, parts'[k]? = (parts[k]?).map (· ++ set.filter fun p => childOf children p = some k) := by
  induction set generalizing parts with
  | nil => exact .inr ⟨nofun, parts, rfl, fun k => by simp⟩
  | cons p set ih =>
    rw [List.foldlM_cons]
    cases first : childOf children p with
    | none => exact .inl ⟨⟨p, List.mem_cons_self, first⟩, rfl⟩
    | some k =>
      rcases ih (parts.modify k (· ++ [p])) with ⟨⟨q, mem, nowhere⟩, failed⟩ | ⟨all, parts', ok, at_⟩
      · exact .inl ⟨⟨q, List.mem_cons_of_mem _ mem, nowhere⟩, failed⟩
      · refine .inr ⟨fun q mem => ?_, parts', ok, fun l => ?_⟩
        · rcases List.mem_cons.mp mem with rfl | later
          · rw [first]
            exact Option.some_ne_none k
          · exact all q later
        · rw [at_, List.getElem?_modify, List.filter_cons, first]
          by_cases same : k = l
          · subst same
            simp [Function.comp_def]
          · simp [same]

/-- Among separate children a set splits by their places. -/
theorem splitAmong_eq (separate : children.Pairwise fun c c' => ∀ p ∈ c.collectPlaces, p ∉ c'.collectPlaces)
    (set : List PlaceName) :
    splitAmong children set =
      if ∀ p ∈ set, p ∈ Out.collectPlacesAll children then
        some (children.map fun c => set.filter fun p => p ∈ c.collectPlaces)
      else none := by
  have somewhere (p : PlaceName) : childOf children p ≠ none ↔ p ∈ Out.collectPlacesAll children := by
    rw [childOf, Ne, List.findIdx?_eq_none_iff, mem_collectPlacesAll]
    simp [mem_universe]
  rcases foldlM_split children set (children.map fun _ => []) with
    ⟨⟨p, mem, nowhere⟩, failed⟩ | ⟨all, parts, ok, at_⟩
  · rw [if_neg fun within => (somewhere p).mpr (within p mem) nowhere]
    exact failed
  · rw [if_pos fun p mem => (somewhere p).mp (all p mem)]
    refine (show splitAmong children set = some parts from ok).trans (congrArg some ?_)
    refine List.ext_getElem? fun k => ?_
    rw [at_, List.getElem?_map, List.getElem?_map, Option.map_map]
    cases here : children[k]? with
    | none => rfl
    | some c =>
      simp only [Option.map_some, Function.comp_apply, List.nil_append, Option.some.injEq]
      refine List.filter_congr fun p mem => decide_eq_decide.mpr ?_
      rw [childOf, List.findIdx?_eq_some_iff_getElem]
      obtain ⟨lt, rfl⟩ := List.getElem?_eq_some_iff.mp here
      constructor
      · rintro ⟨_, claims, _⟩
        exact (mem_universe _).mp (by simpa using claims)
      · intro listed
        refine ⟨lt, by simpa using (mem_universe _).mpr listed, fun j jlt => ?_⟩
        have apart := List.pairwise_iff_getElem.mp separate j k (jlt.trans lt) lt jlt p
        simpa using fun early => apart ((mem_universe _).mp early) listed

end Split

theorem single_toFinset {p : PlaceName} {set : List PlaceName} (nodup : set.Nodup) :
    set.length = 1 ∧ p ∈ set ↔ {p} = set.toFinset := by
  constructor
  · rintro ⟨one, mem⟩
    obtain ⟨q, rfl⟩ := List.length_eq_one_iff.mp one
    rw [List.mem_singleton.mp mem]
    rfl
  · intro same
    rw [← List.toFinset_card_of_nodup nodup, ← same, Finset.card_singleton, ← List.mem_toFinset, ← same]
    exact ⟨rfl, Finset.mem_singleton_self p⟩

theorem firstOf_single {p : PlaceName} {set : List PlaceName} (nodup : set.Nodup) :
    FirstOf [({p} : Finset PlaceName)] set.toFinset
      (if set.length = 1 ∧ p ∈ set then some 0 else none) := by
  by_cases single : set.length = 1 ∧ p ∈ set
  · rw [if_pos single]
    exact .found (congrArg some ((single_toFinset nodup).mp single)) nofun
  · rw [if_neg single]
    refine .absent fun n at_ => single ((single_toFinset nodup).mpr ?_)
    exact (List.mem_singleton.mp (List.mem_of_getElem? at_)).symm

mutual

/-- The index of a set is that of the first branch that claims it. -/
theorem firstIndexOf_first : ∀ out : Out, Separate out → ∀ set : List PlaceName, set.Nodup →
    FirstOf (branchSets out) set.toFinset (firstIndexOf out set)
  | .place p, _, set, nodup => firstOf_single nodup
  | .forwardInput _ target, _, set, nodup => firstOf_single nodup
  | .timeout _ child, h, set, nodup => firstIndexOf_first child h set nodup
  | .xor children, h, set, nodup => by
    obtain ⟨search, first, all⟩ := firstIndexOfXor_first children h set nodup
    rw [firstIndexOf, all 0]
    simpa [branchSets, branchLeaves] using first
  | .and children, h, set, nodup => by
    obtain ⟨search, first, all⟩ := firstIndexOfAnd_first children h.1 h.2 set nodup
    rw [firstIndexOf, splitAmong_eq h.2]
    by_cases within : ∀ p ∈ set, p ∈ Out.collectPlacesAll children
    · rw [if_pos within]
      dsimp only
      rw [all 0]
      have whole : (set.filter fun p => p ∈ Out.collectPlacesAll children) = set :=
        List.filter_eq_self.mpr fun p mem => decide_eq_true (within p mem)
      rw [whole] at first
      simpa [branchSets, branchLeaves] using first
    · rw [if_neg within]
      refine .absent fun n at_ => within fun p mem => ?_
      exact branchSetsAnd_places (List.mem_of_getElem? at_) p (List.mem_toFinset.mpr mem)

theorem firstIndexOfXor_first : ∀ children : List Out, SeparateAll children → ∀ set : List PlaceName,
    set.Nodup → ∃ search, FirstOf ((branchLeavesXor children).map List.toFinset) set.toFinset search ∧
      ∀ offset, firstIndexOfXor children set offset = search.map (offset + ·)
  | [], _, set, _ => ⟨none, .absent fun n at_ => by simp [branchLeavesXor] at at_, fun _ => rfl⟩
  | child :: children, h, set, nodup => by
    have here := firstIndexOf_first child h.1 set nodup
    obtain ⟨later, first, all⟩ := firstIndexOfXor_first children h.2 set nodup
    refine ⟨(firstIndexOf child set).or (later.map ((branchSets child).length + ·)), ?_,
      fun offset => ?_⟩
    · rw [branchLeavesXor, List.map_append]
      exact here.append first
    · rw [firstIndexOfXor]
      cases firstIndexOf child set with
      | some idx => rfl
      | none =>
        dsimp only
        rw [all, Option.none_or, Option.map_map, branchSets, List.length_map, ← count_eq]
        refine congrArg (later.map ·) (funext fun n => ?_)
        exact Nat.add_assoc _ _ _

theorem firstIndexOfAnd_first : ∀ children : List Out, SeparateAll children →
    (children.Pairwise fun c c' => ∀ p ∈ c.collectPlaces, p ∉ c'.collectPlaces) →
    ∀ set : List PlaceName, set.Nodup → ∃ search,
      FirstOf ((branchLeavesAnd children).map List.toFinset)
        (set.filter fun p => p ∈ Out.collectPlacesAll children).toFinset search ∧
      ∀ index, firstIndexOfAnd children (children.map fun c => set.filter fun p => p ∈ c.collectPlaces)
        index = search.map (index * countAnd children + ·)
  | [], _, _, set, _ => by
    refine ⟨some 0, .found ?_ nofun, fun index => ?_⟩
    · simp [branchLeavesAnd, Out.collectPlacesAll]
    · simp [firstIndexOfAnd, countAnd]
  | child :: children, h, separate, set, nodup => by
    rw [List.pairwise_cons] at separate
    have here := firstIndexOf_first child h.1 (set.filter fun p => p ∈ child.collectPlaces)
      (nodup.filter _)
    obtain ⟨later, first, all⟩ := firstIndexOfAnd_first children h.2 separate.2 set nodup
    refine ⟨(firstIndexOf child (set.filter fun p => p ∈ child.collectPlaces)).bind fun a =>
      later.map fun b => a * ((branchLeavesAnd children).map List.toFinset).length + b, ?_,
      fun index => ?_⟩
    · have joined := here.product (f := (· ∪ ·)) first fun A memA B memB same =>
        union_apart_of_separate separate.1 (branchSets_places memA) (by simp) (branchSetsAnd_places memB)
          (by simp) same
      rw [branchSets_and]
      have whole : (set.filter fun p => p ∈ Out.collectPlacesAll (child :: children)).toFinset =
          (set.filter fun p => p ∈ child.collectPlaces).toFinset ∪
            (set.filter fun p => p ∈ Out.collectPlacesAll children).toFinset := by
        ext p
        simp only [Out.collectPlacesAll, List.mem_toFinset, List.mem_filter, List.mem_append,
          decide_eq_true_eq, Finset.mem_union, and_or_left]
      rw [whole]
      exact joined
    · rw [List.map_cons, firstIndexOfAnd, List.length_map, ← countAnd_eq]
      cases firstIndexOf child (set.filter fun p => p ∈ child.collectPlaces) with
      | none => rfl
      | some idx =>
        dsimp only
        rw [all, Option.bind_some, Option.map_map, countAnd]
        refine congrArg (later.map ·) (funext fun n => ?_)
        rw [Function.comp_apply, Nat.add_mul, Nat.mul_assoc, Nat.add_assoc]

end

/-! ## Branches within a set of places -/

section Within

variable {within : List PlaceName}

/-- All places of a branch lie in `within`. -/
def staysWithin (within b : List PlaceName) : Bool := b.all fun p => p ∈ within

theorem staysWithin_append (x y : List PlaceName) :
    staysWithin within (x ++ y) = (staysWithin within x && staysWithin within y) :=
  List.all_append

mutual

theorem canStayWithin_iff : ∀ out : Out,
    canStayWithin within out = true ↔ ∃ b ∈ branchLeaves out, staysWithin within b = true
  | .place p => by simp [canStayWithin, branchLeaves, staysWithin]
  | .forwardInput _ target => by simp [canStayWithin, branchLeaves, staysWithin]
  | .timeout _ child => canStayWithin_iff child
  | .xor children => canStayWithinSome_iff children
  | .and children => canStayWithinEvery_iff children

theorem canStayWithinSome_iff : ∀ children : List Out,
    canStayWithinSome within children = true ↔
      ∃ b ∈ branchLeavesXor children, staysWithin within b = true
  | [] => by simp [canStayWithinSome, branchLeavesXor]
  | child :: children => by
    rw [canStayWithinSome, Bool.or_eq_true, canStayWithin_iff child, canStayWithinSome_iff children]
    simp only [branchLeavesXor, List.mem_append, or_and_right, exists_or]

theorem canStayWithinEvery_iff : ∀ children : List Out,
    canStayWithinEvery within children = true ↔
      ∃ b ∈ branchLeavesAnd children, staysWithin within b = true
  | [] => by simp [canStayWithinEvery, branchLeavesAnd, staysWithin]
  | child :: children => by
    rw [canStayWithinEvery, Bool.and_eq_true, canStayWithin_iff child, canStayWithinEvery_iff children]
    constructor
    · rintro ⟨⟨x, memx, here⟩, y, memy, there⟩
      refine ⟨x ++ y, mem_productWith.mpr ⟨x, memx, y, memy, rfl⟩, ?_⟩
      rw [staysWithin_append, here, there]
      rfl
    · rintro ⟨b, mem, stays⟩
      obtain ⟨x, memx, y, memy, rfl⟩ := mem_productWith.mp mem
      rw [staysWithin_append, Bool.and_eq_true] at stays
      exact ⟨⟨x, memx, stays.1⟩, y, memy, stays.2⟩

end

mutual

theorem canBeEmpty_iff : ∀ out : Out, canBeEmpty out = true ↔ [] ∈ branchLeaves out
  | .place p => by simp [canBeEmpty, branchLeaves]
  | .forwardInput _ target => by simp [canBeEmpty, branchLeaves]
  | .timeout _ child => canBeEmpty_iff child
  | .xor children => canBeEmptySome_iff children
  | .and children => canBeEmptyEvery_iff children

theorem canBeEmptySome_iff : ∀ children : List Out,
    canBeEmptySome children = true ↔ [] ∈ branchLeavesXor children
  | [] => by simp [canBeEmptySome, branchLeavesXor]
  | child :: children => by
    rw [canBeEmptySome, Bool.or_eq_true, canBeEmpty_iff child, canBeEmptySome_iff children,
      branchLeavesXor, List.mem_append]

theorem canBeEmptyEvery_iff : ∀ children : List Out,
    canBeEmptyEvery children = true ↔ [] ∈ branchLeavesAnd children
  | [] => by simp [canBeEmptyEvery, branchLeavesAnd]
  | child :: children => by
    rw [canBeEmptyEvery, Bool.and_eq_true, canBeEmpty_iff child, canBeEmptyEvery_iff children,
      branchLeavesAnd, mem_productWith]
    simp [List.append_eq_nil_iff]

end

mutual

/-- The numbered branches that stay within. -/
theorem branchesWithin_eq : ∀ out : Out,
    branchesWithin within out = (numbered (branchLeaves out)).filter fun e => staysWithin within e.2
  | .place p => by
    rw [branchesWithin]
    by_cases mem : p ∈ within
    · simp [mem, branchLeaves, numbered, numberedFrom, staysWithin]
    · simp [mem, branchLeaves, numbered, numberedFrom, staysWithin]
  | .forwardInput _ target => by
    rw [branchesWithin]
    by_cases mem : target ∈ within
    · simp [mem, branchLeaves, numbered, numberedFrom, staysWithin]
    · simp [mem, branchLeaves, numbered, numberedFrom, staysWithin]
  | .timeout _ child => by
    rw [branchesWithin, branchLeaves]
    exact branchesWithin_eq child
  | .xor children => by
    rw [branchesWithin, branchLeaves, branchesWithinXor_eq children 0]
    simp
  | .and children => by
    rw [branchesWithin, branchLeaves]
    split
    next => exact productWithin_eq children
    next cannot =>
      refine (List.filter_eq_nil_iff.mpr fun e mem stays => ?_).symm
      exact cannot ((canStayWithinEvery_iff children).mpr
        ⟨e.2, List.mem_of_getElem? (mem_numbered.mp mem), stays⟩)

theorem branchesWithinXor_eq : ∀ (children : List Out) (offset : Nat),
    branchesWithinXor within children offset =
      ((numbered (branchLeavesXor children)).filter fun e => staysWithin within e.2).map
        fun e => (offset + e.1, e.2)
  | [], _ => rfl
  | child :: children, offset => by
    rw [branchesWithinXor, branchesWithin_eq child, branchesWithinXor_eq children, branchLeavesXor,
      numbered_append, List.filter_append, List.map_append, List.filter_map, List.map_map, count_eq]
    congr 1
    refine List.map_congr_left fun e _ => ?_
    simp only [Function.comp_apply, Nat.add_assoc]

theorem productWithin_eq : ∀ children : List Out,
    productWithin within children =
      (numbered (branchLeavesAnd children)).filter fun e => staysWithin within e.2
  | [] => rfl
  | child :: children => by
    rw [productWithin, branchesWithin_eq child, productWithin_eq children, branchLeavesAnd,
      numbered_productWith, List.filter_flatMap, countAnd_eq]
    induction numbered (branchLeaves child) with
    | nil => rfl
    | cons head heads ih =>
      rw [List.flatMap_cons, List.filter_cons, List.filter_map, ← ih]
      split
      next stays =>
        rw [List.flatMap_cons]
        congr 2
        refine List.filter_congr fun tail _ => ?_
        rw [Function.comp_apply, staysWithin_append, stays, Bool.true_and]
      next leaves =>
        have dropped (tail : Nat × List PlaceName) : staysWithin within (head.2 ++ tail.2) = false := by
          rw [staysWithin_append, Bool.eq_false_iff.mpr leaves, Bool.false_and]
        simp [Function.comp_def, dropped]

end

end Within

/-! ## A claim of an earlier alternative -/

section Rivals

variable {earlier : List Out} {child : Out}

/-- The sets the branches of some alternatives claim. -/
def claimedBy (alternatives : List Out) : List (Finset PlaceName) := alternatives.flatMap branchSets

theorem mem_claimedBy {alternatives : List Out} {S : Finset PlaceName} :
    S ∈ claimedBy alternatives ↔ ∃ e ∈ alternatives, S ∈ branchSets e := by
  rw [claimedBy, List.mem_flatMap]

/-- An alternative that claims what a branch of the child claims is a rival. -/
theorem mem_rivalsOf {e : Out} {b : List PlaceName} (mem : e ∈ earlier) (memb : b ∈ branchLeaves child)
    (claimed : b.toFinset ∈ branchSets e) : e ∈ rivalsOf earlier child := by
  refine List.mem_filter.mpr ⟨mem, ?_⟩
  cases b with
  | nil =>
    obtain ⟨b', memb', same⟩ := List.mem_map.mp claimed
    rw [List.toFinset_nil, List.toFinset_eq_empty_iff] at same
    have empty := (canBeEmpty_iff e).mpr (same ▸ memb')
    simp [(canBeEmpty_iff child).mpr memb, empty]
  | cons p b =>
    have here := branchLeaves_places child _ memb p List.mem_cons_self
    have there := branchSets_places claimed p (List.mem_toFinset.mpr List.mem_cons_self)
    rw [Bool.or_eq_true, List.any_eq_true]
    exact .inl ⟨p, (mem_universe e).mpr there, decide_eq_true ((mem_universe child).mpr here)⟩

theorem mem_foldl_universe {rivals : List Out} {within : List PlaceName} {p : PlaceName} :
    p ∈ rivals.foldl (fun within r => mergeClaim within (universe_ r)) within ↔
      p ∈ within ∨ ∃ r ∈ rivals, p ∈ r.collectPlaces := by
  induction rivals generalizing within with
  | nil => simp
  | cons r rivals ih =>
    rw [List.foldl_cons, ih, mem_mergeClaim, mem_universe, or_assoc]
    simp

theorem toSet_nodup (names : List PlaceName) : (toSet names).Nodup := by
  have merge (merged : List PlaceName) (nodup : merged.Nodup) : (mergeClaim merged names).Nodup := by
    rw [mergeClaim]
    induction names generalizing merged with
    | nil => exact nodup
    | cons p names ih =>
      rw [List.foldl_cons]
      split
      next => exact ih merged nodup
      next absent =>
        refine ih _ (List.nodup_append.mpr ⟨nodup, List.nodup_singleton p, fun q mem q' mem' same => ?_⟩)
        rw [List.mem_singleton.mp mem'] at same
        exact absent (same ▸ mem)
  exact merge [] List.nodup_nil

theorem toSet_toFinset (names : List PlaceName) : (toSet names).toFinset = names.toFinset := by
  ext p
  rw [List.mem_toFinset, List.mem_toFinset, toSet, mem_mergeClaim]
  simp

/-- Some rival claims the places of a branch. -/
def rivalled (rivals : List Out) (b : List PlaceName) : Bool :=
  rivals.any fun r => (firstIndexOf r (toSet b)).isSome

theorem rivalled_iff {rivals : List Out} (separate : ∀ r ∈ rivals, Separate r) (b : List PlaceName) :
    rivalled rivals b = true ↔ b.toFinset ∈ claimedBy rivals := by
  rw [rivalled, List.any_eq_true, mem_claimedBy]
  refine exists_congr fun r => and_congr_right fun mem => ?_
  have first := firstIndexOf_first r (separate r mem) (toSet b) (toSet_nodup b)
  rw [toSet_toFinset] at first
  rw [← not_iff_not, ← first.none_iff, Bool.not_eq_true, Option.isSome_eq_false_iff, Option.isNone_iff_eq_none]

/-- A branch of the child within the places of its rivals that a rival claims is one that any earlier
alternative claims. -/
theorem rivalled_within (separate : ∀ e ∈ earlier, Separate e) {b : List PlaceName}
    (memb : b ∈ branchLeaves child) :
    (staysWithin ((rivalsOf earlier child).foldl (fun within r => mergeClaim within (universe_ r)) []) b &&
      rivalled (rivalsOf earlier child) b) = true ↔ b.toFinset ∈ claimedBy earlier := by
  have among {r : Out} (mem : r ∈ rivalsOf earlier child) : r ∈ earlier := (List.mem_filter.mp mem).1
  rw [Bool.and_eq_true, rivalled_iff fun r mem => separate r (among mem), mem_claimedBy, mem_claimedBy]
  constructor
  · rintro ⟨-, r, mem, claimed⟩
    exact ⟨r, among mem, claimed⟩
  · rintro ⟨e, mem, claimed⟩
    have rival := mem_rivalsOf mem memb claimed
    refine ⟨List.all_eq_true.mpr fun p here => decide_eq_true ?_, e, rival, claimed⟩
    exact mem_foldl_universe.mpr (.inr ⟨e, rival, branchSets_places claimed p (List.mem_toFinset.mpr here)⟩)

/-- The search stops past its bound. -/
theorem firstRivalled_eq {rivals : List Out} {bound : Option Nat} {branches : List (Nat × List PlaceName)}
    (sorted : branches.Pairwise fun e e' => e.1 < e'.1) :
    firstRivalled rivals bound branches =
      ((branches.find? fun e => rivalled rivals e.2).map Prod.fst).filter fun n => !bound.any (· < n) := by
  induction branches with
  | nil => rfl
  | cons e branches ih =>
    rw [List.pairwise_cons] at sorted
    rw [firstRivalled, List.find?_cons]
    by_cases past : bound.any (· < e.1) = true
    · obtain ⟨limit, rfl⟩ : ∃ limit, bound = some limit := by
        cases bound with
        | none => cases past
        | some limit => exact ⟨limit, rfl⟩
      have past' : limit < e.1 := of_decide_eq_true past
      rw [if_pos past]
      -- What comes later is past the bound too.
      refine (Option.filter_eq_none_iff.mpr fun n found => ?_).symm
      obtain ⟨e', there, rfl⟩ := Option.map_eq_some_iff.mp found
      have le : e.1 ≤ e'.1 := by
        split at there
        next => rw [Option.some.inj there]
        next => exact (sorted.1 e' (List.mem_of_find?_eq_some there)).le
      simpa using past'.trans_le le
    · rw [if_neg past]
      have fold : rivalled rivals e.2 = rivals.any fun r => (firstIndexOf r (toSet e.2)).isSome := rfl
      rw [← fold]
      cases rivalled rivals e.2 with
      | true => simp [Option.filter, past]
      | false => simpa using ih sorted.2

/-- Whatever the bound, up to it the search finds the first branch that an earlier alternative claims. -/
theorem firstClaimedEarlier_eq (child : Out) (separate : ∀ e ∈ earlier, Separate e) :
    ∃ cross, IsFirst (fun n => ∃ S ∈ claimedBy earlier, (branchSets child)[n]? = some S) cross ∧
      ∀ bound, firstClaimedEarlier earlier child bound = cross.filter fun n => !bound.any (· < n) := by
  refine ⟨_, (isFirst_find? (branchLeaves child) fun e => staysWithin
    ((rivalsOf earlier child).foldl (fun within r => mergeClaim within (universe_ r)) []) e.2 &&
      rivalled (rivalsOf earlier child) e.2).congr fun n => ?_, fun bound => ?_⟩
  · constructor
    · rintro ⟨b, at_, claimed⟩
      refine ⟨b.toFinset, (rivalled_within separate (List.mem_of_getElem? at_)).mp claimed, ?_⟩
      rw [branchSets, List.getElem?_map, at_]
      rfl
    · rintro ⟨S, claimed, at_⟩
      rw [branchSets, List.getElem?_map] at at_
      obtain ⟨b, here, rfl⟩ := Option.map_eq_some_iff.mp at_
      exact ⟨b, here, (rivalled_within separate (List.mem_of_getElem? here)).mpr claimed⟩
  · rw [firstClaimedEarlier]
    dsimp only
    by_cases none_ : rivalsOf earlier child = []
    · rw [if_pos none_, none_, List.find?_eq_none.mpr]
      · rfl
      · simp [rivalled]
    · rw [if_neg none_, branchesWithin_eq, firstRivalled_eq ((numbered_pairwise _).filter _),
        List.find?_filter]
      simp

theorem earlierOf_filter (cross own : Option Nat) :
    earlierOf (cross.filter fun n => !own.any (· < n)) own = cross.merge min own := by
  cases cross with
  | none => cases own <;> rfl
  | some x =>
    cases own with
    | none => rfl
    | some o =>
      by_cases lt : o < x
      · simp [earlierOf, Option.filter, lt, Nat.min_eq_right lt.le]
      · simp [earlierOf, Option.filter, lt, Nat.le_of_not_lt lt]

end Rivals

/-! ## The first collision -/

theorem claimedBy_append_singleton (earlier : List Out) (child : Out) :
    claimedBy (earlier ++ [child]) = claimedBy earlier ++ branchSets child := by
  rw [claimedBy, List.flatMap_append, List.flatMap_singleton]
  rfl

theorem isFirst_none_repeats_nil : IsFirst (Repeats ([] : List (Finset PlaceName))) none :=
  .absent fun _ again => Nat.not_lt_zero _ again.lt_length

mutual

/-- The search finds the first branch whose set comes earlier. -/
theorem firstCollision_first : ∀ out : Out, Choosable out → Separate out →
    IsFirst (Repeats (branchSets out)) (firstCollision out)
  | .place p, _, _ => .absent fun n again => by
    have := again.lt_length
    obtain ⟨_, _, i, lt, _⟩ := again
    simp [branchSets, branchLeaves] at this
    omega
  | .forwardInput _ target, _, _ => .absent fun n again => by
    have := again.lt_length
    obtain ⟨_, _, i, lt, _⟩ := again
    simp [branchSets, branchLeaves] at this
    omega
  | .timeout _ child, h, separate => firstCollision_first child h separate
  | .xor children, h, separate => by
    rw [firstCollision]
    have first := firstCollisionXor_first children [] h.2 separate nofun isFirst_none_repeats_nil
    simpa [claimedBy, branchSets, branchLeaves] using first
  | .and children, h, separate => by
    rw [firstCollision]
    have first := (firstCollisionAnd_first children h separate.1 separate.2).1
    simpa [branchSets, branchLeaves] using first

/-- The search among the children of an and, the last first: the stride is the number of branches behind,
as long as nothing collides. -/
theorem firstCollisionAnd_first : ∀ children : List Out, ChoosableAll children → SeparateAll children →
    (children.Pairwise fun c c' => ∀ p ∈ c.collectPlaces, p ∉ c'.collectPlaces) →
    IsFirst (Repeats ((branchLeavesAnd children).map List.toFinset)) (firstCollisionAnd children).1 ∧
      ((firstCollisionAnd children).1 = none → (firstCollisionAnd children).2 = countAnd children)
  | [], _, _, _ => by
    refine ⟨.absent fun n again => ?_, fun _ => rfl⟩
    have := again.lt_length
    obtain ⟨_, _, i, lt, _⟩ := again
    simp [branchLeavesAnd] at this
    omega
  | child :: children, h, all, separate => by
    rw [List.pairwise_cons] at separate
    have here := firstCollision_first child h.1 all.1
    obtain ⟨later, stride⟩ := firstCollisionAnd_first children h.2 all.2 separate.2
    have some_ : branchSets child ≠ [] := by
      rw [branchSets, Ne, List.map_eq_nil_iff]
      exact branchLeaves_ne_nil child h.1
    have some_' : (branchLeavesAnd children).map List.toFinset ≠ [] := by
      rw [Ne, List.map_eq_nil_iff]
      exact branchLeavesAnd_ne_nil children h.2
    have joined := here.repeats_product (f := (· ∪ ·)) later some_ some_'
      fun A memA B memB A' memA' B' memB' same =>
        union_apart_of_separate separate.1 (branchSets_places memA) (branchSets_places memA')
          (branchSetsAnd_places memB) (branchSetsAnd_places memB') same
    rw [branchSets_and, firstCollisionAnd]
    cases searched : firstCollisionAnd children with
    | mk found behind =>
      rw [searched] at joined stride
      cases found with
      | some j => exact ⟨joined, nofun⟩
      | none =>
        obtain rfl := stride rfl
        rw [List.length_map, ← countAnd_eq, Option.none_or] at joined
        dsimp only
        cases own : firstCollision child with
        | some jc =>
          rw [own] at joined
          exact ⟨joined, nofun⟩
        | none =>
          rw [own] at joined
          exact ⟨joined, fun _ => Nat.mul_comm _ _⟩

/-- The search among alternatives, those before having no collision. -/
theorem firstCollisionXor_first : ∀ (children earlier : List Out), ChoosableAll children →
    SeparateAll children → (∀ e ∈ earlier, Separate e) → IsFirst (Repeats (claimedBy earlier)) none →
    IsFirst (Repeats (claimedBy earlier ++ (branchLeavesXor children).map List.toFinset))
      (firstCollisionXor earlier children (claimedBy earlier).length)
  | [], earlier, _, _, _, quiet => by
    simpa [branchLeavesXor, firstCollisionXor] using quiet
  | child :: children, earlier, h, all, separate, quiet => by
    have own := firstCollision_first child h.1 all.1
    obtain ⟨cross, first, search⟩ := firstClaimedEarlier_eq child separate
    have joined := quiet.repeats_append (first.or own)
    rw [firstCollisionXor, branchLeavesXor, List.map_append, ← List.append_assoc, search,
      earlierOf_filter]
    rw [Option.none_or] at joined
    cases found : cross.merge min (firstCollision child) with
    | some j =>
      rw [found] at joined
      exact joined.repeats_append_of_some _
    | none =>
      rw [found] at joined
      have extended : claimedBy earlier ++ branchSets child = claimedBy (earlier ++ [child]) :=
        (claimedBy_append_singleton earlier child).symm
      have length : (claimedBy earlier).length + count child = (claimedBy (earlier ++ [child])).length := by
        rw [← extended, List.length_append, count_eq, branchSets, List.length_map]
      dsimp only
      rw [length]
      refine (show _ = _ from congrArg (· ++ _) extended) ▸
        firstCollisionXor_first children (earlier ++ [child]) h.2 all.2 (fun e mem => ?_) (extended ▸ joined)
      rcases List.mem_append.mp mem with old | new
      · exact separate e old
      · rw [List.mem_singleton.mp new]
        exact all.1

end

/-! ## Brute force -/

/-- Two claims of the same places. -/
def sameClaim (a b : List PlaceName) : Bool := decide (a.toFinset = b.toFinset)

/-- The first branch before `e` that claims the same places. -/
def earlierClaim (branches : List (List PlaceName)) (e : Nat × List PlaceName) :
    Option (Nat × List PlaceName) :=
  (numbered branches).find? fun e' => decide (e'.1 < e.1) && sameClaim e'.2 e.2

/-- The branches compared in index order: the first that claims what an earlier one claims, with the first
such earlier one and its places. -/
def firstSamePair (branches : List (List PlaceName)) : Option AmbiguousBranches :=
  ((numbered branches).find? fun e => (earlierClaim branches e).isSome).bind fun later =>
    (earlierClaim branches later).map fun earlier => ⟨earlier.1, later.1, earlier.2⟩

section BruteForce

variable {branches : List (List PlaceName)}

theorem isFirst_earlierClaim (branches : List (List PlaceName)) (e : Nat × List PlaceName) :
    IsFirst (fun i => i < e.1 ∧ (branches.map List.toFinset)[i]? = some e.2.toFinset)
      ((earlierClaim branches e).map Prod.fst) := by
  refine (isFirst_find? branches _).congr fun i => ?_
  rw [List.getElem?_map, Option.map_eq_some_iff]
  simp only [Bool.and_eq_true, decide_eq_true_eq, sameClaim]
  constructor
  · rintro ⟨b, at_, lt, same⟩
    exact ⟨lt, b, at_, same⟩
  · rintro ⟨lt, b, at_, same⟩
    exact ⟨b, at_, lt, same⟩

theorem earlierClaim_isSome {j : Nat} {b : List PlaceName} (at_ : branches[j]? = some b) :
    (earlierClaim branches (j, b)).isSome = true ↔ Repeats (branches.map List.toFinset) j := by
  have search := isFirst_earlierClaim branches (j, b)
  rw [← Option.isSome_map (f := Prod.fst), ← not_iff_not, Bool.not_eq_true, Option.isSome_eq_false_iff,
    Option.isNone_iff_eq_none, search.eq_none_iff, Repeats, List.getElem?_map, at_]
  simp

/-- The first repeat decides what comparing all branches reports. -/
theorem firstSamePair_eq {collision : Option Nat}
    (first : IsFirst (Repeats (branches.map List.toFinset)) collision) :
    (collision = none → firstSamePair branches = none) ∧
      ∀ j, collision = some j → ∃ b i places, branches[j]? = some b ∧ branches[i]? = some places ∧
        FirstOf (branches.map List.toFinset) b.toFinset (some i) ∧
        firstSamePair branches = some ⟨i, j, places⟩ := by
  have search : IsFirst (Repeats (branches.map List.toFinset))
      (((numbered branches).find? fun e => (earlierClaim branches e).isSome).map Prod.fst) := by
    refine (isFirst_find? branches _).congr fun n => ?_
    constructor
    · rintro ⟨b, at_, earlier⟩
      exact (earlierClaim_isSome at_).mp earlier
    · intro again
      have at_ := List.getElem?_eq_getElem (by simpa using again.lt_length)
      exact ⟨_, at_, (earlierClaim_isSome at_).mpr again⟩
  obtain rfl := first.unique search
  constructor
  · intro none_
    rw [firstSamePair, Option.map_eq_none_iff.mp none_]
    rfl
  · intro j found
    obtain ⟨e, later, rfl⟩ := Option.map_eq_some_iff.mp found
    have at_ := mem_numbered.mp (List.mem_of_find?_eq_some later)
    have known : (earlierClaim branches e).isSome = true := by simpa using List.find?_some later
    obtain ⟨e', earlier⟩ := Option.isSome_iff_exists.mp known
    have at_' := mem_numbered.mp (List.mem_of_find?_eq_some earlier)
    refine ⟨e.2, e'.1, e'.2, at_, at_', ?_, ?_⟩
    case refine_2 =>
      rw [firstSamePair, later, Option.bind_some, earlier]
      rfl
    have here := isFirst_earlierClaim branches e
    rw [earlier] at here
    cases here with
    | found holds before =>
      exact .found holds.2 fun i lt at_ => before i lt ⟨lt.trans holds.1, at_⟩

end BruteForce

/-- The structural search reports what comparing all branches would. -/
theorem ambiguousBranches_right {out : Out} (choosable : Choosable out)
    (passes : duplicateInBranch out id = none) :
    ambiguousBranches out = .ok (firstSamePair (enumerateBranches out)) := by
  have nodup : ∀ b ∈ branchLeaves out, b.Nodup := by
    have walked : Walked id _ _ := findDuplicate_walked out choosable
    rw [duplicateInBranch] at passes
    cases result : findDuplicate id out with
    | ok leaves =>
      rw [result] at walked
      intro b mem
      simpa using walked.nodup b mem
    | error dup =>
      rw [result] at passes
      cases passes
  have separate := separate_of_nodup out choosable nodup
  have listed : enumerateBranches out = branchLeaves out := by
    rw [enumerateBranches_eq]
    refine (List.map_congr_left fun b mem => ?_).trans (List.map_id _)
    exact mergeClaim_of_nodup (nodup b mem)
  have first := firstCollision_first out choosable separate
  obtain ⟨quiet, found⟩ := firstSamePair_eq first
  rw [ambiguousBranches, listed]
  cases collision : firstCollision out with
  | none => rw [quiet collision]
  | some j =>
    obtain ⟨b, i, places, atj, ati, firstOf, same⟩ := found j collision
    have index := firstIndexOf_first out separate (toSet b) (toSet_nodup b)
    rw [toSet_toFinset] at index
    dsimp only
    rw [decode_eq out atj]
    dsimp only
    rw [index.unique firstOf]
    dsimp only
    rw [decode_eq out ati, same]

/-- `Xor(And(A, Xor(B, C)), And(A, B))` is ambiguous: branches 0 and 2 claim A and B. -/
theorem ambiguousBranches_right_nested :
    ambiguousBranches (.xor [.and [.place "A", .xor [.place "B", .place "C"]],
        .and [.place "A", .place "B"]]) =
      .ok (firstSamePair (enumerateBranches (.xor [.and [.place "A", .xor [.place "B", .place "C"]],
        .and [.place "A", .place "B"]]))) ∧
    firstSamePair (enumerateBranches (.xor [.and [.place "A", .xor [.place "B", .place "C"]],
      .and [.place "A", .place "B"]])) = some ⟨0, 2, ["A", "B"]⟩ :=
  ⟨ambiguousBranches_right (by simp [Choosable, ChoosableAll]) (by decide), by decide⟩

/-- With an xor that has no child there is no branch at all, and yet a collision is looked up. -/
theorem empty_choice_throws :
    duplicateInBranch (.and [.xor [.place "A", .place "A"], .xor []]) id = none ∧
      firstSamePair (enumerateBranches (.and [.xor [.place "A", .place "A"], .xor []])) = none ∧
      ambiguousBranches (.and [.xor [.place "A", .place "A"], .xor []]) = .error divisionByZero := by
  decide

end LibPetri.Verified
