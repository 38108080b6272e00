import LibPetri.Basis.Delimited
import LibPetri.Basis.Multiplicity
import LibPetri.Verified.Backends
import LibPetri.Verified.OutcomePlaces

/-! # Output validation as an exact explanation

An assignment of an output specification picks a child at each xor.  The search behind the validation keeps
the claims of the assignments within the produced places, up to two copies of each; so it sees whether none,
one or several assignments claim exactly what was produced.
-/

namespace LibPetri.Verified

open LibPetri.Basis LibPetri.Core LibPetri.Runtime

/-! ## The key of a claim -/

theorem codeUnits_injective : Function.Injective codeUnits := by
  have units (c : Char) : (c.toNat < 0xd800 ∨ 0xdfff < c.toNat) ∧ c.toNat < 0x110000 := by
    have := c.valid
    simp only [UInt32.isValidChar, Nat.isValidChar] at this
    change (c.toNat < 0xd800 ∨ (0xdfff < c.toNat ∧ c.toNat < 0x110000)) at this
    omega
  have chars (cs ds : List Char) (same : (cs.flatMap fun c => if c.toNat < 0x10000 then [c.toNat]
        else [0xd800 + (c.toNat - 0x10000) / 0x400, 0xdc00 + (c.toNat - 0x10000) % 0x400]) =
      ds.flatMap fun c => if c.toNat < 0x10000 then [c.toNat]
        else [0xd800 + (c.toNat - 0x10000) / 0x400, 0xdc00 + (c.toNat - 0x10000) % 0x400]) : cs = ds := by
    induction cs generalizing ds with
    | nil =>
      cases ds with
      | nil => rfl
      | cons d ds =>
        rw [List.flatMap_nil, List.flatMap_cons] at same
        split at same <;> cases same
    | cons c cs ih =>
      cases ds with
      | nil =>
        rw [List.flatMap_nil, List.flatMap_cons] at same
        split at same <;> cases same
      | cons d ds =>
        rw [List.flatMap_cons, List.flatMap_cons] at same
        have := units c
        have := units d
        have joined : c.toNat = d.toNat ∧ cs = ds := by
          by_cases low : c.toNat < 0x10000
          · by_cases low' : d.toNat < 0x10000
            · rw [if_pos low, if_pos low'] at same
              obtain ⟨eq, rest⟩ := List.cons.inj same
              exact ⟨eq, ih ds rest⟩
            · rw [if_pos low, if_neg low'] at same
              have := (List.cons.inj same).1
              omega
          · by_cases low' : d.toNat < 0x10000
            · rw [if_neg low, if_pos low'] at same
              have := (List.cons.inj same).1
              omega
            · rw [if_neg low, if_neg low'] at same
              obtain ⟨first, rest⟩ := List.cons.inj same
              obtain ⟨second, rest⟩ := List.cons.inj rest
              exact ⟨by omega, ih ds rest⟩
        rw [Char.toNat_inj.mp joined.1, joined.2]
  exact fun a b same => String.toList_inj.mp (chars _ _ same)

theorem perm_sortCodeUnits (names : List String) : (sortCodeUnits names).Perm names :=
  List.perm_insertionSort _ _

/-- The sort forgets the order and nothing else. -/
theorem sortCodeUnits_eq_iff {names names' : List String} :
    sortCodeUnits names = sortCodeUnits names' ↔ names.Perm names' := by
  constructor
  · intro same
    have perm := (perm_sortCodeUnits names).symm
    rw [same] at perm
    exact perm.trans (perm_sortCodeUnits names')
  · intro perm
    have total : Std.Total fun a b : String => codeUnits a ≤ codeUnits b :=
      ⟨fun a b => le_total (codeUnits a) (codeUnits b)⟩
    have trans : IsTrans String fun a b => codeUnits a ≤ codeUnits b := ⟨fun _ _ _ => le_trans⟩
    refine @List.Perm.eq_of_pairwise _ (fun a b : String => codeUnits a ≤ codeUnits b) _ _
      (fun a b _ _ ab ba => codeUnits_injective (le_antisymm ab ba)) ?_ ?_ ?_
    · exact List.pairwise_insertionSort (fun a b : String => codeUnits a ≤ codeUnits b) names
    · exact List.pairwise_insertionSort (fun a b : String => codeUnits a ≤ codeUnits b) names'
    · exact ((perm_sortCodeUnits names).trans perm).trans (perm_sortCodeUnits names').symm

/-- A claim that the cap can tell apart: a set of names without the separator, and not empty. -/
structure Keyed (claim : List PlaceName) : Prop where
  nodup : claim.Nodup
  nonempty : claim ≠ []
  free : ∀ p ∈ claim, '\x00' ∉ p.toList

/-- The key of a claim. -/
def claimKey (claim : List PlaceName) : String := "\x00".intercalate (sortCodeUnits claim)

theorem claimKey_eq_iff {claim claim' : List PlaceName} (h : Keyed claim) (h' : Keyed claim') :
    claimKey claim = claimKey claim' ↔ claim.toFinset = claim'.toFinset := by
  have sets : claim.toFinset = claim'.toFinset ↔ claim.Perm claim' := by
    rw [List.perm_ext_iff_of_nodup h.nodup h'.nodup, Finset.ext_iff]
    simp only [List.mem_toFinset]
  rw [sets, ← sortCodeUnits_eq_iff]
  constructor
  · intro same
    have same := congrArg String.toList same
    rw [claimKey, claimKey, String.toList_intercalate, String.toList_intercalate] at same
    have free {claim : List PlaceName} (h : Keyed claim) :
        ∀ part ∈ (sortCodeUnits claim).map String.toList, '\x00' ∉ part := by
      intro part mem
      obtain ⟨p, listed, rfl⟩ := List.mem_map.mp mem
      exact h.free p ((perm_sortCodeUnits claim).mem_iff.mp listed)
    have some_ {claim : List PlaceName} (h : Keyed claim) :
        (sortCodeUnits claim).map String.toList ≠ [] := by
      intro empty
      have := (perm_sortCodeUnits claim).length_eq
      rw [List.map_eq_nil_iff.mp empty] at this
      exact h.nonempty (List.length_eq_zero_iff.mp this.symm)
    have injective : Function.Injective String.toList := fun _ _ => String.toList_inj.mp
    exact injective.list_map (intercalate_inj (free h) (free h') (some_ h) (some_ h') same)
  · intro same
    rw [claimKey, claimKey, same]

/-! ## The cap -/

/-- The sets of a list of claims. -/
def claimSets (claims : List (List PlaceName)) : Multiset (Finset PlaceName) :=
  (claims.map List.toFinset : List (Finset PlaceName))

/-- One claim: kept unless two of its key have come. -/
def capStep (acc : OrderedMap String Nat × List (List PlaceName)) (claim : List PlaceName) :
    OrderedMap String Nat × List (List PlaceName) :=
  if 2 ≤ (acc.1.get? (claimKey claim)).getD 0 then acc
  else (acc.1.set (claimKey claim) ((acc.1.get? (claimKey claim)).getD 0 + 1), acc.2 ++ [claim])

theorem capMultiplicity_eq (claims : List (List PlaceName)) : capMultiplicity claims =
    if claims.length < 3 then claims else (claims.foldl capStep (OrderedMap.empty, [])).2 := rfl

/-- How many claims of a key there are. -/
def keyCount (claims : List (List PlaceName)) (k : String) : Nat := claims.countP fun c => claimKey c = k

theorem keyCount_append_singleton (claims : List (List PlaceName)) (claim : List PlaceName) (k : String) :
    keyCount (claims ++ [claim]) k = keyCount claims k + if claimKey claim = k then 1 else 0 := by
  rw [keyCount, List.countP_append, List.countP_singleton]
  simp [keyCount]

/-- What the cap has kept of some claims: each key as often as it has come, up to twice. -/
structure Capped (done : List (List PlaceName)) (acc : OrderedMap String Nat × List (List PlaceName)) :
    Prop where
  seen : ∀ k, (acc.1.get? k).getD 0 = min 2 (keyCount done k)
  kept : ∀ k, keyCount acc.2 k = min 2 (keyCount done k)
  sub : ∀ c ∈ acc.2, c ∈ done

theorem Capped.step {done : List (List PlaceName)} {acc : OrderedMap String Nat × List (List PlaceName)}
    (h : Capped done acc) (claim : List PlaceName) : Capped (done ++ [claim]) (capStep acc claim) := by
  have here := h.seen (claimKey claim)
  unfold capStep
  by_cases full : 2 ≤ (acc.1.get? (claimKey claim)).getD 0
  · rw [if_pos full]
    refine ⟨fun k => ?_, fun k => ?_, fun c mem => List.mem_append_left _ (h.sub c mem)⟩
    · rw [h.seen, keyCount_append_singleton]
      split
      next same =>
        subst same
        omega
      next => rfl
    · rw [h.kept, keyCount_append_singleton]
      split
      next same =>
        subst same
        omega
      next => rfl
  · rw [if_neg full]
    refine ⟨fun k => ?_, fun k => ?_, fun c mem => ?_⟩
    · dsimp only
      rw [OrderedMap.get?_set, keyCount_append_singleton]
      by_cases same : claimKey claim = k
      · subst same
        rw [if_pos rfl, if_pos rfl, Option.getD_some]
        omega
      · rw [if_neg same, if_neg fun eq => same eq.symm]
        exact h.seen k
    · dsimp only
      rw [keyCount_append_singleton, keyCount_append_singleton]
      have := h.kept k
      split
      next same =>
        subst same
        omega
      next => exact this
    · rcases List.mem_append.mp mem with old | new
      · exact List.mem_append_left _ (h.sub c old)
      · exact List.mem_append_right _ new

theorem capped_fold (claims : List (List PlaceName)) :
    Capped claims (claims.foldl capStep (OrderedMap.empty, [])) := by
  have run (claims done : List (List PlaceName)) (acc : OrderedMap String Nat × List (List PlaceName))
      (h : Capped done acc) : Capped (done ++ claims) (claims.foldl capStep acc) := by
    induction claims generalizing done acc with
    | nil => rwa [List.append_nil]
    | cons claim claims ih =>
      have next := ih (done ++ [claim]) _ (h.step claim)
      rwa [List.append_assoc] at next
  exact run claims [] _ ⟨fun _ => rfl, fun _ => rfl, fun _ mem => (by cases mem)⟩

theorem mem_of_mem_capMultiplicity {claims : List (List PlaceName)} {c : List PlaceName}
    (mem : c ∈ capMultiplicity claims) : c ∈ claims := by
  rw [capMultiplicity_eq] at mem
  split at mem
  next => exact mem
  next => exact (capped_fold claims).sub c mem

/-- The cap keeps what can be told of the claims up to two copies. -/
theorem capMultiplicity_upToTwo {claims : List (List PlaceName)} (keyed : ∀ c ∈ claims, Keyed c) :
    UpToTwo (claimSets (capMultiplicity claims)) (claimSets claims) := by
  rw [capMultiplicity_eq]
  split
  next => exact .refl _
  next =>
    have h := capped_fold claims
    set kept := (claims.foldl capStep (OrderedMap.empty, [])).2
    intro R
    rw [claimSets, claimSets, Multiset.coe_count, Multiset.coe_count]
    by_cases claimed : ∃ c ∈ claims, c.toFinset = R
    · obtain ⟨c, mem, rfl⟩ := claimed
      have byKey {list : List (List PlaceName)} (inside : ∀ d ∈ list, d ∈ claims) :
          (list.map List.toFinset).count c.toFinset = keyCount list (claimKey c) := by
        rw [List.count_eq_countP, List.countP_map, keyCount]
        refine List.countP_congr fun d listed => ?_
        rw [Function.comp_apply, beq_iff_eq, decide_eq_true_eq,
          claimKey_eq_iff (keyed d (inside d listed)) (keyed c mem)]
      rw [byKey h.sub, byKey fun d listed => listed, h.kept]
      omega
    · have none_ {list : List (List PlaceName)} (inside : ∀ d ∈ list, d ∈ claims) :
          (list.map List.toFinset).count R = 0 := by
        refine List.count_eq_zero_of_not_mem fun mem => claimed ?_
        obtain ⟨d, listed, eq⟩ := List.mem_map.mp mem
        exact ⟨d, inside d listed, eq⟩
      rw [none_ h.sub, none_ fun d listed => listed]

/-! ## Assignments -/

/-- One child at each xor, all children of each and.  A timeout is run or, where that is allowed, skipped. -/
inductive Choice
  | leaf
  | pick (index : Nat) (chosen : Choice)
  | all (chosen : List Choice)
  | run (chosen : Choice)
  | skip

mutual

/-- The places that an assignment claims, none where it is no assignment of the specification. -/
def claimOf (skips : Bool) : Out → Choice → Option (Finset PlaceName)
  | .place p, .leaf => some {p}
  | .forwardInput _ target, .leaf => some {target}
  | .timeout _ child, .run c => claimOf skips child c
  | .timeout _ _, .skip => if skips then some ∅ else none
  | .xor children, .pick i c => claimOfPick skips children i c
  | .and children, .all cs => claimOfAll skips children cs
  | _, _ => none

def claimOfPick (skips : Bool) : List Out → Nat → Choice → Option (Finset PlaceName)
  | [], _, _ => none
  | child :: _, 0, c => claimOf skips child c
  | _ :: children, i + 1, c => claimOfPick skips children i c

def claimOfAll (skips : Bool) : List Out → List Choice → Option (Finset PlaceName)
  | [], [] => some ∅
  | child :: children, c :: cs =>
    match claimOf skips child c, claimOfAll skips children cs with
    | some claim, some claims => some (claim ∪ claims)
    | _, _ => none
  | _, _ => none

end

mutual

/-- All assignments with their claims. -/
def choices : Out → List (Choice × Finset PlaceName)
  | .place p => [(.leaf, {p})]
  | .forwardInput _ target => [(.leaf, {target})]
  | .timeout _ child => (choices child).map fun c => (.run c.1, c.2)
  | .xor children => choicesPick children 0
  | .and children => (choicesAll children).map fun c => (.all c.1, c.2)

def choicesPick : List Out → Nat → List (Choice × Finset PlaceName)
  | [], _ => []
  | child :: children, i => (choices child).map (fun c => (.pick i c.1, c.2)) ++ choicesPick children (i + 1)

def choicesAll : List Out → List (List Choice × Finset PlaceName)
  | [] => [([], ∅)]
  | child :: children => (choices child).flatMap fun c =>
      (choicesAll children).map fun cs => (c.1 :: cs.1, c.2 ∪ cs.2)

end

mutual

theorem mem_choices : ∀ (spec : Out) (c : Choice) (R : Finset PlaceName),
    (c, R) ∈ choices spec ↔ claimOf false spec c = some R
  | .place p, c, R => by
    cases c <;> simp [choices, claimOf, eq_comm]
  | .forwardInput _ target, c, R => by
    cases c <;> simp [choices, claimOf, eq_comm]
  | .timeout _ child, c, R => by
    have inner := mem_choices child
    cases c <;> simp [choices, claimOf, inner]
  | .xor children, c, R => by
    have inner := mem_choicesPick children 0
    cases c with
    | pick i c => simpa [choices, claimOf] using inner (.pick i c) R
    | _ => simp [choices, claimOf, inner]
  | .and children, c, R => by
    have inner := mem_choicesAll children
    cases c <;> simp [choices, claimOf, inner]

theorem mem_choicesPick : ∀ (children : List Out) (k : Nat) (c : Choice) (R : Finset PlaceName),
    (c, R) ∈ choicesPick children k ↔ ∃ i c', c = .pick (k + i) c' ∧ claimOfPick false children i c' = some R
  | [], k, c, R => by simp [choicesPick, claimOfPick]
  | child :: children, k, c, R => by
    rw [choicesPick, List.mem_append, mem_choicesPick children (k + 1) c R, List.mem_map]
    constructor
    · rintro (⟨⟨c, R⟩, mem, eq⟩ | ⟨i, c', rfl, claim⟩)
      · obtain ⟨rfl, rfl⟩ := Prod.mk.inj eq
        exact ⟨0, c, rfl, (mem_choices child c R).mp mem⟩
      · exact ⟨i + 1, c', by rw [Nat.add_assoc, Nat.add_comm 1], claim⟩
    · rintro ⟨i, c', rfl, claim⟩
      cases i with
      | zero => exact .inl ⟨(c', R), (mem_choices child c' R).mpr claim, rfl⟩
      | succ i => exact .inr ⟨i, c', by rw [Nat.add_assoc, Nat.add_comm 1], claim⟩

theorem mem_choicesAll : ∀ (children : List Out) (cs : List Choice) (R : Finset PlaceName),
    (cs, R) ∈ choicesAll children ↔ claimOfAll false children cs = some R
  | [], cs, R => by
    cases cs <;> simp [choicesAll, claimOfAll, eq_comm]
  | child :: children, cs, R => by
    have first := mem_choices child
    have rest := mem_choicesAll children
    cases cs with
    | nil => simp [choicesAll, claimOfAll]
    | cons c cs =>
      rw [choicesAll, claimOfAll, List.mem_flatMap]
      constructor
      · rintro ⟨⟨c', A⟩, mem, more⟩
        obtain ⟨⟨cs', B⟩, mem', eq⟩ := List.mem_map.mp more
        obtain ⟨chosen, rfl⟩ := Prod.mk.inj eq
        obtain ⟨rfl, rfl⟩ := List.cons.inj chosen
        rw [(first _ _).mp mem, (rest _ _).mp mem']
      · intro both
        split at both
        next A B claim claims =>
          obtain rfl := Option.some.inj both
          exact ⟨(c, A), (first c A).mpr claim, List.mem_map.mpr ⟨(cs, B), (rest cs B).mpr claims, rfl⟩⟩
        next => cases both

end

mutual

theorem nodup_choices : ∀ spec : Out, ((choices spec).map Prod.fst).Nodup
  | .place p => by simp [choices]
  | .forwardInput _ target => by simp [choices]
  | .timeout _ child => by
    have inner := nodup_choices child
    rw [choices, List.map_map]
    have := inner.map (f := Choice.run) fun _ _ => Choice.run.inj
    rwa [List.map_map] at this
  | .xor children => nodup_choicesPick children 0
  | .and children => by
    have inner := nodup_choicesAll children
    rw [choices, List.map_map]
    have := inner.map (f := Choice.all) fun _ _ => Choice.all.inj
    rwa [List.map_map] at this

theorem nodup_choicesPick : ∀ (children : List Out) (k : Nat), ((choicesPick children k).map Prod.fst).Nodup
  | [], k => by simp [choicesPick]
  | child :: children, k => by
    have first := nodup_choices child
    have rest := nodup_choicesPick children (k + 1)
    rw [choicesPick, List.map_append, List.map_map, List.nodup_append]
    refine ⟨?_, rest, ?_⟩
    · have := first.map (f := Choice.pick k) fun _ _ eq => (Choice.pick.inj eq).2
      rwa [List.map_map] at this
    · rintro c mem _ mem' rfl
      obtain ⟨⟨c', R⟩, -, rfl⟩ := List.mem_map.mp mem
      obtain ⟨⟨_, R'⟩, listed, eq⟩ := List.mem_map.mp mem'
      obtain ⟨i, c'', rfl, -⟩ := (mem_choicesPick children (k + 1) _ R').mp listed
      have := (Choice.pick.inj eq).1
      omega

theorem nodup_choicesAll : ∀ children : List Out, ((choicesAll children).map Prod.fst).Nodup
  | [] => by simp [choicesAll]
  | child :: children => by
    have first := nodup_choices child
    have rest := nodup_choicesAll children
    have product : (choicesAll (child :: children)).map Prod.fst =
        ((choices child).map Prod.fst).flatMap fun c =>
          ((choicesAll children).map Prod.fst).map (c :: ·) := by
      rw [choicesAll, List.map_flatMap, List.flatMap_map]
      refine List.flatMap_congr fun c _ => ?_
      rw [List.map_map, List.map_map]
      rfl
    rw [product, List.nodup_flatMap]
    refine ⟨fun c _ => rest.map fun _ _ eq => (List.cons.inj eq).2, first.imp fun {c c'} apart => ?_⟩
    intro cs mem mem'
    obtain ⟨_, -, rfl⟩ := List.mem_map.mp mem
    obtain ⟨_, -, eq⟩ := List.mem_map.mp mem'
    exact apart (List.cons.inj eq).1.symm

end

/-- The claims of all assignments. -/
def claims (spec : Out) : Multiset (Finset PlaceName) := ((choices spec).map Prod.snd : List _)

theorem count_claims_eq_one {spec : Out} {R : Finset PlaceName} :
    (claims spec).count R = 1 ↔ ∃! c, claimOf false spec c = some R := by
  rw [claims, Multiset.coe_count, count_map_snd_eq_one (nodup_choices spec)]
  simp only [mem_choices]

/-! ## Combined claims -/

/-- The union of a claim of the one with a claim of the other, for all pairs. -/
def joins (A B : Multiset (Finset PlaceName)) : Multiset (Finset PlaceName) :=
  A.bind fun a => B.map fun b => a ∪ b

@[simp] theorem zero_joins (B : Multiset (Finset PlaceName)) : joins 0 B = 0 := Multiset.zero_bind _

@[simp] theorem joins_zero (A : Multiset (Finset PlaceName)) : joins A 0 = 0 := by
  simp [joins]

theorem joins_comm (A B : Multiset (Finset PlaceName)) : joins A B = joins B A := by
  rw [joins, Multiset.bind_map_comm, joins]
  simp only [Finset.union_comm]

theorem joins_assoc (A B C : Multiset (Finset PlaceName)) : joins (joins A B) C = joins A (joins B C) := by
  simp only [joins, Multiset.bind_assoc, Multiset.bind_map, Multiset.map_bind, Multiset.map_map,
    Function.comp_def, Finset.union_assoc]

theorem joins_left_comm (A B C : Multiset (Finset PlaceName)) :
    joins A (joins B C) = joins B (joins A C) := by
  rw [← joins_assoc, joins_comm A B, joins_assoc]

theorem upToTwo_joins {A A' B B' : Multiset (Finset PlaceName)} (h : UpToTwo A A') (h' : UpToTwo B B') :
    UpToTwo (joins A B) (joins A' B') := h.combine h' fun a b => a ∪ b

/-- The claims within a set. -/
def within (P : Finset PlaceName) (A : Multiset (Finset PlaceName)) : Multiset (Finset PlaceName) :=
  A.filter (· ⊆ P)

theorem within_joins (P : Finset PlaceName) (A B : Multiset (Finset PlaceName)) :
    within P (joins A B) = joins (within P A) (within P B) := by
  induction A using Multiset.induction with
  | empty => simp [within]
  | cons a A ih =>
    have first : joins (a ::ₘ A) B = B.map (fun b => a ∪ b) + joins A B := Multiset.cons_bind _ _ _
    rw [first, within, Multiset.filter_add, ← within, ← within, ih, within, Multiset.filter_map]
    by_cases inside : a ⊆ P
    · have same : (fun b => b ⊆ P) ∘ (fun b => a ∪ b) = fun b => b ⊆ P := by
        funext b
        simp [Finset.union_subset_iff, inside]
      have kept : within P (a ::ₘ A) = a ::ₘ within P A := Multiset.filter_cons_of_pos _ inside
      rw [kept]
      simp only [same]
      exact (Multiset.cons_bind _ _ _).symm
    · have none_ : B.filter ((fun b => b ⊆ P) ∘ fun b => a ∪ b) = 0 := by
        refine Multiset.filter_eq_nil.mpr fun b _ both => inside ?_
        exact (Finset.union_subset_iff.mp both).1
      have kept : within P (a ::ₘ A) = within P A := Multiset.filter_cons_of_neg _ inside
      rw [kept]
      simp only [none_, Multiset.map_zero, zero_add]

def claimsOfAny : List Out → Multiset (Finset PlaceName)
  | [] => 0
  | child :: children => claims child + claimsOfAny children

def claimsOfAll : List Out → Multiset (Finset PlaceName)
  | [] => {∅}
  | child :: children => joins (claims child) (claimsOfAll children)

theorem claims_xor (children : List Out) : claims (.xor children) = claimsOfAny children := by
  have each (k : Nat) : (((choicesPick children k).map Prod.snd : List _) : Multiset _) =
      claimsOfAny children := by
    induction children generalizing k with
    | nil => rfl
    | cons child children ih =>
      rw [claimsOfAny, ← ih (k + 1), choicesPick, List.map_append, List.map_map, ← Multiset.coe_add]
      rfl
  exact each 0

theorem claims_and (children : List Out) : claims (.and children) = claimsOfAll children := by
  have each : (((choicesAll children).map Prod.snd : List _) : Multiset _) = claimsOfAll children := by
    induction children with
    | nil => rfl
    | cons child children ih =>
      simp only [claimsOfAll, ← ih, joins, claims, Multiset.map_coe, Multiset.coe_bind, choicesAll,
        List.map_flatMap, List.flatMap_map]
      refine congrArg _ (List.flatMap_congr fun c _ => ?_)
      rw [List.map_map, List.map_map]
      rfl
  rw [← each, claims, choices, List.map_map]
  rfl

/-! ## The search -/

theorem nodup_mergeClaim {merged : List PlaceName} (nodup : merged.Nodup) (claim : List PlaceName) :
    (mergeClaim merged claim).Nodup := by
  unfold mergeClaim
  induction claim generalizing merged with
  | nil => exact nodup
  | cons q claim ih =>
    rw [List.foldl_cons]
    apply ih
    split
    next => exact nodup
    next new => exact List.nodup_append.mpr ⟨nodup, List.nodup_singleton q, by
      rintro p mem _ mem' rfl
      exact new (List.mem_singleton.mp mem' ▸ mem)⟩

theorem claimSets_append (cs ds : List (List PlaceName)) :
    claimSets (cs ++ ds) = claimSets cs + claimSets ds := by
  rw [claimSets, List.map_append, ← Multiset.coe_add]
  rfl

theorem claimSets_merge (acc childClaims : List (List PlaceName)) :
    claimSets (acc.flatMap fun merged => childClaims.map (mergeClaim merged)) =
      joins (claimSets acc) (claimSets childClaims) := by
  induction acc with
  | nil => exact (zero_joins _).symm
  | cons merged acc ih =>
    have cons : claimSets (merged :: acc) = merged.toFinset ::ₘ claimSets acc :=
      (Multiset.cons_coe _ _).symm
    have first : joins (merged.toFinset ::ₘ claimSets acc) (claimSets childClaims) =
        (claimSets childClaims).map (fun b => merged.toFinset ∪ b) +
          joins (claimSets acc) (claimSets childClaims) := Multiset.cons_bind _ _ _
    have union (claim : List PlaceName) :
        (mergeClaim merged claim).toFinset = merged.toFinset ∪ claim.toFinset := by
      ext p
      rw [List.mem_toFinset, mem_mergeClaim, Finset.mem_union, List.mem_toFinset, List.mem_toFinset]
    rw [List.flatMap_cons, claimSets_append, ih, cons, first]
    congr 1
    rw [claimSets, claimSets, Multiset.map_coe, List.map_map, List.map_map]
    refine congrArg _ (List.map_congr_left fun claim _ => union claim)

mutual

/-- Every and has a child. -/
def Populated : Out → Prop
  | .place _ => True
  | .forwardInput _ _ => True
  | .timeout _ child => Populated child
  | .xor children => PopulatedAll children
  | .and children => children ≠ [] ∧ PopulatedAll children

def PopulatedAll : List Out → Prop
  | [] => True
  | child :: children => Populated child ∧ PopulatedAll children

end

/-- A name without the separator of the keys. -/
def Free (p : PlaceName) : Prop := Char.ofNat 0 ∉ p.toList

section Search

variable {produced : List PlaceName}

mutual

/-- The search keeps the claims within the produced places, up to two copies of each. -/
theorem claimsWithin_spec : ∀ spec : Out, Populated spec → (∀ p ∈ spec.collectPlaces, Free p) →
    UpToTwo (claimSets (claimsWithin produced spec)) (within produced.toFinset (claims spec)) ∧
      ∀ c ∈ claimsWithin produced spec, Keyed c ∧ ∀ p ∈ c, p ∈ produced ∧ p ∈ spec.collectPlaces
  | .place p, _, free => by
    rw [Out.collectPlaces] at free ⊢
    have named : claims (.place p) = {{p}} := rfl
    rw [claimsWithin, named, within]
    by_cases mem : p ∈ produced
    · rw [if_pos mem, Multiset.filter_singleton, if_pos (by simpa using mem)]
      refine ⟨.refl _, fun c listed => ?_⟩
      rw [List.mem_singleton.mp listed]
      exact ⟨⟨List.nodup_singleton p, List.cons_ne_nil _ _, free⟩, fun q here =>
        ⟨List.mem_singleton.mp here ▸ mem, here⟩⟩
    · rw [if_neg mem, Multiset.filter_singleton, if_neg (by simpa using mem)]
      exact ⟨.refl _, fun c listed => (by cases listed)⟩
  | .forwardInput _ p, _, free => by
    rw [Out.collectPlaces] at free ⊢
    have named (source : PlaceName) : claims (.forwardInput source p) = {{p}} := rfl
    rw [claimsWithin, named, within]
    by_cases mem : p ∈ produced
    · rw [if_pos mem, Multiset.filter_singleton, if_pos (by simpa using mem)]
      refine ⟨.refl _, fun c listed => ?_⟩
      rw [List.mem_singleton.mp listed]
      exact ⟨⟨List.nodup_singleton p, List.cons_ne_nil _ _, free⟩, fun q here =>
        ⟨List.mem_singleton.mp here ▸ mem, here⟩⟩
    · rw [if_neg mem, Multiset.filter_singleton, if_neg (by simpa using mem)]
      exact ⟨.refl _, fun c listed => (by cases listed)⟩
  | .timeout d child, built, free => by
    have inner := claimsWithin_spec child built free
    have same : claims (.timeout d child) = claims child := by
      rw [claims, choices, List.map_map]
      rfl
    rw [claimsWithin, same, Out.collectPlaces]
    exact inner
  | .xor children, built, free => by
    obtain ⟨upTo, sound⟩ := claimsWithinXor_spec children built free
    rw [claimsWithin, claims_xor, Out.collectPlaces]
    refine ⟨(capMultiplicity_upToTwo fun c mem => (sound c mem).1).trans upTo, fun c mem => ?_⟩
    exact sound c (mem_of_mem_capMultiplicity mem)
  | .and children, built, free => by
    have start : ∀ a ∈ ([[]] : List (List PlaceName)), a.Nodup ∧ ∀ p ∈ a, Free p := by
      intro a mem
      rw [List.mem_singleton.mp mem]
      exact ⟨List.nodup_nil, fun p none_ => (by cases none_)⟩
    obtain ⟨upTo, sound⟩ := claimsWithinAnd_spec children built.2 free [[]] start
    rw [claimsWithin, claims_and, Out.collectPlaces]
    have unit (B : Multiset (Finset PlaceName)) : joins (claimSets [[]]) B = B := by
      have : claimSets [[]] = {∅} := rfl
      rw [this, joins, Multiset.singleton_bind]
      simp
    rw [unit] at upTo
    refine ⟨upTo, fun c mem => ?_⟩
    obtain ⟨nodup, named, some_⟩ := sound c mem
    have named' : ∀ p ∈ c, p ∈ produced ∧ p ∈ Out.collectPlacesAll children := by
      intro p here
      rcases named p here with ⟨a, listed, inside⟩ | inside
      · rw [List.mem_singleton.mp listed] at inside
        cases inside
      · exact inside
    exact ⟨⟨nodup, some_ (.inl built.1), fun p here => free p (named' p here).2⟩, named'⟩

theorem claimsWithinXor_spec : ∀ children : List Out, PopulatedAll children →
    (∀ p ∈ Out.collectPlacesAll children, Free p) →
    UpToTwo (claimSets (claimsWithinXor produced children)) (within produced.toFinset (claimsOfAny children)) ∧
      ∀ c ∈ claimsWithinXor produced children,
        Keyed c ∧ ∀ p ∈ c, p ∈ produced ∧ p ∈ Out.collectPlacesAll children
  | [], _, _ => ⟨.refl _, fun c mem => (by cases mem)⟩
  | child :: children, built, free => by
    rw [Out.collectPlacesAll] at free ⊢
    obtain ⟨first, sound⟩ := claimsWithin_spec child built.1 fun p mem => free p (List.mem_append_left _ mem)
    obtain ⟨rest, sounds⟩ := claimsWithinXor_spec children built.2
      fun p mem => free p (List.mem_append_right _ mem)
    rw [claimsWithinXor, claimSets_append, claimsOfAny, within, Multiset.filter_add]
    refine ⟨first.add rest, fun c mem => ?_⟩
    rcases List.mem_append.mp mem with here | there
    · obtain ⟨keyed, named⟩ := sound c here
      exact ⟨keyed, fun p inside => ⟨(named p inside).1, List.mem_append_left _ (named p inside).2⟩⟩
    · obtain ⟨keyed, named⟩ := sounds c there
      exact ⟨keyed, fun p inside => ⟨(named p inside).1, List.mem_append_right _ (named p inside).2⟩⟩

theorem claimsWithinAnd_spec : ∀ children : List Out, PopulatedAll children →
    (∀ p ∈ Out.collectPlacesAll children, Free p) → ∀ acc : List (List PlaceName),
    (∀ a ∈ acc, a.Nodup ∧ ∀ p ∈ a, Free p) →
    UpToTwo (claimSets (claimsWithinAnd produced children acc))
        (joins (claimSets acc) (within produced.toFinset (claimsOfAll children))) ∧
      ∀ c ∈ claimsWithinAnd produced children acc, c.Nodup ∧
        (∀ p ∈ c, (∃ a ∈ acc, p ∈ a) ∨ (p ∈ produced ∧ p ∈ Out.collectPlacesAll children)) ∧
        (children ≠ [] ∨ (∀ a ∈ acc, a ≠ []) → c ≠ [])
  | [], _, _, acc, partial_ => by
    have unit : joins (claimSets acc) (within produced.toFinset (claimsOfAll [])) = claimSets acc := by
      rw [claimsOfAll, within, Multiset.filter_singleton, if_pos (Finset.empty_subset _), joins]
      simp only [Multiset.map_singleton, Finset.union_empty]
      exact (Multiset.bind_singleton _ id).trans (Multiset.map_id _)
    rw [claimsWithinAnd, unit]
    refine ⟨.refl _, fun c mem => ⟨(partial_ c mem).1, fun p here => .inl ⟨c, mem, here⟩, ?_⟩⟩
    rintro (empty | some_)
    · exact absurd rfl empty
    · exact some_ c mem
  | child :: children, built, free, acc, partial_ => by
    rw [Out.collectPlacesAll] at free ⊢
    obtain ⟨first, sound⟩ := claimsWithin_spec child built.1 fun p mem => free p (List.mem_append_left _ mem)
    rw [claimsWithinAnd, claimsOfAll, within_joins]
    by_cases dead : claimsWithin produced child = []
    · rw [if_pos dead]
      rw [dead] at first
      rw [first.symm.eq_zero, zero_joins, joins_zero]
      exact ⟨.refl _, fun c mem => (by cases mem)⟩
    · rw [if_neg dead]
      set product := acc.flatMap fun merged => (claimsWithin produced child).map (mergeClaim merged)
        with product_def
      have merged : ∀ c ∈ product, Keyed c ∧
          ∀ p ∈ c, (∃ a ∈ acc, p ∈ a) ∨ (p ∈ produced ∧ p ∈ child.collectPlaces) := by
        intro c mem
        obtain ⟨a, listed, mem⟩ := List.mem_flatMap.mp mem
        obtain ⟨claim, claimed, rfl⟩ := List.mem_map.mp mem
        obtain ⟨keyed, named⟩ := sound claim claimed
        obtain ⟨nodup, free_a⟩ := partial_ a listed
        refine ⟨⟨nodup_mergeClaim nodup claim, fun empty => ?_, fun p here => ?_⟩, fun p here => ?_⟩
        · obtain ⟨p, rest, shape⟩ := List.exists_cons_of_ne_nil keyed.nonempty
          have here : p ∈ mergeClaim a claim := mem_mergeClaim.mpr (.inr (shape ▸ List.mem_cons_self))
          rw [empty] at here
          cases here
        · rcases mem_mergeClaim.mp here with old | new
          · exact free_a p old
          · exact keyed.free p new
        · rcases mem_mergeClaim.mp here with old | new
          · exact .inl ⟨a, listed, old⟩
          · exact .inr (named p new)
      obtain ⟨rest, sounds⟩ := claimsWithinAnd_spec children built.2
        (fun p mem => free p (List.mem_append_right _ mem)) (capMultiplicity product) fun c mem =>
          have keyed := (merged c (mem_of_mem_capMultiplicity mem)).1
          ⟨keyed.nodup, keyed.free⟩
      refine ⟨rest.trans ?_, fun c mem => ?_⟩
      · have capped := capMultiplicity_upToTwo fun c mem => (merged c mem).1
        rw [product_def, claimSets_merge, ← product_def] at capped
        rw [← joins_assoc]
        exact upToTwo_joins (capped.trans (upToTwo_joins (.refl _) first)) (.refl _)
      · obtain ⟨nodup, named, some_⟩ := sounds c mem
        refine ⟨nodup, fun p here => ?_, fun _ => some_ (.inr fun a mem =>
          (merged a (mem_of_mem_capMultiplicity mem)).1.nonempty)⟩
        rcases named p here with ⟨a, listed, inside⟩ | ⟨inside, later⟩
        · rcases (merged a (mem_of_mem_capMultiplicity listed)).2 p inside with old | ⟨inside, now⟩
          · exact .inl old
          · exact .inr ⟨inside, List.mem_append_left _ now⟩
        · exact .inr ⟨inside, List.mem_append_right _ later⟩

end

end Search

end LibPetri.Verified
