import LibPetri.Basis.FirstRepeat
import LibPetri.Verification.OutputChecks
import LibPetri.Verified.OutcomePlaces

/-! # Places named twice

A branch of an output specification picks one child at each xor and takes all children of each and; its
leaves are listed left to right.  The check walks the specification once.  Its leaves are the names some
branch of the part walked so far has, so it stops exactly where two parts of one branch share a name.
-/

namespace LibPetri.Verified

open LibPetri.Basis LibPetri.Core LibPetri.Runtime LibPetri.Verification

/-! ## Branches -/

mutual

/-- The leaves of each branch. -/
def branchLeaves : Out → List (List PlaceName)
  | .place p => [[p]]
  | .forwardInput _ target => [[target]]
  | .timeout _ child => branchLeaves child
  | .xor children => branchLeavesXor children
  | .and children => branchLeavesAnd children

def branchLeavesXor : List Out → List (List PlaceName)
  | [] => []
  | child :: children => branchLeaves child ++ branchLeavesXor children

def branchLeavesAnd : List Out → List (List PlaceName)
  | [] => [[]]
  | child :: children => productWith (· ++ ·) (branchLeaves child) (branchLeavesAnd children)

end

mutual

/-- Every xor has a child. -/
def Choosable : Out → Prop
  | .place _ => True
  | .forwardInput _ _ => True
  | .timeout _ child => Choosable child
  | .xor children => children ≠ [] ∧ ChoosableAll children
  | .and children => ChoosableAll children

def ChoosableAll : List Out → Prop
  | [] => True
  | child :: children => Choosable child ∧ ChoosableAll children

end

theorem choosableAll_iff {children : List Out} :
    ChoosableAll children ↔ ∀ child ∈ children, Choosable child := by
  induction children with
  | nil => simp [ChoosableAll]
  | cons child children ih => simp [ChoosableAll, ih]

mutual

theorem branchLeaves_ne_nil : ∀ out : Out, Choosable out → branchLeaves out ≠ []
  | .place p, _ => List.cons_ne_nil _ _
  | .forwardInput _ target, _ => List.cons_ne_nil _ _
  | .timeout _ child, h => branchLeaves_ne_nil child h
  | .xor [], h => absurd rfl h.1
  | .xor (child :: children), h => by
    rw [branchLeaves, branchLeavesXor]
    exact List.append_ne_nil_of_left_ne_nil (branchLeaves_ne_nil child h.2.1) _
  | .and children, h => branchLeavesAnd_ne_nil children h

theorem branchLeavesAnd_ne_nil : ∀ children : List Out, ChoosableAll children →
    branchLeavesAnd children ≠ []
  | [], _ => List.cons_ne_nil _ _
  | child :: children, h => by
    obtain ⟨x, memx⟩ := List.exists_mem_of_ne_nil _ (branchLeaves_ne_nil child h.1)
    obtain ⟨y, memy⟩ := List.exists_mem_of_ne_nil _ (branchLeavesAnd_ne_nil children h.2)
    rw [branchLeavesAnd]
    exact List.ne_nil_of_mem (mem_productWith.mpr ⟨x, memx, y, memy, rfl⟩)

end

/-! ## Leaves -/

section Leaves

variable {nameOf : PlaceName → PlaceName}

/-- The leaves the walk keeps are those some of the branches have: each under its own name, and each name of
a branch among them. -/
structure LeavesOf (nameOf : PlaceName → PlaceName) (leaves : OrderedMap PlaceName PlaceName)
    (branches : List (List PlaceName)) : Prop where
  known : ∀ name p, leaves.get? name = some p → nameOf p = name ∧ ∃ b ∈ branches, p ∈ b
  named : ∀ b ∈ branches, ∀ p ∈ b, nameOf p ∈ leaves.keys

/-- A branch that names a place twice, at two of its leaves. -/
structure NamesTwice (nameOf : PlaceName → PlaceName) (dup : BranchDuplicate) (b : List PlaceName) :
    Prop where
  leaves : [dup.first, dup.second].Sublist b
  first : nameOf dup.first = dup.name
  second : nameOf dup.second = dup.name

theorem NamesTwice.mono {dup : BranchDuplicate} {b b' : List PlaceName} (h : NamesTwice nameOf dup b)
    (within : b.Sublist b') : NamesTwice nameOf dup b' :=
  ⟨h.leaves.trans within, h.first, h.second⟩

theorem NamesTwice.two_le_count {dup : BranchDuplicate} {b : List PlaceName}
    (h : NamesTwice nameOf dup b) : 2 ≤ (b.map nameOf).count dup.name := by
  have twice := (h.leaves.map nameOf).count_le dup.name
  rwa [List.map_cons, List.map_cons, List.map_nil, h.first, h.second, List.count_cons_self,
    List.count_cons_self, List.count_nil] at twice

theorem leavesOf_single (p : PlaceName) :
    LeavesOf nameOf (OrderedMap.empty.set (nameOf p) p) [[p]] where
  known := by
    intro name q found
    rw [OrderedMap.get?_set] at found
    split at found
    next same =>
      obtain rfl := Option.some.inj found
      exact ⟨same.symm, [p], List.mem_singleton_self _, List.mem_singleton_self _⟩
    next => cases found
  named := by
    intro b mem q here
    rw [List.mem_singleton.mp mem] at here
    rw [List.mem_singleton.mp here, OrderedMap.keys_set]
    split
    next present => exact present
    next => simp

/-- What adding the leaves of a child does, when it succeeds. -/
structure Joined (isAnd : Bool) (found : List (PlaceName × PlaceName))
    (leaves leaves' : OrderedMap PlaceName PlaceName) : Prop where
  keys : ∀ name, name ∈ leaves'.keys ↔ name ∈ leaves.keys ∨ name ∈ found.map Prod.fst
  origin : ∀ name p, leaves'.get? name = some p → leaves.get? name = some p ∨ (name, p) ∈ found
  apart : isAnd = true → ∀ name ∈ found.map Prod.fst, name ∉ leaves.keys

theorem addLeaves_ok {isAnd : Bool} {found : List (PlaceName × PlaceName)}
    {leaves leaves' : OrderedMap PlaceName PlaceName} (ok : addLeaves isAnd found leaves = .ok leaves') :
    Joined isAnd found leaves leaves' := by
  induction found generalizing leaves with
  | nil =>
    obtain rfl := Except.ok.inj ok
    exact ⟨by simp, fun _ _ => .inl, by simp⟩
  | cons e found ih =>
    rw [addLeaves] at ok
    cases prior : leaves.get? e.1 with
    | some p =>
      rw [prior] at ok
      have here : e.1 ∈ leaves.keys := not_not.mp fun absent => by
        rw [(leaves.get?_eq_none_iff e.1).mpr absent] at prior
        cases prior
      cases isAnd with
      | true => cases ok
      | false =>
        have joined := ih ok
        refine ⟨fun name => ?_, fun name q at_ => ?_, nofun⟩
        · rw [joined.keys, List.map_cons, List.mem_cons]
          constructor
          · exact Or.imp_right .inr
          · rintro (old | rfl | new)
            · exact .inl old
            · exact .inl here
            · exact .inr new
        · exact (joined.origin name q at_).imp_right (List.mem_cons_of_mem _)
    | none =>
      rw [prior] at ok
      have joined := ih ok
      have absent := (leaves.get?_eq_none_iff e.1).mp prior
      have keys (name : PlaceName) : name ∈ (leaves.set e.1 e.2).keys ↔ name ∈ leaves.keys ∨ name = e.1 := by
        rw [OrderedMap.keys_set, if_neg absent, List.mem_append, List.mem_singleton]
      refine ⟨fun name => ?_, fun name q at_ => ?_, fun and name mem old => ?_⟩
      · rw [joined.keys, keys, List.map_cons, List.mem_cons, or_assoc]
      · rcases joined.origin name q at_ with old | new
        · rw [OrderedMap.get?_set] at old
          split at old
          next same =>
            obtain rfl := Option.some.inj old
            exact .inr (by rw [same]; exact List.mem_cons_self)
          next => exact .inl old
        · exact .inr (List.mem_cons_of_mem _ new)
      · rcases List.mem_cons.mp mem with rfl | later
        · exact absent old
        · exact joined.apart and name later ((keys name).mpr (.inl old))

/-- A duplicate lies between a leaf that was there and one of the child's. -/
theorem addLeaves_error {isAnd : Bool} {found : List (PlaceName × PlaceName)} (nodup : (found.map Prod.fst).Nodup)
    {leaves : OrderedMap PlaceName PlaceName} {dup : BranchDuplicate}
    (error : addLeaves isAnd found leaves = .error dup) :
    isAnd = true ∧ leaves.get? dup.name = some dup.first ∧ (dup.name, dup.second) ∈ found := by
  induction found generalizing leaves with
  | nil => cases error
  | cons e found ih =>
    rw [addLeaves] at error
    rw [List.map_cons, List.nodup_cons] at nodup
    cases prior : leaves.get? e.1 with
    | some p =>
      rw [prior] at error
      cases isAnd with
      | true =>
        obtain rfl := Except.error.inj error
        exact ⟨rfl, prior, List.mem_cons_self⟩
      | false => cases (ih nodup.2 error).1
    | none =>
      rw [prior] at error
      obtain ⟨and, before, second⟩ := ih nodup.2 error
      refine ⟨and, ?_, List.mem_cons_of_mem _ second⟩
      rw [OrderedMap.get?_set, if_neg] at before
      · exact before
      · rintro same
        exact nodup.1 (same ▸ List.mem_map_of_mem second)

end Leaves

/-! ## The walk -/

section Walk

variable {nameOf : PlaceName → PlaceName}

/-- A walk that finds nothing: no branch names a place twice. -/
structure Passed (nameOf : PlaceName → PlaceName) (leaves : OrderedMap PlaceName PlaceName)
    (branches : List (List PlaceName)) : Prop extends LeavesOf nameOf leaves branches where
  nodup : ∀ b ∈ branches, (b.map nameOf).Nodup

/-- What a walk says of the branches it has walked. -/
def Walked (nameOf : PlaceName → PlaceName) (branches : List (List PlaceName)) :
    Except BranchDuplicate (OrderedMap PlaceName PlaceName) → Prop
  | .ok leaves => Passed nameOf leaves branches
  | .error dup => ∃ b ∈ branches, NamesTwice nameOf dup b

theorem passed_single (p : PlaceName) : Passed nameOf (OrderedMap.empty.set (nameOf p) p) [[p]] where
  toLeavesOf := leavesOf_single p
  nodup := by
    intro b mem
    rw [List.mem_singleton.mp mem]
    exact List.nodup_singleton _

section Join

variable {leaves leaves' found : OrderedMap PlaceName PlaceName} {before branches : List (List PlaceName)}

theorem Passed.join_xor (h : Passed nameOf leaves before) (h' : Passed nameOf found branches)
    (ok : addLeaves false found.entries leaves = .ok leaves') :
    Passed nameOf leaves' (before ++ branches) := by
  have joined := addLeaves_ok ok
  refine ⟨⟨fun name p at_ => ?_, fun b mem p here => ?_⟩, fun b mem => ?_⟩
  · rcases joined.origin name p at_ with old | new
    · obtain ⟨same, b, mem, here⟩ := h.known name p old
      exact ⟨same, b, List.mem_append_left _ mem, here⟩
    · obtain ⟨same, b, mem, here⟩ := h'.known name p (found.get?_eq_some_iff.mpr new)
      exact ⟨same, b, List.mem_append_right _ mem, here⟩
  · rw [joined.keys]
    rcases List.mem_append.mp mem with old | new
    · exact .inl (h.named b old p here)
    · exact .inr (h'.named b new p here)
  · rcases List.mem_append.mp mem with old | new
    · exact h.nodup b old
    · exact h'.nodup b new

theorem Passed.join_and (h : Passed nameOf leaves before) (h' : Passed nameOf found branches)
    (some_ : before ≠ []) (some_' : branches ≠ [])
    (ok : addLeaves true found.entries leaves = .ok leaves') :
    Passed nameOf leaves' (productWith (· ++ ·) before branches) := by
  have joined := addLeaves_ok ok
  obtain ⟨x₀, memx₀⟩ := List.exists_mem_of_ne_nil _ some_
  obtain ⟨y₀, memy₀⟩ := List.exists_mem_of_ne_nil _ some_'
  refine ⟨⟨fun name p at_ => ?_, fun b mem p here => ?_⟩, fun b mem => ?_⟩
  · rcases joined.origin name p at_ with old | new
    · obtain ⟨same, x, memx, here⟩ := h.known name p old
      exact ⟨same, x ++ y₀, mem_productWith.mpr ⟨x, memx, y₀, memy₀, rfl⟩, List.mem_append_left _ here⟩
    · obtain ⟨same, y, memy, here⟩ := h'.known name p (found.get?_eq_some_iff.mpr new)
      exact ⟨same, x₀ ++ y, mem_productWith.mpr ⟨x₀, memx₀, y, memy, rfl⟩, List.mem_append_right _ here⟩
  · obtain ⟨x, memx, y, memy, rfl⟩ := mem_productWith.mp mem
    rw [joined.keys]
    rcases List.mem_append.mp here with old | new
    · exact .inl (h.named x memx p old)
    · exact .inr (h'.named y memy p new)
  · obtain ⟨x, memx, y, memy, rfl⟩ := mem_productWith.mp mem
    rw [List.map_append, List.nodup_append]
    refine ⟨h.nodup x memx, h'.nodup y memy, fun name old name' new same => ?_⟩
    obtain ⟨p, here, rfl⟩ := List.mem_map.mp old
    obtain ⟨q, there, rfl⟩ := List.mem_map.mp new
    exact joined.apart rfl _ (h'.named y memy q there) (same ▸ h.named x memx p here)

/-- A name on both sides of an and stands twice in a branch that takes the two leaves. -/
theorem Passed.clash (h : Passed nameOf leaves before) (h' : Passed nameOf found branches)
    {isAnd : Bool} {dup : BranchDuplicate} (error : addLeaves isAnd found.entries leaves = .error dup) :
    isAnd = true ∧ ∃ b ∈ productWith (· ++ ·) before branches, NamesTwice nameOf dup b := by
  obtain ⟨and, first, second⟩ := addLeaves_error found.nodup error
  obtain ⟨same, x, memx, here⟩ := h.known _ _ first
  obtain ⟨same', y, memy, there⟩ := h'.known _ _ (found.get?_eq_some_iff.mpr second)
  refine ⟨and, x ++ y, mem_productWith.mpr ⟨x, memx, y, memy, rfl⟩, ?_, same, same'⟩
  exact (List.singleton_sublist.mpr here).append (List.singleton_sublist.mpr there)

end Join

mutual

theorem findDuplicate_walked : ∀ out : Out, Choosable out →
    Walked nameOf (branchLeaves out) (findDuplicate nameOf out)
  | .place p, _ => passed_single p
  | .forwardInput _ target, _ => passed_single target
  | .timeout _ child, h => findDuplicate_walked child h
  | .xor children, h => by
    have nothing : Passed nameOf OrderedMap.empty [] := ⟨⟨nofun, nofun⟩, nofun⟩
    exact findDuplicateXor_walked children h.2 nothing
  | .and children, h => by
    have start : Passed nameOf OrderedMap.empty [[]] := ⟨⟨nofun, by simp⟩, by simp⟩
    have walked := findDuplicateAnd_walked children h (List.cons_ne_nil _ _) start
    rwa [productWith_unit _ _ List.nil_append] at walked

/-- Walking alternatives after those in `before`. -/
theorem findDuplicateXor_walked : ∀ children : List Out, ChoosableAll children →
    ∀ {leaves : OrderedMap PlaceName PlaceName} {before : List (List PlaceName)},
    Passed nameOf leaves before →
    Walked nameOf (before ++ branchLeavesXor children) (findDuplicateAll nameOf false children leaves)
  | [], _, leaves, before, passed => by
    rw [branchLeavesXor, List.append_nil]
    exact passed
  | child :: children, h, leaves, before, passed => by
    have walked := findDuplicate_walked child h.1
    rw [findDuplicateAll, branchLeavesXor, ← List.append_assoc]
    cases result : findDuplicate nameOf child with
    | error dup =>
      rw [result] at walked
      obtain ⟨b, mem, twice⟩ := walked
      exact ⟨b, List.mem_append_left _ (List.mem_append_right _ mem), twice⟩
    | ok found =>
      rw [result] at walked
      dsimp only
      cases joined : addLeaves false found.entries leaves with
      | error dup => cases (passed.clash walked joined).1
      | ok leaves' => exact findDuplicateXor_walked children h.2 (passed.join_xor walked joined)

/-- Walking the children of an and after those that `before` has the branches of. -/
theorem findDuplicateAnd_walked : ∀ children : List Out, ChoosableAll children →
    ∀ {leaves : OrderedMap PlaceName PlaceName} {before : List (List PlaceName)}, before ≠ [] →
    Passed nameOf leaves before →
    Walked nameOf (productWith (· ++ ·) before (branchLeavesAnd children))
      (findDuplicateAll nameOf true children leaves)
  | [], _, leaves, before, _, passed => by
    rw [branchLeavesAnd, unit_productWith _ _ List.append_nil]
    exact passed
  | child :: children, h, leaves, before, some_, passed => by
    have walked := findDuplicate_walked child h.1
    have some_' := branchLeaves_ne_nil child h.1
    rw [findDuplicateAll, branchLeavesAnd, productWith_assoc List.append_assoc]
    -- A branch of the children so far goes on to one of the whole and.
    have further {dup : BranchDuplicate} {b : List PlaceName}
        (mem : b ∈ productWith (· ++ ·) before (branchLeaves child)) (twice : NamesTwice nameOf dup b) :
        ∃ b ∈ productWith (· ++ ·) (productWith (· ++ ·) before (branchLeaves child))
          (branchLeavesAnd children), NamesTwice nameOf dup b := by
      obtain ⟨z, memz⟩ := List.exists_mem_of_ne_nil _ (branchLeavesAnd_ne_nil children h.2)
      exact ⟨b ++ z, mem_productWith.mpr ⟨b, mem, z, memz, rfl⟩,
        twice.mono (List.sublist_append_left b z)⟩
    cases result : findDuplicate nameOf child with
    | error dup =>
      rw [result] at walked
      obtain ⟨b, mem, twice⟩ := walked
      obtain ⟨x, memx⟩ := List.exists_mem_of_ne_nil _ some_
      exact further (mem_productWith.mpr ⟨x, memx, b, mem, rfl⟩)
        (twice.mono (List.sublist_append_right x b))
    | ok found =>
      rw [result] at walked
      dsimp only
      cases joined : addLeaves true found.entries leaves with
      | error dup =>
        obtain ⟨b, mem, twice⟩ := (passed.clash walked joined).2
        exact further mem twice
      | ok leaves' =>
        refine findDuplicateAnd_walked children h.2 (fun empty => ?_)
          (passed.join_and walked some_ some_' joined)
        obtain ⟨x, memx⟩ := List.exists_mem_of_ne_nil _ some_
        obtain ⟨y, memy⟩ := List.exists_mem_of_ne_nil _ some_'
        have mem : x ++ y ∈ productWith (· ++ ·) before (branchLeaves child) :=
          mem_productWith.mpr ⟨x, memx, y, memy, rfl⟩
        rw [empty] at mem
        cases mem

end

/-- A duplicate is reported exactly when some branch names a place twice, and then one such place. -/
theorem duplicateInBranch_right (nameOf : PlaceName → PlaceName) {out : Out} (choosable : Choosable out) :
    ((duplicateInBranch out nameOf).isSome ↔ ∃ b ∈ branchLeaves out, ¬ (b.map nameOf).Nodup) ∧
      ∀ dup, duplicateInBranch out nameOf = some dup →
        nameOf dup.first = dup.name ∧ nameOf dup.second = dup.name ∧
          ∃ b ∈ branchLeaves out, [dup.first, dup.second].Sublist b ∧
            2 ≤ (b.map nameOf).count dup.name := by
  have walked : Walked nameOf _ _ := findDuplicate_walked out choosable
  cases result : findDuplicate nameOf out with
  | ok leaves =>
    rw [result] at walked
    have nothing : duplicateInBranch out nameOf = none := by rw [duplicateInBranch, result]
    rw [nothing]
    refine ⟨⟨nofun, ?_⟩, nofun⟩
    rintro ⟨b, mem, twice⟩
    exact absurd (walked.nodup b mem) twice
  | error dup =>
    rw [result] at walked
    obtain ⟨b, mem, twice⟩ := walked
    have reported : duplicateInBranch out nameOf = some dup := by rw [duplicateInBranch, result]
    rw [reported]
    refine ⟨⟨fun _ => ⟨b, mem, fun nodup => ?_⟩, fun _ => rfl⟩, fun dup' same => ?_⟩
    · have := List.nodup_iff_count_le_one.mp nodup dup.name
      have := twice.two_le_count
      omega
    · obtain rfl := Option.some.inj same
      exact ⟨twice.first, twice.second, b, mem, twice.leaves, twice.two_le_count⟩

/-- `And(Xor(A, B), Xor(B, A))` reports `B`. -/
theorem duplicateInBranch_right_crossed :
    Choosable (.and [.xor [.place "A", .place "B"], .xor [.place "B", .place "A"]]) ∧
      duplicateInBranch (.and [.xor [.place "A", .place "B"], .xor [.place "B", .place "A"]]) id =
        some ⟨"B", "B", "B"⟩ ∧
      ∃ b ∈ branchLeaves (.and [.xor [.place "A", .place "B"], .xor [.place "B", .place "A"]]),
        ¬ (b.map id).Nodup := by
  have choosable : Choosable (.and [.xor [.place "A", .place "B"], .xor [.place "B", .place "A"]]) := by
    simp [Choosable, ChoosableAll]
  have reported : duplicateInBranch (.and [.xor [.place "A", .place "B"], .xor [.place "B", .place "A"]]) id =
      some ⟨"B", "B", "B"⟩ := by decide
  exact ⟨choosable, reported, (duplicateInBranch_right id choosable).1.mp (by rw [reported]; rfl)⟩

end Walk

end LibPetri.Verified
