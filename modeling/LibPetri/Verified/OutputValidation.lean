import LibPetri.Verified.OutputClaims

/-! # What output validation accepts

A firing's output is accepted exactly when one and only one assignment claims it.  The order of the children
does not count, and the check that the precompiled executor has for a single place says the same.
-/

namespace LibPetri.Verified

open LibPetri.Basis LibPetri.Core LibPetri.Runtime

/-! ## The verdict -/

/-- The produced places that a specification names. -/
def wanted (spec : Out) (produced : List PlaceName) : List PlaceName :=
  produced.filter fun name => name ∈ spec.collectPlaces

/-- The names of the produced places in an error. -/
def wroteText (spec : Out) (produced : List PlaceName) : String :=
  ", ".intercalate (sortCodeUnits (wanted spec produced))

def unexplained (tName wrote : String) : Thrown :=
  outViolation (s!"'{tName}': output does not match the declared spec - produced \x7b{wrote}\x7d, " ++
    "which no single branch of the spec claims exactly")

def ambiguous (tName wrote : String) : Thrown :=
  outViolation s!"'{tName}': ambiguous output - \x7b{wrote}\x7d is claimed by more than one branch"

/-- The claims that equal the produced places. -/
def exactClaims (spec : Out) (produced : List PlaceName) : List (List PlaceName) :=
  (claimsWithin produced spec).filter fun claim => claim.length = (wanted spec produced).length

theorem validateOutSpec_eq (tName : String) (spec : Out) (produced : List PlaceName) :
    validateOutSpec tName spec produced =
      match exactClaims spec produced with
      | [] => .error (unexplained tName (wroteText spec produced))
      | [claim] => .ok claim
      | _ => .error (ambiguous tName (wroteText spec produced)) := rfl

section Verdict

variable {spec : Out} {produced : List PlaceName}

theorem mem_exactClaims (set : produced.Nodup) (built : Populated spec) (free : ∀ p ∈ spec.collectPlaces, Free p)
    {claim : List PlaceName} (mem : claim ∈ claimsWithin produced spec) :
    claim.length = (wanted spec produced).length ↔ claim.toFinset = (wanted spec produced).toFinset := by
  obtain ⟨keyed, named⟩ := (claimsWithin_spec spec built free).2 claim mem
  have inside : claim.toFinset ⊆ (wanted spec produced).toFinset := by
    intro p here
    obtain ⟨wrote, listed⟩ := named p (List.mem_toFinset.mp here)
    exact List.mem_toFinset.mpr (List.mem_filter.mpr ⟨wrote, decide_eq_true listed⟩)
  have size := List.toFinset_card_of_nodup keyed.nodup
  have size' := List.toFinset_card_of_nodup (set.filter fun name => decide (name ∈ spec.collectPlaces))
  change _ = (wanted spec produced).length at size'
  constructor
  · intro same
    exact Finset.eq_of_subset_of_card_le inside (by
      rw [size, same, ← size']
      exact le_rfl)
  · intro same
    rw [← size, same, ← size']
    rfl

/-- As many exact claims are found as there are, up to two. -/
theorem length_exactClaims (set : produced.Nodup) (built : Populated spec)
    (free : ∀ p ∈ spec.collectPlaces, Free p) : min 2 (exactClaims spec produced).length =
      min 2 ((claims spec).count (wanted spec produced).toFinset) := by
  have found : (exactClaims spec produced).length =
      (claimSets (claimsWithin produced spec)).count (wanted spec produced).toFinset := by
    rw [claimSets, Multiset.coe_count, List.count_eq_countP, List.countP_map, exactClaims,
      ← List.countP_eq_length_filter]
    refine List.countP_congr fun claim mem => ?_
    rw [decide_eq_true_eq, Function.comp_apply, beq_iff_eq]
    exact mem_exactClaims set built free mem
  have subset : (wanted spec produced).toFinset ⊆ produced.toFinset := by
    intro p mem
    exact List.mem_toFinset.mpr (List.mem_of_mem_filter (List.mem_toFinset.mp mem))
  rw [found, (claimsWithin_spec spec built free).1, within,
    Multiset.count_filter_of_pos (p := fun claim => claim ⊆ produced.toFinset) subset]

/-- What the validation answers, by the number of assignments that claim the produced places. -/
theorem validateOutSpec_cases (tName : String) (set : produced.Nodup) (built : Populated spec)
    (free : ∀ p ∈ spec.collectPlaces, Free p) :
    ((claims spec).count (wanted spec produced).toFinset = 0 ∧
        validateOutSpec tName spec produced = .error (unexplained tName (wroteText spec produced))) ∨
      ((claims spec).count (wanted spec produced).toFinset = 1 ∧ ∃ claim, claim.Nodup ∧
        claim.toFinset = (wanted spec produced).toFinset ∧ validateOutSpec tName spec produced = .ok claim) ∨
      (2 ≤ (claims spec).count (wanted spec produced).toFinset ∧
        validateOutSpec tName spec produced = .error (ambiguous tName (wroteText spec produced))) := by
  have length := length_exactClaims set built free
  rw [validateOutSpec_eq]
  have sound : ∀ claim ∈ exactClaims spec produced, claim.Nodup ∧
      claim.toFinset = (wanted spec produced).toFinset := by
    intro claim mem
    obtain ⟨mem, size⟩ := List.mem_filter.mp mem
    exact ⟨((claimsWithin_spec spec built free).2 claim mem).1.nodup,
      (mem_exactClaims set built free mem).mp (of_decide_eq_true size)⟩
  generalize exactClaims spec produced = exact_ at length sound
  cases exact_ with
  | nil =>
    refine .inl ⟨?_, rfl⟩
    rw [List.length_nil] at length
    omega
  | cons claim others =>
    cases others with
    | nil =>
      obtain ⟨nodup, same⟩ := sound claim List.mem_cons_self
      refine .inr (.inl ⟨?_, claim, nodup, same, rfl⟩)
      rw [List.length_singleton] at length
      omega
    | cons next others =>
      refine .inr (.inr ⟨?_, rfl⟩)
      rw [List.length_cons, List.length_cons] at length
      omega

end Verdict

/-! ## The order of the children -/

mutual

/-- The children of any nodes in another order. -/
inductive Reordered : Out → Out → Prop
  | refl (spec : Out) : Reordered spec spec
  | trans {a b c : Out} : Reordered a b → Reordered b c → Reordered a c
  | timeout {afterMs : Ms} {a b : Out} : Reordered a b → Reordered (.timeout afterMs a) (.timeout afterMs b)
  | xor {as bs : List Out} : ReorderedAll as bs → Reordered (.xor as) (.xor bs)
  | and {as bs : List Out} : ReorderedAll as bs → Reordered (.and as) (.and bs)

inductive ReorderedAll : List Out → List Out → Prop
  | nil : ReorderedAll [] []
  | cons {a b : Out} {as bs : List Out} : Reordered a b → ReorderedAll as bs →
      ReorderedAll (a :: as) (b :: bs)
  | swap (a b : Out) (as : List Out) : ReorderedAll (a :: b :: as) (b :: a :: as)
  | trans {as bs cs : List Out} : ReorderedAll as bs → ReorderedAll bs cs → ReorderedAll as cs

end

/-- What a reordering leaves as it is. -/
structure Alike (a b : Out) : Prop where
  claims : claims a = claims b
  places : a.collectPlaces.Perm b.collectPlaces
  built : Populated a → Populated b

structure AlikeAll (as bs : List Out) : Prop where
  any : claimsOfAny as = claimsOfAny bs
  all : claimsOfAll as = claimsOfAll bs
  places : (Out.collectPlacesAll as).Perm (Out.collectPlacesAll bs)
  built : PopulatedAll as → PopulatedAll bs
  empty : as = [] ↔ bs = []

theorem claims_timeout (afterMs : Ms) (child : Out) : claims (.timeout afterMs child) = claims child := by
  rw [claims, choices, List.map_map]
  rfl

mutual

theorem Reordered.alike {a b : Out} : Reordered a b → Alike a b
  | .refl spec => ⟨rfl, .refl _, id⟩
  | .trans first second =>
    have first := first.alike
    have second := second.alike
    ⟨first.claims.trans second.claims, first.places.trans second.places, second.built ∘ first.built⟩
  | .timeout child => by
    have inner := child.alike
    refine ⟨?_, ?_, inner.built⟩
    · rw [claims_timeout, claims_timeout, inner.claims]
    · rw [Out.collectPlaces, Out.collectPlaces]
      exact inner.places
  | .xor children => by
    have inner := children.alike
    refine ⟨?_, ?_, inner.built⟩
    · rw [claims_xor, claims_xor, inner.any]
    · rw [Out.collectPlaces, Out.collectPlaces]
      exact inner.places
  | .and children => by
    have inner := children.alike
    refine ⟨?_, ?_, fun built => ⟨mt inner.empty.mpr built.1, inner.built built.2⟩⟩
    · rw [claims_and, claims_and, inner.all]
    · rw [Out.collectPlaces, Out.collectPlaces]
      exact inner.places

theorem ReorderedAll.alike {as bs : List Out} : ReorderedAll as bs → AlikeAll as bs
  | .nil => ⟨rfl, rfl, .refl _, id, Iff.rfl⟩
  | .cons first rest => by
    have first := first.alike
    have rest := rest.alike
    refine ⟨?_, ?_, ?_, fun built => ⟨first.built built.1, rest.built built.2⟩, by simp⟩
    · rw [claimsOfAny, claimsOfAny, first.claims, rest.any]
    · rw [claimsOfAll, claimsOfAll, first.claims, rest.all]
    · rw [Out.collectPlacesAll, Out.collectPlacesAll]
      exact first.places.append rest.places
  | .swap a b as => by
    refine ⟨?_, ?_, ?_, fun built => ⟨built.2.1, built.1, built.2.2⟩, by simp⟩
    · simp only [claimsOfAny]
      exact add_left_comm _ _ _
    · simp only [claimsOfAll]
      exact joins_left_comm _ _ _
    · simp only [Out.collectPlacesAll, ← List.append_assoc]
      exact List.perm_append_comm.append_right _
  | .trans first second =>
    have first := first.alike
    have second := second.alike
    ⟨first.any.trans second.any, first.all.trans second.all, first.places.trans second.places,
      second.built ∘ first.built, first.empty.trans second.empty⟩

end

theorem Alike.wanted_eq {a b : Out} (h : Alike a b) (produced : List PlaceName) :
    wanted a produced = wanted b produced := by
  refine List.filter_congr fun p _ => ?_
  rw [decide_eq_decide, h.places.mem_iff]

/-- The answer to two specifications: the same error, or the same set of places. -/
def SameAnswer : Except Thrown (List PlaceName) → Except Thrown (List PlaceName) → Prop
  | .ok claim, .ok claim' => claim.Perm claim'
  | .error e, .error e' => e = e'
  | _, _ => False

theorem validateOutSpec_reordered (tName : String) {spec spec' : Out} (same : Reordered spec spec')
    {produced : List PlaceName} (set : produced.Nodup) (built : Populated spec)
    (free : ∀ p ∈ spec.collectPlaces, Free p) :
    SameAnswer (validateOutSpec tName spec produced) (validateOutSpec tName spec' produced) := by
  have alike := same.alike
  have text : wroteText spec produced = wroteText spec' produced := by
    rw [wroteText, wroteText, alike.wanted_eq]
  have here := validateOutSpec_cases tName set built free
  have there := validateOutSpec_cases tName set (alike.built built) fun p mem =>
    free p (alike.places.mem_iff.mpr mem)
  rw [alike.claims, alike.wanted_eq, text] at here
  rcases here with ⟨none_, answer⟩ | ⟨one, claim, nodup, eq, answer⟩ | ⟨more, answer⟩
  · rcases there with ⟨-, answer'⟩ | ⟨one', -⟩ | ⟨more', -⟩
    · rw [answer, answer']
      exact rfl
    · omega
    · omega
  · rcases there with ⟨none', -⟩ | ⟨-, claim', nodup', eq', answer'⟩ | ⟨more', -⟩
    · omega
    · rw [answer, answer']
      refine (List.perm_ext_iff_of_nodup nodup nodup').mpr fun p => ?_
      rw [← List.mem_toFinset, eq, ← eq', List.mem_toFinset]
    · omega
  · rcases there with ⟨none', -⟩ | ⟨one', -⟩ | ⟨-, answer'⟩
    · omega
    · omega
    · rw [answer, answer']
      exact rfl

/-! ## The check of a single place -/

section SinglePlace

theorem validateOutSpec_place (tName p : PlaceName) {produced : List PlaceName} (set : produced.Nodup) :
    validateOutSpec tName (.place p) produced =
      if p ∉ produced then .error (unexplained tName "") else .ok [p] := by
  have wanted_eq : wanted (.place p) produced = if p ∈ produced then [p] else [] := by
    have only : wanted (.place p) produced = produced.filter fun name => name = p := by
      refine List.filter_congr fun name _ => ?_
      rw [Out.collectPlaces, decide_eq_decide, List.mem_singleton]
    rw [only]
    split
    next mem =>
      have := List.Nodup.filter (fun name => decide (name = p)) set
      refine List.perm_singleton.mp ((List.perm_ext_iff_of_nodup this (List.nodup_singleton p)).mpr ?_)
      intro q
      rw [List.mem_filter, decide_eq_true_eq, List.mem_singleton]
      exact ⟨fun h => h.2, fun eq => ⟨eq ▸ mem, eq⟩⟩
    next absent =>
      refine List.filter_eq_nil_iff.mpr fun q mem eq => absent ?_
      rwa [← of_decide_eq_true eq]
  rw [validateOutSpec_eq, exactClaims, claimsWithin, wroteText, wanted_eq]
  by_cases mem : p ∈ produced
  · rw [if_pos mem, if_pos mem, if_neg (not_not.mpr mem)]
    rfl
  · rw [if_neg mem, if_neg mem, if_pos mem]
    rfl

variable {V N S : Type} [LinearOrder N] [Value V] [ToString N] {cfg : Setting V N}

/-- The check of a completed firing by its specification. -/
def checkBySpec (ops : StoreOps cfg S) (tid : CompiledNet.Tid cfg.net) (flight : Flight V N) :
    Method cfg S Unit := do
  match (CompiledNet.transition tid).outputSpec with
  | none => pure ()
  | some spec => do
    let produced := placesWithTokens flight.entries
    let claim ← Prog.lift (validateOutSpec (CompiledNet.transition tid).name spec produced)
    Prog.lift (validateRelays (CompiledNet.transition tid) flight.entries flight.matchedName)
    if produced.length < flight.entries.length then
      Executor.warnMultiplicity ops (CompiledNet.transition tid).name flight.entries claim
    else pure ()

theorem bitmap_checkBySpec (tid : CompiledNet.Tid cfg.net) (flight : Flight V N) :
    Runtime.BitmapNetExecutor.validateOutput tid flight =
      checkBySpec (Runtime.BitmapNetExecutor.storeOps cfg) tid flight := rfl

theorem unexplained_nothing (tName : String) : unexplained tName "" =
    outViolation (s!"'{tName}': output does not match the declared spec - produced \x7b\x7d, " ++
      "which no single branch of the spec claims exactly") := by
  have braces : "': output does not match the declared spec - produced \x7b" ++ ("" ++ "\x7d, ") =
      "': output does not match the declared spec - produced \x7b\x7d, " := by decide +kernel
  unfold unexplained
  simp only [ToString.toString, String.append_assoc, ← braces]

/-- The precompiled executor checks a single place without the search, and answers alike. -/
theorem precompiled_checkBySpec (validates : cfg.skipOutputValidation = false)
    (tid : CompiledNet.Tid cfg.net) (flight : Flight V N) :
    Runtime.PrecompiledNetExecutor.validateOutput tid flight =
      checkBySpec (Runtime.PrecompiledNetExecutor.storeOps cfg) tid flight := by
  unfold Runtime.PrecompiledNetExecutor.validateOutput checkBySpec
  dsimp only
  rw [validates]
  cases named : (CompiledNet.transition tid).outputSpec with
  | none => rfl
  | some spec =>
    dsimp only
    have complex {spec : Out} (named : (CompiledNet.transition tid).outputSpec = some spec)
        (branching : ∀ p, spec ≠ .place p) : PrecompiledNet.simpleOutputPlaceId tid = -1 := by
      unfold PrecompiledNet.simpleOutputPlaceId
      rw [named]
      cases spec with
      | place p => exact absurd rfl (branching p)
      | _ => rfl
    by_cases single : ∃ p, spec = .place p
    · obtain ⟨p, rfl⟩ := single
      have simple : PrecompiledNet.simpleOutputPlaceId tid = CompiledNet.placeId cfg.net p := by
        unfold PrecompiledNet.simpleOutputPlaceId
        rw [named]
      have known : p ∈ CompiledNet.placesById cfg.net := by
        refine CompiledNet.mem_placesById.mpr (.inl ⟨_, CompiledNet.transition_mem tid, .inr ?_⟩)
        rw [Transition.outputPlaces, named]
        exact List.mem_singleton_self p
      have set : (placesWithTokens flight.entries).Nodup := CompiledNet.nodup_eraseDups _
      rw [simple, if_pos (Int.natCast_nonneg _), Int.toNat_natCast, CompiledNet.place_placeId known,
        validateOutSpec_place _ p set]
      by_cases missing : p ∉ placesWithTokens flight.entries
      · rw [if_pos missing, if_pos missing, unexplained_nothing]
        rfl
      · rw [if_neg missing, if_neg missing]
        rfl
    · have minus := complex named fun p eq => single ⟨p, eq⟩
      rw [minus, if_neg (by decide), if_pos rfl]

end SinglePlace

/-! ## Acceptance -/

/-- An output is accepted exactly when one and only one assignment claims it, and the claim is what was
produced of the named places.  The order of children changes no answer, and both executors check by the
specification. -/
theorem validateOutSpec_right {spec : Out} {produced : List PlaceName} (set : produced.Nodup)
    (built : Populated spec) (free : ∀ p ∈ spec.collectPlaces, Free p) (tName : String) :
    ((∃ claim, validateOutSpec tName spec produced = .ok claim) ↔
        ∃! c, claimOf false spec c = some (wanted spec produced).toFinset) ∧
      (∀ claim, validateOutSpec tName spec produced = .ok claim →
        claim.toFinset = (wanted spec produced).toFinset) ∧
      (∀ spec', Reordered spec spec' →
        SameAnswer (validateOutSpec tName spec produced) (validateOutSpec tName spec' produced)) ∧
      ∀ {V N : Type} [LinearOrder N] [Value V] [ToString N] {cfg : Setting V N}
        (tid : CompiledNet.Tid cfg.net) (flight : Flight V N),
        Runtime.BitmapNetExecutor.validateOutput tid flight =
            checkBySpec (Runtime.BitmapNetExecutor.storeOps cfg) tid flight ∧
          (cfg.skipOutputValidation = false → Runtime.PrecompiledNetExecutor.validateOutput tid flight =
            checkBySpec (Runtime.PrecompiledNetExecutor.storeOps cfg) tid flight) := by
  have cases_ := validateOutSpec_cases tName set built free
  refine ⟨?_, fun claim answer => ?_, fun spec' same => validateOutSpec_reordered tName same set built free,
    fun tid flight => ⟨bitmap_checkBySpec tid flight, fun validates => precompiled_checkBySpec validates _ _⟩⟩
  · rw [← count_claims_eq_one]
    constructor
    · rintro ⟨claim, answer⟩
      rcases cases_ with ⟨-, refused⟩ | ⟨one, -⟩ | ⟨-, refused⟩
      · rw [answer] at refused
        cases refused
      · exact one
      · rw [answer] at refused
        cases refused
    · intro one
      rcases cases_ with ⟨none_, -⟩ | ⟨-, claim, -, -, answer⟩ | ⟨more, -⟩
      · omega
      · exact ⟨claim, answer⟩
      · omega
  · rcases cases_ with ⟨-, refused⟩ | ⟨-, claim', -, same, answer'⟩ | ⟨-, refused⟩
    · rw [answer] at refused
      cases refused
    · rw [answer] at answer'
      obtain rfl := Except.ok.inj answer'
      exact same
    · rw [answer] at refused
      cases refused

/-- A place and a timeout. -/
def timedOutput : Out := .and [.place "a", .timeout 50 (.place "b")]

theorem validateOutSpec_right_timed :
    (∃ claim, validateOutSpec "t" timedOutput ["a", "b"] = .ok claim) ↔
      ∃! c, claimOf false timedOutput c = some (wanted timedOutput ["a", "b"]).toFinset :=
  (@validateOutSpec_right timedOutput ["a", "b"] (by decide) ⟨List.cons_ne_nil _ _, trivial, trivial, trivial⟩
    (by unfold Free; decide +kernel) "t").1

/-- Where a timeout may be skipped one assignment claims the first place alone, which is refused. -/
theorem skipped_timeout_refused :
    (∃! c, claimOf true timedOutput c = some (wanted timedOutput ["a"]).toFinset) ∧
      ¬∃ claim, validateOutSpec "t" timedOutput ["a"] = .ok claim := by
  have alone : (wanted timedOutput ["a"]).toFinset = {"a"} := by decide +kernel
  have apart : ({"a"} ∪ ({"b"} ∪ ∅) : Finset PlaceName) ≠ {"a"} := by decide +kernel
  constructor
  · refine ⟨.all [.leaf, .skip], ?_, ?_⟩
    · rw [alone]
      rfl
    · intro c claim
      rw [alone] at claim
      cases c with
      | all cs =>
        rcases cs with _ | ⟨first, _ | ⟨second, _ | ⟨third, cs⟩⟩⟩
        · cases claim
        · cases first <;> cases claim
        · cases first with
          | leaf =>
            cases second with
            | skip => rfl
            | run inner =>
              cases inner with
              | leaf => exact absurd (Option.some.inj claim) apart
              | _ => cases claim
            | _ => cases claim
          | _ => cases claim
        · cases first with
          | leaf =>
            cases second with
            | run inner => cases inner <;> cases claim
            | _ => cases claim
          | _ => cases claim
      | _ => cases claim
  · rintro ⟨claim, answer⟩
    rw [validateOutSpec_eq, show exactClaims timedOutput ["a"] = [] by decide +kernel] at answer
    cases answer

end LibPetri.Verified
