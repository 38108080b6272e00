import LibPetri.Verified.TokenConservation

/-! # Joins along a run

Where no projection throws, no deposit fails, so the token machine covers every run: a cache names what a search over
the queues finds, and a join takes from each correlated input the oldest tokens of the one name it has bound.
-/

namespace LibPetri.Verified

open LibPetri.Basis LibPetri.Core LibPetri.Runtime CompiledNet Executor

variable {V N : Type} [LinearOrder N]

/-! ## Firings in the record -/

section Firings

variable {cfg : Setting V N} {start : PlaceName → List (Token V)} {history later earlier : List (Effect cfg.net)}
  {tokens : Tokens cfg.net} {tid : Tid cfg.net} {inputs : List (PlaceName × Token V)} {consumed : List (Token V)}
  {chosen : Option N}

/-- The turn that has started a firing, with the tokens it found. -/
structure FiringTurn (cfg : Setting V N) (start : PlaceName → List (Token V)) (tid : Tid cfg.net) (chosen : Option N)
    (c : Consumption V N) (earlier before : List (Effect cfg.net)) (tokens : Tokens cfg.net) : Prop where
  run : TokenRun cfg start before tokens
  record : earlier = consumptionEffects (transition tid) chosen tokens.queue ++ .began tid :: before
  idle : tokens.flight tid = none
  fireable : Fireable (transition tid) chosen tokens.queue
  consumption : c = consumptionOf (transition tid) chosen tokens.queue

omit [LinearOrder N] in
/-- The start of a firing in the record of a turn is the entry that ends the turn, or it belongs to an earlier one. -/
theorem turn_behind {closing opening : Effect cfg.net} {older : List (Effect cfg.net)} (middle : List (Effect cfg.net))
    (split : closing :: (middle ++ opening :: older) = later ++ .launched tid inputs consumed chosen :: earlier)
    (inside : ∀ e ∈ middle, inTurn e = true) (opens : opening ≠ .launched tid inputs consumed chosen) :
    (closing = .launched tid inputs consumed chosen ∧ earlier = middle ++ opening :: older) ∨
      ∃ between, older = between ++ .launched tid inputs consumed chosen :: earlier := by
  cases later with
  | nil =>
    obtain ⟨same, rest⟩ := List.cons.inj split
    exact .inl ⟨same, rest.symm⟩
  | cons first later =>
    obtain ⟨-, rest⟩ := List.cons.inj split
    rcases List.append_eq_append_iff.mp rest with ⟨between, -, tail⟩ | ⟨between, same, tail⟩
    · cases between with
      | nil => exact absurd (List.cons.inj tail).1 opens
      | cons _ between => exact .inr ⟨between, (List.cons.inj tail).2⟩
    · cases between with
      | nil => exact absurd (List.cons.inj tail).1.symm opens
      | cons _ between =>
        obtain ⟨rfl, -⟩ := List.cons.inj tail
        have mem : .launched tid inputs consumed chosen ∈ middle := by rw [same]; simp
        cases inside _ mem

/-- Every firing on the record was a turn of the machine. -/
theorem TokenRun.launched (run : TokenRun cfg start history tokens)
    (split : history = later ++ .launched tid inputs consumed chosen :: earlier) :
    ∃ before tokens', FiringTurn cfg start tid chosen ⟨inputs, consumed, chosen⟩ earlier before tokens' := by
  induction run generalizing later with
  | seeded =>
    have mem : .launched tid inputs consumed chosen ∈ seeds cfg := by rw [split]; simp
    obtain ⟨entry, -, mem⟩ := List.mem_flatMap.mp (List.mem_reverse.mp mem)
    obtain ⟨token, -, same⟩ := List.mem_map.mp mem
    cases same
  | @fired history tokens other chosen' run idle fireable ih =>
    rcases turn_behind _ split (inTurn_consumptionEffects _ _ _) (by nofun) with ⟨same, rfl⟩ | ⟨_, behind⟩
    · obtain ⟨rfl, rfl, rfl, rfl⟩ := Effect.launched.inj same
      exact ⟨history, tokens, run, rfl, idle, fireable, rfl⟩
    · exact ih behind
  | aborted run idle fireable ih =>
    rcases turn_behind _ split (inTurn_consumptionEffects _ _ _) (by nofun) with ⟨same, -⟩ | ⟨_, behind⟩
    · cases same
    · exact ih behind
  | completed run held entries ih =>
    rcases turn_behind _ split (inTurn_landings entries) (by nofun) with ⟨same, -⟩ | ⟨_, behind⟩
    · cases same
    · exact ih behind
  | failed run held entries ih =>
    rcases turn_behind [] split (by nofun) (by nofun) with ⟨same, -⟩ | ⟨_, behind⟩
    · cases same
    · exact ih behind
  | admitted run event ih =>
    rcases turn_behind [] split (by nofun) (by nofun) with ⟨same, -⟩ | ⟨_, behind⟩
    · cases same
    · exact ih behind

end Firings

/-! ## What a join takes -/

section Joins

variable {t : Transition V N} {chosen : Option N} {spec : In} {specs : List In} {queue : PlaceName → List (Token V)}

theorem takenFrom_of_notMem {p : PlaceName} (apart : ∀ spec ∈ specs, spec.place ≠ p) :
    takenFrom p (takings t chosen specs queue) = [] := by
  induction specs generalizing queue with
  | nil => rfl
  | cons first specs ih =>
    obtain ⟨here, later⟩ := List.forall_mem_cons.mp apart
    rw [takings, takenFrom_append, takenFrom_map, if_neg here, ih later, List.append_nil]

/-- What is taken from the place of an input is what that input takes. -/
theorem takenFrom_place (nodup : (specs.map In.place).Nodup) (mem : spec ∈ specs) :
    takenFrom spec.place (takings t chosen specs queue) = (takenBy t chosen spec (queue spec.place)).map Prod.snd := by
  induction specs generalizing queue with
  | nil => cases mem
  | cons first specs ih =>
    obtain ⟨new, nodup⟩ := List.nodup_cons.mp nodup
    have apart : ∀ other ∈ specs, other.place ≠ first.place := fun other mem same =>
      new (same ▸ List.mem_map_of_mem mem)
    rw [takings, takenFrom_append, takenFrom_map]
    cases mem with
    | head => rw [if_pos rfl, takenFrom_of_notMem apart, List.append_nil]
    | tail _ mem => rw [if_neg (apart spec mem).symm, List.nil_append, ih nodup mem, Function.update_of_ne (apart spec mem)]

variable {net : PetriNet V N}

omit [LinearOrder N] in
/-- The tokens inputs have taken from the place, oldest first. -/
def tookFrom (p : PlaceName) (effects : List (Effect net)) : List (Token V) :=
  effects.reverse.flatMap fun
    | .took q _ token => if q = p then [token] else []
    | _ => []

theorem tookFrom_consumptionEffects (p : PlaceName) : tookFrom p (consumptionEffects t chosen queue : List (Effect net)) =
    takenFrom p (takings t chosen t.inputSpecs queue) := by
  have resets : tookFrom p (emptied (resettings t.resets (afterTaking t chosen t.inputSpecs queue)) :
      List (Effect net)) = [] := by
    rw [tookFrom, emptied, List.reverse_reverse, List.flatMap_map]
    exact List.flatMap_eq_nil_iff.mpr fun _ _ => rfl
  have inputs : tookFrom p (took (takings t chosen t.inputSpecs queue) : List (Effect net)) =
      takenFrom p (takings t chosen t.inputSpecs queue) := by
    have alike : tookFrom p (took (takings t chosen t.inputSpecs queue) : List (Effect net)) =
        departed p (took (takings t chosen t.inputSpecs queue) : List (Effect net)) := by
      rw [tookFrom, departed, took, List.reverse_reverse, List.flatMap_map, List.flatMap_map]
      rfl
    rw [alike, departed_took]
  have split : tookFrom p (consumptionEffects t chosen queue : List (Effect net)) =
      tookFrom p (took (takings t chosen t.inputSpecs queue) : List (Effect net)) ++
        tookFrom p (emptied (resettings t.resets (afterTaking t chosen t.inputSpecs queue)) : List (Effect net)) := by
    simp [tookFrom, consumptionEffects]
  rw [split, resets, inputs, List.append_nil]

/-- The tokens of the name, oldest first. -/
def ofName (key : KeyFn V N) (name : N) (tokens : List (Token V)) : List (Token V) := tokens.filter (carries key name)

omit [LinearOrder N] in
/-- How many of them an input takes. -/
def shareOf (spec : In) (named : List (Token V)) : List (Token V) :=
  match spec with
  | .one _ => named.take 1
  | .exactly count _ => named.take count
  | .all _ | .atLeast _ _ => named

/-- What a join takes from its correlated inputs: of each, the oldest tokens of the name it has bound. -/
structure TakesByName (t : Transition V N) (ms : MatchSpec V N) (name : N) (queue : PlaceName → List (Token V))
    (effects : List (Effect net)) : Prop where
  shares : ∀ k ∈ ms.keys, ∃ spec ∈ t.inputSpecs, spec.place = k.place ∧
    spec.requiredCount ≤ (ofName k.key name (queue k.place)).length ∧
    tookFrom k.place effects = shareOf spec (ofName k.key name (queue k.place))

theorem takesByName {ms : MatchSpec V N} (matched : t.matchSpec = some ms) {name : N}
    (supplied : Supplied t (some name) queue) :
    TakesByName t ms name queue (consumptionEffects t (some name) queue : List (Effect net)) := by
  refine ⟨fun k mem => ?_⟩
  obtain ⟨spec, hspec, here⟩ := List.mem_map.mp (t.keys_inputs ms matched k mem)
  have keyed : correlated t spec.place = some k.key := by
    rw [correlated, matched, here]
    exact keyForPlace_of_mem (t.keys_nodup ms matched) mem
  have test : eligible t (some name) spec.place = carries k.key name := eligible_of_named keyed rfl
  have enough := (supplied.takeable spec hspec).enough
  rw [test, List.countP_eq_length_filter] at enough
  refine ⟨spec, hspec, here, here ▸ enough, ?_⟩
  rw [tookFrom_consumptionEffects, ← here, takenFrom_place t.inputs_nodup hspec, takenBy, map_snd_picked, test]
  have all : ((queue spec.place).filter (carries k.key name)).take
      ((queue spec.place).countP (eligible t (some name) spec.place)) =
        (queue spec.place).filter (carries k.key name) := by
    rw [test, List.countP_eq_length_filter, List.take_length]
  cases spec with
  | one p => rfl
  | exactly count p => rfl
  | all p => exact all
  | atLeast minimum p => exact all

end Joins

/-! ## Where no projection throws -/

section Total

variable {cfg : Setting V N} {S : Type} {B : Backend cfg S} {verdict : Tid cfg.net → Flight V N → Except Thrown Unit}

/-- No key projection of the net throws on any value. -/
def TotalKeys (net : PetriNet V N) : Prop :=
  ∀ tid : Tid net, ∀ ms ∈ (transition tid).matchSpec, ∀ k ∈ ms.keys, ∀ v, ∃ found, k.key v = .ok found

theorem projects_of_total (total : TotalKeys cfg.net) (caches : Caches cfg) (p : PlaceName) (token : Token V) :
    Projects caches p token := by
  intro _ target _ _ mk key
  obtain ⟨ms, matched, at_⟩ := Option.bind_eq_some_iff.mp key
  exact total target.1 ms matched mk (List.mem_of_getElem? at_) token.value

theorem cleanDeposits_of_total (total : TotalKeys cfg.net) (m : Machine cfg S) (label : Label cfg) :
    CleanDeposits B verdict m label := by
  intro _
  unfold DepositsCleanly
  split
  · exact fun _ _ _ _ _ _ entry _ => projects_of_total total _ entry.1 entry.2
  · exact fun event _ => projects_of_total total _ event.place event.token
  · trivial

variable [Value V]

theorem reachableBy_of_total (total : TotalKeys cfg.net) {new : Except Thrown (Exec cfg S)} {m : Machine cfg S}
    (run : Reachable B new m) : ReachableBy B new (CleanDeposits B verdict) m := by
  obtain ⟨x, made, reaches⟩ := run
  exact ⟨x, made, reaches.mono fun m label _ => cleanDeposits_of_total total m label⟩

theorem ReachableBy.reachable {new : Except Thrown (Exec cfg S)} {Ok : Machine cfg S → Label cfg → Prop}
    {m : Machine cfg S} (run : ReachableBy B new Ok m) : Reachable B new m := by
  obtain ⟨x, made, reaches⟩ := run
  exact ⟨x, made, reaches.mono fun _ _ _ => trivial⟩

/-- What holds of the joins in a state: every live cache names what a search over the queues would find, and every
firing of a join on the record has taken, of each correlated input, the oldest tokens of the name it has bound, which
is the one a search found there. -/
structure JoinsAgree (B : Backend cfg S) (x : Exec cfg S) : Prop where
  caches : ∀ tid cache, x.ctl.matchCaches tid = some cache → SafeStamps (transition tid) (fun p => B.queue p x.store) →
    findBinding (transition tid) (fun p => B.queue p x.store) = .ok cache.best
  firings : ∀ later tid inputs consumed matchedName earlier,
    x.history.filter booked = later ++ .launched tid inputs consumed matchedName :: earlier →
    ∀ ms, (transition tid).matchSpec = some ms → ∃ name effects before tokens, matchedName = some name ∧
      earlier = effects ++ .began tid :: before ∧
      TokenRun cfg (seedTokens cfg.initialTokens) before tokens ∧
      TakesByName (transition tid) ms name tokens.queue effects ∧
      (SafeStamps (transition tid) tokens.queue → findBinding (transition tid) tokens.queue = .ok (some name))

omit [Value V] in
theorem joinsAgree_of_plays {x : Exec cfg S} (plays : Plays B (seedTokens cfg.initialTokens) x) : JoinsAgree B x := by
  refine ⟨fun tid cache live safe => ?_, fun later tid inputs consumed matchedName earlier split ms matched => ?_⟩
  · exact plays.mirror.findBinding_eq (by rw [bindingOf, live]) safe
  · obtain ⟨before, tokens, turn⟩ := plays.run.launched split
    have bound := turn.fireable.bound
    rw [matched, Option.isSome_some, eq_comm] at bound
    obtain ⟨name, rfl⟩ := Option.isSome_iff_exists.mp bound
    exact ⟨name, _, before, tokens, rfl, turn.record, turn.run, takesByName matched turn.fireable.toSupplied,
      turn.fireable.binding⟩

end Total

theorem pairing_total : TotalKeys pairSetting.net := by
  intro tid ms matched k mem v
  have own : (transition tid).matchSpec = some pairKeys := by
    obtain rfl : tid = ⟨0, by decide⟩ := Fin.ext (Nat.lt_one_iff.mp tid.isLt)
    rfl
  rw [own] at matched
  obtain rfl := Option.mem_some_iff.mp matched
  rcases List.mem_pair.mp mem with rfl | rfl
  · exact ⟨v, rfl⟩
  · exact ⟨v, rfl⟩

end LibPetri.Verified
