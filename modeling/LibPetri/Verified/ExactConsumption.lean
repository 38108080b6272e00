import LibPetri.Basis.Picking
import LibPetri.Verified.Backends
import LibPetri.Verified.MatcherRuns

/-! # What a firing takes

Where every input has the tokens it demands and no projection throws, the consumption stage of a firing is a
function of the queues: which tokens are taken, which are left, and what goes on the record.
-/

namespace LibPetri.Verified

open LibPetri.Basis LibPetri.Core LibPetri.Runtime CompiledNet Executor

variable {V N : Type} [LinearOrder N]

/-! ## As a function of the queues -/

section Taking

variable (t : Transition V N) (chosen : Option N)

/-- Whether an input on the place may take the token: where it is correlated, one of the chosen name. -/
def eligible (p : PlaceName) (token : Token V) : Bool :=
  match correlated t p, chosen with
  | some key, some name => carries key name token
  | _, _ => true

/-- How many tokens an input takes. -/
def demand (spec : In) (queue : List (Token V)) : Nat :=
  match spec with
  | .one _ => 1
  | .exactly count _ => count
  | .all p => queue.countP (eligible t chosen p)
  | .atLeast _ p => queue.countP (eligible t chosen p)

/-- The tokens of one input, each with its index when it is taken. -/
def takenBy (spec : In) (queue : List (Token V)) : List (Nat × Token V) :=
  picked (eligible t chosen spec.place) (demand t chosen spec queue) queue

/-- The rest of its queue. -/
def leftAfter (spec : In) (queue : List (Token V)) : List (Token V) :=
  leftBy (eligible t chosen spec.place) (demand t chosen spec queue) queue

/-- The queues once the inputs have taken their tokens. -/
def afterTaking : List In → (PlaceName → List (Token V)) → PlaceName → List (Token V)
  | [], queue => queue
  | spec :: specs, queue =>
    afterTaking specs (Function.update queue spec.place (leftAfter t chosen spec (queue spec.place)))

/-- All tokens the inputs take, in order. -/
def takings : List In → (PlaceName → List (Token V)) → List (PlaceName × Nat × Token V)
  | [], _ => []
  | spec :: specs, queue =>
    (takenBy t chosen spec (queue spec.place)).map (fun e => (spec.place, e)) ++
      takings specs (Function.update queue spec.place (leftAfter t chosen spec (queue spec.place)))

omit [LinearOrder N] in
/-- The places that are reset, with what is in each when its turn comes. -/
def resettings : List PlaceName → (PlaceName → List (Token V)) → List (PlaceName × List (Token V))
  | [], _ => []
  | p :: places, queue => (p, queue p) :: resettings places (Function.update queue p [])

/-- The queues after the whole stage. -/
def queueAfter (queue : PlaceName → List (Token V)) (p : PlaceName) : List (Token V) :=
  if p ∈ t.resets then [] else afterTaking t chosen t.inputSpecs queue p

/-- What the stage hands to the action. -/
def consumptionOf (queue : PlaceName → List (Token V)) : Consumption V N where
  inputs := (takings t chosen t.inputSpecs queue).map (fun e => (e.1, e.2.2)) ++
    t.reads.filterMap fun p =>
      (afterTaking t chosen t.inputSpecs queue p).head?.map fun token => (p, token)
  consumed := (takings t chosen t.inputSpecs queue).map (fun e => e.2.2) ++
    (resettings t.resets (afterTaking t chosen t.inputSpecs queue)).flatMap Prod.snd
  matchedName := chosen

/-- An input has the tokens it demands, and its projection throws on none of them. -/
structure Takeable (spec : In) (queue : List (Token V)) : Prop where
  enough : spec.requiredCount ≤ queue.countP (eligible t chosen spec.place)
  projected : ∀ key, correlated t spec.place = some key → ∀ token ∈ queue, ∃ found, key token.value = .ok found

/-- The chosen name is one a firing can take, and nothing throws on the way. -/
structure Supplied (queue : PlaceName → List (Token V)) : Prop where
  bound : t.matchSpec.isSome = chosen.isSome
  takeable : ∀ spec ∈ t.inputSpecs, Takeable t chosen spec (queue spec.place)

end Taking

section Pure

variable {t : Transition V N} {chosen : Option N} {queue queue' : PlaceName → List (Token V)} {spec : In}
  {specs : List In} {p : PlaceName}

theorem demand_le (enough : spec.requiredCount ≤ (queue spec.place).countP (eligible t chosen spec.place)) :
    demand t chosen spec (queue spec.place) ≤ (queue spec.place).countP (eligible t chosen spec.place) := by
  cases spec with
  | one | exactly => exact enough
  | all | atLeast => exact le_rfl

theorem requiredCount_le_demand
    (enough : spec.requiredCount ≤ (queue spec.place).countP (eligible t chosen spec.place)) :
    spec.requiredCount ≤ demand t chosen spec (queue spec.place) := by
  cases spec with
  | one | exactly => exact le_rfl
  | all | atLeast => exact enough

theorem afterTaking_of_notMem (apart : ∀ spec ∈ specs, spec.place ≠ p) :
    afterTaking t chosen specs queue p = queue p := by
  induction specs generalizing queue with
  | nil => rfl
  | cons spec specs ih =>
    rw [afterTaking, ih fun other mem => apart other (List.mem_cons_of_mem _ mem),
      Function.update_of_ne (apart spec List.mem_cons_self).symm]

/-- Each input has a place of its own, and takes from what was there at the start. -/
theorem afterTaking_place (nodup : (specs.map In.place).Nodup) (mem : spec ∈ specs) :
    afterTaking t chosen specs queue spec.place = leftAfter t chosen spec (queue spec.place) := by
  induction specs generalizing queue with
  | nil => cases mem
  | cons first specs ih =>
    obtain ⟨new, nodup⟩ := List.nodup_cons.mp nodup
    have apart : ∀ other ∈ specs, other.place ≠ first.place := fun other mem same =>
      new (same ▸ List.mem_map_of_mem mem)
    rw [afterTaking]
    cases mem with
    | head => rw [afterTaking_of_notMem apart, Function.update_self]
    | tail _ mem => rw [ih nodup mem, Function.update_of_ne (apart spec mem)]

theorem takings_congr (same : ∀ spec ∈ specs, queue' spec.place = queue spec.place)
    (nodup : (specs.map In.place).Nodup) : takings t chosen specs queue' = takings t chosen specs queue := by
  induction specs generalizing queue queue' with
  | nil => rfl
  | cons first specs ih =>
    obtain ⟨new, nodup⟩ := List.nodup_cons.mp nodup
    rw [takings, takings, same first List.mem_cons_self]
    congr 1
    refine ih (fun spec mem => ?_) nodup
    have apart : spec.place ≠ first.place := fun same => new (same ▸ List.mem_map_of_mem mem)
    rw [Function.update_of_ne apart, Function.update_of_ne apart, same spec (List.mem_cons_of_mem _ mem)]

/-- Input by input. -/
theorem takings_eq (nodup : (specs.map In.place).Nodup) : takings t chosen specs queue =
    specs.flatMap fun spec => (takenBy t chosen spec (queue spec.place)).map fun e => (spec.place, e) := by
  induction specs generalizing queue with
  | nil => rfl
  | cons first specs ih =>
    obtain ⟨new, nodup⟩ := List.nodup_cons.mp nodup
    have kept : takings t chosen specs
        (Function.update queue first.place (leftAfter t chosen first (queue first.place))) =
          takings t chosen specs queue := by
      refine takings_congr (fun spec mem => Function.update_of_ne (fun same => ?_) _ _) nodup
      exact new (same ▸ List.mem_map_of_mem mem)
    rw [takings, kept, ih nodup, List.flatMap_cons]

theorem afterTaking_sublist (specs : List In) (queue : PlaceName → List (Token V)) (p : PlaceName) :
    (afterTaking t chosen specs queue p).Sublist (queue p) := by
  induction specs generalizing queue with
  | nil => exact List.Sublist.refl _
  | cons spec specs ih =>
    refine (ih _).trans ?_
    by_cases same : p = spec.place
    · subst same
      rw [Function.update_self]
      exact leftBy_sublist _ _
    · rw [Function.update_of_ne same]

theorem eligible_of_free (free : correlated t p = none ∨ chosen = none) : eligible t chosen p = fun _ => true := by
  funext token
  rcases free with uncorrelated | unbound
  · simp only [eligible, uncorrelated]
  · simp only [eligible, unbound]
    cases correlated t p <;> rfl

theorem eligible_of_named {key : KeyFn V N} {name : N} (keyed : correlated t p = some key)
    (bound : chosen = some name) : eligible t chosen p = carries key name := by
  funext token
  simp only [eligible, keyed, bound]

end Pure

/-! ## In a state -/

variable {cfg : Setting V N} {S : Type}

/-- The queues are these, and but for the host and for what went on the record the state is `x₀`. -/
structure Holding (ops : StoreOps cfg S) (x₀ : Exec cfg S) (queue : PlaceName → List (Token V))
    (effects : List (Effect cfg.net)) (x : Exec cfg S) : Prop where
  queues : ∀ p, ops.queue p x.store = queue p
  flights : SameFlights ops x₀.store x.store
  ctl : x.ctl = x₀.ctl
  effects : x.history.filter internal = effects ++ x₀.history.filter internal

variable {ops : StoreOps cfg S} {x₀ x : Exec cfg S} {queue : PlaceName → List (Token V)}
  {effects : List (Effect cfg.net)} {p : PlaceName} {c : Consumption V N}

theorem holding_hostStable : HostStable ops (Holding ops x₀ queue effects) := by
  refine HostStable.of_respects fun x y same h => ?_
  have store : y.store = x.store := congrArg Internals.store same
  have ctl : y.ctl = x.ctl := congrArg Internals.ctl same
  have record : y.history.filter internal = x.history.filter internal := congrArg Internals.effects same
  exact ⟨fun p => by rw [store, h.queues], store ▸ h.flights, ctl.trans h.ctl, record.trans h.effects⟩

theorem Holding.refl (ops : StoreOps cfg S) (x : Exec cfg S) : Holding ops x (fun p => ops.queue p x.store) [] x :=
  ⟨fun _ => rfl, ⟨fun _ => rfl, rfl⟩, rfl, rfl⟩

/-- A step of the store that goes on the record. -/
theorem Holding.stored {s : S} {queue' : PlaceName → List (Token V)} {e : Effect cfg.net}
    (h : Holding ops x₀ queue effects x) (flights : SameFlights ops x.store s) (entry : internal e = true)
    (queues : ∀ p, ops.queue p s = queue' p) :
    Holding ops x₀ queue' (e :: effects) (recorded e (Verified.stored s x)) where
  queues := queues
  flights := ⟨fun tid => (flights.1 tid).trans (h.flights.1 tid), flights.2.trans h.flights.2⟩
  ctl := h.ctl
  effects := by
    show (e :: x.history).filter internal = _
    rw [List.filter_cons_of_pos entry, h.effects, List.cons_append]

/-- A consumption with the tokens taken besides. -/
def takingAll (takings : List (PlaceName × Nat × Token V)) (c : Consumption V N) : Consumption V N :=
  { c with
    inputs := c.inputs ++ takings.map (fun e => (e.1, e.2.2))
    consumed := c.consumed ++ takings.map (fun e => e.2.2) }

/-- Their entries in the record, the last one first. -/
def took {net : PetriNet V N} (takings : List (PlaceName × Nat × Token V)) : List (Effect net) :=
  (takings.map fun e => .took e.1 e.2.1 e.2.2).reverse

omit [LinearOrder N] in
theorem takingAll_append (first rest : List (PlaceName × Nat × Token V)) (c : Consumption V N) :
    takingAll (first ++ rest) c = takingAll rest (takingAll first c) := by
  simp [takingAll]

omit [LinearOrder N] in
theorem took_append {net : PetriNet V N} (first rest : List (PlaceName × Nat × Token V)) :
    (took (first ++ rest) : List (Effect net)) = took rest ++ took first := by
  simp [took]

/-- Taking tokens one by one, each the first that may be taken. -/
theorem takeTokens_exact {next : Method cfg S (Option (Nat × Token V))} {pick : Token V → Bool}
    {Good : Token V → Prop} {E : Thrown → Exec cfg S → Prop}
    (step : ∀ queue effects token, (∀ token ∈ queue p, Good token) → (queue p).find? pick = some token →
      Prog.Spec (Holding ops x₀ queue effects) next (fun found y =>
        found = some ((queue p).findIdx pick, token) ∧
          Holding ops x₀ (Function.update queue p ((queue p).eraseP pick))
            (.took p ((queue p).findIdx pick) token :: effects)
            (recorded (.took p ((queue p).findIdx pick) token) y)) E)
    (n : Nat) (queue : PlaceName → List (Token V)) (effects : List (Effect cfg.net)) (c : Consumption V N)
    (good : ∀ token ∈ queue p, Good token) (enough : n ≤ (queue p).countP pick) :
    Prog.Spec (Holding ops x₀ queue effects) (takeTokens ops p next n c)
      (fun c' y => c' = takingAll ((picked pick n (queue p)).map fun e => (p, e)) c ∧
        Holding ops x₀ (Function.update queue p (leftBy pick n (queue p)))
          (took ((picked pick n (queue p)).map fun e => (p, e)) ++ effects) y) E := by
  induction n generalizing queue effects c with
  | zero =>
    intro x hx
    refine ⟨?_, ?_⟩
    · simp [takingAll, picked]
    · rw [leftBy, Function.update_eq_self]
      exact hx
  | succ n ih =>
    cases found : (queue p).find? pick with
    | none =>
      have none : (queue p).countP pick = 0 :=
        List.countP_eq_zero.mpr fun a mem => by simpa using List.find?_eq_none.mp found a mem
      omega
    | some token =>
      have one := countP_eraseP_of_find?_eq_some found
      refine Prog.Spec.bind (step queue effects token good found) fun answer => ?_
      refine Prog.Spec.of_each fun y hy => ?_
      obtain ⟨rfl, hy⟩ := hy
      have left : Function.update queue p ((queue p).eraseP pick) p = (queue p).eraseP pick :=
        Function.update_self _ _ _
      have rest := ih (Function.update queue p ((queue p).eraseP pick))
        (.took p ((queue p).findIdx pick) token :: effects)
        { c with inputs := c.inputs ++ [(p, token)], consumed := c.consumed ++ [token] }
        (fun token mem => good token (List.mem_of_mem_eraseP (left ▸ mem))) (by rw [left]; omega)
      refine Prog.Spec.modify_bind (R := Holding ops x₀ (Function.update queue p ((queue p).eraseP pick))
        (.took p ((queue p).findIdx pick) token :: effects)) ?_ (by rintro _ rfl; exact hy)
      refine Prog.Spec.bind (holding_hostStable.emitEvent _) fun _ => ?_
      refine rest.conseq (fun _ => id) (fun c' y h => ?_) fun _ _ => id
      obtain ⟨rfl, h⟩ := h
      rw [left, Function.update_idem] at h
      refine ⟨?_, ?_⟩
      · simp [takingAll, picked, found]
      · simpa [took, picked, found, leftBy] using h

/-! ## One input -/

section Search

variable {key : KeyFn V N} {name : N}

theorem named_eq {v : V} {found : Option N} (projected : key v = .ok found) (createdAt : Ms) :
    named key name v = .ok (carries key name ⟨v, createdAt⟩) := by
  rw [named, carries, projected]
  cases found with
  | none => simp [Except.map]
  | some found => simp [Except.map]

variable (name) in
/-- Where every projection answers, the search finds the first token of the name. -/
theorem findFirst_named {tokens : List (Token V)}
    (projected : ∀ token ∈ tokens, ∃ found, key token.value = .ok found) (i : Nat) :
    findFirst (named key name) i tokens = .ok ((tokens.find? (carries key name)).map
      fun token => (i + tokens.findIdx (carries key name), token)) := by
  induction tokens generalizing i with
  | nil => rfl
  | cons token tokens ih =>
    obtain ⟨found, here⟩ := projected token List.mem_cons_self
    have tested : named key name token.value = .ok (carries key name token) := named_eq here token.createdAt
    rw [findFirst, tested]
    cases carried : carries key name token with
    | true => simp [carried, List.findIdx_cons, pure, Except.pure, bind, Except.bind]
    | false =>
      show findFirst (named key name) (i + 1) tokens = _
      rw [ih (fun other mem => projected other (List.mem_cons_of_mem _ mem)), List.find?_cons_of_neg (by simp [carried]),
        List.findIdx_cons, carried]
      simp [Nat.add_assoc, Nat.add_comm 1]

theorem countIf_named {tokens : List (Token V)}
    (projected : ∀ token ∈ tokens, ∃ found, key token.value = .ok found) :
    countIf (named key name) tokens = .ok (tokens.countP (carries key name)) := by
  induction tokens with
  | nil => rfl
  | cons token tokens ih =>
    obtain ⟨found, here⟩ := projected token List.mem_cons_self
    have tested : named key name token.value = .ok (carries key name token) := named_eq here token.createdAt
    rw [countIf, tested, ih fun other mem => projected other (List.mem_cons_of_mem _ mem), List.countP_cons]
    cases carries key name token <;> rfl

end Search

variable {tid : Tid cfg.net} {spec : In} {chosen : Option N} {E : Thrown → Exec cfg S → Prop}

/-- The first token that may be taken, where an input is correlated. -/
theorem removeFirstMatching_exact (lawful : Lawful ops) (known : p ∈ placesById cfg.net) {key : KeyFn V N}
    {name : N} (queue : PlaceName → List (Token V)) (effects : List (Effect cfg.net)) (token : Token V)
    (projected : ∀ token ∈ queue p, ∃ found, key token.value = .ok found)
    (found : (queue p).find? (carries key name) = some token) :
    Prog.Spec (Holding ops x₀ queue effects) (onStore (ops.removeFirstMatching p (named key name)))
      (fun answer y => answer = some ((queue p).findIdx (carries key name), token) ∧
        Holding ops x₀ (Function.update queue p ((queue p).eraseP (carries key name)))
          (.took p ((queue p).findIdx (carries key name)) token :: effects)
          (recorded (.took p ((queue p).findIdx (carries key name)) token) y)) E := by
  intro x hx
  have search := lawful.removeFirstMatching known (named key name) x.store
  have queues := lawful.queue_removeFirstMatching known (named key name) x.store
  have flights := lawful.flights_removeFirstMatching p (named key name) x.store
  have result := findFirst_named name projected 0
  rw [found, Option.map_some, Nat.zero_add] at result
  rw [hx.queues, result] at search
  simp only [hx.queues, result] at queues
  rcases removal : ops.removeFirstMatching p (named key name) x.store with ⟨answer, s⟩
  rw [removal] at search queues flights
  obtain rfl : answer = _ := search
  simp only [onStore, removal]
  refine ⟨trivial, hx.stored flights rfl fun q => ?_⟩
  rw [queues q, Function.update_apply]
  split
  · rw [withoutFound, eraseIdx_findIdx]
  · rfl

/-- The oldest token, where it is not. -/
theorem removeFirst_exact (lawful : Lawful ops) (known : p ∈ placesById cfg.net)
    (queue : PlaceName → List (Token V)) (effects : List (Effect cfg.net)) (token : Token V)
    (found : (queue p).find? (fun _ => true) = some token) :
    Prog.Spec (Holding ops x₀ queue effects)
      (onStore fun s => (.ok ((ops.removeFirst p s).1.map fun token => (0, token)), (ops.removeFirst p s).2))
      (fun answer y => answer = some ((queue p).findIdx (fun _ => true), token) ∧
        Holding ops x₀ (Function.update queue p ((queue p).eraseP fun _ => true))
          (.took p ((queue p).findIdx fun _ => true) token :: effects)
          (recorded (.took p ((queue p).findIdx fun _ => true) token) y)) E := by
  intro x hx
  have first := lawful.removeFirst known x.store
  have queues := lawful.queue_removeFirst known x.store
  have flights := lawful.flights_removeFirst p x.store
  obtain ⟨rest, split⟩ : ∃ rest, queue p = token :: rest := by
    cases h : queue p with
    | nil => rw [h] at found; cases found
    | cons a rest =>
      rw [h, List.find?_cons_of_pos rfl, Option.some.injEq] at found
      exact ⟨rest, by rw [found]⟩
  rw [hx.queues, split] at first
  rcases removal : ops.removeFirst p x.store with ⟨answer, s⟩
  rw [removal] at first queues flights
  obtain rfl : answer = some token := first
  simp only [onStore, removal, Option.map_some]
  have first : (token :: rest).findIdx (fun _ => true) = 0 := by simp [List.findIdx_cons]
  have others : (token :: rest).eraseP (fun _ => true) = rest := by simp
  rw [split, first, others]
  refine ⟨rfl, hx.stored flights rfl fun q => ?_⟩
  rw [queues q, Function.update_apply, hx.queues, hx.queues, split]
  rfl

/-- What a stage that takes from some inputs answers, and what it leaves. -/
def TakesExactly (ops : StoreOps cfg S) (x₀ : Exec cfg S) (t : Transition V N) (chosen : Option N) (specs : List In)
    (queue : PlaceName → List (Token V)) (effects : List (Effect cfg.net)) (c : Consumption V N)
    (stage : Method cfg S (Consumption V N)) (E : Thrown → Exec cfg S → Prop) : Prop :=
  Prog.Spec (Holding ops x₀ queue effects) stage (fun c' y => c' = takingAll (takings t chosen specs queue) c ∧
    Holding ops x₀ (afterTaking t chosen specs queue) (took (takings t chosen specs queue) ++ effects) y) E

variable {t : Transition V N}

theorem takings_singleton (spec : In) (queue : PlaceName → List (Token V)) :
    takings t chosen [spec] queue = (takenBy t chosen spec (queue spec.place)).map fun e => (spec.place, e) := by
  rw [takings, takings, List.append_nil]

/-- The tokens of one input, given how one of them is taken. -/
theorem takesExactly_of_pick {next : Method cfg S (Option (Nat × Token V))} {queue : PlaceName → List (Token V)}
    {effects : List (Effect cfg.net)} {c : Consumption V N}
    (takeable : Takeable t chosen spec (queue spec.place))
    (step : ∀ queue effects token, (∀ token ∈ queue spec.place, ∀ key, correlated t spec.place = some key →
        ∃ found, key token.value = .ok found) →
      (queue spec.place).find? (eligible t chosen spec.place) = some token →
      Prog.Spec (Holding ops x₀ queue effects) next (fun found y =>
        found = some ((queue spec.place).findIdx (eligible t chosen spec.place), token) ∧
          Holding ops x₀
            (Function.update queue spec.place ((queue spec.place).eraseP (eligible t chosen spec.place)))
            (.took spec.place ((queue spec.place).findIdx (eligible t chosen spec.place)) token :: effects)
            (recorded (.took spec.place ((queue spec.place).findIdx (eligible t chosen spec.place)) token) y)) E) :
    TakesExactly ops x₀ t chosen [spec] queue effects c
      (takeTokens ops spec.place next (demand t chosen spec (queue spec.place)) c) E := by
  have all := takeTokens_exact step (demand t chosen spec (queue spec.place)) queue effects c
    (fun token mem key keyed => takeable.projected key keyed token mem) (demand_le takeable.enough)
  unfold TakesExactly
  rw [takings_singleton]
  exact all

section OneInput

variable (lawful : Lawful ops) (known : spec.place ∈ placesById cfg.net) {queue : PlaceName → List (Token V)}
  {effects : List (Effect cfg.net)} {c : Consumption V N} (takeable : Takeable t chosen spec (queue spec.place))
include lawful known takeable

/-- From an input that is correlated. -/
theorem takeMatching_exact {key : KeyFn V N} {name : N} (keyed : correlated t spec.place = some key)
    (bound : chosen = some name) : TakesExactly ops x₀ t chosen [spec] queue effects c
      (takeTokens ops spec.place (onStore (ops.removeFirstMatching spec.place (named key name)))
        (demand t chosen spec (queue spec.place)) c) E := by
  have test : eligible t chosen spec.place = carries key name := eligible_of_named keyed bound
  refine takesExactly_of_pick takeable fun queue effects token projected found => ?_
  rw [test] at found ⊢
  exact removeFirstMatching_exact lawful known queue effects token
    (fun token mem => projected token mem key keyed) found

/-- From one that is not. -/
theorem takeFirst_exact (free : correlated t spec.place = none ∨ chosen = none) :
    TakesExactly ops x₀ t chosen [spec] queue effects c
      (takeTokens ops spec.place (onStore fun s => (.ok ((ops.removeFirst spec.place s).1.map fun token => (0, token)),
        (ops.removeFirst spec.place s).2)) (demand t chosen spec (queue spec.place)) c) E := by
  have test : eligible t chosen spec.place = fun _ => true := eligible_of_free free
  refine takesExactly_of_pick takeable fun queue effects token projected found => ?_
  rw [test] at found ⊢
  exact removeFirst_exact lawful known queue effects token found

theorem consumeInput_exact : TakesExactly ops x₀ t chosen [spec] queue effects c (consumeInput ops t chosen spec c) E := by
  have drained (free : correlated t spec.place = none ∨ chosen = none)
      (drains : demand t chosen spec (queue spec.place) =
        (queue spec.place).countP (eligible t chosen spec.place)) :
      TakesExactly ops x₀ t chosen [spec] queue effects c
        (Prog.gets (fun x => (ops.queue spec.place x.store).length) >>= fun n => takeTokens ops spec.place
          (onStore fun s => (.ok ((ops.removeFirst spec.place s).1.map fun token => (0, token)),
            (ops.removeFirst spec.place s).2)) n c) E := by
    refine Prog.Spec.gets_bind fun n => ?_
    rintro y ⟨hy, rfl⟩
    have all : (ops.queue spec.place y.store).length = demand t chosen spec (queue spec.place) := by
      rw [drains, eligible_of_free free, List.countP_true, hy.queues]
    rw [all]
    exact takeFirst_exact lawful known takeable free y hy
  -- counting the tokens of the name throws nothing
  have counted {key : KeyFn V N} {name : N} (keyed : correlated t spec.place = some key) (bound : chosen = some name)
      (drains : demand t chosen spec (queue spec.place) =
        (queue spec.place).countP (eligible t chosen spec.place)) :
      TakesExactly ops x₀ t chosen [spec] queue effects c
        (Prog.gets id >>= fun x => Prog.lift (ops.countMatching spec.place (named key name) x.store) >>= fun n =>
          takeTokens ops spec.place (onStore (ops.removeFirstMatching spec.place (named key name))) n c) E := by
    have answer {y : Exec cfg S} (hy : Holding ops x₀ queue effects y) :
        ops.countMatching spec.place (named key name) y.store = .ok (demand t chosen spec (queue spec.place)) := by
      rw [lawful.countMatching known, hy.queues, countIf_named (takeable.projected key keyed), drains,
        eligible_of_named keyed bound]
    refine Prog.Spec.gets_bind fun x => Prog.Spec.lift_bind (fun n hn => ?_) fun e he => ?_
    · rintro y ⟨hy, rfl⟩
      obtain rfl := Except.ok.inj ((answer hy).symm.trans hn)
      exact takeMatching_exact lawful known takeable keyed bound y hy
    · rintro y ⟨hy, rfl⟩
      cases (answer hy).symm.trans he
  have found : (t.matchSpec.bind fun ms => keyForPlace ms spec.place) = correlated t spec.place := rfl
  unfold consumeInput
  rw [found]
  by_cases free : correlated t spec.place = none ∨ chosen = none
  · have oldest : TakesExactly ops x₀ t chosen [spec] queue effects c
        (takeTokens ops spec.place (onStore fun s =>
          (.ok ((ops.removeFirst spec.place s).1.map fun token => (0, token)), (ops.removeFirst spec.place s).2))
          (demand t chosen spec (queue spec.place)) c) E := takeFirst_exact lawful known takeable free
    split
    next key name keyed =>
      rcases free with uncorrelated | unbound
      · rw [uncorrelated] at keyed
        cases keyed
      · cases unbound
    next =>
      cases spec with
      | one p => exact oldest
      | exactly count p => exact oldest
      | all p => exact drained free rfl
      | atLeast minimum p => exact drained free rfl
  · rw [not_or] at free
    obtain ⟨key, keyed⟩ := Option.ne_none_iff_exists'.mp free.1
    obtain ⟨name, bound⟩ := Option.ne_none_iff_exists'.mp free.2
    have matching : TakesExactly ops x₀ t chosen [spec] queue effects c
        (takeTokens ops spec.place (onStore (ops.removeFirstMatching spec.place (named key name)))
          (demand t chosen spec (queue spec.place)) c) E := takeMatching_exact lawful known takeable keyed bound
    rw [keyed]
    subst bound
    cases spec with
    | one p => exact matching
    | exactly count p => exact matching
    | all p => exact counted keyed rfl rfl
    | atLeast minimum p => exact counted keyed rfl rfl

end OneInput

/-! ## The stage -/

/-- All inputs in turn, given how each is taken from. -/
theorem takesExactly_all {one : In → Consumption V N → Method cfg S (Consumption V N)}
    {all : List In → Consumption V N → Method cfg S (Consumption V N)} (nil : ∀ c, all [] c = pure c)
    (cons : ∀ spec specs c, all (spec :: specs) c = one spec c >>= all specs)
    {specs : List In} (each : ∀ spec ∈ specs, ∀ (queue : PlaceName → List (Token V)) effects c,
      Takeable t chosen spec (queue spec.place) → TakesExactly ops x₀ t chosen [spec] queue effects c (one spec c) E)
    (nodup : (specs.map In.place).Nodup) (queue : PlaceName → List (Token V)) (effects : List (Effect cfg.net))
    (c : Consumption V N) (takeable : ∀ spec ∈ specs, Takeable t chosen spec (queue spec.place)) :
    TakesExactly ops x₀ t chosen specs queue effects c (all specs c) E := by
  induction specs generalizing queue effects c with
  | nil =>
    intro x hx
    rw [nil]
    exact ⟨by simp [takingAll, takings], hx⟩
  | cons spec specs ih =>
    obtain ⟨new, nodup⟩ := List.nodup_cons.mp nodup
    rw [cons]
    refine Prog.Spec.bind (each spec List.mem_cons_self queue effects c (takeable spec List.mem_cons_self)) fun c' => ?_
    refine Prog.Spec.of_each fun y hy => ?_
    obtain ⟨rfl, hy⟩ := hy
    have rest := ih (fun other mem => each other (List.mem_cons_of_mem _ mem)) nodup
      (afterTaking t chosen [spec] queue) (took (takings t chosen [spec] queue) ++ effects)
      (takingAll (takings t chosen [spec] queue) c) fun other mem => by
        have apart : other.place ≠ spec.place := fun same => new (same ▸ List.mem_map_of_mem mem)
        rw [afterTaking, afterTaking, Function.update_of_ne apart]
        exact takeable other (List.mem_cons_of_mem _ mem)
    refine rest.conseq (by rintro _ rfl; exact hy) (fun c' z h => ?_) fun _ _ => id
    have whole : takings t chosen (spec :: specs) queue =
        takings t chosen [spec] queue ++ takings t chosen specs (afterTaking t chosen [spec] queue) := by
      rw [takings, takings_singleton]
      rfl
    rw [whole, takingAll_append, took_append, List.append_assoc]
    exact h

/-- The entries of the places that are reset. -/
def emptied {net : PetriNet V N} (resettings : List (PlaceName × List (Token V))) : List (Effect net) :=
  (resettings.map fun e => .reset e.1 e.2).reverse

theorem resetPlaces_exact (lawful : Lawful ops) {places : List PlaceName} (known : ∀ p ∈ places, p ∈ placesById cfg.net)
    (queue : PlaceName → List (Token V)) (effects : List (Effect cfg.net)) (c : Consumption V N) :
    Prog.Spec (Holding ops x₀ queue effects) (resetPlaces ops places c) (fun c' y =>
      c' = { c with consumed := c.consumed ++ (resettings places queue).flatMap Prod.snd } ∧
        Holding ops x₀ (fun p => if p ∈ places then [] else queue p) (emptied (resettings places queue) ++ effects) y)
      E := by
  induction places generalizing queue effects c with
  | nil => exact fun x hx => ⟨by simp [resettings], by simpa [emptied, resettings] using hx⟩
  | cons p places ih =>
    refine Prog.Spec.bind (Q := fun c' y => c' = { c with consumed := c.consumed ++ queue p } ∧
      Holding ops x₀ (Function.update queue p []) (.reset p (queue p) :: effects) y) ?_ fun c' => ?_
    · refine Prog.Spec.bind (Q := fun removed y => removed = queue p ∧
        Holding ops x₀ (Function.update queue p []) (.reset p (queue p) :: effects) (recorded (.reset p (queue p)) y))
        (fun x hx => ?_) fun removed => Prog.Spec.of_each fun y hy => ?_
      · have all := (lawful.removeAll (known p List.mem_cons_self) x.store).trans (hx.queues p)
        refine ⟨all, hx.stored (lawful.flights_removeAll p x.store) rfl fun q => ?_⟩
        rw [lawful.queue_removeAll (known p List.mem_cons_self), Function.update_apply, hx.queues]
      · obtain ⟨rfl, hy⟩ := hy
        refine Prog.Spec.modify_bind (R := Holding ops x₀ (Function.update queue p []) (.reset p (queue p) :: effects))
          ?_ (by rintro _ rfl; exact hy)
        refine Prog.Spec.bind (Prog.Spec.each fun token _ => holding_hostStable.emitEvent _) fun _ x hx => ⟨rfl, hx⟩
    · refine Prog.Spec.of_each fun y hy => ?_
      obtain ⟨rfl, hy⟩ := hy
      have rest := ih (fun q mem => known q (List.mem_cons_of_mem _ mem)) (Function.update queue p [])
        (.reset p (queue p) :: effects) { c with consumed := c.consumed ++ queue p }
      refine rest.conseq (by rintro _ rfl; exact hy) (fun c' z h => ?_) fun _ _ => id
      have left : (fun q => if q ∈ p :: places then [] else queue q) =
          fun q => if q ∈ places then [] else Function.update queue p [] q := by
        funext q
        by_cases same : q = p
        · subst same
          simp
        · simp [same]
      rw [left]
      simpa [resettings, emptied] using h

/-- The state once a firing of `tid` has chosen. -/
def chosenAt (tid : Tid cfg.net) (chosen : Option N) (x : Exec cfg S) : Exec cfg S :=
  match chosen with
  | none => x
  | some name => withCaches (claimed tid name x.ctl.matchCaches) x

theorem chooseBinding_run {x : Exec cfg S} (binding : bindingOf ops tid x = .ok chosen) :
    (chooseBinding ops tid).run x = (.ok chosen, chosenAt tid chosen x) := by
  unfold chooseBinding chosenAt claimed
  rw [Prog.run_gets_bind]
  show (Prog.lift (bindingOf ops tid x) >>= _).run x = _
  rw [binding]
  cases chosen with
  | none => cases cache : x.ctl.matchCaches tid <;> simp only [id, cache] <;> rfl
  | some name => cases cache : x.ctl.matchCaches tid <;> simp only [id, cache] <;> rfl

/-- The record of the whole stage. -/
def consumptionEffects {net : PetriNet V N} (t : Transition V N) (chosen : Option N)
    (queue : PlaceName → List (Token V)) : List (Effect net) :=
  emptied (resettings t.resets (afterTaking t chosen t.inputSpecs queue)) ++
    took (takings t chosen t.inputSpecs queue)

/-- The consumption stage of a firing that is supplied does what its queues say. -/
def ConsumesExactly (B : Backend cfg S) : Prop :=
  ∀ (tid : Tid cfg.net) (x₀ : Exec cfg S) (chosen : Option N) {E : Thrown → Exec cfg S → Prop},
    bindingOf B.toStoreOps tid x₀ = .ok chosen →
    Supplied (transition tid) chosen (fun p => B.queue p x₀.store) →
    Prog.Spec (· = x₀) (B.consume tid) (fun c y =>
      c = consumptionOf (transition tid) chosen (fun p => B.queue p x₀.store) ∧
        Holding B.toStoreOps (chosenAt tid chosen x₀)
          (queueAfter (transition tid) chosen fun p => B.queue p x₀.store)
          (consumptionEffects (transition tid) chosen fun p => B.queue p x₀.store) y) E

/-- The stage past the choice: inputs, reads, resets. -/
theorem stage_exact (lawful : Lawful ops) {queue : PlaceName → List (Token V)}
    {inputs reads : Consumption V N → Method cfg S (Consumption V N)}
    (takes : ∀ c, TakesExactly ops x₀ (transition tid) chosen (transition tid).inputSpecs queue [] c (inputs c) E)
    (peeks : ∀ (queue : PlaceName → List (Token V)) effects c, Prog.Spec (Holding ops x₀ queue effects) (reads c)
      (fun c' y => c' = peekReads queue (transition tid).reads c ∧ Holding ops x₀ queue effects y) E) :
    Prog.Spec (Holding ops x₀ queue []) (do
      let c ← inputs { inputs := [], consumed := [], matchedName := chosen }
      let c ← reads c
      resetPlaces ops (transition tid).resets c) (fun c y => c = consumptionOf (transition tid) chosen queue ∧
        Holding ops x₀ (queueAfter (transition tid) chosen queue) (consumptionEffects (transition tid) chosen queue) y)
      E := by
  refine Prog.Spec.bind (takes _) fun c => Prog.Spec.of_each fun x hx => ?_
  obtain ⟨rfl, hx⟩ := hx
  refine Prog.Spec.bind ((peeks _ _ _).conseq (by rintro _ rfl; exact hx) (fun _ _ => id) fun _ _ => id) fun c => ?_
  refine Prog.Spec.of_each fun y hy => ?_
  obtain ⟨rfl, hy⟩ := hy
  refine (resetPlaces_exact lawful (fun p mem => known_of_reset mem) _ _ _).conseq (by rintro _ rfl; exact hy)
    (fun c z h => ?_) fun _ _ => id
  obtain ⟨rfl, h⟩ := h
  refine ⟨?_, ?_⟩
  · simp [consumptionOf, takingAll, peekReads]
  · rw [List.append_nil] at h
    exact h

theorem holding_chosenAt (tid : Tid cfg.net) (chosen : Option N) (x : Exec cfg S) :
    Holding ops (chosenAt tid chosen x) (fun p => ops.queue p x.store) [] (chosenAt tid chosen x) := by
  cases chosen with
  | none => exact Holding.refl ops x
  | some name => exact Holding.refl ops (withCaches (claimed tid name x.ctl.matchCaches) x)

theorem consumeInputs_exact (lawful : Lawful ops) {queue : PlaceName → List (Token V)}
    (supplied : Supplied (transition tid) chosen queue) (effects : List (Effect cfg.net)) (c : Consumption V N) :
    TakesExactly ops x₀ (transition tid) chosen (transition tid).inputSpecs queue effects c
      (consumeInputs ops (transition tid) chosen (transition tid).inputSpecs c) E :=
  takesExactly_all (fun _ => rfl) (fun _ _ _ => rfl)
    (fun _ mem _ _ _ takeable => consumeInput_exact lawful (known_of_input mem) takeable)
    (transition tid).inputs_nodup queue effects c supplied.takeable

/-- The choice, and what follows it. -/
theorem chosen_exact (lawful : Lawful ops) (supplied : Supplied (transition tid) chosen fun p => ops.queue p x₀.store)
    {choice : Method cfg S (Option N)} (choose : choice.run x₀ = (.ok chosen, chosenAt tid chosen x₀))
    {reads : Consumption V N → Method cfg S (Consumption V N)}
    (peeks : ∀ (queue : PlaceName → List (Token V)) effects c,
      Prog.Spec (Holding ops (chosenAt tid chosen x₀) queue effects) (reads c)
        (fun c' y => c' = peekReads queue (transition tid).reads c ∧
          Holding ops (chosenAt tid chosen x₀) queue effects y) E) :
    Prog.Spec (· = x₀) (do
      let chosen ← choice
      let c ← consumeInputs ops (transition tid) chosen (transition tid).inputSpecs
        { inputs := [], consumed := [], matchedName := chosen }
      let c ← reads c
      resetPlaces ops (transition tid).resets c) (fun c y =>
        c = consumptionOf (transition tid) chosen (fun p => ops.queue p x₀.store) ∧
          Holding ops (chosenAt tid chosen x₀) (queueAfter (transition tid) chosen fun p => ops.queue p x₀.store)
            (consumptionEffects (transition tid) chosen fun p => ops.queue p x₀.store) y) E := by
  have stage := stage_exact lawful (consumeInputs_exact lawful supplied []) peeks
  rintro _ rfl
  rw [Prog.run_bind_ok choose]
  exact stage _ (holding_chosenAt tid chosen _)

/-! ## The two executors -/

variable [Value V] [ToString N]

namespace BitmapNetExecutor

open LibPetri.Runtime.BitmapNetExecutor

theorem consumesExactly : ConsumesExactly (backend cfg) := by
  intro tid x₀ chosen E binding supplied
  show Prog.Spec (· = x₀) (consume tid) _ E
  have peeks (queue : PlaceName → List (Token V)) (effects : List (Effect cfg.net)) (c : Consumption V N) :
      Prog.Spec (Holding (storeOps cfg) (chosenAt tid chosen x₀) queue effects)
        (Prog.gets (fun x => x.store.marking) >>= fun marking =>
          pure (peekReads marking.peekTokens (transition tid).reads c))
        (fun c' y => c' = peekReads queue (transition tid).reads c ∧
          Holding (storeOps cfg) (chosenAt tid chosen x₀) queue effects y) E := by
    refine Prog.Spec.gets_bind fun marking => ?_
    rintro y ⟨hy, rfl⟩
    have same : y.store.marking.peekTokens = queue := funext hy.queues
    exact ⟨by rw [same], hy⟩
  have bound := supplied.bound
  unfold consume
  refine Prog.Spec.ite (fun _ => ?_) fun unmatched => ?_
  · exact chosen_exact (BitmapNetExecutor.lawful cfg) supplied (chooseBinding_run binding) peeks
  · rw [bound] at unmatched
    cases chosen with
    | none => exact chosen_exact (BitmapNetExecutor.lawful cfg) supplied (show (pure none : Method cfg _ _).run x₀ = _ from rfl) peeks
    | some name => exact absurd rfl unmatched

end BitmapNetExecutor

namespace PrecompiledNetExecutor

open LibPetri.Runtime.PrecompiledNetExecutor

omit [Value V] [ToString N] in
theorem peekReadArcs_exact {x₀ : Exec cfg (PrecompiledStore cfg)} {E : Thrown → Exec cfg (PrecompiledStore cfg) → Prop}
    (queue : PlaceName → List (Token V)) (effects : List (Effect cfg.net)) (c : Consumption V N) :
    Prog.Spec (Holding (storeOps cfg) x₀ queue effects) (peekReadArcs tid c) (fun c' y =>
      c' = peekReads queue (transition tid).reads c ∧ Holding (storeOps cfg) x₀ queue effects y) E := by
  refine Prog.Spec.gets_bind fun s => ?_
  rintro y ⟨hy, rfl⟩
  refine ⟨?_, hy⟩
  have front : ∀ p ∈ (transition tid).reads, ((y.store.tokenQueues (placeId cfg.net p)).head?.map fun token =>
      (place cfg.net (placeId cfg.net p), token)) = (queue p).head?.map fun token => (p, token) := by
    intro p mem
    have known := known_of_read mem
    rw [place_placeId known, ← queueOf_known y.store known]
    exact congrArg (fun tokens => (List.head? tokens).map fun token => (p, token)) (hy.queues p)
  rw [PrecompiledNet.readOps, List.filterMap_map, peekReads]
  exact congrArg (fun seen => { c with inputs := c.inputs ++ seen }) (List.filterMap_congr front)

omit [Value V] [ToString N] in
theorem takeInput_exact {x₀ : Exec cfg (PrecompiledStore cfg)} {t : Transition V N} {spec : In}
    {E : Thrown → Exec cfg (PrecompiledStore cfg) → Prop} (known : spec.place ∈ placesById cfg.net)
    {queue : PlaceName → List (Token V)} {effects : List (Effect cfg.net)} {c : Consumption V N}
    (takeable : Takeable t none spec (queue spec.place)) :
    TakesExactly (storeOps cfg) x₀ t none [spec] queue effects c (takeInput spec c) E := by
  have test : eligible t none spec.place = fun _ => true := eligible_of_free (.inr rfl)
  refine Prog.Spec.gets_bind fun n => ?_
  rintro y ⟨hy, rfl⟩
  have count : takes spec (queueOf spec.place y.store) = demand t none spec (queue spec.place) := by
    have same : queueOf spec.place y.store = queue spec.place := hy.queues spec.place
    have all : (queue spec.place).countP (eligible t none spec.place) = (queue spec.place).length := by
      rw [test, List.countP_true]
    rw [same]
    cases spec with
    | one p => rfl
    | exactly count p => rfl
    | all p => exact all.symm
    | atLeast minimum p => exact all.symm
  rw [count]
  refine takesExactly_of_pick takeable (fun queue effects token _ found => ?_) y hy
  rw [test] at found ⊢
  -- there is a token to shift
  have removal := @removeFirst_exact V N _ cfg _ (storeOps cfg) x₀ spec.place E
    (PrecompiledNetExecutor.lawful cfg) known queue effects token found
  intro z hz
  have step := removal z hz
  have same : (storeOps cfg).removeFirst spec.place z.store = shift (placeId cfg.net spec.place) z.store := rfl
  rcases taken : shift (placeId cfg.net spec.place) z.store with ⟨_ | first, s⟩
  · simp only [onStore, same, taken] at step
    cases step.1
  · simp only [shiftToken, onStore, same, taken] at step ⊢
    exact step

theorem consumesExactly : ConsumesExactly (backend cfg) := by
  intro tid x₀ chosen E binding supplied
  show Prog.Spec (· = x₀) (consume tid) _ E
  cases unmatched : (transition tid).matchSpec with
  | none =>
    have free : chosen = none := by
      have bound := supplied.bound
      rw [unmatched] at bound
      exact Option.not_isSome_iff_eq_none.mp (by rw [← bound]; exact Bool.false_ne_true)
    subst free
    rw [consume_unmatched unmatched]
    have takes (c : Consumption V N) : TakesExactly (storeOps cfg) x₀ (transition tid) none (transition tid).inputSpecs
        (fun p => queueOf p x₀.store) [] c (takeInputs (transition tid).inputSpecs c) E :=
      takesExactly_all (fun _ => rfl) (fun _ _ _ => rfl)
        (fun _ mem _ _ _ takeable => takeInput_exact (known_of_input mem) takeable)
        (transition tid).inputs_nodup _ [] c supplied.takeable
    have stage := stage_exact (PrecompiledNetExecutor.lawful cfg) takes peekReadArcs_exact
    rintro _ rfl
    exact stage _ (holding_chosenAt tid none _)
  | some ms =>
    unfold consume
    refine Prog.Spec.ite (fun _ => ?_) fun bare => absurd (by rw [unmatched]; rfl) bare
    exact chosen_exact (PrecompiledNetExecutor.lawful cfg) supplied (chooseBinding_run binding) peekReadArcs_exact

end PrecompiledNetExecutor

end LibPetri.Verified
