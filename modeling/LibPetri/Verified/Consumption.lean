import LibPetri.Verified.HostCalls
import LibPetri.Verified.LawfulStore

/-! # The consumption of a firing

A firing takes tokens from its inputs and empties the places it resets, emitting as it goes.
`Taking` lists what a property of the state, indexed by what has been consumed so far, must survive
for the whole stage to keep it: one removal at a time, and the calls of the host in between.
-/

namespace LibPetri.Verified

open LibPetri.Basis LibPetri.Core LibPetri.Runtime CompiledNet Executor

variable {V N : Type} [LinearOrder N] {cfg : Setting V N} {S : Type}

/-- The state with one more entry in its history. -/
def recorded (e : Effect cfg.net) (x : Exec cfg S) : Exec cfg S := { x with history := e :: x.history }

/-- The state with another store. -/
def stored (s : S) (x : Exec cfg S) : Exec cfg S := { x with store := s }

/-- The consumption with one more token. -/
def taking (p : PlaceName) (token : Token V) (c : Consumption V N) : Consumption V N :=
  { c with inputs := c.inputs ++ [(p, token)], consumed := c.consumed ++ [token] }

/-- The consumption with the tokens of an emptied place. -/
def emptying (tokens : List (Token V)) (c : Consumption V N) : Consumption V N :=
  { c with consumed := c.consumed ++ tokens }

section Rules

variable {ops : StoreOps cfg S} {I : Consumption V N → Exec cfg S → Prop}
  {E : Thrown → Exec cfg S → Prop}

theorem takeTokens_spec {p : PlaceName} {next : Method cfg S (Option (Nat × Token V))}
    (stable : ∀ c, HostStable ops (I c))
    (take : ∀ c, Prog.Spec (I c) next
      (fun found y => match found with
        | none => I c y
        | some (index, token) => I (taking p token c) (recorded (.took p index token) y)) E)
    (n : Nat) (c : Consumption V N) : Prog.Spec (I c) (takeTokens ops p next n c) I E := by
  induction n generalizing c with
  | zero => exact Prog.Spec.pure c
  | succ n ih =>
    refine Prog.Spec.bind (take c) fun found => ?_
    cases found with
    | none => exact Prog.Spec.pure c
    | some entry =>
      exact Prog.Spec.modify_bind
        (Prog.Spec.bind ((stable _).emitEvent _) fun _ => ih (taking p entry.2 c)) fun y hy => hy

theorem resetPlace_spec {p : PlaceName} {c : Consumption V N} (stable : ∀ c, HostStable ops (I c))
    (empty : ∀ x, I c x → I (emptying (ops.removeAll p x.store).1 c)
      (recorded (.reset p (ops.removeAll p x.store).1) (stored (ops.removeAll p x.store).2 x))) :
    Prog.Spec (I c) (resetPlace ops p c) I E := by
  refine Prog.Spec.bind (Q := fun removed y => I (emptying removed c) (recorded (.reset p removed) y))
    empty fun removed => ?_
  refine Prog.Spec.modify_bind (R := I (emptying removed c)) ?_ fun y hy => hy
  exact Prog.Spec.bind (Prog.Spec.each fun token _ => (stable _).emitEvent _) fun _ =>
    Prog.Spec.pure (emptying removed c)

end Rules

/-! ## The stage -/

/-- The projection of a correlated input. -/
def correlated (t : Transition V N) (p : PlaceName) : Option (KeyFn V N) :=
  t.matchSpec.bind fun ms => keyForPlace ms p

/-- The test a firing puts to the tokens of a correlated input. -/
def named (key : KeyFn V N) (name : N) (v : V) : Except Thrown Bool :=
  (key v).map fun found => decide (found = some name)

/-- What `I` must survive for the consumption stage of `t` to keep it, throwing within `E`. -/
structure Taking (ops : StoreOps cfg S) (t : Transition V N)
    (I : Consumption V N → Exec cfg S → Prop) (E : Thrown → Exec cfg S → Prop) : Prop where
  stable : ∀ c, HostStable ops (I c)
  first : ∀ spec ∈ t.inputSpecs, ∀ c x, I c x →
    match ops.removeFirst spec.place x.store with
    | (none, s) => I c (stored s x)
    | (some token, s) => I (taking spec.place token c) (recorded (.took spec.place 0 token) (stored s x))
  matching : ∀ spec ∈ t.inputSpecs, ∀ key, correlated t spec.place = some key → ∀ name c x, I c x →
    match ops.removeFirstMatching spec.place (named key name) x.store with
    | (.error e, s) => E e (stored s x)
    | (.ok none, s) => I c (stored s x)
    | (.ok (some (index, token)), s) =>
      I (taking spec.place token c) (recorded (.took spec.place index token) (stored s x))
  counting : ∀ spec ∈ t.inputSpecs, ∀ (key : KeyFn V N) (name : N) c x e, I c x →
    ops.countMatching spec.place (named key name) x.store = .error e → E e x
  reset : ∀ p ∈ t.resets, ∀ c x, I c x → I (emptying (ops.removeAll p x.store).1 c)
    (recorded (.reset p (ops.removeAll p x.store).1) (stored (ops.removeAll p x.store).2 x))

namespace Taking

variable {ops : StoreOps cfg S} {t : Transition V N} {I : Consumption V N → Exec cfg S → Prop}
  {E : Thrown → Exec cfg S → Prop} (h : Taking ops t I E)
include h

theorem takeFirst {spec : In} (hspec : spec ∈ t.inputSpecs) (n : Nat) (c : Consumption V N) :
    Prog.Spec (I c) (takeTokens ops spec.place
      (onStore fun s => (.ok ((ops.removeFirst spec.place s).1.map fun token => (0, token)),
        (ops.removeFirst spec.place s).2)) n c) I E := by
  refine takeTokens_spec h.stable (fun c x hx => ?_) n c
  have step := h.first spec hspec c x hx
  rcases removal : ops.removeFirst spec.place x.store with ⟨_ | token, s⟩
  · simp only [onStore, removal] at step ⊢
    exact step
  · simp only [onStore, removal] at step ⊢
    exact step

theorem takeMatching {spec : In} (hspec : spec ∈ t.inputSpecs) {key : KeyFn V N}
    (hkey : correlated t spec.place = some key) (name : N) (n : Nat) (c : Consumption V N) :
    Prog.Spec (I c) (takeTokens ops spec.place
      (onStore (ops.removeFirstMatching spec.place (named key name))) n c) I E := by
  refine takeTokens_spec h.stable (fun c x hx => ?_) n c
  have step := h.matching spec hspec key hkey name c x hx
  rcases removal : ops.removeFirstMatching spec.place (named key name) x.store with ⟨e | _ | ⟨i, token⟩, s⟩
  all_goals
    simp only [onStore, removal] at step ⊢
    exact step

theorem consumeInput {spec : In} (hspec : spec ∈ t.inputSpecs) (chosen : Option N)
    (c : Consumption V N) : Prog.Spec (I c) (consumeInput ops t chosen spec c) I E := by
  have counts (key : KeyFn V N) (name : N) {k : Nat → Method cfg S (Consumption V N)}
      (hk : ∀ n, Prog.Spec (I c) (k n) I E) : Prog.Spec (I c)
        (Prog.gets id >>= fun x =>
          Prog.lift (ops.countMatching spec.place (named key name) x.store) >>= k) I E := by
    refine Prog.Spec.gets_bind fun x => ?_
    refine Prog.Spec.lift_bind (fun n _ y hy => hk n y hy.1) fun e he y hy => ?_
    obtain ⟨hy, rfl⟩ := hy
    exact h.counting spec hspec key name c y e hy he
  have oldest := h.takeFirst hspec
  unfold Executor.consumeInput
  split
  next _ _ key name hkey =>
    have matching := h.takeMatching hspec hkey name
    cases spec with
    | one p => exact matching 1 c
    | exactly count p => exact matching count c
    | all p => exact counts key name fun n => matching n c
    | atLeast minimum p => exact counts key name fun n => matching n c
  next =>
    cases spec with
    | one p => exact oldest 1 c
    | exactly count p => exact oldest count c
    | all p => exact Prog.Spec.gets_bind fun n y hy => oldest n c y hy.1
    | atLeast minimum p => exact Prog.Spec.gets_bind fun n y hy => oldest n c y hy.1

theorem consumeInputs (chosen : Option N) {specs : List In} (sub : ∀ spec ∈ specs, spec ∈ t.inputSpecs)
    (c : Consumption V N) : Prog.Spec (I c) (consumeInputs ops t chosen specs c) I E := by
  induction specs generalizing c with
  | nil => exact Prog.Spec.pure c
  | cons spec specs ih =>
    exact Prog.Spec.bind (h.consumeInput (sub spec List.mem_cons_self) chosen c) fun c =>
      ih (fun spec' hspec => sub spec' (List.mem_cons_of_mem _ hspec)) c

theorem resetPlaces {places : List PlaceName} (sub : ∀ p ∈ places, p ∈ t.resets)
    (c : Consumption V N) : Prog.Spec (I c) (resetPlaces ops places c) I E := by
  induction places generalizing c with
  | nil => exact Prog.Spec.pure c
  | cons p places ih =>
    exact Prog.Spec.bind (resetPlace_spec h.stable (h.reset p (sub p List.mem_cons_self) c)) fun c =>
      ih (fun q hq => sub q (List.mem_cons_of_mem _ hq)) c

end Taking

end LibPetri.Verified
