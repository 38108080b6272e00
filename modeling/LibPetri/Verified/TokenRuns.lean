import LibPetri.Verified.MatchCaches
import LibPetri.Verified.TokenInvariants

/-! # The token machine

Tokens in their places and in the hands of firings, moved by whole turns: a firing starts, is given up, or
completes, and an event is admitted.  Every state an executor reaches between its operations, along a run whose
deposits go through, is one of this machine, and the record of the run is the record of its turns.
-/

namespace LibPetri.Verified

open LibPetri.Basis LibPetri.Core LibPetri.Runtime CompiledNet Executor

variable {V N : Type} [LinearOrder N]

/-! ## The machine -/

/-- The tokens of a net: in its places, and taken by the firings in flight. -/
structure Tokens (net : PetriNet V N) where
  queue : PlaceName → List (Token V)
  flight : Tid net → Option (Consumption V N)

/-- A firing that binds the chosen name is allowed. -/
structure Fireable (t : Transition V N) (chosen : Option N) (queue : PlaceName → List (Token V)) : Prop
    extends Supplied t chosen queue where
  binding : SafeStamps t queue → findBinding t queue = .ok chosen
  reads : ∀ p ∈ t.reads, queue p ≠ []
  inhibitors : ∀ p ∈ t.inhibitors, queue p = []

omit [LinearOrder N] in
/-- The outputs of one place, in order. -/
def entriesAt (entries : List (PlaceName × Token V)) (p : PlaceName) : List (Token V) :=
  entries.filterMap fun e => if e.1 = p then some e.2 else none

/-- The record of outputs that land, newest first. -/
def landings {net : PetriNet V N} (entries : List (PlaceName × Token V)) : List (Effect net) :=
  (entries.map fun e => .deposited e.1 e.2).reverse

/-- The turns of the machine, with their record. -/
inductive TokenRun (cfg : Setting V N) (start : PlaceName → List (Token V)) :
    List (Effect cfg.net) → Tokens cfg.net → Prop
  | seeded : TokenRun cfg start (seeds cfg) ⟨start, fun _ => none⟩
  | fired {history tokens} {tid : Tid cfg.net} {chosen : Option N} (run : TokenRun cfg start history tokens)
      (idle : tokens.flight tid = none) (fireable : Fireable (transition tid) chosen tokens.queue) :
      TokenRun cfg start
        (.launched tid (consumptionOf (transition tid) chosen tokens.queue).inputs
          (consumptionOf (transition tid) chosen tokens.queue).consumed chosen ::
            (consumptionEffects (transition tid) chosen tokens.queue ++ .began tid :: history))
        ⟨queueAfter (transition tid) chosen tokens.queue, Function.update tokens.flight tid
          (some (consumptionOf (transition tid) chosen tokens.queue))⟩
  | aborted {history tokens} {tid : Tid cfg.net} {chosen : Option N} (run : TokenRun cfg start history tokens)
      (idle : tokens.flight tid = none) (fireable : Fireable (transition tid) chosen tokens.queue) :
      TokenRun cfg start
        (.aborted tid :: (consumptionEffects (transition tid) chosen tokens.queue ++ .began tid :: history))
        ⟨queueAfter (transition tid) chosen tokens.queue, tokens.flight⟩
  | completed {history tokens} {tid : Tid cfg.net} (run : TokenRun cfg start history tokens)
      (held : (tokens.flight tid).isSome = true) (entries : List (PlaceName × Token V)) :
      TokenRun cfg start (.landed tid :: (landings entries ++ .settled tid entries :: history))
        ⟨fun p => tokens.queue p ++ entriesAt entries p, Function.update tokens.flight tid none⟩
  | failed {history tokens} {tid : Tid cfg.net} (run : TokenRun cfg start history tokens)
      (held : (tokens.flight tid).isSome = true) (entries : List (PlaceName × Token V)) :
      TokenRun cfg start (.failed tid :: .settled tid entries :: history)
        ⟨tokens.queue, Function.update tokens.flight tid none⟩
  | admitted {history tokens} (run : TokenRun cfg start history tokens) (event : ExternalEvent V) :
      TokenRun cfg start (.deposited event.place event.token :: .admitting event :: history)
        ⟨fun p => tokens.queue p ++ entriesAt [(event.place, event.token)] p, tokens.flight⟩

/-! ## Tokens, caches and their record -/

/-- What moves tokens, and where the turns begin and end. -/
def booked {net : PetriNet V N} : Effect net → Bool
  | .seeded _ _ | .began _ | .took _ _ _ | .reset _ _ | .launched _ _ _ _ | .aborted _ | .settled _ _
  | .deposited _ _ | .landed _ | .failed _ | .admitting _ => true
  | _ => false

variable {cfg : Setting V N} {S : Type}

/-- The part of the state an invariant about tokens depends on. -/
structure Stock (cfg : Setting V N) (S : Type) where
  store : S
  matchCaches : Caches cfg
  record : List (Effect cfg.net)

def stock (x : Exec cfg S) : Stock cfg S := ⟨x.store, x.ctl.matchCaches, x.history.filter booked⟩

omit [LinearOrder N] in
theorem filter_booked_internal {net : PetriNet V N} (history : List (Effect net)) :
    (history.filter internal).filter booked = history.filter booked := by
  rw [List.filter_filter]
  refine List.filter_congr fun e _ => ?_
  cases e <;> rfl

/-- An invariant the host cannot break, nor anything that leaves store, caches and record of the tokens alone. -/
structure Calm (B : Backend cfg S) (I : Exec cfg S → Prop) : Prop extends HostStable B.toStoreOps I where
  moved : ∀ x y, y.store = x.store → y.ctl.matchCaches = x.ctl.matchCaches → y.history = x.history → I x → I y
  noted : ∀ x e, internal e = true → booked e = false → I x → I (recorded e x)

namespace Calm

variable {B : Backend cfg S} {verdict : Tid cfg.net → Flight V N → Except Thrown Unit} {I : Exec cfg S → Prop}
  (h : Calm B I)
include h

theorem aloof : Aloof B I :=
  { h.toHostStable with
    bookkeeping := fun x c caches _ _ hx => h.moved x _ rfl caches rfl hx
    clock := fun x _ hx => h.moved x _ rfl rfl rfl hx
    starts := fun x _ hx => h.moved x _ rfl rfl rfl hx
    reaped := fun x _ hx => h.noted x _ rfl rfl hx }

theorem ambient (update : ∀ x tid flight flight', I x → B.flight? tid x.store = some flight →
    SameFiring flight flight' → I (stored (B.update tid flight' x.store) x)) : Ambient B I :=
  { h.toHostStable with
    update := update
    delivered := fun x _ hx _ => h.moved x _ rfl rfl rfl hx
    raceSettled := fun x hx => h.moved x _ rfl rfl rfl hx
    epochs := fun x _ hx => h.moved x _ rfl rfl rfl hx }

/-- One invariant for all stages of a run. -/
theorem steady (update : ∀ x tid flight flight', I x → B.flight? tid x.store = some flight →
      SameFiring flight flight' → I (stored (B.update tid flight' x.store) x))
    (fire : ∀ tid x, I x → Coherent B x → x.ctl.enabledFlags tid = true →
      canEnable B tid x.ctl.markingBitmap x = .ok true →
      Prog.Spec (· = x) (fireTransitionContained B tid) (fun _ => I) fun _ => I)
    (complete : ∀ tid flight x, I x → Coherent B x → B.flight? tid x.store = some flight → Lands B verdict tid x →
      Prog.Spec (· = x) (completeTransition B tid) (fun _ => I) fun _ => I)
    (takes : ∀ i event x, I x → Coherent B x → Projects x.ctl.matchCaches event.place event.token →
      Prog.Spec (· = x) (admitEvent B i event) (fun _ => I) fun _ => I) :
    Steady B verdict ⟨I, I, I, I⟩ where
  loop := h.aloof
  io x _ _ hx := h.moved x _ rfl rfl rfl hx
  update := update
  seeded x _ _ hx := h.moved x _ rfl rfl rfl hx
  fire := fire
  complete tid flight x hx coherent held lands :=
    (complete tid flight x hx coherent held lands).conseq (fun _ => id) (fun _ _ => .inl) fun _ _ => id
  takes i event x hx coherent projects :=
    (takes i event x hx coherent projects).conseq (fun _ => id) (fun _ _ => .inl) fun _ _ => id
  exits _ := id
  stopped := h.ambient update
  ioStopped x _ _ hx := h.moved x _ rfl rfl rfl hx
  refused x _ hx := h.noted x _ rfl rfl hx
  finishes x hx := h.moved x _ rfl rfl rfl hx
  ended := h.ambient update
  clockEnded x _ hx := h.moved x _ rfl rfl rfl hx
  recorded x hx := h.noted x _ rfl rfl hx
  crashes _ := id
  crashed := h.ambient update

end Calm

theorem at_uniform {I : Exec cfg S → Prop} {phase : Phase cfg.net} {x : Exec cfg S}
    (h : (⟨I, I, I, I⟩ : Stages cfg S).at phase x) : I x := by
  cases phase with
  | head => exact h.elim id fun stopped => stopped.2
  | _ => exact h

/-- An invariant of the stock. -/
def OfStock (I : Exec cfg S → Prop) : Prop := ∀ x y, stock y = stock x → I x → I y

theorem OfStock.hostStable {I : Exec cfg S → Prop} (h : OfStock I) {ops : StoreOps cfg S} : HostStable ops I := by
  refine HostStable.of_respects fun x y same hx => h x y ?_ hx
  have store : y.store = x.store := congrArg Internals.store same
  have ctl : y.ctl = x.ctl := congrArg Internals.ctl same
  have record : y.history.filter internal = x.history.filter internal := congrArg Internals.effects same
  unfold stock
  rw [store, ctl, ← filter_booked_internal, record, filter_booked_internal]

theorem OfStock.calm {I : Exec cfg S → Prop} (h : OfStock I) {B : Backend cfg S} : Calm B I :=
  { h.hostStable with
    moved := fun x y store caches record hx => h x y (by unfold stock; rw [store, caches, record]) hx
    noted := fun x e _ unbooked hx => h x _ (by
      unfold stock
      rw [recorded, List.filter_cons_of_neg (by rw [unbooked]; exact Bool.false_ne_true)]) hx }

/-! ## The executors play it -/

section Plays

variable {B : Backend cfg S} {verdict : Tid cfg.net → Flight V N → Except Thrown Unit} {x y : Exec cfg S}
  {start : PlaceName → List (Token V)} {tid : Tid cfg.net} {chosen : Option N} {c : Consumption V N}

/-- What a flight has taken. -/
def consumptionIn (flight : Flight V N) : Consumption V N := ⟨flight.inputs, flight.consumed, flight.matchedName⟩

/-- The tokens of an executor. -/
def tokensOf (B : Backend cfg S) (x : Exec cfg S) : Tokens cfg.net where
  queue p := B.queue p x.store
  flight tid := (B.flight? tid x.store).map consumptionIn

/-- The state is one of the token machine, and its caches are in step. -/
structure Plays (B : Backend cfg S) (start : PlaceName → List (Token V)) (x : Exec cfg S) : Prop where
  run : TokenRun cfg start (x.history.filter booked) (tokensOf B x)
  mirror : CachesMirror B x

theorem CachesMirror.of_stock (h : CachesMirror B x) (store : y.store = x.store)
    (caches : y.ctl.matchCaches = x.ctl.matchCaches) : CachesMirror B y := by
  unfold CachesMirror
  rw [store, caches]
  exact h

theorem plays_ofStock : OfStock (Plays B start) := by
  intro x y same h
  have store : y.store = x.store := congrArg Stock.store same
  have caches : y.ctl.matchCaches = x.ctl.matchCaches := congrArg Stock.matchCaches same
  have record : y.history.filter booked = x.history.filter booked := congrArg Stock.record same
  refine ⟨?_, h.mirror.of_stock store caches⟩
  unfold tokensOf
  rw [record, store]
  exact h.run

theorem tokensOf_eq {queue : PlaceName → List (Token V)} {flight : Tid cfg.net → Option (Consumption V N)}
    (queues : ∀ p, B.queue p x.store = queue p)
    (flights : ∀ tid, (B.flight? tid x.store).map consumptionIn = flight tid) : tokensOf B x = ⟨queue, flight⟩ := by
  unfold tokensOf
  rw [funext queues, funext flights]

/-- What a flight has taken does not change while its action runs. -/
theorem Plays.update (lawful : Lawful B.toStoreOps) (h : Plays B start x) {flight flight' : Flight V N}
    (held : B.flight? tid x.store = some flight) (same : SameFiring flight flight') :
    Plays B start (stored (B.update tid flight' x.store) x) := by
  have queues (p : PlaceName) : B.queue p (B.update tid flight' x.store) = B.queue p x.store :=
    lawful.queue_update tid flight' x.store p
  refine ⟨?_, fun other cache live => ?_⟩
  · have tokens : tokensOf B (stored (B.update tid flight' x.store) x) = tokensOf B x := by
      refine tokensOf_eq queues fun other => ?_
      show (B.flight? other (B.update tid flight' x.store)).map consumptionIn = _
      rw [lawful.flight?_update]
      by_cases own : other = tid
      · subst own
        rw [if_pos rfl, held, Option.map_some, Option.map_some, consumptionIn, consumptionIn, same.inputs,
          same.consumed, same.matchedName]
      · rw [if_neg own]
    rw [tokens]
    exact h.run
  · obtain ⟨may, mirrors⟩ := h.mirror other cache live
    exact ⟨may, fun ms matched => (mirrors ms matched).congr fun k _ => queues k.place⟩

/-! ### Firings -/

/-- What a firing has consumed from `x₀`, before it is registered. -/
structure TookAt (B : Backend cfg S) (tid : Tid cfg.net) (chosen : Option N) (x₀ : Exec cfg S)
    (c : Consumption V N) (x : Exec cfg S) : Prop where
  consumption : c = consumptionOf (transition tid) chosen fun p => B.queue p x₀.store
  queues : ∀ p, B.queue p x.store = queueAfter (transition tid) chosen (fun p => B.queue p x₀.store) p
  flights : ∀ other, B.flight? other x.store = B.flight? other x₀.store
  record : x.history.filter booked =
    consumptionEffects (transition tid) chosen (fun p => B.queue p x₀.store) ++ .began tid :: x₀.history.filter booked
  mirror : CachesMirror B x

theorem tookAt_ofStock {x₀ : Exec cfg S} : OfStock (TookAt B tid chosen x₀ c) := by
  intro x y same h
  have store : y.store = x.store := congrArg Stock.store same
  have caches : y.ctl.matchCaches = x.ctl.matchCaches := congrArg Stock.matchCaches same
  have record : y.history.filter booked = x.history.filter booked := congrArg Stock.record same
  exact ⟨h.consumption, store ▸ h.queues, store ▸ h.flights, record.trans h.record, h.mirror.of_stock store caches⟩

theorem mem_consumptionEffects {net : PetriNet V N} {t : Transition V N} {queue : PlaceName → List (Token V)}
    {e : Effect net} (mem : e ∈ consumptionEffects t chosen queue) :
    (∃ p i token, e = .took p i token) ∨ ∃ p tokens, e = .reset p tokens := by
  rcases List.mem_append.mp mem with mem | mem
  · obtain ⟨cleared, -, rfl⟩ := List.mem_map.mp (List.mem_reverse.mp mem)
    exact .inr ⟨_, _, rfl⟩
  · obtain ⟨taken, -, rfl⟩ := List.mem_map.mp (List.mem_reverse.mp mem)
    exact .inl ⟨_, _, _, rfl⟩

theorem filter_booked_consumptionEffects {net : PetriNet V N} (t : Transition V N) (chosen : Option N)
    (queue : PlaceName → List (Token V)) :
    (consumptionEffects t chosen queue : List (Effect net)).filter booked = consumptionEffects t chosen queue := by
  refine List.filter_eq_self.mpr fun e mem => ?_
  rcases mem_consumptionEffects mem with ⟨p, i, token, rfl⟩ | ⟨p, tokens, rfl⟩
  · rfl
  · rfl

/-- The consumption stage of a firing that is supplied. -/
theorem consume_tookAt (exact_ : ConsumesExactly B) {x₀ : Exec cfg S} (mirror : CachesMirror B x₀)
    (binding : bindingOf B.toStoreOps tid x₀ = .ok chosen)
    (supplied : Supplied (transition tid) chosen fun p => B.queue p x₀.store) {E : Thrown → Exec cfg S → Prop} :
    Prog.Spec (· = recorded (.began tid) (unsettled true x₀)) (B.consume tid) (TookAt B tid chosen x₀) E := by
  refine (exact_ tid (recorded (.began tid) (unsettled true x₀)) chosen binding supplied).conseq (fun _ => id)
    (fun c y h => ?_) fun _ _ => id
  obtain ⟨consumption, holding⟩ := h
  have caches : y.ctl.matchCaches = (chosenAt tid chosen x₀).ctl.matchCaches := by
    rw [holding.ctl]
    cases chosen <;> rfl
  refine ⟨consumption, holding.queues, fun other => ?_, ?_, mirror.consumed binding supplied.bound caches holding.queues⟩
  · have same := holding.flights.1 other
    cases chosen <;> exact same
  · have record := congrArg (List.filter booked) holding.effects
    rw [filter_booked_internal, List.filter_append, filter_booked_internal, filter_booked_consumptionEffects] at record
    rw [record]
    cases chosen <;> rfl

/-- A firing of the machine. -/
theorem stagedFiring_plays (lawful : Lawful B.toStoreOps) (exact_ : ConsumesExactly B) {x₀ : Exec cfg S}
    (plays : Plays B start x₀) (idle : B.flight? tid x₀.store = none)
    (binding : bindingOf B.toStoreOps tid x₀ = .ok chosen)
    (fireable : Fireable (transition tid) chosen fun p => B.queue p x₀.store) :
    StagedFiring B tid x₀ (TookAt B tid chosen x₀) (fun _ x => ∃ c, TookAt B tid chosen x₀ c x) (Plays B start)
      (Plays B start) (Plays B start) where
  consume := consume_tookAt exact_ plays.mirror binding fireable.toSupplied
  aloof _ := tookAt_ofStock.calm.aloof
  throws c _ _ h := ⟨c, h⟩
  launches c flight x h _ starts := by
    have queues (p : PlaceName) : B.queue p (B.register tid flight x.store) = B.queue p x.store :=
      lawful.queue_register tid flight x.store p
    have tokens : tokensOf B (unsettled false (launchedAt B tid flight x)) =
        ⟨queueAfter (transition tid) chosen fun p => B.queue p x₀.store,
          Function.update (tokensOf B x₀).flight tid (some c)⟩ := by
      refine tokensOf_eq (fun p => (queues p).trans (h.queues p)) fun other => ?_
      show (B.flight? other (B.register tid flight x.store)).map consumptionIn = _
      rw [lawful.flight?_register, Function.update_apply]
      split
      · rw [Option.map_some, consumptionIn, starts.inputs, starts.consumed, starts.matchedName]
      · rw [h.flights]
        rfl
    have record : (unsettled false (launchedAt B tid flight x)).history.filter booked =
        .launched tid c.inputs c.consumed chosen :: x.history.filter booked := by
      show List.filter booked (.launched tid flight.inputs flight.consumed flight.matchedName :: x.history) = _
      rw [starts.inputs, starts.consumed, starts.matchedName, h.consumption]
      rfl
    refine ⟨?_, fun other cache live => ?_⟩
    · rw [tokens, record, h.record, h.consumption]
      exact .fired plays.run (congrArg (Option.map consumptionIn) idle) fireable
    · obtain ⟨may, mirrors⟩ := h.mirror other cache live
      exact ⟨may, fun ms matched => (mirrors ms matched).congr fun k _ => queues k.place⟩
  contains _ x h := by
    obtain ⟨c, h⟩ := h
    have tokens : tokensOf B (recorded (.aborted tid) (unsettled false x)) =
        ⟨queueAfter (transition tid) chosen fun p => B.queue p x₀.store, (tokensOf B x₀).flight⟩ := by
      refine tokensOf_eq h.queues fun other => ?_
      show (B.flight? other x.store).map consumptionIn = _
      rw [h.flights]
      rfl
    refine ⟨?_, h.mirror.of_stock rfl rfl⟩
    have record : (recorded (.aborted tid) (unsettled false x)).history.filter booked =
        .aborted tid :: x.history.filter booked := rfl
    rw [tokens, record, h.record]
    exact .aborted plays.run (congrArg (Option.map consumptionIn) idle) fireable
  aloofR := plays_ofStock.calm.aloof
  forgets x h := by
    refine ⟨h.run, fun other cache live => ?_⟩
    change Function.update x.ctl.matchCaches tid none other = some cache at live
    rw [Function.update_apply] at live
    split at live
    · cases live
    · exact h.mirror other cache live
  aloofQ := plays_ofStock.calm.aloof
  crashes _ h := h.elim id id

theorem PassesTests.fireable (passes : PassesTests B tid x) (mirror : CachesMirror B x)
    (binding : bindingOf B.toStoreOps tid x = .ok chosen)
    (supplied : Supplied (transition tid) chosen fun p => B.queue p x.store) :
    Fireable (transition tid) chosen fun p => B.queue p x.store :=
  { supplied with
    binding := mirror.findBinding_eq binding
    reads := passes.reads
    inhibitors := passes.inhibitors }

theorem Plays.fire (conforms : Conforms B verdict) (exact_ : ConsumesExactly B) (plays : Plays B start x)
    (coherent : Coherent B x) (on : x.ctl.enabledFlags tid = true)
    (can : canEnable B tid x.ctl.markingBitmap x = .ok true) :
    Prog.Spec (· = x) (fireTransitionContained B tid) (fun _ => Plays B start) fun _ => Plays B start := by
  have passes := passesTests_of_canEnable conforms.masks coherent.marked can
  obtain ⟨chosen, binding, supplied⟩ := passes.supplied plays.mirror
  have rule := stagedFiring_plays conforms.lawful exact_ plays (idle_of_enabled coherent on).2 binding
    (passes.fireable plays.mirror binding supplied)
  exact rule.fireTransitionContained conforms coherent on

/-! ### Completions and admissions -/

/-- Of a completion from `x₀`, what has landed so far. -/
structure LandingAt (B : Backend cfg S) (tid : Tid cfg.net) (entries : List (PlaceName × Token V)) (x₀ : Exec cfg S)
    (done : List (PlaceName × Token V)) (x : Exec cfg S) : Prop where
  queues : ∀ p, B.queue p x.store = B.queue p x₀.store ++ entriesAt done p
  flights : ∀ other, B.flight? other x.store = if other = tid then none else B.flight? other x₀.store
  record : x.history.filter booked = landings done ++ .settled tid entries :: x₀.history.filter booked
  mirror : CachesMirror B x

theorem landingAt_ofStock {entries done : List (PlaceName × Token V)} {x₀ : Exec cfg S} :
    OfStock (LandingAt B tid entries x₀ done) := by
  intro x y same h
  have store : y.store = x.store := congrArg Stock.store same
  have caches : y.ctl.matchCaches = x.ctl.matchCaches := congrArg Stock.matchCaches same
  have record : y.history.filter booked = x.history.filter booked := congrArg Stock.record same
  exact ⟨store ▸ h.queues, store ▸ h.flights, record.trans h.record, h.mirror.of_stock store caches⟩

theorem LandingAt.tokens {entries done : List (PlaceName × Token V)} {x₀ : Exec cfg S}
    (h : LandingAt B tid entries x₀ done x) : tokensOf B x =
      ⟨fun p => (tokensOf B x₀).queue p ++ entriesAt done p, Function.update (tokensOf B x₀).flight tid none⟩ := by
  refine tokensOf_eq h.queues fun other => ?_
  rw [h.flights, Function.update_apply]
  split <;> rfl

omit [LinearOrder N] in
theorem entriesAt_append (first rest : List (PlaceName × Token V)) (p : PlaceName) :
    entriesAt (first ++ rest) p = entriesAt first p ++ entriesAt rest p := List.filterMap_append

omit [LinearOrder N] in
theorem entriesAt_singleton (p q : PlaceName) (token : Token V) :
    entriesAt [(p, token)] q = if q = p then [token] else [] := by
  by_cases same : q = p
  · simp [entriesAt, same]
  · simp [entriesAt, same, Ne.symm same]

theorem LandingAt.deposit {entries done : List (PlaceName × Token V)} {x₀ : Exec cfg S} {entry : PlaceName × Token V}
    (h : LandingAt B tid entries x₀ done x) (projects : Projects x.ctl.matchCaches entry.1 entry.2)
    (d : Deposited B entry.1 entry.2 x y) : LandingAt B tid entries x₀ (done ++ [entry]) y := by
  refine ⟨fun p => ?_, fun other => (d.flights other).trans (h.flights other), ?_, h.mirror.deposited d projects⟩
  · rw [entriesAt_append, ← List.append_assoc, ← h.queues, entriesAt_singleton, d.queues]
    split
    next same => rw [same]
    next => rw [List.append_nil]
  · have record := congrArg (List.filter booked) d.effects
    rw [filter_booked_internal] at record
    rw [record]
    show .deposited entry.1 entry.2 :: (x.history.filter internal).filter booked = _
    rw [filter_booked_internal, h.record, landings, landings, List.map_append, List.reverse_append]
    rfl

theorem completionRule_plays (lawful : Lawful B.toStoreOps) {flight : Flight V N} (plays : Plays B start x)
    (held : B.flight? tid x.store = some flight) :
    CompletionRule B tid flight x (LandingAt B tid flight.entries x) (Plays B start) (Plays B start)
      (Plays B start) := by
  have off : LandingAt B tid flight.entries x [] (unsettled true (settledAt B tid flight x)) := by
    have queues (p : PlaceName) : B.queue p (B.unregister tid x.store) = B.queue p x.store :=
      lawful.queue_unregister tid x.store p
    refine ⟨fun p => ?_, fun other => lawful.flight?_unregister tid x.store other, rfl, fun other cache live => ?_⟩
    · show B.queue p (B.unregister tid x.store) = _
      rw [queues]
      exact (List.append_nil _).symm
    · obtain ⟨may, mirrors⟩ := plays.mirror other cache live
      exact ⟨may, fun ms matched => (mirrors ms matched).congr fun k _ => queues k.place⟩
  have running : ((tokensOf B x).flight tid).isSome = true := by
    have taken : (tokensOf B x).flight tid = some (consumptionIn flight) := congrArg (Option.map consumptionIn) held
    rw [taken]
    rfl
  have fails {z : Exec cfg S} (h : LandingAt B tid flight.entries x [] z) :
      Plays B start (recorded (.failed tid) (unsettled false z)) := by
    have tokens : tokensOf B (recorded (.failed tid) (unsettled false z)) = tokensOf B z := rfl
    have record : (recorded (.failed tid) (unsettled false z)).history.filter booked =
        .failed tid :: z.history.filter booked := rfl
    refine ⟨?_, h.mirror.of_stock rfl rfl⟩
    rw [tokens, record, h.record, h.tokens]
    have failed := TokenRun.failed plays.run running flight.entries
    have same : (fun p => (tokensOf B x).queue p ++ entriesAt [] p) = (tokensOf B x).queue :=
      funext fun p => List.append_nil _
    rw [same]
    exact failed
  exact
    { start := off
      aloof := fun _ => landingAt_ofStock.calm.aloof
      deposit := fun _ _ _ _ _ _ h projects d _ _ => h.deposit projects d
      lands := fun z h => by
        have tokens : tokensOf B (recorded (.landed tid) (unsettled false z)) = tokensOf B z := rfl
        have record : (recorded (.landed tid) (unsettled false z)).history.filter booked =
            .landed tid :: z.history.filter booked := rfl
        refine ⟨?_, h.mirror.of_stock rfl rfl⟩
        rw [tokens, record, h.record, h.tokens]
        exact .completed plays.run running flight.entries
      aloofQ := plays_ofStock.calm.aloof
      refused := fun _ h => fails h
      failed := plays_ofStock (recorded (.failed tid) (unsettled false (unsettled true (settledAt B tid flight x))))
        _ rfl (fails off)
      aloofF := plays_ofStock.calm.aloof
      fails := fun _ => id
      crashes := fun _ => id }

theorem Plays.admitted (plays : Plays B start x) {i : Nat} {event : ExternalEvent V}
    (d : Deposited B event.place event.token (admittingAt i event x) y)
    (projects : Projects x.ctl.matchCaches event.place event.token) : Plays B start y := by
  have record : y.history.filter booked =
      .deposited event.place event.token :: .admitting event :: x.history.filter booked := by
    have said := congrArg (List.filter booked) d.effects
    rw [filter_booked_internal] at said
    rw [said]
    show .deposited event.place event.token ::
      ((admittingAt i event x).history.filter internal).filter booked = _
    rw [filter_booked_internal]
    rfl
  have tokens : tokensOf B y = ⟨fun p => (tokensOf B x).queue p ++ entriesAt [(event.place, event.token)] p,
      (tokensOf B x).flight⟩ := by
    refine tokensOf_eq (fun p => ?_) fun other => congrArg (Option.map consumptionIn) (d.flights other)
    rw [d.queues, entriesAt_singleton]
    show (if p = event.place then B.queue event.place x.store ++ [event.token] else B.queue p x.store) = _
    split
    next same => rw [same]; rfl
    next => exact (List.append_nil _).symm
  refine ⟨?_, CachesMirror.deposited (x := admittingAt i event x) (plays.mirror.of_stock rfl rfl) d projects⟩
  rw [record, tokens]
  exact .admitted plays.run event

theorem Plays.admit (conforms : Conforms B verdict) (plays : Plays B start x) {i : Nat} {event : ExternalEvent V}
    (projects : Projects x.ctl.matchCaches event.place event.token) :
    Prog.Spec (· = x) (admitEvent B i event) (fun _ => Plays B start) fun _ => Plays B start :=
  admitEvent_rule conforms (A := Plays B start) projects plays_ofStock.hostStable
    (fun _ d _ _ => plays.admitted d projects) fun z h => plays_ofStock z _ rfl h

theorem steady_plays (conforms : Conforms B verdict) (exact_ : ConsumesExactly B)
    (start : PlaceName → List (Token V)) :
    Steady B verdict ⟨Plays B start, Plays B start, Plays B start, Plays B start⟩ :=
  plays_ofStock.calm.steady (fun _ _ _ _ h held same => h.update conforms.lawful held same)
    (fun _ _ h coherent on can => h.fire conforms exact_ coherent on can)
    (fun _ _ _ h _ held lands => (completionRule_plays conforms.lawful h held).completeTransition conforms held lands)
    fun _ _ _ h _ projects => h.admit conforms projects

theorem plays_built (built : Built B x) : Plays B (fun p => B.queue p x.store) x := by
  obtain ⟨events, history⟩ := built.history
  have record : x.history.filter booked = seeds cfg := by
    rw [history, List.filter_append]
    have warnings : (events.map (Effect.appended : NetEvent V → Effect cfg.net)).filter booked = [] := by
      refine List.filter_eq_nil_iff.mpr fun e mem => ?_
      obtain ⟨_, -, rfl⟩ := List.mem_map.mp mem
      exact Bool.false_ne_true
    have seed : (seeds cfg).filter booked = seeds cfg := by
      refine List.filter_eq_self.mpr fun e mem => ?_
      obtain ⟨entry, -, mem⟩ := List.mem_flatMap.mp (List.mem_reverse.mp mem)
      obtain ⟨token, -, rfl⟩ := List.mem_map.mp mem
      rfl
    rw [warnings, seed, List.nil_append]
  refine ⟨?_, cachesMirror_built built⟩
  rw [record, tokensOf_eq (fun _ => rfl) fun tid => congrArg (Option.map consumptionIn) (built.flights tid)]
  exact .seeded

end Plays

end LibPetri.Verified
