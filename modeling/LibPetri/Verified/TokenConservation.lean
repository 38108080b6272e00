import LibPetri.Verified.SeedMarkings
import LibPetri.Verified.TokenRuns

/-! # Tokens are conserved

What arrives in a place comes from the seed, from a completion that landed or from an event that was admitted.
It stays until a firing takes it, in the order in which it came, and every token that leaves is in the hands of
exactly one firing, in flight or over.
-/

namespace LibPetri.Verified

open LibPetri.Basis LibPetri.Core LibPetri.Runtime CompiledNet Executor

variable {V N : Type}

/-! ## Reading the record -/

section Record

variable {net : PetriNet V N}

/-- The token an effect puts into the place. -/
def arrival (p : PlaceName) : Effect net → List (Token V)
  | .seeded q token | .deposited q token => if q = p then [token] else []
  | _ => []

/-- The tokens an effect takes from the place. -/
def departure (p : PlaceName) : Effect net → List (Token V)
  | .took q _ token => if q = p then [token] else []
  | .reset q tokens => if q = p then tokens else []
  | _ => []

/-- All that came into a place, oldest first. -/
def arrived (p : PlaceName) (history : List (Effect net)) : List (Token V) := history.reverse.flatMap (arrival p)

/-- All that left it, oldest first. -/
def departed (p : PlaceName) (history : List (Effect net)) : List (Token V) := history.reverse.flatMap (departure p)

/-- The same of every place. -/
def arrivals (history : List (Effect net)) : List (PlaceName × Token V) :=
  history.reverse.flatMap fun
    | .seeded p token | .deposited p token => [(p, token)]
    | _ => []

def departures (history : List (Effect net)) : List (Token V) :=
  history.reverse.flatMap fun
    | .took _ _ token => [token]
    | .reset _ tokens => tokens
    | _ => []

/-- What the last completion to be taken up has written. -/
def lastWritten : List (Effect net) → List (PlaceName × Token V)
  | [] => []
  | .settled _ entries :: _ => entries
  | _ :: older => lastWritten older

/-- What should have arrived: the seed, the outputs of every completion that landed, and every admitted event. -/
def owed : List (Effect net) → List (PlaceName × Token V)
  | [] => []
  | .seeded p token :: older => owed older ++ [(p, token)]
  | .landed _ :: older => owed older ++ lastWritten older
  | .admitting event :: older => owed older ++ [(event.place, event.token)]
  | _ :: older => owed older

/-- What has been taken since the last firing began. -/
def takenSince : List (Effect net) → List (Token V)
  | [] => []
  | .began _ :: _ => []
  | .took _ _ token :: older => takenSince older ++ [token]
  | .reset _ tokens :: older => takenSince older ++ tokens
  | _ :: older => takenSince older

/-- A firing: what it has consumed, and whether it is in flight. -/
structure Fired (net : PetriNet V N) where
  tid : Tid net
  consumed : List (Token V)
  running : Bool

/-- The firings of a run, the last one first. -/
def firingsOn : List (Effect net) → List (Fired net)
  | [] => []
  | .launched tid _ consumed _ :: older => ⟨tid, consumed, true⟩ :: firingsOn older
  | .aborted tid :: older => ⟨tid, takenSince older, false⟩ :: firingsOn older
  | .settled tid _ :: older =>
    (firingsOn older).map fun fired => if fired.tid = tid then { fired with running := false } else fired
  | _ :: older => firingsOn older

/-- The firings of one transition in flight. -/
def runningOn (tid : Tid net) (history : List (Effect net)) : List (Fired net) :=
  (firingsOn history).filter fun fired => fired.tid = tid ∧ fired.running = true

variable {history older : List (Effect net)} {p : PlaceName}

theorem arrived_append (recent older : List (Effect net)) :
    arrived p (recent ++ older) = arrived p older ++ arrived p recent := by
  simp [arrived]

theorem departed_append (recent older : List (Effect net)) :
    departed p (recent ++ older) = departed p older ++ departed p recent := by
  simp [departed]

theorem arrivals_append (recent older : List (Effect net)) :
    arrivals (recent ++ older) = arrivals older ++ arrivals recent := by
  simp [arrivals]

theorem departures_append (recent older : List (Effect net)) :
    departures (recent ++ older) = departures older ++ departures recent := by
  simp [departures]

/-- Neither the start nor the end of a firing, nor of anything that brings tokens. -/
def inTurn : Effect net → Bool
  | .took _ _ _ | .reset _ _ | .deposited _ _ => true
  | _ => false

theorem owed_inTurn (inside : ∀ e ∈ history, inTurn e = true) : owed (history ++ older) = owed older := by
  induction history with
  | nil => rfl
  | cons e history ih =>
    obtain ⟨here, later⟩ := List.forall_mem_cons.mp inside
    rw [List.cons_append, ← ih later]
    cases e <;> first | rfl | cases here

theorem lastWritten_inTurn (inside : ∀ e ∈ history, inTurn e = true) :
    lastWritten (history ++ older) = lastWritten older := by
  induction history with
  | nil => rfl
  | cons e history ih =>
    obtain ⟨here, later⟩ := List.forall_mem_cons.mp inside
    rw [List.cons_append, ← ih later]
    cases e <;> first | rfl | cases here

theorem firingsOn_inTurn (inside : ∀ e ∈ history, inTurn e = true) : firingsOn (history ++ older) = firingsOn older := by
  induction history with
  | nil => rfl
  | cons e history ih =>
    obtain ⟨here, later⟩ := List.forall_mem_cons.mp inside
    rw [List.cons_append, ← ih later]
    cases e <;> first | rfl | cases here

theorem takenSince_inTurn (inside : ∀ e ∈ history, inTurn e = true) (tid : Tid net) :
    takenSince (history ++ .began tid :: older) = departures history := by
  induction history with
  | nil => rfl
  | cons e history ih =>
    obtain ⟨here, later⟩ := List.forall_mem_cons.mp inside
    have split : departures (e :: history) = departures history ++ departures [e] := departures_append [e] history
    rw [split, ← ih later]
    cases e with
    | took => rfl
    | reset => simp [takenSince, departures]
    | deposited => simp [takenSince, departures]
    | _ => cases here

theorem inTurn_landings (entries : List (PlaceName × Token V)) :
    ∀ e ∈ (landings entries : List (Effect net)), inTurn e = true := by
  intro e mem
  obtain ⟨_, -, rfl⟩ := List.mem_map.mp (List.mem_reverse.mp mem)
  rfl

theorem inTurn_consumptionEffects [LinearOrder N] (t : Transition V N) (chosen : Option N)
    (queue : PlaceName → List (Token V)) :
    ∀ e ∈ (consumptionEffects t chosen queue : List (Effect net)), inTurn e = true := by
  intro e mem
  rcases mem_consumptionEffects mem with ⟨p, i, token, rfl⟩ | ⟨p, tokens, rfl⟩
  · rfl
  · rfl

theorem arrived_landings (entries : List (PlaceName × Token V)) :
    arrived p (landings entries : List (Effect net)) = entriesAt entries p := by
  rw [arrived, landings, List.reverse_reverse, List.flatMap_map]
  induction entries with
  | nil => rfl
  | cons entry entries ih =>
    rw [List.flatMap_cons, ih, ← List.singleton_append, entriesAt_append]
    congr 1
    by_cases here : entry.1 = p
    · simp [arrival, entriesAt, here]
    · simp [arrival, entriesAt, here]

theorem arrivals_landings (entries : List (PlaceName × Token V)) :
    arrivals (landings entries : List (Effect net)) = entries := by
  rw [arrivals, landings, List.reverse_reverse, List.flatMap_map]
  exact List.flatMap_singleton' entries

theorem departed_landings (entries : List (PlaceName × Token V)) :
    departed p (landings entries : List (Effect net)) = [] := by
  rw [departed, landings, List.reverse_reverse, List.flatMap_map]
  exact List.flatMap_eq_nil_iff.mpr fun _ _ => rfl

theorem departures_landings (entries : List (PlaceName × Token V)) :
    departures (landings entries : List (Effect net)) = [] := by
  rw [departures, landings, List.reverse_reverse, List.flatMap_map]
  exact List.flatMap_eq_nil_iff.mpr fun _ _ => rfl

end Record

/-! ## What a firing takes -/

section Consumption

variable {net : PetriNet V N} {p : PlaceName}

/-- The tokens of one place among what is taken. -/
def takenFrom (p : PlaceName) (takings : List (PlaceName × Nat × Token V)) : List (Token V) :=
  takings.filterMap fun e => if e.1 = p then some e.2.2 else none

theorem departed_took (takings : List (PlaceName × Nat × Token V)) :
    departed p (took takings : List (Effect net)) = takenFrom p takings := by
  rw [departed, took, List.reverse_reverse, List.flatMap_map]
  induction takings with
  | nil => rfl
  | cons e takings ih =>
    rw [List.flatMap_cons, ih]
    by_cases here : e.1 = p
    · simp [departure, takenFrom, here]
    · simp [departure, takenFrom, here]

theorem departures_took (takings : List (PlaceName × Nat × Token V)) :
    departures (took takings : List (Effect net)) = takings.map fun e => e.2.2 := by
  rw [departures, took, List.reverse_reverse, List.flatMap_map]
  exact (List.map_eq_flatMap).symm

theorem departures_emptied (cleared : List (PlaceName × List (Token V))) :
    departures (emptied cleared : List (Effect net)) = cleared.flatMap Prod.snd := by
  rw [departures, emptied, List.reverse_reverse, List.flatMap_map]

/-- A place that is reset gives up what it has, once. -/
theorem departed_emptied (places : List PlaceName) (queue : PlaceName → List (Token V)) :
    departed p (emptied (resettings places queue) : List (Effect net)) = if p ∈ places then queue p else [] := by
  rw [departed, emptied, List.reverse_reverse, List.flatMap_map]
  induction places generalizing queue with
  | nil => rfl
  | cons q places ih =>
    rw [resettings, List.flatMap_cons, ih]
    by_cases here : q = p
    · subst here
      simp [departure]
    · have apart : p ≠ q := fun same => here same.symm
      simp [departure, here, apart]

theorem takenFrom_append (first rest : List (PlaceName × Nat × Token V)) :
    takenFrom p (first ++ rest) = takenFrom p first ++ takenFrom p rest := List.filterMap_append

theorem takenFrom_map (q : PlaceName) (tokens : List (Nat × Token V)) :
    takenFrom p (tokens.map fun e => (q, e)) = if q = p then tokens.map Prod.snd else [] := by
  rw [takenFrom, List.filterMap_map]
  by_cases here : q = p
  · rw [if_pos here, ← List.filterMap_eq_map]
    exact List.filterMap_congr fun e _ => if_pos here
  · rw [if_neg here]
    exact List.filterMap_eq_nil_iff.mpr fun e _ => if_neg here

variable [LinearOrder N] {t : Transition V N} {chosen : Option N}

/-- What the inputs take and what they leave are all there was. -/
theorem afterTaking_append_takenFrom (specs : List In) (queue : PlaceName → List (Token V)) :
    (afterTaking t chosen specs queue p ++ takenFrom p (takings t chosen specs queue)).Perm (queue p) := by
  induction specs generalizing queue with
  | nil => rw [afterTaking, takings, takenFrom, List.filterMap_nil, List.append_nil]
  | cons spec specs ih =>
    rw [afterTaking, takings, takenFrom_append, takenFrom_map]
    have later := ih (Function.update queue spec.place (leftAfter t chosen spec (queue spec.place)))
    by_cases here : spec.place = p
    · subst here
      rw [Function.update_self] at later
      rw [if_pos rfl]
      have all : ((takenBy t chosen spec (queue spec.place)).map Prod.snd ++
          leftAfter t chosen spec (queue spec.place)).Perm (queue spec.place) := picked_append_leftBy _ _
      refine (List.perm_append_comm_assoc _ _ _).trans ((later.append_left _).trans ?_)
      exact all
    · rw [if_neg here, List.nil_append]
      rwa [Function.update_of_ne (Ne.symm here)] at later

theorem queueAfter_append_departed (queue : PlaceName → List (Token V)) :
    (queueAfter t chosen queue p ++ departed p (consumptionEffects t chosen queue : List (Effect net))).Perm
      (queue p) := by
  rw [consumptionEffects, departed_append, departed_took, departed_emptied, queueAfter]
  have all : (afterTaking t chosen t.inputSpecs queue p ++ takenFrom p (takings t chosen t.inputSpecs queue)).Perm
      (queue p) := afterTaking_append_takenFrom _ _
  split
  · rw [List.nil_append]
    exact List.perm_append_comm.trans all
  · rw [List.append_nil]
    exact all

theorem departures_consumptionEffects (queue : PlaceName → List (Token V)) :
    departures (consumptionEffects t chosen queue : List (Effect net)) = (consumptionOf t chosen queue).consumed := by
  rw [consumptionEffects, departures_append, departures_took, departures_emptied]
  rfl

theorem arrived_consumptionEffects (queue : PlaceName → List (Token V)) :
    arrived p (consumptionEffects t chosen queue : List (Effect net)) = [] := by
  refine List.flatMap_eq_nil_iff.mpr fun e mem => ?_
  rcases mem_consumptionEffects (List.mem_reverse.mp mem) with ⟨q, i, token, rfl⟩ | ⟨q, tokens, rfl⟩
  · rfl
  · rfl

theorem arrivals_consumptionEffects (queue : PlaceName → List (Token V)) :
    arrivals (consumptionEffects t chosen queue : List (Effect net)) = [] := by
  refine List.flatMap_eq_nil_iff.mpr fun e mem => ?_
  rcases mem_consumptionEffects (List.mem_reverse.mp mem) with ⟨q, i, token, rfl⟩ | ⟨q, tokens, rfl⟩
  · rfl
  · rfl

/-- Without a name to look for, the oldest go first. -/
theorem takenFrom_append_afterTaking (free : correlated t p = none) (specs : List In)
    (queue : PlaceName → List (Token V)) :
    takenFrom p (takings t chosen specs queue) ++ afterTaking t chosen specs queue p = queue p := by
  have test : eligible t chosen p = fun _ => true := by
    funext token
    unfold eligible
    rw [free]
  induction specs generalizing queue with
  | nil => rfl
  | cons spec specs ih =>
    rw [afterTaking, takings, takenFrom_append, takenFrom_map, List.append_assoc, ih]
    by_cases here : spec.place = p
    · subst here
      rw [if_pos rfl, Function.update_self, takenBy, leftAfter, map_snd_picked, test, leftBy_true,
        List.filter_eq_self.mpr fun _ _ => rfl, List.take_append_drop]
    · rw [if_neg here, List.nil_append, Function.update_of_ne (Ne.symm here)]

theorem departed_append_queueAfter (free : correlated t p = none) (queue : PlaceName → List (Token V)) :
    departed p (consumptionEffects t chosen queue : List (Effect net)) ++ queueAfter t chosen queue p = queue p := by
  rw [consumptionEffects, departed_append, departed_took, departed_emptied, queueAfter]
  have all : takenFrom p (takings t chosen t.inputSpecs queue) ++ afterTaking t chosen t.inputSpecs queue p = queue p :=
    takenFrom_append_afterTaking free _ _
  split
  · rw [List.append_nil]
    exact all
  · rw [List.append_nil]
    exact all

theorem queueAfter_sublist (queue : PlaceName → List (Token V)) : (queueAfter t chosen queue p).Sublist (queue p) := by
  rw [queueAfter]
  split
  · exact List.nil_sublist _
  · exact afterTaking_sublist _ _ _

end Consumption

/-! ## Accounts of a run -/

section Accounts

variable {cfg : Setting V N} {history : List (Effect cfg.net)} {tokens : Tokens cfg.net}

/-- The tokens of one place: what came into it is still there or has left, the rest stands in the order in which it
came, and where no join looks for a name the oldest have left first. -/
structure Balanced (p : PlaceName) (history : List (Effect cfg.net)) (queue : List (Token V)) : Prop where
  kept : (queue ++ departed p history).Perm (arrived p history)
  ordered : queue.Sublist (arrived p history)
  fifo : (∀ tid : Tid cfg.net, correlated (transition tid) p = none) →
    departed p history ++ queue = arrived p history

/-- The accounts balance: every token is owed, in its place or with one firing. -/
structure Conserved (history : List (Effect cfg.net)) (tokens : Tokens cfg.net) : Prop where
  sources : arrivals history = owed history
  places : ∀ p, Balanced p history (tokens.queue p)
  spent : departures history = (firingsOn history).reverse.flatMap Fired.consumed
  running : ∀ tid, runningOn tid history = ((tokens.flight tid).map fun c => ⟨tid, c.consumed, true⟩).toList

theorem owed_seeds (seeded : List (PlaceName × Token V)) {net : PetriNet V N} :
    owed ((seeded.map fun e => (.seeded e.1 e.2 : Effect net)).reverse) = seeded := by
  induction seeded using List.reverseRecOn with
  | nil => rfl
  | append_singleton seeded e ih =>
    rw [List.map_append, List.map_singleton, List.reverse_append, List.reverse_singleton, List.singleton_append, owed, ih]

theorem firingsOn_seeds (seeded : List (PlaceName × Token V)) {net : PetriNet V N} :
    firingsOn ((seeded.map fun e => (.seeded e.1 e.2 : Effect net)).reverse) = [] := by
  induction seeded using List.reverseRecOn with
  | nil => rfl
  | append_singleton seeded e ih =>
    rw [List.map_append, List.map_singleton, List.reverse_append, List.reverse_singleton, List.singleton_append]
    exact ih

/-- All tokens of the seed, with their places. -/
def seedEntries (initial : List (PlaceName × List (Token V))) : List (PlaceName × Token V) :=
  initial.flatMap fun e => e.2.map fun token => (e.1, token)

theorem seeds_eq (cfg : Setting V N) :
    seeds cfg = ((seedEntries cfg.initialTokens).map fun e => (.seeded e.1 e.2 : Effect cfg.net)).reverse := by
  rw [seeds, seedEntries, List.map_flatMap]
  congr 1
  refine List.flatMap_congr fun e _ => ?_
  rw [List.map_map]
  rfl

theorem conserved_seeds (cfg : Setting V N) :
    Conserved (seeds cfg) (⟨seedTokens cfg.initialTokens, fun _ => none⟩ : Tokens cfg.net) := by
  have came (p : PlaceName) : arrived p (seeds cfg) = seedTokens cfg.initialTokens p := by
    rw [arrived, seeds, List.reverse_reverse, List.flatMap_assoc, seedTokens]
    refine List.flatMap_congr fun e _ => ?_
    rw [List.flatMap_map]
    by_cases here : e.1 = p
    · simp [arrival, here]
    · simp [arrival, here]
  have none_left (p : PlaceName) : departed p (seeds cfg) = [] := by
    rw [departed, seeds_eq, List.reverse_reverse, List.flatMap_map]
    exact List.flatMap_eq_nil_iff.mpr fun _ _ => rfl
  refine ⟨?_, fun p => ⟨?_, ?_, fun _ => ?_⟩, ?_, fun tid => ?_⟩
  · rw [seeds_eq, owed_seeds, arrivals, List.reverse_reverse, List.flatMap_map]
    exact List.flatMap_singleton' _
  · rw [none_left, List.append_nil, came]
  · rw [came]
  · rw [none_left, List.nil_append, came]
  · rw [seeds_eq, firingsOn_seeds, departures, List.reverse_reverse, List.flatMap_map]
    exact List.flatMap_eq_nil_iff.mpr fun _ _ => rfl
  · rw [runningOn, seeds_eq, firingsOn_seeds]
    rfl

theorem runningOn_cons (tid other : Tid cfg.net) (consumed : List (Token V)) (running : Bool)
    (fired : List (Fired cfg.net)) :
    (((⟨other, consumed, running⟩ :: fired).filter fun fired => fired.tid = tid ∧ fired.running = true) :
        List (Fired cfg.net)) =
      (if other = tid ∧ running = true then [⟨other, consumed, running⟩] else []) ++
        fired.filter fun fired => fired.tid = tid ∧ fired.running = true := by
  rw [List.filter_cons]
  simp only [decide_eq_true_eq]
  split
  · rfl
  · rfl

/-- A firing that is taken off the books is over; it keeps what it has consumed. -/
theorem running_settled {tid other : Tid cfg.net} (entries : List (PlaceName × Token V))
    (h : Conserved history tokens) : runningOn other (.settled tid entries :: history) =
      ((Function.update tokens.flight tid none other).map fun c => (⟨other, c.consumed, true⟩ : Fired cfg.net)).toList := by
  have same := h.running other
  unfold runningOn at same ⊢
  rw [firingsOn, List.filter_map]
  by_cases own : other = tid
  · subst own
    rw [Function.update_self, Option.map_none, Option.toList_none, List.map_eq_nil_iff, List.filter_eq_nil_iff]
    intro fired _
    simp only [Function.comp_apply, decide_eq_true_eq]
    split
    · exact fun both => Bool.false_ne_true both.2
    next apart => exact fun both => apart both.1
  · rw [Function.update_of_ne own, ← same]
    have kept : (firingsOn history).filter ((fun fired => decide (fired.tid = other ∧ fired.running = true)) ∘
        fun fired => if fired.tid = tid then { fired with running := false } else fired) =
          (firingsOn history).filter fun fired => fired.tid = other ∧ fired.running = true := by
      refine List.filter_congr fun fired _ => ?_
      simp only [Function.comp_apply]
      split
      next here => simp [here, Ne.symm own]
      next => rfl
    rw [kept]
    refine (List.map_congr_left fun fired mem => ?_).trans (List.map_id _)
    have chosen : fired.tid = other ∧ fired.running = true := of_decide_eq_true (List.mem_filter.mp mem).2
    exact if_neg fun same => own (chosen.1.symm.trans same)

theorem consumed_settled {tid : Tid cfg.net} {entries : List (PlaceName × Token V)} :
    (firingsOn (.settled tid entries :: history)).reverse.flatMap Fired.consumed =
      (firingsOn history).reverse.flatMap Fired.consumed := by
  rw [firingsOn, ← List.map_reverse, List.flatMap_map]
  refine List.flatMap_congr fun fired _ => ?_
  split <;> rfl

/-- Tokens that land where nothing leaves. -/
theorem Balanced.landed {p : PlaceName} {queue : List (Token V)} {opening : Effect cfg.net}
    (h : Balanced p history queue) (entries : List (PlaceName × Token V)) (came : arrived p [opening] = [])
    (left : departed p [opening] = []) :
    Balanced p (landings entries ++ opening :: history) (queue ++ entriesAt entries p) := by
  have split : opening :: history = [opening] ++ history := rfl
  have all : arrived p (landings entries ++ opening :: history) = arrived p history ++ entriesAt entries p := by
    rw [split, arrived_append, arrived_append, came, arrived_landings, List.append_nil]
  have gone : departed p (landings entries ++ opening :: history) = departed p history := by
    rw [split, departed_append, departed_append, left, departed_landings, List.append_nil, List.append_nil]
  refine ⟨?_, ?_, fun free => ?_⟩
  · rw [all, gone, List.append_assoc]
    refine (List.perm_append_comm.append_left _).trans ?_
    rw [← List.append_assoc]
    exact h.kept.append_right _
  · rw [all]
    exact h.ordered.append (List.Sublist.refl _)
  · rw [all, gone, ← List.append_assoc, h.fifo free]

/-- An entry that moves nothing. -/
theorem Balanced.beside {p : PlaceName} {queue : List (Token V)} {e : Effect cfg.net} (h : Balanced p history queue)
    (came : arrival p e = []) (left : departure p e = []) : Balanced p (e :: history) queue := by
  have all : arrived p (e :: history) = arrived p history := by simp [arrived, came]
  have gone : departed p (e :: history) = departed p history := by simp [departed, left]
  refine ⟨?_, ?_, fun free => ?_⟩
  · rw [all, gone]
    exact h.kept
  · rw [all]
    exact h.ordered
  · rw [all, gone]
    exact h.fifo free

theorem Conserved.completed {tid : Tid cfg.net} (h : Conserved history tokens) (entries : List (PlaceName × Token V)) :
    Conserved (.landed tid :: (landings entries ++ .settled tid entries :: history))
      ⟨fun p => tokens.queue p ++ entriesAt entries p, Function.update tokens.flight tid none⟩ := by
  have ends (e : Effect cfg.net) (older : List (Effect cfg.net)) : e :: older = [e] ++ older := rfl
  have inside : ∀ e ∈ (landings entries : List (Effect cfg.net)), inTurn e = true := inTurn_landings entries
  have firings : firingsOn (.landed tid :: (landings entries ++ .settled tid entries :: history)) =
      firingsOn (.settled tid entries :: history) := firingsOn_inTurn inside
  refine ⟨?_, fun p => ((h.places p).landed entries rfl rfl).beside rfl rfl, ?_, fun other => ?_⟩
  · rw [ends, arrivals_append, arrivals_append, ends (.settled tid entries), arrivals_append, arrivals_landings,
      h.sources]
    show _ = owed (landings entries ++ .settled tid entries :: history) ++
      lastWritten (landings entries ++ .settled tid entries :: history)
    rw [owed_inTurn inside, lastWritten_inTurn inside]
    simp [arrivals, owed, lastWritten]
  · rw [firings, consumed_settled, ← h.spent, ends, departures_append, departures_append, departures_landings,
      ends (.settled tid entries), departures_append]
    simp [departures]
  · rw [runningOn, firings, ← runningOn]
    exact running_settled entries h

theorem Conserved.failed {tid : Tid cfg.net} (h : Conserved history tokens) (entries : List (PlaceName × Token V)) :
    Conserved (.failed tid :: .settled tid entries :: history)
      ⟨tokens.queue, Function.update tokens.flight tid none⟩ := by
  refine ⟨?_, fun p => ((h.places p).beside rfl rfl).beside rfl rfl, ?_, fun other => running_settled entries h⟩
  · show arrivals _ = owed history
    rw [← h.sources]
    simp [arrivals]
  · show departures _ = (firingsOn (.settled tid entries :: history)).reverse.flatMap Fired.consumed
    rw [consumed_settled, ← h.spent]
    simp [departures]

theorem Conserved.admitted (h : Conserved history tokens) (event : ExternalEvent V) :
    Conserved (.deposited event.place event.token :: .admitting event :: history)
      (⟨fun p => tokens.queue p ++ entriesAt [(event.place, event.token)] p, tokens.flight⟩ : Tokens cfg.net) := by
  have places (p : PlaceName) : Balanced p
      (landings [(event.place, event.token)] ++ .admitting event :: history)
      (tokens.queue p ++ entriesAt [(event.place, event.token)] p) := (h.places p).landed _ rfl rfl
  refine ⟨?_, places, ?_, h.running⟩
  · show _ = owed history ++ [(event.place, event.token)]
    rw [← h.sources]
    simp [arrivals]
  · show departures _ = (firingsOn history).reverse.flatMap Fired.consumed
    rw [← h.spent]
    simp [departures]

variable [LinearOrder N]

/-- What the consumption of a firing adds to the accounts, up to the entry that ends it. -/
structure Taken (cfg : Setting V N) (tid : Tid cfg.net) (chosen : Option N) (queue : PlaceName → List (Token V))
    (closing : Effect cfg.net) (history : List (Effect cfg.net)) : Prop where
  arrived : ∀ p, arrived p (closing :: (consumptionEffects (transition tid) chosen queue ++ .began tid :: history)) =
    arrived p history
  departed : ∀ p, departed p (closing :: (consumptionEffects (transition tid) chosen queue ++ .began tid :: history)) =
    departed p history ++ departed p (consumptionEffects (transition tid) chosen queue : List (Effect cfg.net))
  arrivals : arrivals (closing :: (consumptionEffects (transition tid) chosen queue ++ .began tid :: history)) =
    arrivals history
  departures : departures (closing :: (consumptionEffects (transition tid) chosen queue ++ .began tid :: history)) =
    departures history ++ (consumptionOf (transition tid) chosen queue).consumed

theorem taken_of_closing {tid : Tid cfg.net} {chosen : Option N} {queue : PlaceName → List (Token V)}
    {closing : Effect cfg.net} (nothing : ∀ p, Verified.arrived p [closing] = [] ∧ Verified.departed p [closing] = [])
    (silent : Verified.arrivals [closing] = [] ∧ Verified.departures [closing] = []) :
    Taken cfg tid chosen queue closing history := by
  have opening (e : Effect cfg.net) (older : List (Effect cfg.net)) : e :: older = [e] ++ older := rfl
  refine ⟨fun p => ?_, fun p => ?_, ?_, ?_⟩
  · rw [opening, arrived_append, arrived_append, opening (.began tid), arrived_append, arrived_consumptionEffects,
      (nothing p).1, List.append_nil, List.append_nil]
    exact List.append_nil _
  · rw [opening, departed_append, departed_append, opening (.began tid), departed_append, (nothing p).2,
      List.append_nil]
    exact congrArg (· ++ _) (List.append_nil _)
  · rw [opening, arrivals_append, arrivals_append, opening (.began tid), arrivals_append,
      arrivals_consumptionEffects, silent.1, List.append_nil, List.append_nil]
    exact List.append_nil _
  · rw [opening, departures_append, departures_append, opening (.began tid), departures_append,
      departures_consumptionEffects, silent.2, List.append_nil]
    exact congrArg (· ++ _) (List.append_nil _)

/-- What has been taken is no longer in its place. -/
theorem Balanced.taken {tid : Tid cfg.net} {chosen : Option N} {closing : Effect cfg.net}
    {queue : PlaceName → List (Token V)} {p : PlaceName} (h : Balanced p history (queue p))
    (taken : Taken cfg tid chosen queue closing history) :
    Balanced p (closing :: (consumptionEffects (transition tid) chosen queue ++ .began tid :: history))
      (queueAfter (transition tid) chosen queue p) := by
  refine ⟨?_, ?_, fun free => ?_⟩
  · rw [taken.arrived, taken.departed]
    have all : (queueAfter (transition tid) chosen queue p ++
        departed p (consumptionEffects (transition tid) chosen queue : List (Effect cfg.net))).Perm (queue p) :=
      queueAfter_append_departed _
    refine (List.perm_append_comm_assoc _ _ _).trans ((all.append_left _).trans ?_)
    exact List.perm_append_comm.trans h.kept
  · rw [taken.arrived]
    exact (queueAfter_sublist _).trans h.ordered
  · rw [taken.arrived, taken.departed, List.append_assoc, departed_append_queueAfter (free tid)]
    exact h.fifo free

theorem Conserved.fired {tid : Tid cfg.net} {chosen : Option N} (h : Conserved history tokens)
    (idle : tokens.flight tid = none) :
    Conserved (.launched tid (consumptionOf (transition tid) chosen tokens.queue).inputs
        (consumptionOf (transition tid) chosen tokens.queue).consumed chosen ::
          (consumptionEffects (transition tid) chosen tokens.queue ++ .began tid :: history))
      ⟨queueAfter (transition tid) chosen tokens.queue, Function.update tokens.flight tid
        (some (consumptionOf (transition tid) chosen tokens.queue))⟩ := by
  let closing : Effect cfg.net := .launched tid (consumptionOf (transition tid) chosen tokens.queue).inputs
    (consumptionOf (transition tid) chosen tokens.queue).consumed chosen
  have taken : Taken cfg tid chosen tokens.queue closing history :=
    taken_of_closing (fun _ => ⟨rfl, rfl⟩) ⟨rfl, rfl⟩
  have inside : ∀ e ∈ (consumptionEffects (transition tid) chosen tokens.queue : List (Effect cfg.net)),
      inTurn e = true := inTurn_consumptionEffects _ _ _
  have firings : firingsOn (closing :: (consumptionEffects (transition tid) chosen tokens.queue ++ .began tid :: history)) =
      ⟨tid, (consumptionOf (transition tid) chosen tokens.queue).consumed, true⟩ :: firingsOn history :=
    congrArg (List.cons _) (firingsOn_inTurn inside)
  refine ⟨?_, fun p => (h.places p).taken taken, ?_, fun other => ?_⟩
  · rw [taken.arrivals, h.sources]
    have same : owed (consumptionEffects (transition tid) chosen tokens.queue ++ .began tid :: history) = owed history :=
      owed_inTurn inside
    exact same.symm
  · rw [taken.departures, firings, List.reverse_cons, List.flatMap_append, h.spent]
    simp
  · rw [runningOn, firings, runningOn_cons, ← runningOn, h.running]
    dsimp only
    by_cases own : other = tid
    · subst own
      rw [idle, Function.update_self]
      simp
    · rw [Function.update_of_ne own, if_neg fun both => own both.1.symm, List.nil_append]

theorem Conserved.aborted {tid : Tid cfg.net} {chosen : Option N} (h : Conserved history tokens) :
    Conserved (.aborted tid :: (consumptionEffects (transition tid) chosen tokens.queue ++ .began tid :: history))
      ⟨queueAfter (transition tid) chosen tokens.queue, tokens.flight⟩ := by
  have taken : Taken cfg tid chosen tokens.queue (.aborted tid) history :=
    taken_of_closing (fun _ => ⟨rfl, rfl⟩) ⟨rfl, rfl⟩
  have inside : ∀ e ∈ (consumptionEffects (transition tid) chosen tokens.queue : List (Effect cfg.net)),
      inTurn e = true := inTurn_consumptionEffects _ _ _
  have firings : firingsOn (.aborted tid :: (consumptionEffects (transition tid) chosen tokens.queue ++ .began tid :: history)) =
      ⟨tid, (consumptionOf (transition tid) chosen tokens.queue).consumed, false⟩ :: firingsOn history := by
    rw [firingsOn, takenSince_inTurn inside, departures_consumptionEffects]
    exact congrArg (List.cons _) (firingsOn_inTurn inside)
  refine ⟨?_, fun p => (h.places p).taken taken, ?_, fun other => ?_⟩
  · rw [taken.arrivals, h.sources]
    have same : owed (consumptionEffects (transition tid) chosen tokens.queue ++ .began tid :: history) = owed history :=
      owed_inTurn inside
    exact same.symm
  · rw [taken.departures, firings, List.reverse_cons, List.flatMap_append, h.spent]
    simp
  · rw [runningOn, firings, runningOn_cons, ← runningOn, h.running, if_neg fun both => Bool.false_ne_true both.2,
      List.nil_append]

/-- Turn by turn. -/
theorem TokenRun.conserved (run : TokenRun cfg (seedTokens cfg.initialTokens) history tokens) :
    Conserved history tokens := by
  induction run with
  | seeded => exact conserved_seeds cfg
  | fired run idle fireable ih => exact ih.fired idle
  | aborted run idle fireable ih => exact ih.aborted
  | completed run held entries ih => exact ih.completed entries
  | failed run held entries ih => exact ih.failed entries
  | admitted run event ih => exact ih.admitted event

end Accounts

/-! ## Both executors -/

variable [LinearOrder N] [Value V] [ToString N] {cfg : Setting V N}

/-- The state is one the token machine reaches from the seed. -/
def PlaysSeed {S : Type} (B : Backend cfg S) (x : Exec cfg S) : Prop :=
  TokenRun cfg (seedTokens cfg.initialTokens) (x.history.filter booked) (tokensOf B x)

omit [ToString N] in
theorem plays_of_reachable {S : Type} {B : Backend cfg S} {verdict : Tid cfg.net → Flight V N → Except Thrown Unit}
    (conforms : Conforms B verdict) (exact_ : ConsumesExactly B) {new : Except Thrown (Exec cfg S)}
    (built : ∀ x, new = .ok x → Built B x ∧ ∀ p, B.queue p x.store = seedTokens cfg.initialTokens p) {m : Machine cfg S}
    (run : ReachableBy B new (CleanDeposits B verdict) m) :
    Plays B (seedTokens cfg.initialTokens) m.exec ∧ CoherentAt B m.phase m.exec := by
  have begins (x : Exec cfg S) (made : new = .ok x) : Plays B (seedTokens cfg.initialTokens) x := by
    have plays := plays_built (built x made).1
    rwa [funext (built x made).2] at plays
  have reached := (steady_plays conforms exact_ (seedTokens cfg.initialTokens)).reachable conforms
    (fun x made => (built x made).1) begins run
  exact ⟨at_uniform reached.1, reached.2⟩

/-- Of the keys of one name, none but the last holds tokens. -/
def SeededOnce (initial : List (PlaceName × List (Token V))) : Prop :=
  initial.Pairwise fun e e' => e.1 = e'.1 → e.2 = []

theorem BitmapNetExecutor.seeded (once : SeededOnce cfg.initialTokens) {x : Exec cfg (BitmapStore cfg)}
    (made : BitmapNetExecutor.new cfg = .ok x) : Built (BitmapNetExecutor.backend cfg) x ∧
      ∀ p, (BitmapNetExecutor.backend cfg).queue p x.store = seedTokens cfg.initialTokens p := by
  obtain ⟨built, marking⟩ := BitmapNetExecutor.built made
  refine ⟨built, fun p => ?_⟩
  show x.store.marking.peekTokens p = _
  rw [marking]
  exact ofInitial_right.mpr once p

theorem PrecompiledNetExecutor.seeded {x : Exec cfg (PrecompiledStore cfg)}
    (made : PrecompiledNetExecutor.new cfg = .ok x) : Built (PrecompiledNetExecutor.backend cfg) x ∧
      ∀ p, (PrecompiledNetExecutor.backend cfg).queue p x.store = seedTokens cfg.initialTokens p := by
  obtain ⟨built, store⟩ := PrecompiledNetExecutor.built made
  refine ⟨built, fun p => ?_⟩
  show PrecompiledNetExecutor.queueOf p x.store = _
  rw [store]
  exact queueOf_loadSeed cfg p

theorem BitmapNetExecutor.plays (once : SeededOnce cfg.initialTokens) {m : Machine cfg (BitmapStore cfg)}
    (run : ReachableBy (BitmapNetExecutor.backend cfg) (BitmapNetExecutor.new cfg)
      (CleanDeposits (BitmapNetExecutor.backend cfg) BitmapNetExecutor.verdict) m) :
    Plays (BitmapNetExecutor.backend cfg) (seedTokens cfg.initialTokens) m.exec :=
  (plays_of_reachable BitmapNetExecutor.conforms BitmapNetExecutor.consumesExactly
    (fun _ => BitmapNetExecutor.seeded once) run).1

theorem PrecompiledNetExecutor.plays {m : Machine cfg (PrecompiledStore cfg)}
    (run : ReachableBy (PrecompiledNetExecutor.backend cfg) (PrecompiledNetExecutor.new cfg)
      (CleanDeposits (PrecompiledNetExecutor.backend cfg) PrecompiledNetExecutor.verdict) m) :
    Plays (PrecompiledNetExecutor.backend cfg) (seedTokens cfg.initialTokens) m.exec :=
  (plays_of_reachable PrecompiledNetExecutor.conforms PrecompiledNetExecutor.consumesExactly
    (fun _ => PrecompiledNetExecutor.seeded) run).1

/-- The name a value is. -/
def nameOf : KeyFn (Option Nat) Nat := fun name => .ok name

def pairKeys : MatchSpec (Option Nat) Nat := ⟨[⟨"left", nameOf⟩, ⟨"right", nameOf⟩], []⟩

theorem pairKeys_nodup : ∀ ms ∈ some pairKeys, (ms.keys.map MatchKey.place).Nodup := by
  intro ms mem
  obtain rfl := Option.mem_some_iff.mp mem
  decide

theorem pairKeys_inputs : ∀ ms ∈ some pairKeys, ∀ k ∈ ms.keys, k.place ∈ join.inputSpecs.map In.place := by
  intro ms mem
  obtain rfl := Option.mem_some_iff.mp mem
  decide

/-- Pairs a token of "left" with one of "right". -/
def pairing : Transition (Option Nat) Nat :=
  { join with matchSpec := some pairKeys, keys_nodup := pairKeys_nodup, keys_inputs := pairKeys_inputs }

/-- The one pair is not at the head of its queue. -/
def pairSetting : Setting (Option Nat) Nat :=
  quiet ⟨"pairing", ["left", "right"], [pairing], [], nofun⟩
    [("left", [⟨some 7, 0⟩, ⟨some 5, 0⟩]), ("right", [⟨some 5, 0⟩])]

theorem pairSetting_once : SeededOnce pairSetting.initialTokens := by
  simp [SeededOnce, pairSetting, quiet]

/-- Runs until the pair has been taken. -/
theorem pairing_runs : ∃ m : Machine pairSetting (BitmapStore pairSetting),
    ReachableBy (BitmapNetExecutor.backend pairSetting) (BitmapNetExecutor.new pairSetting)
      (CleanDeposits (BitmapNetExecutor.backend pairSetting) BitmapNetExecutor.verdict) m ∧
      m.exec.store.marking.peekTokens "left" = [⟨some 7, 0⟩] :=
  ⟨_, ⟨_, rfl, Reaches.foldl_allOk (List.replicate 12 .tick) (by decide +kernel) .start⟩, by decide +kernel⟩

end LibPetri.Verified
