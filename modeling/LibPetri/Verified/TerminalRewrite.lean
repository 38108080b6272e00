import LibPetri.Verification.SmtVerifier
import LibPetri.Verified.TokenGame

/-! # The terminal rewrite

A run of a net with terminal places stops once one of them is marked.  In the rewritten net every terminal
inhibits every transition: while none is marked the two nets move alike, clocks and all, and from a marking
with one marked the rewritten net only lets time pass.
-/

namespace LibPetri.Verified

open LibPetri.Basis LibPetri.Core LibPetri.Verification TokenGame

variable {V N : Type}

/-! ## Timed runs -/

/-- A marking, and how long each transition that is enabled in it has been enabled. -/
structure TimedState where
  marking : Counts
  age : Nat → ℚ

/-- The timing a run observes: none at all when it ignores time. -/
def observed (untimed : Bool) (t : Transition V N) : Timing := if untimed then .immediate else t.timing

/-- Not past the deadline. -/
def InTime (timing : Timing) (age : ℚ) : Prop := timing.hasDeadline = true → age ≤ timing.latest

/-- A transition other than the fired one that stays enabled between the halves of the firing. -/
def GoesOn (fired : Transition V N) (i : Nat) (m : Counts) (u : Nat) (t : Transition V N) : Prop :=
  u ≠ i ∧ Enabled t m ∧ Enabled t (intermediate fired m)

/-- Time passes up to the first deadline, or a transition in its interval fires.  The clocks of those that
go on keep their time. -/
inductive TimedStep (untimed : Bool) (ts : List (Transition V N)) : TimedState → TimedState → Prop
  | elapse (s : TimedState) (d : ℚ) (forward : 0 ≤ d)
      (inTime : ∀ u t, ts[u]? = some t → Enabled t s.marking → InTime (observed untimed t) (s.age u + d)) :
      TimedStep untimed ts s ⟨s.marking, fun u => s.age u + d⟩
  | fire (s : TimedState) (i : Nat) (t : Transition V N) (o : Outcome) (age : Nat → ℚ)
      (here : ts[i]? = some t) (enabled : Enabled t s.marking) (outcome : o ∈ outcomes t)
      (due : (observed untimed t).earliest ≤ s.age i) (inTime : InTime (observed untimed t) (s.age i))
      (kept : ∀ u t', ts[u]? = some t' → GoesOn t i s.marking u t' → age u = s.age u)
      (fresh : ∀ u t', ts[u]? = some t' → ¬ GoesOn t i s.marking u t' → age u = 0) :
      TimedStep untimed ts s ⟨fire t s.marking o, age⟩

/-- A marking that some timed run reaches. -/
def TimedReach (step : TimedState → TimedState → Prop) (start : TimedState) (m : Counts) : Prop :=
  ∃ s, Relation.ReflTransGen step start s ∧ s.marking = m

/-! ## Runs that ignore time -/

/-- When time is ignored, timed runs reach what the token game reaches. -/
theorem timedReach_untimed (net : PetriNet V N) (m₀ m : Counts) :
    TimedReach (TimedStep true net.transitions) ⟨m₀, fun _ => 0⟩ m ↔ ReachableMarking net m₀ m := by
  constructor
  · rintro ⟨s, run, rfl⟩
    induction run with
    | refl => exact .refl
    | tail _ step ih =>
      cases step with
      | elapse => exact ih
      | fire i t o age here enabled outcome =>
        obtain ⟨lt, rfl⟩ := List.getElem?_eq_some_iff.mp here
        exact ih.tail ⟨⟨i, lt⟩, enabled, o, outcome, rfl⟩
  · intro run
    -- Firing at once keeps every clock at zero.
    have atOnce : Relation.ReflTransGen (TimedStep true net.transitions) ⟨m₀, fun _ => 0⟩ ⟨m, fun _ => 0⟩ := by
      induction run with
      | refl => exact .refl
      | tail _ step ih =>
        obtain ⟨t, enabled, o, outcome, rfl⟩ := step
        refine ih.tail (.fire _ t.val (transitionAt t) o _ (List.getElem?_eq_getElem t.isLt) enabled outcome
          (le_refl _) nofun (fun _ _ _ _ => rfl) fun _ _ _ _ => rfl)
    exact ⟨_, atOnce, rfl⟩

/-! ## The rewrite -/

/-- A transition that the terminals inhibit too. -/
def inhibitedBy (terminals : List PlaceName) (t : Transition V N) : Transition V N :=
  { t with inhibitors := t.inhibitors ++ terminals.filter fun p => p ∉ t.inhibitors }

/-- No terminal is marked. -/
def Quiet (terminals : List PlaceName) (m : Counts) : Prop := ∀ p ∈ terminals, m p = 0

section Rewrite

variable {terminals : List PlaceName} {untimed : Bool} {ts : List (Transition V N)}

mutual

theorem timeoutDeposits_inhibitedBy (t : Transition V N) (child : Out) (acc : OrderedMap PlaceName Deposit) :
    timeoutDeposits (inhibitedBy terminals t) child acc = timeoutDeposits t child acc := by
  cases child with
  | place | forwardInput | xor => rfl
  | timeout _ child => exact timeoutDeposits_inhibitedBy t child acc
  | and children => exact timeoutDepositsAll_inhibitedBy t children acc

theorem timeoutDepositsAll_inhibitedBy (t : Transition V N) (children : List Out)
    (acc : OrderedMap PlaceName Deposit) :
    timeoutDepositsAll (inhibitedBy terminals t) children acc = timeoutDepositsAll t children acc := by
  cases children with
  | nil => rfl
  | cons child children =>
    rw [timeoutDepositsAll, timeoutDepositsAll, timeoutDeposits_inhibitedBy t child acc]
    exact timeoutDepositsAll_inhibitedBy t children _

end

/-- Inhibitors deposit nothing. -/
theorem outcomes_inhibitedBy (terminals : List PlaceName) (t : Transition V N) :
    outcomes (inhibitedBy terminals t) = outcomes t := by
  have forwarded : timeoutOutcome (inhibitedBy terminals t) = timeoutOutcome t := by
    funext child
    rw [timeoutOutcome, timeoutOutcome, timeoutDeposits_inhibitedBy]
  rw [outcomes, forwarded]
  rfl

theorem transitions_withTerminalInhibitors (net : PetriNet V N) :
    (withTerminalInhibitors net).transitions = net.transitions.map (inhibitedBy net.terminals) := by
  rw [withTerminalInhibitors]
  split
  next none_ =>
    refine ((List.map_congr_left fun t _ => ?_).trans (List.map_id _)).symm
    rw [inhibitedBy, none_, List.filter_nil, List.append_nil]
    rfl
  next => rfl

theorem enabled_inhibitedBy {t : Transition V N} {m : Counts} :
    Enabled (inhibitedBy terminals t) m ↔ Enabled t m ∧ Quiet terminals m := by
  constructor
  · intro h
    refine ⟨⟨h.inputs, h.reads, fun p mem => h.inhibitors p (List.mem_append_left _ mem)⟩, fun p mem => ?_⟩
    by_cases own : p ∈ t.inhibitors
    · exact h.inhibitors p (List.mem_append_left _ own)
    · exact h.inhibitors p (List.mem_append_right _ (List.mem_filter.mpr ⟨mem, decide_eq_true own⟩))
  · rintro ⟨h, quiet⟩
    refine ⟨h.inputs, h.reads, fun p mem => ?_⟩
    rcases List.mem_append.mp mem with own | added
    · exact h.inhibitors p own
    · exact quiet p (List.mem_filter.mp added).1

/-- The first half of a firing marks no place. -/
theorem Quiet.intermediate {m : Counts} (quiet : Quiet terminals m) (t : Transition V N) :
    Quiet terminals (intermediate t m) := by
  intro p mem
  rw [TokenGame.intermediate, quiet p mem, Nat.zero_sub]
  exact ite_self 0

theorem goesOn_inhibitedBy {m : Counts} (quiet : Quiet terminals m) {fired t : Transition V N} {i u : Nat} :
    GoesOn (inhibitedBy terminals fired) i m u (inhibitedBy terminals t) ↔ GoesOn fired i m u t := by
  have second := quiet.intermediate fired
  rw [GoesOn, GoesOn, enabled_inhibitedBy, enabled_inhibitedBy]
  exact and_congr_right fun _ => and_congr (and_iff_left quiet) (and_iff_left second)

theorem getElem?_map_inhibitedBy {u : Nat} {t : Transition V N} (here : ts[u]? = some t) :
    (ts.map (inhibitedBy terminals))[u]? = some (inhibitedBy terminals t) := by
  rw [List.getElem?_map, here]
  rfl

theorem exists_of_getElem?_map {u : Nat} {t' : Transition V N}
    (here : (ts.map (inhibitedBy terminals))[u]? = some t') :
    ∃ t, ts[u]? = some t ∧ inhibitedBy terminals t = t' := by
  rw [List.getElem?_map] at here
  exact Option.map_eq_some_iff.mp here

/-- While no terminal is marked, the two nets move alike. -/
theorem timedStep_inhibitedBy {s s' : TimedState} (quiet : Quiet terminals s.marking) :
    TimedStep untimed (ts.map (inhibitedBy terminals)) s s' ↔ TimedStep untimed ts s s' := by
  constructor
  · intro step
    cases step with
    | elapse d forward inTime =>
      apply TimedStep.elapse s d forward
      intro u t here enabled
      exact inTime u (inhibitedBy terminals t) (getElem?_map_inhibitedBy here)
        (enabled_inhibitedBy.mpr ⟨enabled, quiet⟩)
    | fire i fired o age here enabled outcome due inTime kept fresh =>
      obtain ⟨t, there, rfl⟩ := exists_of_getElem?_map here
      rw [outcomes_inhibitedBy] at outcome
      apply TimedStep.fire s i t o age there (enabled_inhibitedBy.mp enabled).1 outcome due inTime
      · intro u t' at_u goesOn
        exact kept u _ (getElem?_map_inhibitedBy at_u) ((goesOn_inhibitedBy quiet).mpr goesOn)
      · intro u t' at_u stops
        exact fresh u _ (getElem?_map_inhibitedBy at_u) (mt (goesOn_inhibitedBy quiet).mp stops)
  · intro step
    cases step with
    | elapse d forward inTime =>
      apply TimedStep.elapse s d forward
      intro u t' here enabled
      obtain ⟨t, there, rfl⟩ := exists_of_getElem?_map here
      exact inTime u t there (enabled_inhibitedBy.mp enabled).1
    | fire i t o age here enabled outcome due inTime kept fresh =>
      rw [← outcomes_inhibitedBy terminals] at outcome
      apply TimedStep.fire s i (inhibitedBy terminals t) o age (getElem?_map_inhibitedBy here)
        (enabled_inhibitedBy.mpr ⟨enabled, quiet⟩) outcome due inTime
      · intro u t' at_u goesOn
        obtain ⟨t', there, rfl⟩ := exists_of_getElem?_map at_u
        exact kept u t' there ((goesOn_inhibitedBy quiet).mp goesOn)
      · intro u t' at_u stops
        obtain ⟨t', there, rfl⟩ := exists_of_getElem?_map at_u
        exact fresh u t' there (mt (goesOn_inhibitedBy quiet).mpr stops)

/-- Once a terminal is marked, nothing fires. -/
theorem marking_of_not_quiet {s s' : TimedState} (marked : ¬ Quiet terminals s.marking)
    (step : TimedStep untimed (ts.map (inhibitedBy terminals)) s s') : s'.marking = s.marking := by
  cases step with
  | elapse => rfl
  | fire i t o age here enabled =>
    rw [List.getElem?_map] at here
    obtain ⟨t, -, rfl⟩ := Option.map_eq_some_iff.mp here
    exact absurd (enabled_inhibitedBy.mp enabled).2 marked

/-- A step of a run that stops as soon as a terminal is marked. -/
def StoppingStep (terminals : List PlaceName) (untimed : Bool) (ts : List (Transition V N))
    (s s' : TimedState) : Prop :=
  Quiet terminals s.marking ∧ TimedStep untimed ts s s'

theorem timedReach_inhibitedBy (start : TimedState) (m : Counts) :
    TimedReach (TimedStep untimed (ts.map (inhibitedBy terminals))) start m ↔
      TimedReach (StoppingStep terminals untimed ts) start m := by
  constructor
  · rintro ⟨s, run, rfl⟩
    -- The stopping run stays where the first terminal was marked.
    have followed : ∃ s', Relation.ReflTransGen (StoppingStep terminals untimed ts) start s' ∧
        s'.marking = s.marking ∧ (Quiet terminals s.marking → s' = s) := by
      induction run with
      | refl => exact ⟨start, .refl, rfl, fun _ => rfl⟩
      | @tail before after _ step ih =>
        obtain ⟨s', run', same, here⟩ := ih
        by_cases quiet : Quiet terminals before.marking
        · obtain rfl := here quiet
          exact ⟨after, run'.tail ⟨quiet, (timedStep_inhibitedBy quiet).mp step⟩, rfl, fun _ => rfl⟩
        · have still := marking_of_not_quiet quiet step
          exact ⟨s', run', same.trans still.symm, fun quiet' => absurd (still ▸ quiet') quiet⟩
    obtain ⟨s', run', same, -⟩ := followed
    exact ⟨s', run', same⟩
  · rintro ⟨s, run, rfl⟩
    refine ⟨s, ?_, rfl⟩
    exact run.lift id fun _ _ step => (timedStep_inhibitedBy step.1).mpr step.2

end Rewrite

/-- The rewrite is exact, whether time counts or not: it reaches the markings of the runs that stop as soon
as a terminal is marked, enables nothing in a marking with a terminal marked, and does nothing the second
time. -/
theorem withTerminalInhibitors_exact (net : PetriNet V N) (untimed : Bool) (start : TimedState) :
    (∀ m, TimedReach (TimedStep untimed (withTerminalInhibitors net).transitions) start m ↔
      TimedReach (StoppingStep net.terminals untimed net.transitions) start m) ∧
    (∀ t ∈ (withTerminalInhibitors net).transitions, ∀ m : Counts,
      (∃ p ∈ net.terminals, 0 < m p) → ¬ Enabled t m) ∧
    withTerminalInhibitors (withTerminalInhibitors net) = withTerminalInhibitors net := by
  rw [transitions_withTerminalInhibitors]
  refine ⟨timedReach_inhibitedBy start, fun t mem m marked enabled => ?_, ?_⟩
  · obtain ⟨t, -, rfl⟩ := List.mem_map.mp mem
    obtain ⟨p, terminal, tokens⟩ := marked
    have := (enabled_inhibitedBy.mp enabled).2 p terminal
    omega
  · have none_ : (withTerminalInhibitors net).terminals = [] := by
      rw [withTerminalInhibitors]
      split
      next none_ => exact none_
      next => rfl
    conv_lhs => rw [withTerminalInhibitors, if_pos none_]

end LibPetri.Verified
