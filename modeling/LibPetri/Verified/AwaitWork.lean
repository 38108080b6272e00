import LibPetri.Verified.Reachable

/-! # The wait

A transition that is enabled asks for two moments: its release, and its deadline if it has one.
`Due` says that one of them has come.  The wait of either executor covers them: while the executor is
not closed, it does not sleep through a moment still to come, and with nothing in flight it does not
sleep at all when one has come.
-/

namespace LibPetri.Verified

open LibPetri.Basis LibPetri.Core LibPetri.Runtime CompiledNet Executor

variable {V N : Type} [LinearOrder N] {cfg : Setting V N} {S : Type}

/-! ## Moments -/

/-- The moments an enabled transition waits for: its release, and its deadline.  Enablement at
`-Infinity` puts both there. -/
def moments (c : Control cfg.net) (tid : Tid cfg.net) : List (WithBot Ms) :=
  if c.enabledFlags tid then
    let enabledAt := enablementOrder (c.enabledAtMs tid)
    (enabledAt + (transition tid).timing.earliest) ::
      if (transition tid).timing.hasDeadline then [enabledAt + (transition tid).timing.latest] else []
  else []

/-- A moment of some transition has come. -/
def Due (c : Control cfg.net) (now : Ms) : Prop :=
  ∃ tid, ∃ moment ∈ moments c tid, moment ≤ now

/-! ## The least boundary -/

theorem leastBoundary_of_due {boundaries : List (WithTop Ms)} {least : WithTop Ms}
    (due : ∃ b ∈ boundaries, b ≤ 0) : leastBoundary boundaries least = 0 := by
  induction boundaries generalizing least with
  | nil =>
    obtain ⟨b, hb, _⟩ := due
    cases hb
  | cons b rest ih =>
    rw [leastBoundary]
    split
    next => rfl
    next later =>
      refine ih ?_
      obtain ⟨b', hb', le⟩ := due
      rcases List.mem_cons.mp hb' with rfl | hmem
      · exact absurd le later
      · exact ⟨b', hmem, le⟩

theorem leastBoundary_le {boundaries : List (WithTop Ms)} {least : WithTop Ms}
    (later : ∀ b ∈ boundaries, 0 < b) : leastBoundary boundaries least ≤ least ∧
      ∀ b ∈ boundaries, leastBoundary boundaries least ≤ b := by
  induction boundaries generalizing least with
  | nil => exact ⟨le_refl _, fun b hb => (List.not_mem_nil hb).elim⟩
  | cons b rest ih =>
    rw [leastBoundary, if_neg (not_le.mpr (later b List.mem_cons_self))]
    obtain ⟨le, each⟩ := @ih (min least b) fun b' hb' => later b' (List.mem_cons_of_mem _ hb')
    refine ⟨le_trans le (min_le_left _ _), fun b' hb' => ?_⟩
    rcases List.mem_cons.mp hb' with rfl | hmem
    · exact le_trans le (min_le_right _ _)
    · exact each b' hmem

theorem leastBoundary_pos {boundaries : List (WithTop Ms)} {least : WithTop Ms}
    (later : ∀ b ∈ boundaries, 0 < b) (pos : 0 < least) : 0 < leastBoundary boundaries least := by
  induction boundaries generalizing least with
  | nil => exact pos
  | cons b rest ih =>
    have hb := later b List.mem_cons_self
    rw [leastBoundary, if_neg (not_le.mpr hb)]
    exact ih (fun b' hb' => later b' (List.mem_cons_of_mem _ hb')) (lt_min pos hb)

/-- The boundaries a transition asks for are its moments, seen from `now`. -/
theorem boundary_of_moment {c : Control cfg.net} {tid : Tid cfg.net} {now moment : Ms}
    (h : (moment : WithBot Ms) ∈ moments c tid) :
    ((moment - now : Ms) : WithTop Ms) ∈
      boundariesOf (transition tid).timing (elapsedSince now (c.enabledAtMs tid)) := by
  unfold moments at h
  split at h
  · cases hat : c.enabledAtMs tid with
    | none =>
      rw [hat] at h
      simp only [enablementOrder, WithBot.bot_add, List.mem_cons] at h
      rcases h with h | h
      · exact absurd h (WithBot.coe_ne_bot)
      · split at h
        · exact absurd (List.mem_singleton.mp h) (WithBot.coe_ne_bot)
        · exact (List.not_mem_nil h).elim
    | some enabledAt =>
      rw [hat] at h
      simp only [enablementOrder, ← WithBot.coe_add, List.mem_cons, WithBot.coe_inj] at h
      simp only [elapsedSince, boundariesOf, List.mem_cons]
      rcases h with rfl | h
      · exact Or.inl (by congr 1; ring)
      · split at h
        next deadline =>
          rw [if_pos deadline]
          have := WithBot.coe_inj.mp (List.mem_singleton.mp h)
          subst this
          exact Or.inr (List.mem_singleton.mpr (by congr 1; ring))
        next => exact (List.not_mem_nil h).elim
  · exact (List.not_mem_nil h).elim

/-- A boundary that is reached belongs to a moment that has come. -/
theorem due_iff_boundary (c : Control cfg.net) (tid : Tid cfg.net) (now : Ms)
    (enabled : c.enabledFlags tid = true) :
    (∃ moment ∈ moments c tid, moment ≤ now) ↔
      ∃ b ∈ boundariesOf (transition tid).timing (elapsedSince now (c.enabledAtMs tid)), b ≤ 0 := by
  unfold moments
  rw [if_pos enabled]
  cases hat : c.enabledAtMs tid with
  | none =>
    simp only [enablementOrder, WithBot.bot_add, elapsedSince, boundariesOf]
    exact ⟨fun _ => ⟨0, List.mem_cons_self, le_refl _⟩, fun _ => ⟨⊥, List.mem_cons_self, bot_le⟩⟩
  | some enabledAt =>
    have reach (bound : Ms) : ((enabledAt : WithBot Ms) + bound ≤ now) ↔
        ((bound - (now - enabledAt) : Ms) : WithTop Ms) ≤ 0 := by
      rw [← WithBot.coe_add, WithBot.coe_le_coe, ← WithTop.coe_zero, WithTop.coe_le_coe]
      constructor <;> intro h <;> linarith
    simp only [enablementOrder, elapsedSince, boundariesOf, List.exists_mem_cons_iff, reach]
    refine or_congr Iff.rfl ?_
    split
    · simp only [List.mem_singleton, exists_eq_left, reach]
    · simp

theorem mem_boundaries {c : Control cfg.net} {now : Ms} {b : WithTop Ms} :
    b ∈ ((List.finRange _).flatMap fun tid =>
        if c.enabledFlags tid then
          boundariesOf (transition tid).timing (elapsedSince now (c.enabledAtMs tid))
        else []) ↔
      ∃ tid, c.enabledFlags tid = true ∧
        b ∈ boundariesOf (transition tid).timing (elapsedSince now (c.enabledAtMs tid)) := by
  simp only [List.mem_flatMap, List.mem_finRange, true_and]
  refine exists_congr fun tid => ?_
  split
  next h => exact ⟨fun hb => ⟨h, hb⟩, And.right⟩
  next h => exact ⟨fun hb => (List.not_mem_nil hb).elim, fun hb => absurd hb.1 h⟩

/-- A moment that has come leaves nothing to wait for. -/
theorem millisUntilNextTimedTransition_of_due {c : Control cfg.net} {now : Ms} (due : Due c now) :
    millisUntilNextTimedTransition now c = 0 := by
  obtain ⟨tid, due⟩ := due
  have enabled : c.enabledFlags tid = true := by
    obtain ⟨moment, hmem, _⟩ := due
    unfold moments at hmem
    split at hmem
    next h => exact h
    next => exact (List.not_mem_nil hmem).elim
  obtain ⟨b, hb, le⟩ := (due_iff_boundary c tid now enabled).mp due
  exact leastBoundary_of_due ⟨b, mem_boundaries.mpr ⟨tid, enabled, hb⟩, le⟩

/-- With no moment come yet, the wait ends no later than the nearest one. -/
theorem millisUntilNextTimedTransition_le {c : Control cfg.net} {now : Ms} (later : ¬ Due c now) :
    0 < millisUntilNextTimedTransition now c ∧
      ∀ tid, ∀ moment : Ms, (moment : WithBot Ms) ∈ moments c tid →
        millisUntilNextTimedTransition now c ≤ ((moment - now : Ms) : WithTop Ms) := by
  have pos : ∀ b ∈ (List.finRange _).flatMap (fun tid =>
      if c.enabledFlags tid then
        boundariesOf (transition tid).timing (elapsedSince now (c.enabledAtMs tid))
      else []), 0 < b := by
    intro b hb
    obtain ⟨tid, enabled, hmem⟩ := mem_boundaries.mp hb
    by_contra reached
    exact later ⟨tid, (due_iff_boundary c tid now enabled).mpr ⟨b, hmem, not_lt.mp reached⟩⟩
  refine ⟨leastBoundary_pos pos (WithTop.coe_lt_top 0), fun tid moment hmem => ?_⟩
  refine (leastBoundary_le pos).2 _ (mem_boundaries.mpr ⟨tid, ?_, boundary_of_moment hmem⟩)
  unfold moments at hmem
  split at hmem
  next h => exact h
  next => exact (List.not_mem_nil hmem).elim

/-! ## Parking -/

variable (B : Backend cfg S)

/-- What `awaitWork` has found when it parks an executor that is not closed. -/
theorem parkOrResume_parked {x x' : Exec cfg S} {race : Race cfg.net}
    (notClosed : x.io.closed = false) (h : (parkOrResume B).run x = (.ok (.parked race), x')) :
    let timerMs := millisUntilNextTimedTransition (cfg.now x.io.nowReads) x.ctl
    race.wakeUp = true ∧
      ¬ (timerMs = 0 ∧ race.flights = []) ∧
      race.flights = (if 0 < B.inFlightSize x.store then B.racing x.store else []) ∧
      race.timer = (if 0 < timerMs then
        if cfg.hasClock then some timerMs else if timerMs < ⊤ then some timerMs else none
        else none) := by
  unfold parkOrResume at h
  rw [Prog.run_gets_bind] at h
  simp only [id, notClosed, Bool.false_and, Bool.false_eq_true, if_false] at h
  generalize hflights : (if 0 < B.inFlightSize x.store then B.racing x.store else []) = flights at h ⊢
  rw [Prog.run_ite] at h
  split at h
  · cases h
  · rw [Prog.run_ite] at h
    split at h
    · cases h
    · have reading : (nowMs : Method cfg S Ms).run x = (.ok (cfg.now x.io.nowReads),
          { x with io := { x.io with nowReads := x.io.nowReads + 1 } }) := rfl
      rw [Prog.run_bind_ok reading, Prog.run_ite] at h
      split at h
      · cases h
      · next waits =>
        cases h
        refine ⟨rfl, ?_, rfl, rfl⟩
        rintro ⟨hzero, hempty⟩
        exact waits (Bool.and_eq_true_iff.mpr ⟨decide_eq_true hzero, List.isEmpty_iff.mpr hempty⟩)

/-- The wait of an executor that is not closed: it does not sleep through a moment to come, and not
at all once one has come and nothing is in flight. -/
def CoversMoments : Prop :=
  ∀ (x x' : Exec cfg S) (race : Race cfg.net), x.io.closed = false →
    (parkOrResume B).run x = (.ok (.parked race), x') →
      (Due x.ctl (cfg.now x.io.nowReads) → race.flights ≠ []) ∧
      (¬ Due x.ctl (cfg.now x.io.nowReads) → ∀ tid, ∀ moment : Ms,
        (moment : WithBot Ms) ∈ moments x.ctl tid → ∃ timer, race.timer = some timer ∧
          timer ≤ ((moment - cfg.now x.io.nowReads : Ms) : WithTop Ms))

theorem coversMoments : CoversMoments B := by
  intro x x' race notClosed h
  obtain ⟨_, sleeps, _, htimer⟩ := parkOrResume_parked B notClosed h
  refine ⟨fun due hempty => ?_, fun later tid moment hmem => ?_⟩
  · exact sleeps ⟨millisUntilNextTimedTransition_of_due due, hempty⟩
  · obtain ⟨pos, le⟩ := millisUntilNextTimedTransition_le later
    refine ⟨_, ?_, le tid moment hmem⟩
    rw [htimer, if_pos pos, if_pos (lt_of_le_of_lt (le tid moment hmem) (WithTop.coe_lt_top _)),
      ite_self]

/-- The wait of both executors, in every state and at every reading of the clock. -/
theorem awaitWork_covers [Value V] [ToString N] (cfg : Setting V N) :
    CoversMoments (BitmapNetExecutor.backend cfg) ∧
      CoversMoments (PrecompiledNetExecutor.backend cfg) :=
  ⟨coversMoments _, coversMoments _⟩

/-! ## After close -/

/-- A transition whose action runs on, and one that is enabled and not yet released. -/
def lateNet : PetriNet (Option Nat) Nat where
  name := "late"
  places := []
  transitions := [
    plain "work" [.one "job"] none .immediate (by decide) (by decide) trivial,
    plain "later" [.one "slot"] none (.delayed 100) (by decide) (by decide) (by decide +kernel)]
  terminals := []
  terminals_declared := nofun

def lateSetting : Setting (Option Nat) Nat :=
  quiet lateNet [("job", [⟨none, 0⟩]), ("slot", [⟨none, 0⟩])]

/-- Closed, the wait holds the completion in flight alone: no timer, although a transition is enabled
and will be released. -/
theorem awaitWork_closed : ∃ m : Machine lateSetting (BitmapStore lateSetting),
    Reachable (BitmapNetExecutor.backend lateSetting) (BitmapNetExecutor.new lateSetting) m ∧
      m.phase = .flush ∧ m.exec.io.wakeUpPending = false ∧
      (∃ tid, m.exec.ctl.enabledFlags tid = true) ∧
      (step (BitmapNetExecutor.backend lateSetting) m .tick).phase =
        .parked { flights := [⟨0, by decide⟩], wakeUp := false, timer := none } := by
  refine ⟨_, ⟨_, rfl, Reaches.foldl (List.replicate 15 .tick ++ .call .close ::
    List.replicate 8 .tick) .start⟩, ?_⟩
  decide +kernel

end LibPetri.Verified
