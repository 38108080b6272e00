import LibPetri.Verified.Construction
import LibPetri.Verified.RunCoherence

/-! # The bookkeeping of the bitmap executor

Along every run without a throwing deposit the four records of the marking agree after each operation.
A projection that throws behind a deposit leaves a marked place without its bit.
-/

namespace LibPetri.Verified

open LibPetri.Basis LibPetri.Core LibPetri.Runtime CompiledNet Executor

variable {V N : Type} [LinearOrder N] [Value V] {cfg : Setting V N} {S : Type}

omit [Value V] in
theorem Built.fresh {B : Backend cfg S} {x : Exec cfg S} (h : Built B x) : Fresh B x := by
  obtain ⟨caches, _, ctl⟩ := h.ctl
  refine ⟨⟨?_, ?_, fun tid => ?_⟩, ?_⟩
  · rw [ctl]
    simp [constructed]
  · rw [ctl]
    exact fun _ enabled => Bool.noConfusion enabled
  · rw [ctl, h.flights tid]
    rfl
  · rw [ctl]
    rfl

/-- Every state of a run whose deposits go through is coherent in the sense of its program point. -/
theorem coherentAt_of_reachable {B : Backend cfg S} {verdict : Tid cfg.net → Flight V N → Except Thrown Unit}
    (conforms : Conforms B verdict) {new : Except Thrown (Exec cfg S)}
    (built : ∀ x, new = .ok x → Built B x) {m : Machine cfg S}
    (h : ReachableBy B new (CleanDeposits B verdict) m) : CoherentAt B m.phase m.exec :=
  h.invariant (I := fun m => CoherentAt B m.phase m.exec) (fun x hx => (built x hx).fresh)
    fun _ _ hm clean => coherentAt_step conforms hm clean

omit [Value V] in
theorem CoherentAt.coherent {B : Backend cfg S} {phase : Phase cfg.net} {x : Exec cfg S}
    (h : CoherentAt B phase x) (started : phase ≠ .created) (stands : ∀ e, phase ≠ .crashed e) :
    Coherent B x := by
  cases phase with
  | created => exact absurd rfl started
  | crashed e => exact absurd rfl (stands e)
  | deadlines => exact h.toCoherent
  | firingGeneral rest snap => exact h.toCoherent
  | _ => exact h

/-- What the executor records of its marking, as one statement: bits, count, flags, and the
transitions it knows to need another look. -/
def Bookkeeping (B : Backend cfg S) (m : Machine cfg S) : Prop :=
  (∀ p ∈ placesById cfg.net,
    m.exec.ctl.markingBitmap.testBit (placeId cfg.net p) = true ↔ B.queue p m.exec.store ≠ []) ∧
  m.exec.ctl.enabledTransitionCount =
    ((Finset.univ.filter fun tid => m.exec.ctl.enabledFlags tid = true).card : Int) ∧
  (∀ tid, ¬ (m.exec.ctl.enabledFlags tid = true ∧ m.exec.ctl.inFlightFlags tid = true)) ∧
  (∀ tid, canEnable B tid m.exec.ctl.markingBitmap m.exec ≠ .ok (m.exec.ctl.enabledFlags tid) →
    m.exec.ctl.dirtySet.testBit tid = true ∨ m.exec.ctl.inFlightFlags tid = true ∨
      Reaped tid m.exec.history) ∧
  -- directly after the dirty scan
  (m.phase = .deadlines → ∀ tid, m.exec.ctl.inFlightFlags tid = false → ¬ Reaped tid m.exec.history →
    canEnable B tid m.exec.ctl.markingBitmap m.exec = .ok (m.exec.ctl.enabledFlags tid))

omit [Value V] in
theorem CoherentAt.bookkeeping {B : Backend cfg S} {m : Machine cfg S} (h : CoherentAt B m.phase m.exec)
    (started : m.phase ≠ .created) (stands : ∀ e, m.phase ≠ .crashed e) : Bookkeeping B m := by
  have coherent := CoherentAt.coherent h started stands
  refine ⟨fun p known => ?_, coherent.counted, fun tid both => ?_, fun tid differs => ?_, fun scanned tid => ?_⟩
  · rw [coherent.marked p known]
    cases B.queue p m.exec.store <;> simp
  · have idle := coherent.exclusive tid both.1
    rw [both.2] at idle
    cases idle
  · exact (coherent.settled tid).resolve_left differs
  · rw [scanned] at h
    intro idle alive
    rcases h.clear tid with agrees | inFlight | reaped
    · exact agrees
    · rw [inFlight] at idle
      cases idle
    · exact absurd reaped alive

theorem bitmap_bookkeeping [ToString N] {m : Machine cfg (BitmapStore cfg)}
    (h : ReachableBy (BitmapNetExecutor.backend cfg) (BitmapNetExecutor.new cfg)
      (CleanDeposits (BitmapNetExecutor.backend cfg) BitmapNetExecutor.verdict) m)
    (started : m.phase ≠ .created) (stands : ∀ e, m.phase ≠ .crashed e) :
    Bookkeeping (BitmapNetExecutor.backend cfg) m :=
  (coherentAt_of_reachable BitmapNetExecutor.conforms (fun _ hx => (BitmapNetExecutor.built hx).1)
    h).bookkeeping started stands

theorem nothing_declared : ∀ p ∈ ([] : List PlaceName), p ∈ ([] : List PlaceName) :=
  fun _ mem => mem

/-- An executor whose host injects into "left". -/
def joinSetting : Setting (Option Nat) Nat :=
  { quiet ⟨"join", [], [join], [], nothing_declared⟩ [] with environmentPlaces := ["left"] }

/-- A value with a number is admitted, and its place is marked. -/
theorem bitmap_bookkeeping_admitted : ∃ m : Machine joinSetting (BitmapStore joinSetting),
    m.phase = .deadlines ∧ (BitmapNetExecutor.backend joinSetting).queue "left" m.exec.store ≠ [] ∧
      Bookkeeping (BitmapNetExecutor.backend joinSetting) m := by
  have admitted : ∃ m, ReachableBy (BitmapNetExecutor.backend joinSetting)
      (BitmapNetExecutor.new joinSetting)
      (CleanDeposits (BitmapNetExecutor.backend joinSetting) BitmapNetExecutor.verdict) m ∧
        m.phase = .deadlines ∧ (BitmapNetExecutor.backend joinSetting).queue "left" m.exec.store ≠ [] :=
    ⟨_, ⟨_, rfl, Reaches.foldl_allOk
      [.call (.inject "left" ⟨some 1, 0⟩), .tick, .tick, .tick, .tick, .tick] (by decide +kernel) .start⟩,
      by decide +kernel, by decide +kernel⟩
  obtain ⟨m, reachable, scanned, nonempty⟩ := admitted
  refine ⟨m, scanned, nonempty, bitmap_bookkeeping reachable (fun h => ?_) fun e h => ?_⟩
  · rw [scanned] at h
    cases h
  · rw [scanned] at h
    cases h

/-! ## A deposit that throws -/

/-- Injects a value the projection throws on, and runs until the event is admitted. -/
def throwingInjection : List (Label joinSetting) :=
  [.call (.inject "left" ⟨some 0, 0⟩), .tick, .tick, .tick, .tick]

/-- The token is in its queue, and its place is not marked. -/
theorem bitmap_unmarked : ∃ m : Machine joinSetting (BitmapStore joinSetting),
    Reachable (BitmapNetExecutor.backend joinSetting) (BitmapNetExecutor.new joinSetting) m ∧
      m.phase = .scan ∧ ¬ Bookkeeping (BitmapNetExecutor.backend joinSetting) m := by
  refine ⟨_, ⟨_, rfl, Reaches.foldl throwingInjection .start⟩, by decide +kernel, fun h => ?_⟩
  have marked := (h.1 "left" (by decide +kernel)).mpr (by decide +kernel)
  revert marked
  decide +kernel

end LibPetri.Verified
