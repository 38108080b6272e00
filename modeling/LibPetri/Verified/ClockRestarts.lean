import LibPetri.Verified.Backends
import LibPetri.Verified.Reachable

/-! # Clock restarts

A firing can disable a transition by the tokens it takes, though its deposits enable it again.  The
clock of such a transition has to restart, so the executors look for it on the intermediate marking.
The search visits the consumed places alone, and skips one that still holds its restart threshold.
-/

namespace LibPetri.Verified

open LibPetri.Basis LibPetri.Core LibPetri.Runtime CompiledNet Executor

variable {V N : Type}

/-! ## Thresholds -/

section Thresholds

variable {net : PetriNet V N} {pid : Nat} {r r' r'' : Restart net} {tid other : Tid net}

/-- The transition has been counted among those that require the place. -/
def Counted (tid : Tid net) : Requirer net → Prop
  | .none => False
  | .one found => found = tid
  | .several => True

/-- `r'` has gathered whatever `r` has. -/
structure Gathered (r r' : Restart net) : Prop where
  threshold : r.threshold ≤ r'.threshold
  requirer : ∀ tid, Counted tid r.requirer → Counted tid r'.requirer
  drained : r.drained = true → r'.drained = true

theorem Gathered.refl (r : Restart net) : Gathered r r := ⟨le_refl _, fun _ => id, id⟩

theorem Gathered.trans (h : Gathered r r') (h' : Gathered r' r'') : Gathered r r'' :=
  ⟨h.threshold.trans h'.threshold, fun tid => h'.requirer tid ∘ h.requirer tid, h'.drained ∘ h.drained⟩

theorem Gathered.foldl {α : Type} {f : Restart net → α → Restart net} (step : ∀ r a, Gathered r (f r a))
    (items : List α) (r : Restart net) : Gathered r (items.foldl f r) :=
  List.foldlRecOn items f (Gathered.refl r) fun _ h a _ => h.trans (step _ a)

/-- A fold that only gathers keeps what one of its rounds has found. -/
theorem Gathered.of_mem {α : Type} {f : Restart net → α → Restart net} (step : ∀ r a, Gathered r (f r a))
    {P : Restart net → Prop} (rises : ∀ r r', Gathered r r' → P r → P r') {items : List α} {a : α}
    (mem : a ∈ items) (found : ∀ r, P (f r a)) (r : Restart net) : P (items.foldl f r) :=
  foldl_establishes (Q := fun _ => True) mem (fun _ _ _ _ => trivial) (fun r _ => found r)
    (fun a _ r _ h => rises r _ (step r a) h) trivial

theorem Gathered.require (r : Restart net) (tid : Tid net) (required : Nat) :
    Gathered r (r.require tid required) where
  threshold := le_max_left _ _
  requirer other counted := by
    unfold Restart.require
    cases h : r.requirer with
    | none =>
      rw [h] at counted
      exact counted.elim
    | one found =>
      rw [h] at counted
      simp only [Requirer.requires]
      split
      next same => exact same.symm.trans counted
      next => exact trivial
    | several => exact trivial
  drained := id

theorem counted_requires (tid : Tid net) (r : Requirer net) : Counted tid (r.requires tid) := by
  cases r with
  | none => rfl
  | one found =>
    simp only [Requirer.requires]
    split
    · rfl
    · trivial
  | several => trivial

/-- The transition requires `required` tokens, and the summary says so. -/
def Knows (tid : Tid net) (required : Nat) (r : Restart net) : Prop :=
  (required : WithTop Nat) ≤ r.threshold ∧ Counted tid r.requirer

theorem Knows.gathered {required : Nat} (h : Knows tid required r) (more : Gathered r r') :
    Knows tid required r' := ⟨h.1.trans more.threshold, more.requirer tid h.2⟩

theorem knows_require (r : Restart net) (tid : Tid net) (required : Nat) :
    Knows tid required (r.require tid required) := ⟨le_max_right _ _, counted_requires tid _⟩

/-! A round is taken apart into what it gathers of the inputs, of the reads, of the resets and of the
keys. -/

def afterInputs (pid : Nat) (tid : Tid net) (r : Restart net) : Restart net :=
  (transition tid).inputSpecs.foldl (fun r spec =>
    if placeId net spec.place = pid then r.require tid spec.requiredCount else r) r

def afterReads (pid : Nat) (tid : Tid net) (r : Restart net) : Restart net :=
  (transition tid).reads.foldl (fun r p => if placeId net p = pid then r.require tid 1 else r) r

def afterResets (pid : Nat) (tid : Tid net) (r : Restart net) : Restart net :=
  if pid ∈ (transition tid).resets.map (placeId net) then { r with drained := true } else r

def afterKeys (pid : Nat) (tid : Tid net) (r : Restart net) : Restart net :=
  match (transition tid).matchSpec with
  | some ms => if pid ∈ ms.keys.map (fun k => placeId net k.place) then { r with threshold := ⊤ } else r
  | none => r

theorem step_eq (pid : Nat) (r : Restart net) (tid : Tid net) : Restart.step pid r tid =
    afterKeys pid tid (afterResets pid tid (afterReads pid tid (afterInputs pid tid r))) := rfl

theorem gathered_input (pid : Nat) (tid : Tid net) (r : Restart net) (spec : In) : Gathered r
    (if placeId net spec.place = pid then r.require tid spec.requiredCount else r) := by
  split
  · exact Gathered.require r tid _
  · exact Gathered.refl r

theorem gathered_read (pid : Nat) (tid : Tid net) (r : Restart net) (p : PlaceName) : Gathered r
    (if placeId net p = pid then r.require tid 1 else r) := by
  split
  · exact Gathered.require r tid _
  · exact Gathered.refl r

theorem gathered_afterInputs (pid : Nat) (tid : Tid net) (r : Restart net) :
    Gathered r (afterInputs pid tid r) := Gathered.foldl (gathered_input pid tid) _ r

theorem gathered_afterReads (pid : Nat) (tid : Tid net) (r : Restart net) :
    Gathered r (afterReads pid tid r) := Gathered.foldl (gathered_read pid tid) _ r

theorem gathered_afterResets (pid : Nat) (tid : Tid net) (r : Restart net) :
    Gathered r (afterResets pid tid r) := by
  unfold afterResets
  split
  · exact ⟨le_refl _, fun _ => id, fun _ => rfl⟩
  · exact Gathered.refl r

theorem gathered_afterKeys (pid : Nat) (tid : Tid net) (r : Restart net) :
    Gathered r (afterKeys pid tid r) := by
  unfold afterKeys
  cases (transition tid).matchSpec with
  | none => exact Gathered.refl r
  | some ms =>
    dsimp only
    split
    · exact ⟨le_top, fun _ => id, id⟩
    · exact Gathered.refl r

theorem gathered_step (pid : Nat) (r : Restart net) (tid : Tid net) :
    Gathered r (Restart.step pid r tid) := by
  have inputs := gathered_afterInputs pid tid r
  have reads := inputs.trans (gathered_afterReads pid tid _)
  have resets := reads.trans (gathered_afterResets pid tid _)
  exact resets.trans (gathered_afterKeys pid tid _)

theorem knows_input {spec : In} (hspec : spec ∈ (transition tid).inputSpecs) (r : Restart net) :
    Knows tid spec.requiredCount (Restart.step (placeId net spec.place) r tid) := by
  have here : Knows tid spec.requiredCount (afterInputs (placeId net spec.place) tid r) := by
    refine Gathered.of_mem (gathered_input _ tid) (fun _ _ more h => h.gathered more) hspec
      (fun r => ?_) r
    rw [if_pos rfl]
    exact knows_require r tid _
  have reads := here.gathered (gathered_afterReads (placeId net spec.place) tid _)
  have resets := reads.gathered (gathered_afterResets (placeId net spec.place) tid _)
  exact resets.gathered (gathered_afterKeys _ tid _)

theorem knows_read {p : PlaceName} (hp : p ∈ (transition tid).reads) (r : Restart net) :
    Knows tid 1 (Restart.step (placeId net p) r tid) := by
  have here : Knows tid 1 (afterReads (placeId net p) tid (afterInputs (placeId net p) tid r)) := by
    refine Gathered.of_mem (gathered_read _ tid) (fun _ _ more h => h.gathered more) hp
      (fun r => ?_) _
    rw [if_pos rfl]
    exact knows_require r tid _
  have resets := here.gathered (gathered_afterResets (placeId net p) tid _)
  exact resets.gathered (gathered_afterKeys _ tid _)

theorem drained_reset {p : PlaceName} (hp : p ∈ (transition tid).resets) (r : Restart net) :
    (Restart.step (placeId net p) r tid).drained = true := by
  rw [step_eq]
  apply (gathered_afterKeys _ tid _).drained
  rw [afterResets, if_pos (List.mem_map_of_mem hp)]

theorem unbounded_key {ms : MatchSpec V N} (matched : (transition tid).matchSpec = some ms)
    {k : MatchKey V N} (hk : k ∈ ms.keys) (r : Restart net) :
    (Restart.step (placeId net k.place) r tid).threshold = ⊤ := by
  have key : placeId net k.place ∈ ms.keys.map fun k => placeId net k.place := List.mem_map_of_mem hk
  rw [step_eq, afterKeys, matched]
  dsimp only
  rw [if_pos key]

variable (net) in
/-- The summary of a place over all transitions. -/
def gathering (pid : Nat) : Restart net :=
  (List.finRange _).foldl (Restart.step pid) ⟨0, .none, false⟩

/-- What the round of one transition finds is in the summary. -/
theorem gathering_finds {P : Restart net → Prop} (rises : ∀ r r', Gathered r r' → P r → P r')
    (tid : Tid net) (found : ∀ r, P (Restart.step pid r tid)) : P (gathering net pid) :=
  Gathered.of_mem (gathered_step pid) rises (List.mem_finRange tid) found _

theorem gathering_input {spec : In} (hspec : spec ∈ (transition tid).inputSpecs) :
    Knows tid spec.requiredCount (gathering net (placeId net spec.place)) :=
  gathering_finds (fun _ _ more h => h.gathered more) tid (knows_input hspec)

theorem gathering_read {p : PlaceName} (hp : p ∈ (transition tid).reads) :
    Knows tid 1 (gathering net (placeId net p)) :=
  gathering_finds (fun _ _ more h => h.gathered more) tid (knows_read hp)

theorem gathering_reset {p : PlaceName} (hp : p ∈ (transition tid).resets) :
    (gathering net (placeId net p)).drained = true :=
  gathering_finds (fun _ _ more h => more.drained h) tid (drained_reset hp)

theorem gathering_key {ms : MatchSpec V N} (matched : (transition tid).matchSpec = some ms)
    {k : MatchKey V N} (hk : k ∈ ms.keys) : (gathering net (placeId net k.place)).threshold = ⊤ :=
  gathering_finds (fun _ _ more h => top_le_iff.mp (h ▸ more.threshold)) tid (unbounded_key matched hk)

/-- Two transitions are two requirers. -/
theorem several_of_counted {r : Requirer net} (ne : other ≠ tid) (one : Counted tid r)
    (two : Counted other r) : r = .several := by
  cases r with
  | none => exact one.elim
  | one found => exact absurd (two.symm.trans one) ne
  | several => rfl

/-- A place that one transition requires and another takes from has the threshold gathered for it. -/
theorem restartThreshold_shared {p : PlaceName} (consumes : Consumes tid p) (ne : other ≠ tid)
    (counted : Counted other (gathering net (placeId net p)).requirer) :
    restartThreshold net (placeId net p) = (gathering net (placeId net p)).threshold := by
  unfold restartThreshold
  rw [← gathering]
  dsimp only
  rcases consumes with taken | emptied
  · obtain ⟨spec, hspec, rfl⟩ := List.mem_map.mp taken
    rw [several_of_counted ne (gathering_input hspec).2 counted]
  · rw [gathering_reset emptied]
    cases (gathering net (placeId net p)).requirer <;> rfl

end Thresholds

/-! ## Enablement in a marking -/

variable [LinearOrder N]

/-- The transition is enabled in the marking. -/
structure EnabledIn (t : Transition V N) (queue : PlaceName → List (Token V)) : Prop where
  inputs : ∀ spec ∈ t.inputSpecs, spec.requiredCount ≤ (queue spec.place).length
  reads : ∀ p ∈ t.reads, queue p ≠ []
  inhibitors : ∀ p ∈ t.inhibitors, queue p = []
  binding : ∀ ms ∈ t.matchSpec, ∃ name, findBinding t queue = .ok (some name)

/-- What is missing of the transition in the place `p`. -/
def LacksIn (t : Transition V N) (queue : PlaceName → List (Token V)) (p : PlaceName) : Prop :=
  (∃ spec ∈ t.inputSpecs, spec.place = p ∧ (queue p).length < spec.requiredCount) ∨
    (p ∈ t.reads ∧ queue p = []) ∨
    ∃ ms ∈ t.matchSpec, (∃ k ∈ ms.keys, k.place = p) ∧ findBinding t queue = .ok none

/-- A key that has a name, or none, for every token of a queue has one for every token of a part. -/
theorem buildNameIndexFrom_sublist {key : KeyFn V N} {part queue : List (Token V)}
    (sub : part.Sublist queue) {index index' : OrderedMap N NameStat}
    (whole : ∃ all, buildNameIndexFrom key queue index = .ok all) :
    ∃ some, buildNameIndexFrom key part index' = .ok some := by
  induction sub generalizing index index' with
  | slnil => exact ⟨index', rfl⟩
  | cons token _ ih =>
    obtain ⟨all, whole⟩ := whole
    obtain ⟨found, _, rest⟩ := exists_of_bind_eq_ok whole
    cases found with
    | none => exact ih ⟨all, rest⟩
    | some name => exact ih ⟨all, rest⟩
  | cons_cons token _ ih =>
    obtain ⟨all, whole⟩ := whole
    obtain ⟨found, named, rest⟩ := exists_of_bind_eq_ok whole
    rw [buildNameIndexFrom, named]
    cases found with
    | none => exact ih ⟨all, rest⟩
    | some name => exact ih ⟨all, rest⟩

theorem mapM_ok {α β γ ε : Type} {f : α → Except ε β} {g : α → Except ε γ} {l : List α} {bs : List β}
    (each : ∀ a ∈ l, (∃ b, f a = .ok b) → ∃ c, g a = .ok c) (all : l.mapM f = .ok bs) :
    ∃ cs, l.mapM g = .ok cs := by
  induction l generalizing bs with
  | nil => exact ⟨[], rfl⟩
  | cons a l ih =>
    rw [List.mapM_cons] at all
    obtain ⟨b, first, all⟩ := exists_of_bind_eq_ok all
    obtain ⟨rest, all, _⟩ := exists_of_bind_eq_ok all
    obtain ⟨c, here⟩ := each a List.mem_cons_self ⟨b, first⟩
    obtain ⟨cs, later⟩ := ih (fun a mem => each a (List.mem_cons_of_mem _ mem)) all
    exact ⟨c :: cs, by rw [List.mapM_cons, here, later]; rfl⟩

/-- Fewer tokens leave the search without an exception. -/
theorem findBinding_sublist {t : Transition V N} {queue queue' : PlaceName → List (Token V)}
    (sub : ∀ p, (queue' p).Sublist (queue p)) {found : Option N}
    (searched : findBinding t queue = .ok found) : ∃ found', findBinding t queue' = .ok found' := by
  unfold findBinding at searched ⊢
  cases matched : t.matchSpec with
  | none => exact ⟨none, rfl⟩
  | some ms =>
    simp only [matched] at searched ⊢
    obtain ⟨indexes, indexed, _⟩ := exists_of_bind_eq_ok searched
    obtain ⟨parts, indexed'⟩ := mapM_ok (g := fun k => buildNameIndex (queue' k.place) k.key)
      (fun k _ whole => buildNameIndexFrom_sublist (sub k.place) whole) indexed
    rw [indexed']
    exact ⟨_, rfl⟩

/-- The search looks at the correlated inputs alone. -/
theorem findBinding_congr_keys {t : Transition V N} {queue queue' : PlaceName → List (Token V)}
    (same : ∀ ms ∈ t.matchSpec, ∀ k ∈ ms.keys, queue' k.place = queue k.place) :
    findBinding t queue' = findBinding t queue := by
  unfold findBinding
  cases matched : t.matchSpec with
  | none => rfl
  | some ms =>
    have keys := mapM_congr (f := fun k => buildNameIndex (queue' k.place) k.key)
      (g := fun k => buildNameIndex (queue k.place) k.key) (l := ms.keys) fun k hk => by
        rw [same ms matched k hk]
    simp only [keys]

/-- Fewer tokens disable a transition only in a place that has lost some. -/
theorem exists_lacksIn {t : Transition V N} {queue queue' : PlaceName → List (Token V)}
    (enabled : EnabledIn t queue) (sub : ∀ p, (queue' p).Sublist (queue p))
    (disabled : ¬ EnabledIn t queue') : ∃ p, queue' p ≠ queue p ∧ LacksIn t queue' p := by
  by_contra none_lacks
  push Not at none_lacks
  apply disabled
  constructor
  · intro spec hspec
    by_contra few
    rw [not_le] at few
    by_cases same : queue' spec.place = queue spec.place
    · rw [same] at few
      exact absurd (enabled.inputs spec hspec) (not_le.mpr few)
    · exact none_lacks _ same (Or.inl ⟨spec, hspec, rfl, few⟩)
  · intro p hp empty
    by_cases same : queue' p = queue p
    · exact enabled.reads p hp (same ▸ empty)
    · exact none_lacks p same (Or.inr (Or.inl ⟨hp, empty⟩))
  · intro p hp
    have := sub p
    rwa [enabled.inhibitors p hp, List.sublist_nil] at this
  · intro ms matched
    obtain ⟨name, found⟩ := enabled.binding ms matched
    obtain ⟨found', searched⟩ := findBinding_sublist sub found
    cases found' with
    | some name' => exact ⟨name', searched⟩
    | none =>
      by_cases same : ∀ k ∈ ms.keys, queue' k.place = queue k.place
      · have unchanged : findBinding t queue' = findBinding t queue := by
          refine findBinding_congr_keys fun ms' matched' => ?_
          obtain rfl := Option.some.inj (matched.symm.trans matched')
          exact same
        rw [unchanged, found] at searched
        cases searched
      · push Not at same
        obtain ⟨k, hk, changed⟩ := same
        exact absurd (Or.inr (Or.inr ⟨ms, matched, ⟨k, hk, rfl⟩, searched⟩)) (none_lacks _ changed)

theorem LacksIn.not_enabledIn {t : Transition V N} {queue : PlaceName → List (Token V)} {p : PlaceName}
    (lacks : LacksIn t queue p) : ¬ EnabledIn t queue := by
  intro enabled
  rcases lacks with ⟨spec, hspec, rfl, few⟩ | ⟨hp, empty⟩ | ⟨ms, matched, _, unbound⟩
  · exact absurd (enabled.inputs spec hspec) (not_le.mpr few)
  · exact enabled.reads p hp empty
  · obtain ⟨name, found⟩ := enabled.binding ms matched
    rw [unbound] at found
    cases found

/-- A place in which something is missing of another transition is below its threshold. -/
theorem lt_restartThreshold {net : PetriNet V N} {tid other : Tid net} {p : PlaceName}
    {queue : PlaceName → List (Token V)} (consumes : Consumes tid p) (ne : other ≠ tid)
    (lacks : LacksIn (transition other) queue p) :
    ((queue p).length : WithTop Nat) < restartThreshold net (placeId net p) := by
  rcases lacks with ⟨spec, hspec, rfl, few⟩ | ⟨hp, empty⟩ | ⟨ms, matched, ⟨k, hk, rfl⟩, _⟩
  · have known := gathering_input hspec
    rw [restartThreshold_shared consumes ne known.2]
    exact lt_of_lt_of_le (by exact_mod_cast few) known.1
  · have known := gathering_read hp
    rw [restartThreshold_shared consumes ne known.2, empty]
    exact lt_of_lt_of_le (by exact_mod_cast Nat.zero_lt_one) known.1
  · obtain ⟨spec, hspec, same⟩ := List.mem_map.mp ((transition other).keys_inputs ms matched k hk)
    have known := gathering_input hspec
    rw [same] at known
    rw [restartThreshold_shared consumes ne known.2, gathering_key matched hk]
    exact WithTop.coe_lt_top _

/-! ## The scan -/

variable {cfg : Setting V N} {S : Type}

/-- A restart of the clock of the transition is due. -/
def RestartPending (x : Exec cfg S) (tid : Tid cfg.net) : Prop :=
  x.ctl.anyRestartPending = true ∧ x.ctl.restartPendingWords.testBit tid = true

/-- The flags say what is enabled, but for the transitions that wait for a restart, and a cache names
the binding that a search would find. -/
structure EnabledState (B : Backend cfg S) (x : Exec cfg S) : Prop where
  marked : ∀ p ∈ placesById cfg.net, Marked B x p
  announced : ∀ tid : Tid cfg.net, x.ctl.restartPendingWords.testBit tid = true →
    x.ctl.anyRestartPending = true
  enabled : ∀ tid, x.ctl.enabledFlags tid = true → x.ctl.inFlightFlags tid = false →
    ¬ RestartPending x tid → EnabledIn (transition tid) fun p => B.queue p x.store
  cached : ∀ tid cache, x.ctl.matchCaches tid = some cache → (cacheRequireds tid).isSome = true ∧
    findBinding (transition tid) (fun p => B.queue p x.store) = .ok cache.best

theorem isSome_of_mapM {α β : Type} {f : α → Option β} {l : List α} (all : (l.mapM f).isSome = true)
    {a : α} (mem : a ∈ l) : (f a).isSome = true := by
  induction l with
  | nil => cases mem
  | cons b l ih =>
    rw [List.mapM_cons] at all
    cases here : f b with
    | none =>
      rw [here] at all
      cases all
    | some found =>
      rcases List.mem_cons.mp mem with rfl | later
      · rw [here]
        rfl
      · refine ih ?_ later
        cases rest : l.mapM f with
        | none =>
          rw [here, rest] at all
          cases all
        | some _ => rfl

omit [LinearOrder N] in
/-- A join with a cache is the only one to take from its correlated inputs. -/
theorem consumer_of_cached {tid other : Tid cfg.net} (cached : (cacheRequireds other).isSome = true)
    {ms : MatchSpec V N} (matched : (transition other).matchSpec = some ms) {k : MatchKey V N}
    (hk : k ∈ ms.keys) (consumes : Consumes tid k.place) : other = tid := by
  unfold cacheRequireds at cached
  rw [matched] at cached
  have key := isSome_of_mapM cached hk
  dsimp only at key
  split at key
  · cases key
  next alone =>
    simp only [Bool.or_eq_true, not_or, bne_iff_ne, ne_eq, Decidable.not_not, Bool.not_eq_true] at alone
    obtain ⟨kept, only⟩ := alone
    rcases consumes with taken | emptied
    · obtain ⟨spec, hspec, same⟩ := List.mem_map.mp taken
      have consumer : tid ∈ (List.finRange (transitionCount cfg.net)).flatMap
          fun other : Tid cfg.net => (transition other).inputSpecs.filterMap fun spec =>
            if placeId cfg.net spec.place = placeId cfg.net k.place then some other else none := by
        refine List.mem_flatMap.mpr ⟨tid, List.mem_finRange tid, List.mem_filterMap.mpr ⟨spec, hspec, ?_⟩⟩
        rw [same, if_pos rfl]
      rw [only] at consumer
      exact (List.mem_singleton.mp consumer).symm
    · rw [List.any_eq_false] at kept
      have target := kept tid (List.mem_finRange tid)
      rw [decide_eq_true_eq] at target
      exact absurd (List.mem_map_of_mem emptied) target

variable {B : Backend cfg S} {tid other : Tid cfg.net} {x z : Exec cfg S}

/-- In the middle of a firing, another transition's cache still names what a search would find. -/
theorem EnabledState.bindingOf_eq (state : EnabledState B x) (mid : MidFire B tid x z) (ne : other ≠ tid) :
    bindingOf B.toStoreOps other z = findBinding (transition other) fun p => B.queue p z.store := by
  unfold bindingOf
  rw [mid.caches other ne]
  cases hcache : x.ctl.matchCaches other with
  | none => rfl
  | some cache =>
    obtain ⟨cached, names⟩ := state.cached other cache hcache
    dsimp only
    rw [← names]
    refine (findBinding_congr_keys fun ms matched k hk => mid.elsewhere k.place ?_).symm
    exact fun consumes => ne (consumer_of_cached cached matched hk consumes)

/-- A bit on the way is the one of the queue, or still the one the firing began with. -/
theorem EnabledState.bit (state : EnabledState B x) (mid : MidFire B tid x z) {p : PlaceName}
    (known : p ∈ placesById cfg.net) :
    z.ctl.markingBitmap.testBit (placeId cfg.net p) = !(B.queue p z.store).isEmpty ∨
      z.ctl.markingBitmap.testBit (placeId cfg.net p) = !(B.queue p x.store).isEmpty :=
  (mid.bits p known).imp id fun same => same.trans (state.marked p known)

/-- What was enabled and still is passes the check, whatever bits are behind. -/
theorem EnabledState.canEnable_of_enabledIn (state : EnabledState B x) (masks : ByMasks B)
    (mid : MidFire B tid x z) (ne : other ≠ tid)
    (before : EnabledIn (transition other) fun p => B.queue p x.store)
    (now : EnabledIn (transition other) fun p => B.queue p z.store) :
    canEnable B other z.ctl.markingBitmap z = .ok true := by
  have nonempty {queue : List (Token V)} (some_token : queue ≠ []) :
      (!queue.isEmpty) = true := by
    cases queue with
    | nil => exact absurd rfl some_token
    | cons _ _ => rfl
  have filled {p : PlaceName} (known : p ∈ placesById cfg.net) (was : B.queue p x.store ≠ [])
      (is : B.queue p z.store ≠ []) : z.ctl.markingBitmap.testBit (placeId cfg.net p) = true := by
    rcases state.bit mid known with bit | bit
    · rw [bit, nonempty is]
    · rw [bit, nonempty was]
  have input {spec : In} {queue : PlaceName → List (Token V)} (h : EnabledIn (transition other) queue)
      (hspec : spec ∈ (transition other).inputSpecs) : queue spec.place ≠ [] := by
    intro empty
    have enough := h.inputs spec hspec
    have positive := (transition other).required_pos spec hspec
    rw [empty, List.length_nil] at enough
    omega
  have mask : canEnableBitmap other z.ctl.markingBitmap = true := by
    rw [canEnableBitmap_iff]
    refine ⟨fun p needed => ?_, fun p hp => ?_⟩
    · rcases needed with hp | hp
      · obtain ⟨spec, hspec, rfl⟩ := List.mem_map.mp hp
        exact filled (known_of_input hspec) (input before hspec) (input now hspec)
      · exact filled (known_of_read hp) (before.reads p hp) (now.reads p hp)
    · rcases state.bit mid (known_of_inhibitor hp) with bit | bit
      · have empty : B.queue p z.store = [] := now.inhibitors p hp
        rw [bit, empty]
        rfl
      · have empty : B.queue p x.store = [] := before.inhibitors p hp
        rw [bit, empty]
        rfl
  have cardinality : hasCardinality B other z = true :=
    (hasCardinality_iff B other z).mpr fun _ spec hspec => now.inputs spec hspec
  unfold canEnable
  rw [masks, mask, cardinality]
  simp only [Bool.not_true, Bool.false_eq_true, if_false]
  cases matched : (transition other).matchSpec with
  | none =>
    rw [if_neg (by rw [hasMatch, matched]; exact Bool.false_ne_true)]
  | some ms =>
    obtain ⟨name, found⟩ := now.binding ms matched
    rw [if_pos (by rw [hasMatch, matched]; rfl), state.bindingOf_eq mid ne, found]
    rfl

/-- The check of a transition that was enabled does not throw. -/
theorem EnabledState.canEnable_ok (state : EnabledState B x) (mid : MidFire B tid x z) (ne : other ≠ tid)
    (before : EnabledIn (transition other) fun p => B.queue p x.store)
    (snap : Bitset (placeCount cfg.net)) : ∃ b, canEnable B other snap z = .ok b := by
  unfold canEnable
  split
  · exact ⟨false, rfl⟩
  split
  · exact ⟨false, rfl⟩
  split
  next correlated =>
    obtain ⟨ms, matched⟩ := Option.isSome_iff_exists.mp correlated
    obtain ⟨name, found⟩ := before.binding ms matched
    obtain ⟨found', searched⟩ := findBinding_sublist mid.shrinks found
    rw [state.bindingOf_eq mid ne, searched]
    exact ⟨found'.isSome, rfl⟩
  · exact ⟨true, rfl⟩

/-- Once the bit of the place is right, the check sees what is missing there. -/
theorem EnabledState.not_canEnable (state : EnabledState B x) (masks : ByMasks B)
    (mid : MidFire B tid x z) (ne : other ≠ tid) {p : PlaceName} (marked : Marked B z p)
    (lacks : LacksIn (transition other) (fun p => B.queue p z.store) p) :
    canEnable B other z.ctl.markingBitmap z ≠ .ok true := by
  intro passes
  unfold canEnable at passes
  split at passes
  · cases passes
  next mask =>
  split at passes
  · cases passes
  next cardinality =>
  simp only [Bool.not_eq_true, Bool.not_eq_false', masks other] at mask cardinality
  have needed := ((canEnableBitmap_iff other _).mp mask).1
  have filled (hp : p ∈ (transition other).inputSpecs.map In.place ∨ p ∈ (transition other).reads) :
      B.queue p z.store ≠ [] := by
    have bit := needed p hp
    rw [marked] at bit
    intro empty
    rw [empty] at bit
    cases bit
  rcases lacks with ⟨spec, hspec, rfl, few⟩ | ⟨hp, empty⟩ | ⟨ms, matched, _, unbound⟩
  · by_cases counts : (transition other).inputSpecs.any In.needsCardinality = true
    · have enough := (hasCardinality_iff B other z).mp cardinality counts spec hspec
      exact absurd enough (not_le.mpr few)
    -- every input is a plain `one`, so an empty place is all that can be missing
    · have plain : spec.requiredCount = 1 := by
        rw [List.any_eq_true] at counts
        cases spec with
        | one p => rfl
        | exactly _ _ => exact absurd ⟨_, hspec, rfl⟩ counts
        | all _ => exact absurd ⟨_, hspec, rfl⟩ counts
        | atLeast _ _ => exact absurd ⟨_, hspec, rfl⟩ counts
      rw [plain, Nat.lt_one_iff, List.length_eq_zero_iff] at few
      exact filled (Or.inl (List.mem_map_of_mem hspec)) few
  · exact filled (Or.inr hp) empty
  · rw [if_pos (by rw [hasMatch, matched]; rfl), state.bindingOf_eq mid ne, unbound] at passes
    cases passes

/-- Enabled when the firing of `tid` begins, and not in flight. -/
structure RestartCandidate (tid : Tid cfg.net) (x : Exec cfg S) (other : Tid cfg.net) : Prop where
  enabled : x.ctl.enabledFlags other = true
  idle : x.ctl.inFlightFlags other = false
  other : other ≠ tid

/-- What the firing of `tid` from `x` has disabled, once it has consumed down to `y`. -/
def DisabledBy (B : Backend cfg S) (tid : Tid cfg.net) (x y : Exec cfg S) (other : Tid cfg.net) : Prop :=
  RestartCandidate tid x other ∧ ¬ EnabledIn (transition other) fun p => B.queue p y.store

/-- The scan is under way: nothing but what has been disabled is flagged, and what lacks something in a
place is flagged unless the scan has still to see it there. -/
structure Flagging (B : Backend cfg S) (tid : Tid cfg.net) (x y : Exec cfg S) (rest : List Nat)
    (unseen : Tid cfg.net → PlaceName → Prop) (z : Exec cfg S) : Prop extends Updating B tid x rest z where
  store : z.store = y.store
  announced : ∀ other : Tid cfg.net, z.ctl.restartPendingWords.testBit other = true →
    z.ctl.anyRestartPending = true
  kept : ∀ other : Tid cfg.net, x.ctl.restartPendingWords.testBit other = true →
    z.ctl.restartPendingWords.testBit other = true
  sound : ∀ other : Tid cfg.net, z.ctl.restartPendingWords.testBit other = true →
    x.ctl.restartPendingWords.testBit other = true ∨ DisabledBy B tid x y other
  complete : ∀ other, RestartCandidate tid x other → ∀ p, Consumes tid p →
    LacksIn (transition other) (fun p => B.queue p y.store) p →
      unseen other p ∨ z.ctl.restartPendingWords.testBit other = true

variable {y : Exec cfg S} {rest : List Nat} {unseen unseen' : Tid cfg.net → PlaceName → Prop}

theorem Flagging.seen (h : Flagging B tid x y rest unseen z)
    (fewer : ∀ other, RestartCandidate tid x other → ∀ p, Consumes tid p →
      LacksIn (transition other) (fun p => B.queue p y.store) p → unseen other p →
        unseen' other p ∨ z.ctl.restartPendingWords.testBit other = true) :
    Flagging B tid x y rest unseen' z :=
  { h with complete := fun other candidate p consumes lacks =>
      (h.complete other candidate p consumes lacks).elim (fewer other candidate p consumes lacks) Or.inr }

/-- Something is missing only in a place the arcs of the transition name. -/
theorem LacksIn.affected {queue : PlaceName → List (Token V)} {p : PlaceName}
    (lacks : LacksIn (transition other) queue p) : other ∈ affectedTransitions (placeId cfg.net p) := by
  have arc : p ∈ arcPlaces (transition other) := by
    rcases lacks with ⟨spec, hspec, rfl, _⟩ | ⟨hp, _⟩ | ⟨ms, matched, ⟨k, hk, rfl⟩, _⟩
    · exact input_arc hspec
    · simp [arcPlaces, hp]
    · exact key_arc matched hk
  exact (mem_affectedTransitions (known_of_arc arc)).mpr arc

/-- One transition flagged. -/
theorem Flagging.flag (h : Flagging B tid x y rest unseen z) (disabled : DisabledBy B tid x y other)
    (fewer : ∀ o p, o ≠ other → unseen o p → unseen' o p) :
    Flagging B tid x y rest unseen' { z with ctl := { z.ctl with
      restartPendingWords := z.ctl.restartPendingWords.setBit other, anyRestartPending := true } } := by
  have bit (o : Tid cfg.net) : (z.ctl.restartPendingWords.setBit other).testBit o = true ↔
      o = other ∨ z.ctl.restartPendingWords.testBit o = true := by
    rw [Bitset.testBit_setBit _ other.isLt]
    simp only [Bool.or_eq_true, decide_eq_true_eq, Fin.val_inj]
    exact or_congr eq_comm Iff.rfl
  constructor
  · exact h.toUpdating.frame rfl rfl rfl rfl rfl (fun _ _ => rfl) rfl rfl fun _ => id
  · exact h.store
  · exact fun _ _ => rfl
  · exact fun o was => (bit o).mpr (Or.inr (h.kept o was))
  · intro o flagged
    rcases (bit o).mp flagged with rfl | before
    · exact Or.inr disabled
    · exact h.sound o before
  · intro o candidate p consumes lacks
    by_cases same : o = other
    · exact Or.inr ((bit o).mpr (Or.inl same))
    · exact (h.complete o candidate p consumes lacks).imp (fewer o p same) fun before =>
        (bit o).mpr (Or.inr before)

theorem flagIntermediateDisablements_flags (masks : ByMasks B) (state : EnabledState B x) (pid : Nat) :
    Prog.Spec (Flagging B tid x y rest fun _ p => placeId cfg.net p ∈ rest ∨ placeId cfg.net p = pid)
      (flagIntermediateDisablements B tid pid)
      (fun _ => Flagging B tid x y rest fun _ p => placeId cfg.net p ∈ rest) fun _ _ => False := by
  let Left (todo : List (Tid cfg.net)) (other : Tid cfg.net) (p : PlaceName) : Prop :=
    placeId cfg.net p ∈ rest ∨ placeId cfg.net p = pid ∧ other ∈ todo
  have loop : Prog.Spec (Flagging B tid x y rest (Left (affectedTransitions pid)))
      (flagIntermediateDisablements B tid pid) (fun _ => Flagging B tid x y rest (Left []))
      fun _ _ => False := by
    refine Prog.Spec.each_rest (P := fun todo => Flagging B tid x y rest (Left todo)) fun other todo => ?_
    refine Prog.Spec.gets_bind fun c => Prog.Spec.ite (fun passed => ?_) fun look => ?_
    -- passed over: no candidate, or flagged before
    · rintro z ⟨h, rfl⟩
      simp only [Bool.or_eq_true, decide_eq_true_eq, Bool.not_eq_true'] at passed
      refine h.seen fun o candidate p _ _ left => ?_
      rcases left with later | ⟨here, mem⟩
      · exact Or.inl (Or.inl later)
      rcases List.mem_cons.mp mem with rfl | mem
      · rcases passed with ((same | off) | busy) | pending
        · exact absurd same candidate.other
        · rw [h.enabled, candidate.enabled] at off
          cases off
        · rw [h.inFlight, candidate.idle] at busy
          cases busy
        · exact Or.inr pending
      · exact Or.inl (Or.inr ⟨here, mem⟩)
    simp only [Bool.or_eq_true, decide_eq_true_eq, Bool.not_eq_true', not_or, Bool.not_eq_false,
      Bool.not_eq_true] at look
    obtain ⟨⟨⟨ne, on⟩, idle⟩, fresh⟩ := look
    -- a candidate that is not flagged yet was enabled when the firing began
    have before {z : Exec cfg S} (h : Flagging B tid x y rest (Left (other :: todo)) z)
        (same : z.ctl = c) : RestartCandidate tid x other ∧
          EnabledIn (transition other) fun p => B.queue p x.store := by
      rw [← same, h.enabled] at on
      rw [← same, h.inFlight] at idle
      refine ⟨⟨on, idle, ne⟩, state.enabled other on idle fun pending => ?_⟩
      rw [← same, h.kept other pending.2] at fresh
      cases fresh
    refine checkEnabled_bind (fun stays => Prog.Spec.ite (fun yes => ?_) fun no => ?_) ?_
    · rintro z ⟨⟨h, same⟩, answer⟩
      rw [yes, ← same] at answer
      refine h.seen fun o candidate p consumes lacks left => ?_
      rcases left with later | ⟨rfl, mem⟩
      · exact Or.inl (Or.inl later)
      rcases List.mem_cons.mp mem with rfl | mem
      · by_cases again : placeId cfg.net p ∈ rest
        · exact Or.inl (Or.inl again)
        · rw [← h.store] at lacks
          exact absurd answer
            (state.not_canEnable masks h.toMidFire ne (h.done p consumes again).1 lacks)
      · exact Or.inl (Or.inr ⟨rfl, mem⟩)
    · rintro z ⟨⟨h, same⟩, answer⟩
      rw [Bool.not_eq_true] at no
      rw [no, ← same] at answer
      obtain ⟨candidate, was⟩ := before h same
      refine h.flag ⟨candidate, fun enabled => ?_⟩ fun o p apart left => ?_
      · rw [← h.store] at enabled
        rw [state.canEnable_of_enabledIn masks h.toMidFire ne was enabled] at answer
        cases answer
      · exact left.imp id fun later => ⟨later.1, (List.mem_cons.mp later.2).resolve_left apart⟩
    · rintro e z ⟨h, same⟩ failed
      obtain ⟨b, answer⟩ := state.canEnable_ok h.toMidFire ne (before h same).2 c.markingBitmap
      rw [answer] at failed
      cases failed
  refine loop.conseq (fun z h => h.seen fun o _ p _ lacks left => Or.inl ?_) (fun _ z h => ?_) fun _ _ => id
  · refine left.imp id fun here => ⟨here, ?_⟩
    rw [← here]
    exact lacks.affected
  · exact h.seen fun o _ p _ _ left => Or.inl (left.resolve_right fun later => List.not_mem_nil later.2)

theorem updateBitmapAfterConsumption_flags (masks : ByMasks B) (state : EnabledState B x) :
    Prog.Spec (Flagging B tid x y (consumptionPlaceIds tid)
        fun _ p => placeId cfg.net p ∈ consumptionPlaceIds tid)
      (updateBitmapAfterConsumption B tid)
      (fun _ => Flagging B tid x y [] fun _ p => placeId cfg.net p ∈ ([] : List Nat))
      fun _ _ => False := by
  refine Prog.Spec.each_rest
    (P := fun rest => Flagging B tid x y rest fun _ p => placeId cfg.net p ∈ rest) fun pid rest => ?_
  -- past the bit and the dirty marks
  have marks {z : Exec cfg S} (h : Flagging B tid x y (pid :: rest) (fun _ p =>
      placeId cfg.net p ∈ pid :: rest) z) {bits : Bitset (placeCount cfg.net)}
      (hbits : bits = if (B.queue (place cfg.net pid) z.store).length = 0
        then z.ctl.markingBitmap.clearBit pid else z.ctl.markingBitmap) :
      Flagging B tid x y rest (fun _ p => placeId cfg.net p ∈ rest ∨ placeId cfg.net p = pid)
        { z with ctl := { z.ctl with
          markingBitmap := bits, dirtySet := dirtied pid z.ctl.dirtySet } } :=
    { h.toUpdating.next state.marked hbits with
      store := h.store, announced := h.announced, kept := h.kept, sound := h.sound
      complete := fun o candidate p consumes lacks => (h.complete o candidate p consumes lacks).imp
        (fun mem => (List.mem_cons.mp mem).symm) id }
  let Marking (left : Nat) (z : Exec cfg S) : Prop := ∃ w bits,
    Flagging B tid x y (pid :: rest) (fun _ p => placeId cfg.net p ∈ pid :: rest) w ∧
    left = (B.queue (place cfg.net pid) w.store).length ∧
    (bits = if (B.queue (place cfg.net pid) w.store).length = 0
      then w.ctl.markingBitmap.clearBit pid else w.ctl.markingBitmap) ∧
    z = { w with ctl := { w.ctl with markingBitmap := bits } }
  have flags (left : Nat) : Prog.Spec (Marking left) (do
      markDirty pid
      if (left : WithTop Nat) < restartThreshold cfg.net pid then flagIntermediateDisablements B tid pid
      else pure ()) (fun _ => Flagging B tid x y rest fun _ p => placeId cfg.net p ∈ rest)
      fun _ _ => False := by
    refine Prog.Spec.bind (Q := fun _ z => left = (B.queue (place cfg.net pid) z.store).length ∧
      Flagging B tid x y rest (fun _ p => placeId cfg.net p ∈ rest ∨ placeId cfg.net p = pid) z) ?_ fun _ => ?_
    · rintro _ ⟨w, bits, h, hleft, hbits, rfl⟩
      rw [markDirty_run]
      exact ⟨hleft, marks h hbits⟩
    refine Prog.Spec.ite (fun _ => ?_) fun enough => ?_
    · exact (flagIntermediateDisablements_flags masks state pid).conseq (fun z hz => hz.2)
        (fun _ _ => id) fun _ _ => id
    -- a place at its threshold has cost nobody anything
    · rintro z ⟨hleft, h⟩
      refine h.seen fun o candidate p consumes lacks unseen => Or.inl (unseen.resolve_right ?_)
      rintro rfl
      refine enough ?_
      rw [hleft, place_placeId (known_of_consumes consumes), h.store]
      exact lt_restartThreshold consumes candidate.other lacks
  refine Prog.Spec.gets_bind fun left => Prog.Spec.ite (fun empty => ?_) fun nonempty => ?_
  · refine Prog.Spec.modify_bind (flags left) ?_
    rintro w ⟨h, rfl⟩
    exact ⟨w, _, h, rfl, (if_pos empty).symm, rfl⟩
  · rintro w ⟨h, rfl⟩
    exact flags _ w ⟨w, _, h, rfl, (if_neg nonempty).symm, rfl⟩

/-! ## A firing -/

/-- The restarts are those of `x`. -/
def SameRestarts (x z : Exec cfg S) : Prop :=
  z.ctl.restartPendingWords = x.ctl.restartPendingWords ∧ z.ctl.anyRestartPending = x.ctl.anyRestartPending

/-- Consumption flags nothing. -/
theorem sameRestarts_consuming (tid : Tid cfg.net) (x : Exec cfg S) : Consuming B.toStoreOps tid
    (SameRestarts x) (fun _ => SameRestarts x) fun _ => SameRestarts x where
  stable _ := HostStable.of_internals fun i =>
    i.ctl.restartPendingWords = x.ctl.restartPendingWords ∧ i.ctl.anyRestartPending = x.ctl.anyRestartPending
  first spec _ _ z h := by
    rcases B.removeFirst spec.place z.store with ⟨_ | token, s⟩
    · exact h
    · exact h
  matching spec _ key _ name _ z h := by
    rcases B.removeFirstMatching spec.place (named key name) z.store with ⟨e | _ | ⟨index, token⟩, s⟩
    · exact h
    · exact h
    · exact h
  counting _ _ _ _ _ _ _ h _ := h
  reset _ _ _ _ h := h
  unmatched _ h := h
  matched _ _ h _ := h
  unbound _ _ h _ := h
  reads _ _ _ h := h
  dry _ _ _ h := h

/-- The scan starts with every consumed place to look at. -/
theorem flagging_start (state : EnabledState B x) (mid : MidFire B tid x y) (same : SameRestarts x y) :
    Flagging B tid x y (consumptionPlaceIds tid) (fun _ p => placeId cfg.net p ∈ consumptionPlaceIds tid) y where
  toMidFire := mid
  inside _ := id
  done p hp absent := absurd (mem_consumptionPlaceIds.mpr ⟨p, hp, rfl⟩) absent
  store := rfl
  announced other flagged := by
    rw [same.1] at flagged
    rw [same.2]
    exact state.announced other flagged
  kept other was := by rwa [same.1]
  sound other flagged := by
    rw [same.1] at flagged
    exact Or.inl flagged
  complete _ _ p consumes _ := Or.inl (mem_consumptionPlaceIds.mpr ⟨p, consumes, rfl⟩)

/-- A scan with nothing left to look at has flagged exactly what the firing has disabled. -/
theorem Flagging.restartPending_iff (state : EnabledState B x) (mid : MidFire B tid x y)
    (h : Flagging B tid x y [] (fun _ p => placeId cfg.net p ∈ ([] : List Nat)) z) (other : Tid cfg.net) :
    RestartPending z other ↔ RestartPending x other ∨ DisabledBy B tid x y other := by
  constructor
  · rintro ⟨_, flagged⟩
    exact (h.sound other flagged).imp (fun was => ⟨state.announced other was, was⟩) id
  · intro due
    have flagged : z.ctl.restartPendingWords.testBit other = true := by
      by_cases pending : RestartPending x other
      · exact h.kept other pending.2
      · obtain ⟨candidate, disabled⟩ := due.resolve_left pending
        have before := state.enabled other candidate.enabled candidate.idle pending
        obtain ⟨p, changed, lacks⟩ := exists_lacksIn before mid.shrinks disabled
        have consumes : Consumes tid p := by
          by_contra apart
          exact changed (mid.elsewhere p apart)
        exact (h.complete other candidate p consumes lacks).resolve_left List.not_mem_nil
    exact ⟨h.announced other flagged, flagged⟩

/-- After consumption and resets, the scan of a firing flags exactly the transitions that were enabled,
are not in flight, are not the one that fires, and are not enabled in the intermediate marking. -/
theorem updateBitmapAfterConsumption_flags_disabled {verdict : Tid cfg.net → Flight V N → Except Thrown Unit}
    (conforms : Conforms B verdict) (tid : Tid cfg.net) {x y : Exec cfg S} {c : Consumption V N}
    (state : EnabledState B x) (consumed : (B.consume tid).run x = (.ok c, y)) :
    ∃ z, (updateBitmapAfterConsumption B tid).run y = (.ok (), z) ∧
      (∀ p, B.queue p z.store = B.queue p y.store) ∧
      ∀ other, RestartPending z other ↔ RestartPending x other ∨
        x.ctl.enabledFlags other = true ∧ x.ctl.inFlightFlags other = false ∧ other ≠ tid ∧
          ¬ EnabledIn (transition other) fun p => B.queue p y.store := by
  have mid : MidTake B tid x y := (midTake_consume conforms tid x).of_ok ⟨MidFire.refl, rfl⟩ consumed
  have same : SameRestarts x y :=
    (conforms.consume tid (sameRestarts_consuming tid x)).of_ok ⟨rfl, rfl⟩ consumed
  have scan := updateBitmapAfterConsumption_flags conforms.masks state y (flagging_start state mid.1 same)
  rcases run : (updateBitmapAfterConsumption B tid).run y with ⟨e | answer, z⟩
  · rw [run] at scan
    exact scan.elim
  · rw [run] at scan
    refine ⟨z, rfl, fun p => by rw [scan.store], fun other => ?_⟩
    rw [scan.restartPending_iff state mid.1 other]
    constructor
    · exact Or.imp id fun disabled =>
        ⟨disabled.1.enabled, disabled.1.idle, disabled.1.other, disabled.2⟩
    · exact Or.imp id fun disabled =>
        ⟨⟨disabled.1, disabled.2.1, disabled.2.2.1⟩, disabled.2.2.2⟩

/-! ## A shared place -/

theorem shared_nodup : ([In.one "slot"].map In.place).Nodup := by decide

theorem shared_required : ∀ spec ∈ [In.one "slot"], 1 ≤ spec.requiredCount := by decide

theorem shared_declared : ∀ p ∈ ([] : List PlaceName), p ∈ ([] : List PlaceName) := fun _ mem => mem

theorem shared_delay : (Timing.delayed 100).Valid := by decide +kernel

/-- A transition that takes the token of a slot and puts it back, and one that waits for it. -/
def sharedNet : PetriNet (Option Nat) Nat where
  name := "shared"
  places := []
  transitions := [
    plain "renew" [.one "slot"] (some (.place "slot")) .immediate shared_nodup shared_required trivial,
    plain "wait" [.one "slot"] none (.delayed 100) shared_nodup shared_required shared_delay]
  terminals := []
  terminals_declared := shared_declared

def sharedSetting : Setting (Option Nat) Nat := quiet sharedNet [("slot", [⟨none, 0⟩])]

/-- Both are enabled. -/
def sharedState : Exec sharedSetting (BitmapStore sharedSetting) where
  store := ⟨Marking.ofInitial [("slot", [⟨none, 0⟩])], OrderedMap.empty, []⟩
  ctl := {
    markingBitmap := Bitset.empty.setBit 0
    dirtySet := Bitset.empty
    enabledAtMs := fun _ => some 0
    inFlightFlags := fun _ => false
    enabledFlags := fun _ => true
    enabledTransitionCount := 2
    restartPendingWords := Bitset.empty
    anyRestartPending := false
    matchCaches := fun _ => none
    terminalReached := false
    unsettled := false
    warnedMultiplicity := [] }
  io := (constructed () : Exec sharedSetting Unit).io
  history := []

theorem sharedState_enabled : EnabledState (BitmapNetExecutor.backend sharedSetting) sharedState where
  marked := by
    unfold Marked
    decide +kernel
  announced := by decide +kernel
  enabled tid _ _ _ := by
    have arcs : ∀ tid : Tid sharedNet, (transition tid).inputSpecs = [.one "slot"] ∧
        (transition tid).reads = [] ∧ (transition tid).inhibitors = [] ∧
        (transition tid).matchSpec.isNone = true := by decide +kernel
    obtain ⟨inputs, reads, inhibitors, unmatched⟩ := arcs tid
    refine ⟨fun spec mem => ?_, fun p mem => ?_, fun p mem => ?_, fun ms matched => ?_⟩
    · rw [show (transition tid).inputSpecs = _ from inputs, List.mem_singleton] at mem
      subst mem
      decide +kernel
    · rw [show (transition tid).reads = _ from reads] at mem
      cases mem
    · rw [show (transition tid).inhibitors = _ from inhibitors] at mem
      cases mem
    · rw [show (transition tid).matchSpec = none from Option.isNone_iff_eq_none.mp unmatched] at matched
      cases matched
  cached _ _ found := by cases found

/-- The renewal takes the token from under the wait, whose clock restarts. -/
theorem updateBitmapAfterConsumption_flags_wait : ∃ c y z,
    ((BitmapNetExecutor.backend sharedSetting).consume ⟨0, by decide⟩).run sharedState = (.ok c, y) ∧
      (updateBitmapAfterConsumption (BitmapNetExecutor.backend sharedSetting) ⟨0, by decide⟩).run y =
        (.ok (), z) ∧ RestartPending z ⟨1, by decide⟩ := by
  have consumed : ∃ c y,
      ((BitmapNetExecutor.backend sharedSetting).consume ⟨0, by decide⟩).run sharedState = (.ok c, y) ∧
        (BitmapNetExecutor.backend sharedSetting).queue "slot" y.store = [] := ⟨_, _, rfl, by decide +kernel⟩
  obtain ⟨c, y, consumed, empty⟩ := consumed
  obtain ⟨z, scanned, _, flags⟩ := updateBitmapAfterConsumption_flags_disabled
    BitmapNetExecutor.conforms ⟨0, by decide⟩ sharedState_enabled consumed
  refine ⟨c, y, z, consumed, scanned, (flags _).mpr (Or.inr ⟨rfl, rfl, by decide, fun enabled => ?_⟩)⟩
  have enough := enabled.inputs (.one "slot") (by decide +kernel)
  simp [In.place, In.requiredCount, empty] at enough

end LibPetri.Verified
