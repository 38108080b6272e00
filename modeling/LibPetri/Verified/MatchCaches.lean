import LibPetri.Verified.CoherentRuns
import LibPetri.Verified.ClockRestarts
import LibPetri.Verified.Supplies

/-! # Caches in step with their queues

A cache starts from the seed, sees every deposit into its places and every binding of its own transition.  No
other transition takes from these places and none resets them, so it never misses a token that leaves.
-/

namespace LibPetri.Verified

open LibPetri.Basis LibPetri.Core LibPetri.Runtime CompiledNet Executor

variable {V N : Type} [LinearOrder N]

/-! ## One cache -/

section Cache

variable {t : Transition V N} {ms : MatchSpec V N} {queue queue' : PlaceName → List (Token V)}
  {cache : IncrementalMatcher N} {name : N}

omit [LinearOrder N] in
theorem lanesOf_congr (same : ∀ k ∈ ms.keys, queue' k.place = queue k.place) : lanesOf ms queue' = lanesOf ms queue := by
  funext i
  unfold lanesOf
  cases at_ : ms.keys[i]? with
  | none => rfl
  | some k =>
    dsimp only
    rw [same k (List.mem_of_getElem? at_)]

/-- A cache looks at its own places alone. -/
theorem CacheMirrors.congr (h : CacheMirrors t ms queue cache) (same : ∀ k ∈ ms.keys, queue' k.place = queue k.place) :
    CacheMirrors t ms queue' cache := by
  refine ⟨h.bare, fun some_key => ?_, fun k mem token at_ => ?_⟩
  · rw [lanesOf_congr same]
    exact h.rep some_key
  · rw [same k mem] at at_
    exact h.projected k mem token at_

theorem CacheMirrors.of_represents {s : Mirror V N} (bare : ms.keys = [] → s.matcher = .new [])
    (h : ms.keys ≠ [] → Represents t ms s) : CacheMirrors t ms s.queue s.matcher := by
  refine ⟨bare, fun some_key => (h some_key).rep, fun k mem => ?_⟩
  exact (h (List.ne_nil_of_mem mem)).projected k mem

/-- It keeps up with a token that is added. -/
theorem CacheMirrors.add {s : Mirror V N} (h : CacheMirrors t ms s.queue s.matcher)
    (distinct : (ms.keys.map MatchKey.place).Nodup) (place : PlaceName) (token : Token V) :
    CacheMirrors t ms (s.add ms place token).queue (s.add ms place token).matcher := by
  refine .of_represents (fun no_key => ?_) fun some_key => (h.represents some_key).add distinct place token
  unfold Mirror.add
  rw [no_key]
  exact h.bare no_key

/-- It keeps up with the binding it has named. -/
theorem CacheMirrors.consume (h : CacheMirrors t ms queue cache) (distinct : (ms.keys.map MatchKey.place).Nodup)
    (best : cache.best = some name) :
    CacheMirrors t ms (fun p => withoutBinding t ms name p (queue p)) (cache.consume name) := by
  have step : Mirror.consume t ms ⟨cache, queue⟩ =
      ⟨cache.consume name, fun p => withoutBinding t ms name p (queue p)⟩ := by
    unfold Mirror.consume
    rw [best]
  have after : CacheMirrors t ms (Mirror.consume t ms ⟨cache, queue⟩).queue (Mirror.consume t ms ⟨cache, queue⟩).matcher := by
    refine .of_represents (fun no_key => ?_) fun some_key => (h.represents some_key).consume distinct
    rw [h.bare no_key] at best
    cases best
  rwa [step] at after

/-- The timestamps of the correlated inputs are within the range a search compares. -/
def SafeStamps (t : Transition V N) (queue : PlaceName → List (Token V)) : Prop :=
  ∀ ms ∈ t.matchSpec, ∀ k ∈ ms.keys, ∀ token ∈ queue k.place, token.createdAt ≤ MAX_SAFE_INTEGER

/-- It names what a search over its queues would find. -/
theorem CacheMirrors.findBinding_eq (h : CacheMirrors t ms queue cache) (matched : t.matchSpec = some ms)
    (safe : SafeStamps t queue) : findBinding t queue = .ok cache.best := by
  by_cases no_key : ms.keys = []
  · rw [h.bare no_key, findBinding, matched]
    dsimp only
    rw [no_key]
    rfl
  · have faithful : Faithful t ms ⟨cache, queue⟩ := ⟨h.rep no_key, h.projected, safe ms matched⟩
    exact faithful.findBinding_eq matched no_key

theorem removeNamed_eq_leftBy (key : KeyFn V N) (name : N) (n : Nat) (queue : List (Token V)) :
    removeNamed key name n queue = leftBy (carries key name) n queue := by
  induction n generalizing queue with
  | zero => rfl
  | succ n ih => exact ih _

end Cache

/-! ## Joins that may keep one -/

variable {cfg : Setting V N} {S : Type} {tid : Tid cfg.net} {ms : MatchSpec V N}

omit [LinearOrder N] in
/-- A search that succeeds for every element, with what each answer says. -/
theorem eq_map_of_mapM {α β : Type} {f : α → Option β} {g : α → β} {P : α → Prop} {l : List α} {bs : List β}
    (each : ∀ a b, f a = some b → b = g a ∧ P a) (all : l.mapM f = some bs) : bs = l.map g ∧ ∀ a ∈ l, P a := by
  induction l generalizing bs with
  | nil => exact ⟨(Option.some.inj all).symm, by nofun⟩
  | cons a l ih =>
    rw [List.mapM_cons] at all
    obtain ⟨b, first, others⟩ := Option.bind_eq_some_iff.mp all
    obtain ⟨rest, later, same⟩ := Option.bind_eq_some_iff.mp others
    obtain rfl := Option.some.inj same
    obtain ⟨rfl, here⟩ := each a b first
    obtain ⟨rfl, there⟩ := ih later
    exact ⟨rfl, List.forall_mem_cons.mpr ⟨here, there⟩⟩

/-- The input on a place takes a fixed number of tokens. -/
def Fixed (t : Transition V N) (p : PlaceName) (required : Nat) : Prop :=
  ∃ spec ∈ t.inputSpecs, spec.place = p ∧ required = spec.requiredCount ∧ ∀ chosen queue, demand t chosen spec queue = required

/-- A join may keep a cache if each of its keys is on an input that takes a fixed number of tokens. -/
theorem requireds_of_cached {requireds : List Nat} (cached : cacheRequireds tid = some requireds)
    (matched : (transition tid).matchSpec = some ms) : requireds = requiredCounts (transition tid) ms ∧
      ∀ k ∈ ms.keys, Fixed (transition tid) k.place (requiredFor (transition tid) k.place) := by
  unfold cacheRequireds at cached
  rw [matched] at cached
  refine eq_map_of_mapM (fun k n given => ?_) cached
  dsimp only at given
  split at given
  · cases given
  · unfold requiredFor
    split at given
    next p found =>
      obtain rfl := Option.some.inj given
      rw [found]
      exact ⟨rfl, .one p, List.mem_of_find?_eq_some found, by simpa using List.find?_some found, rfl, fun _ _ => rfl⟩
    next count p found =>
      obtain rfl := Option.some.inj given
      rw [found]
      exact ⟨rfl, .exactly _ p, List.mem_of_find?_eq_some found, by simpa using List.find?_some found, rfl,
        fun _ _ => rfl⟩
    next => cases given

/-! ## Deposits -/

section Deposits

variable {B : Backend cfg S} {x y : Exec cfg S} {p : PlaceName} {token : Token V} {caches caches' : Caches cfg}
  {targets : List (Tid cfg.net × Nat)}

theorem mirror_congr {target : Tid cfg.net × Nat} (same : caches' target.1 = caches target.1) :
    mirror token caches' target target.1 = mirror token caches target target.1 := by
  unfold mirror
  rw [same]
  cases live : caches target.1 with
  | none => exact same
  | some cache =>
    cases targetKey target with
    | none => exact same
    | some mk =>
      dsimp only
      rcases mk.key token.value with e | _ | name
      · exact same
      · exact same
      · dsimp only
        rw [Function.update_self, Function.update_self]

/-- What a cache becomes depends on that cache alone. -/
theorem mirrorAll_congr (own : ∀ target ∈ targets, target.1 = tid) (same : caches' tid = caches tid) :
    mirrorAll token targets caches' tid = mirrorAll token targets caches tid := by
  induction targets generalizing caches caches' with
  | nil => exact same
  | cons target targets ih =>
    obtain rfl := own target List.mem_cons_self
    exact ih (fun other mem => own other (List.mem_cons_of_mem _ mem)) (mirror_congr same)

theorem mirrorAll_append (first rest : List (Tid cfg.net × Nat)) :
    mirrorAll token (first ++ rest) caches = mirrorAll token rest (mirrorAll token first caches) :=
  List.foldl_append

/-- Of the targets of all transitions, a cache sees its own. -/
theorem mirrorAll_flatMap {targetsOf : Tid cfg.net → List (Tid cfg.net × Nat)}
    (own : ∀ other, ∀ target ∈ targetsOf other, target.1 = other) :
    mirrorAll token ((List.finRange _).flatMap targetsOf) caches tid = mirrorAll token (targetsOf tid) caches tid := by
  obtain ⟨before, after, split⟩ := List.append_of_mem (List.mem_finRange tid)
  have nodup := List.nodup_finRange (transitionCount cfg.net)
  rw [split] at nodup ⊢
  have apart {others : List (Tid cfg.net)} (absent : tid ∉ others) : ∀ target ∈ others.flatMap targetsOf,
      tid ≠ target.1 := by
    intro target mem same
    obtain ⟨other, among, mem⟩ := List.mem_flatMap.mp mem
    rw [own other target mem] at same
    exact absent (same ▸ among)
  have earlier : tid ∉ before := fun mem => List.disjoint_of_nodup_append nodup mem List.mem_cons_self
  have later : tid ∉ after := (List.nodup_cons.mp (List.nodup_append.mp nodup).2.1).1
  rw [List.flatMap_append, List.flatMap_cons, mirrorAll_append, mirrorAll_append, mirrorAll_other (apart later)]
  exact mirrorAll_congr (own tid) (mirrorAll_other (apart earlier))

omit [LinearOrder N] in
theorem mem_placeMatchTargets {requireds : List Nat} (cached : cacheRequireds tid = some requireds)
    (matched : (transition tid).matchSpec = some ms) {i : Nat} {k : MatchKey V N} (at_ : ms.keys[i]? = some k) :
    (tid, i) ∈ placeMatchTargets (placeId cfg.net k.place) := by
  refine List.mem_flatMap.mpr ⟨tid, List.mem_finRange tid, ?_⟩
  simp only [cached, matched]
  refine List.mem_filterMap.mpr ⟨i, List.mem_range.mpr (List.getElem?_eq_some_iff.mp at_).1, if_pos ?_⟩
  rw [at_, Option.map_some]

/-- The target of a join: its key on the place, if it has one. -/
theorem mirrorAll_placeMatchTargets (known : p ∈ placesById cfg.net) {requireds : List Nat}
    (cached : cacheRequireds tid = some requireds) (matched : (transition tid).matchSpec = some ms) :
    mirrorAll token (placeMatchTargets (placeId cfg.net p)) caches tid =
      mirrorAll token ((ms.keys.zipIdx.find? fun k => k.1.place = p).map fun k => (tid, k.2)).toList caches tid := by
  unfold placeMatchTargets
  rw [mirrorAll_flatMap fun other target mem => ?_]
  · simp only [cached, matched]
    congr 1
    have same {j : Nat} {k : MatchKey V N} (at_ : ms.keys[j]? = some k) :
        (ms.keys[j]?.map fun mk => placeId cfg.net mk.place) = some (placeId cfg.net p) ↔ k.place = p := by
      rw [at_, Option.map_some, Option.some.injEq]
      exact placeId_inj (known_of_arc (key_arc matched (List.mem_of_getElem? at_))) known
    cases found : ms.keys.zipIdx.find? fun k => k.1.place = p with
    | none =>
      refine List.filterMap_eq_nil_iff.mpr fun j bound => if_neg fun here => ?_
      have at_ := List.getElem?_eq_getElem (List.mem_range.mp bound)
      exact find?_zipIdx_eq_none found _ (List.mem_of_getElem? at_) ((same at_).mp here)
    | some k =>
      obtain ⟨at_, here⟩ := find?_zipIdx_eq_some found
      refine List.perm_singleton.mp ((List.perm_ext_iff_of_nodup ?_ (List.nodup_singleton _)).mpr fun target => ?_)
      · refine List.Nodup.filterMap (fun i j target hi hj => ?_) List.nodup_range
        rw [Option.mem_def] at hi hj
        split at hi
        · split at hj
          · obtain rfl := Option.some.inj hi
            exact (congrArg Prod.snd (Option.some.inj hj)).symm
          · cases hj
        · cases hi
      · rw [List.mem_filterMap, List.mem_singleton]
        constructor
        · rintro ⟨j, bound, target_at⟩
          split at target_at
          next there =>
            have at_j := List.getElem?_eq_getElem (List.mem_range.mp bound)
            have place := (same at_j).mp there
            obtain rfl := key_unique ((transition tid).keys_nodup ms matched) at_j at_ (place.trans here.symm)
            exact (Option.some.inj target_at).symm
          next => cases target_at
        · rintro rfl
          exact ⟨k.2, List.mem_range.mpr (List.getElem?_eq_some_iff.mp at_).1, if_pos ((same at_).mpr here)⟩
  · split at mem
    · obtain ⟨j, -, target_at⟩ := List.mem_filterMap.mp mem
      split at target_at
      · obtain rfl := Option.some.inj target_at
        rfl
      · cases target_at
    · cases mem

/-- A deposit takes a cache and its queues one step of the matcher further. -/
theorem Deposited.add (d : Deposited B p token x y) (projects : Projects x.ctl.matchCaches p token)
    {requireds : List Nat} (cached : cacheRequireds tid = some requireds)
    (matched : (transition tid).matchSpec = some ms) {cache : IncrementalMatcher N}
    (live : x.ctl.matchCaches tid = some cache) :
    ∃ cache', y.ctl.matchCaches tid = some cache' ∧
      (⟨cache', fun q => B.queue q y.store⟩ : Mirror V N) = Mirror.add ms p token ⟨cache, fun q => B.queue q x.store⟩ := by
  have queues : (fun q => B.queue q y.store) =
      Function.update (fun q => B.queue q x.store) p (B.queue p x.store ++ [token]) := by
    funext q
    rw [d.queues, Function.update_apply]
  rw [queues]
  unfold Mirror.add
  dsimp only
  rcases d.caches with ⟨same, unknown⟩ | ⟨known, mirrored⟩
  · rw [same, live]
    cases found : ms.keys.zipIdx.find? fun k => k.1.place = p with
    | none => exact ⟨cache, rfl, rfl⟩
    | some k =>
      obtain ⟨at_, here⟩ := find?_zipIdx_eq_some found
      exact absurd (here ▸ known_of_arc (key_arc matched (List.mem_of_getElem? at_))) unknown
  · rw [mirrored, mirrorAll_placeMatchTargets known cached matched]
    cases found : ms.keys.zipIdx.find? fun k => k.1.place = p with
    | none => exact ⟨cache, live, rfl⟩
    | some k =>
      obtain ⟨at_, rfl⟩ := find?_zipIdx_eq_some found
      have key : targetKey (tid, k.2) = some k.1 := by
        rw [targetKey, matched]
        exact at_
      have answers := projects known (tid, k.2) (mem_placeMatchTargets cached matched at_)
      obtain ⟨name, answer⟩ := answers (by rw [live]; rfl) k.1 key
      show ∃ cache', mirror token x.ctl.matchCaches (tid, k.2) tid = some cache' ∧ _
      unfold mirror
      rw [key]
      simp only [live, answer]
      cases name with
      | none => exact ⟨cache, live, rfl⟩
      | some name => exact ⟨_, Function.update_self _ _ _, rfl⟩

/-- No deposit leaves a cache behind. -/
theorem CachesMirror.deposited (mirror : CachesMirror B x) (d : Deposited B p token x y)
    (projects : Projects x.ctl.matchCaches p token) : CachesMirror B y := by
  intro tid cache' live'
  have some_cache : (x.ctl.matchCaches tid).isSome = true := by
    rw [← d.isSome_cache tid, live']
    rfl
  obtain ⟨cache, live⟩ := Option.isSome_iff_exists.mp some_cache
  obtain ⟨may, mirrors⟩ := mirror tid cache live
  refine ⟨may, fun ms matched => ?_⟩
  obtain ⟨requireds, cached⟩ := Option.isSome_iff_exists.mp may
  obtain ⟨cache'', after, step⟩ := d.add projects cached matched live
  obtain rfl := Option.some.inj (after.symm.trans live')
  have added := CacheMirrors.add (s := ⟨cache, fun q => B.queue q x.store⟩) (mirrors ms matched)
    ((transition tid).keys_nodup ms matched) p token
  rwa [← step] at added

end Deposits

/-! ## Consumption -/

section Consumption

variable {B : Backend cfg S} {x y : Exec cfg S} {chosen : Option N}

omit [LinearOrder N] in
/-- Nobody resets an input of a join that may keep a cache. -/
theorem not_reset_of_cached {other : Tid cfg.net} (cached : (cacheRequireds tid).isSome = true)
    (matched : (transition tid).matchSpec = some ms) {k : MatchKey V N} (mem : k ∈ ms.keys) :
    k.place ∉ (transition other).resets := by
  intro emptied
  unfold cacheRequireds at cached
  rw [matched] at cached
  have key := isSome_of_mapM cached mem
  dsimp only at key
  split at key
  · cases key
  next alone =>
    simp only [Bool.or_eq_true, not_or, Bool.not_eq_true, List.any_eq_false] at alone
    have target := alone.1 other (List.mem_finRange other)
    exact of_decide_eq_false target (List.mem_map_of_mem emptied)

omit [LinearOrder N] in
theorem correlated_key (matched : (transition tid).matchSpec = some ms) {k : MatchKey V N} (mem : k ∈ ms.keys) :
    correlated (transition tid) k.place = some k.key := by
  rw [correlated, matched]
  exact keyForPlace_of_mem ((transition tid).keys_nodup ms matched) mem

/-- What a firing leaves in a correlated input of a join that may keep a cache. -/
theorem queueAfter_key {requireds : List Nat} (cached : cacheRequireds tid = some requireds)
    (matched : (transition tid).matchSpec = some ms) {k : MatchKey V N} (mem : k ∈ ms.keys) (name : N)
    (queue : PlaceName → List (Token V)) : queueAfter (transition tid) (some name) queue k.place =
      withoutBinding (transition tid) ms name k.place (queue k.place) := by
  obtain ⟨spec, hspec, here, -, fixed⟩ := (requireds_of_cached cached matched).2 k mem
  rw [queueAfter, if_neg (not_reset_of_cached (by rw [cached]; rfl) matched mem),
    withoutBinding_key ((transition tid).keys_nodup ms matched) mem, removeNamed_eq_leftBy, ← here,
    afterTaking_place (transition tid).inputs_nodup hspec, leftAfter, fixed]
  rw [eligible_of_named (by rw [here]; exact correlated_key matched mem) rfl, here]

/-- A firing takes its own cache along, and leaves the queues of the others alone. -/
theorem CachesMirror.consumed (mirror : CachesMirror B x) (binding : bindingOf B.toStoreOps tid x = .ok chosen)
    (bound : (transition tid).matchSpec.isSome = chosen.isSome)
    (caches : y.ctl.matchCaches = (chosenAt tid chosen x).ctl.matchCaches)
    (queues : ∀ p, B.queue p y.store = queueAfter (transition tid) chosen (fun p => B.queue p x.store) p) :
    CachesMirror B y := by
  intro other cache' live'
  rw [caches] at live'
  by_cases own : other = tid
  · subst own
    cases chosen with
    | none =>
      obtain ⟨may, -⟩ := mirror other cache' live'
      refine ⟨may, fun ms matched => ?_⟩
      rw [matched] at bound
      cases bound
    | some name =>
      cases live : x.ctl.matchCaches other with
      | none =>
        change claimed other name x.ctl.matchCaches other = some cache' at live'
        rw [claimed, live] at live'
        dsimp only at live'
        rw [live] at live'
        cases live'
      | some cache =>
        change claimed other name x.ctl.matchCaches other = some cache' at live'
        rw [claimed, live] at live'
        dsimp only at live'
        rw [Function.update_self] at live'
        obtain rfl := Option.some.inj live'
        rw [bindingOf, live] at binding
        obtain ⟨may, mirrors⟩ := mirror other cache live
        obtain ⟨requireds, cached⟩ := Option.isSome_iff_exists.mp may
        refine ⟨may, fun ms matched => ?_⟩
        refine ((mirrors ms matched).consume ((transition other).keys_nodup ms matched)
          (Except.ok.inj binding)).congr fun k mem => ?_
        rw [queues, queueAfter_key cached matched mem]
  · have live : x.ctl.matchCaches other = some cache' := by
      cases chosen with
      | none => exact live'
      | some name => exact (claimed_other own name x.ctl.matchCaches).symm.trans live'
    obtain ⟨may, mirrors⟩ := mirror other cache' live
    refine ⟨may, fun ms matched => (mirrors ms matched).congr fun k mem => ?_⟩
    have untouched : ¬Consumes tid k.place := fun consumes => own (consumer_of_cached may matched mem consumes)
    rw [queues, queueAfter, if_neg fun emptied => untouched (.inr emptied)]
    exact afterTaking_of_notMem fun spec hspec same => untouched (.inl (same ▸ List.mem_map_of_mem hspec))

end Consumption

/-- The binding of a join, from its cache or from scratch, is the one a search finds. -/
theorem CachesMirror.findBinding_eq {B : Backend cfg S} {x : Exec cfg S} {chosen : Option N} (mirror : CachesMirror B x)
    (binding : bindingOf B.toStoreOps tid x = .ok chosen)
    (safe : SafeStamps (transition tid) fun p => B.queue p x.store) :
    findBinding (transition tid) (fun p => B.queue p x.store) = .ok chosen := by
  unfold bindingOf at binding
  split at binding
  next cache live =>
    obtain ⟨may, mirrors⟩ := mirror tid cache live
    cases matched : (transition tid).matchSpec with
    | none =>
      rw [cacheRequireds, matched] at may
      cases may
    | some ms =>
      rw [(mirrors ms matched).findBinding_eq matched safe]
      exact binding
  next => exact binding

/-! ## Construction -/

section Seeds

variable {queue : PlaceName → List (Token V)}

theorem initialCache_of_initMatchCaches {tids : List (Tid cfg.net)} {caches : Caches cfg}
    (seeded : initMatchCaches queue tids = .ok caches) {cache : IncrementalMatcher N} (live : caches tid = some cache) :
    initialCache queue tid = .ok (some cache) := by
  induction tids generalizing caches with
  | nil =>
    obtain rfl := Except.ok.inj seeded
    cases live
  | cons first tids ih =>
    obtain ⟨own, initial, seeded⟩ := exists_of_bind_eq_ok seeded
    obtain ⟨rest, later, same⟩ := exists_of_bind_eq_ok seeded
    obtain rfl := Except.ok.inj same
    by_cases here : tid = first
    · subst here
      rw [Function.update_self] at live
      rw [initial, live]
    · rw [Function.update_of_ne here] at live
      exact ih later live

theorem represents_seeded {t : Transition V N} (some_key : ms.keys ≠ []) {matcher : IncrementalMatcher N}
    (seeded : seedCaches queue 0 ms.keys (.new (requiredCounts t ms)) = .ok matcher) :
    Represents t ms ⟨matcher, queue⟩ := by
  have ne : requiredCounts t ms ≠ [] := by simpa [requiredCounts] using some_key
  obtain ⟨rep, projected⟩ := Rep.seedCaches queue List.drop_zero
    ((Rep.new ne requiredCounts_pos).congr fun i _ name => by simp) seeded
  exact ⟨rep, projected⟩

/-- Construction seeds every cache from its queues. -/
theorem cachesMirror_built {B : Backend cfg S} {x : Exec cfg S} (built : Built B x) : CachesMirror B x := by
  obtain ⟨caches, seeded, ctl⟩ := built.ctl
  intro tid cache live
  rw [ctl] at live
  have initial := initialCache_of_initMatchCaches seeded live
  unfold initialCache at initial
  split at initial
  next requireds ms cached matched =>
    obtain ⟨cache', filled, same⟩ := exists_of_bind_eq_ok initial
    obtain rfl := Option.some.inj (Except.ok.inj same)
    refine ⟨by rw [cached]; rfl, fun ms' matched' => ?_⟩
    obtain rfl := Option.some.inj (matched.symm.trans matched')
    rw [(requireds_of_cached cached matched).1] at filled
    refine .of_represents (s := ⟨cache', fun p => B.queue p x.store⟩) (fun no_key => ?_) fun some_key =>
      represents_seeded some_key filled
    rw [requiredCounts, no_key] at filled
    exact (Except.ok.inj filled).symm
  next => cases initial

end Seeds

end LibPetri.Verified
