import LibPetri.Verified.AmbiguousOutputs
import LibPetri.Verified.Flattening
import LibPetri.Verified.OutputValidation
import LibPetri.Verified.TokenConservation

/-! # What completions deposit

A completion lands only what its output specification accepts.  So when an action writes each place at most once, the
tokens that land are those of an outcome of its transition, as the analyses enumerate them.
-/

namespace LibPetri.Verified

open LibPetri.Basis LibPetri.Core LibPetri.Runtime LibPetri.Verification CompiledNet Executor

/-! ## Accepted claims are branches -/

section Claims

variable {produced : List PlaceName}

mutual

theorem claimsWithin_branches : ∀ spec : Out, ∀ claim ∈ claimsWithin produced spec, claim ∈ enumerateBranches spec
  | .place p => fun claim mem => by
    rw [claimsWithin] at mem
    split at mem
    · exact mem
    · cases mem
  | .forwardInput _ target => fun claim mem => by
    rw [claimsWithin] at mem
    split at mem
    · exact mem
    · cases mem
  | .timeout _ child => fun claim mem => by
    rw [claimsWithin] at mem
    exact claimsWithin_branches child claim mem
  | .xor children => fun claim mem => by
    rw [claimsWithin] at mem
    exact claimsWithinXor_branches children claim (mem_of_mem_capMultiplicity mem)
  | .and children => fun claim mem => by
    rw [claimsWithin] at mem
    exact claimsWithinAnd_branches children (fun _ => id) claim mem

theorem claimsWithinXor_branches : ∀ children : List Out, ∀ claim ∈ claimsWithinXor produced children,
    claim ∈ enumerateXor children
  | [] => fun _ mem => by cases mem
  | child :: children => fun claim mem => by
    rw [claimsWithinXor] at mem
    rw [enumerateXor]
    cases List.mem_append.mp mem with
    | inl first => exact List.mem_append_left _ (claimsWithin_branches child claim first)
    | inr later => exact List.mem_append_right _ (claimsWithinXor_branches children claim later)

theorem claimsWithinAnd_branches : ∀ (children : List Out) {acc result : List (List PlaceName)},
    (∀ claim ∈ acc, claim ∈ result) → ∀ claim ∈ claimsWithinAnd produced children acc,
      claim ∈ enumerateAnd children result
  | [], _, _, inside => fun claim mem => inside claim mem
  | child :: children, acc, result, inside => fun claim mem => by
    rw [claimsWithinAnd] at mem
    rw [enumerateAnd]
    split at mem
    · cases mem
    · refine claimsWithinAnd_branches children (fun merged mem => ?_) claim mem
      obtain ⟨a, ofAcc, mem⟩ := List.mem_flatMap.mp (mem_of_mem_capMultiplicity mem)
      obtain ⟨b, ofChild, rfl⟩ := List.mem_map.mp mem
      exact mem_crossProduct.mpr ⟨a, inside a ofAcc, b, claimsWithin_branches child b ofChild, rfl⟩

end

mutual

/-- No claim names a place that was not produced. -/
theorem claimsWithin_produced : ∀ spec : Out, ∀ claim ∈ claimsWithin produced spec, ∀ p ∈ claim, p ∈ produced
  | .place q => fun claim mem p named => by
    rw [claimsWithin] at mem
    split at mem
    next wrote =>
      rw [List.mem_singleton.mp mem] at named
      exact List.mem_singleton.mp named ▸ wrote
    next => cases mem
  | .forwardInput _ target => fun claim mem p named => by
    rw [claimsWithin] at mem
    split at mem
    next wrote =>
      rw [List.mem_singleton.mp mem] at named
      exact List.mem_singleton.mp named ▸ wrote
    next => cases mem
  | .timeout _ child => fun claim mem => by
    rw [claimsWithin] at mem
    exact claimsWithin_produced child claim mem
  | .xor children => fun claim mem => by
    rw [claimsWithin] at mem
    exact claimsWithinXor_produced children claim (mem_of_mem_capMultiplicity mem)
  | .and children => fun claim mem => by
    rw [claimsWithin] at mem
    exact claimsWithinAnd_produced children (fun merged mem p named => by simp_all) claim mem

theorem claimsWithinXor_produced : ∀ children : List Out, ∀ claim ∈ claimsWithinXor produced children,
    ∀ p ∈ claim, p ∈ produced
  | [] => fun _ mem => by cases mem
  | child :: children => fun claim mem => by
    rw [claimsWithinXor] at mem
    cases List.mem_append.mp mem with
    | inl first => exact claimsWithin_produced child claim first
    | inr later => exact claimsWithinXor_produced children claim later

theorem claimsWithinAnd_produced : ∀ (children : List Out) {acc : List (List PlaceName)},
    (∀ claim ∈ acc, ∀ p ∈ claim, p ∈ produced) → ∀ claim ∈ claimsWithinAnd produced children acc,
      ∀ p ∈ claim, p ∈ produced
  | [], _, inside => fun claim mem => inside claim mem
  | child :: children, acc, inside => fun claim mem => by
    rw [claimsWithinAnd] at mem
    split at mem
    · cases mem
    · refine claimsWithinAnd_produced children (fun merged mem p named => ?_) claim mem
      obtain ⟨a, ofAcc, mem⟩ := List.mem_flatMap.mp (mem_of_mem_capMultiplicity mem)
      obtain ⟨b, ofChild, rfl⟩ := List.mem_map.mp mem
      cases mem_mergeClaim.mp named with
      | inl before => exact inside a ofAcc p before
      | inr here => exact claimsWithin_produced child b ofChild p here

end

/-- What an accepted output comes to: the places of one branch. -/
def Claimed (spec : Out) (produced : List PlaceName) : Prop :=
  ∃ branch ∈ enumerateBranches spec, ∀ p, p ∈ branch ↔ p ∈ produced ∧ p ∈ spec.collectPlaces

theorem nodup_branch {spec : Out} {branch : List PlaceName} (mem : branch ∈ enumerateBranches spec) : branch.Nodup := by
  rw [enumerateBranches_eq] at mem
  obtain ⟨leaves, -, rfl⟩ := List.mem_map.mp mem
  exact toSet_nodup leaves

theorem claimed_of_validateOutSpec {tName : String} {spec : Out} {claim : List PlaceName}
    (accepted : validateOutSpec tName spec produced = .ok claim) : Claimed spec produced := by
  unfold validateOutSpec at accepted
  dsimp only at accepted
  split at accepted
  · cases accepted
  next only exact_ =>
    have mem : only ∈ (claimsWithin produced spec).filter fun claim =>
        claim.length = (produced.filter fun name => name ∈ spec.collectPlaces).length := by
      rw [exact_]
      exact List.mem_singleton_self only
    obtain ⟨claims, length⟩ := List.mem_filter.mp mem
    have branch := claimsWithin_branches spec only claims
    have inside : only ⊆ produced.filter fun name => name ∈ spec.collectPlaces := fun p named =>
      List.mem_filter.mpr ⟨claimsWithin_produced spec only claims p named,
        decide_eq_true (enumerateBranches_places branch p named)⟩
    -- as many places as were produced, all of them produced
    have all := ((nodup_branch branch).subperm inside).perm_of_length_le (of_decide_eq_true length).ge
    exact ⟨only, branch, fun p => by rw [all.mem_iff, List.mem_filter, decide_eq_true_iff]⟩
  · cases accepted

end Claims

/-! ## Outcomes of branches -/

theorem get?_foldl_set (branch : List PlaceName) (m : OrderedMap PlaceName Deposit) (p : PlaceName) :
    (branch.foldl (fun deposits p => deposits.set p (.tokens 1)) m).get? p =
      if p ∈ branch then some (.tokens 1) else m.get? p := by
  induction branch generalizing m with
  | nil => rfl
  | cons q branch ih =>
    rw [List.foldl_cons, ih, OrderedMap.get?_set]
    by_cases later : p ∈ branch
    · simp [later]
    · by_cases here : p = q <;> simp [later, here]

/-- A branch gives each of its places one token. -/
theorem lookup_branchOutcome (branch : List PlaceName) (p : PlaceName) :
    (branchOutcome branch).deposits.lookup p = if p ∈ branch then some (.tokens 1) else none := by
  have listed (d : Deposit) : (branchOutcome branch).deposits.lookup p = some d ↔ p ∈ branch ∧ d = .tokens 1 := by
    rw [OrderedMap.lookup_eq_some_iff (branchOutcome branch).nodup]
    have sorted : (p, d) ∈ (branchOutcome branch).deposits ↔
        (p, d) ∈ (branch.foldl (fun deposits p => deposits.set p (.tokens 1)) OrderedMap.empty).entries :=
      (List.perm_insertionSort _ _).mem_iff
    rw [sorted, ← OrderedMap.get?_eq_some_iff, get?_foldl_set, OrderedMap.get?_empty]
    split
    next mem => simp [mem, eq_comm]
    next absent => simp [absent]
  cases found : (branchOutcome branch).deposits.lookup p with
  | none =>
    split
    next mem => rw [(listed _).mpr ⟨mem, rfl⟩] at found; cases found
    next => rfl
  | some d =>
    obtain ⟨mem, rfl⟩ := (listed d).mp found
    rw [if_pos mem]

/-! ## Entries that an outcome accounts for -/

section Entries

variable {V N : Type}

/-- The action writes only places its context accepts, and each at most once. -/
structure WritesOnce (t : Transition V N) (entries : List (PlaceName × Token V)) : Prop where
  declared : ∀ e ∈ entries, e.1 ∈ t.outputPlaces
  once : (entries.map Prod.fst).Nodup

theorem length_entriesAt {entries : List (PlaceName × Token V)} (once : (entries.map Prod.fst).Nodup) (p : PlaceName) :
    (entriesAt entries p).length = if p ∈ entries.map Prod.fst then 1 else 0 := by
  induction entries with
  | nil => rfl
  | cons e entries ih =>
    obtain ⟨new, once⟩ := List.nodup_cons.mp once
    have split : entriesAt (e :: entries) p = (if e.1 = p then [e.2] else []) ++ entriesAt entries p := by
      by_cases here : e.1 = p
      · simp [entriesAt, here]
      · simp [entriesAt, here]
    rw [split, List.length_append, ih once, List.map_cons]
    by_cases here : e.1 = p
    · subst here
      rw [if_pos rfl, if_neg new, if_pos List.mem_cons_self]
      rfl
    · have apart : p ≠ e.1 := fun same => here same.symm
      rw [if_neg here, List.length_nil, Nat.zero_add]
      exact if_congr (by rw [List.mem_cons, or_iff_right apart]) rfl rfl

/-- The specification, if there is one, accepts the places that were written. -/
def Claims (t : Transition V N) (entries : List (PlaceName × Token V)) : Prop :=
  ∀ spec, t.outputSpec = some spec → Claimed spec (placesWithTokens entries)

/-- An accepted output is an outcome, whatever the firing drained. -/
theorem exists_outcome {t : Transition V N} {entries : List (PlaceName × Token V)} (accepted : Claims t entries)
    (writes : WritesOnce t entries) : ∃ o ∈ outcomes t, ∀ (m : TokenGame.Counts) (p : PlaceName),
      (entriesAt entries p).length = TokenGame.deposited t m o p := by
  cases named : t.outputSpec with
  | none =>
    have nothing : entries = [] := by
      refine List.eq_nil_iff_forall_not_mem.mpr fun e mem => ?_
      have declared := writes.declared e mem
      rw [Transition.outputPlaces, named] at declared
      cases declared
    refine ⟨emptyOutcome, by rw [outcomes, named]; exact List.mem_singleton_self _, fun m p => ?_⟩
    rw [nothing]
    rfl
  | some spec =>
    obtain ⟨branch, listed, places⟩ := accepted spec named
    have action : branchOutcome branch ∈ actionOutcomes spec := by
      have inside : branchOutcome branch ∈ (enumerateBranches spec).map branchOutcome := List.mem_map_of_mem listed
      unfold actionOutcomes
      rw [if_neg (List.ne_nil_of_mem inside)]
      exact inside
    have collected (p : PlaceName) (mem : p ∈ entries.map Prod.fst) : p ∈ spec.collectPlaces := by
      obtain ⟨e, wrote, rfl⟩ := List.mem_map.mp mem
      have declared := writes.declared e wrote
      rwa [Transition.outputPlaces, named] at declared
    have written (p : PlaceName) : p ∈ branch ↔ p ∈ entries.map Prod.fst := by
      rw [places, placesWithTokens, List.mem_eraseDups]
      exact and_iff_left_of_imp (collected p)
    refine ⟨_, (mem_outcomes named).mpr (.inl action), fun m p => ?_⟩
    rw [length_entriesAt writes.once, TokenGame.deposited, lookup_branchOutcome]
    by_cases mem : p ∈ branch
    · rw [if_pos ((written p).mp mem), if_pos mem]
      rfl
    · rw [if_neg (fun wrote => mem ((written p).mpr wrote)), if_neg mem]

end Entries

/-! ## The checks of the two executors -/

section Verdicts

variable {V N : Type} [LinearOrder N] [Value V] [ToString N] {cfg : Setting V N} {tid : Tid cfg.net}
  {flight : Flight V N}

omit [LinearOrder N] [Value V] [ToString N] in
theorem ok_of_seq {α : Type} {check : Except Thrown α} {rest : Except Thrown Unit}
    (passes : (do let _ ← check; rest) = .ok ()) : ∃ answer, check = .ok answer := by
  cases check with
  | error e => cases passes
  | ok answer => exact ⟨answer, rfl⟩

theorem BitmapNetExecutor.accepted_of_verdict (passes : BitmapNetExecutor.verdict tid flight = .ok ()) :
    Claims (transition tid) flight.entries := by
  intro spec named
  rw [BitmapNetExecutor.verdict, named] at passes
  obtain ⟨claim, checked⟩ := ok_of_seq passes
  exact claimed_of_validateOutSpec checked

/-- The executor with opcodes checks a single place without the search. -/
theorem PrecompiledNetExecutor.accepted_of_verdict (validates : cfg.skipOutputValidation = false)
    (passes : PrecompiledNetExecutor.verdict tid flight = .ok ()) : Claims (transition tid) flight.entries := by
  intro spec named
  rw [PrecompiledNetExecutor.verdict, validates, named] at passes
  dsimp only at passes
  by_cases single : ∃ p, spec = .place p
  · obtain ⟨p, rfl⟩ := single
    have simple : PrecompiledNet.simpleOutputPlaceId tid = placeId cfg.net p := by
      unfold PrecompiledNet.simpleOutputPlaceId
      rw [named]
    have known : p ∈ placesById cfg.net := by
      refine mem_placesById.mpr (.inl ⟨_, transition_mem tid, .inr ?_⟩)
      rw [Transition.outputPlaces, named]
      exact List.mem_singleton_self p
    rw [simple, if_pos (Int.natCast_nonneg _), Int.toNat_natCast, place_placeId known] at passes
    split at passes
    · cases passes
    next wrote =>
      refine ⟨[p], List.mem_singleton_self _, fun q => ?_⟩
      rw [Out.collectPlaces, List.mem_singleton]
      exact ⟨fun same => ⟨same ▸ not_not.mp wrote, same⟩, And.right⟩
  · have branching : PrecompiledNet.simpleOutputPlaceId tid = -1 := by
      unfold PrecompiledNet.simpleOutputPlaceId
      rw [named]
      cases spec with
      | place p => exact absurd ⟨p, rfl⟩ single
      | _ => rfl
    rw [branching, if_neg (by decide), if_pos rfl] at passes
    obtain ⟨claim, checked⟩ := ok_of_seq passes
    exact claimed_of_validateOutSpec checked

end Verdicts

/-! ## Along a run -/

section Runs

variable {V N : Type} [LinearOrder N] {cfg : Setting V N} {S : Type}

/-- The outputs of a completion that landed, each deposited once and in order. -/
def Landed (tid : Tid cfg.net) (entries : List (PlaceName × Token V)) (older : List (Effect cfg.net)) : Prop :=
  ∃ before, older = landings entries ++ .settled tid entries :: before

/-- Every completion on the record that landed was accepted. -/
def AllAccepted : List (Effect cfg.net) → Prop
  | [] => True
  | .landed tid :: older =>
    (∃ entries, Landed tid entries older ∧ Claims (transition tid) entries) ∧ AllAccepted older
  | _ :: older => AllAccepted older

omit [LinearOrder N] in
theorem allAccepted_cons {e : Effect cfg.net} {older : List (Effect cfg.net)} (lands : ∀ tid, e ≠ .landed tid) :
    AllAccepted (e :: older) ↔ AllAccepted older := by
  cases e with
  | landed tid => exact absurd rfl (lands tid)
  | _ => exact Iff.rfl

omit [LinearOrder N] in
theorem allAccepted_inTurn {recent older : List (Effect cfg.net)} (inside : ∀ e ∈ recent, inTurn e = true) :
    AllAccepted (recent ++ older) ↔ AllAccepted older := by
  induction recent with
  | nil => exact Iff.rfl
  | cons e recent ih =>
    obtain ⟨here, later⟩ := List.forall_mem_cons.mp inside
    rw [List.cons_append, allAccepted_cons fun tid same => by rw [same] at here; cases here]
    exact ih later

omit [LinearOrder N] in
theorem AllAccepted.landed {history later older : List (Effect cfg.net)} {tid : Tid cfg.net}
    (h : AllAccepted history) (split : history = later ++ .landed tid :: older) :
    ∃ entries, Landed tid entries older ∧ Claims (transition tid) entries := by
  subst split
  induction later with
  | nil => exact h.1
  | cons e later ih =>
    refine ih ?_
    cases e with
    | landed _ => exact h.2
    | _ => exact h

/-- The record of the tokens, checked. -/
def Vetted (x : Exec cfg S) : Prop := AllAccepted (x.history.filter booked)

theorem checked_ofStock : OfStock (Vetted : Exec cfg S → Prop) := by
  intro x y same h
  have record : y.history.filter booked = x.history.filter booked := congrArg Stock.record same
  unfold Vetted
  rwa [record]

theorem checked_noted {x : Exec cfg S} {e : Effect cfg.net} (lands : ∀ tid, e ≠ .landed tid) (h : Vetted x) :
    Vetted (recorded e x) := by
  unfold Vetted recorded
  dsimp only
  by_cases kept : booked e = true
  · rw [List.filter_cons_of_pos kept]
    exact (allAccepted_cons lands).mpr h
  · rw [List.filter_cons_of_neg kept]
    exact h

variable {B : Backend cfg S} {verdict : Tid cfg.net → Flight V N → Except Thrown Unit} {x₀ : Exec cfg S}
  {tid : Tid cfg.net} {flight : Flight V N}

theorem checked_apart : Apart B (Vetted : Exec cfg S → Prop) :=
  { checked_ofStock.calm.aloof with
    stored := fun _ _ h => h
    withCaches := fun _ _ h => h
    unsettled := fun _ _ h => h
    ofFiring := fun x e fires h => checked_noted (fun tid same => by rw [same] at fires; cases fires) h }

/-- Of a completion, what has landed so far. -/
def LandingOn (x₀ : Exec cfg S) (tid : Tid cfg.net) (entries done : List (PlaceName × Token V)) (x : Exec cfg S) :
    Prop :=
  x.history.filter booked = landings done ++ .settled tid entries :: x₀.history.filter booked

theorem landingOn_ofStock {entries done : List (PlaceName × Token V)} :
    OfStock (LandingOn (S := S) x₀ tid entries done) := by
  intro x y same h
  have record : y.history.filter booked = x.history.filter booked := congrArg Stock.record same
  exact record.trans h

theorem LandingOn.checked {entries done : List (PlaceName × Token V)} {x : Exec cfg S}
    (h : LandingOn x₀ tid entries done x) (before : Vetted x₀) : Vetted x := by
  unfold Vetted
  rw [h, allAccepted_inTurn (inTurn_landings done)]
  exact before

theorem LandingOn.lands {entries : List (PlaceName × Token V)} {x : Exec cfg S}
    (h : LandingOn x₀ tid entries entries x) (before : Vetted x₀) (accepted : Claims (transition tid) entries) :
    Vetted (recorded (.landed tid) (unsettled false x)) := by
  have record : (recorded (.landed tid) (unsettled false x)).history.filter booked =
      .landed tid :: (landings entries ++ .settled tid entries :: x₀.history.filter booked) := congrArg (List.cons _) h
  unfold Vetted
  rw [record]
  refine ⟨⟨entries, ⟨_, rfl⟩, accepted⟩, ?_⟩
  rw [allAccepted_inTurn (inTurn_landings entries)]
  exact before

/-- A completion that passes its checks. -/
theorem completionRule_checked (before : Vetted x₀) (accepted : Claims (transition tid) flight.entries) :
    CompletionRule B tid flight x₀ (LandingOn x₀ tid flight.entries) Vetted Vetted Vetted where
  start := rfl
  aloof _ := landingOn_ofStock.calm.aloof
  deposit done entry rest x y _ h _ d _ history := by
    have record : y.history.filter booked = .deposited entry.1 entry.2 :: x.history.filter booked := by
      rw [history]
      rfl
    unfold LandingOn
    rw [record, h, landings, landings, List.map_append, List.reverse_append]
    rfl
  lands x h := h.lands before accepted
  aloofQ := checked_ofStock.calm.aloof
  refused x h := checked_noted (fun _ => nofun) (h.checked before)
  failed := checked_noted (fun _ => nofun) (checked_noted (fun _ => nofun) before)
  aloofF := checked_ofStock.calm.aloof
  fails _ := id
  crashes _ := id

/-- One that does not fails. -/
theorem completeTransition_refused (conforms : Conforms B verdict) (held : B.flight? tid x₀.store = some flight)
    (refused : flight.error.filter Thrown.truthy = none → verdict tid flight ≠ .ok ()) (before : Vetted x₀) :
    Prog.Spec (· = x₀) (completeTransition B tid) (fun _ => Vetted) fun _ => Vetted := by
  have calm : Aloof B (Vetted : Exec cfg S → Prop) := checked_ofStock.calm.aloof
  have fails (e : Thrown) : Prog.Spec Vetted (failCompletion B tid e) (fun _ => Vetted) fun _ => Vetted :=
    (failCompletion_rule calm (fun _ => id) e).conseq (fun _ h => checked_noted (fun _ => nofun) h) (fun _ _ => id)
      fun _ _ => id
  refine Prog.Spec.gets_at ?_
  rw [held]
  refine Prog.Spec.modify_bind (R := Vetted) ?_ (by rintro _ rfl; exact checked_noted (fun _ => nofun) before)
  refine Prog.Spec.modify_bind (R := Vetted) ?_ fun x h => h
  refine Prog.Spec.modify_bind (R := Vetted) ?_ fun x h => h
  cases failed : flight.error.filter Thrown.truthy with
  | some e => exact fails e
  | none =>
    refine Prog.Spec.modify_bind (R := Vetted) ?_ fun x h => h
    refine Prog.Spec.tryCatch (E := fun _ => Vetted) ?_ fun e => ?_
    · refine Prog.Spec.bind (conforms.validates tid flight calm.toHostStable (fun x warned h => h) fun x e h _ => h)
        fun _ x h => absurd h.1 (refused failed)
    · exact Prog.Spec.modify_bind (fails e) fun x h => h

theorem steady_checked (conforms : Conforms B verdict)
    (accepts : ∀ tid flight, verdict tid flight = .ok () → Claims (transition tid) flight.entries) :
    Steady B verdict ⟨Vetted, Vetted, Vetted, Vetted⟩ := by
  refine checked_ofStock.calm.steady (fun _ _ _ _ h _ _ => h) (fun tid x h coherent on _ => ?_)
    (fun tid flight x h _ held lands => ?_) fun i event x h _ projects => ?_
  · exact (checked_apart.firingRule (fun _ => id) h).fireTransitionContained conforms coherent on
  · by_cases passes : flight.error.filter Thrown.truthy = none → verdict tid flight ≠ .ok ()
    · exact completeTransition_refused conforms held passes h
    · have passed : verdict tid flight = .ok () := by
        by_contra other
        exact passes fun _ => other
      exact (completionRule_checked h (accepts tid flight passed)).completeTransition conforms held lands
  · refine admitEvent_rule conforms (A := Vetted) projects checked_ofStock.hostStable (fun y _ _ history => ?_)
      fun y h => checked_noted (fun _ => nofun) h
    unfold Vetted
    rw [history]
    exact h

theorem checked_built {x : Exec cfg S} (built : Built B x) : Vetted x := by
  obtain ⟨events, history⟩ := built.history
  have quiet : ∀ e ∈ x.history.filter booked, ∀ tid, e ≠ .landed tid := by
    rw [history]
    intro e mem tid same
    subst same
    cases List.mem_append.mp (List.mem_filter.mp mem).1 with
    | inl appended =>
      obtain ⟨_, -, other⟩ := List.mem_map.mp appended
      cases other
    | inr seeded =>
      obtain ⟨entry, -, mem⟩ := List.mem_flatMap.mp (List.mem_reverse.mp seeded)
      obtain ⟨token, -, other⟩ := List.mem_map.mp mem
      cases other
  have started (record : List (Effect cfg.net)) (quiet : ∀ e ∈ record, ∀ tid, e ≠ .landed tid) :
      AllAccepted record := by
    induction record with
    | nil => trivial
    | cons e record ih =>
      obtain ⟨here, older⟩ := List.forall_mem_cons.mp quiet
      exact (allAccepted_cons here).mpr (ih older)
  exact started _ quiet

variable [Value V] [ToString N]

theorem BitmapNetExecutor.checked {m : Machine cfg (BitmapStore cfg)}
    (run : ReachableBy (BitmapNetExecutor.backend cfg) (BitmapNetExecutor.new cfg)
      (CleanDeposits (BitmapNetExecutor.backend cfg) BitmapNetExecutor.verdict) m) : Vetted m.exec := by
  have steady : Steady (BitmapNetExecutor.backend cfg) BitmapNetExecutor.verdict ⟨Vetted, Vetted, Vetted, Vetted⟩ :=
    steady_checked BitmapNetExecutor.conforms fun _ _ => BitmapNetExecutor.accepted_of_verdict
  exact at_uniform (steady.reachable BitmapNetExecutor.conforms (fun x made => (BitmapNetExecutor.built made).1)
    (fun x made => checked_built (BitmapNetExecutor.built made).1) run).1

theorem PrecompiledNetExecutor.checked (validates : cfg.skipOutputValidation = false)
    {m : Machine cfg (PrecompiledStore cfg)}
    (run : ReachableBy (PrecompiledNetExecutor.backend cfg) (PrecompiledNetExecutor.new cfg)
      (CleanDeposits (PrecompiledNetExecutor.backend cfg) PrecompiledNetExecutor.verdict) m) : Vetted m.exec := by
  have steady : Steady (PrecompiledNetExecutor.backend cfg) PrecompiledNetExecutor.verdict
      ⟨Vetted, Vetted, Vetted, Vetted⟩ :=
    steady_checked PrecompiledNetExecutor.conforms fun _ _ => PrecompiledNetExecutor.accepted_of_verdict validates
  exact at_uniform (steady.reachable PrecompiledNetExecutor.conforms
    (fun x made => (PrecompiledNetExecutor.built made).1)
    (fun x made => checked_built (PrecompiledNetExecutor.built made).1) run).1

/-- What completions deposit: an outcome of the transition, place by place, if the action writes each place at most
once. -/
def DepositsOutcomes (history : List (Effect cfg.net)) : Prop :=
  ∀ later tid older, history = later ++ .landed tid :: older → ∃ entries, Landed tid entries older ∧
    (WritesOnce (transition tid) entries → ∃ o ∈ outcomes (transition tid), ∀ m p,
      (entriesAt entries p).length = TokenGame.deposited (transition tid) m o p)

omit [LinearOrder N] [Value V] [ToString N] in
theorem AllAccepted.outcomes {history : List (Effect cfg.net)} (h : AllAccepted history) : DepositsOutcomes history := by
  intro later tid older split
  obtain ⟨entries, landed, accepted⟩ := h.landed split
  exact ⟨entries, landed, exists_outcome accepted⟩

/-- In both executors. -/
theorem completions_deposit_outcomes (cfg : Setting V N) :
    (∀ m, ReachableBy (BitmapNetExecutor.backend cfg) (BitmapNetExecutor.new cfg)
        (CleanDeposits (BitmapNetExecutor.backend cfg) BitmapNetExecutor.verdict) m →
        DepositsOutcomes (m.exec.history.filter booked)) ∧
      (cfg.skipOutputValidation = false → ∀ m,
        ReachableBy (PrecompiledNetExecutor.backend cfg) (PrecompiledNetExecutor.new cfg)
          (CleanDeposits (PrecompiledNetExecutor.backend cfg) PrecompiledNetExecutor.verdict) m →
          DepositsOutcomes (m.exec.history.filter booked)) :=
  ⟨fun _ run => (BitmapNetExecutor.checked run).outcomes,
    fun validates _ run => (PrecompiledNetExecutor.checked validates run).outcomes⟩

end Runs

/-! ## A choice -/

/-- Sends a token one way or the other. -/
def forking : Transition (Option Nat) Nat where
  name := "forking"
  inputSpecs := [.one "in"]
  outputSpec := some (.xor [.place "left", .place "right"])
  inhibitors := []
  reads := []
  resets := []
  timing := .immediate
  priority := 0
  placeAlias := []
  matchSpec := none
  inputs_nodup := by decide
  required_pos := by decide
  timing_valid := trivial
  keys_nodup := unmatched_nodup
  keys_inputs := unmatched_inputs _

/-- The action goes left. -/
def forkSetting : Setting (Option Nat) Nat :=
  { quiet ⟨"forking", ["in", "left", "right"], [forking], [], nofun⟩ [("in", [⟨some 1, 0⟩])] with
    start := fun _ => ⟨none, [.output "left" (some 1)]⟩ }

/-- Up to the end of the run. -/
def goingLeft : List (Label forkSetting) :=
  List.replicate 15 .tick ++ [.settle ⟨0, by decide⟩ none, .deliver ⟨0, by decide⟩] ++ List.replicate 8 .tick

theorem forking_runs : ∃ m : Machine forkSetting (BitmapStore forkSetting),
    ReachableBy (BitmapNetExecutor.backend forkSetting) (BitmapNetExecutor.new forkSetting)
      (CleanDeposits (BitmapNetExecutor.backend forkSetting) BitmapNetExecutor.verdict) m ∧
      m.phase = .ended ∧ m.exec.store.marking.peekTokens "left" = [⟨some 1, 0⟩] :=
  ⟨_, ⟨_, rfl, Reaches.foldl_allOk goingLeft (by decide +kernel) .start⟩, by decide +kernel, by decide +kernel⟩

theorem forking_deposits_outcome : ∃ m : Machine forkSetting (BitmapStore forkSetting),
    m.exec.store.marking.peekTokens "left" = [⟨some 1, 0⟩] ∧ DepositsOutcomes (m.exec.history.filter booked) := by
  obtain ⟨m, run, -, left⟩ := forking_runs
  exact ⟨m, left, (completions_deposit_outcomes forkSetting).1 m run⟩

end LibPetri.Verified
