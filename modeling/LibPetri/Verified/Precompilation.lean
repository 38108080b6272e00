import LibPetri.Runtime.PrecompiledNetExecutor

/-! # Precompilation

The precompiled net keeps masks as sparse words and consumption as opcodes.  A sparse mask answers
what its bit set answers, and running the program of a list of inputs takes from each input in turn.
-/

namespace LibPetri.Verified

open LibPetri.Basis LibPetri.Core LibPetri.Runtime CompiledNet PrecompiledNet Executor

/-! ## Sparse masks -/

section Masks

variable {n : Nat}

/-- The words a sparse mask keeps. -/
def nonZeroWords (mask : Bitset n) : List Nat :=
  (List.range (wordCount n)).filter fun w => mask.word w != 0#32

theorem containedIn_words (mask snapshot : Bitset n) : (compileSparse mask).containedIn snapshot =
    (nonZeroWords mask).all fun w => snapshot.word w &&& mask.word w == mask.word w := by
  unfold compileSparse nonZeroWords
  rcases (List.range (wordCount n)).filter fun w => mask.word w != 0#32 with _ | ⟨w, _ | ⟨w', rest⟩⟩
  · rfl
  · have single : (w : Int) ≠ SPARSE_EMPTY := by unfold SPARSE_EMPTY; omega
    simp [SparseMask.containedIn, single]
  · simp [SparseMask.containedIn, SPARSE_EMPTY, SPARSE_MULTI, Function.comp_def]

theorem disjointFrom_words (mask snapshot : Bitset n) : (compileSparse mask).disjointFrom snapshot =
    (nonZeroWords mask).all fun w => snapshot.word w &&& mask.word w == 0#32 := by
  unfold compileSparse nonZeroWords
  rcases (List.range (wordCount n)).filter fun w => mask.word w != 0#32 with _ | ⟨w, _ | ⟨w', rest⟩⟩
  · rfl
  · have single : (w : Int) ≠ SPARSE_EMPTY := by unfold SPARSE_EMPTY; omega
    simp [SparseMask.disjointFrom, single]
  · simp [SparseMask.disjointFrom, SPARSE_EMPTY, SPARSE_MULTI, Function.comp_def]

theorem containedIn_compileSparse (mask snapshot : Bitset n) :
    (compileSparse mask).containedIn snapshot = snapshot.containsAll mask := by
  rw [containedIn_words, nonZeroWords, Bitset.containsAll, List.all_filter]
  congr 1
  funext w
  rw [bne, Bool.not_not]

theorem disjointFrom_compileSparse (mask snapshot : Bitset n) :
    (compileSparse mask).disjointFrom snapshot = !snapshot.intersects mask := by
  rw [disjointFrom_words, nonZeroWords, Bitset.intersects, List.all_filter, List.not_any_eq_all_not]
  congr 1
  funext w
  rw [bne, bne, Bool.not_and, Bool.not_not, Bool.not_not]

end Masks

variable {V N : Type}

theorem canEnableSparse_eq {net : PetriNet V N} (tid : Tid net) (snapshot : Bitset (placeCount net)) :
    canEnableSparse tid snapshot = canEnableBitmap tid snapshot := by
  rw [canEnableSparse, canEnableBitmap, containedIn_compileSparse, disjointFrom_compileSparse]

/-! ## Consumption programs -/

variable [LinearOrder N] {cfg : Setting V N}

namespace PrecompiledNetExecutor

open LibPetri.Runtime.PrecompiledNetExecutor

/-- How many tokens an input takes from a queue. -/
def takes (spec : In) (queue : List (Token V)) : Nat :=
  match spec with
  | .one _ => 1
  | .exactly count _ => count
  | .all _ => queue.length
  | .atLeast _ _ => queue.length

/-- Takes from one input. -/
def takeInput (spec : In) (c : Consumption V N) : Method cfg (PrecompiledStore cfg) (Consumption V N) := do
  let n ← Prog.gets fun x => takes spec (queueOf spec.place x.store)
  takeTokens (storeOps cfg) spec.place (shiftToken (placeId cfg.net spec.place)) n c

def takeInputs : List In → Consumption V N → Method cfg (PrecompiledStore cfg) (Consumption V N)
  | [], c => pure c
  | spec :: specs, c => takeInput spec c >>= takeInputs specs

/-- The program of a list of inputs takes from each of them. -/
theorem runInputOps_compileInput {specs : List In} (known : ∀ spec ∈ specs, spec.place ∈ placesById cfg.net)
    (c : Consumption V N) :
    runInputOps (specs.flatMap (compileInput cfg.net)) c = @takeInputs V N _ cfg specs c := by
  induction specs generalizing c with
  | nil => rfl
  | cons spec specs ih =>
    have here := known spec List.mem_cons_self
    have rest := funext fun c => ih (fun other h => known other (List.mem_cons_of_mem _ h)) c
    have queue (s : PrecompiledStore cfg) : s.tokenQueues (placeId cfg.net spec.place) =
        queueOf spec.place s := by rw [queueOf, tryPlaceId_eq, if_pos here]
    rw [List.flatMap_cons, takeInputs, ← rest]
    have named : place cfg.net (placeId cfg.net spec.place) = spec.place := place_placeId here
    cases spec with
    | one p | exactly count p =>
      change place cfg.net (placeId cfg.net p) = p at named
      show takeTokens _ (place cfg.net (placeId cfg.net p)) _ _ _ >>= _ = _
      rw [named]
      rfl
    | all p | atLeast minimum p =>
      change place cfg.net (placeId cfg.net p) = p at named
      show (Prog.gets fun x : Exec cfg (PrecompiledStore cfg) =>
        (x.store.tokenQueues (placeId cfg.net p)).length) >>= (fun count =>
          takeTokens _ (place cfg.net (placeId cfg.net p)) _ count _ >>= _) = _
      rw [named, takeInput, Prog.bind_assoc']
      change ∀ s : PrecompiledStore cfg, s.tokenQueues (placeId cfg.net p) = queueOf p s at queue
      simp only [queue]
      rfl

/-- The program of a list of resets empties each of them. -/
theorem runResetOps_compile {places : List PlaceName} (known : ∀ p ∈ places, p ∈ placesById cfg.net)
    (c : Consumption V N) : runResetOps (places.flatMap fun p => [RESET, placeId cfg.net p]) c =
      resetPlaces (storeOps cfg) places c := by
  induction places generalizing c with
  | nil => rfl
  | cons p places ih =>
    have rest := funext fun c => ih (fun other h => known other (List.mem_cons_of_mem _ h)) c
    rw [List.flatMap_cons, resetPlaces, ← rest]
    show resetPlace _ (place cfg.net (placeId cfg.net p)) _ >>= _ = _
    rw [place_placeId (known p List.mem_cons_self)]
    rfl

/-- What a firing without a match consumes. -/
theorem consume_unmatched {tid : Tid cfg.net} (unmatched : (transition tid).matchSpec = none) :
    consume tid = (do
      let c ← takeInputs (transition tid).inputSpecs { inputs := [], consumed := [], matchedName := none }
      let c ← peekReadArcs tid c
      resetPlaces (storeOps cfg) (transition tid).resets c) := by
  have inputs : (consumeOps tid).take (resetOpsStart tid) =
      (transition tid).inputSpecs.flatMap (compileInput cfg.net) := List.take_left
  have resets : (consumeOps tid).drop (resetOpsStart tid) =
      (transition tid).resets.flatMap fun p => [RESET, placeId cfg.net p] := List.drop_left
  unfold consume
  rw [unmatched]
  simp only [inputs, resets, runInputOps_compileInput fun spec h => known_of_input h,
    runResetOps_compile fun p h => known_of_reset h]
  rfl

end PrecompiledNetExecutor

end LibPetri.Verified
