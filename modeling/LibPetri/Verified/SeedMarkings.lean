import LibPetri.Verified.Construction
import LibPetri.Verified.LawfulStore
import LibPetri.Verified.Reachable

/-! # The marking an executor starts from

A key of the initial tokens is a place object, and two of them can carry one name.  The bitmap executor
starts from the queue of the last key of each name; the precompiled one appends the queues of all its keys.
-/

namespace LibPetri.Verified

open LibPetri.Basis LibPetri.Core LibPetri.Runtime CompiledNet Executor

variable {V N : Type}

/-! ## The two markings -/

/-- All tokens of all keys of a name, in map order. -/
def seedTokens (initial : List (PlaceName × List (Token V))) (p : PlaceName) : List (Token V) :=
  initial.flatMap fun e => if e.1 = p then e.2 else []

theorem seedTokens_append_singleton (initial : List (PlaceName × List (Token V)))
    (e : PlaceName × List (Token V)) (p : PlaceName) :
    seedTokens (initial ++ [e]) p = seedTokens initial p ++ if e.1 = p then e.2 else [] := by
  rw [seedTokens, List.flatMap_append, List.flatMap_singleton]
  rfl

theorem seedTokens_eq_nil_iff {initial : List (PlaceName × List (Token V))} {p : PlaceName} :
    seedTokens initial p = [] ↔ ∀ e ∈ initial, e.1 = p → e.2 = [] := by
  rw [seedTokens, List.flatMap_eq_nil_iff]
  refine forall_congr' fun e => forall_congr' fun _ => ?_
  split
  next same => simp [same]
  next other => simp [other]

theorem peekTokens_ofInitial_append (initial : List (PlaceName × List (Token V)))
    (e : PlaceName × List (Token V)) (p : PlaceName) :
    (Marking.ofInitial (initial ++ [e])).peekTokens p =
      if p = e.1 then e.2 else (Marking.ofInitial initial).peekTokens p := by
  rw [Marking.ofInitial, List.foldl_append, List.foldl_cons, List.foldl_nil, Marking.peekTokens,
    OrderedMap.get?_set]
  split
  next => rfl
  next => rfl

theorem mem_seedTokens_of_mem {initial : List (PlaceName × List (Token V))} {p : PlaceName}
    {token : Token V} (mem : token ∈ (Marking.ofInitial initial).peekTokens p) :
    token ∈ seedTokens initial p := by
  induction initial using List.reverseRecOn with
  | nil => cases mem
  | append_singleton initial e ih =>
    rw [peekTokens_ofInitial_append] at mem
    rw [seedTokens_append_singleton, List.mem_append]
    split at mem
    next same =>
      rw [if_pos same.symm]
      exact .inr mem
    next => exact .inl (ih mem)

/-- The last key of each name decides, so nothing is lost exactly when no earlier key of the name holds a
token. -/
theorem ofInitial_right {initial : List (PlaceName × List (Token V))} :
    (∀ p, (Marking.ofInitial initial).peekTokens p = seedTokens initial p) ↔
      initial.Pairwise fun e e' => e.1 = e'.1 → e.2 = [] := by
  induction initial using List.reverseRecOn with
  | nil => simp [Marking.ofInitial, Marking.peekTokens, seedTokens]
  | append_singleton initial e ih =>
    have earlier : seedTokens initial e.1 = [] ↔ ∀ a ∈ initial, ∀ b ∈ [e], a.1 = b.1 → a.2 = [] := by
      simp [seedTokens_eq_nil_iff]
    rw [List.pairwise_append, ← ih, ← earlier]
    constructor
    · intro all
      have here := all e.1
      rw [peekTokens_ofInitial_append, seedTokens_append_singleton, if_pos rfl, if_pos rfl] at here
      have here : seedTokens initial e.1 = [] := List.self_eq_append_left.mp here
      refine ⟨fun p => ?_, List.pairwise_singleton _ _, here⟩
      by_cases same : p = e.1
      · -- The tokens of an earlier key would be among all tokens of the name.
        rw [same, here, List.eq_nil_iff_forall_not_mem]
        intro token mem
        have listed := mem_seedTokens_of_mem mem
        rw [here] at listed
        cases listed
      · have there := all p
        rw [peekTokens_ofInitial_append, seedTokens_append_singleton, if_neg same,
          if_neg (Ne.symm same), List.append_nil] at there
        exact there
    · rintro ⟨all, -, here⟩ p
      rw [peekTokens_ofInitial_append, seedTokens_append_singleton]
      split
      next same => rw [same, here, if_pos rfl, List.nil_append]
      next other => rw [all p, if_neg (Ne.symm other), List.append_nil]

/-! ## The precompiled executor -/

section Precompiled

open PrecompiledNetExecutor

variable [LinearOrder N] {cfg : Setting V N}

theorem queueOf_loadToken (p : PlaceName) (x : Exec cfg (PrecompiledStore cfg)) (token : Token V)
    (q : PlaceName) :
    queueOf q (loadToken p x token).store =
      queueOf q x.store ++ if p = q then [token] else [] := by
  unfold loadToken
  by_cases known : p ∈ placesById cfg.net
  · rw [tryPlaceId_eq, if_pos known]
    refine (queueOf_setQueue x.store known _ q).trans ?_
    by_cases same : q = p
    · rw [if_pos same, if_pos same.symm, same, queueOf_known x.store known]
    · rw [if_neg same, if_neg (Ne.symm same), List.append_nil]
  · rw [tryPlaceId_eq, if_neg known]
    -- The side store of undeclared places, whether the first token is warned about or not.
    have retained (y : Exec cfg (PrecompiledStore cfg))
        (store : y.store = { x.store with
          unknownPlaceTokens := x.store.unknownPlaceTokens.set p
            ((x.store.unknownPlaceTokens.get? p).getD [] ++ [token]) }) :
        queueOf q y.store = queueOf q x.store ++ if p = q then [token] else [] := by
      rw [store]
      by_cases same : p = q
      · subst same
        rw [queueOf, queueOf, tryPlaceId_eq, if_neg known, if_pos rfl]
        dsimp only
        rw [OrderedMap.get?_set, if_pos rfl, Option.getD_some]
      · rw [if_neg same, List.append_nil, queueOf, queueOf]
        split
        next => rfl
        next => rw [OrderedMap.get?_set, if_neg (Ne.symm same)]
    dsimp only
    split
    next => exact retained _ rfl
    next => exact retained _ (store_warnUnheard _ _ _)

theorem queueOf_loadTokens (p : PlaceName) (tokens : List (Token V))
    (x : Exec cfg (PrecompiledStore cfg)) (q : PlaceName) :
    queueOf q (tokens.foldl (loadToken p) x).store =
      queueOf q x.store ++ if p = q then tokens else [] := by
  induction tokens generalizing x with
  | nil => simp
  | cons token tokens ih =>
    rw [List.foldl_cons, ih, queueOf_loadToken, List.append_assoc]
    split
    next => rfl
    next => rfl

/-- Every token of the seed is loaded, in map order. -/
theorem queueOf_loadSeed (cfg : Setting V N) (q : PlaceName) :
    queueOf q (loadSeed cfg).store = seedTokens cfg.initialTokens q := by
  have loads (initial : List (PlaceName × List (Token V))) (x : Exec cfg (PrecompiledStore cfg)) :
      queueOf q (initial.foldl (fun x e => e.2.foldl (loadToken e.1) x) x).store =
        queueOf q x.store ++ seedTokens initial q := by
    induction initial generalizing x with
    | nil => exact (List.append_nil _).symm
    | cons e initial ih =>
      rw [List.foldl_cons, ih, queueOf_loadTokens, List.append_assoc]
      rfl
  rw [loadSeed, loads]
  have nothing (s : PrecompiledStore cfg) (queues : s.tokenQueues = fun _ => [])
      (unknown : s.unknownPlaceTokens = OrderedMap.empty) : queueOf q s = [] := by
    rw [queueOf, queues, unknown]
    split
    next => rfl
    next => rfl
  rw [constructed, nothing _ rfl rfl, List.nil_append]

end Precompiled

/-! ## Both executors -/

variable [LinearOrder N] [Value V] [ToString N]

/-- Both executors start with all tokens of all keys of each name exactly when, of the keys of one name,
none but the last holds tokens. -/
theorem seed_right {cfg : Setting V N} {x : Exec cfg (BitmapStore cfg)} {y : Exec cfg (PrecompiledStore cfg)}
    (bitmap : BitmapNetExecutor.new cfg = .ok x) (precompiled : PrecompiledNetExecutor.new cfg = .ok y) :
    (∀ p, x.store.marking.peekTokens p = seedTokens cfg.initialTokens p ∧
        PrecompiledNetExecutor.queueOf p y.store = seedTokens cfg.initialTokens p) ↔
      cfg.initialTokens.Pairwise fun e e' => e.1 = e'.1 → e.2 = [] := by
  rw [(BitmapNetExecutor.built bitmap).2, (PrecompiledNetExecutor.built precompiled).2]
  refine Iff.trans (forall_congr' fun p => ?_) ofInitial_right
  rw [queueOf_loadSeed]
  exact and_iff_left rfl

/-- A net of one place. -/
def llonePlace (initialTokens : List (PlaceName × List (Token (Option Nat)))) : Setting (Option Nat) Nat :=
  quiet ⟨"one place", ["p"], [], [], nofun⟩ initialTokens

/-- Two keys of one name: the first without tokens, or both with one. -/
def laterKey : Setting (Option Nat) Nat := llonePlace [("p", []), ("p", [⟨some 1, 0⟩])]

def bothKeys : Setting (Option Nat) Nat := llonePlace [("p", [⟨some 1, 0⟩]), ("p", [⟨some 2, 0⟩])]

theorem seed_right_laterKey : ∃ (x : Exec laterKey (BitmapStore laterKey))
    (y : Exec laterKey (PrecompiledStore laterKey)), ∀ p,
      x.store.marking.peekTokens p = seedTokens laterKey.initialTokens p ∧
        PrecompiledNetExecutor.queueOf p y.store = seedTokens laterKey.initialTokens p := by
  obtain ⟨x, bitmap⟩ : ∃ x, BitmapNetExecutor.new laterKey = .ok x := ⟨_, rfl⟩
  obtain ⟨y, precompiled⟩ : ∃ y, PrecompiledNetExecutor.new laterKey = .ok y := ⟨_, rfl⟩
  exact ⟨x, y, (seed_right bitmap precompiled).mpr (by simp [laterKey, llonePlace, quiet])⟩

/-- The bitmap executor keeps the tokens of the second key only. -/
theorem repeated_name_lost : ∃ x : Exec bothKeys (BitmapStore bothKeys),
    BitmapNetExecutor.new bothKeys = .ok x ∧
      x.store.marking.peekTokens "p" ≠ seedTokens bothKeys.initialTokens "p" :=
  ⟨_, rfl, by decide +kernel⟩

end LibPetri.Verified
