import LibPetri.Verified.HostCalls
import LibPetri.Verified.LawfulStore

/-! # What enablement depends on

Whether a transition is enabled depends on its own arcs alone: the bits and the queues of the places
they name, and its match cache.  A step that touches none of them leaves the answer as it was.
-/

namespace LibPetri.Verified

open LibPetri.Basis LibPetri.Core LibPetri.Runtime CompiledNet Executor

variable {V N : Type} [LinearOrder N] {cfg : Setting V N} {S : Type}

theorem mapM_congr {α β ε : Type} {f g : α → Except ε β} {l : List α} (h : ∀ a ∈ l, f a = g a) :
    l.mapM f = l.mapM g := by
  induction l with
  | nil => rfl
  | cons a l ih =>
    rw [List.mapM_cons, List.mapM_cons, h a List.mem_cons_self,
      ih fun b hb => h b (List.mem_cons_of_mem _ hb)]

/-- The binding of a transition is found in the queues its keys name. -/
theorem findBinding_congr {t : Transition V N} {q q' : PlaceName → List (Token V)}
    (same : ∀ p ∈ arcPlaces t, q' p = q p) : findBinding t q' = findBinding t q := by
  unfold findBinding
  cases h : t.matchSpec with
  | none => rfl
  | some ms =>
    have keys := mapM_congr (f := fun k => buildNameIndex (q' k.place) k.key)
      (g := fun k => buildNameIndex (q k.place) k.key) (l := ms.keys) fun k hk => by
        rw [same k.place (key_arc h hk)]
    simp only [keys]

/-- The cardinality check, over the inputs. -/
theorem hasCardinality_iff (B : Backend cfg S) (tid : Tid cfg.net) (x : Exec cfg S) :
    hasCardinality B tid x = true ↔
      ((transition tid).inputSpecs.any In.needsCardinality = true →
        ∀ spec ∈ (transition tid).inputSpecs,
          spec.requiredCount ≤ (B.queue spec.place x.store).length) := by
  unfold hasCardinality cardinalityCheck
  split
  next h =>
    split at h
    · cases h
    next any => simp [any]
  next checks h =>
    split at h
    next any =>
      cases h
      simp only [any, true_implies, List.all_map, List.all_eq_true, Function.comp, decide_eq_true_eq]
      refine forall₂_congr fun spec hspec => ?_
      rw [place_placeId (known_of_input hspec)]
    · cases h

/-- Two states between which nothing has touched the arcs of `tid`. -/
structure SameView (ops : StoreOps cfg S) (tid : Tid cfg.net) (x y : Exec cfg S) : Prop where
  queues : ∀ p ∈ arcPlaces (transition tid), ops.queue p y.store = ops.queue p x.store
  cache : y.ctl.matchCaches tid = x.ctl.matchCaches tid

theorem bindingOf_congr {ops : StoreOps cfg S} {tid : Tid cfg.net} {x y : Exec cfg S}
    (same : SameView ops tid x y) : bindingOf ops tid y = bindingOf ops tid x := by
  unfold bindingOf
  rw [same.cache]
  cases x.ctl.matchCaches tid with
  | some cache => rfl
  | none => exact findBinding_congr same.queues

theorem hasCardinality_congr {B : Backend cfg S} {tid : Tid cfg.net} {x y : Exec cfg S}
    (same : SameView B.toStoreOps tid x y) : hasCardinality B tid y = hasCardinality B tid x := by
  rw [Bool.eq_iff_iff, hasCardinality_iff, hasCardinality_iff]
  refine imp_congr_right fun _ => forall₂_congr fun spec hspec => ?_
  rw [same.queues _ (input_arc hspec)]

/-- An executor whose masks are those of the compiled net. -/
def ByMasks (B : Backend cfg S) : Prop :=
  ∀ tid snap, B.maskAllows tid snap = canEnableBitmap tid snap

theorem canEnable_congr {B : Backend cfg S} (masks : ByMasks B) {tid : Tid cfg.net} {x y : Exec cfg S}
    (same : SameView B.toStoreOps tid x y) {snap snap' : Bitset (placeCount cfg.net)}
    (bits : ∀ p ∈ arcPlaces (transition tid),
      snap'.testBit (placeId cfg.net p) = snap.testBit (placeId cfg.net p)) :
    canEnable B tid snap' y = canEnable B tid snap x := by
  unfold canEnable
  rw [masks, masks, canEnableBitmap_congr bits, hasCardinality_congr same, bindingOf_congr same]

end LibPetri.Verified
