import Mathlib

/-! # Runs of a labelled machine

A machine moves from state to state by labels.  `Reaches step Ok s` collects the states a run from `s`
can visit when every step it takes meets `Ok`, a condition on the state and the label it is taken
with.  `Reaches.invariant` is the induction over such runs.
-/

namespace LibPetri.Basis

variable {σ L : Type}

/-- The states of the runs from `s` whose steps all meet `Ok`. -/
inductive Reaches (step : σ → L → σ) (Ok : σ → L → Prop) (s : σ) : σ → Prop
  | start : Reaches step Ok s s
  | step {t : σ} (label : L) : Reaches step Ok s t → Ok t label → Reaches step Ok s (step t label)

namespace Reaches

variable {step : σ → L → σ} {Ok Ok' : σ → L → Prop} {s t : σ}

/-- What holds at the start and is kept by every step that meets `Ok` holds along the run. -/
theorem invariant {I : σ → Prop} (init : I s)
    (keeps : ∀ t label, I t → Ok t label → I (step t label)) (h : Reaches step Ok s t) : I t := by
  induction h with
  | start => exact init
  | step label _ ok ih => exact keeps _ label ih ok

/-- Runs under a stronger condition are runs under a weaker one. -/
theorem mono (weaker : ∀ t label, Ok t label → Ok' t label) (h : Reaches step Ok s t) :
    Reaches step Ok' s t := by
  induction h with
  | start => exact .start
  | step label _ ok ih => exact .step label ih (weaker _ _ ok)

/-- Folding labels over a machine is a run, where nothing is asked of the steps. -/
theorem foldl (labels : List L) (h : Reaches step (fun _ _ => True) s t) :
    Reaches step (fun _ _ => True) s (labels.foldl step t) := by
  induction labels generalizing t with
  | nil => exact h
  | cons label labels ih => exact ih (.step label h trivial)

/-- Every step of a list of labels meets `Ok`. -/
def AllOk (step : σ → L → σ) (Ok : σ → L → Prop) : List L → σ → Prop
  | [], _ => True
  | label :: labels, s => Ok s label ∧ AllOk step Ok labels (step s label)

instance decidableAllOk [∀ s label, Decidable (Ok s label)] :
    (labels : List L) → (s : σ) → Decidable (AllOk step Ok labels s)
  | [], _ => inferInstanceAs (Decidable True)
  | label :: labels, s =>
    have := decidableAllOk labels (step s label)
    inferInstanceAs (Decidable (Ok s label ∧ AllOk step Ok labels (step s label)))

/-- Folding labels over a machine is a run, where every step meets what is asked. -/
theorem foldl_allOk (labels : List L) (ok : AllOk step Ok labels t) (h : Reaches step Ok s t) :
    Reaches step Ok s (labels.foldl step t) := by
  induction labels generalizing t with
  | nil => exact h
  | cons label labels ih => exact ih ok.2 (.step label h ok.1)

end Reaches

/-! ## Folds -/

/-- What every step of a fold keeps, and one step of it establishes. -/
theorem foldl_establishes {α : Type} {f : σ → α → σ} {Q P : σ → Prop} {items : List α} {x : α}
    (mem : x ∈ items) (keeps : ∀ y ∈ items, ∀ s, Q s → Q (f s y)) (here : ∀ s, Q s → P (f s x))
    (stays : ∀ y ∈ items, ∀ s, Q s → P s → P (f s y)) {s : σ} (init : Q s) :
    P (items.foldl f s) := by
  have after (items : List α) (keeps : ∀ y ∈ items, ∀ s, Q s → Q (f s y))
      (stays : ∀ y ∈ items, ∀ s, Q s → P s → P (f s y)) (s : σ) (init : Q s) (there : P s) :
      P (items.foldl f s) := by
    refine (List.foldlRecOn (motive := fun s => Q s ∧ P s) items f ⟨init, there⟩ ?_).2
    exact fun s both y mem => ⟨keeps y mem s both.1, stays y mem s both.1 both.2⟩
  induction items generalizing s with
  | nil => cases mem
  | cons y items ih =>
    have keeps' : ∀ z ∈ items, ∀ s, Q s → Q (f s z) :=
      fun z mem => keeps z (List.mem_cons_of_mem y mem)
    have stays' : ∀ z ∈ items, ∀ s, Q s → P s → P (f s z) :=
      fun z mem => stays z (List.mem_cons_of_mem y mem)
    rw [List.foldl_cons]
    rcases List.mem_cons.mp mem with rfl | later
    · exact after items keeps' stays' _ (keeps x List.mem_cons_self s init) (here s init)
    · exact ih later keeps' stays' (keeps y List.mem_cons_self s init)

/-! ## Simulation -/

/-- What a run of one system does, a system that simulates it step by step does as well. -/
theorem exists_of_simulation {α β : Type*} {A : α → α → Prop} {B : β → β → Prop} {R : α → β → Prop}
    (simulates : ∀ a b b', R a b → B b b' → ∃ a', Relation.ReflTransGen A a a' ∧ R a' b')
    {a : α} {b b' : β} (related : R a b) (run : Relation.ReflTransGen B b b') :
    ∃ a', Relation.ReflTransGen A a a' ∧ R a' b' := by
  induction run with
  | refl => exact ⟨a, .refl, related⟩
  | tail _ step ih =>
    obtain ⟨between, before, related⟩ := ih
    obtain ⟨a', after, related⟩ := simulates _ _ _ related step
    exact ⟨a', before.trans after, related⟩

end LibPetri.Basis
