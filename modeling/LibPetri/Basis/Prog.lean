import Mathlib

/-! # Programs with state and exceptions

The source is imperative: its methods mutate one object and may throw, and what they wrote
before the throw stays written.  `Prog ε σ α` is that language, shallowly embedded, with the
rules the proofs use:

* `run_*` — what each construct does to a state, as equations;
* `Spec` — pre- and postconditions, one postcondition for each way to end;
* `Sim` — two programs over different states that stay related and answer alike.
-/

namespace LibPetri.Basis

/-- A pure computation that came through went through its parts. -/
theorem exists_of_bind_eq_ok {ε α β : Type} {x : Except ε α} {f : α → Except ε β} {b : β}
    (h : x >>= f = .ok b) : ∃ a, x = .ok a ∧ f a = .ok b := by
  cases x with
  | error e => cases h
  | ok a => exact ⟨a, rfl, h⟩

/-- A program over a state `σ` that answers an `α` or throws an `ε`.  The state survives a throw. -/
structure Prog (ε σ α : Type) where
  run : σ → Except ε α × σ

namespace Prog

variable {ε σ τ α β : Type}

instance : Monad (Prog ε σ) where
  pure a := ⟨fun s => (.ok a, s)⟩
  bind m f := ⟨fun s =>
    match m.run s with
    | (.ok a, s') => (f a).run s'
    | (.error e, s') => (.error e, s')⟩

/-- Reads a component of the state. -/
def gets (f : σ → α) : Prog ε σ α := ⟨fun s => (.ok (f s), s)⟩

/-- Overwrites the state. -/
def modify (f : σ → σ) : Prog ε σ Unit := ⟨fun s => (.ok (), f s)⟩

/-- Raises `e`. -/
def throw (e : ε) : Prog ε σ α := ⟨fun s => (.error e, s)⟩

/-- Answers a pure computation that may have thrown. -/
def lift (r : Except ε α) : Prog ε σ α := ⟨fun s => (r, s)⟩

/-- `try m catch (e) handler`.  What `m` wrote before the throw is still there. -/
def tryCatch (m : Prog ε σ α) (handler : ε → Prog ε σ α) : Prog ε σ α := ⟨fun s =>
  match m.run s with
  | (.ok a, s') => (.ok a, s')
  | (.error e, s') => (handler e).run s'⟩

/-- `for (const x of xs) body(x)`. -/
def each : List α → (α → Prog ε σ Unit) → Prog ε σ Unit
  | [], _ => pure ()
  | x :: xs, body => do
    body x
    each xs body

/-! ## Running -/

@[simp] theorem run_pure (a : α) (s : σ) : (pure a : Prog ε σ α).run s = (.ok a, s) := rfl

theorem run_bind (m : Prog ε σ α) (f : α → Prog ε σ β) (s : σ) :
    (m >>= f).run s =
      match m.run s with
      | (.ok a, s') => (f a).run s'
      | (.error e, s') => (.error e, s') := rfl

@[simp] theorem run_gets (f : σ → α) (s : σ) : (gets f : Prog ε σ α).run s = (.ok (f s), s) := rfl

@[simp] theorem run_modify (f : σ → σ) (s : σ) :
    (modify f : Prog ε σ Unit).run s = (.ok (), f s) := rfl

@[simp] theorem run_throw (e : ε) (s : σ) : (throw e : Prog ε σ α).run s = (.error e, s) := rfl

@[simp] theorem run_lift (r : Except ε α) (s : σ) : (lift r : Prog ε σ α).run s = (r, s) := rfl

theorem run_bind_ok {m : Prog ε σ α} {s s' : σ} {a : α} (h : m.run s = (.ok a, s'))
    (f : α → Prog ε σ β) : (m >>= f).run s = (f a).run s' := by
  rw [run_bind, h]

theorem run_bind_error {m : Prog ε σ α} {s s' : σ} {e : ε} (h : m.run s = (.error e, s'))
    (f : α → Prog ε σ β) : (m >>= f).run s = (.error e, s') := by
  rw [run_bind, h]

@[simp] theorem run_gets_bind (g : σ → α) (f : α → Prog ε σ β) (s : σ) :
    (gets g >>= f).run s = (f (g s)).run s := rfl

@[simp] theorem run_modify_bind (g : σ → σ) (f : Unit → Prog ε σ β) (s : σ) :
    (modify g >>= f).run s = (f ()).run (g s) := rfl

@[simp] theorem run_pure_bind (a : α) (f : α → Prog ε σ β) (s : σ) :
    ((pure a : Prog ε σ α) >>= f).run s = (f a).run s := rfl

@[simp] theorem run_throw_bind (e : ε) (f : α → Prog ε σ β) (s : σ) :
    (throw e >>= f).run s = (.error e, s) := rfl

@[simp] theorem run_ite (c : Prop) [Decidable c] (m n : Prog ε σ α) (s : σ) :
    (if c then m else n).run s = if c then m.run s else n.run s := by
  split <;> rfl

@[simp] theorem run_each_nil (body : α → Prog ε σ Unit) (s : σ) :
    (each [] body).run s = (.ok (), s) := rfl

theorem each_cons (x : α) (xs : List α) (body : α → Prog ε σ Unit) :
    each (x :: xs) body = (do body x; each xs body) := rfl

theorem run_tryCatch_ok {m : Prog ε σ α} {s s' : σ} {a : α} (h : m.run s = (.ok a, s'))
    (handler : ε → Prog ε σ α) : (m.tryCatch handler).run s = (.ok a, s') := by
  simp only [tryCatch, h]

theorem run_tryCatch_error {m : Prog ε σ α} {s s' : σ} {e : ε} (h : m.run s = (.error e, s'))
    (handler : ε → Prog ε σ α) : (m.tryCatch handler).run s = (handler e).run s' := by
  simp only [tryCatch, h]

theorem bind_assoc' (m : Prog ε σ α) (f : α → Prog ε σ β) (g : β → Prog ε σ τ) :
    (m >>= f) >>= g = m >>= fun a => f a >>= g := by
  show Prog.mk _ = Prog.mk _
  congr 1
  funext s
  simp only [run_bind]
  rcases m.run s with ⟨_ | _, _⟩ <;> rfl

/-! ## Pre- and postconditions -/

/-- From a state in `P`, `m` answers within `Q` or throws within `E`. -/
def Spec (P : σ → Prop) (m : Prog ε σ α) (Q : α → σ → Prop) (E : ε → σ → Prop) : Prop :=
  ∀ s, P s → match m.run s with
    | (.ok a, s') => Q a s'
    | (.error e, s') => E e s'

/-- `m` keeps `I`, however it ends. -/
def Keeps (I : σ → Prop) (m : Prog ε σ α) : Prop := ∀ s, I s → I (m.run s).2

section Rules

variable {P P' R I : σ → Prop} {Q Q' : α → σ → Prop} {E E' : ε → σ → Prop}

theorem Spec.of_ok {m : Prog ε σ α} (h : Spec P m Q E) {s s' : σ} {a : α} (hP : P s)
    (run : m.run s = (.ok a, s')) : Q a s' := by
  have := h s hP
  rwa [run] at this

theorem Spec.of_error {m : Prog ε σ α} (h : Spec P m Q E) {s s' : σ} {e : ε} (hP : P s)
    (run : m.run s = (.error e, s')) : E e s' := by
  have := h s hP
  rwa [run] at this

theorem Spec.of_run {m : Prog ε σ α} {s s' : σ} {a : α} (run : m.run s = (.ok a, s')) (h : Q a s') :
    Spec (· = s) m Q E := by
  rintro _ rfl
  rw [run]
  exact h

/-- A rule that holds from each state of `P`. -/
theorem Spec.of_each {m : Prog ε σ α} (h : ∀ s, P s → Spec (· = s) m Q E) : Spec P m Q E :=
  fun s hs => h s hs s rfl

theorem Spec.conseq {m : Prog ε σ α} (h : Spec P m Q E) (pre : ∀ s, P' s → P s)
    (post : ∀ a s, Q a s → Q' a s) (err : ∀ e s, E e s → E' e s) : Spec P' m Q' E' := by
  intro s hs
  have := h s (pre s hs)
  rcases run : m.run s with ⟨e | a, s'⟩
  · rw [run] at this
    exact err _ _ this
  · rw [run] at this
    exact post _ _ this

/-- What two rules say of one program holds together. -/
theorem Spec.and {m : Prog ε σ α} (h : Spec P m Q E) (h' : Spec P' m Q' E') :
    Spec (fun s => P s ∧ P' s) m (fun a s => Q a s ∧ Q' a s) fun e s => E e s ∧ E' e s := by
  rintro s ⟨hs, hs'⟩
  have one := h s hs
  have other := h' s hs'
  rcases run : m.run s with ⟨e | a, t⟩
  · rw [run] at one other
    exact ⟨one, other⟩
  · rw [run] at one other
    exact ⟨one, other⟩

theorem Spec.bind {m : Prog ε σ α} {f : α → Prog ε σ β} {Q₂ : β → σ → Prop} (h : Spec P m Q E)
    (k : ∀ a, Spec (Q a) (f a) Q₂ E) : Spec P (m >>= f) Q₂ E := by
  intro s hs
  have first := h s hs
  rw [run_bind]
  rcases run : m.run s with ⟨e | a, s'⟩
  · rw [run] at first
    exact first
  · rw [run] at first
    exact k a s' first

theorem Spec.pure (a : α) : Spec (Q a) (pure a : Prog ε σ α) Q E := fun _ h => h

theorem Spec.throw (e : ε) : Spec (E e) (throw e : Prog ε σ α) Q E := fun _ h => h

theorem Spec.modify (f : σ → σ) {Q : Unit → σ → Prop} :
    Spec (fun s => Q () (f s)) (modify f : Prog ε σ Unit) Q E := fun _ h => h

/-- What is read stays known in what follows. -/
theorem Spec.gets_bind {f : σ → β} {k : β → Prog ε σ α}
    (h : ∀ b, Spec (fun s => P s ∧ f s = b) (k b) Q E) : Spec P (Prog.gets f >>= k) Q E :=
  fun s hs => h (f s) s ⟨hs, rfl⟩

theorem Spec.gets_at {f : σ → β} {k : β → Prog ε σ α} {s : σ} (h : Spec (· = s) (k (f s)) Q E) :
    Spec (· = s) (Prog.gets f >>= k) Q E := by
  rintro _ rfl
  exact h _ rfl

theorem Spec.modify_bind {f : σ → σ} {k : Unit → Prog ε σ α} (h : Spec R (k ()) Q E)
    (step : ∀ s, P s → R (f s)) : Spec P (Prog.modify f >>= k) Q E :=
  fun s hs => h (f s) (step s hs)

theorem Spec.lift_bind {r : Except ε β} {k : β → Prog ε σ α}
    (ok : ∀ b, r = .ok b → Spec P (k b) Q E) (error : ∀ e, r = .error e → ∀ s, P s → E e s) :
    Spec P (Prog.lift r >>= k) Q E := by
  intro s hs
  cases r with
  | ok b => exact ok b rfl s hs
  | error e => exact error e rfl s hs

theorem Spec.ite {c : Prop} [Decidable c] {m n : Prog ε σ α} (hm : c → Spec P m Q E)
    (hn : ¬ c → Spec P n Q E) : Spec P (if c then m else n) Q E := by
  split
  · exact hm ‹_›
  · exact hn ‹_›

theorem Spec.tryCatch {m : Prog ε σ α} {handler : ε → Prog ε σ α} (h : Spec P m Q E)
    (k : ∀ e, Spec (E e) (handler e) Q E') : Spec P (m.tryCatch handler) Q E' := by
  intro s hs
  have first := h s hs
  rcases run : m.run s with ⟨e | a, s'⟩
  · rw [run_tryCatch_error run]
    rw [run] at first
    exact k e s' first
  · rw [run_tryCatch_ok run]
    rw [run] at first
    exact first

theorem Spec.each {xs : List β} {body : β → Prog ε σ Unit}
    (h : ∀ x ∈ xs, Spec P (body x) (fun _ => P) E) : Spec P (each xs body) (fun _ => P) E := by
  induction xs with
  | nil => exact fun _ h => h
  | cons x xs ih =>
    exact Spec.bind (h x List.mem_cons_self) fun _ =>
      ih fun y hy => h y (List.mem_cons_of_mem _ hy)

/-- A loop whose invariant knows what is left to do. -/
theorem Spec.each_rest {P : List β → σ → Prop} {xs : List β} {body : β → Prog ε σ Unit}
    (h : ∀ x rest, Spec (P (x :: rest)) (body x) (fun _ => P rest) E) :
    Spec (P xs) (Prog.each xs body) (fun _ => P []) E := by
  induction xs with
  | nil => exact fun _ h => h
  | cons x xs ih => exact Spec.bind (h x xs) fun _ => ih

theorem Keeps.pure (a : α) : Keeps I (pure a : Prog ε σ α) := fun _ h => h

theorem Keeps.gets (f : σ → α) : Keeps I (gets f : Prog ε σ α) := fun _ h => h

theorem Keeps.throw (e : ε) : Keeps I (throw e : Prog ε σ α) := fun _ h => h

theorem Keeps.lift (r : Except ε α) : Keeps I (lift r : Prog ε σ α) := fun _ h => h

theorem Keeps.modify {f : σ → σ} (h : ∀ s, I s → I (f s)) : Keeps I (modify f : Prog ε σ Unit) := h

theorem Keeps.bind {m : Prog ε σ α} {f : α → Prog ε σ β} (h : Keeps I m)
    (k : ∀ a, Keeps I (f a)) : Keeps I (m >>= f) := by
  intro s hs
  have first := h s hs
  rw [run_bind]
  rcases run : m.run s with ⟨e | a, s'⟩
  · rw [run] at first
    exact first
  · rw [run] at first
    exact k a s' first

theorem Keeps.ite {c : Prop} [Decidable c] {m n : Prog ε σ α} (hm : c → Keeps I m)
    (hn : ¬ c → Keeps I n) : Keeps I (if c then m else n) := by
  split
  · exact hm ‹_›
  · exact hn ‹_›

theorem Keeps.tryCatch {m : Prog ε σ α} {handler : ε → Prog ε σ α} (h : Keeps I m)
    (k : ∀ e, Keeps I (handler e)) : Keeps I (m.tryCatch handler) := by
  intro s hs
  have first := h s hs
  rcases run : m.run s with ⟨e | a, s'⟩
  · rw [run_tryCatch_error run]
    rw [run] at first
    exact k e s' first
  · rw [run_tryCatch_ok run]
    rw [run] at first
    exact first

theorem Keeps.each {xs : List α} {body : α → Prog ε σ Unit} (h : ∀ x ∈ xs, Keeps I (body x)) :
    Keeps I (each xs body) := by
  induction xs with
  | nil => exact Keeps.pure ()
  | cons x xs ih =>
    exact Keeps.bind (h x List.mem_cons_self) fun _ =>
      ih fun y hy => h y (List.mem_cons_of_mem _ hy)

end Rules

/-! ## Simulation -/

/-- Run from states in `R`, the two programs answer the same and end in states in `R'`. -/
def Sim (R : σ → τ → Prop) (m : Prog ε σ α) (n : Prog ε τ α) (R' : σ → τ → Prop) : Prop :=
  ∀ s t, R s t → (m.run s).1 = (n.run t).1 ∧ R' (m.run s).2 (n.run t).2

section Simulation

variable {R R' R'' : σ → τ → Prop}

theorem Sim.pure (a : α) : Sim R (pure a : Prog ε σ α) (pure a) R := fun _ _ h => ⟨rfl, h⟩

theorem Sim.lift (r : Except ε α) : Sim R (lift r : Prog ε σ α) (lift r) R :=
  fun _ _ h => ⟨rfl, h⟩

theorem Sim.throw (e : ε) : Sim R (throw e : Prog ε σ α) (throw e) R := fun _ _ h => ⟨rfl, h⟩

theorem Sim.modify {f : σ → σ} {g : τ → τ} (h : ∀ s t, R s t → R' (f s) (g t)) :
    Sim R (modify f : Prog ε σ Unit) (modify g) R' := fun s t hst => ⟨rfl, h s t hst⟩

theorem Sim.bind {m : Prog ε σ α} {n : Prog ε τ α} {f : α → Prog ε σ β} {g : α → Prog ε τ β}
    (h : Sim R m n R) (k : ∀ a, Sim R (f a) (g a) R) : Sim R (m >>= f) (n >>= g) R := by
  intro s t hst
  obtain ⟨hres, hrel⟩ := h s t hst
  rw [run_bind, run_bind]
  rcases hm : m.run s with ⟨e | a, s'⟩ <;> rcases hn : n.run t with ⟨e' | a', t'⟩ <;>
    simp only [hm, hn] at hres hrel
  · cases hres
    exact ⟨rfl, hrel⟩
  · cases hres
  · cases hres
  · cases hres
    exact k a s' t' hrel

/-- A read whose two answers are equal on related states. -/
theorem Sim.gets_bind {p : σ → β} {q : τ → β} {f : β → Prog ε σ α} {g : β → Prog ε τ α}
    (eq : ∀ s t, R s t → p s = q t) (k : ∀ b, Sim R (f b) (g b) R') :
    Sim R (gets p >>= f) (gets q >>= g) R' := by
  intro s t hst
  rw [run_gets_bind, run_gets_bind, eq s t hst]
  exact k _ s t hst

theorem Sim.ite {c d : Prop} [Decidable c] [Decidable d] {m₁ m₂ : Prog ε σ α} {n₁ n₂ : Prog ε τ α}
    (iff : c ↔ d) (h₁ : Sim R m₁ n₁ R') (h₂ : Sim R m₂ n₂ R') :
    Sim R (if c then m₁ else m₂) (if d then n₁ else n₂) R' := by
  by_cases hc : c
  · rw [if_pos hc, if_pos (iff.mp hc)]
    exact h₁
  · rw [if_neg hc, if_neg fun hd => hc (iff.mpr hd)]
    exact h₂

theorem Sim.tryCatch {m : Prog ε σ α} {n : Prog ε τ α} {f : ε → Prog ε σ α} {g : ε → Prog ε τ α}
    (h : Sim R m n R) (k : ∀ e, Sim R (f e) (g e) R) : Sim R (m.tryCatch f) (n.tryCatch g) R := by
  intro s t hst
  obtain ⟨hres, hrel⟩ := h s t hst
  rcases hm : m.run s with ⟨e | a, s'⟩ <;> rcases hn : n.run t with ⟨e' | a', t'⟩ <;>
    simp only [hm, hn] at hres hrel
  · cases hres
    rw [run_tryCatch_error hm, run_tryCatch_error hn]
    exact k e s' t' hrel
  · cases hres
  · cases hres
  · cases hres
    rw [run_tryCatch_ok hm, run_tryCatch_ok hn]
    exact ⟨rfl, hrel⟩

theorem Sim.each {xs : List β} {f : β → Prog ε σ Unit} {g : β → Prog ε τ Unit}
    (h : ∀ x ∈ xs, Sim R (f x) (g x) R) : Sim R (Prog.each xs f) (Prog.each xs g) R := by
  induction xs with
  | nil => exact Sim.pure ()
  | cons x xs ih =>
    exact Sim.bind (h x List.mem_cons_self) fun _ => ih fun y hy => h y (List.mem_cons_of_mem _ hy)

end Simulation

end Prog

end LibPetri.Basis
