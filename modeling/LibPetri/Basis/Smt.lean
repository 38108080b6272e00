import Mathlib.Data.Rat.Cast.CharZero
import Mathlib.Algebra.Order.Field.Basic
import Mathlib.Tactic.Linarith

/-! # Linear arithmetic scripts

The fragment of SMT-LIB that encoders of linear problems emit: sums, differences and multiples of
constants, comparisons, and the connectives with any number of arguments.  A formula may apply one
predicate to terms.  Values are those of an ordered field, so that one semantics serves scripts over the
integers and over the reals.
-/

namespace LibPetri.Basis.Smt

variable {V : Type}

inductive Term (V : Type)
  | lit (value : ℚ)
  | var (v : V)
  | neg (t : Term V)
  | add (summands : List (Term V))
  | sub (t u : Term V)
  | mul (factor : ℚ) (t : Term V)
  | ite (l r t u : Term V)

inductive Formula (V : Type)
  | tt
  | ff
  | and (conjuncts : List (Formula V))
  | or (disjuncts : List (Formula V))
  | not (f : Formula V)
  | imp (f g : Formula V)
  | eq (t u : Term V)
  | le (t u : Term V)
  | lt (t u : Term V)
  | app (arguments : List (Term V))

namespace Formula

/-- `(>= t u)`. -/
abbrev ge (t u : Term V) : Formula V := le u t

/-- `(> t u)`. -/
abbrev gt (t u : Term V) : Formula V := lt u t

end Formula

/-! ## Meaning -/

section Meaning

variable {K : Type} [Field K] [LinearOrder K] (a : V → K)

mutual

/-- The value of a term.  `ite` compares its first two arguments. -/
def Term.eval : Term V → K
  | .lit value => value
  | .var v => a v
  | .neg t => -t.eval
  | .add summands => evalSum summands
  | .sub t u => t.eval - u.eval
  | .mul factor t => factor * t.eval
  | .ite l r t u => if l.eval = r.eval then t.eval else u.eval

def evalSum : List (Term V) → K
  | [] => 0
  | t :: ts => t.eval + evalSum ts

end

variable (R : List K → Prop)

mutual

/-- Whether a formula holds, `R` the predicate it applies. -/
def Formula.HoldsWith : Formula V → Prop
  | .tt => True
  | .ff => False
  | .and conjuncts => HoldAll conjuncts
  | .or disjuncts => HoldAny disjuncts
  | .not f => ¬f.HoldsWith
  | .imp f g => f.HoldsWith → g.HoldsWith
  | .eq t u => t.eval a = u.eval a
  | .le t u => t.eval a ≤ u.eval a
  | .lt t u => t.eval a < u.eval a
  | .app arguments => R (arguments.map (Term.eval a))

def HoldAll : List (Formula V) → Prop
  | [] => True
  | f :: fs => f.HoldsWith ∧ HoldAll fs

def HoldAny : List (Formula V) → Prop
  | [] => False
  | f :: fs => f.HoldsWith ∨ HoldAny fs

end

/-- Whether a formula that applies no predicate holds. -/
abbrev Formula.Holds (f : Formula V) : Prop := f.HoldsWith a fun _ => False

variable {a R}

@[simp] theorem eval_lit (value : ℚ) : (Term.lit value : Term V).eval a = value := rfl

@[simp] theorem eval_var (v : V) : (Term.var v).eval a = a v := rfl

@[simp] theorem eval_neg (t : Term V) : (Term.neg t).eval a = -t.eval a := rfl

@[simp] theorem eval_sub (t u : Term V) : (Term.sub t u).eval a = t.eval a - u.eval a := rfl

@[simp] theorem eval_mul (c : ℚ) (t : Term V) : (Term.mul c t).eval a = c * t.eval a := rfl

@[simp] theorem eval_ite (l r t u : Term V) :
    (Term.ite l r t u).eval a = if l.eval a = r.eval a then t.eval a else u.eval a := rfl

@[simp] theorem eval_add (ts : List (Term V)) :
    (Term.add ts).eval a = (ts.map (Term.eval a)).sum := by
  rw [Term.eval]
  induction ts with
  | nil => rfl
  | cons t ts ih => rw [evalSum, ih, List.map_cons, List.sum_cons]

@[simp] theorem holds_tt : (Formula.tt : Formula V).HoldsWith a R := trivial

@[simp] theorem holds_ff : ¬(Formula.ff : Formula V).HoldsWith a R := not_false

@[simp] theorem holds_not (f : Formula V) : (Formula.not f).HoldsWith a R ↔ ¬f.HoldsWith a R := Iff.rfl

@[simp] theorem holds_imp (f g : Formula V) :
    (Formula.imp f g).HoldsWith a R ↔ (f.HoldsWith a R → g.HoldsWith a R) := Iff.rfl

@[simp] theorem holds_eq (t u : Term V) :
    (Formula.eq t u).HoldsWith a R ↔ t.eval a = u.eval a := Iff.rfl

@[simp] theorem holds_le (t u : Term V) :
    (Formula.le t u).HoldsWith a R ↔ t.eval a ≤ u.eval a := Iff.rfl

@[simp] theorem holds_lt (t u : Term V) :
    (Formula.lt t u).HoldsWith a R ↔ t.eval a < u.eval a := Iff.rfl

@[simp] theorem holds_app (ts : List (Term V)) :
    (Formula.app ts).HoldsWith a R ↔ R (ts.map (Term.eval a)) := Iff.rfl

@[simp] theorem holds_and (fs : List (Formula V)) :
    (Formula.and fs).HoldsWith a R ↔ ∀ f ∈ fs, f.HoldsWith a R := by
  rw [Formula.HoldsWith]
  induction fs with
  | nil => simp [HoldAll]
  | cons f fs ih => rw [HoldAll, ih, List.forall_mem_cons]

@[simp] theorem holds_or (fs : List (Formula V)) :
    (Formula.or fs).HoldsWith a R ↔ ∃ f ∈ fs, f.HoldsWith a R := by
  rw [Formula.HoldsWith]
  induction fs with
  | nil => simp [HoldAny]
  | cons f fs ih => simp only [HoldAny, ih, List.mem_cons, exists_eq_or_imp]

end Meaning

/-! ## Satisfiability -/

section Satisfiability

/-- A relation of integers, asked about values. -/
def onIntegers (R : List ℤ → Prop) (values : List ℚ) : Prop :=
  ∃ ns : List ℤ, values = ns.map Int.cast ∧ R ns

/-- Some integers satisfy every assert, with `R` for the predicate. -/
def SatisfiableWith (R : List ℤ → Prop) (asserts : List (Formula V)) : Prop :=
  ∃ a : V → ℤ, ∀ f ∈ asserts, f.HoldsWith (fun v => (a v : ℚ)) (onIntegers R)

/-- Some natural numbers satisfy every assert. -/
def SatisfiableNat (asserts : List (Formula V)) : Prop :=
  ∃ a : V → ℕ, ∀ f ∈ asserts, f.Holds (fun v => (a v : ℚ))

end Satisfiability

/-! ## Shorthands for the texts of encoders -/

section Shorthands

/-- `true` for no conjuncts, the bare conjunct for one. -/
def conjoin : List (Formula V) → Formula V
  | [] => .tt
  | [f] => f
  | fs => .and fs

/-- `false` for no disjuncts, the bare disjunct for one. -/
def disjoin : List (Formula V) → Formula V
  | [] => .ff
  | [f] => f
  | fs => .or fs

/-- `c·v`, without a factor of 1 or −1. -/
def intTerm (c : ℚ) (v : Term V) : Term V :=
  if c = 1 then v else if c = -1 then .neg v else .mul c v

/-- The sum of terms: `0` for none, the bare term for one. -/
def sumTerms : List (Term V) → Term V
  | [] => .lit 0
  | [t] => t
  | ts => .add ts

variable {K : Type} [Field K] [LinearOrder K] {a : V → K} {R : List K → Prop}

@[simp] theorem holds_conjoin (fs : List (Formula V)) :
    (conjoin fs).HoldsWith a R ↔ ∀ f ∈ fs, f.HoldsWith a R := by
  unfold conjoin
  split
  · simp
  · simp
  · exact holds_and _

@[simp] theorem holds_disjoin (fs : List (Formula V)) :
    (disjoin fs).HoldsWith a R ↔ ∃ f ∈ fs, f.HoldsWith a R := by
  unfold disjoin
  split
  · simp
  · simp
  · exact holds_or _

@[simp] theorem eval_intTerm (c : ℚ) (v : Term V) : (intTerm c v).eval a = c * v.eval a := by
  unfold intTerm
  split
  next one => simp [one]
  next =>
    split
    next minus => simp [minus]
    next => exact eval_mul c v

@[simp] theorem eval_sumTerms (ts : List (Term V)) :
    (sumTerms ts).eval a = (ts.map (Term.eval a)).sum := by
  unfold sumTerms
  split
  · simp
  · simp
  · exact eval_add _

/-- A sum of multiples, those by zero left out. -/
theorem sum_eval_multiples {ι : Type} (l : List ι) (c : ι → ℤ) (v : ι → Term V) :
    ((l.filterMap fun i => if c i = 0 then none else some (intTerm (c i) (v i))).map
      (Term.eval a)).sum = (l.map fun i => (c i : K) * (v i).eval a).sum := by
  induction l with
  | nil => rfl
  | cons i l ih =>
    rw [List.filterMap_cons, List.map_cons, List.sum_cons, ← ih]
    by_cases zero : c i = 0
    · rw [if_pos zero, zero, Int.cast_zero, zero_mul, zero_add]
    · rw [if_neg zero, List.map_cons, List.sum_cons, eval_intTerm, Rat.cast_intCast]

/-- A sum over the entries that pass a test. -/
theorem sum_map_filter {ι : Type} (l : List ι) (q : ι → Bool) (f : ι → K) :
    ((l.filter q).map f).sum = (l.map fun i => if q i then f i else 0).sum := by
  induction l with
  | nil => rfl
  | cons i l ih =>
    rw [List.filter_cons, List.map_cons, List.sum_cons, ← ih]
    split
    · rw [List.map_cons, List.sum_cons]
    · rw [zero_add]

end Shorthands

end LibPetri.Basis.Smt
