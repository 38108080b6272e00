import LibPetri.Basis.BoundMatrix
import LibPetri.Basis.Runs

/-! # Closed difference bound matrices

A matrix is closed when its diagonal is zero and no bound can be tightened through a third clock.
Tightening closes a matrix that has a solution.  In a closed matrix the readings of some of the clocks
that keep the bounds between them extend to a solution, so that clocks are projected out by forgetting
them.
-/

namespace LibPetri.Basis.BoundMatrix

structure Closed (m : BoundMatrix) : Prop where
  diagonal : ∀ i < m.dim, m.get i i = 0
  triangle : ∀ i < m.dim, ∀ k < m.dim, ∀ j < m.dim, m.get i j ≤ m.get i k + m.get k j

/-- A matrix is determined by its entries. -/
theorem ext_get {m m' : BoundMatrix} (dim : m.dim = m'.dim)
    (same : ∀ i < m.dim, ∀ j < m.dim, m.get i j = m'.get i j) : m = m' := by
  obtain ⟨n, entries, length⟩ := m
  obtain ⟨n', entries', length'⟩ := m'
  obtain rfl : n = n' := dim
  suffices entries = entries' by subst this; rfl
  refine List.ext_getElem (length.trans length'.symm) fun a lt lt' => ?_
  rw [length] at lt
  have pos : 0 < n := Nat.pos_of_mul_pos_left (Nat.zero_lt_of_lt lt)
  have := same (a / n) (Nat.div_lt_of_lt_mul lt) (a % n) (Nat.mod_lt _ pos)
  simpa only [get, Nat.div_add_mod', List.getD_eq_getElem?_getD, List.getElem?_eq_getElem,
    length, length', lt, Option.getD_some] using this

/-! ## Tightening closes -/

theorem relax_get {k i j i' j' : Nat} {m : BoundMatrix} (hi : i < m.dim) (hj : j < m.dim)
    (hj' : j' < m.dim) : (relax k i j m).get i' j' =
      if i = i' ∧ j = j' then min (m.get i j) (m.get i k + m.get k j) else m.get i' j' := by
  unfold relax
  dsimp only
  split
  next tighter =>
    rw [get_set _ hi hj hj', min_eq_right (le_of_lt tighter.2.2)]
  next loose =>
    have kept : m.get i j ≤ m.get i k + m.get k j := by
      by_contra less
      rw [not_le] at less
      obtain ⟨left, right⟩ := WithTop.add_lt_top.mp (lt_of_lt_of_le less le_top)
      exact loose ⟨left, right, less⟩
    rw [min_eq_left kept]
    split
    next same => rw [same.1, same.2]
    next => rfl

/-- Tightening is at least as tight as any one detour. -/
theorem tighten_le_through (m : BoundMatrix) {i k j : Nat} (hi : i < m.dim) (hk : k < m.dim)
    (hj : j < m.dim) : m.tighten.get i j ≤ m.get i k + m.get k j := by
  let Below (m' : BoundMatrix) : Prop := m'.dim = m.dim ∧
    ∀ a < m.dim, ∀ b < m.dim, m'.get a b ≤ m.get a b
  have step (k : Nat) (ab : Nat × Nat) (mem : ab ∈ cells m.dim) (m' : BoundMatrix)
      (below : Below m') : Below (relax k ab.1 ab.2 m') := by
    obtain ⟨dim, le⟩ := below
    obtain ⟨ha, hb⟩ := mem_cells.mp mem
    refine ⟨by rw [dim_relax, dim], fun c hc d hd => le_trans ?_ (le c hc d hd)⟩
    exact relax_le (dim ▸ ha) (dim ▸ hb) (dim ▸ hd)
  have pass (k : Nat) (m' : BoundMatrix) (below : Below m') :
      Below ((cells m'.dim).foldl (fun m ij => relax k ij.1 ij.2 m) m') := by
    rw [below.1]
    exact List.foldlRecOn _ _ below fun m'' h ab mem => step k ab mem m'' h
  have stays (k' : Nat) (ab : Nat × Nat) (mem : ab ∈ cells m.dim) (m' : BoundMatrix)
      (below : Below m') (through : m'.get i j ≤ m.get i k + m.get k j) :
      (relax k' ab.1 ab.2 m').get i j ≤ m.get i k + m.get k j := by
    obtain ⟨ha, hb⟩ := mem_cells.mp mem
    exact le_trans (relax_le (below.1 ▸ ha) (below.1 ▸ hb) (below.1 ▸ hj)) through
  let Through (m' : BoundMatrix) : Prop := m'.get i j ≤ m.get i k + m.get k j
  refine foldl_establishes (Q := Below) (P := Through) (List.mem_range.mpr hk)
    (fun k _ m' => pass k m')
    (fun m' below => ?_) (fun k' _ m' below through => ?_) ⟨rfl, fun _ _ _ _ => le_refl _⟩
  · rw [below.1]
    refine foldl_establishes (x := (i, j)) (Q := Below) (P := Through) (mem_cells.mpr ⟨hi, hj⟩)
      (fun ab mem m' => step k ab mem m') (fun m' below => ?_)
      (fun ab mem m' => stays k ab mem m') below
    obtain ⟨dim, le⟩ := below
    dsimp only [Through]
    rw [relax_get (dim ▸ hi) (dim ▸ hj) (dim ▸ hj), if_pos ⟨rfl, rfl⟩]
    exact le_trans (min_le_right _ _) (add_le_add (le i hi k hk) (le k hk j hj))
  · rw [below.1]
    refine (List.foldlRecOn (motive := fun m' => Below m' ∧ Through m')
      (cells m.dim) _ ⟨below, through⟩ fun m'' h ab mem => ?_).2
    exact ⟨step k' ab mem m'' h.1, stays k' ab mem m'' h.1 h.2⟩

/-- A pass through a clock whose own bound is zero tightens every bound through it, once. -/
theorem pass_get {m : BoundMatrix} {n k : Nat} (dim : m.dim = n) (hk : k < n)
    (zero : m.get k k = 0) {i j : Nat} (hi : i < n) (hj : j < n) :
    ((cells n).foldl (fun m ij => relax k ij.1 ij.2 m) m).get i j =
      min (m.get i j) (m.get i k + m.get k j) := by
  subst dim
  -- no entry gets below its value through `k`, so that the row and the column of `k` stay
  let Between (m' : BoundMatrix) : Prop := m'.dim = m.dim ∧ ∀ a < m.dim, ∀ b < m.dim,
    m'.get a b ≤ m.get a b ∧ min (m.get a b) (m.get a k + m.get k b) ≤ m'.get a b
  have column {m' : BoundMatrix} (between : Between m') {a : Nat} (ha : a < m.dim) :
      m'.get a k = m.get a k := by
    obtain ⟨above, below⟩ := between.2 a ha k hk
    rw [zero, add_zero, min_self] at below
    exact le_antisymm above below
  have row {m' : BoundMatrix} (between : Between m') {b : Nat} (hb : b < m.dim) :
      m'.get k b = m.get k b := by
    obtain ⟨above, below⟩ := between.2 k hk b hb
    rw [zero, zero_add, min_self] at below
    exact le_antisymm above below
  have step (ab : Nat × Nat) (mem : ab ∈ cells m.dim) (m' : BoundMatrix) (between : Between m') :
      Between (relax k ab.1 ab.2 m') := by
    obtain ⟨ha, hb⟩ := mem_cells.mp mem
    refine ⟨by rw [dim_relax, between.1], fun c hc d hd => ?_⟩
    rw [relax_get (between.1 ▸ ha) (between.1 ▸ hb) (between.1 ▸ hd)]
    split
    next same =>
      rw [same.1, same.2, column between hc, row between hd]
      obtain ⟨above, below⟩ := between.2 c hc d hd
      exact ⟨le_trans (min_le_left _ _) above, le_min below (min_le_right _ _)⟩
    next => exact between.2 c hc d hd
  have init : Between m := ⟨rfl, fun _ _ _ _ => ⟨le_refl _, min_le_left _ _⟩⟩
  refine le_antisymm ?_ ?_
  · refine foldl_establishes (x := (i, j)) (Q := Between)
      (P := fun m' => m'.get i j ≤ min (m.get i j) (m.get i k + m.get k j))
      (mem_cells.mpr ⟨hi, hj⟩) step (fun m' between => ?_) (fun ab mem m' between le => ?_) init
    · rw [relax_get (between.1 ▸ hi) (between.1 ▸ hj) (between.1 ▸ hj), if_pos ⟨rfl, rfl⟩,
        column between hi, row between hj]
      exact min_le_min_right _ (between.2 i hi j hj).1
    · obtain ⟨ha, hb⟩ := mem_cells.mp mem
      exact le_trans (relax_le (between.1 ▸ ha) (between.1 ▸ hb) (between.1 ▸ hj)) le
  · exact ((List.foldlRecOn (motive := Between) _ _ init fun m' h ab mem =>
      step ab mem m' h).2 i hi j hj).2

section Tightened

variable {R : Type} [Field R] [LinearOrder R] [IsStrictOrderedRing R] {v : Nat → R}

theorem solves_relax {m : BoundMatrix} {k i j : Nat} (hk : k < m.dim) (hi : i < m.dim)
    (hj : j < m.dim) (h : Solves v m) : Solves v (relax k i j m) := by
  intro i' hi' j' hj'
  rw [dim_relax] at hi' hj'
  rw [relax_get hi hj hj']
  split
  next same =>
    obtain ⟨rfl, rfl⟩ := same
    refine (h i hi j hj).min ?_
    rw [← sub_add_sub_cancel (v i) (v k) (v j)]
    exact (h i hi k hk).add (h k hk j hj)
  next => exact h i' hi' j' hj'

/-- Where there is a solution no clock is before itself. -/
theorem Solves.diagonal_nonneg {m : BoundMatrix} (h : Solves v m) {i : Nat} (hi : i < m.dim) :
    0 ≤ m.get i i := by
  have own := h i hi i hi
  rw [sub_self] at own
  cases found : m.get i i with
  | none => exact le_top
  | some q =>
    have : (0 : R) ≤ (q : R) := own q found
    have : (0 : ℚ) ≤ q := by exact_mod_cast this
    exact WithTop.coe_le_coe.mpr this

/-- The triangle inequality through two clocks, one pass behind the other. -/
theorem min_through {ij ik kj il lj kl lk : Bound} (through : ij ≤ il + lj)
    (left : ik ≤ il + lk) (right : kj ≤ kl + lj) (loop : 0 ≤ kl + lk) :
    min ij (ik + kj) ≤ min il (ik + kl) + min lj (lk + kj) := by
  rcases min_choice il (ik + kl) with eq | eq <;> rcases min_choice lj (lk + kj) with eq' | eq' <;>
    rw [eq, eq']
  · exact le_trans (min_le_left _ _) through
  · refine le_trans (min_le_right _ _) ?_
    rw [← add_assoc]
    exact add_le_add_left left kj
  · refine le_trans (min_le_right _ _) ?_
    rw [add_assoc]
    exact add_le_add_right right ik
  · refine le_trans (min_le_right _ _) ?_
    calc ik + kj = ik + 0 + kj := by rw [add_zero]
      _ ≤ ik + (kl + lk) + kj := add_le_add_left (add_le_add_right loop ik) kj
      _ = ik + kl + (lk + kj) := by simp only [add_assoc]

/-- Tightening closes a matrix that has a solution. -/
theorem tighten_closed {m : BoundMatrix} (zero : ∀ i < m.dim, m.get i i = 0) (h : Solves v m) :
    Closed m.tighten := by
  -- behind the pass of a clock no bound can be tightened through it any more
  let Passed (ks : List Nat) (m' : BoundMatrix) : Prop := m'.dim = m.dim ∧ Solves v m' ∧
    (∀ i < m.dim, m'.get i i = 0) ∧
      ∀ l ∈ ks, ∀ i < m.dim, ∀ j < m.dim, m'.get i j ≤ m'.get i l + m'.get l j
  have pass (done : List Nat) (inside : ∀ l ∈ done, l < m.dim) (k : Nat) (hk : k < m.dim)
      (m' : BoundMatrix) (passed : Passed done m') :
      Passed (done ++ [k]) ((cells m'.dim).foldl (fun m ij => relax k ij.1 ij.2 m) m') := by
    obtain ⟨dim, solves, diagonal, triangle⟩ := passed
    rw [dim]
    have get {i j : Nat} (hi : i < m.dim) (hj : j < m.dim) := pass_get dim hk (diagonal k hk) hi hj
    have after : Solves v ((cells m.dim).foldl (fun m ij => relax k ij.1 ij.2 m) m') ∧
        ((cells m.dim).foldl (fun m ij => relax k ij.1 ij.2 m) m').dim = m.dim := by
      refine List.foldlRecOn (motive := fun n => Solves v n ∧ n.dim = m.dim) _ _ ⟨solves, dim⟩
        fun n both ab mem => ?_
      obtain ⟨ha, hb⟩ := mem_cells.mp mem
      exact ⟨solves_relax (both.2 ▸ hk) (both.2 ▸ ha) (both.2 ▸ hb) both.1,
        by rw [dim_relax, both.2]⟩
    refine ⟨after.2, after.1, fun i hi => le_antisymm ?_ ?_, fun l mem i hi j hj => ?_⟩
    · rw [get hi hi]
      exact le_trans (min_le_left _ _) (le_of_eq (diagonal i hi))
    · exact after.1.diagonal_nonneg (by rwa [after.2])
    · rcases List.mem_append.mp mem with before | now
      · have hl := inside l before
        rw [get hi hj, get hi hl, get hl hj]
        refine min_through (triangle l before i hi j hj) (triangle l before i hi k hk)
          (triangle l before k hk j hj) ?_
        exact le_trans (le_of_eq (diagonal k hk).symm) (triangle l before k hk k hk)
      · rw [List.mem_singleton] at now
        subst now
        rw [get hi hj, get hi hk, get hk hj, diagonal l hk, add_zero, zero_add, min_self, min_self]
        exact min_le_right _ _
  have passes (todo : List Nat) (done : List Nat) (inside : ∀ l ∈ done ++ todo, l < m.dim)
      (m' : BoundMatrix) (passed : Passed done m') :
      Passed (done ++ todo)
        (todo.foldl (fun m k => (cells m.dim).foldl (fun m ij => relax k ij.1 ij.2 m) m) m') := by
    induction todo generalizing done m' with
    | nil => simpa using passed
    | cons k todo ih =>
      have next := pass done (fun l mem => inside l (List.mem_append_left _ mem)) k
        (inside k (by simp)) m' passed
      have rest := ih (done ++ [k]) (by simpa using inside) _ next
      simpa using rest
  have all := passes (List.range m.dim) [] (by simp) m ⟨rfl, h, zero, (fun _ mem => by cases mem)⟩
  obtain ⟨dim, -, diagonal, triangle⟩ : Passed ([] ++ List.range m.dim) m.tighten := all
  refine ⟨fun i hi => diagonal i (dim ▸ hi), fun i hi k hk j hj => ?_⟩
  rw [dim] at hi hk hj
  exact triangle k (by simpa using hk) i hi j hj

end Tightened

/-! ## Projection -/

section Projection

variable {R : Type} [Field R] [LinearOrder R] [IsStrictOrderedRing R] {v : Nat → R}
  {m : BoundMatrix}

/-- The readings of some clocks keep the bounds between them. -/
def SolvesOn (known : Nat → Prop) (v : Nat → R) (m : BoundMatrix) : Prop :=
  ∀ i < m.dim, ∀ j < m.dim, known i → known j → Meets (v i - v j) (m.get i j)

/-- The bounds of one clock against the known ones leave room for a reading. -/
theorem Closed.exists_reading (closed : Closed m) {known : Nat → Prop} (h : SolvesOn known v m)
    {k : Nat} (hk : k < m.dim) :
    ∃ x : R, ∀ i < m.dim, known i → Meets (x - v i) (m.get k i) ∧ Meets (v i - x) (m.get i k) := by
  classical
  let finite (b : Bound) : R := ((b.untopD 0 : ℚ) : R)
  let lower := (Finset.range m.dim).filter fun i => known i ∧ m.get i k ≠ ⊤
  let upper := (Finset.range m.dim).filter fun i => known i ∧ m.get k i ≠ ⊤
  have reads {b : Bound} {q : ℚ} (same : b = q) : finite b = q := by
    simp only [finite, same, WithTop.untopD_coe]
  have below {i : Nat} : i ∈ lower ↔ i < m.dim ∧ known i ∧ m.get i k ≠ ⊤ := by
    simp only [lower, Finset.mem_filter, Finset.mem_range]
  have above {i : Nat} : i ∈ upper ↔ i < m.dim ∧ known i ∧ m.get k i ≠ ⊤ := by
    simp only [upper, Finset.mem_filter, Finset.mem_range]
  rcases lower.eq_empty_or_nonempty with none | some_
  · rcases upper.eq_empty_or_nonempty with none' | some'
    · -- nothing is asked of the clock
      refine ⟨0, fun i hi given => ⟨fun q same => ?_, fun q same => ?_⟩⟩
      · have mem : i ∈ upper := above.mpr ⟨hi, given, by rw [same]; exact WithTop.coe_ne_top⟩
        rw [none'] at mem
        exact absurd mem (Finset.notMem_empty i)
      · have mem : i ∈ lower := below.mpr ⟨hi, given, by rw [same]; exact WithTop.coe_ne_top⟩
        rw [none] at mem
        exact absurd mem (Finset.notMem_empty i)
    · -- the least of the upper bounds
      obtain ⟨a, -, least⟩ := upper.exists_min_image (fun i => v i + finite (m.get k i)) some'
      refine ⟨v a + finite (m.get k a), fun i hi given => ⟨fun q same => ?_, fun q same => ?_⟩⟩
      · have mem : i ∈ upper := above.mpr ⟨hi, given, by rw [same]; exact WithTop.coe_ne_top⟩
        have := least i mem
        rw [reads same] at this
        linarith
      · have mem : i ∈ lower := below.mpr ⟨hi, given, by rw [same]; exact WithTop.coe_ne_top⟩
        rw [none] at mem
        exact absurd mem (Finset.notMem_empty i)
  · -- the greatest of the lower bounds
    obtain ⟨a, mem, greatest⟩ := lower.exists_max_image (fun i => v i - finite (m.get i k)) some_
    obtain ⟨ha, given_a, bound⟩ := below.mp mem
    obtain ⟨p, found⟩ := WithTop.ne_top_iff_exists.mp bound
    refine ⟨v a - finite (m.get a k), fun i hi given => ⟨fun q same => ?_, fun q same => ?_⟩⟩
    · have through := closed.triangle a ha k hk i hi
      rw [same, ← found, ← WithTop.coe_add] at through
      have := meets_coe.mp ((h a ha i hi given_a given).weaken through)
      rw [reads found.symm]
      push_cast at this
      linarith
    · have mem : i ∈ lower := below.mpr ⟨hi, given, by rw [same]; exact WithTop.coe_ne_top⟩
      have := greatest i mem
      rw [reads same] at this
      linarith

/-- Readings of some clocks that keep the bounds between them are part of a solution. -/
theorem Closed.extend (closed : Closed m) {known : Nat → Prop} (h : SolvesOn known v m) :
    ∃ w, Solves w m ∧ ∀ i, known i → w i = v i := by
  have upTo (n : Nat) : ∃ w, SolvesOn (fun i => known i ∨ i < n) w m ∧ ∀ i, known i → w i = v i := by
    induction n with
    | zero => exact ⟨v, by simpa [SolvesOn] using h, fun _ _ => rfl⟩
    | succ n ih =>
      obtain ⟨w, solves, same⟩ := ih
      by_cases new : ¬known n ∧ n < m.dim
      · obtain ⟨x, reading⟩ := closed.exists_reading solves new.2
        have old {i : Nat} (given : known i ∨ i < n) : i ≠ n := by
          rintro rfl
          exact given.elim new.1 (lt_irrefl i)
        have cases {i : Nat} (given : known i ∨ i < n + 1) : (known i ∨ i < n) ∨ i = n := by
          rcases given with given | before
          · exact .inl (.inl given)
          · exact (Nat.lt_succ_iff_lt_or_eq.mp before).imp .inr id
        refine ⟨Function.update w n x, fun i hi j hj given given' => ?_, fun i given => ?_⟩
        · rcases cases given with before | here <;> rcases cases given' with before' | here'
          · rw [Function.update_of_ne (old before), Function.update_of_ne (old before')]
            exact solves i hi j hj before before'
          · rw [here', Function.update_of_ne (old before), Function.update_self]
            exact (reading i hi before).2
          · rw [here, Function.update_of_ne (old before'), Function.update_self]
            exact (reading j hj before').1
          · rw [here, here', sub_self, closed.diagonal n new.2]
            exact meets_zero.mpr (le_refl 0)
        · rw [Function.update_of_ne (old (.inl given))]
          exact same i given
      · refine ⟨w, fun i hi j hj given given' => ?_, same⟩
        have still {i : Nat} (hi : i < m.dim) (given : known i ∨ i < n + 1) : known i ∨ i < n := by
          by_cases this : i = n
          · subst this
            exact .inl (not_not.mp fun unknown => new ⟨unknown, hi⟩)
          · exact given.imp_right fun before => by omega
        exact solves i hi j hj (still hi given) (still hj given')
  obtain ⟨w, solves, same⟩ := upTo m.dim
  exact ⟨w, fun i hi j hj => solves i hi j hj (.inr hi) (.inr hj), same⟩

/-- A closed matrix has a solution. -/
theorem Closed.exists_solution (closed : Closed m) : ∃ w : Nat → R, Solves w m := by
  obtain ⟨w, solves, -⟩ : ∃ w : Nat → R, Solves w m ∧ ∀ i, False → w i = 0 :=
    closed.extend fun _ _ _ _ given => given.elim
  exact ⟨w, solves⟩

/-- Where no clock of `rest` has to be before `f`, some solution has `f` before them all. -/
theorem Closed.exists_first (closed : Closed m) {f : Nat} (hf : f < m.dim) {rest : Finset Nat}
    (inside : ∀ i ∈ rest, i < m.dim) (leads : ∀ i ∈ rest, 0 ≤ m.get i f) :
    ∃ w : Nat → R, Solves w m ∧ ∀ i ∈ rest, w f ≤ w i := by
  rcases rest.eq_empty_or_nonempty with rfl | nonempty
  · obtain ⟨w, solves⟩ := closed.exists_solution (R := R)
    exact ⟨w, solves, fun i mem => absurd mem (Finset.notMem_empty i)⟩
  -- a bound may now also go to `f`, and on from there through a clock of `rest`
  let on (j : Nat) : Bound := rest.inf fun i => m.get i j
  let first : BoundMatrix := .ofFn m.dim fun i j => min (m.get i j) (m.get i f + on j)
  have onward {k j : Nat} (hk : k < m.dim) (hj : j < m.dim) : on j ≤ on k + m.get k j := by
    obtain ⟨i, mem, least⟩ := rest.exists_mem_eq_inf nonempty fun i => m.get i k
    have : on k = m.get i k := least
    rw [this]
    exact le_trans (Finset.inf_le mem) (closed.triangle i (inside i mem) k hk j hj)
  have back {k : Nat} (hk : k < m.dim) : 0 ≤ on k + m.get k f :=
    le_trans (Finset.le_inf fun i mem => leads i mem) (onward hk hf)
  have get {i j : Nat} (hi : i < m.dim) (hj : j < m.dim) :
      first.get i j = min (m.get i j) (m.get i f + on j) := get_ofFn _ hi hj
  have first_closed : Closed first := by
    refine ⟨fun i hi => ?_, fun i hi k hk j hj => ?_⟩
    · rw [get hi hi, closed.diagonal i hi, add_comm]
      exact min_eq_left (back hi)
    · rw [get hi hj, get hi hk, get hk hj]
      exact min_through (closed.triangle i hi k hk j hj) (closed.triangle i hi k hk f hf)
        (onward hk hj) (back hk)
  obtain ⟨w, solves⟩ := first_closed.exists_solution (R := R)
  refine ⟨w, fun i hi j hj => (solves i hi j hj).weaken ?_, fun i mem => ?_⟩
  · rw [get hi hj]
    exact min_le_left _ _
  · have hi := inside i mem
    have : Meets (w f - w i) 0 := (solves f hf i hi).weaken ?_
    · exact sub_nonpos.mp (meets_zero.mp this)
    · rw [get hf hi, closed.diagonal f hf, zero_add]
      exact le_trans (min_le_right _ _) (le_trans (Finset.inf_le mem)
        (le_of_eq (closed.diagonal i hi)))

/-- Every bound of a closed matrix is one its solutions get to. -/
theorem Closed.get_le (closed : Closed m) {m' : BoundMatrix} (dim : m'.dim = m.dim)
    (within : ∀ w : Nat → ℚ, Solves w m → Solves w m') {i j : Nat} (hi : i < m.dim)
    (hj : j < m.dim) : m.get i j ≤ m'.get i j := by
  by_cases same : i = j
  · subst same
    obtain ⟨w, solves⟩ := closed.exists_solution (R := ℚ)
    rw [closed.diagonal i hi]
    exact (within w solves).diagonal_nonneg (dim ▸ hi)
  by_contra less
  rw [not_le] at less
  obtain ⟨q, found⟩ := WithTop.ne_top_iff_exists.mp (lt_of_lt_of_le less le_top).ne
  have around : (0 : Bound) ≤ m.get i j + m.get j i :=
    closed.diagonal i hi ▸ closed.triangle i hi j hj i hi
  -- a difference of `i` and `j` that only `m` allows
  obtain ⟨p, beyond, meets, meets'⟩ :
      ∃ p : ℚ, q < p ∧ Meets p (m.get i j) ∧ Meets (-p) (m.get j i) := by
    cases there : m.get i j with
    | none =>
      cases back : m.get j i with
      | none => exact ⟨q + 1, by linarith, meets_top _, meets_top _⟩
      | some r =>
        refine ⟨max (q + 1) (-r), lt_of_lt_of_le (by linarith) (le_max_left _ _), meets_top _, ?_⟩
        exact meets_coe.mpr (by simpa using neg_le.mp (le_max_right (q + 1) (-r)))
    | some c =>
      rw [← found, there] at less
      refine ⟨c, WithTop.coe_lt_coe.mp less, meets_coe.mpr (le_refl _), ?_⟩
      cases back : m.get j i with
      | none => exact meets_top _
      | some r =>
        rw [there, back] at around
        have : (0 : ℚ) ≤ c + r := WithTop.coe_le_coe.mp around
        exact meets_coe.mpr (by simpa using (by linarith : -c ≤ r))
  have known : SolvesOn (fun k => k = i ∨ k = j) (fun k => if k = i then p else 0) m := by
    rintro a - b - (rfl | rfl) (rfl | rfl)
    · simpa [closed.diagonal _ hi] using meets_zero.mpr (le_refl (0 : ℚ))
    · simpa [Ne.symm same] using meets
    · simpa [Ne.symm same] using meets'
    · simpa [closed.diagonal _ hj] using meets_zero.mpr (le_refl (0 : ℚ))
  obtain ⟨w, solves, reads⟩ := closed.extend known
  have bound := within w solves i (dim ▸ hi) j (dim ▸ hj)
  rw [reads i (.inl rfl), reads j (.inr rfl), if_pos rfl, if_neg (Ne.symm same), sub_zero,
    ← found] at bound
  exact absurd (meets_coe.mp bound) (not_le.mpr (by simpa using beyond))

/-- Closed matrices with the same solutions have the same bounds. -/
theorem Closed.get_eq (closed : Closed m) {m' : BoundMatrix} (closed' : Closed m')
    (dim : m'.dim = m.dim) (same : ∀ w : Nat → ℚ, Solves w m ↔ Solves w m') {i j : Nat}
    (hi : i < m.dim) (hj : j < m.dim) : m.get i j = m'.get i j :=
  le_antisymm (closed.get_le dim (fun w => (same w).mp) hi hj)
    (closed'.get_le dim.symm (fun w => (same w).mpr) (dim ▸ hi) (dim ▸ hj))

end Projection

end LibPetri.Basis.BoundMatrix
