import LibPetri.Verification.StateClassGraph

/-! # When two markings have one text

A name may itself hold what separates two entries: a colon, a count, a comma and a blank.  The text of a
marking is the same as that of another one exactly when the names fall into the same pieces at these places.
-/

namespace LibPetri.Verified

open LibPetri.Basis LibPetri.Core LibPetri.Runtime LibPetri.Verification

/-! ## Pieces of a text -/

/-- A piece of a text with the count behind it. -/
abbrev Piece := List Char × Nat

/-- What stands between a name and the next one. -/
def separatorText (count : Nat) : List Char := ':' :: (Nat.toDigits 10 count ++ [',', ' '])

/-- The count and the rest of a text that starts with a separator. -/
def separator? : List Char → Option (Nat × List Char)
  | ':' :: cs =>
    let count := Nat.ofDigitChars 10 (cs.takeWhile Char.isDigit) 0
    if 0 < count ∧ cs = (separatorText count).tail ++ cs.drop ((separatorText count).tail.length) then
      some (count, cs.drop (separatorText count).tail.length)
    else none
  | _ => none

theorem separator?_eq_some {cs rest : List Char} {count : Nat} :
    separator? cs = some (count, rest) ↔ 0 < count ∧ cs = separatorText count ++ rest := by
  constructor
  · intro found
    unfold separator? at found
    split at found
    next cs =>
      dsimp only at found
      split at found
      next parsed =>
        obtain ⟨rfl, rfl⟩ := Prod.mk.inj (Option.some.inj found)
        refine ⟨parsed.1, ?_⟩
        conv_lhs => rw [parsed.2]
        rfl
      next => cases found
    next => cases found
  · rintro ⟨pos, rfl⟩
    have digits : ((separatorText count).tail ++ rest).takeWhile Char.isDigit = Nat.toDigits 10 count := by
      have all : ∀ c ∈ Nat.toDigits 10 count, c.isDigit = true := fun c mem => digit_ne mem
      rw [separatorText, List.tail_cons, List.append_assoc, List.takeWhile_append_of_pos all]
      simp
    have shape : separatorText count ++ rest = ':' :: ((separatorText count).tail ++ rest) := rfl
    rw [shape, separator?, digits, Nat.ofDigitChars_ten_toDigits, List.drop_left, if_pos ⟨pos, rfl⟩]

/-- One more character in front. -/
def prepend (c : Char) : List Piece × List Char → List Piece × List Char
  | ([], tail) => ([], c :: tail)
  | ((piece, count) :: pieces, tail) => ((c :: piece, count) :: pieces, tail)

/-- A text cut at its separators. -/
def pieces (text : List Char) : List Piece × List Char :=
  match text with
  | [] => ([], [])
  | c :: cs =>
    match _found : separator? (c :: cs) with
    | some (count, rest) => (([], count) :: (pieces rest).1, (pieces rest).2)
    | none => prepend c (pieces cs)
termination_by text.length
decreasing_by
  all_goals try simp
  all_goals
    have := congrArg List.length (separator?_eq_some.mp _found).2
    simp only [separatorText, List.length_cons, List.length_append] at this
    omega

/-- A text put together again. -/
def assemble (p : List Piece × List Char) : List Char :=
  p.1.flatMap (fun piece => piece.1 ++ separatorText piece.2) ++ p.2

theorem assemble_prepend (c : Char) (p : List Piece × List Char) : assemble (prepend c p) = c :: assemble p := by
  obtain ⟨_ | ⟨⟨piece, count⟩, ps⟩, tail⟩ := p
  · rfl
  · rfl

theorem assemble_pieces (text : List Char) : assemble (pieces text) = text := by
  fun_induction pieces text with
  | case1 => rfl
  | case2 c cs count rest found ih =>
    rw [(separator?_eq_some.mp found).2]
    simpa [assemble] using ih
  | case3 c cs none_ ih => rw [assemble_prepend, ih]

theorem pieces_pos (text : List Char) : ∀ piece ∈ (pieces text).1, 0 < piece.2 := by
  fun_induction pieces text with
  | case1 => simp
  | case2 c cs count rest found ih =>
    rintro piece (- | ⟨-, mem⟩)
    · exact (separator?_eq_some.mp found).1
    · exact ih piece mem
  | case3 c cs none_ ih =>
    generalize pieces cs = p at ih
    obtain ⟨_ | ⟨⟨first, count⟩, ps⟩, tail⟩ := p
    · simp [prepend]
    · simpa [prepend] using ih

/-! ## A colon cuts a text -/

/-- The pieces of two texts on end, where no separator crosses from one to the other. -/
def glue : List Piece × List Char → List Piece × List Char → List Piece × List Char
  | (ps, tail), ([], tail') => (ps, tail ++ tail')
  | (ps, tail), ((piece, count) :: ps', tail') => (ps ++ (tail ++ piece, count) :: ps', tail')

theorem glue_nil (p : List Piece × List Char) : glue ([], []) p = p := by
  obtain ⟨_ | ⟨⟨piece, count⟩, ps⟩, tail⟩ := p
  · rfl
  · rfl

theorem glue_cons (piece : Piece) (ps : List Piece) (tail : List Char) (p : List Piece × List Char) :
    glue (piece :: ps, tail) p = (piece :: (glue (ps, tail) p).1, (glue (ps, tail) p).2) := by
  obtain ⟨_ | ⟨⟨piece', count⟩, ps'⟩, tail'⟩ := p
  · rfl
  · rfl

theorem glue_prepend (c : Char) (p q : List Piece × List Char) :
    glue (prepend c p) q = prepend c (glue p q) := by
  obtain ⟨_ | ⟨⟨piece, count⟩, ps⟩, tail⟩ := p
  · obtain ⟨_ | ⟨⟨piece', count'⟩, ps'⟩, tail'⟩ := q
    · rfl
    · rfl
  · obtain ⟨_ | ⟨⟨piece', count'⟩, ps'⟩, tail'⟩ := q
    · rfl
    · rfl

/-- A separator holds no colon but its first character. -/
theorem separator?_append_colon {c : Char} {cs : List Char} (none_ : separator? (c :: cs) = none)
    (behind : List Char) : separator? (c :: cs ++ ':' :: behind) = none := by
  by_contra some_
  obtain ⟨⟨count, rest⟩, found⟩ := Option.ne_none_iff_exists'.mp some_
  obtain ⟨pos, same⟩ := separator?_eq_some.mp found
  have within {s t : List Char} (split : c :: cs = separatorText count ++ s) : False := by
    have := separator?_eq_some.mpr ⟨pos, split⟩
    rw [none_] at this
    cases this
  rcases List.append_eq_append_iff.mp same with ⟨as, split, behind_eq⟩ | ⟨as, split, -⟩
  · cases as with
    | nil =>
      rw [List.append_nil] at split
      exact within (t := []) (s := []) (by rw [split, List.append_nil])
    | cons a as =>
      obtain ⟨rfl, -⟩ := List.cons.inj behind_eq
      have tail : Nat.toDigits 10 count ++ [',', ' '] = cs ++ ':' :: as := (List.cons.inj split).2
      have colon : ':' ∈ Nat.toDigits 10 count ++ [',', ' '] := by
        rw [tail]
        simp
      rcases List.mem_append.mp colon with digit | other
      · exact absurd (digit_ne digit) (by decide)
      · revert other
        decide
  · exact within (t := []) split

theorem pieces_append_colon (text behind : List Char) :
    pieces (text ++ ':' :: behind) = glue (pieces text) (pieces (':' :: behind)) := by
  fun_induction pieces text with
  | case1 => rw [List.nil_append, glue_nil]
  | case2 c cs count rest found ih =>
    obtain ⟨pos, shape⟩ := separator?_eq_some.mp found
    have found' : separator? (c :: (cs ++ ':' :: behind)) = some (count, rest ++ ':' :: behind) := by
      refine separator?_eq_some.mpr ⟨pos, ?_⟩
      rw [← List.append_assoc, ← shape, List.cons_append]
    rw [List.cons_append, pieces]
    split
    next count' rest' again =>
      rw [found'] at again
      obtain ⟨rfl, rfl⟩ := Prod.mk.inj (Option.some.inj again)
      rw [ih, glue_cons]
    next again =>
      rw [found'] at again
      cases again
  | case3 c cs none_ ih =>
    have none' := separator?_append_colon none_ behind
    rw [List.cons_append] at none'
    rw [List.cons_append, pieces]
    split
    next again =>
      rw [none'] at again
      cases again
    next => rw [ih, glue_prepend]

theorem pieces_of_no_comma {text : List Char} (free : ',' ∉ text) : pieces text = ([], text) := by
  fun_induction pieces text with
  | case1 => rfl
  | case2 c cs count rest found ih =>
    obtain ⟨-, shape⟩ := separator?_eq_some.mp found
    rw [shape] at free
    simp [separatorText] at free
  | case3 c cs none_ ih =>
    rw [ih fun mem => free (List.mem_cons_of_mem _ mem)]
    rfl

theorem pieces_separator {count : Nat} (pos : 0 < count) (rest : List Char) :
    pieces (separatorText count ++ rest) = (([], count) :: (pieces rest).1, (pieces rest).2) := by
  have found := separator?_eq_some.mpr ⟨pos, (rfl : separatorText count ++ rest = _)⟩
  have shape : separatorText count ++ rest =
      ':' :: (Nat.toDigits 10 count ++ [',', ' '] ++ rest) := rfl
  rw [shape] at found
  rw [shape, pieces]
  split
  next again =>
    rw [found] at again
    obtain ⟨rfl, rfl⟩ := Prod.mk.inj (Option.some.inj again)
    rfl
  next again =>
    rw [found] at again
    cases again

/-! ## The text of a marking -/

/-- The pieces of a name; the last one has the count of the place. -/
def entryPieces (e : PlaceName × Nat) : List Piece :=
  (pieces e.1.toList).1 ++ [((pieces e.1.toList).2, e.2)]

/-- The pieces of all names of a marking. -/
def markingPieces (m : MarkingState) : List Piece :=
  (sortByName m.tokenCounts.entries).flatMap entryPieces

/-- The pieces of the text of entries, the last one with its count and the closing brace. -/
def closed : List Piece → List Piece × List Char
  | [] => ([], ['}'])
  | [(piece, count)] => ([], piece ++ ':' :: (Nat.toDigits 10 count ++ ['}']))
  | piece :: next :: ps => (piece :: (closed (next :: ps)).1, (closed (next :: ps)).2)

theorem closed_append (ps : List Piece) {rest : List Piece} (more : rest ≠ []) :
    closed (ps ++ rest) = (ps ++ (closed rest).1, (closed rest).2) := by
  induction ps with
  | nil => rfl
  | cons piece ps ih =>
    obtain ⟨next, others, shape⟩ := List.exists_cons_of_ne_nil (List.append_ne_nil_of_right_ne_nil ps more)
    rw [List.cons_append, shape, closed, ← shape, ih]
    rfl

theorem closed_inj {ps qs : List Piece} (same : closed ps = closed qs) : ps = qs := by
  have colon (piece : List Char) (count : Nat) :
      ['}'] ≠ piece ++ ':' :: (Nat.toDigits 10 count ++ ['}']) := by
    intro eq
    have : ':' ∈ ['}'] := by
      rw [eq]
      simp
    revert this
    decide
  induction ps generalizing qs with
  | nil =>
    cases qs with
    | nil => rfl
    | cons q qs =>
      cases qs with
      | nil => exact absurd (Prod.mk.inj same).2 (colon _ _)
      | cons => cases (Prod.mk.inj same).1
  | cons p ps ih =>
    cases qs with
    | nil =>
      cases ps with
      | nil => exact absurd (Prod.mk.inj same).2.symm (colon _ _)
      | cons => cases (Prod.mk.inj same).1
    | cons q qs =>
      cases ps with
      | nil =>
        cases qs with
        | nil =>
          obtain ⟨piece, count⟩ := p
          obtain ⟨piece', count'⟩ := q
          -- the count is what stands behind the last colon
          have tails := congrArg List.reverse (Prod.mk.inj same).2
          simp only [List.reverse_append, List.reverse_cons, List.append_assoc, List.reverse_nil,
            List.nil_append, List.cons_append, List.cons.injEq, true_and] at tails
          have digits (n : Nat) : ∀ c ∈ (Nat.toDigits 10 n).reverse, c.isDigit = true :=
            fun c mem => digit_ne (List.mem_reverse.mp mem)
          obtain ⟨counts, -, names⟩ := append_cons_inj (digits count) (by decide) (digits count')
            (by decide) tails
          rw [List.reverse_inj.mp names, toDigits_inj (List.reverse_inj.mp counts)]
        | cons => cases (Prod.mk.inj same).1
      | cons p' ps =>
        cases qs with
        | nil => cases (Prod.mk.inj same).1
        | cons q' qs =>
          obtain ⟨firsts, tail⟩ := Prod.mk.inj same
          obtain ⟨first, others⟩ := List.cons.inj firsts
          rw [ih (Prod.ext others tail)]
          exact congrArg (· :: q' :: qs) first

theorem pieces_render {es : List (PlaceName × Nat)} (pos : ∀ e ∈ es, 0 < e.2) :
    pieces (MarkingState.render es) = closed (es.flatMap entryPieces) := by
  induction es with
  | nil => exact pieces_of_no_comma (by decide)
  | cons e es ih =>
    have rest := ih fun e mem => pos e (List.mem_cons_of_mem _ mem)
    cases es with
    | nil =>
      have free : ',' ∉ ':' :: (Nat.toDigits 10 e.2 ++ ['}']) := by
        intro mem
        rcases List.mem_cons.mp mem with eq | mem
        · revert eq
          decide
        · rcases List.mem_append.mp mem with digit | other
          · exact absurd (digit_ne digit) (by decide)
          · revert other
            decide
      rw [MarkingState.render, pieces_append_colon, pieces_of_no_comma free, List.flatMap_singleton,
        entryPieces, closed_append _ (List.cons_ne_nil _ _), closed, glue, List.append_nil]
    | cons f es =>
      have shape : MarkingState.render (e :: f :: es) =
          e.1.toList ++ (separatorText e.2 ++ MarkingState.render (f :: es)) := by
        simp [MarkingState.render, separatorText]
      have more : (f :: es).flatMap entryPieces ≠ [] := by
        simp [entryPieces]
      have first : (e :: f :: es).flatMap entryPieces = entryPieces e ++ (f :: es).flatMap entryPieces :=
        List.flatMap_cons
      have cut := pieces_append_colon e.1.toList
        (Nat.toDigits 10 e.2 ++ [',', ' '] ++ MarkingState.render (f :: es))
      have front := pieces_separator (pos e List.mem_cons_self) (MarkingState.render (f :: es))
      rw [shape]
      change pieces (e.1.toList ++ ':' :: (Nat.toDigits 10 e.2 ++ [',', ' '] ++ _)) = _
      rw [cut]
      change glue _ (pieces (separatorText e.2 ++ _)) = _
      rw [front, rest, first, closed_append _ more, glue, entryPieces, List.append_nil]
      simp

/-- Two markings have one text exactly when their names fall into the same pieces. -/
theorem toString_eq_iff (m m' : MarkingState) :
    m.toString = m'.toString ↔ markingPieces m = markingPieces m' := by
  have pos (m : MarkingState) : ∀ e ∈ sortByName m.tokenCounts.entries, 0 < e.2 :=
    fun e mem => m.positive e (MarkingState.mem_sortByName.mp mem)
  constructor
  · intro same
    have same := congrArg String.toList same
    rw [MarkingState.toList_toString, MarkingState.toList_toString, List.cons.injEq] at same
    refine closed_inj ?_
    rw [markingPieces, markingPieces, ← pieces_render (pos m), ← pieces_render (pos m'), same.2]
  · intro same
    refine String.toList_inj.mp ?_
    have joined (m : MarkingState) : MarkingState.render (sortByName m.tokenCounts.entries) =
        assemble (closed (markingPieces m)) := by
      rw [markingPieces, ← pieces_render (pos m), assemble_pieces]
    rw [MarkingState.toList_toString, MarkingState.toList_toString, joined m, joined m', same]

/-- A name without a separator. -/
def Whole (place : PlaceName) : Prop := ∀ count, 0 < count → ¬separatorText count <:+: place.toList

theorem Whole.pieces {place : PlaceName} (whole : Whole place) :
    pieces place.toList = ([], place.toList) := by
  have joined := assemble_pieces place.toList
  have pos := pieces_pos place.toList
  generalize Verified.pieces place.toList = p at joined pos
  obtain ⟨_ | ⟨⟨piece, count⟩, ps⟩, tail⟩ := p
  · rw [← joined]
    rfl
  · refine absurd ⟨piece, assemble (ps, tail), ?_⟩ (whole count (pos _ List.mem_cons_self))
    rw [← joined]
    simp [assemble]

theorem tokens_eq_of_pieces {m m' : MarkingState} (whole : ∀ p ∈ m.placesWithTokens, Whole p)
    (whole' : ∀ p ∈ m'.placesWithTokens, Whole p) (same : markingPieces m = markingPieces m') :
    m.tokens = m'.tokens := by
  have plain (m : MarkingState) (whole : ∀ p ∈ m.placesWithTokens, Whole p) : markingPieces m =
      (sortByName m.tokenCounts.entries).map fun e => (e.1.toList, e.2) := by
    rw [markingPieces, List.flatMap_congr, List.flatMap_pure_eq_map]
    intro e mem
    have name := whole e.1 (List.mem_map_of_mem (MarkingState.mem_sortByName.mp mem))
    rw [entryPieces, name.pieces]
    rfl
  rw [plain m whole, plain m' whole'] at same
  have injective : Function.Injective fun e : PlaceName × Nat => (e.1.toList, e.2) := fun a b eq =>
    Prod.ext (String.toList_inj.mp (Prod.mk.inj eq).1) (Prod.mk.inj eq).2
  exact MarkingState.tokens_eq_of_entries (injective.list_map same)

/-! ## Distinguished markings -/

/-- Two markings with one text have the same tokens exactly where they are the same anyway or their names
fall into different pieces; so it is with the keys of two classes of one zone.  Names without a separator
are told apart. -/
theorem toString_distinguishes (m m' : MarkingState) :
    ((m.toString = m'.toString → m.tokens = m'.tokens) ↔
        (m.tokens = m'.tokens ∨ markingPieces m ≠ markingPieces m')) ∧
      (∀ {V N : Type} {net : PetriNet V N} (c d : StateClass net), c.firingDomain = d.firingDomain →
        ((StateClassGraph.classKey c = StateClassGraph.classKey d → c.marking.tokens = d.marking.tokens) ↔
          (c.marking.tokens = d.marking.tokens ∨ markingPieces c.marking ≠ markingPieces d.marking))) ∧
      ((∀ p ∈ m.placesWithTokens, Whole p) → (∀ p ∈ m'.placesWithTokens, Whole p) →
        m.toString = m'.toString → m.tokens = m'.tokens) := by
  have pair (m m' : MarkingState) : (m.toString = m'.toString → m.tokens = m'.tokens) ↔
      (m.tokens = m'.tokens ∨ markingPieces m ≠ markingPieces m') := by
    rw [toString_eq_iff, imp_iff_not_or, or_comm]
  refine ⟨pair m m', fun c d zone => ?_, fun whole whole' same => ?_⟩
  · rw [← pair]
    have key : StateClassGraph.classKey c = StateClassGraph.classKey d ↔
        c.marking.toString = d.marking.toString := by
      rw [StateClassGraph.classKey, StateClassGraph.classKey, zone, String.append_left_inj,
        String.append_left_inj]
    rw [key]
  · exact tokens_eq_of_pieces whole whole' ((toString_eq_iff m m').mp same)

/-- One token in each of two places. -/
def twoPlaces : MarkingState := (MarkingState.empty.setTokens "a" 1).setTokens "b" 1

/-- One token in a place whose name reads like the two. -/
def onePlace : MarkingState := MarkingState.empty.setTokens "a:1, b" 1

theorem toString_distinguishes_whole :
    (MarkingState.empty.setTokens "a" 1).toString = twoPlaces.toString →
      (MarkingState.empty.setTokens "a" 1).tokens = twoPlaces.tokens :=
  (toString_distinguishes _ _).1.mpr (.inr (by decide +kernel))

/-- Two markings of one text. -/
theorem toString_clash : twoPlaces.toString = onePlace.toString ∧ twoPlaces.tokens ≠ onePlace.tokens := by
  refine ⟨by decide +kernel, fun same => ?_⟩
  have := congrFun same "a"
  revert this
  decide +kernel

end LibPetri.Verified
