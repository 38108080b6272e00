import LibPetri.Basis.Forests
import LibPetri.Export.ClusterBuilder

/-! # Prefixes and their order

On prefixes that are paths, the string functions of the cluster builder do what they mean: the parent drops the
last segment, the deepest common prefix is the longest common beginning, and the prefixes are entered with
everything above them, each when it is met first and none before its parent.
-/

namespace LibPetri.Verified

open LibPetri.Basis

/-- Slash-separated segments, none of them empty. -/
def IsPrefix (key : String) : Prop := IsPath (segments key)

section Paths

variable {path path' : List String} {key key' : String}

theorem joined_segments (key : String) : joined (segments key) = key := by
  refine String.toList_inj.mp ?_
  rw [toList_joined, segments, List.map_map]
  have same : (String.toList ∘ String.ofList) = id := funext fun l => String.toList_ofList
  rw [same, List.map_id, List.intercalate_splitOn]

theorem segments_inj : segments key = segments key' ↔ key = key' := by
  constructor
  · intro same
    rw [← joined_segments key, same, joined_segments]
  · exact congrArg segments

theorem segments_ne_nil (key : String) : segments key ≠ [] := by
  rw [segments, Ne, List.map_eq_nil_iff]
  exact List.splitOn_ne_nil _ _

theorem isPrefix_joined (h : IsPath path) : IsPrefix (joined path) := by
  rw [IsPrefix, segments_joined h]
  exact h

/-- A beginning of a path that is not empty is one. -/
theorem isPath_beginning (h : IsPath path) (ne : path' ≠ []) (le : path' <+: path) : IsPath path' := by
  rw [List.prefix_iff_eq_take.mp le]
  exact h.take (List.length_pos_iff.mpr ne)

theorem length_pos_of_isPath (h : IsPath path) : 0 < (joined path).length := by
  refine Nat.pos_of_ne_zero fun empty => joined_ne_empty h ?_
  exact String.length_eq_zero_iff.mp empty

/-! ## Parents -/

theorem beforeLastSlash_joined (h : IsPath (path ++ [s])) :
    beforeLastSlash (joined (path ++ [s])) = if path = [] then none else some (joined path) := by
  have slashless : '/' ∉ s.toList := h.slashless s (by simp)
  by_cases top : path = []
  · subst top
    rw [if_pos rfl, beforeLastSlash, List.nil_append, joined_singleton, lastIndexOf_absent slashless]
  · have above : IsPath path := isPath_beginning h top (List.prefix_append _ _)
    have place : lastIndexOf '/' (joined (path ++ [s])).toList = some (joined path).toList.length := by
      rw [joined_concat top, String.toList_append, String.toList_append, List.append_assoc]
      exact lastIndexOf_append _ slashless
    have cut : (joined (path ++ [s])).toList.take (joined path).toList.length = (joined path).toList := by
      rw [joined_concat top, String.toList_append, String.toList_append, List.append_assoc,
        List.take_left]
    have pos := length_pos_of_isPath above
    rw [← String.length_toList] at pos
    obtain ⟨n, len⟩ := Nat.exists_eq_succ_of_ne_zero pos.ne'
    rw [len] at place cut
    rw [if_neg top, beforeLastSlash, place]
    simp only [Nat.succ_eq_add_one] at cut ⊢
    rw [cut, String.ofList_toList]

/-- The prefix without its last segment. -/
theorem parentOf_eq (h : IsPrefix key) :
    parentOf key
      = if (segments key).dropLast = [] then none else some (joined (segments key).dropLast) := by
  have split := (List.dropLast_append_getLast h.ne_nil).symm
  have whole := h
  rw [IsPrefix, split] at whole
  have parent := beforeLastSlash_joined whole
  rw [← split, joined_segments] at parent
  have filled : key.length ≠ 0 := by
    rw [← joined_segments key]
    exact (length_pos_of_isPath h).ne'
  rw [parentOf, if_neg filled, parent]

theorem parentOf_eq_some_iff (h : IsPrefix key) :
    parentOf key = some key' ↔ (segments key).dropLast = segments key' := by
  rw [parentOf_eq h]
  split
  next top =>
    rw [top]
    exact ⟨nofun, fun same => absurd same.symm (segments_ne_nil key')⟩
  next ne =>
    have above : IsPath (segments key).dropLast := isPath_beginning h ne (List.dropLast_prefix _)
    rw [Option.some.injEq, ← segments_inj, segments_joined above]

theorem parentOf_eq_none_iff (h : IsPrefix key) : parentOf key = none ↔ (segments key).dropLast = [] := by
  rw [parentOf_eq h]
  split
  next top => exact ⟨fun _ => top, fun _ => rfl⟩
  next ne => exact ⟨nofun, fun top => absurd top ne⟩

/-! ## The deepest common prefix -/

theorem commonFrom_eq {done : List String} (h : IsPath (done ++ path)) :
    commonFrom (joined done) done.length path path'
      = if done ++ commonBeginning path path' = [] then none
        else some (joined (done ++ commonBeginning path path')) := by
  induction path generalizing done path' with
  | nil =>
    simp only [commonFrom, commonBeginning, List.append_nil, List.length_eq_zero_iff]
  | cons a path ih =>
    cases path' with
    | nil =>
      simp only [commonFrom, commonBeginning, List.append_nil, List.length_eq_zero_iff]
    | cons b path' =>
      rw [commonFrom, commonBeginning]
      by_cases same : a = b
      · rw [if_neg (not_not.mpr same), if_pos same]
        have next : (if done.length > 0 then joined done ++ "/" else joined done) ++ a = joined (done ++ [a]) := by
          by_cases start : done = []
          · subst start
            exact String.empty_append.trans (joined_singleton a).symm
          · rw [if_pos (List.length_pos_iff.mpr start), joined_concat start]
        have here : IsPath ((done ++ [a]) ++ path) := by simpa using h
        have len : done.length + 1 = (done ++ [a]).length := by simp
        rw [next, len, ih here, List.append_assoc, List.singleton_append]
      · rw [if_pos same, if_neg same, List.append_nil]
        simp only [List.length_eq_zero_iff]

/-- The longest common beginning, unless the first segments differ. -/
theorem deepestCommonPrefix_eq (h : IsPrefix key) :
    deepestCommonPrefix (some key) (some key')
      = if commonBeginning (segments key) (segments key') = [] then none
        else some (joined (commonBeginning (segments key) (segments key'))) := by
  rw [deepestCommonPrefix]
  by_cases same : key = key'
  · subst same
    have whole : commonBeginning (segments key) (segments key) = segments key :=
      (commonBeginning_prefix_left _ _).eq_of_length_le
        (prefix_commonBeginning (List.prefix_refl _) (List.prefix_refl _)).length_le
    rw [if_pos rfl, whole, if_neg h.ne_nil, joined_segments]
  · have all : commonFrom (joined []) 0 (segments key) (segments key')
        = if [] ++ commonBeginning (segments key) (segments key') = [] then none
          else some (joined ([] ++ commonBeginning (segments key) (segments key'))) :=
      commonFrom_eq (show IsPath ([] ++ segments key) from h)
    rw [if_neg same]
    exact all

end Paths

/-! ## The order of encounter -/

/-- The prefixes above and including one path, from the root down, below what is done. -/
def beginningsFrom (done : List String) : List String → List String
  | [] => []
  | s :: rest => joined (done ++ [s]) :: beginningsFrom (done ++ [s]) rest

/-- What is met while the assigned prefixes are read: each of them, and before it all that is above it. -/
def encounters (nodeIdToPrefix : OrderedMap String String) : List String :=
  nodeIdToPrefix.values.flatMap fun key => beginningsFrom [] (segments key)

/-- The prefixes in the order of their first encounter. -/
def firstMet (nodeIdToPrefix : OrderedMap String String) : List String :=
  (encounters nodeIdToPrefix).eraseDups

/-- Every prefix that is assigned is one. -/
def WellFormed (nodeIdToPrefix : OrderedMap String String) : Prop :=
  ∀ key ∈ nodeIdToPrefix.values, IsPrefix key

section Encounters

variable {done segs : List String} {key : String} {order : OrderedMap String Unit}
  {nodeIdToPrefix : OrderedMap String String}

theorem mem_beginningsFrom :
    key ∈ beginningsFrom done segs ↔ ∃ p, p ≠ [] ∧ p <+: segs ∧ key = joined (done ++ p) := by
  induction segs generalizing done with
  | nil =>
    rw [beginningsFrom]
    constructor
    · exact fun mem => absurd mem List.not_mem_nil
    · rintro ⟨p, ne, le, _⟩
      exact absurd (List.prefix_nil.mp le) ne
  | cons s rest ih =>
    rw [beginningsFrom, List.mem_cons, ih]
    constructor
    · rintro (rfl | ⟨p, _, le, rfl⟩)
      · exact ⟨[s], List.cons_ne_nil _ _, List.cons_prefix_cons.mpr ⟨rfl, List.nil_prefix⟩, rfl⟩
      · refine ⟨s :: p, List.cons_ne_nil _ _, List.cons_prefix_cons.mpr ⟨rfl, le⟩, ?_⟩
        rw [List.append_assoc, List.singleton_append]
    · rintro ⟨p, ne, le, rfl⟩
      cases p with
      | nil => exact absurd rfl ne
      | cons t p =>
        obtain ⟨same, below⟩ := List.cons_prefix_cons.mp le
        subst same
        cases p with
        | nil => exact .inl rfl
        | cons u p =>
          refine .inr ⟨u :: p, List.cons_ne_nil _ _, below, ?_⟩
          rw [List.append_assoc, List.singleton_append]

/-- A prefix is met when it begins an assigned one. -/
theorem mem_encounters (well : WellFormed nodeIdToPrefix) :
    key ∈ encounters nodeIdToPrefix ↔
      IsPrefix key ∧ ∃ whole ∈ nodeIdToPrefix.values, segments key <+: segments whole := by
  rw [encounters, List.mem_flatMap]
  constructor
  · rintro ⟨whole, mem, met⟩
    obtain ⟨p, ne, le, rfl⟩ := mem_beginningsFrom.mp met
    have path : IsPath p := isPath_beginning (well whole mem) ne le
    rw [List.nil_append]
    exact ⟨isPrefix_joined path, whole, mem, by rwa [segments_joined path]⟩
  · rintro ⟨is, whole, mem, le⟩
    refine ⟨whole, mem, mem_beginningsFrom.mpr ⟨segments key, is.ne_nil, le, ?_⟩⟩
    rw [List.nil_append, joined_segments]

theorem mem_firstMet (well : WellFormed nodeIdToPrefix) :
    key ∈ firstMet nodeIdToPrefix ↔
      IsPrefix key ∧ ∃ whole ∈ nodeIdToPrefix.values, segments key <+: segments whole := by
  rw [firstMet, List.mem_eraseDups, mem_encounters well]

/-- Entering one prefix. -/
def enter (order : OrderedMap String Unit) (key : String) : OrderedMap String Unit :=
  if key ∈ order.keys then order else order.set key ()

theorem keys_enter : (enter order key).keys = if key ∈ order.keys then order.keys else order.keys ++ [key] := by
  rw [enter]
  split
  · rfl
  next new => rw [OrderedMap.keys_set, if_neg new]

theorem extended_joined (h : IsPath (done ++ s :: segs)) : extended (joined done) s = joined (done ++ [s]) := by
  rw [extended]
  by_cases start : done = []
  · subst start
    exact String.empty_append.trans (joined_singleton s).symm
  · have pos := length_pos_of_isPath (isPath_beginning h start (List.prefix_append _ _))
    rw [if_pos pos, joined_concat start]

theorem registerPrefixChain_eq (h : IsPrefix key) :
    registerPrefixChain key order = (beginningsFrom [] (segments key)).foldl enter order := by
  let enterNext (reached : String × OrderedMap String Unit) (seg : String) : String × OrderedMap String Unit :=
    (extended reached.1 seg, enter reached.2 (extended reached.1 seg))
  have run : ∀ (segs done : List String) (order : OrderedMap String Unit), IsPath (done ++ segs) →
      (segs.foldl enterNext (joined done, order)).2 = (beginningsFrom done segs).foldl enter order := by
    intro segs
    induction segs with
    | nil => exact fun done order _ => rfl
    | cons s segs ih =>
      intro done order h
      have next : IsPath ((done ++ [s]) ++ segs) := by simpa using h
      rw [List.foldl_cons, beginningsFrom, List.foldl_cons, ← ih _ _ next, ← extended_joined h]
  have filled : key.length ≠ 0 := by
    rw [← joined_segments key]
    exact (length_pos_of_isPath h).ne'
  rw [registerPrefixChain, if_neg filled]
  exact run (segments key) [] order h

/-- The prefixes are entered as they are met. -/
theorem prefixOrder_eq (well : WellFormed nodeIdToPrefix) :
    prefixOrder nodeIdToPrefix = (encounters nodeIdToPrefix).foldl enter .empty := by
  rw [prefixOrder, encounters, List.foldl_flatMap]
  exact List.foldl_ext _ _ _ fun order key mem => registerPrefixChain_eq (well key mem)

theorem keys_prefixOrder (well : WellFormed nodeIdToPrefix) :
    (prefixOrder nodeIdToPrefix).keys = firstMet nodeIdToPrefix := by
  rw [prefixOrder_eq well, firstMet]
  induction encounters nodeIdToPrefix using List.reverseRecOn with
  | nil => rfl
  | append_singleton met key ih =>
    rw [List.foldl_append, List.foldl_cons, List.foldl_nil, keys_enter, ih, eraseDups_concat]
    simp only [List.mem_eraseDups]

/-! ## Parents first -/

theorem rooted_enter (rooted : Rooted parentOf order.keys) (above : ∀ b, parentOf key = some b → b ∈ order.keys) :
    Rooted parentOf (enter order key).keys := by
  rw [keys_enter]
  split
  · exact rooted
  next new => exact rooted.concat new above

/-- A chain is entered from its root down. -/
theorem rooted_chain (h : IsPath (done ++ segs)) (rooted : Rooted parentOf order.keys)
    (start : done = [] ∨ joined done ∈ order.keys) :
    Rooted parentOf ((beginningsFrom done segs).foldl enter order).keys := by
  induction segs generalizing done order with
  | nil => exact rooted
  | cons s segs ih =>
    have next : IsPath ((done ++ [s]) ++ segs) := by simpa using h
    have here : IsPath (done ++ [s]) := isPath_beginning next (by simp) (List.prefix_append _ _)
    rw [beginningsFrom, List.foldl_cons]
    refine ih next (rooted_enter rooted fun b above => ?_) (.inr ?_)
    · rw [parentOf_eq_some_iff (isPrefix_joined here), segments_joined here, List.dropLast_concat] at above
      rcases start with rfl | entered
      · exact absurd above.symm (segments_ne_nil b)
      · rwa [above, joined_segments] at entered
    · rw [keys_enter]
      split
      · assumption
      · simp

theorem rooted_firstMet (well : WellFormed nodeIdToPrefix) : Rooted parentOf (firstMet nodeIdToPrefix) := by
  rw [← keys_prefixOrder well, prefixOrder]
  have run : ∀ (keys : List String) (order : OrderedMap String Unit), (∀ key ∈ keys, IsPrefix key) →
      Rooted parentOf order.keys →
      Rooted parentOf (keys.foldl (fun order key => registerPrefixChain key order) order).keys := by
    intro keys
    induction keys with
    | nil => exact fun order _ rooted => rooted
    | cons key keys ih =>
      intro order well rooted
      refine ih _ (fun key mem => well key (List.mem_cons_of_mem _ mem)) ?_
      change Rooted parentOf (registerPrefixChain key order).keys
      rw [registerPrefixChain_eq (well key List.mem_cons_self)]
      exact rooted_chain (well key List.mem_cons_self) rooted (.inl rfl)
  exact run _ _ well rooted_nil

end Encounters

end LibPetri.Verified
