import Mathlib.Data.List.Pairwise
import Mathlib.Data.List.Sort

/-!
# Bottom-up merge sort

The sort of a linked list that starts with runs of one element and merges neighbouring
runs pass by pass, until one pass leaves a single run.  It takes the element of the first
run where the comparison allows it; so it sorts, and elements that the comparison takes for
equal stay in their order.
-/

set_option autoImplicit false

namespace Pkgng.Lib

variable {α : Type} (le : α → α → Bool)

/-- One pass: neighbouring runs are merged, the last one may be left over. -/
def mergeRuns : List (List α) → List (List α)
  | first :: second :: rest => first.merge second le :: mergeRuns rest
  | [run] => [run]
  | [] => []

theorem length_mergeRuns_le : ∀ runs : List (List α),
    (mergeRuns le runs).length ≤ runs.length
  | [] => Nat.le_refl _
  | [_] => Nat.le_refl _
  | first :: second :: rest => by
      have later := length_mergeRuns_le rest
      simp only [mergeRuns, List.length_cons]
      omega

theorem length_mergeRuns_lt {runs : List (List α)} (several : 1 < (mergeRuns le runs).length) :
    (mergeRuns le runs).length < runs.length := by
  match runs with
  | [] => simp [mergeRuns] at several
  | [run] => simp [mergeRuns] at several
  | first :: second :: rest =>
      have later := length_mergeRuns_le le rest
      simp only [mergeRuns, List.length_cons]
      omega

def sortRuns (runs : List (List α)) : List (List α) :=
  if _several : 1 < (mergeRuns le runs).length then sortRuns (mergeRuns le runs)
  else mergeRuns le runs
termination_by runs.length
decreasing_by exact length_mergeRuns_lt le _several

def listSort (list : List α) : List α := (sortRuns le (list.map fun x => [x])).flatten

theorem flatten_singles (list : List α) : (list.map fun x => [x]).flatten = list := by
  induction list with
  | nil => rfl
  | cons x rest ih => simpa using ih

/-! ## A comparison with side effects -/

section Stateful

variable {σ : Type} (cmp : σ → α → α → Bool × σ)

/-- Merging two runs, with the state that the comparisons leave. -/
def mergeWith : σ → List α → List α → List α × σ
  | s, [], second => (second, s)
  | s, x :: first, [] => (x :: first, s)
  | s, x :: first, y :: second =>
      let (takesFirst, s) := cmp s x y
      if takesFirst then
        let (merged, s) := mergeWith s first (y :: second)
        (x :: merged, s)
      else
        let (merged, s) := mergeWith s (x :: first) second
        (y :: merged, s)
termination_by _ first second => first.length + second.length

def mergeRunsWith : σ → List (List α) → List (List α) × σ
  | s, first :: second :: rest =>
      let (run, s) := mergeWith cmp s first second
      let (runs, s) := mergeRunsWith s rest
      (run :: runs, s)
  | s, [run] => ([run], s)
  | s, [] => ([], s)

theorem length_mergeRunsWith_le (s : σ) (runs : List (List α)) :
    (mergeRunsWith cmp s runs).1.length ≤ runs.length := by
  fun_induction mergeRunsWith cmp s runs with
  | case1 s first second rest run s' merged runs s'' later ih =>
      rw [later] at ih
      dsimp only at ih
      simp only [List.length_cons]
      omega
  | case2 => exact Nat.le_refl _
  | case3 => exact Nat.le_refl _

theorem length_mergeRunsWith_lt {s : σ} {runs : List (List α)}
    (several : 1 < (mergeRunsWith cmp s runs).1.length) :
    (mergeRunsWith cmp s runs).1.length < runs.length := by
  match runs with
  | [] => simp [mergeRunsWith] at several
  | [run] => simp [mergeRunsWith] at several
  | first :: second :: rest =>
      have later := length_mergeRunsWith_le cmp (mergeWith cmp s first second).2 rest
      simp only [mergeRunsWith, List.length_cons]
      omega

def sortRunsWith (s : σ) (runs : List (List α)) : List (List α) × σ :=
  if _several : 1 < (mergeRunsWith cmp s runs).1.length then
    sortRunsWith (mergeRunsWith cmp s runs).2 (mergeRunsWith cmp s runs).1
  else mergeRunsWith cmp s runs
termination_by runs.length
decreasing_by exact length_mergeRunsWith_lt cmp _several

/-- The sorted list, and the state after all comparisons. -/
def listSortWith (s : σ) (list : List α) : List α × σ :=
  let (runs, s) := sortRunsWith cmp s (list.map fun x => [x])
  (runs.flatten, s)

end Stateful

/-! ## What is compared

Where the state takes no part in the outcome, a sort with side effects is the plain sort,
and its state is the one that the comparisons leave, one after the other. -/

section Comparisons

def mergeComparisons : List α → List α → List (α × α)
  | x :: first, y :: second =>
      (x, y) :: if le x y then mergeComparisons first (y :: second)
        else mergeComparisons (x :: first) second
  | _, _ => []
termination_by first second => first.length + second.length

def runComparisons : List (List α) → List (α × α)
  | first :: second :: rest => mergeComparisons le first second ++ runComparisons rest
  | _ => []

def sortComparisons (runs : List (List α)) : List (α × α) :=
  if _several : 1 < (mergeRuns le runs).length then
    runComparisons le runs ++ sortComparisons (mergeRuns le runs)
  else runComparisons le runs
termination_by runs.length
decreasing_by exact length_mergeRuns_lt le _several

variable {σ : Type} (note : σ → α → α → σ)

theorem mergeWith_eq (s : σ) (first second : List α) :
    mergeWith (fun s a b => (le a b, note s a b)) s first second =
      (first.merge second le,
        (mergeComparisons le first second).foldl (fun s pair => note s pair.1 pair.2) s) := by
  fun_induction mergeComparisons le first second generalizing s with
  | case1 x first y second ihFirst ihSecond =>
      rw [mergeWith]
      by_cases takes : le x y = true
      · simp only [takes, if_true, ihFirst, List.cons_merge_cons_pos le first second takes,
          List.foldl_cons]
      · simp only [takes, if_false, Bool.false_eq_true, ihSecond,
          List.cons_merge_cons_neg le first second takes, List.foldl_cons]
  | case2 first second none =>
      cases first with
      | nil => simp [mergeWith]
      | cons x first =>
          cases second with
          | nil => simp [mergeWith]
          | cons y second => exact absurd rfl (none x first y second rfl)

theorem mergeRunsWith_eq (s : σ) (runs : List (List α)) :
    mergeRunsWith (fun s a b => (le a b, note s a b)) s runs =
      (mergeRuns le runs,
        (runComparisons le runs).foldl (fun s pair => note s pair.1 pair.2) s) := by
  fun_induction runComparisons le runs generalizing s with
  | case1 first second rest ih =>
      simp only [mergeRunsWith, mergeWith_eq, ih, mergeRuns, List.foldl_append]
  | case2 runs none =>
      match runs with
      | [] => rfl
      | [run] => rfl
      | first :: second :: rest => exact absurd rfl (none first second rest)

theorem listSortWith_eq (s : σ) (list : List α) :
    listSortWith (fun s a b => (le a b, note s a b)) s list =
      (listSort le list, (sortComparisons le (list.map fun x => [x])).foldl
        (fun s pair => note s pair.1 pair.2) s) := by
  have sorted : ∀ (runs : List (List α)) (s : σ),
      sortRunsWith (fun s a b => (le a b, note s a b)) s runs =
        (sortRuns le runs, (sortComparisons le runs).foldl
          (fun s pair => note s pair.1 pair.2) s) := by
    intro runs
    fun_induction sortComparisons le runs with
    | case1 runs several ih =>
        intro s
        rw [sortRunsWith, sortRuns]
        simp only [mergeRunsWith_eq, several, dif_pos, ih, List.foldl_append]
    | case2 runs done =>
        intro s
        rw [sortRunsWith, sortRuns]
        simp only [mergeRunsWith_eq, done, dif_neg, not_false_eq_true]
  unfold listSortWith listSort
  rw [sorted]

end Comparisons

/-- What every pass preserves holds after the last one, which leaves at most one run. -/
theorem sortRuns_invariant {invariant : List (List α) → Prop}
    (preserved : ∀ runs, invariant runs → invariant (mergeRuns le runs))
    {runs : List (List α)} (initially : invariant runs) :
    invariant (sortRuns le runs) ∧ (sortRuns le runs).length ≤ 1 := by
  fun_induction sortRuns le runs with
  | case1 runs several ih => exact ih (preserved runs initially)
  | case2 runs done => exact ⟨preserved runs initially, by omega⟩

theorem mergeRuns_perm : ∀ runs : List (List α),
    (mergeRuns le runs).flatten.Perm runs.flatten
  | [] => List.Perm.refl _
  | [_] => List.Perm.refl _
  | first :: second :: rest => by
      simp only [mergeRuns, List.flatten_cons, ← List.append_assoc]
      exact (List.merge_perm_append le).append (mergeRuns_perm rest)

theorem listSort_perm (list : List α) : (listSort le list).Perm list := by
  refine (@sortRuns_invariant _ le (fun runs => runs.flatten.Perm list) ?_ _ ?_).1
  · exact fun runs same => (mergeRuns_perm le runs).trans same
  · rw [flatten_singles]

section Order

variable {le} (trans : ∀ a b c, le a b = true → le b c = true → le a c = true)

section Sorted

variable (total : ∀ a b, le a b = true ∨ le b a = true)

include trans total

theorem sorted_mergeRuns : ∀ {runs : List (List α)},
    (∀ run ∈ runs, run.Pairwise fun a b => le a b = true) →
      ∀ run ∈ mergeRuns le runs, run.Pairwise fun a b => le a b = true
  | [], sorted => sorted
  | [_], sorted => sorted
  | first :: second :: rest, sorted => by
      intro run member
      rw [mergeRuns, List.mem_cons] at member
      rcases member with rfl | member
      · exact List.pairwise_merge trans (by simpa using total) first second
          (sorted first (by simp)) (sorted second (by simp))
      · exact sorted_mergeRuns
          (fun other inRest => sorted other (by simp [inRest])) run member

theorem listSort_sorted (list : List α) :
    (listSort le list).Pairwise fun a b => le a b = true := by
  have ends := @sortRuns_invariant _ le
    (fun runs => ∀ run ∈ runs, run.Pairwise fun a b => le a b = true)
    (fun runs sorted => sorted_mergeRuns trans total sorted) (list.map fun x => [x]) (by simp)
  unfold listSort
  cases runs : sortRuns le (list.map fun x => [x]) with
  | nil => simp
  | cons run rest =>
      rw [runs] at ends
      have last : rest = [] := List.length_eq_zero_iff.mp (by simpa using ends.2)
      rw [last]
      simpa using ends.1 run (by simp)

section Unique

variable (antisymm : ∀ a b, le a b = true → le b a = true → a = b)

include antisymm

/-- Where the comparison tells all elements apart, there is one sorted list. -/
theorem listSort_eq {sorted list : List α} (same : sorted.Perm list)
    (ordered : sorted.Pairwise fun a b => le a b = true) : listSort le list = sorted :=
  ((listSort_perm le list).trans same.symm).eq_of_pairwise (fun x y _ _ => antisymm x y)
    (listSort_sorted trans total list) ordered

theorem listSort_eq_of_perm {a b : List α} (same : a.Perm b) : listSort le a = listSort le b :=
  listSort_eq trans total antisymm ((listSort_perm le b).trans same.symm)
    (listSort_sorted trans total b)

end Unique

end Sorted

section Stable

variable {p : α → Bool} (same : ∀ x y, p x = true → p y = true → le x y = true)

include trans same

/-- Merging a sorted run in front of another keeps the order of equal elements.  The
induction is on both runs, as the merge consumes them. -/
theorem filter_merge : ∀ {first second : List α}, (first.Pairwise fun a b => le a b = true) →
    (first.merge second le).filter p = first.filter p ++ second.filter p := by
  intro first
  induction first with
  | nil => intro second _; simp
  | cons x first ihFirst =>
      intro second
      induction second with
      | nil => intro _; simp
      | cons y second ihSecond =>
          intro sorted
          by_cases takes : le x y = true
          · rw [List.cons_merge_cons_pos le first second takes, List.filter_cons,
              ihFirst (List.pairwise_cons.mp sorted).2, List.filter_cons (x := x)]
            split <;> simp
          · rw [List.cons_merge_cons_neg le first second takes, List.filter_cons,
              ihSecond sorted]
            split
            · next inClass =>
                -- An element of the class in the first run would be before `y`.
                have empty : (x :: first).filter p = [] := by
                  rw [List.filter_eq_nil_iff]
                  intro z member inClass'
                  refine takes ?_
                  rcases List.mem_cons.mp member with rfl | inRest
                  · exact same z y inClass' inClass
                  · exact trans x z y ((List.pairwise_cons.mp sorted).1 z inRest)
                      (same z y inClass' inClass)
                rw [empty, List.filter_cons_of_pos inClass]
                rfl
            · next other => rw [List.filter_cons_of_neg other]

theorem filter_mergeRuns : ∀ {runs : List (List α)},
    (∀ run ∈ runs, run.Pairwise fun a b => le a b = true) →
      (mergeRuns le runs).flatten.filter p = runs.flatten.filter p
  | [], _ => rfl
  | [_], _ => rfl
  | first :: second :: rest, sorted => by
      simp only [mergeRuns, List.flatten_cons, List.filter_append]
      rw [filter_merge trans same (sorted first (by simp)),
        filter_mergeRuns fun other inRest => sorted other (by simp [inRest]), List.append_assoc]

/-- Elements that are all equal to each other stay in their order. -/
theorem filter_listSort (total : ∀ a b, le a b = true ∨ le b a = true) (list : List α) :
    (listSort le list).filter p = list.filter p := by
  refine (@sortRuns_invariant _ le (fun runs =>
    (∀ run ∈ runs, run.Pairwise fun a b => le a b = true) ∧
      runs.flatten.filter p = list.filter p) ?_ _ ?_).1.2
  · rintro runs ⟨sorted, order⟩
    exact ⟨sorted_mergeRuns trans total sorted, (filter_mergeRuns trans same sorted).trans order⟩
  · exact ⟨by simp, by rw [flatten_singles]⟩

end Stable

end Order

/-! ## Which blocks are joined

The blocks of the unsorted list that the merged runs are made of depend on the number of
elements alone. -/

section Blocks

def joinBlocks : List (List α) → List (List α)
  | first :: second :: rest => (first ++ second) :: joinBlocks rest
  | [block] => [block]
  | [] => []

def neighbours : List (List α) → List (List α × List α)
  | first :: second :: rest => (first, second) :: neighbours rest
  | _ => []

theorem length_joinBlocks : ∀ blocks : List (List α),
    (joinBlocks blocks).length = (blocks.length + 1) / 2
  | [] => by simp [joinBlocks]
  | [_] => by simp [joinBlocks]
  | first :: second :: rest => by
      have later := length_joinBlocks rest
      simp only [joinBlocks, List.length_cons]
      omega

/-- The pairs of blocks whose runs are merged in some pass. -/
def joins (blocks : List (List α)) : List (List α × List α) :=
  if _several : 1 < (joinBlocks blocks).length then
    neighbours blocks ++ joins (joinBlocks blocks)
  else neighbours blocks
termination_by blocks.length
decreasing_by rw [length_joinBlocks] at *; omega

theorem flatten_joinBlocks : ∀ blocks : List (List α),
    (joinBlocks blocks).flatten = blocks.flatten
  | [] => rfl
  | [_] => rfl
  | first :: second :: rest => by
      simp only [joinBlocks, List.flatten_cons, List.append_assoc, flatten_joinBlocks rest]

theorem sublist_of_mem_neighbours {pair : List α × List α} : ∀ {blocks : List (List α)},
    pair ∈ neighbours blocks → (pair.1 ++ pair.2).Sublist blocks.flatten
  | [], joined => by simp [neighbours] at joined
  | [_], joined => by simp [neighbours] at joined
  | first :: second :: rest, joined => by
      simp only [List.flatten_cons, ← List.append_assoc]
      rcases List.mem_cons.mp joined with rfl | inRest
      · exact List.sublist_append_left _ _
      · exact (sublist_of_mem_neighbours inRest).trans (List.sublist_append_right _ _)

/-- Joined blocks stand one before the other. -/
theorem sublist_of_mem_joins {pair : List α × List α} {blocks : List (List α)}
    (joined : pair ∈ joins blocks) : (pair.1 ++ pair.2).Sublist blocks.flatten := by
  fun_induction joins blocks with
  | case1 blocks several ih =>
      rcases List.mem_append.mp joined with here | later
      · exact sublist_of_mem_neighbours here
      · rw [← flatten_joinBlocks blocks]
        exact ih later
  | case2 blocks done => exact sublist_of_mem_neighbours joined

theorem subset_joinBlocks : ∀ {blocks : List (List α)} {block : List α}, block ∈ blocks →
    ∃ larger ∈ joinBlocks blocks, block ⊆ larger
  | [], block, member => by cases member
  | [only], block, member => ⟨only, by simp [joinBlocks], by simp_all⟩
  | first :: second :: rest, block, member => by
      rcases List.mem_cons.mp member with rfl | member
      · exact ⟨_, List.mem_cons_self .., List.subset_append_left _ _⟩
      · rcases List.mem_cons.mp member with rfl | member
        · exact ⟨_, List.mem_cons_self .., List.subset_append_right _ _⟩
        · obtain ⟨larger, inRest, sub⟩ := subset_joinBlocks member
          exact ⟨larger, List.mem_cons_of_mem _ inRest, sub⟩

section Separate

variable {R : α → α → Prop}

/-- `R` holds from everything in the one block to everything in the other. -/
def Across (R : α → α → Prop) (first second : List α) : Prop :=
  ∀ a ∈ first, ∀ b ∈ second, R a b

theorem pairwise_of_joinBlocks : ∀ {blocks : List (List α)},
    (joinBlocks blocks).Pairwise (Across R) →
      (∀ pair ∈ neighbours blocks, Across R pair.1 pair.2) → blocks.Pairwise (Across R)
  | [], _, _ => List.Pairwise.nil
  | [_], _, _ => List.pairwise_singleton _ _
  | first :: second :: rest, joined, near => by
      obtain ⟨ahead, later⟩ := List.pairwise_cons.mp joined
      have restAcross := pairwise_of_joinBlocks later fun pair member =>
        near pair (List.mem_cons_of_mem _ member)
      have reaches : ∀ block ∈ rest, Across R (first ++ second) block := by
        intro block member a inFront b inBlock
        obtain ⟨larger, inJoined, sub⟩ := subset_joinBlocks member
        exact ahead larger inJoined a inFront b (sub inBlock)
      refine List.pairwise_cons.mpr ⟨?_, List.pairwise_cons.mpr ⟨?_, restAcross⟩⟩
      · intro block member
        rcases List.mem_cons.mp member with rfl | inRest
        · exact near (first, block) (List.mem_cons_self ..)
        · exact fun a inFirst => reaches block inRest a (List.mem_append_left _ inFirst)
      · exact fun block inRest a inSecond =>
          reaches block inRest a (List.mem_append_right _ inSecond)

/-- Any two elements are brought together by some join. -/
theorem pairwise_of_joins {list : List α}
    (holds : ∀ pair ∈ joins (list.map fun x => [x]), Across R pair.1 pair.2) :
    list.Pairwise R := by
  have blockwise : ∀ blocks : List (List α), (∀ pair ∈ joins blocks, Across R pair.1 pair.2) →
      blocks.Pairwise (Across R) := by
    intro blocks
    fun_induction joins blocks with
    | case1 blocks several ih =>
        intro holds
        exact pairwise_of_joinBlocks (ih fun pair later => holds pair (List.mem_append_right _ later))
          fun pair here => holds pair (List.mem_append_left _ here)
    | case2 blocks done =>
        intro holds
        refine pairwise_of_joinBlocks ?_ holds
        match joined : joinBlocks blocks with
        | [] => exact List.Pairwise.nil
        | [_] => exact List.pairwise_singleton _ _
        | _ :: _ :: _ => rw [joined] at done; simp at done
  have singles := blockwise _ holds
  rw [List.pairwise_map] at singles
  exact singles.imp fun across => across _ (by simp) _ (by simp)

end Separate

end Blocks

/-! ## Comparisons of equal elements -/

section Tied

def tied (a b : α) : Bool := le a b && le b a

/-- The run is the block in order, with equal elements as they stand in the block. -/
structure RunOf (le : α → α → Bool) (run block : List α) : Prop where
  sorted : run.Pairwise fun a b => le a b = true
  stable : ∀ a, run.filter (tied le a) = block.filter (tied le a)

variable {le} (trans : ∀ a b c, le a b = true → le b c = true → le a c = true)
  (total : ∀ a b, le a b = true ∨ le b a = true)

include trans total

/-- Merging compares an element of the first run with the first equal one of the second,
and with no other equal one. -/
theorem mem_mergeComparisons_iff {first second : List α} {a b : α}
    (sortedFirst : first.Pairwise fun a b => le a b = true)
    (sortedSecond : second.Pairwise fun a b => le a b = true) :
    (a, b) ∈ mergeComparisons le first second ∧ tied le a b = true ↔
      a ∈ first ∧ second.find? (tied le a) = some b := by
  fun_induction mergeComparisons le first second with
  | case1 x first y second ihFirst ihSecond =>
      obtain ⟨xFirst, sortedRest⟩ := List.pairwise_cons.mp sortedFirst
      obtain ⟨yFirst, sortedLater⟩ := List.pairwise_cons.mp sortedSecond
      by_cases takes : le x y = true
      · simp only [takes, if_true, List.mem_cons, Prod.mk.injEq, or_and_right]
        rw [ihFirst sortedRest sortedSecond]
        refine or_congr ?_ Iff.rfl
        constructor
        · rintro ⟨⟨rfl, rfl⟩, same⟩
          exact ⟨rfl, by rw [List.find?_cons_of_pos same]⟩
        · rintro ⟨rfl, found⟩
          have same := List.find?_some found
          refine ⟨⟨rfl, ?_⟩, same⟩
          by_cases here : tied le a y = true
          · rw [List.find?_cons_of_pos here] at found
            exact (Option.some.inj found).symm
          · -- What is equal to the smaller would be before the larger.
            have member := List.mem_of_find?_eq_some found
            have inLater : b ∈ second := by
              rcases List.mem_cons.mp member with rfl | inLater
              · exact absurd same here
              · exact inLater
            simp only [tied, Bool.and_eq_true] at same here
            exact absurd ⟨takes, trans y b a (yFirst b inLater) same.2⟩ here
      · have below : le y x = true := (total x y).resolve_left takes
        have apart : ∀ c ∈ x :: first, le c y = true → False := by
          intro c member upward
          rcases List.mem_cons.mp member with rfl | inRest
          · exact takes upward
          · exact takes (trans x c y (xFirst c inRest) upward)
        simp only [takes, if_false, Bool.false_eq_true]
        rw [List.mem_cons, Prod.mk.injEq, or_and_right, ihSecond sortedFirst sortedLater]
        constructor
        · rintro (⟨⟨rfl, rfl⟩, same⟩ | ⟨member, found⟩)
          · simp only [tied, Bool.and_eq_true] at same
            exact absurd same.1 takes
          · refine ⟨member, ?_⟩
            rw [List.find?_cons_of_neg, found]
            simp only [tied, Bool.and_eq_true]
            exact fun same => apart a member same.1
        · rintro ⟨member, found⟩
          refine Or.inr ⟨member, ?_⟩
          rwa [List.find?_cons_of_neg] at found
          simp only [tied, Bool.and_eq_true]
          exact fun same => apart a member same.1
  | case2 first second none =>
      cases first with
      | nil => simp
      | cons x first =>
          cases second with
          | nil => simp
          | cons y second => exact absurd rfl (none x first y second rfl)

omit trans in
theorem RunOf.mem_iff {run block : List α} (ordered : RunOf le run block) (a : α) :
    a ∈ run ↔ a ∈ block := by
  have self : tied le a a = true := by
    simp only [tied, Bool.and_self]
    exact (total a a).elim id id
  have same := ordered.stable a
  constructor
  · intro member
    have kept : a ∈ run.filter (tied le a) := List.mem_filter.mpr ⟨member, self⟩
    rw [same] at kept
    exact (List.mem_filter.mp kept).1
  · intro member
    have kept : a ∈ block.filter (tied le a) := List.mem_filter.mpr ⟨member, self⟩
    rw [← same] at kept
    exact (List.mem_filter.mp kept).1

omit trans total in
theorem RunOf.find?_eq {run block : List α} (ordered : RunOf le run block) (a : α) :
    run.find? (tied le a) = block.find? (tied le a) := by
  rw [← List.head?_filter, ordered.stable a, List.head?_filter]

theorem RunOf.merge {firstRun secondRun first second : List α}
    (ofFirst : RunOf le firstRun first) (ofSecond : RunOf le secondRun second) :
    RunOf le (firstRun.merge secondRun le) (first ++ second) where
  sorted := List.pairwise_merge trans (by simpa using total) firstRun secondRun
    ofFirst.sorted ofSecond.sorted
  stable := by
    intro a
    have same : ∀ x y, tied le a x = true → tied le a y = true → le x y = true := by
      intro x y tiedX tiedY
      simp only [tied, Bool.and_eq_true] at tiedX tiedY
      exact trans x a y tiedX.2 tiedY.1
    rw [filter_merge trans same ofFirst.sorted, ofFirst.stable, ofSecond.stable,
      List.filter_append]

theorem runsOf_mergeRuns : ∀ {runs blocks : List (List α)},
    List.Forall₂ (RunOf le) runs blocks →
      List.Forall₂ (RunOf le) (mergeRuns le runs) (joinBlocks blocks)
  | _, _, .nil => .nil
  | _, _, .cons only .nil => .cons only .nil
  | _, _, .cons first (.cons second rest) =>
      .cons (RunOf.merge trans total first second) (runsOf_mergeRuns rest)

theorem mem_runComparisons_iff {a b : α} : ∀ {runs blocks : List (List α)},
    List.Forall₂ (RunOf le) runs blocks →
      ((a, b) ∈ runComparisons le runs ∧ tied le a b = true ↔
        ∃ pair ∈ neighbours blocks, a ∈ pair.1 ∧ pair.2.find? (tied le a) = some b)
  | _, _, .nil => by simp [runComparisons, neighbours]
  | _, _, .cons _ .nil => by simp [runComparisons, neighbours]
  | _, _, .cons first (.cons second rest) => by
      rw [runComparisons, neighbours, List.mem_append, or_and_right, List.exists_mem_cons_iff,
        mem_mergeComparisons_iff trans total first.sorted second.sorted,
        mem_runComparisons_iff rest, first.mem_iff total, second.find?_eq]

/-- The sort compares two equal elements if some join has the one in its first block, and
the other as the first of its kind in its second block. -/
theorem mem_sortComparisons_iff (list : List α) (a b : α) :
    (a, b) ∈ sortComparisons le (list.map fun x => [x]) ∧ tied le a b = true ↔
      ∃ pair ∈ joins (list.map fun x => [x]), a ∈ pair.1 ∧
        pair.2.find? (tied le a) = some b := by
  have passes : ∀ runs blocks : List (List α), List.Forall₂ (RunOf le) runs blocks →
      ((a, b) ∈ sortComparisons le runs ∧ tied le a b = true ↔
        ∃ pair ∈ joins blocks, a ∈ pair.1 ∧ pair.2.find? (tied le a) = some b) := by
    intro runs
    fun_induction sortComparisons le runs with
    | case1 runs several ih =>
        intro blocks runsOf
        have merged := runsOf_mergeRuns trans total runsOf
        have several' : 1 < (joinBlocks blocks).length := by rwa [← merged.length_eq]
        rw [joins, dif_pos several']
        simp only [List.mem_append, or_and_right, exists_or]
        rw [mem_runComparisons_iff trans total runsOf, ih _ merged]
    | case2 runs done =>
        intro blocks runsOf
        have merged := runsOf_mergeRuns trans total runsOf
        have done' : ¬1 < (joinBlocks blocks).length := by rwa [← merged.length_eq]
        rw [joins, dif_neg done']
        exact mem_runComparisons_iff trans total runsOf
  refine passes _ _ (List.forall₂_same.mpr fun run member => ?_)
  obtain ⟨x, _, rfl⟩ := List.mem_map.mp member
  exact ⟨List.pairwise_singleton _ _, fun _ => rfl⟩

theorem runOf_listSort (list : List α) : RunOf le (listSort le list) list where
  sorted := listSort_sorted trans total list
  stable := by
    intro a
    refine filter_listSort trans ?_ total list
    intro x y tiedX tiedY
    simp only [tied, Bool.and_eq_true] at tiedX tiedY
    exact trans x a y tiedX.2 tiedY.1

omit trans total in
theorem not_sublist_swap {x y : α} : ∀ {list : List α}, list.Nodup → [x, y].Sublist list →
    ¬[y, x].Sublist list
  | [], _, forth, _ => by simp at forth
  | z :: list, nodup, forth, back => by
      obtain ⟨fresh, nodup⟩ := List.nodup_cons.mp nodup
      cases forth with
      | cons _ forth =>
          cases back with
          | cons _ back => exact not_sublist_swap nodup forth back
          | cons_cons _ back => exact fresh (forth.subset (by simp))
      | cons_cons _ forth =>
          cases back with
          | cons _ back => exact fresh (back.subset (by simp))
          | cons_cons _ back => exact fresh (by simpa using forth)

/-- Who stands before whom in the sorted list. -/
theorem sublist_listSort_iff {list : List α} (nodup : list.Nodup) {x y : α} (xIn : x ∈ list)
    (yIn : y ∈ list) (apart : x ≠ y) : [x, y].Sublist (listSort le list) ↔
      le x y = true ∧ (le y x = true → [x, y].Sublist list) := by
  have ordered := runOf_listSort trans total list
  have perm := listSort_perm le list
  have forth : ∀ x y : α, [x, y].Sublist (listSort le list) →
      le x y = true ∧ (le y x = true → [x, y].Sublist list) := by
    intro x y before
    have upward := List.pairwise_iff_forall_sublist.mp ordered.sorted before
    refine ⟨upward, fun downward => ?_⟩
    have self : tied le x x = true := by
      simp only [tied, Bool.and_self]
      exact (total x x).elim id id
    have same : tied le x y = true := by simp [tied, upward, downward]
    have inClass : ([x, y].filter (tied le x)).Sublist ((listSort le list).filter (tied le x)) :=
      before.filter _
    rw [ordered.stable x] at inClass
    have bothKept : [x, y].filter (tied le x) = [x, y] := by simp [self, same]
    rw [bothKept] at inClass
    exact inClass.trans List.filter_sublist
  refine ⟨forth x y, ?_⟩
  intro ⟨upward, before⟩
  have placed : (listSort le list).Pairwise fun a b =>
      [a, b].Sublist (listSort le list) ∨ [b, a].Sublist (listSort le list) :=
    List.pairwise_iff_forall_sublist.mpr Or.inl
  have symm : Std.Symm fun a b => [a, b].Sublist (listSort le list) ∨
      [b, a].Sublist (listSort le list) := ⟨fun _ _ => Or.symm⟩
  rcases placed.forall (perm.mem_iff.mpr xIn) (perm.mem_iff.mpr yIn) apart
    with here | swapped
  · exact here
  · obtain ⟨downward, back⟩ := forth y x swapped
    exact absurd (back upward) (not_sublist_swap nodup (before downward))

end Tied

end Pkgng.Lib
