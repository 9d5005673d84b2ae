import Pkgng.Repo.IncrementalExact

/-!
# The parts of the catalogue that are parsed

What the update hands to `pkg_parse_manifest`: the offset and the length of a task as they stand
in the digests, which nothing compares with the size of the catalogue.
-/

set_option autoImplicit false

namespace Pkgng

open Lib

/-! ## The tasks that are handed over -/

/-- The tasks for which the loop over `ladd` calls `pkg_repo_binary_add_from_manifest`. -/
def handedTasks (env : UpdateEnv) (legacy : Bool) (catalogue : Catalogue) :
    RepoRc × Connection RepoTable → List (TaskItem × Nat) → List TaskItem
  | _, [] => []
  | state, task :: rest =>
      if state.1 = .ok then
        task.1 :: handedTasks env legacy catalogue (addTask env legacy catalogue state task) rest
      else []

/-- `updateTransaction`, with the tasks that it hands over. -/
def handedTransaction (env : UpdateEnv) (legacy : Bool) (catalogue : Catalogue) (tasks : Tasks)
    (table : RepoTable) : List TaskItem :=
  if env.begins ∧ catalogue.Usable then
    handedTasks env legacy catalogue
      (tasks.ldel.zipIdx.foldl (removeTask env) (.ok, (Connection.connect table).begin))
      tasks.ladd.zipIdx
  else []

/-- `updateRows`, with the tasks that it hands over. -/
def handedRows (env : UpdateEnv) (legacy : Bool) (lines : List Text) (catalogue : Catalogue)
    (table : RepoTable) : List TaskItem :=
  if env.selects then
    match digestItems env lines with
    | none => []
    | some items => handedTransaction env legacy catalogue (updateTasks table items) table
  else []

/-- `pkgRepoBinaryUpdateIncremental` for the lines and the catalogue that it has fetched. -/
def handedUpdate (env : UpdateEnv) (lines : List Text) (catalogue : Catalogue)
    (table : RepoTable) : List TaskItem :=
  match legacyRepo env lines with
  | none => []
  | some legacy =>
      if env.opens then handedRows env legacy lines catalogue table
      else if env.recreates then handedRows env legacy lines catalogue RepoTable.empty
      else []

/-! ## The slices -/

/-- `buf`, as an offset from the start of the map, and `len` of `pkg_parse_manifest`. -/
structure Slice where
  start : Int
  length : Nat
deriving DecidableEq, Repr

/-- `num_offset` and `num_length` are of type `long`. -/
def TaskItem.slice (len : Nat) (item : TaskItem) : Slice where
  start := toLong item.offset
  length :=
    if toLong item.length ≠ 0 then toSizeT (toLong item.length)
    else toSizeT (len - toLong item.offset)

/-- The slice lies in the catalogue. -/
def Slice.Inside (slice : Slice) (len : Nat) : Prop :=
  0 ≤ slice.start ∧ slice.start + slice.length ≤ len

instance (slice : Slice) (len : Nat) : Decidable (slice.Inside len) := by
  unfold Slice.Inside
  infer_instance

def SlicesInside (env : UpdateEnv) (lines : List Text) (catalogue : Catalogue)
    (table : RepoTable) : Prop :=
  ∀ item ∈ handedUpdate { env with strtoul := strtoulErrno } lines catalogue table,
    (item.slice catalogue.size).Inside catalogue.size

/-! ## Numbers -/

/-- A slice is inside exactly when its unsigned numbers are. -/
theorem TaskItem.slice_inside_iff {item : TaskItem} {len : Nat}
    (offset : item.offset ≤ 18446744073709551615) (length : item.length ≤ 18446744073709551615)
    (small : len < ssizeMax) : (item.slice len).Inside len ↔ item.offset + item.length ≤ len := by
  have isZero : toLong item.length = 0 ↔ item.length = 0 := by
    rw [toLong_eq length]
    split <;> omega
  unfold Slice.Inside slice
  simp only [ne_eq, ite_not, isZero, toSizeT_toLong length]
  rw [toLong_eq offset]
  unfold toSizeT
  unfold ssizeMax at small
  split
  · split <;> omega
  · split <;> omega

/-- Every item has numbers that `strtoul` can return. -/
theorem digestItem_le {env : UpdateEnv} {number : Nat} {line : Text} {item : TaskItem}
    (read : digestItem { env with strtoul := strtoulErrno } number line = some item) :
    item.offset ≤ 18446744073709551615 ∧ item.length ≤ 18446744073709551615 := by
  simp only [digestItem, bind, pure, Option.bind_eq_some_iff] at read
  obtain ⟨origin, -, digest, -, offset, -, numOffset, isOffset, read⟩ := read
  split at read
  · obtain ⟨numLength, isLength, isItem⟩ := Option.bind_eq_some_iff.mp read
    rw [← Option.some.inj isItem]
    exact ⟨strtoulErrno_le isOffset, strtoulErrno_le isLength⟩
  · rw [← Option.some.inj read]
    exact ⟨strtoulErrno_le isOffset, Nat.zero_le _⟩

theorem exists_of_mem_mapM {α β : Type} {f : α → Option β} {list : List α} {out : List β}
    (run : list.mapM f = some out) {y : β} (member : y ∈ out) : ∃ x ∈ list, f x = some y := by
  induction list generalizing out with
  | nil =>
      rw [← Option.some.inj run] at member
      cases member
  | cons x list ih =>
      rw [List.mapM_cons] at run
      obtain ⟨first, isFirst, rest⟩ := Option.bind_eq_some_iff.mp run
      obtain ⟨others, isOthers, isOut⟩ := Option.bind_eq_some_iff.mp rest
      rw [← Option.some.inj isOut] at member
      rcases List.mem_cons.mp member with rfl | later
      · exact ⟨x, List.mem_cons_self, isFirst⟩
      · obtain ⟨z, listed, isY⟩ := ih isOthers later
        exact ⟨z, List.mem_cons_of_mem x listed, isY⟩

theorem mem_of_mem_handedTasks {env : UpdateEnv} {legacy : Bool} {catalogue : Catalogue}
    {item : TaskItem} {state : RepoRc × Connection RepoTable} {tasks : List (TaskItem × Nat)}
    (handed : item ∈ handedTasks env legacy catalogue state tasks) : item ∈ tasks.map Prod.fst := by
  induction tasks generalizing state with
  | nil => cases handed
  | cons task rest ih =>
      rw [handedTasks] at handed
      split at handed
      · rcases List.mem_cons.mp handed with rfl | later
        · exact List.mem_cons_self
        · exact List.mem_cons_of_mem _ (ih later)
      · cases handed

/-- A loop that succeeds has handed over every task. -/
theorem handedTasks_eq {env : UpdateEnv} {legacy : Bool} {catalogue : Catalogue}
    {state : RepoRc × Connection RepoTable} {tasks : List (TaskItem × Nat)}
    (ok : (tasks.foldl (addTask env legacy catalogue) state).1 = .ok) :
    handedTasks env legacy catalogue state tasks = tasks.map Prod.fst := by
  induction tasks generalizing state with
  | nil => rfl
  | cons task rest ih =>
      by_cases going : state.1 = .ok
      · rw [handedTasks, if_pos going, ih ok, List.map_cons]
      · have stopped : ∀ state task, state.1 ≠ .ok →
            addTask env legacy catalogue state task = state := fun _ _ failed => if_neg failed
        rw [foldl_failed stopped _ going] at ok
        exact absurd ok going

theorem ok_of_finishTransaction {env : UpdateEnv} {state : RepoRc × Connection RepoTable}
    (ok : (finishTransaction env state).1 = .ok) : state.1 = .ok := by
  unfold finishTransaction at ok
  generalize (if state.1 ≠ .ok then state.2.rollbackTo else state.2) = conn at ok
  cases releases : env.releases with
  | false => simp [releases] at ok
  | true =>
      cases released : conn.release with
      | none => simp [releases, released] at ok
      | some conn => simpa [releases, released] using ok

theorem handedTransaction_eq {env : UpdateEnv} {legacy : Bool} {catalogue : Catalogue}
    {tasks : Tasks} {table : RepoTable} (usable : catalogue.Usable)
    (ok : (updateTransaction env legacy catalogue tasks table).1 = .ok) :
    handedTransaction env legacy catalogue tasks table = tasks.ladd := by
  unfold updateTransaction at ok
  split at ok
  · next begins =>
      dsimp only at ok
      rw [handedTransaction, if_pos ⟨begins, usable⟩,
        handedTasks_eq (ok_of_finishTransaction ok), List.zipIdx_map_fst]
  · cases ok

/-- A task that is handed over is read from a line, and the catalogue can be mapped. -/
theorem of_mem_handedRows {env : UpdateEnv} {legacy : Bool} {lines : List Text}
    {catalogue : Catalogue} {table : RepoTable} {item : TaskItem}
    (handed : item ∈ handedRows env legacy lines catalogue table) :
    catalogue.Usable ∧ ∃ line ∈ lines, ∃ number, digestItem env number line = some item := by
  unfold handedRows at handed
  split at handed
  · split at handed
    · cases handed
    · next items read =>
        unfold handedTransaction at handed
        split at handed
        · next begun =>
            refine ⟨begun.2, ?_⟩
            have added := mem_of_mem_handedTasks handed
            rw [List.zipIdx_map_fst] at added
            have listed := (updateTasks_spec table items).2.1 item added
            obtain ⟨⟨line, number⟩, inFile, isItem⟩ := exists_of_mem_mapM read listed
            exact ⟨line, (List.mem_zipIdx' inFile).2 ▸ List.getElem_mem _, number, isItem⟩
        · cases handed
  · cases handed

theorem of_mem_handedUpdate {env : UpdateEnv} {lines : List Text} {catalogue : Catalogue}
    {table : RepoTable} {item : TaskItem} (handed : item ∈ handedUpdate env lines catalogue table) :
    catalogue.Usable ∧ ∃ line ∈ lines, ∃ number, digestItem env number line = some item := by
  unfold handedUpdate at handed
  split at handed
  · cases handed
  · split at handed
    · exact of_mem_handedRows handed
    · split at handed
      · exact of_mem_handedRows handed
      · cases handed

/-! ## When the slices are inside -/

/-- The slice of a task that is handed over is inside exactly where its numbers are. -/
theorem handedUpdate_inside_iff {env : UpdateEnv} {lines : List Text} {catalogue : Catalogue}
    {table : RepoTable} {item : TaskItem}
    (handed : item ∈ handedUpdate { env with strtoul := strtoulErrno } lines catalogue table) :
    (item.slice catalogue.size).Inside catalogue.size ↔
      item.offset + item.length ≤ catalogue.size := by
  obtain ⟨usable, line, -, number, read⟩ := of_mem_handedUpdate handed
  obtain ⟨offset, length⟩ := digestItem_le read
  exact TaskItem.slice_inside_iff offset length usable.2

/-- No update of any table leaves the catalogue where no line does. -/
theorem slicesInside_of_lines {env : UpdateEnv} {lines : List Text} {catalogue : Catalogue}
    (within : ∀ line ∈ lines, ∀ number item,
      digestItem { env with strtoul := strtoulErrno } number line = some item →
      item.offset + item.length ≤ catalogue.size) (table : RepoTable) :
    SlicesInside env lines catalogue table := by
  intro item handed
  obtain ⟨-, line, listed, number, read⟩ := of_mem_handedUpdate handed
  exact (handedUpdate_inside_iff handed).mpr (within line listed number item read)

/-- An offset far behind the five bytes of the catalogue. -/
def farOffset : TaskItem where
  origin := "a/b".toList
  digest := "d".toList
  offset := 1000
  length := 77
  checksum := some "c".toList

end Pkgng
