import Pkgng.Repo.Incremental

/-!
# All or nothing

A catalogue update that reports success should leave exactly the origins of the digests
file, and one that reports anything else should leave the rows alone.  The transaction
sees to the second part; the first fails where the catalogue is empty, and where two
origins share a manifest digest.
-/

set_option autoImplicit false

namespace Pkgng

open Lib

/-! ## What is asked of an update -/

/-- The row of the item's origin records the item's checksum. -/
def RepoTable.Unchanged (table : RepoTable) (item : TaskItem) : Prop :=
  ∃ row ∈ table.rows, row.origin = item.origin ∧ item.checksum.isSome = true ∧
    row.cksum = item.checksum

/-- The rows `after` a successful update of `table`. -/
structure UpdatedExactly (env : UpdateEnv) (legacy : Bool) (catalogue : Catalogue)
    (items : List TaskItem) (table after : RepoTable) : Prop where
  origins : ∀ origin, origin ∈ after.origins ↔ origin ∈ items.map TaskItem.origin
  readded : ∀ item ∈ items, ¬table.Unchanged item →
    ∃ row ∈ after.rows, row.origin = item.origin ∧ row.added = true ∧
      ∃ other ∈ items, manifestRow env legacy catalogue other = some row

/-- The update of `table` is exact if it returns `EPKG_OK`, and does nothing to the rows
otherwise. -/
structure AllOrNothing (env : UpdateEnv) (table : RepoTable) : Prop where
  all : (pkgRepoBinaryUpdateIncremental env table).1 = .ok →
    ∃ lines catalogue legacy items, env.digests = .file lines ∧
      env.manifests = .file catalogue ∧ legacyRepo env lines = some legacy ∧
      digestItems env lines = some items ∧
      UpdatedExactly env legacy catalogue items table
        (pkgRepoBinaryUpdateIncremental env table).2
  nothing : (pkgRepoBinaryUpdateIncremental env table).1 ≠ .ok →
    (pkgRepoBinaryUpdateIncremental env table).2.rows = table.rows

/-! ## When an update goes through -/

/-- Every statement succeeds and every manifest is accepted. -/
structure Commits (env : UpdateEnv) (legacy : Bool) (catalogue : Catalogue) (tasks : Tasks) :
    Prop where
  begins : env.begins = true
  removes : ∀ task ∈ tasks.ldel.zipIdx, env.removes task.2 = true
  adds : catalogue.Usable → ∀ task ∈ tasks.ladd.zipIdx,
    (manifestRow env legacy catalogue task.1).isSome = true ∧
      env.inserts task.2 = .done ∧ env.children task.2 = .done
  releases : env.releases = true

/-- The update of the rows of `table` returns `EPKG_OK`. -/
def GoesThrough (env : UpdateEnv) (legacy : Bool) (lines : List Text) (catalogue : Catalogue)
    (table : RepoTable) : Prop :=
  env.selects = true ∧ ∃ items, digestItems env lines = some items ∧
    Commits env legacy catalogue (updateTasks table items)

/-- The rows whose origin is in the digests file. -/
def RepoTable.kept (table : RepoTable) (items : List TaskItem) : List RepoRow :=
  table.rows.filter fun row => (items.map TaskItem.origin).contains row.origin

theorem RepoTable.mem_kept {table : RepoTable} {items : List TaskItem} {row : RepoRow} :
    row ∈ table.kept items ↔ row ∈ table.rows ∧ row.origin ∈ items.map TaskItem.origin := by
  rw [RepoTable.kept, List.mem_filter, List.contains_iff_mem]

/-- The rows to be added, in order. -/
def newRows (env : UpdateEnv) (legacy : Bool) (catalogue : Catalogue) (tasks : Tasks) :
    List RepoRow :=
  tasks.ladd.filterMap (manifestRow env legacy catalogue)

/-- The table the update starts from. -/
def UpdateEnv.base (env : UpdateEnv) (table : RepoTable) : RepoTable :=
  if env.opens then table else RepoTable.empty

/-- Nothing has to be added from a catalogue that is empty or too large, and no row to
be added takes the manifest digest of the last row of another origin; a database that
does not open is empty or replaced by a finished one. -/
structure UpdateSafe (env : UpdateEnv) (table : RepoTable) : Prop where
  exact : ∀ lines catalogue legacy items, env.digests = .file lines →
    env.manifests = .file catalogue → legacyRepo env lines = some legacy →
    digestItems env lines = some items → (env.opens = true ∨ env.recreates = true) →
    GoesThrough env legacy lines catalogue (env.base table) →
      if catalogue.Usable then
        LastOfKeyStays RepoRow.origin RepoRow.Clashes ((env.base table).kept items ++
          newRows env legacy catalogue (updateTasks (env.base table) items))
      else ∀ item ∈ items, (env.base table).Unchanged item
  opens : ∀ lines catalogue legacy, env.digests = .file lines →
    env.manifests = .file catalogue → legacyRepo env lines = some legacy →
    env.opens = false →
    ¬(env.recreates = true ∧ GoesThrough env legacy lines catalogue RepoTable.empty) →
      table.rows = []

/-! ## The tasks -/

section TaskLists

/-- The old row an item is compared with records the item's checksum. -/
def Tasks.Records (tasks : Tasks) (item : TaskItem) : Prop :=
  ∃ old ∈ tasks.ldel, old.origin = item.origin ∧ item.checksum.isSome = true ∧
    old.checksum = item.checksum

/-- One line: the row of its origin is not removed, and the item is added unless that
row records its checksum. -/
theorem compare_step (tasks : Tasks) (item : TaskItem)
    (nodup : (tasks.ldel.map TaskItem.origin).Nodup) :
    (tasks.compare item).ldel = tasks.ldel.filter (fun old => old.origin ≠ item.origin) ∧
      ((tasks.compare item).ladd = tasks.ladd ++ [item] ∨
        (tasks.compare item).ladd = tasks.ladd ∧ tasks.Records item) := by
  unfold Tasks.compare
  cases found : tasks.ldel.find? fun old => old.origin = item.origin with
  | none =>
      have absent : ∀ old ∈ tasks.ldel, old.origin ≠ item.origin := by
        simpa using List.find?_eq_none.mp found
      constructor
      · rw [List.filter_eq_self.mpr]
        intro old member
        simpa using absent old member
      · exact Or.inl rfl
  | some old =>
      have member := List.mem_of_find?_eq_some found
      have origin : old.origin = item.origin := by simpa using List.find?_some found
      constructor
      · dsimp only
        rw [(List.Nodup.of_map _ nodup).erase_eq_filter]
        apply List.filter_congr
        intro other inOld
        have same : other = old ↔ other.origin = item.origin := by
          constructor
          · intro same
            rw [same, origin]
          · intro same
            exact List.inj_on_of_nodup_map nodup inOld member (same.trans origin.symm)
        by_cases here : other.origin = item.origin
        · simp [same.mpr here, origin]
        · have different : other ≠ old := fun equal => here (same.mp equal)
          simp [here, different]
      · dsimp only
        split
        · exact Or.inl rfl
        · next recorded =>
            rw [not_or, not_or, not_not] at recorded
            obtain ⟨some, _, same⟩ := recorded
            refine Or.inr ⟨rfl, old, member, origin, ?_, same.symm⟩
            simpa [Option.isSome_iff_ne_none] using some

/-- What all lines leave of `ldel`, and where each item goes. -/
theorem compare_all (items : List TaskItem) (tasks : Tasks)
    (nodup : (tasks.ldel.map TaskItem.origin).Nodup) :
    (items.foldl Tasks.compare tasks).ldel =
        tasks.ldel.filter (fun old => old.origin ∉ items.map TaskItem.origin) ∧
      (∀ item ∈ (items.foldl Tasks.compare tasks).ladd, item ∈ tasks.ladd ∨ item ∈ items) ∧
      (∀ item ∈ tasks.ladd, item ∈ (items.foldl Tasks.compare tasks).ladd) ∧
      ∀ item ∈ items, item ∈ (items.foldl Tasks.compare tasks).ladd ∨ tasks.Records item := by
  induction items generalizing tasks with
  | nil => simp
  | cons item items ih =>
      obtain ⟨ldel, ladd⟩ := compare_step tasks item nodup
      have nodup' : ((tasks.compare item).ldel.map TaskItem.origin).Nodup := by
        rw [ldel]
        exact nodup.sublist (List.Sublist.map _ List.filter_sublist)
      obtain ⟨ldelAll, within, keeps, goes⟩ := ih (tasks.compare item) nodup'
      have grows : ∀ old ∈ tasks.ladd, old ∈ (tasks.compare item).ladd := by
        intro old member
        rcases ladd with appended | ⟨same, _⟩
        · rw [appended]
          exact List.mem_append_left _ member
        · rwa [same]
      refine ⟨?_, ?_, fun old member => keeps old (grows old member), ?_⟩
      · rw [List.foldl_cons, ldelAll, ldel, List.filter_filter]
        apply List.filter_congr
        intro old _
        simp only [List.map_cons, List.mem_cons, not_or, ne_eq, Bool.decide_and, Bool.and_comm]
      · intro other member
        rcases within other member with inStep | inRest
        · rcases ladd with appended | ⟨same, _⟩
          · rw [appended, List.mem_append, List.mem_singleton] at inStep
            rcases inStep with old | isItem
            · exact Or.inl old
            · rw [isItem]
              exact Or.inr List.mem_cons_self
          · rw [same] at inStep
            exact Or.inl inStep
        · exact Or.inr (List.mem_cons_of_mem _ inRest)
      · intro other member
        rcases List.mem_cons.mp member with isItem | inRest
        · rw [isItem]
          rcases ladd with appended | ⟨_, records⟩
          · left
            apply keeps
            rw [appended]
            exact List.mem_append_right _ (List.mem_singleton_self item)
          · exact Or.inr records
        · rcases goes other inRest with added | ⟨old, inOld, recorded⟩
          · exact Or.inl added
          · right
            rw [ldel] at inOld
            exact ⟨old, List.mem_of_mem_filter inOld, recorded⟩

variable (table : RepoTable) (items : List TaskItem)

theorem RepoTable.origins_nodup : table.origins.Nodup := by
  rw [RepoTable.origins, List.Nodup, List.pairwise_map]
  apply table.unique.imp
  intro row other apart same
  exact apart.1 (Or.inl same)

/-- The tasks of an update: the rows without a line go, and each line is added unless
the row of its origin records its checksum. -/
theorem updateTasks_spec :
    (∀ origin, origin ∈ (updateTasks table items).ldel.map TaskItem.origin ↔
        origin ∈ table.origins ∧ origin ∉ items.map TaskItem.origin) ∧
      (∀ item ∈ (updateTasks table items).ladd, item ∈ items) ∧
      ∀ item ∈ items, item ∈ (updateTasks table items).ladd ∨ table.Unchanged item := by
  have origins : (table.rows.map fun row =>
      ({ origin := row.origin, checksum := row.cksum } : TaskItem)).map TaskItem.origin =
        table.origins := by
    rw [List.map_map]
    rfl
  obtain ⟨ldel, within, _, goes⟩ := compare_all items
    { ldel := table.rows.map fun row => { origin := row.origin, checksum := row.cksum } }
    (by rw [origins]; exact table.origins_nodup)
  refine ⟨?_, ?_, ?_⟩
  · intro origin
    rw [updateTasks, ldel, List.mem_map]
    constructor
    · rintro ⟨old, member, rfl⟩
      obtain ⟨inRows, unlisted⟩ := List.mem_filter.mp member
      rw [← origins]
      exact ⟨List.mem_map_of_mem inRows, of_decide_eq_true unlisted⟩
    · rintro ⟨inRows, unlisted⟩
      rw [← origins, List.mem_map] at inRows
      obtain ⟨old, member, rfl⟩ := inRows
      exact ⟨old, List.mem_filter.mpr ⟨member, decide_eq_true unlisted⟩, rfl⟩
  · intro item member
    rcases within item member with old | inItems
    · cases old
    · exact inItems
  · intro item member
    rcases goes item member with added | ⟨old, inOld, origin, some, checksum⟩
    · exact Or.inl added
    · obtain ⟨row, inRows, rfl⟩ := List.mem_map.mp inOld
      exact Or.inr ⟨row, inRows, origin, some, checksum⟩

end TaskLists

/-! ## The transaction -/

section Transaction

variable {env : UpdateEnv} {legacy : Bool} {catalogue : Catalogue} {old : RepoTable}

/-- A savepoint over `old` is open. -/
def Opened (old : RepoTable) (now : RepoTable) : Connection RepoTable :=
  { now := now, committed := old, savepoint := some old }

/-- A loop whose turns do nothing once one has failed. -/
theorem foldl_failed {α : Type} {f : RepoRc × Connection RepoTable → α →
      RepoRc × Connection RepoTable}
    (idle : ∀ state x, state.1 ≠ .ok → f state x = state) (xs : List α)
    {state : RepoRc × Connection RepoTable} (failed : state.1 ≠ .ok) :
    xs.foldl f state = state := by
  induction xs with
  | nil => rfl
  | cons x xs ih => rw [List.foldl_cons, idle state x failed, ih]

/-- A loop of statements ends with all of their effects, or has failed. -/
theorem foldl_statements {α : Type} {f : RepoRc × Connection RepoTable → α →
      RepoRc × Connection RepoTable} {succeeds : α → Prop} {effect : RepoTable → α → RepoTable}
    (idle : ∀ state x, state.1 ≠ .ok → f state x = state)
    (done : ∀ now x, succeeds x → f (.ok, Opened old now) x = (.ok, Opened old (effect now x)))
    (failed : ∀ now x, ¬succeeds x →
      (f (.ok, Opened old now) x).1 ≠ .ok ∧ (f (.ok, Opened old now) x).2.Over old)
    (xs : List α) (now : RepoTable) :
    ((∀ x ∈ xs, succeeds x) →
      xs.foldl f (.ok, Opened old now) = (.ok, Opened old (xs.foldl effect now))) ∧
    (¬(∀ x ∈ xs, succeeds x) →
      (xs.foldl f (.ok, Opened old now)).1 ≠ .ok ∧
        (xs.foldl f (.ok, Opened old now)).2.Over old) := by
  induction xs generalizing now with
  | nil => simp
  | cons x xs ih =>
      rw [List.forall_mem_cons]
      by_cases here : succeeds x
      · obtain ⟨all, some⟩ := ih (effect now x)
        rw [List.foldl_cons, done now x here, List.foldl_cons]
        exact ⟨fun succeed => all succeed.2, fun fails => some fun rest => fails ⟨here, rest⟩⟩
      · obtain ⟨code, keeps⟩ := failed now x here
        rw [List.foldl_cons, foldl_failed idle xs code]
        exact ⟨fun succeed => absurd succeed.1 here, fun _ => ⟨code, keeps⟩⟩

theorem over_opened (now : RepoTable) : (Opened old now).Over old :=
  ⟨rfl, Or.inl rfl⟩

/-- The loop keeps `ldel`. -/
theorem removeTasks_spec (tasks : List (TaskItem × Nat)) (now : RepoTable) :
    ((∀ task ∈ tasks, env.removes task.2 = true) →
      tasks.foldl (removeTask env) (.ok, Opened old now) =
        (.ok, Opened old (tasks.foldl (fun table task => table.delete task.1.origin) now))) ∧
    (¬(∀ task ∈ tasks, env.removes task.2 = true) →
      (tasks.foldl (removeTask env) (.ok, Opened old now)).1 ≠ .ok ∧
        (tasks.foldl (removeTask env) (.ok, Opened old now)).2.Over old) := by
  apply foldl_statements
  · intro state task failed
    rw [removeTask, if_neg failed]
  · intro now task removes
    rw [removeTask, if_pos rfl, if_pos removes]
    rfl
  · intro now task fails
    rw [removeTask, if_pos rfl, if_neg fails]
    exact ⟨nofun, over_opened now⟩

/-- The statements for an addition succeed. -/
def AddsTask (env : UpdateEnv) (legacy : Bool) (catalogue : Catalogue) (task : TaskItem × Nat) :
    Prop :=
  (manifestRow env legacy catalogue task.1).isSome = true ∧ env.inserts task.2 = .done ∧
    env.children task.2 = .done

/-- The table with the row of an item, if it has one. -/
def RepoTable.insertItem (env : UpdateEnv) (legacy : Bool) (catalogue : Catalogue)
    (table : RepoTable) (task : TaskItem × Nat) : RepoTable :=
  match manifestRow env legacy catalogue task.1 with
  | none => table
  | some row => table.insert row

/-- The loop keeps `ladd`. -/
theorem addTasks_spec (tasks : List (TaskItem × Nat)) (now : RepoTable) :
    ((∀ task ∈ tasks, AddsTask env legacy catalogue task) →
      tasks.foldl (addTask env legacy catalogue) (.ok, Opened old now) =
        (.ok, Opened old (tasks.foldl (RepoTable.insertItem env legacy catalogue) now))) ∧
    (¬(∀ task ∈ tasks, AddsTask env legacy catalogue task) →
      (tasks.foldl (addTask env legacy catalogue) (.ok, Opened old now)).1 ≠ .ok ∧
        (tasks.foldl (addTask env legacy catalogue) (.ok, Opened old now)).2.Over old) := by
  apply foldl_statements
  · intro state task failed
    rw [addTask, if_neg failed]
  · rintro now task ⟨accepted, inserts, children⟩
    obtain ⟨row, parsed⟩ := Option.isSome_iff_exists.mp accepted
    simp only [addTask, if_true, parsed, pkgRepoBinaryAddPkg, inserts, children,
      RepoTable.insertItem]
    rfl
  · intro now task fails
    rw [addTask, if_pos rfl]
    cases parsed : manifestRow env legacy catalogue task.1 with
    | none => exact ⟨nofun, over_opened now⟩
    | some row =>
        unfold pkgRepoBinaryAddPkg
        cases inserts : env.inserts task.2 with
        | error => exact ⟨nofun, over_opened now⟩
        | constraint =>
            dsimp only
            split
            · exact ⟨nofun, over_opened _⟩
            · exact ⟨nofun, over_opened now⟩
        | done =>
            cases children : env.children task.2 with
            | done => exact absurd ⟨by rw [parsed]; rfl, inserts, children⟩ fails
            | error => exact ⟨nofun, over_opened _⟩
            | rollback => exact ⟨nofun, (over_opened _).abort⟩

theorem finishTransaction_ok (now : RepoTable) (releases : env.releases = true) :
    finishTransaction env (.ok, Opened old now) = (.ok, now) := by
  simp [finishTransaction, releases, Opened, Connection.release]

/-- A failed loop or a failed `RELEASE` leaves the rows on disk. -/
theorem finishTransaction_failed {state : RepoRc × Connection RepoTable}
    (keeps : state.2.Over old) (failed : state.1 ≠ .ok ∨ env.releases = false) :
    (finishTransaction env state).1 ≠ .ok ∧ (finishTransaction env state).2 = old := by
  unfold finishTransaction
  by_cases code : state.1 = .ok
  · have unreleased := failed.resolve_left (not_not.mpr code)
    simp [code, unreleased, keeps.1]
  · obtain ⟨⟨committed, saved⟩, now⟩ := keeps.rollbackTo
    rw [if_pos code]
    dsimp only
    split
    · split
      · next conn released =>
          obtain ⟨_, _, rfl⟩ := Option.map_eq_some_iff.mp released
          exact ⟨code, now⟩
      · exact ⟨nofun, committed⟩
    · exact ⟨nofun, committed⟩

/-- The rows after the removals, and after the additions. -/
def Tasks.removed (tasks : Tasks) (table : RepoTable) : RepoTable :=
  tasks.ldel.zipIdx.foldl (fun table task => table.delete task.1.origin) table

def Tasks.added (env : UpdateEnv) (legacy : Bool) (catalogue : Catalogue) (tasks : Tasks)
    (table : RepoTable) : RepoTable :=
  if catalogue.Usable then
    tasks.ladd.zipIdx.foldl (RepoTable.insertItem env legacy catalogue) (tasks.removed table)
  else tasks.removed table

/-- A transaction makes all the changes and returns `EPKG_OK`, or makes none. -/
theorem updateTransaction_spec (tasks : Tasks) (table : RepoTable) :
    (Commits env legacy catalogue tasks →
      updateTransaction env legacy catalogue tasks table =
        (.ok, tasks.added env legacy catalogue table)) ∧
    (¬Commits env legacy catalogue tasks →
      (updateTransaction env legacy catalogue tasks table).1 ≠ .ok ∧
        (updateTransaction env legacy catalogue tasks table).2 = table) := by
  obtain ⟨removesAll, removesSome⟩ :=
    @removeTasks_spec env table tasks.ldel.zipIdx table
  obtain ⟨addsAll, addsSome⟩ :=
    @addTasks_spec env legacy catalogue table tasks.ladd.zipIdx (tasks.removed table)
  have begun : (Connection.connect table).begin = Opened table table := rfl
  have removed : tasks.ldel.zipIdx.foldl (fun table task => table.delete task.1.origin) table =
      tasks.removed table := rfl
  rw [removed] at removesAll
  unfold updateTransaction
  rw [begun]
  dsimp only
  constructor
  · rintro ⟨begins, removes, adds, releases⟩
    rw [if_pos begins, removesAll removes, Tasks.added]
    split
    · next usable =>
        rw [addsAll (adds usable), finishTransaction_ok _ releases]
    · rw [finishTransaction_ok _ releases]
  · intro fails
    split
    · next begins =>
        by_cases removes : ∀ task ∈ tasks.ldel.zipIdx, env.removes task.2 = true
        · rw [removesAll removes]
          split
          · next usable =>
              by_cases adds : ∀ task ∈ tasks.ladd.zipIdx, AddsTask env legacy catalogue task
              · have unreleased : env.releases = false := by
                  by_contra releases
                  rw [Bool.not_eq_false] at releases
                  exact fails ⟨begins, removes, fun _ => adds, releases⟩
                rw [addsAll adds]
                exact finishTransaction_failed (over_opened _) (Or.inr unreleased)
              · obtain ⟨code, keeps⟩ := addsSome adds
                exact finishTransaction_failed keeps (Or.inl code)
          · next unusable =>
              have unreleased : env.releases = false := by
                by_contra releases
                rw [Bool.not_eq_false] at releases
                exact fails ⟨begins, removes, fun usable => absurd usable unusable, releases⟩
              exact finishTransaction_failed (over_opened _) (Or.inr unreleased)
        · obtain ⟨code, keeps⟩ := removesSome removes
          split
          · rw [foldl_failed _ _ code]
            · exact finishTransaction_failed keeps (Or.inl code)
            · intro state task failed
              rw [addTask, if_neg failed]
          · exact finishTransaction_failed keeps (Or.inl code)
    · exact ⟨nofun, rfl⟩

end Transaction

/-! ## The rows of a finished update -/

section Rows

variable {env : UpdateEnv} {legacy : Bool} {catalogue : Catalogue} {items : List TaskItem}

theorem foldl_zipIdx_fst {α β : Type} (f : β → α → β) (xs : List α) (start : β) (n : Nat) :
    (xs.zipIdx n).foldl (fun state x => f state x.1) start = xs.foldl f start := by
  induction xs generalizing start n with
  | nil => rfl
  | cons x xs ih => rw [List.zipIdx_cons, List.foldl_cons, List.foldl_cons, ih]

theorem foldl_delete_rows (origins : List Text) (table : RepoTable) :
    (origins.foldl RepoTable.delete table).rows =
      table.rows.filter fun row => row.origin ∉ origins := by
  induction origins generalizing table with
  | nil => simp
  | cons origin origins ih =>
      rw [List.foldl_cons, ih, RepoTable.delete, List.filter_filter]
      apply List.filter_congr
      intro row _
      simp only [List.mem_cons, not_or, ne_eq, Bool.decide_and, Bool.and_comm]

/-- The removals keep the rows whose origin has a line. -/
theorem removed_rows (table : RepoTable) (items : List TaskItem) :
    ((updateTasks table items).removed table).rows = table.kept items := by
  have deletes := foldl_delete_rows ((updateTasks table items).ldel.map TaskItem.origin) table
  rw [List.foldl_map] at deletes
  have zipped := @foldl_zipIdx_fst TaskItem RepoTable (fun table task => table.delete task.origin)
    (updateTasks table items).ldel table 0
  rw [Tasks.removed, zipped, deletes, RepoTable.kept]
  apply List.filter_congr
  intro row member
  have listed : row.origin ∈ table.origins := List.mem_map_of_mem member
  simp [(updateTasks_spec table items).1 row.origin, listed, -List.mem_map]

theorem foldl_insertItem_rows (tasks : List TaskItem) (table : RepoTable) :
    (tasks.foldl (fun table task => table.insertItem env legacy catalogue (task, 0)) table).rows =
      (tasks.filterMap (manifestRow env legacy catalogue)).foldl (replaceInto RepoRow.Clashes)
        table.rows := by
  induction tasks generalizing table with
  | nil => rfl
  | cons task tasks ih =>
      rw [List.foldl_cons, ih, RepoTable.insertItem]
      cases parsed : manifestRow env legacy catalogue task with
      | none => rw [List.filterMap_cons_none parsed]
      | some row =>
          rw [List.filterMap_cons_some parsed, List.foldl_cons]
          rfl

/-- What a finished update leaves: the kept and the new rows that no later row clashes
with. -/
theorem mem_added_iff {table : RepoTable} (usable : catalogue.Usable) (row : RepoRow) :
    row ∈ ((updateTasks table items).added env legacy catalogue table).rows ↔
      Survives RepoRow.Clashes
        (table.kept items ++ newRows env legacy catalogue (updateTasks table items)) row := by
  have apart : (table.kept items).Pairwise fun a b => ¬b.Clashes a :=
    (table.unique.filter _).imp And.right
  have inserts := @foldl_zipIdx_fst TaskItem RepoTable
    (fun table task => table.insertItem env legacy catalogue (task, 0))
    (updateTasks table items).ladd ((updateTasks table items).removed table) 0
  have same : (fun (table : RepoTable) (task : TaskItem × Nat) =>
      table.insertItem env legacy catalogue (task.1, 0)) =
        RepoTable.insertItem env legacy catalogue := rfl
  rw [same] at inserts
  rw [Tasks.added, if_pos usable, inserts, foldl_insertItem_rows, removed_rows,
    mem_replaceAll_of_pairwise apart, newRows]

theorem added_rows_of_unusable {table : RepoTable} (unusable : ¬catalogue.Usable) :
    ((updateTasks table items).added env legacy catalogue table).rows = table.kept items := by
  rw [Tasks.added, if_neg unusable, removed_rows]

theorem manifestRow_spec {item : TaskItem} {row : RepoRow}
    (parsed : manifestRow env legacy catalogue item = some row) :
    row.origin = item.origin ∧ row.added = true := by
  simp only [manifestRow, Option.bind_eq_bind, Option.bind_eq_some_iff] at parsed
  obtain ⟨pkg, _, arch, _, built⟩ := parsed
  split at built
  · cases built
    exact ⟨rfl, rfl⟩
  · cases built

theorem mem_newRows {tasks : Tasks} {row : RepoRow}
    (member : row ∈ newRows env legacy catalogue tasks) :
    row.added = true ∧ ∃ item ∈ tasks.ladd, item.origin = row.origin ∧
      manifestRow env legacy catalogue item = some row := by
  obtain ⟨item, inAdds, parsed⟩ := List.mem_filterMap.mp member
  obtain ⟨origin, added⟩ := manifestRow_spec parsed
  exact ⟨added, item, inAdds, origin.symm, parsed⟩

theorem Commits.newRow {tasks : Tasks} (commits : Commits env legacy catalogue tasks)
    (usable : catalogue.Usable) {item : TaskItem} (member : item ∈ tasks.ladd) :
    ∃ row ∈ newRows env legacy catalogue tasks, row.origin = item.origin := by
  obtain ⟨number, listed⟩ : ∃ number, (item, number) ∈ tasks.ladd.zipIdx := by
    obtain ⟨number, bound, here⟩ := List.getElem_of_mem member
    exact ⟨number, List.mem_zipIdx_iff_getElem?.mpr (by rw [List.getElem?_eq_getElem bound, here])⟩
  obtain ⟨accepted, _⟩ := commits.adds usable _ listed
  obtain ⟨row, parsed⟩ := Option.isSome_iff_exists.mp accepted
  exact ⟨row, List.mem_filterMap.mpr ⟨item, member, parsed⟩, (manifestRow_spec parsed).1⟩

variable {base table : RepoTable}

theorem origin_of_mem_kept_newRows {row : RepoRow}
    (member : row ∈ base.kept items ++
      newRows env legacy catalogue (updateTasks base items)) :
    row.origin ∈ items.map TaskItem.origin := by
  rcases List.mem_append.mp member with kept | new
  · exact (RepoTable.mem_kept.mp kept).2
  · obtain ⟨_, item, inAdds, origin, _⟩ := mem_newRows new
    rw [← origin]
    exact List.mem_map_of_mem ((updateTasks_spec base items).2.1 item inAdds)

/-- An item that is to be added ends up as one of the new rows. -/
theorem mem_newRows_of_survives (commits : Commits env legacy catalogue (updateTasks base items))
    (usable : catalogue.Usable) {item : TaskItem} (toAdd : item ∈ (updateTasks base items).ladd)
    {row : RepoRow} (origin : row.origin = item.origin)
    (survives : Survives RepoRow.Clashes
      (base.kept items ++ newRows env legacy catalogue (updateTasks base items)) row) :
    row ∈ newRows env legacy catalogue (updateTasks base items) := by
  rcases survives_append.mp survives with ⟨_, apart⟩ | inNew
  · obtain ⟨new, member, same⟩ := commits.newRow usable toAdd
    exact absurd (Or.inl (same.trans origin.symm)) (apart new member)
  · exact inNew.mem

/-- With a usable catalogue, a finished update is exact when no new row replaces the last
row of another origin. -/
theorem updatedExactly_iff_of_usable
    (commits : Commits env legacy catalogue (updateTasks base items))
    (usable : catalogue.Usable) (within : ∀ row ∈ base.rows, row ∈ table.rows) :
    UpdatedExactly env legacy catalogue items table
        ((updateTasks base items).added env legacy catalogue base) ↔
      LastOfKeyStays RepoRow.origin RepoRow.Clashes
        (base.kept items ++ newRows env legacy catalogue (updateTasks base items)) := by
  have after := @mem_added_iff env legacy catalogue items base usable
  have sameOrigin : ∀ a b : RepoRow, a.origin = b.origin → a.Clashes b :=
    fun _ _ same => Or.inl same
  rw [← keys_survive_iff sameOrigin]
  constructor
  · intro exactly row member
    have listed := (exactly.origins row.origin).mpr (origin_of_mem_kept_newRows member)
    obtain ⟨other, inAfter, same⟩ := List.mem_map.mp listed
    exact ⟨other, (after other).mp inAfter, same⟩
  · intro survive
    have covered : ∀ item ∈ items, ∃ row, Survives RepoRow.Clashes
        (base.kept items ++ newRows env legacy catalogue (updateTasks base items)) row ∧
          row.origin = item.origin := by
      intro item member
      obtain ⟨row, inRows, origin⟩ : ∃ row ∈ base.kept items ++
          newRows env legacy catalogue (updateTasks base items), row.origin = item.origin := by
        rcases (updateTasks_spec base items).2.2 item member with toAdd | ⟨row, old, origin, _⟩
        · obtain ⟨row, new, origin⟩ := commits.newRow usable toAdd
          exact ⟨row, List.mem_append_right _ new, origin⟩
        · refine ⟨row, List.mem_append_left _ (RepoTable.mem_kept.mpr ⟨old, ?_⟩), origin⟩
          rw [origin]
          exact List.mem_map_of_mem member
      obtain ⟨other, survives, same⟩ := survive row inRows
      exact ⟨other, survives, same.trans origin⟩
    constructor
    · intro origin
      constructor
      · intro listed
        obtain ⟨row, inAfter, rfl⟩ := List.mem_map.mp listed
        exact origin_of_mem_kept_newRows ((after row).mp inAfter).mem
      · intro listed
        obtain ⟨item, member, rfl⟩ := List.mem_map.mp listed
        obtain ⟨row, survives, origin⟩ := covered item member
        rw [← origin]
        exact List.mem_map_of_mem ((after row).mpr survives)
    · intro item member changed
      obtain ⟨row, survives, origin⟩ := covered item member
      rcases (updateTasks_spec base items).2.2 item member with toAdd | ⟨old, inBase, recorded⟩
      · obtain ⟨added, other, inAdds, _, parsed⟩ :=
          mem_newRows (mem_newRows_of_survives commits usable toAdd origin survives)
        exact ⟨row, (after row).mpr survives, origin, added, other,
          (updateTasks_spec base items).2.1 other inAdds, parsed⟩
      · exact absurd ⟨old, within old inBase, recorded⟩ changed

/-- With an empty or too large catalogue, a finished update is exact when no line is new
or changed. -/
theorem updatedExactly_iff_of_unusable (unusable : ¬catalogue.Usable)
    (whole : base = table ∨ base.rows = []) (fresh : ∀ row ∈ table.rows, row.added = false) :
    UpdatedExactly env legacy catalogue items table
        ((updateTasks base items).added env legacy catalogue base) ↔
      ∀ item ∈ items, base.Unchanged item := by
  have after := @added_rows_of_unusable env legacy catalogue items base unusable
  constructor
  · intro exactly item member
    have listed := (exactly.origins item.origin).mpr (List.mem_map_of_mem member)
    rw [RepoTable.origins, after] at listed
    obtain ⟨row, kept, _⟩ := List.mem_map.mp listed
    have inBase := List.mem_of_mem_filter kept
    rcases whole with same | nothing
    · subst same
      by_contra changed
      obtain ⟨new, inAfter, _, added, _⟩ := exactly.readded item member changed
      rw [after] at inAfter
      rw [fresh new (List.mem_of_mem_filter inAfter)] at added
      cases added
    · rw [nothing] at inBase
      cases inBase
  · intro unchanged
    constructor
    · intro origin
      rw [RepoTable.origins, after]
      constructor
      · intro listed
        obtain ⟨row, kept, rfl⟩ := List.mem_map.mp listed
        exact (RepoTable.mem_kept.mp kept).2
      · intro listed
        obtain ⟨item, member, rfl⟩ := List.mem_map.mp listed
        obtain ⟨row, inBase, origin, _⟩ := unchanged item member
        rw [← origin]
        refine List.mem_map_of_mem (RepoTable.mem_kept.mpr ⟨inBase, ?_⟩)
        rw [origin]
        exact List.mem_map_of_mem member
    · intro item member changed
      obtain ⟨row, inBase, recorded⟩ := unchanged item member
      rcases whole with same | nothing
      · subst same
        exact absurd ⟨row, inBase, recorded⟩ changed
      · rw [nothing] at inBase
        cases inBase

end Rows

/-! ## The update as a whole -/

section Whole

variable {env : UpdateEnv} {table : RepoTable}

/-- The update of the rows of a table. -/
theorem updateRows_spec {legacy : Bool} {lines : List Text} {catalogue : Catalogue} :
    (∀ items, digestItems env lines = some items →
      GoesThrough env legacy lines catalogue table →
        updateRows env legacy lines catalogue table =
          (.ok, (updateTasks table items).added env legacy catalogue table)) ∧
    (¬GoesThrough env legacy lines catalogue table →
      (updateRows env legacy lines catalogue table).1 ≠ .ok ∧
        (updateRows env legacy lines catalogue table).2 = table) := by
  unfold updateRows
  constructor
  · rintro items read ⟨selects, items', read', commits⟩
    rw [read] at read'
    cases read'
    rw [if_pos selects, read]
    exact (updateTransaction_spec _ table).1 commits
  · intro stuck
    split
    · next selects =>
        cases read : digestItems env lines with
        | none => exact ⟨nofun, rfl⟩
        | some items =>
            apply (updateTransaction_spec _ table).2
            intro commits
            exact stuck ⟨selects, items, read, commits⟩
    · exact ⟨nofun, rfl⟩

/-- What the return code says about an update that reaches the database. -/
theorem update_reached {lines : List Text} {catalogue : Catalogue} {legacy : Bool}
    (digests : env.digests = .file lines) (manifests : env.manifests = .file catalogue)
    (format : legacyRepo env lines = some legacy) :
    pkgRepoBinaryUpdateIncremental env table =
      if env.opens = true ∨ env.recreates = true then
        updateRows env legacy lines catalogue (env.base table)
      else (.fatal, RepoTable.empty) := by
  simp only [pkgRepoBinaryUpdateIncremental, digests, manifests, format, UpdateEnv.base]
  by_cases opens : env.opens = true <;> by_cases recreates : env.recreates = true <;>
    simp [opens, recreates]

/-- An update that does not reach the database reports it and changes nothing. -/
theorem update_unreached
    (unreached : ¬∃ lines catalogue legacy, env.digests = .file lines ∧
      env.manifests = .file catalogue ∧ legacyRepo env lines = some legacy) :
    (pkgRepoBinaryUpdateIncremental env table).1 ≠ .ok ∧
      (pkgRepoBinaryUpdateIncremental env table).2 = table := by
  unfold pkgRepoBinaryUpdateIncremental
  split
  · exact ⟨nofun, rfl⟩
  · exact ⟨nofun, rfl⟩
  · exact ⟨nofun, rfl⟩
  · exact ⟨nofun, rfl⟩
  · next lines catalogue digests manifests =>
      split
      · exact ⟨nofun, rfl⟩
      · next legacy format =>
          exact absurd ⟨lines, catalogue, legacy, digests, manifests, format⟩ unreached

theorem exact_iff_of_goesThrough {legacy : Bool} {lines : List Text} {catalogue : Catalogue}
    {items : List TaskItem} (fresh : ∀ row ∈ table.rows, row.added = false)
    (read : digestItems env lines = some items)
    (goes : GoesThrough env legacy lines catalogue (env.base table)) :
    UpdatedExactly env legacy catalogue items table
        ((updateTasks (env.base table) items).added env legacy catalogue (env.base table)) ↔
      if catalogue.Usable then
        LastOfKeyStays RepoRow.origin RepoRow.Clashes ((env.base table).kept items ++
          newRows env legacy catalogue (updateTasks (env.base table) items))
      else ∀ item ∈ items, (env.base table).Unchanged item := by
  obtain ⟨_, items', read', commits⟩ := goes
  rw [read] at read'
  cases read'
  have whole : env.base table = table ∨ (env.base table).rows = [] := by
    unfold UpdateEnv.base
    split
    · exact Or.inl rfl
    · exact Or.inr rfl
  split
  · next usable =>
      apply updatedExactly_iff_of_usable commits usable
      intro row member
      rcases whole with same | nothing
      · rwa [same] at member
      · rw [nothing] at member
        cases member
  · next unusable => exact updatedExactly_iff_of_unusable unusable whole fresh

section Cases

variable {lines : List Text} {catalogue : Catalogue} {legacy : Bool}

/-- An update that returns `EPKG_OK`. -/
theorem allOrNothing_iff_of_ok (fresh : ∀ row ∈ table.rows, row.added = false)
    (digests : env.digests = .file lines) (manifests : env.manifests = .file catalogue)
    (format : legacyRepo env lines = some legacy)
    (ready : env.opens = true ∨ env.recreates = true) {items : List TaskItem}
    (read : digestItems env lines = some items)
    (goes : GoesThrough env legacy lines catalogue (env.base table))
    (run : pkgRepoBinaryUpdateIncremental env table =
      (.ok, (updateTasks (env.base table) items).added env legacy catalogue (env.base table))) :
    AllOrNothing env table ↔ UpdateSafe env table := by
  have exactly := exact_iff_of_goesThrough fresh read goes
  constructor
  · rintro ⟨all, _⟩
    constructor
    · intro lines' catalogue' legacy' items' digests' manifests' format' read' _ _
      obtain ⟨lines₀, catalogue₀, legacy₀, items₀, digests₀, manifests₀, format₀, read₀, updated⟩ :=
        all (by rw [run])
      rw [digests] at digests' digests₀
      rw [manifests] at manifests' manifests₀
      cases digests'
      cases digests₀
      cases manifests'
      cases manifests₀
      rw [format] at format' format₀
      rw [read] at read' read₀
      cases format'
      cases format₀
      cases read'
      cases read₀
      rw [run] at updated
      exact exactly.mp updated
    · intro lines' catalogue' legacy' digests' manifests' format' closed notThrough
      rw [digests] at digests'
      rw [manifests] at manifests'
      cases digests'
      cases manifests'
      rw [format] at format'
      cases format'
      have base : env.base table = RepoTable.empty := by
        rw [UpdateEnv.base, closed, if_neg Bool.false_ne_true]
      rw [base] at goes
      rw [closed] at ready
      exact absurd ⟨ready.resolve_left Bool.false_ne_true, goes⟩ notThrough
  · rintro ⟨safe, _⟩
    constructor
    · intro _
      rw [run]
      exact ⟨lines, catalogue, legacy, items, digests, manifests, format, read,
        exactly.mpr (safe lines catalogue legacy items digests manifests format read ready goes)⟩
    · intro code
      rw [run] at code
      exact absurd rfl code

/-- An update that reaches the database and returns anything else. -/
theorem allOrNothing_iff_of_failed (digests : env.digests = .file lines)
    (manifests : env.manifests = .file catalogue) (format : legacyRepo env lines = some legacy)
    (code : (pkgRepoBinaryUpdateIncremental env table).1 ≠ .ok)
    (stuck : env.opens = true ∨ env.recreates = true →
      ¬GoesThrough env legacy lines catalogue (env.base table))
    (rows : (pkgRepoBinaryUpdateIncremental env table).2.rows = table.rows ↔
      (env.opens = false →
        ¬(env.recreates = true ∧ GoesThrough env legacy lines catalogue RepoTable.empty) →
          table.rows = [])) :
    AllOrNothing env table ↔ UpdateSafe env table := by
  constructor
  · rintro ⟨_, nothing⟩
    constructor
    · intro lines' catalogue' legacy' items' digests' manifests' format' _ ready goes
      rw [digests] at digests'
      rw [manifests] at manifests'
      cases digests'
      cases manifests'
      rw [format] at format'
      cases format'
      exact absurd goes (stuck ready)
    · intro lines' catalogue' legacy' digests' manifests' format'
      rw [digests] at digests'
      rw [manifests] at manifests'
      cases digests'
      cases manifests'
      rw [format] at format'
      cases format'
      exact rows.mp (nothing code)
  · rintro ⟨_, opens⟩
    exact ⟨fun ok => absurd ok code,
      fun _ => rows.mpr (opens lines catalogue legacy digests manifests format)⟩

end Cases

/-- An update is all or nothing, and exact, in exactly the safe cases. -/
theorem allOrNothing_iff (env : UpdateEnv) (table : RepoTable)
    (fresh : ∀ row ∈ table.rows, row.added = false) :
    AllOrNothing env table ↔ UpdateSafe env table := by
  by_cases reached : ∃ lines catalogue legacy, env.digests = .file lines ∧
      env.manifests = .file catalogue ∧ legacyRepo env lines = some legacy
  · obtain ⟨lines, catalogue, legacy, digests, manifests, format⟩ := reached
    have run := @update_reached env table lines catalogue legacy digests manifests format
    obtain ⟨through, stuck⟩ := @updateRows_spec env (env.base table) legacy lines catalogue
    by_cases ready : env.opens = true ∨ env.recreates = true
    · rw [if_pos ready] at run
      by_cases goes : GoesThrough env legacy lines catalogue (env.base table)
      · obtain ⟨items, read, _⟩ := goes.2
        rw [through items read goes] at run
        exact allOrNothing_iff_of_ok fresh digests manifests format ready read goes run
      · obtain ⟨code, rows⟩ := stuck goes
        rw [← run] at code rows
        apply allOrNothing_iff_of_failed digests manifests format code
        · intro _
          exact goes
        · rw [rows]
          unfold UpdateEnv.base
          by_cases opens : env.opens = true
          · simp [opens]
          · have recreates := ready.resolve_left opens
            have notThrough : ¬GoesThrough env legacy lines catalogue RepoTable.empty := by
              simpa only [UpdateEnv.base, if_neg opens] using goes
            have emptyRows : RepoTable.empty.rows = [] := rfl
            simp [opens, recreates, notThrough, emptyRows, eq_comm]
    · rw [if_neg ready] at run
      have code : (pkgRepoBinaryUpdateIncremental env table).1 ≠ .ok := by
        rw [run]
        exact nofun
      apply allOrNothing_iff_of_failed digests manifests format code
      · intro reopens
        exact absurd reopens ready
      · rw [run]
        rw [not_or, Bool.not_eq_true, Bool.not_eq_true] at ready
        simp [ready, RepoTable.empty, eq_comm]
  · obtain ⟨code, rows⟩ := @update_unreached env table reached
    constructor
    · intro _
      constructor
      · intro lines catalogue legacy _ digests manifests format
        exact absurd ⟨lines, catalogue, legacy, digests, manifests, format⟩ reached
      · intro lines catalogue legacy digests manifests format
        exact absurd ⟨lines, catalogue, legacy, digests, manifests, format⟩ reached
    · intro _
      exact ⟨fun ok => absurd ok code, fun _ => congrArg RepoTable.rows rows⟩

end Whole

/-! ## Two updates of one row -/

/-- One line, for a package that the table does not have. -/
def sampleEnv (size : Nat) : UpdateEnv where
  digests := .file ["a/b:d:0:0:1:c\n".toList]
  manifests := .file
    { size
      manifestAt := fun _ _ => some { origin := some "a/b".toList, arch := some [], cksum := none } }
  strtoul _ := some 0
  checksumIsValid _ := true
  isValidAbi _ := true

/-- The row of a package that is no longer in the repository. -/
def sampleTable : RepoTable where
  rows := [{ origin := "x/y".toList, manifestdigest := none, cksum := none }]
  unique := List.pairwise_singleton _ _

/-- With a catalogue, the new package replaces the old one. -/
theorem sampleUpdate_allOrNothing : AllOrNothing (sampleEnv 1) sampleTable := by
  apply (allOrNothing_iff (sampleEnv 1) sampleTable (by decide)).mpr
  constructor
  · intro lines catalogue legacy items digests manifests format read _ _
    cases digests
    cases manifests
    have format_eq : legacyRepo (sampleEnv 1) ["a/b:d:0:0:1:c\n".toList] = some false := by decide
    have items_eq : digestItems (sampleEnv 1) ["a/b:d:0:0:1:c\n".toList] = some
        [{ origin := "a/b".toList, digest := "d".toList, checksum := some "c".toList }] := by
      decide
    rw [format_eq] at format
    rw [items_eq] at read
    cases format
    cases read
    rw [if_pos (by decide)]
    exact lastOfKeyStays_of_pairwise (by decide)
  · intro _ _ _ _ _ _ closed
    cases closed

/-- Without one, the update reports success and leaves the table empty. -/
theorem emptyCatalogue_not_allOrNothing :
    ¬∀ (env : UpdateEnv) (table : RepoTable), (∀ row ∈ table.rows, row.added = false) →
      AllOrNothing env table := by
  intro claim
  obtain ⟨lines, catalogue, legacy, items, digests, _, _, read, updated⟩ :=
    (claim (sampleEnv 0) sampleTable (by decide)).all (by decide)
  cases digests
  have items_eq : digestItems (sampleEnv 0) ["a/b:d:0:0:1:c\n".toList] = some
      [{ origin := "a/b".toList, digest := "d".toList, checksum := some "c".toList }] := by decide
  rw [items_eq] at read
  cases read
  have listed := (updated.origins "a/b".toList).mpr (by decide)
  have none : (pkgRepoBinaryUpdateIncremental (sampleEnv 0) sampleTable).2.origins = [] := by
    decide
  rw [none] at listed
  cases listed

end Pkgng
