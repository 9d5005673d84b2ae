import Pkgng.Repo.Publication
import Pkgng.Repo.UpdateRuns

/-!
# Publishers and clients

A repository that is published again and again, and a client that updates its database from it,
with steps that fail and runs that are killed.  The rows on the client's disk are at all times
those of one publication, and a run that returns `EPKG_OK` has brought it the one it fetched.
-/

set_option autoImplicit false

namespace Pkgng

open Lib

/-! ## One update -/

/-- The rows of the table are the packages of the publication. -/
def Publication.Mirrored (calls : ClientCalls) (pub : Publication) (table : RepoTable) : Prop :=
  table.rows.Perm (pub.packages.map calls.row)

/-- The checksum of a package file tells it from all others. -/
def Publication.SameSums (pub other : Publication) : Prop :=
  ∀ pkg ∈ pub.packages, ∀ same ∈ other.packages, pkg.checksum = same.checksum → pkg = same

/-- A table that has been made anew, or filled by an update. -/
def RepoTable.FromOne (calls : ClientCalls) (published : List Publication) (table : RepoTable) :
    Prop :=
  table.rows = [] ∨ ∃ pub ∈ published, pub.Mirrored calls table

namespace Publication

section Update

variable {calls : ClientCalls} {pub : Publication} {regions : List Region}
  {published : List Publication} {table after : RepoTable} {items : List TaskItem}

/-- The row is that of a package, updated or kept. -/
def Right (calls : ClientCalls) (pub : Publication) (row : RepoRow) : Prop :=
  ∃ pkg ∈ pub.packages, { row with added := false } = calls.row pkg

theorem Right.origin {row : RepoRow} {pkg : RepoPackage}
    (same : { row with added := false } = calls.row pkg) : row.origin = pkg.origin :=
  congrArg RepoRow.origin same

theorem Right.digest {row : RepoRow} {pkg : RepoPackage}
    (same : { row with added := false } = calls.row pkg) : row.manifestdigest = some pkg.digest :=
  congrArg RepoRow.manifestdigest same

theorem Right.of_eq {row : RepoRow} {pkg : RepoPackage} (same : row = calls.row pkg) :
    { row with added := false } = calls.row pkg := by
  subst same
  rfl

/-- Rows of different packages of one publication do not clash. -/
theorem Right.apart (readable : pub.Readable calls) {row other : RepoRow}
    (right : pub.Right calls row) (otherRight : pub.Right calls other)
    (different : row.origin ≠ other.origin) : ¬row.Clashes other := by
  obtain ⟨pkg, inPub, same⟩ := right
  obtain ⟨otherPkg, otherInPub, otherSame⟩ := otherRight
  rintro (origin | ⟨-, digest⟩)
  · exact different origin
  · rw [Right.digest same, Right.digest otherSame] at digest
    have samePkg := List.inj_on_of_nodup_map readable.digests inPub otherInPub
      (Option.some.inj digest)
    rw [Right.origin same, Right.origin otherSame, samePkg] at different
    exact different rfl

theorem fresh_of_fromOne (start : table.FromOne calls published) :
    ∀ row ∈ table.rows, row.added = false := by
  rcases start with empty | ⟨old, -, mirrored⟩
  · simp [empty]
  · intro row member
    obtain ⟨pkg, -, rfl⟩ := List.mem_map.mp (mirrored.mem_iff.mp member)
    rfl

/-- A row whose checksum a package has is the row of the package. -/
theorem right_of_unchanged (sums : ∀ old ∈ published, old.SameSums pub)
    (start : table.FromOne calls published) {row : RepoRow} (member : row ∈ table.rows)
    {pkg : RepoPackage} (inPub : pkg ∈ pub.packages) (cksum : row.cksum = some pkg.checksum) :
    row = calls.row pkg := by
  rcases start with empty | ⟨old, listed, mirrored⟩
  · rw [empty] at member
    cases member
  · obtain ⟨oldPkg, inOld, rfl⟩ := List.mem_map.mp (mirrored.mem_iff.mp member)
    rw [sums old listed oldPkg inOld pkg inPub (Option.some.inj cksum)]

variable (recorded : pub.Recorded regions) (readable : pub.Readable calls)
  (perm : items.Perm (regions.map Region.item))

include recorded perm in
theorem exists_package {item : TaskItem} (member : item ∈ items) :
    ∃ region ∈ regions, item = region.item ∧ region.pkg ∈ pub.packages := by
  obtain ⟨region, inRegions, rfl⟩ := List.mem_map.mp (perm.mem_iff.mp member)
  exact ⟨region, inRegions, rfl, recorded.mem_packages inRegions⟩

include recorded perm in
theorem exists_item {pkg : RepoPackage} (inPub : pkg ∈ pub.packages) :
    ∃ region ∈ regions, region.pkg = pkg ∧ region.item ∈ items := by
  rw [← recorded.packages] at inPub
  obtain ⟨region, inRegions, rfl⟩ := List.mem_map.mp inPub
  exact ⟨region, inRegions, rfl, perm.mem_iff.mpr (List.mem_map_of_mem inRegions)⟩

include recorded readable perm in
/-- What the update adds is right. -/
theorem right_of_mem_newRows {env : UpdateEnv} {tasks : Tasks}
    (within : ∀ item ∈ tasks.ladd, item ∈ items) {row : RepoRow}
    (member : row ∈ newRows (calls.env env) false (pub.catalogue calls) tasks) :
    pub.Right calls row := by
  obtain ⟨-, item, toAdd, -, built⟩ := mem_newRows member
  obtain ⟨region, inRegions, rfl, inPub⟩ := exists_package recorded perm (within item toAdd)
  rw [recorded.builtRow readable env inRegions] at built
  cases built
  exact ⟨region.pkg, inPub, rfl⟩

include recorded readable in
/-- A catalogue with a package is not empty. -/
theorem usable_of_mem {region : Region} (member : region ∈ regions) :
    (pub.catalogue calls).Usable := by
  have reads := readable.packages _ (recorded.mem_packages member)
  have nonempty := List.length_pos_iff.mpr reads.manifest
  have fits := (recorded.within region member).1
  exact ⟨by simp only [catalogue]; omega, readable.size⟩

section Rows

variable {env : UpdateEnv} (sums : ∀ old ∈ published, old.SameSums pub)
  (start : table.FromOne calls published)

/-- The rows that the update of the table adds. -/
abbrev news (calls : ClientCalls) (pub : Publication) (env : UpdateEnv) (table : RepoTable)
    (items : List TaskItem) : List RepoRow :=
  newRows (calls.env env) false (pub.catalogue calls) (updateTasks table items)

include recorded readable in
omit perm in
/-- An item that is added has its row among the new ones. -/
theorem exists_news {region : Region} (inRegions : region ∈ regions)
    (toAdd : region.item ∈ (updateTasks table items).ladd) :
    ∃ row ∈ pub.news calls env table items, row.origin = region.pkg.origin :=
  ⟨_, List.mem_filterMap.mpr ⟨_, toAdd, recorded.builtRow readable env inRegions⟩, rfl⟩

include recorded readable perm sums start in
/-- Every row that the update leaves is right. -/
theorem right_of_survives {row : RepoRow}
    (survives : Survives RepoRow.Clashes (table.kept items ++ pub.news calls env table items) row) :
    pub.Right calls row := by
  obtain ⟨-, within, addedOr⟩ := updateTasks_spec table items
  rcases survives_append.mp survives with ⟨kept, apart⟩ | new
  · obtain ⟨inTable, listed⟩ := RepoTable.mem_kept.mp kept.mem
    obtain ⟨item, inItems, origin⟩ := List.mem_map.mp listed
    obtain ⟨region, inRegions, rfl, inPub⟩ := exists_package recorded perm inItems
    rcases addedOr _ inItems with toAdd | ⟨old, inOld, oldOrigin, -, cksum⟩
    · obtain ⟨built, inNews, same⟩ := exists_news recorded readable inRegions toAdd
      exact absurd (Or.inl (same.trans origin)) (apart built inNews)
    · cases eq_of_origin inTable inOld (origin.symm.trans oldOrigin.symm)
      exact ⟨_, inPub, Right.of_eq (right_of_unchanged sums start inTable inPub cksum)⟩
  · exact right_of_mem_newRows recorded readable perm within new.mem

include recorded readable perm in
/-- The last of the new rows of an origin stays. -/
theorem survives_of_news {pkg : RepoPackage} (inPub : pkg ∈ pub.packages)
    (added : ∃ row ∈ pub.news calls env table items, row.origin = pkg.origin) :
    ∃ row, Survives RepoRow.Clashes (table.kept items ++ pub.news calls env table items) row ∧
      { row with added := false } = calls.row pkg := by
  obtain ⟨before, row, after, parts, origin, last⟩ := exists_last added
  have right : ∀ new ∈ pub.news calls env table items, pub.Right calls new := fun _ member =>
    right_of_mem_newRows recorded readable perm (updateTasks_spec table items).2.1 member
  have inNews : row ∈ pub.news calls env table items := by
    rw [parts]
    exact List.mem_append_right before List.mem_cons_self
  obtain ⟨other, otherInPub, same⟩ := right row inNews
  have samePkg : other = pkg := List.inj_on_of_nodup_map readable.origins otherInPub inPub
    ((Right.origin same).symm.trans origin)
  refine ⟨row, survives_append.mpr (Or.inr ⟨before, after, parts, ?_⟩), samePkg ▸ same⟩
  intro new later
  have inLater : new ∈ pub.news calls env table items := by
    rw [parts]
    exact List.mem_append_right before (List.mem_cons_of_mem _ later)
  exact Right.apart readable (right new inLater) (right row inNews)
    fun sameOrigin => last new later (sameOrigin.trans origin)

include recorded readable perm sums start in
/-- Every package has its row after the update. -/
theorem exists_survives {pkg : RepoPackage} (inPub : pkg ∈ pub.packages) :
    ∃ row, Survives RepoRow.Clashes (table.kept items ++ pub.news calls env table items) row ∧
      { row with added := false } = calls.row pkg := by
  by_cases added : ∃ row ∈ pub.news calls env table items, row.origin = pkg.origin
  · exact survives_of_news recorded readable perm inPub added
  · obtain ⟨region, inRegions, rfl, inItems⟩ := exists_item recorded perm inPub
    rcases (updateTasks_spec table items).2.2 _ inItems with
      toAdd | ⟨row, inTable, origin, -, cksum⟩
    · exact absurd (exists_news recorded readable inRegions toAdd) added
    · have isRow := right_of_unchanged sums start inTable inPub cksum
      have kept : row ∈ table.kept items :=
        RepoTable.mem_kept.mpr ⟨inTable, origin ▸ List.mem_map_of_mem inItems⟩
      have apart : (table.kept items).Pairwise fun a b => ¬b.Clashes a :=
        (table.unique.filter _).imp And.right
      refine ⟨row, survives_append.mpr (Or.inl ⟨(survives_of_pairwise apart).mpr kept, ?_⟩),
        Right.of_eq isRow⟩
      intro new inNews
      have right := right_of_mem_newRows recorded readable perm
        (updateTasks_spec table items).2.1 inNews
      exact Right.apart readable right ⟨_, inPub, Right.of_eq isRow⟩
        fun same => added ⟨new, inNews, same.trans origin⟩

include recorded readable perm sums start in
theorem mem_settled_added {row : RepoRow} :
    row ∈ ((updateTasks table items).added (calls.env env) false (pub.catalogue calls)
      table).settled.rows ↔ row ∈ pub.packages.map calls.row := by
  rw [mem_settled, List.mem_map]
  by_cases usable : (pub.catalogue calls).Usable
  · constructor
    · rintro ⟨old, inAfter, rfl⟩
      obtain ⟨pkg, inPub, same⟩ := right_of_survives recorded readable perm sums start
        ((mem_added_iff usable old).mp inAfter)
      exact ⟨pkg, inPub, same.symm⟩
    · rintro ⟨pkg, inPub, rfl⟩
      obtain ⟨old, survives, same⟩ :=
        @exists_survives calls pub regions published table items recorded readable perm env sums
          start pkg inPub
      exact ⟨old, (mem_added_iff usable old).mpr survives, same⟩
  · have noRegions : regions = [] := List.eq_nil_iff_forall_not_mem.mpr fun region member =>
      usable (usable_of_mem recorded readable member)
    have noPackages : pub.packages = [] := by rw [← recorded.packages, noRegions, List.map_nil]
    have noItems : items = [] := List.eq_nil_iff_forall_not_mem.mpr fun item member => by
      simpa [noRegions] using perm.mem_iff.mp member
    rw [added_rows_of_unusable usable]
    simp [RepoTable.kept, noItems, noPackages]

include recorded readable perm sums start in
/-- The table after the changes holds the packages of the publication. -/
theorem mirrored_of_added :
    pub.Mirrored calls ((updateTasks table items).added (calls.env env) false
      (pub.catalogue calls) table).settled := by
  have packages : (pub.packages.map calls.row).Nodup := by
    apply List.Nodup.of_map RepoRow.origin
    rw [List.map_map]
    exact readable.origins
  have rows : ((updateTasks table items).added (calls.env env) false (pub.catalogue calls)
      table).settled.rows.Nodup := List.Nodup.of_map RepoRow.origin (RepoTable.origins_nodup _)
  exact (List.perm_ext_iff_of_nodup rows packages).mpr fun row =>
    mem_settled_added recorded readable perm sums start

end Rows

/-- An update of the rows that goes through makes the table a mirror of the publication. -/
theorem mirrored_of_updateRows {env : UpdateEnv} (recorded : pub.Recorded regions)
    (readable : pub.Readable calls) (sums : ∀ old ∈ published, old.SameSums pub)
    (start : table.FromOne calls published)
    (run : updateRows (calls.env env) false pub.lines (pub.catalogue calls) table = (.ok, after)) :
    pub.Mirrored calls after.settled := by
  obtain ⟨through, stuck⟩ :=
    @updateRows_spec (calls.env env) table false pub.lines (pub.catalogue calls)
  obtain ⟨items, read, perm⟩ := recorded.readItems readable env
  by_cases goes : GoesThrough (calls.env env) false pub.lines (pub.catalogue calls) table
  · have result := through items read goes
    rw [run] at result
    cases result
    exact mirrored_of_added recorded readable perm sums start
  · exact absurd (congrArg Prod.fst run) (stuck goes).1

end Update

end Publication

/-! ## Publisher, server and client -/

structure MirrorState where
  /-- What the server has had, the latest first. -/
  published : List Publication := []
  client : RepoState := {}
  /-- Ghost: whose manifests the run under way has fetched last. -/
  taken : Option Publication := none

inductive MirrorEvent
  | publish (creation : Creation)
  | client (event : RepoEvent)

/-- What the server has now in place of the files of an answer; the times, the failures and the
ends of the statements are those of the answer. -/
def ClientCalls.served (calls : ClientCalls) (published : List Publication)
    (answer : UpdateAnswer) : UpdateAnswer :=
  { answer with
    env := calls.env answer.env
    digests := answer.digests.map fun file =>
      { file with content := file.content.bind fun _ => published.head?.map Publication.lines }
    manifests := answer.manifests.map fun file =>
      { file with
        content := file.content.bind fun _ => published.head?.map (Publication.catalogue calls) } }

/-- The run under way, after an event of the client. -/
def MirrorState.takes (state : MirrorState) : RepoEvent → Option Publication
  | .update _ _ => none
  | .kill => none
  | .exec _ =>
      match state.client.pc with
      | .fetchManifests _ _ _ => state.published.head?
      | _ => state.taken

def mirrorStep (calls : ClientCalls) (state : MirrorState) : MirrorEvent → Option MirrorState
  | .publish creation => some { state with published := creation.publication :: state.published }
  | .client event =>
      let served := match event with
        | .exec answer => .exec (calls.served state.published answer)
        | other => other
      (repoStep state.client served).map fun client =>
        { state with client, taken := state.takes event }

/-- A repository is published with packages that the clients can read, whose checksums are those of
no other packages, and not while the client has the digests without the manifests. -/
def PublishesWell (calls : ClientCalls) (state : MirrorState) : MirrorEvent → Prop
  | .publish creation =>
      creation.publication.Readable calls ∧
        (∀ old ∈ creation.publication :: state.published,
          old.SameSums creation.publication ∧ creation.publication.SameSums old) ∧
        ∀ vars digestT lines, state.client.pc ≠ .fetchManifests vars digestT lines
  | .client _ => True

/-! ## The invariant -/

/-- The publication whose files the run has fetched. -/
def MirrorState.Took (calls : ClientCalls) (state : MirrorState) (files : UpdateFiles) : Prop :=
  ∃ pub ∈ state.published, state.taken = some pub ∧
    files = { lines := pub.lines, catalogue := pub.catalogue calls, legacy := false }

/-- The rows are those of the publication that was taken. -/
def RepoDisk.Mirrors (calls : ClientCalls) (taken : Option Publication) (disk : RepoDisk) : Prop :=
  ∀ pub, taken = some pub → ∃ db, disk.db = some db ∧ pub.Mirrored calls db.packages

/-- What the place that the run has reached says about the files and the rows. -/
def MirrorState.Expects (calls : ClientCalls) (state : MirrorState) : Prop :=
  match state.client.pc with
  | .fetchManifests _ _ lines => ∃ pub, state.published.head? = some pub ∧ lines = pub.lines
  | .initOpen _ files => state.Took calls files
  | .initUnlink _ files => state.Took calls files
  | .create _ files => state.Took calls files
  | .register _ files => state.Took calls files
  | .reopen _ files => state.Took calls files
  | .updateCheck _ files => state.Took calls files
  | .updateStart _ files => state.Took calls files
  | .rows _ files => state.Took calls files
  | .updateFinish _ => state.client.disk.Mirrors calls state.taken
  | .utimes _ => state.client.disk.Mirrors calls state.taken
  | .utimesMeta _ => state.client.disk.Mirrors calls state.taken
  | .returned .ok => state.client.disk.Mirrors calls state.taken
  | _ => True

/-- The rows on disk, if there is a database. -/
def RepoDisk.FromOne (calls : ClientCalls) (published : List Publication) (disk : RepoDisk) :
    Prop :=
  ∀ db, disk.db = some db → db.packages.FromOne calls published

structure MirrorInv (calls : ClientCalls) (state : MirrorState) : Prop where
  readable : ∀ pub ∈ state.published, pub.Readable calls ∧ ∃ regions, pub.Recorded regions
  sums : ∀ pub ∈ state.published, ∀ old ∈ state.published, old.SameSums pub
  rows : state.client.disk.FromOne calls state.published
  expects : state.Expects calls

section Invariant

variable {calls : ClientCalls} {published : List Publication} {disk : RepoDisk}
  {state next : MirrorState} {answer : UpdateAnswer}

theorem RepoDisk.FromOne.of_db (rows : disk.FromOne calls published) {other : RepoDisk}
    (db : other.db = disk.db ∨ other.db = none) : other.FromOne calls published := by
  intro found here
  rcases db with same | nothing
  · exact rows found (same ▸ here)
  · rw [nothing] at here
    cases here

theorem RepoDisk.FromOne.withDb (rows : disk.FromOne calls published)
    {change : RepoDb → RepoDb} (packages : ∀ db, (change db).packages = db.packages) :
    (disk.withDb change).FromOne calls published := by
  intro found here
  obtain ⟨db, before, rfl⟩ := Option.map_eq_some_iff.mp here
  rw [packages]
  exact rows db before

theorem RepoDisk.FromOne.opened (rows : disk.FromOne calls published) (result : OpenResult) :
    (pkgRepoBinaryOpen result disk).2.FromOne calls published :=
  rows.of_db (pkgRepoBinaryOpen_db result disk)

theorem RepoDisk.FromOne.more (rows : disk.FromOne calls published) (pub : Publication) :
    disk.FromOne calls (pub :: published) := by
  intro db here
  rcases rows db here with empty | ⟨old, listed, mirrored⟩
  · exact Or.inl empty
  · exact Or.inr ⟨old, List.mem_cons_of_mem _ listed, mirrored⟩

/-- A change of the database that leaves its rows. -/
theorem RepoDisk.Mirrors.withDb {taken : Option Publication} (mirrors : disk.Mirrors calls taken)
    {change : RepoDb → RepoDb} (packages : ∀ db, (change db).packages = db.packages) :
    (disk.withDb change).Mirrors calls taken := by
  intro pub isTaken
  obtain ⟨db, found, mirrored⟩ := mirrors pub isTaken
  refine ⟨change db, ?_, ?_⟩
  · rw [RepoDisk.withDb, found]
    rfl
  · rwa [packages]

theorem MirrorInv.start : MirrorInv calls {} where
  readable _ listed := absurd listed List.not_mem_nil
  sums _ listed := absurd listed List.not_mem_nil
  rows _ found := by cases found
  expects := trivial

theorem MirrorInv.publish {creation : Creation} (inv : MirrorInv calls state)
    (well : PublishesWell calls state (.publish creation)) :
    MirrorInv calls { state with published := creation.publication :: state.published } := by
  obtain ⟨readable, sums, apart⟩ := well
  refine ⟨?_, ?_, inv.rows.more _, ?_⟩
  · rintro pub (_ | ⟨_, listed⟩)
    · exact ⟨readable, creation.recorded⟩
    · exact inv.readable pub listed
  · rintro pub (_ | ⟨_, listed⟩) old isOld
    · exact (sums old isOld).1
    · rcases List.mem_cons.mp isOld with rfl | oldListed
      · exact (sums pub (List.mem_cons_of_mem _ listed)).2
      · exact inv.sums pub listed old oldListed
  · have expects := inv.expects
    have took : ∀ files, state.Took calls files →
        { state with published := creation.publication :: state.published : MirrorState }.Took
          calls files :=
      fun _ ⟨pub, listed, same⟩ => ⟨pub, List.mem_cons_of_mem _ listed, same⟩
    obtain ⟨published, ⟨disk, pc⟩, taken⟩ := state
    cases pc with
    | fetchManifests vars digestT lines => exact absurd rfl (apart vars digestT lines)
    | returned rc => cases rc <;> exact expects
    | _ => first | exact expects | exact took _ expects

/-- A step after which the rows and the place are known. -/
theorem MirrorInv.go (inv : MirrorInv calls state) {client : RepoState}
    {taken : Option Publication} (rows : client.disk.FromOne calls state.published)
    (expects : { state with client, taken : MirrorState }.Expects calls) :
    MirrorInv calls { state with client, taken } :=
  ⟨inv.readable, inv.sums, rows, expects⟩

theorem fetch_file {α : Type} {t : Nat} {file : Option (ServerFile α)} {content : α} {mtime : Nat}
    (fetched : pkgRepoFetchRemoteExtractTmp t file = .file (content, mtime)) :
    ∃ copy, file = some copy ∧ copy.content = some content := by
  cases file with
  | none => cases fetched
  | some copy =>
      simp only [pkgRepoFetchRemoteExtractTmp] at fetched
      split at fetched
      · cases fetched
      · split at fetched
        · cases fetched
        · next isContent =>
            cases fetched
            exact ⟨copy, rfl, isContent⟩

/-- What is fetched comes from the server's publication. -/
theorem served_content {α : Type} {read : Publication → α} {file : Option (ServerFile α)}
    {t mtime : Nat} {content : α}
    (fetched : pkgRepoFetchRemoteExtractTmp t (file.map fun file =>
      { file with content := file.content.bind fun _ => published.head?.map read }) =
        .file (content, mtime)) :
    ∃ pub, published.head? = some pub ∧ content = read pub := by
  obtain ⟨copy, isCopy, isContent⟩ := fetch_file fetched
  obtain ⟨file, -, rfl⟩ := Option.map_eq_some_iff.mp isCopy
  obtain ⟨_, -, there⟩ := Option.bind_eq_some_iff.mp isContent
  obtain ⟨pub, isPub, same⟩ := Option.map_eq_some_iff.mp there
  exact ⟨pub, isPub, same.symm⟩

/-- The update of the rows. -/
theorem MirrorInv.execRows {vars : UpdateVars} {files : UpdateFiles} (inv : MirrorInv calls state)
    (here : state.client.pc = .rows vars files) {client : RepoState}
    (run : state.client.exec (calls.served state.published answer) = some client) :
    MirrorInv calls { state with client } := by
  obtain ⟨published, ⟨disk, pc⟩, taken⟩ := state
  cases here
  have expects := inv.expects
  obtain ⟨pub, listed, isTaken, rfl⟩ := expects
  obtain ⟨readable, regions, recorded⟩ := inv.readable pub listed
  simp only [RepoState.exec, ClientCalls.served] at run
  split at run
  · cases run
  · next db found =>
      have start := inv.rows db found
      cases rows : updateRows (calls.env answer.env) false pub.lines (pub.catalogue calls)
        db.packages with
      | mk rc packages =>
          simp only [rows, Option.some.injEq] at run
          subst run
          by_cases code : rc = .ok
          · subst code
            have mirrored := Publication.mirrored_of_updateRows recorded readable
              (inv.sums pub listed) start rows
            refine inv.go ?_ ?_
            · intro changed same
              simp only [RepoDisk.withDb, found, Option.map_some, Option.some.injEq] at same
              subst same
              exact Or.inr ⟨pub, listed, mirrored⟩
            · intro other isOther
              cases isTaken.symm.trans isOther
              exact ⟨_, congrArg (Option.map _) found, mirrored⟩
          · have unchanged := @updateRows_failed (calls.env answer.env) false pub.lines
              (pub.catalogue calls) db.packages
            rw [rows] at unchanged
            have same := unchanged code
            dsimp only at same
            subst same
            refine inv.go ?_ ?_
            · intro changed same
              simp only [RepoDisk.withDb, found, Option.map_some, Option.some.injEq] at same
              subst same
              rw [settled_of_fresh (Publication.fresh_of_fromOne start)]
              exact start
            · rw [if_neg code]
              cases rc with
              | ok => exact absurd rfl code
              | uptodate => trivial
              | fatal => trivial
              | finished => trivial

/-- A step of the client's run. -/
theorem MirrorInv.exec (inv : MirrorInv calls state) {client : RepoState}
    (run : state.client.exec (calls.served state.published answer) = some client) :
    MirrorInv calls { state with client, taken := state.takes (.exec answer) } := by
  have expects := inv.expects
  cases here : state.client.pc with
  | idle => simp [RepoState.exec, here] at run
  | returned rc => simp [RepoState.exec, here] at run
  | rows vars files =>
      have same : state.takes (.exec answer) = state.taken := by rw [MirrorState.takes, here]
      rw [same]
      exact inv.execRows here run
  | verify force =>
      simp only [RepoState.exec, here] at run
      split at run <;> cases run <;> exact inv.go (inv.rows.opened _) trivial
  | stat force =>
      simp only [RepoState.exec, here] at run
      cases run
      exact inv.go inv.rows trivial
  | fetchMeta vars =>
      simp only [RepoState.exec, here] at run
      cases run
      exact inv.go (inv.rows.of_db (Or.inl rfl)) trivial
  | fetchDigests vars =>
      simp only [RepoState.exec, here] at run
      split at run
      · cases run
        exact inv.go inv.rows trivial
      · cases run
        exact inv.go inv.rows trivial
      · next lines digestT fetched =>
          cases run
          exact inv.go inv.rows (served_content fetched)
  | fetchManifests vars digestT lines =>
      simp only [RepoState.exec, here] at run
      simp only [MirrorState.Expects, here] at expects
      obtain ⟨pub, isPub, rfl⟩ := expects
      have listed := List.mem_of_mem_head? isPub
      obtain ⟨readable, regions, recorded⟩ := inv.readable pub listed
      split at run
      · cases run
        exact inv.go inv.rows trivial
      · cases run
        exact inv.go inv.rows trivial
      · next catalogue mtime fetched =>
          obtain ⟨other, isOther, rfl⟩ := served_content fetched
          cases isPub.symm.trans isOther
          have format := recorded.notLegacy readable answer.env
          simp only [ClientCalls.served, format, Option.some.injEq] at run
          subst run
          have took : ({ state with
              client := state.client.initUpdate { vars with t := digestT }
                { lines := pub.lines, catalogue := pub.catalogue calls, legacy := false },
              taken := state.takes (.exec answer) } : MirrorState).Took calls
              { lines := pub.lines, catalogue := pub.catalogue calls, legacy := false } := by
            refine ⟨pub, listed, ?_, rfl⟩
            simp only [MirrorState.takes, here, isPub]
          unfold RepoState.initUpdate at took ⊢
          split
          · exact inv.go inv.rows took
          · exact inv.go inv.rows took
  | initOpen vars files =>
      simp only [RepoState.exec, here] at run
      simp only [MirrorState.Expects, here] at expects
      simp only [MirrorState.takes, here]
      split at run <;> cases run <;> exact inv.go (inv.rows.opened _) expects
  | initUnlink vars files =>
      simp only [RepoState.exec, here] at run
      simp only [MirrorState.Expects, here] at expects
      simp only [MirrorState.takes, here]
      cases run
      refine inv.go ?_ expects
      dsimp only
      split
      · exact inv.rows.of_db (Or.inr rfl)
      · exact inv.rows
  | create vars files =>
      simp only [RepoState.exec, here] at run
      simp only [MirrorState.Expects, here] at expects
      simp only [MirrorState.takes, here]
      split at run
      · cases run
        exact inv.go inv.rows trivial
      · split at run
        · cases run
          refine inv.go ?_ expects
          intro db found
          cases found
          exact Or.inl rfl
        · cases run
          exact inv.go inv.rows trivial
  | register vars files =>
      simp only [RepoState.exec, here] at run
      simp only [MirrorState.Expects, here] at expects
      simp only [MirrorState.takes, here]
      split at run
      · cases run
        exact inv.go (inv.rows.withDb fun _ => rfl) expects
      · cases run
        exact inv.go inv.rows trivial
  | reopen vars files =>
      simp only [RepoState.exec, here] at run
      simp only [MirrorState.Expects, here] at expects
      simp only [MirrorState.takes, here]
      split at run <;> cases run
      · exact inv.go (inv.rows.opened _) expects
      · exact inv.go (inv.rows.opened _) trivial
  | updateCheck vars files =>
      simp only [RepoState.exec, here] at run
      simp only [MirrorState.Expects, here] at expects
      simp only [MirrorState.takes, here]
      split at run
      · cases run
        exact inv.go (inv.rows.withDb fun _ => rfl) trivial
      · cases run
        exact inv.go inv.rows expects
  | updateStart vars files =>
      simp only [RepoState.exec, here] at run
      simp only [MirrorState.Expects, here] at expects
      simp only [MirrorState.takes, here]
      cases run
      refine inv.go ?_ expects
      dsimp only
      split
      · exact inv.rows.withDb fun _ => rfl
      · exact inv.rows
  | updateFinish vars =>
      simp only [RepoState.exec, here] at run
      simp only [MirrorState.Expects, here] at expects
      simp only [MirrorState.takes, here]
      cases run
      refine inv.go ?_ ?_
      · dsimp only
        split
        · exact inv.rows.withDb fun _ => rfl
        · exact inv.rows
      · have mirrors : RepoDisk.Mirrors calls state.taken
            (if (calls.served state.published answer).succeeds = true then
              state.client.disk.withDb fun db =>
                { db with
                  repoUpdate := false
                  mtime := (calls.served state.published answer).clock }
            else state.client.disk) := by
          split
          · exact expects.withDb fun _ => rfl
          · exact expects
        by_cases timed : vars.t ≠ 0
        · rw [if_pos timed]
          exact mirrors
        · rw [if_neg timed]
          exact mirrors
  | utimes vars =>
      simp only [RepoState.exec, here] at run
      simp only [MirrorState.Expects, here] at expects
      simp only [MirrorState.takes, here]
      cases run
      refine inv.go ?_ ?_
      · dsimp only
        split
        · exact inv.rows.withDb fun _ => rfl
        · exact inv.rows
      · have mirrors : RepoDisk.Mirrors calls state.taken
            (if (calls.served state.published answer).succeeds = true then
              state.client.disk.withDb fun db => { db with mtime := vars.t }
            else state.client.disk) := by
          split
          · exact expects.withDb fun _ => rfl
          · exact expects
        by_cases timed : vars.gotMeta = true
        · rw [if_pos timed]
          exact mirrors
        · rw [if_neg timed]
          exact mirrors
  | utimesMeta vars =>
      simp only [RepoState.exec, here] at run
      simp only [MirrorState.Expects, here] at expects
      simp only [MirrorState.takes, here]
      cases run
      refine inv.go ?_ ?_
      · dsimp only
        split
        · exact inv.rows.of_db (Or.inl rfl)
        · exact inv.rows
      · cases (calls.served state.published answer).succeeds with
        | true => exact expects
        | false => exact expects

theorem MirrorInv.step {event : MirrorEvent} (inv : MirrorInv calls state)
    (well : PublishesWell calls state event) (run : mirrorStep calls state event = some next) :
    MirrorInv calls next := by
  cases event with
  | publish creation =>
      cases run
      exact inv.publish well
  | client event =>
      obtain ⟨client, stepped, rfl⟩ := Option.map_eq_some_iff.mp run
      cases event with
      | exec answer => exact inv.exec stepped
      | kill =>
          simp only [repoStep] at stepped
          split at stepped <;> cases stepped
          exact inv.go inv.rows trivial
      | update enabled force =>
          simp only [repoStep] at stepped
          split at stepped
          · split at stepped <;> cases stepped
            · exact inv.go inv.rows trivial
            · exact inv.go inv.rows fun _ taken => by cases taken
          · cases stepped

end Invariant

/-! ## Catching up -/

section CatchUp

variable {calls : ClientCalls} {pub : Publication} {older : List Publication}
  {regions : List Region} {disk : RepoDisk} {taken : Option Publication}

/-- What a run meets when all its calls succeed. -/
def freshAnswer : UpdateAnswer where
  env := { digests := .fatal, manifests := .fatal, strtoul := fun _ => none
           checksumIsValid := fun _ => true, isValidAbi := fun _ => true }
  metaFetch := .extracted true
  digests := some { mtime := 0, content := some [] }
  manifests := some { mtime := 0, content := some { size := 0, manifestAt := fun _ _ => none } }

def freshSteps (count : Nat) : List MirrorEvent :=
  List.replicate count (.client (.exec freshAnswer))

/-- The update of an empty table goes through. -/
theorem updateRows_empty (recorded : pub.Recorded regions) (readable : pub.Readable calls) :
    ∃ after, updateRows (calls.env freshAnswer.env) false pub.lines (pub.catalogue calls)
      RepoTable.empty = (.ok, after) := by
  obtain ⟨items, read, perm⟩ := recorded.readItems readable freshAnswer.env
  obtain ⟨through, -⟩ := @updateRows_spec (calls.env freshAnswer.env) RepoTable.empty false
    pub.lines (pub.catalogue calls)
  refine ⟨_, through items read ⟨rfl, items, read, rfl, fun _ _ => rfl, ?_, rfl⟩⟩
  intro usable task member
  have inItems := (updateTasks_spec RepoTable.empty items).2.1 _
    (List.fst_mem_of_mem_zipIdx member)
  obtain ⟨region, inRegions, same, -⟩ := Publication.exists_package recorded perm inItems
  rw [same, recorded.builtRow readable _ inRegions]
  exact ⟨rfl, rfl, rfl⟩

theorem freshSteps_cons {count : Nat} {state next final : MirrorState}
    (step : mirrorStep calls state (.client (.exec freshAnswer)) = some next)
    (run : runEvents (mirrorStep calls) next (freshSteps count) = some final) :
    runEvents (mirrorStep calls) state (freshSteps (count + 1)) = some final := by
  rw [freshSteps, List.replicate_succ, runEvents, step]
  exact run

/-- The files that the run has fetched. -/
def Publication.files (calls : ClientCalls) (pub : Publication) : UpdateFiles :=
  { lines := pub.lines, catalogue := pub.catalogue calls, legacy := false }

/-- From the fetch of the meta file on, with everything forced. -/
theorem catchUp_fetched (recorded : pub.Recorded regions) (readable : pub.Readable calls)
    (gotMeta : Bool) :
    ∃ db, pub.Mirrored calls db.packages ∧
      runEvents (mirrorStep calls)
        { published := pub :: older
          client := ⟨disk, .fetchMeta { force := true, gotMeta }⟩
          taken } (freshSteps 11) =
      some
        { published := pub :: older
          client := ⟨{ db := some db, metaFile := some { loads := true, mtime := 0 } },
            .returned .ok⟩
          taken := some pub } := by
  obtain ⟨after, goes⟩ := updateRows_empty recorded readable
  have mirrored := @Publication.mirrored_of_updateRows calls pub regions [] RepoTable.empty after
    freshAnswer.env recorded readable (fun _ listed => absurd listed List.not_mem_nil) (Or.inl rfl)
    goes
  let release : Release :=
    { env := calls.env freshAnswer.env, legacy := false, lines := pub.lines
      catalogue := pub.catalogue calls }
  refine ⟨{ registered := true, packages := after.settled, mtime := 0, release := some release },
    mirrored, ?_⟩
  refine freshSteps_cons rfl ?_
  refine freshSteps_cons rfl ?_
  have manifests : mirrorStep calls
      { published := pub :: older
        client := ⟨{ disk with metaFile := some { loads := true, mtime := 0 } },
          .fetchManifests { force := true, gotMeta } 0 pub.lines⟩
        taken } (.client (.exec freshAnswer)) =
      some
        { published := pub :: older
          client := ⟨{ disk with metaFile := some { loads := true, mtime := 0 } },
            .initUnlink { force := true, gotMeta } (pub.files calls)⟩
          taken := some pub } := by
    have fetched : pkgRepoFetchRemoteExtractTmp 0
        (calls.served (pub :: older) freshAnswer).manifests = .file (pub.catalogue calls, 0) := rfl
    have format : legacyRepo (calls.served (pub :: older) freshAnswer).env pub.lines = some false :=
      recorded.notLegacy readable freshAnswer.env
    simp only [mirrorStep, repoStep, RepoState.exec, fetched, format]
    rfl
  refine freshSteps_cons manifests ?_
  iterate 6 refine freshSteps_cons rfl ?_
  have rows : updateRows (calls.served (pub :: older) freshAnswer).env (pub.files calls).legacy
      (pub.files calls).lines (pub.files calls).catalogue RepoTable.empty = (.ok, after) := goes
  have updated : mirrorStep calls
      { published := pub :: older
        client :=
          ⟨{ db := some { registered := true, repoUpdate := true, mtime := 0 }
             metaFile := some { loads := true, mtime := 0 } },
            .rows { force := true, gotMeta } (pub.files calls)⟩
        taken := some pub } (.client (.exec freshAnswer)) =
      some
        { published := pub :: older
          client :=
            ⟨{ db := some
                { registered := true, repoUpdate := true, packages := after.settled, mtime := 0
                  release := some release }
               metaFile := some { loads := true, mtime := 0 } },
              .updateFinish { force := true, gotMeta }⟩
          taken := some pub } := by
    simp only [mirrorStep, repoStep, RepoState.exec, rows]
    rfl
  refine freshSteps_cons updated ?_
  exact freshSteps_cons rfl rfl

/-- A forced update whose calls all succeed. -/
theorem catchUp_updated (recorded : pub.Recorded regions) (readable : pub.Readable calls)
    {client : RepoState} (rests : client.Rests = true) :
    ∃ count db, pub.Mirrored calls db.packages ∧
      runEvents (mirrorStep calls) { published := pub :: older, client, taken }
        (.client (.update true true) :: freshSteps count) =
      some
        { published := pub :: older
          client := ⟨{ db := some db, metaFile := some { loads := true, mtime := 0 } },
            .returned .ok⟩
          taken := some pub } := by
  have called : mirrorStep calls { published := pub :: older, client, taken }
      (.client (.update true true)) =
      some { published := pub :: older, client := ⟨client.disk, .verify true⟩, taken := none } := by
    simp only [mirrorStep, repoStep, if_pos rests]
    rfl
  cases opened : pkgRepoBinaryOpen .opens client.disk with
  | mk opens disk =>
      cases opens with
      | true =>
          have verified : mirrorStep calls
              { published := pub :: older, client := ⟨client.disk, .verify true⟩, taken := none }
              (.client (.exec freshAnswer)) =
              some { published := pub :: older, client := ⟨disk, .stat true⟩, taken := none } := by
            have answered : pkgRepoBinaryOpen (calls.served (pub :: older) freshAnswer).opened
              client.disk = (true, disk) := opened
            simp only [mirrorStep, repoStep, RepoState.exec, answered]
            rfl
          obtain ⟨db, mirrored, run⟩ := @catchUp_fetched calls pub older regions disk none recorded
            readable disk.metaFile.isSome
          refine ⟨13, db, mirrored, ?_⟩
          rw [runEvents, called]
          exact freshSteps_cons verified (freshSteps_cons rfl run)
      | false =>
          have verified : mirrorStep calls
              { published := pub :: older, client := ⟨client.disk, .verify true⟩, taken := none }
              (.client (.exec freshAnswer)) =
              some
                { published := pub :: older, client := ⟨disk, .fetchMeta { force := true }⟩
                  taken := none } := by
            have answered : pkgRepoBinaryOpen (calls.served (pub :: older) freshAnswer).opened
              client.disk = (false, disk) := opened
            simp only [mirrorStep, repoStep, RepoState.exec, answered]
            rfl
          obtain ⟨db, mirrored, run⟩ := @catchUp_fetched calls pub older regions disk none recorded
            readable false
          refine ⟨12, db, mirrored, ?_⟩
          rw [runEvents, called]
          exact freshSteps_cons verified run

/-- From any state of the client, killed if need be. -/
theorem catchUp (recorded : pub.Recorded regions) (readable : pub.Readable calls)
    (client : RepoState) :
    ∃ later db, (∀ event ∈ later, ∃ own, event = .client own) ∧ pub.Mirrored calls db.packages ∧
      runEvents (mirrorStep calls) { published := pub :: older, client, taken } later =
      some
        { published := pub :: older
          client := ⟨{ db := some db, metaFile := some { loads := true, mtime := 0 } },
            .returned .ok⟩
          taken := some pub } := by
  have own : ∀ count, ∀ event ∈ .client (.update true true) :: freshSteps count,
      ∃ own, event = MirrorEvent.client own := by
    intro count event member
    rcases List.mem_cons.mp member with rfl | fresh
    · exact ⟨_, rfl⟩
    · exact ⟨_, List.eq_of_mem_replicate fresh⟩
  by_cases rests : client.Rests = true
  · obtain ⟨count, db, mirrored, run⟩ := @catchUp_updated calls pub older regions taken recorded
      readable client rests
    exact ⟨_, db, own count, mirrored, run⟩
  · obtain ⟨count, db, mirrored, run⟩ := @catchUp_updated calls pub older regions none recorded
      readable (client.goto .idle) rfl
    refine ⟨.client .kill :: .client (.update true true) :: freshSteps count, db, ?_, mirrored, ?_⟩
    · intro event member
      rcases List.mem_cons.mp member with rfl | later
      · exact ⟨_, rfl⟩
      · exact own count event later
    · have killed : mirrorStep calls { published := pub :: older, client, taken } (.client .kill) =
          some { published := pub :: older, client := client.goto .idle, taken := none } := by
        simp only [mirrorStep, repoStep, if_neg rests]
        rfl
      rw [runEvents, killed]
      exact run

end CatchUp

/-! ## Runs -/

def sampleCalls : ClientCalls where
  parse _ := some { origin := some ['b'], arch := some [], cksum := some ['c'] }
  checksumIsValid _ := true
  isValidAbi _ := true

theorem wholeRun_ends : (runEvents (createStep false) (CreateState.start [[shortOrigin]].get)
    wholeRun).isSome = true := rfl

def sampleCreation : Creation where
  accepts _ := true
  readFiles := false
  numWorkers := 1
  files := [shortOrigin]
  tasks := [[shortOrigin]]
  split := rfl
  origins := by decide
  events := wholeRun
  final := (runEvents (createStep false) (CreateState.start [[shortOrigin]].get) wholeRun).get
    wholeRun_ends
  run := (Option.some_get wholeRun_ends).symm
  opens := by
    iterate 9 refine meetsAlong_cons (fun _ _ _ => rfl) rfl ?_
    iterate 3 refine meetsAlong_cons trivial rfl ?_
    trivial
  careful := by
    iterate 6 refine meetsAlong_cons (fun _ sends => by cases sends) rfl ?_
    refine meetsAlong_cons ?_ rfl ?_
    · intro region sends
      cases WorkerPc.send.inj sends
      exact ⟨by decide, by decide, by decide, by decide⟩
    · iterate 2 refine meetsAlong_cons (fun _ sends => by cases sends) rfl ?_
      iterate 3 refine meetsAlong_cons trivial rfl ?_
      trivial
  created := ⟨rfl, by decide⟩

theorem sampleCreation_readable : sampleCreation.publication.Readable sampleCalls where
  origins := by decide
  digests := by decide
  packages pkg member := by
    cases List.mem_singleton.mp member
    exact
      { origin := ⟨by decide, by decide, by decide⟩
        digest := ⟨by decide, by decide, by decide⟩
        checksum := fun c listed => by
          cases List.mem_singleton.mp listed
          rfl
        validDigest := rfl
        manifest := by decide
        parsed := ⟨_, [], rfl, rfl, rfl, rfl, rfl, rfl⟩ }
  lines := by decide
  filesPos := by decide
  size := by decide

end Pkgng
