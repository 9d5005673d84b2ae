import Mathlib.Logic.Function.Iterate
import Mathlib.Tactic.IntervalCases
import Pkgng.Db.Upgrade

/-!
# The schema of a repository's database

`pkg_repo_binary_check_version` brings the database of a repository to the schema that this version
knows, one change after the other, each within a savepoint.  Calls may fail at any statement and be
killed at any time; the next one goes on from what is on disk, unless the one before had the file
unlinked.
-/

set_option autoImplicit false

namespace Pkgng

def repoSchemaMajor : Int := 2

def repoSchemaVersion : Int := repoSchemaMajor * 1000 + 10

/-- The versions of `repo_upgrades` with the next ones. -/
def repoUpgrades : List (Int × Int) :=
  [(2001, 2002), (2002, 2003), (2003, 2004), (2004, 2005), (2005, 2006), (2006, 2007),
    (2007, 2008), (2008, 2009), (2009, 2010)]

/-- The versions of `repo_downgrades` with the next ones. -/
def repoDowngrades : List (Int × Int) :=
  [(2010, 2009), (2009, 2008), (2008, 2007), (2007, 2006), (2006, 2005), (2005, 2004),
    (2004, 2003), (2003, 2002), (2002, 2001)]

/-- The result, or the call has been killed. -/
inductive RepoSchemaRc
  | ok
  | fatal
  | reposchema
  | killed
deriving DecidableEq, Repr

section Check

variable {Content : Type} (env : SchemaEnv Content) (downEffect : Int → Content → Content)

/-- `pkgdb_transaction_rollback` and `pkgdb_transaction_commit` of a change that has failed. -/
def rollbackChange (version : Int) (conn : SchemaConn Content) : SchemaConn Content :=
  let conn := if env.rollback version then { conn with inside := some conn.committed } else conn
  match env.commit version with
  | .done => conn.transactionCommit
  | .failed _ => conn
  | .rolledBack => conn.discard

/-- `pkg_repo_binary_apply_change`: the next version, or the connection that is left. -/
def pkgRepoBinaryApplyChange (effect : Int → Content → Content) (changes : List (Int × Int))
    (version : Int) (conn : SchemaConn Content) :
    Except (SchemaConn Content) (Int × SchemaConn Content) :=
  match changes.find? fun change => change.1 = version with
  | none => .error conn
  | some change =>
      -- Without a savepoint there is nothing to roll back or to commit.
      if !env.begin version then .error conn
      else
        let conn := conn.transactionBegin
        match env.exec version with
        | .failed leaves => .error (rollbackChange env version (conn.fail leaves))
        | .rolledBack => .error conn.discard
        | .done =>
            let conn := conn.write fun db => { db with content := effect version db.content }
            match env.setVersion version with
            | .failed leaves => .error (rollbackChange env version (conn.fail leaves))
            | .rolledBack => .error conn.discard
            | .done =>
                let conn := conn.write fun db => { db with userVersion := change.2 }
                match env.commit version with
                | .failed _ => .error conn
                | .rolledBack => .error conn.discard
                | .done => .ok (change.2, conn.transactionCommit)

/-- `pkg_repo_binary_upgrade`, which is killed where the turns are used up. -/
def pkgRepoBinaryUpgrade :
    Nat → Int → SchemaConn Content → SchemaConn Content × RepoSchemaRc
  | 0, _, conn => (conn, .killed)
  | turns + 1, version, conn =>
      if version < repoSchemaVersion then
        match pkgRepoBinaryApplyChange env env.effect repoUpgrades version conn with
        | .error conn => (conn, .fatal)
        | .ok (next, conn) => pkgRepoBinaryUpgrade turns next conn
      else (conn, .ok)

/-- `pkg_repo_binary_downgrade`. -/
def pkgRepoBinaryDowngrade :
    Nat → Int → SchemaConn Content → SchemaConn Content × RepoSchemaRc
  | 0, _, conn => (conn, .killed)
  | turns + 1, version, conn =>
      if repoSchemaVersion < version then
        match pkgRepoBinaryApplyChange env downEffect repoDowngrades version conn with
        | .error conn => (conn, .fatal)
        | .ok (next, conn) => pkgRepoBinaryDowngrade turns next conn
      else (conn, .ok)

/-- The old numbers of two versions. -/
def grandfathered (reposcver : Int) : Int :=
  if reposcver = 2 then 2000 else if reposcver = 3 then 2001 else reposcver

/-- `pkg_repo_binary_check_version` on the connection of a repository that is being opened. -/
def pkgRepoBinaryCheckVersion (turns : Nat) (conn : SchemaConn Content) :
    SchemaConn Content × RepoSchemaRc :=
  if env.readPragma ≠ .row then (conn, .fatal)
  else
    let reposcver := grandfathered conn.view.userVersion
    if reposcver.tdiv 1000 < repoSchemaMajor then (conn, .reposchema)
    else if repoSchemaMajor < reposcver.tdiv 1000 then (conn, .reposchema)
    else if reposcver < repoSchemaVersion then
      if env.readonly then (conn, .fatal) else pkgRepoBinaryUpgrade env turns reposcver conn
    else if repoSchemaVersion < reposcver then
      if env.readonly then (conn, .fatal)
      else pkgRepoBinaryDowngrade env downEffect turns reposcver conn
    else (conn, .ok)

end Check

/-- A call, with what it meets, how many changes it comes to, and whether the file can be unlinked.
The connection is read-only where the mode of `pkg_repo_binary_open` is without `W_OK`. -/
structure SchemaCall (Content : Type) where
  env : SchemaEnv Content
  turns : Nat
  unlinks : Bool

/-- The version check within `pkg_repo_binary_open` on a new connection: what is left on disk, where
the file is still there. -/
def openVersion {Content : Type} (downEffect : Int → Content → Content) (call : SchemaCall Content)
    (disk : SchemaDb Content) : Option (SchemaDb Content) :=
  let left := pkgRepoBinaryCheckVersion call.env downEffect call.turns ⟨disk, none⟩
  match left.2 with
  | .ok => some left.1.committed
  | .killed => some left.1.committed
  | .fatal => if !call.env.readonly && call.unlinks then none else some left.1.committed
  | .reposchema => if !call.env.readonly && call.unlinks then none else some left.1.committed

/-- Calls one after the other, until one unlinks the file. -/
def runSchemaCalls {Content : Type} (downEffect : Int → Content → Content) :
    List (SchemaCall Content) → SchemaDb Content → Option (SchemaDb Content)
  | [], disk => some disk
  | call :: rest, disk => (openVersion downEffect call disk).bind (runSchemaCalls downEffect rest)

/-! ## What a call leaves -/

section Calls

variable {Content : Type} {env : SchemaEnv Content} {downEffect : Int → Content → Content}

/-- One change of the schema as a whole. -/
def SchemaDb.advance (effect : Int → Content → Content) (db : SchemaDb Content) :
    SchemaDb Content where
  content := effect (grandfathered db.userVersion) db.content
  userVersion := grandfathered db.userVersion + 1

theorem repoUpgrades_next {change : Int × Int} (member : change ∈ repoUpgrades) :
    change.2 = change.1 + 1 ∧ 2001 ≤ change.1 ∧ change.1 ≤ 2009 :=
  (by decide : ∀ change ∈ repoUpgrades,
    change.2 = change.1 + 1 ∧ 2001 ≤ change.1 ∧ change.1 ≤ 2009) change member

theorem grandfathered_eq {version : Int} (new : 2001 ≤ version) :
    grandfathered version = version := by
  rw [grandfathered, if_neg (by omega), if_neg (by omega)]

theorem rollbackChange_committed {version : Int} {conn : SchemaConn Content}
    (rollsBack : env.rollback version = true) :
    (rollbackChange env version conn).committed = conn.committed := by
  unfold rollbackChange
  rw [rollsBack, if_pos rfl]
  split
  · rfl
  · rfl
  · rfl

/-- A change is made as a whole or not at all. -/
theorem pkgRepoBinaryApplyChange_spec {effect : Int → Content → Content}
    {changes : List (Int × Int)} {version : Int} {disk : SchemaDb Content}
    (rollsBack : env.rollback version = true) :
    match pkgRepoBinaryApplyChange env effect changes version ⟨disk, none⟩ with
    | .error conn => conn.committed = disk
    | .ok (next, conn) => (version, next) ∈ changes ∧
        conn = ⟨⟨effect version disk.content, next⟩, none⟩ := by
  unfold pkgRepoBinaryApplyChange
  cases found : changes.find? fun change => change.1 = version with
  | none => rfl
  | some change =>
      have member := List.mem_of_find?_eq_some found
      have isVersion : change.1 = version := by simpa using List.find?_some found
      dsimp only
      cases env.begin version with
      | false => rfl
      | true =>
          cases env.exec version with
          | failed leaves => exact rollbackChange_committed rollsBack
          | rolledBack => rfl
          | done =>
              cases env.setVersion version with
              | failed leaves => exact rollbackChange_committed rollsBack
              | rolledBack => rfl
              | done =>
                  cases env.commit version with
                  | failed _ => rfl
                  | rolledBack => rfl
                  | done => exact ⟨isVersion ▸ member, rfl⟩

/-- The loop makes a number of changes, and the rest of them where it succeeds. -/
theorem pkgRepoBinaryUpgrade_spec (rollsBack : ∀ version, env.rollback version = true)
    (turns : Nat) {disk : SchemaDb Content} {version : Int}
    (isVersion : grandfathered disk.userVersion = version) :
    let left := pkgRepoBinaryUpgrade env turns version ⟨disk, none⟩
    ∃ n, left.1.committed = (SchemaDb.advance env.effect)^[n] disk ∧
      (n ≠ 0 → 2001 ≤ version ∧ version + n ≤ repoSchemaVersion) ∧
      (left.2 = .ok → repoSchemaVersion ≤ version + n) := by
  induction turns generalizing disk version with
  | zero => exact ⟨0, rfl, fun some => absurd rfl some, fun ok => by cases ok⟩
  | succ turns ih =>
      unfold pkgRepoBinaryUpgrade
      split
      · next below =>
          have change := @pkgRepoBinaryApplyChange_spec _ env env.effect repoUpgrades version disk
            (rollsBack version)
          cases applied : pkgRepoBinaryApplyChange env env.effect repoUpgrades version
              ⟨disk, none⟩ with
          | error conn =>
              rw [applied] at change
              exact ⟨0, change, fun some => absurd rfl some, fun ok => by cases ok⟩
          | ok behind =>
              obtain ⟨next, conn⟩ := behind
              rw [applied] at change
              obtain ⟨member, rfl⟩ := change
              obtain ⟨isNext, low, high⟩ := repoUpgrades_next member
              have advanced : (⟨env.effect version disk.content, next⟩ : SchemaDb Content) =
                  disk.advance env.effect := by
                rw [SchemaDb.advance, isVersion, ← isNext]
              dsimp only at isNext low high
              obtain ⟨n, left, bounds, done⟩ :=
                @ih ⟨env.effect version disk.content, next⟩ next
                  (grandfathered_eq (show 2001 ≤ next by omega))
              refine ⟨n + 1, ?_, fun _ => ⟨low, ?_⟩, fun ok => ?_⟩
              · rw [Function.iterate_succ_apply, ← advanced]
                exact left
              · rw [repoSchemaVersion, repoSchemaMajor] at bounds ⊢
                by_cases none : n = 0
                · omega
                · have := (bounds none).2
                  omega
              · have := done ok
                omega
      · next reached =>
          exact ⟨0, rfl, fun some => absurd rfl some, fun _ => by omega⟩

theorem pkgRepoBinaryDowngrade_committed (turns : Nat) {disk : SchemaDb Content} {version : Int}
    (above : repoSchemaVersion < version) :
    let left := pkgRepoBinaryDowngrade env downEffect turns version ⟨disk, none⟩
    left.1.committed = disk ∧ left.2 ≠ .ok := by
  cases turns with
  | zero => exact ⟨rfl, RepoSchemaRc.noConfusion⟩
  | succ turns =>
      -- No change leads down to the version that is known here.
      have none : repoDowngrades.find? (fun change => change.1 = version) = none := by
        rw [List.find?_eq_none]
        intro change member same
        have low := (by decide : ∀ change ∈ repoDowngrades, change.1 ≤ 2010) change member
        rw [repoSchemaVersion, repoSchemaMajor] at above
        have := of_decide_eq_true same
        omega
      unfold pkgRepoBinaryDowngrade pkgRepoBinaryApplyChange
      rw [if_pos above, none]
      exact ⟨rfl, RepoSchemaRc.noConfusion⟩

/-- Every statement of the call succeeds. -/
structure SchemaEnv.Succeeds (env : SchemaEnv Content) : Prop where
  readPragma : env.readPragma = .row
  readonly : env.readonly = false
  begin : ∀ version, env.begin version = true
  exec : ∀ version, env.exec version = .done
  setVersion : ∀ version, env.setVersion version = .done
  commit : ∀ version, env.commit version = .done

/-- Every version from the first one of the table on is brought to the last one. -/
theorem pkgRepoBinaryUpgrade_ok (succeeds : env.Succeeds) (turns : Nat) {version : Int}
    {conn : SchemaConn Content} (low : 2001 ≤ version) (high : version ≤ repoSchemaVersion)
    (enough : repoSchemaVersion < version + turns) :
    (pkgRepoBinaryUpgrade env turns version conn).2 = .ok := by
  induction turns generalizing version conn with
  | zero => omega
  | succ turns ih =>
      unfold pkgRepoBinaryUpgrade
      split
      · next below =>
          have found : repoUpgrades.find? (fun change => change.1 = version) =
              some (version, version + 1) := by
            obtain ⟨n, rfl⟩ : ∃ n : Nat, version = 2001 + n := ⟨(version - 2001).toNat, by omega⟩
            rw [repoSchemaVersion, repoSchemaMajor] at below
            have few : n < 9 := by omega
            interval_cases n <;> rfl
          unfold pkgRepoBinaryApplyChange
          rw [found]
          dsimp only
          rw [succeeds.begin, succeeds.exec]
          dsimp only
          rw [succeeds.setVersion]
          dsimp only
          rw [succeeds.commit]
          exact ih (by omega) (by omega) (by omega)
      · rfl

/-- The disk has been brought from `start` to here by whole changes. -/
def SchemaDb.Reached (effect : Int → Content → Content) (start disk : SchemaDb Content) (n : Nat) :
    Prop :=
  disk = (SchemaDb.advance effect)^[n] start ∧
    (n ≠ 0 → 2001 ≤ grandfathered start.userVersion ∧
      grandfathered start.userVersion + n ≤ repoSchemaVersion)

theorem SchemaDb.advance_version {effect : Int → Content → Content} {start : SchemaDb Content}
    (low : 2001 ≤ grandfathered start.userVersion) (n : Nat) :
    grandfathered ((SchemaDb.advance effect)^[n] start).userVersion =
        grandfathered start.userVersion + n ∧
      (n ≠ 0 → ((SchemaDb.advance effect)^[n] start).userVersion =
        grandfathered start.userVersion + n) := by
  induction n with
  | zero => exact ⟨(add_zero _).symm, fun some => absurd rfl some⟩
  | succ n ih =>
      rw [Function.iterate_succ_apply', SchemaDb.advance]
      dsimp only
      rw [ih.1, grandfathered_eq (by omega)]
      exact ⟨by push_cast; omega, fun _ => by push_cast; omega⟩

theorem SchemaDb.Reached.version {effect : Int → Content → Content} {start disk : SchemaDb Content}
    {n : Nat} (reached : SchemaDb.Reached effect start disk n) :
    grandfathered disk.userVersion = grandfathered start.userVersion + n := by
  obtain ⟨rfl, bounds⟩ := reached
  by_cases none : n = 0
  · rw [none]
    exact (add_zero _).symm
  · exact (SchemaDb.advance_version (bounds none).1 n).1

theorem SchemaDb.Reached.trans {effect : Int → Content → Content}
    {start between disk : SchemaDb Content} {n m : Nat}
    (first : SchemaDb.Reached effect start between n)
    (second : SchemaDb.Reached effect between disk m) :
    SchemaDb.Reached effect start disk (m + n) := by
  have version := first.version
  obtain ⟨rfl, bounds⟩ := first
  obtain ⟨rfl, bounds'⟩ := second
  refine ⟨(Function.iterate_add_apply _ m n start).symm, fun some => ?_⟩
  by_cases none : m = 0
  · subst none
    obtain ⟨low, high⟩ := bounds (by omega)
    exact ⟨low, by push_cast; omega⟩
  · obtain ⟨low, high⟩ := bounds' none
    rw [version] at low high
    by_cases none' : n = 0
    · subst none'
      exact ⟨by omega, by push_cast; omega⟩
    · exact ⟨(bounds none').1, by push_cast; omega⟩

/-- What one call makes of the disk. -/
theorem pkgRepoBinaryCheckVersion_spec (rollsBack : ∀ version, env.rollback version = true)
    (turns : Nat) (disk : SchemaDb Content) :
    let left := pkgRepoBinaryCheckVersion env downEffect turns ⟨disk, none⟩
    ∃ n, SchemaDb.Reached env.effect disk left.1.committed n ∧
      (left.2 = .ok → grandfathered disk.userVersion + n = repoSchemaVersion) := by
  have unchanged {rc : RepoSchemaRc}
      (done : rc = .ok → grandfathered disk.userVersion = repoSchemaVersion) :
      ∃ n, SchemaDb.Reached env.effect disk disk n ∧
        (rc = .ok → grandfathered disk.userVersion + n = repoSchemaVersion) :=
    ⟨0, ⟨rfl, fun some => absurd rfl some⟩, fun ok => (add_zero _).trans (done ok)⟩
  unfold pkgRepoBinaryCheckVersion
  split
  · exact unchanged RepoSchemaRc.noConfusion
  dsimp only [SchemaConn.view, Option.getD_none]
  split
  · exact unchanged RepoSchemaRc.noConfusion
  split
  · exact unchanged RepoSchemaRc.noConfusion
  split
  · next below =>
      split
      · exact unchanged RepoSchemaRc.noConfusion
      · obtain ⟨n, left, bounds, done⟩ := pkgRepoBinaryUpgrade_spec rollsBack turns
          (rfl : grandfathered disk.userVersion = grandfathered disk.userVersion)
        refine ⟨n, ⟨left, bounds⟩, fun ok => ?_⟩
        have reached := done ok
        by_cases none : n = 0
        · omega
        · exact le_antisymm (bounds none).2 reached
  · next notBelow =>
      split
      · next above =>
          split
          · exact unchanged RepoSchemaRc.noConfusion
          · obtain ⟨same, failed⟩ :=
              @pkgRepoBinaryDowngrade_committed _ env downEffect turns disk _ above
            rw [same]
            exact unchanged fun ok => absurd ok failed
      · next notAbove => exact unchanged fun _ => by omega

theorem pkgRepoBinaryCheckVersion_ok (succeeds : env.Succeeds) {turns : Nat} (enough : 10 < turns)
    {disk : SchemaDb Content} (low : 2001 ≤ grandfathered disk.userVersion)
    (high : grandfathered disk.userVersion ≤ repoSchemaVersion) :
    (pkgRepoBinaryCheckVersion env downEffect turns ⟨disk, none⟩).2 = .ok := by
  have top : repoSchemaVersion = 2010 := rfl
  have major : (grandfathered disk.userVersion).tdiv 1000 = repoSchemaMajor := by
    rw [Int.tdiv_eq_ediv_of_nonneg (by omega), repoSchemaMajor]
    omega
  unfold pkgRepoBinaryCheckVersion
  rw [if_neg (not_not.mpr succeeds.readPragma)]
  dsimp only [SchemaConn.view, Option.getD_none]
  rw [major, if_neg (lt_irrefl _), if_neg (lt_irrefl _), succeeds.readonly,
    if_neg Bool.false_ne_true, if_neg (not_lt.mpr high)]
  split
  · exact pkgRepoBinaryUpgrade_ok succeeds turns low high (by omega)
  · rfl

end Calls

section Runs

variable {Content : Type} {effect downEffect : Int → Content → Content}

theorem openVersion_some {call : SchemaCall Content} {disk next : SchemaDb Content}
    (found : openVersion downEffect call disk = some next) :
    next = (pkgRepoBinaryCheckVersion call.env downEffect call.turns ⟨disk, none⟩).1.committed := by
  have unlinked {left : SchemaDb Content}
      (found : (if !call.env.readonly && call.unlinks then none else some left) = some next) :
      next = left := by
    split at found
    · cases found
    · exact (Option.some.inj found).symm
  unfold openVersion at found
  dsimp only at found
  split at found
  · exact (Option.some.inj found).symm
  · exact (Option.some.inj found).symm
  · exact unlinked found
  · exact unlinked found

theorem runSchemaCalls_reached {calls : List (SchemaCall Content)} {start disk : SchemaDb Content}
    (uniform : ∀ call ∈ calls, call.env.effect = effect)
    (rollsBack : ∀ call ∈ calls, ∀ version, call.env.rollback version = true)
    (left : runSchemaCalls downEffect calls start = some disk) :
    ∃ n, SchemaDb.Reached effect start disk n := by
  induction calls generalizing start with
  | nil =>
      cases left
      exact ⟨0, rfl, fun some => absurd rfl some⟩
  | cons call rest ih =>
      obtain ⟨next, opened, left⟩ := Option.bind_eq_some_iff.mp left
      obtain ⟨n, first, _⟩ := @pkgRepoBinaryCheckVersion_spec _ call.env downEffect
        (rollsBack call List.mem_cons_self) call.turns start
      rw [uniform call List.mem_cons_self, ← openVersion_some opened] at first
      obtain ⟨m, later⟩ := ih (fun other member => uniform other (List.mem_cons_of_mem _ member))
        (fun other member => rollsBack other (List.mem_cons_of_mem _ member)) left
      exact ⟨m + n, first.trans later⟩

/-- Behind any calls that have failed or been killed at any places, what is on disk, where none of
them has unlinked it, has been reached by whole changes, each made once and in their order; a call
that returns `EPKG_OK` has come to the version that is known here, and one whose statements succeed
does so from there. -/
theorem schemaCalls_converge (calls : List (SchemaCall Content)) (last : SchemaCall Content)
    (start disk : SchemaDb Content) (uniform : ∀ call ∈ last :: calls, call.env.effect = effect)
    (rollsBack : ∀ call ∈ last :: calls, ∀ version, call.env.rollback version = true)
    (there : runSchemaCalls downEffect calls start = some disk) :
    let left := pkgRepoBinaryCheckVersion last.env downEffect last.turns ⟨disk, none⟩
    (∃ n, left.1.committed = (SchemaDb.advance effect)^[n] start ∧
      (n ≠ 0 → left.1.committed.userVersion = grandfathered start.userVersion + n ∧
        left.1.committed.userVersion ≤ repoSchemaVersion) ∧
      (left.2 = .ok → grandfathered start.userVersion + n = repoSchemaVersion)) ∧
    (last.env.Succeeds → 10 < last.turns → 2001 ≤ grandfathered start.userVersion →
      grandfathered start.userVersion ≤ repoSchemaVersion → left.2 = .ok) := by
  intro left
  obtain ⟨n, reached⟩ := @runSchemaCalls_reached _ effect downEffect calls start disk
    (fun call member => uniform call (List.mem_cons_of_mem _ member))
    (fun call member => rollsBack call (List.mem_cons_of_mem _ member)) there
  obtain ⟨m, behind, done⟩ := @pkgRepoBinaryCheckVersion_spec _ last.env downEffect
    (rollsBack last List.mem_cons_self) last.turns disk
  rw [uniform last List.mem_cons_self] at behind
  have version := reached.version
  constructor
  · obtain ⟨same, bounds⟩ := reached.trans behind
    refine ⟨m + n, same, fun some => ?_, fun ok => ?_⟩
    · obtain ⟨low, high⟩ := bounds some
      have isVersion := (@SchemaDb.advance_version _ effect start low (m + n)).2 some
      rw [← same] at isVersion
      exact ⟨isVersion, isVersion.trans_le high⟩
    · have := done ok
      push_cast
      omega
  · intro succeeds enough low high
    refine pkgRepoBinaryCheckVersion_ok succeeds enough (by omega) ?_
    by_cases none : n = 0
    · omega
    · have := (reached.2 none).2
      omega

end Runs

/-! ## An upgrade that is broken off twice -/

/-- A database that notes its changes, of which one fails. -/
def notedChanges (fails : Option Int) : SchemaEnv (List Int) where
  effect version changes := changes ++ [version]
  readPragma := .row
  readonly := false
  begin _ := true
  exec version := if some version = fails then .failed ⟨[version], 0⟩ else .done
  setVersion _ := .done
  commit _ := .done
  rollback _ := true

theorem brokenOff_converges :
    (pkgRepoBinaryCheckVersion (notedChanges none) (fun _ changes => changes) 11
      ⟨⟨[2001, 2002, 2003, 2004, 2005], 2006⟩, none⟩).2 = .ok := by
  have each : ∀ call ∈ ([⟨notedChanges none, 11, true⟩, ⟨notedChanges (some 2004), 11, false⟩,
      ⟨notedChanges none, 2, true⟩] : List (SchemaCall (List Int))),
      call.env.effect = (notedChanges none).effect ∧
        ∀ version, call.env.rollback version = true := by
    intro call member
    simp only [List.mem_cons, List.not_mem_nil, or_false] at member
    rcases member with rfl | rfl | rfl
    · exact ⟨rfl, fun _ => rfl⟩
    · exact ⟨rfl, fun _ => rfl⟩
    · exact ⟨rfl, fun _ => rfl⟩
  -- The first call fails at 2004, the second one is killed behind two changes.
  have converges := @schemaCalls_converge (List Int) (notedChanges none).effect
    (fun _ changes => changes)
    [⟨notedChanges (some 2004), 11, false⟩, ⟨notedChanges none, 2, true⟩]
    ⟨notedChanges none, 11, true⟩ ⟨[], 3⟩ ⟨[2001, 2002, 2003, 2004, 2005], 2006⟩
    (fun call member => (each call member).1) (fun call member => (each call member).2) rfl
  refine converges.2 ⟨rfl, rfl, fun _ => rfl, fun version => ?_, fun _ => rfl, fun _ => rfl⟩
    (by decide) (by decide) (by decide)
  show (if some version = (none : Option Int)
    then (StatementResult.failed ⟨[version], 0⟩ : StatementResult (List Int)) else .done) = .done
  exact if_neg (Option.some_ne_none version)

end Pkgng
