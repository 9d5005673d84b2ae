import Pkgng.Jobs.LockedPackages
import Pkgng.Lib.DepthFirst

/-!
# Automatic packages that nothing needs

`jobs_solve_autoremove` requests the automatic packages that
`pkg_jobs_test_automatic` answers for.  The test follows the reverse dependencies
of a package by plain recursion, loading packages into the universe on the way;
it is the depth-first search that marks nothing, over the installed packages.
-/

set_option autoImplicit false

namespace Pkgng

open Lib Relation

/-! ## The functions of the source -/

/-- The loop of `pkg_jobs_test_automatic` from a point on. -/
def testReverse (env : Env) (fuel : Nat) (self : JobsUniverse → Pkg → Ended (Bool × JobsUniverse)) :
    List Dep → JobsUniverse → Ended (Bool × JobsUniverse)
  | [], u => .returns (true, u)
  | d :: rest, u =>
      match u.find d.uid with
      | some unit =>
          if (u.pkg unit).automatic then
            (self u (u.pkg unit)).bind fun (ret, u) =>
              if ret then testReverse env fuel self rest u else .returns (false, u)
          else .returns (false, u)
      | none =>
          match pkgJobsUniverseGetLocal env u d.uid with
          -- `pkg_get` reads the package before it is compared with `NULL`.
          | none => .aborted
          | some npkg =>
              if npkg.automatic then
                match pkgJobsUniverseProcessItem env fuel u npkg with
                | none => .exhausted
                | some (rc, _, u) =>
                    if rc = .ok then
                      (self u npkg).bind fun (ret, u) =>
                        if ret then testReverse env fuel self rest u else .returns (false, u)
                    else .returns (false, u)
              else .returns (false, u)

def pkgJobsTestAutomatic (env : Env) : Nat → JobsUniverse → Pkg → Ended (Bool × JobsUniverse)
  | 0, _, _ => .exhausted
  | depth + 1, u, p => testReverse env (depth + 1) (pkgJobsTestAutomatic env depth) p.rdeps u

/-- What `jobs_solve_autoremove` does with a row once `unit` is known: `pkg` is
the row or the package of the unit. -/
def requestUnneeded (env : Env) (depth : Nat) (pkg : Pkg) (unit : Option Addr) (j : Jobs) :
    Ended Jobs :=
  if pkg.locked then .returns j
  else
    (pkgJobsTestAutomatic env depth j.univ pkg).bind fun (ret, univ) =>
      if ret then
        match pkgJobsAddReq { j with univ := univ } unit with
        | none => .aborted
        | some j => .returns j
      else .returns { j with univ := univ }

/-- One turn of the loop of `jobs_solve_autoremove`. -/
def autoremoveRow (env : Env) (depth : Nat) (pkg : Pkg) (j : Jobs) : Ended Jobs :=
  match j.univ.find pkg.uid with
  | none =>
      match pkgJobsUniverseProcessItem env depth j.univ pkg with
      | none => .exhausted
      | some (_, unit, univ) => requestUnneeded env depth pkg unit { j with univ := univ }
  | some unit => requestUnneeded env depth (j.pkg unit) (some unit) j

/-- The loop over the rows of the query. -/
def autoremoveRows (env : Env) (depth : Nat) : List Pkg → Jobs → Ended Jobs
  | [], j => .returns { j with solved := 1 }
  | pkg :: rest, j => (autoremoveRow env depth pkg j).bind (autoremoveRows env depth rest)

/-- `jobs_solve_autoremove`, given the rows of `WHERE automatic=1`; they are null
where the query fails. -/
def jobsSolveAutoremove (env : Env) (depth : Nat) (rows : Option (List Pkg)) (j : Jobs) :
    Ended (Epkg × Jobs) :=
  match rows with
  | none => .returns (.fatal, j)
  | some rows => (autoremoveRows env depth rows j).map fun j => (.ok, j)

/-! ## The installed packages -/

/-- The table `packages` of the local database, which is unique in name and
origin.  The universe files a package by its digest, so each has one of its own. -/
structure InstalledDb where
  pkgs : List Pkg
  checksum : Pkg → Option Digest
  installed : ∀ pkg ∈ pkgs, pkg.type = .installed
  uidsNodup : (pkgs.map Pkg.uid).Nodup
  digested : ∀ pkg ∈ pkgs, ∃ digest, digestOf checksum pkg = some digest
  digestsNodup : (pkgs.map (digestOf checksum)).Nodup

namespace InstalledDb

variable (db : InstalledDb)

/-- The row of a uid. -/
def row (uid : Uid) : Option Pkg := db.pkgs.find? fun pkg => pkg.uid = uid

/-- What an autoremove job reads. -/
def env (others : Env) : Env :=
  { others with
    type := .autoremove
    query := fun uid => (db.row uid).toList
    checksum := db.checksum }

/-- The rows of `WHERE automatic=1`. -/
def automatics : List Pkg := db.pkgs.filter Pkg.automatic

def look (uid : Uid) : Look :=
  match db.row uid with
  | none => .missing
  | some pkg => if pkg.automatic then .confirms else .refutes

/-- The reverse dependencies in the order of their table. -/
def rdepUids (uid : Uid) : List Uid :=
  match db.row uid with
  | none => []
  | some pkg => pkg.rdepUids

/-- An unlocked automatic package all of whose transitive reverse dependencies
are automatic. -/
def Orphan (uid : Uid) : Prop :=
  ∃ pkg ∈ db.pkgs, pkg.uid = uid ∧ pkg.automatic = true ∧ pkg.locked = false ∧
    ConfirmedBelow db.look db.rdepUids uid

/-- The test of the package does not end well: going on past reverse
dependencies that are automatic with all of theirs, it comes to one that is not
installed, or comes round a cycle of automatic packages. -/
def Stuck (uid : Uid) : Prop :=
  ∃ other, ReflTransGen (Enters db.look db.rdepUids) uid other ∧
    (Misses db.look db.rdepUids other ∨ TransGen (Enters db.look db.rdepUids) other other)

/-- The job terminates, and the requests are exactly the orphans. -/
def SelectsOrphans (others : Env) : Prop :=
  ∃ depth j, jobsSolveAutoremove (db.env others) depth (some db.automatics)
      { univ := {}, type := .autoremove } = .returns (.ok, j) ∧
    j.requestDelete.Nodup ∧
    ∀ uid, uid ∈ j.requestDelete.map (fun item => (j.pkg item).uid) ↔ db.Orphan uid

/-- A package as the universe holds it. -/
def stored (pkg : Pkg) : Pkg := { pkg with digest := digestOf db.checksum pkg }

variable {db}

theorem row_eq_some_iff {uid : Uid} {pkg : Pkg} :
    db.row uid = some pkg ↔ pkg ∈ db.pkgs ∧ pkg.uid = uid := by
  constructor
  · intro found
    exact ⟨List.mem_of_find?_eq_some found, by simpa using List.find?_some found⟩
  · rintro ⟨member, rfl⟩
    cases found : db.row pkg.uid with
    | none =>
        have none := List.find?_eq_none.mp found pkg member
        simp at none
    | some other =>
        have sameUid : other.uid = pkg.uid := by simpa using List.find?_some found
        have otherMember := List.mem_of_find?_eq_some found
        rw [List.inj_on_of_nodup_map db.uidsNodup otherMember member sameUid]

theorem look_of_row {uid : Uid} {pkg : Pkg} (row : db.row uid = some pkg) :
    db.look uid = if pkg.automatic then .confirms else .refutes := by
  rw [look, row]

theorem rdepUids_of_row {uid : Uid} {pkg : Pkg} (row : db.row uid = some pkg) :
    db.rdepUids uid = pkg.rdeps.map Dep.uid := by
  rw [rdepUids, row]
  rfl

theorem confirms_finite (db : InstalledDb) : {uid | db.look uid = .confirms}.Finite := by
  refine (List.finite_toSet (db.pkgs.map Pkg.uid)).subset fun uid confirms => ?_
  cases row : db.row uid with
  | none =>
      have missing : db.look uid = .missing := by rw [look, row]
      cases missing.symm.trans confirms
  | some pkg =>
      obtain ⟨member, sameUid⟩ := row_eq_some_iff.mp row
      exact List.mem_map.mpr ⟨pkg, member, sameUid⟩

end InstalledDb

/-! ## The universe of the job -/

/-- The universe holds installed packages only, each filed under its uid. -/
structure Filed (db : InstalledDb) (u : JobsUniverse) : Prop where
  rows : ∀ uid item, u.find uid = some item → item < u.pkgs.length ∧
    ∃ pkg, db.row uid = some pkg ∧ u.pkg item = db.stored pkg
  seen : ∀ digest item, HashTable.find digest u.seen = some item →
    ∃ pkg ∈ db.pkgs, digestOf db.checksum pkg = some digest ∧ u.find pkg.uid ≠ none

/-- Whatever is filed stays. -/
def KeepsFiled (u u' : JobsUniverse) : Prop :=
  ∀ uid item, u.find uid = some item → u'.find uid = some item

theorem KeepsFiled.trans {u u' u'' : JobsUniverse} (first : KeepsFiled u u')
    (second : KeepsFiled u' u'') : KeepsFiled u u'' :=
  fun uid item found => second uid item (first uid item found)

section Universe

variable {db : InstalledDb} {others : Env} {u : JobsUniverse} {uid : Uid} {pkg : Pkg}

theorem filed_empty (db : InstalledDb) : Filed db {} where
  rows _ _ found := by cases found
  seen _ _ found := by cases found

theorem find_insert (absent : u.find pkg.uid = none) (digest : Digest) (uid : Uid) :
    (u.insert pkg digest).find uid = if pkg.uid = uid then some u.pkgs.length else u.find uid := by
  have items : (u.insert pkg digest).items = HashTable.add pkg.uid u.pkgs.length u.items := by
    rw [JobsUniverse.insert, absent]
  rw [JobsUniverse.find, items, HashTable.find_add]
  rfl

/-- A package that is not filed yet is new to the universe, and nothing else
happens to it in an autoremove job. -/
theorem Filed.process (filed : Filed db u) (row : db.row uid = some pkg)
    (absent : u.find uid = none) (fuel : Nat) :
    ∃ u', pkgJobsUniverseProcessItem (db.env others) (fuel + 1) u pkg =
        some (.ok, some u.pkgs.length, u') ∧
      Filed db u' ∧ KeepsFiled u u' ∧ u'.find uid = some u.pkgs.length := by
  obtain ⟨member, rfl⟩ := InstalledDb.row_eq_some_iff.mp row
  obtain ⟨digest, digestEq⟩ := db.digested pkg member
  have unseen : HashTable.find digest u.seen = none := by
    cases found : HashTable.find digest u.seen with
    | none => rfl
    | some item =>
        obtain ⟨other, otherMember, otherDigest, present⟩ := filed.seen digest item found
        rw [← digestEq] at otherDigest
        rw [List.inj_on_of_nodup_map db.digestsNodup otherMember member otherDigest] at present
        exact absurd absent present
  have added : pkgJobsUniverseAddPkg db.checksum u pkg false =
      (.ok, some u.pkgs.length, u.insert pkg digest) := by
    simp only [pkgJobsUniverseAddPkg, digestEq, unseen]
  have found := find_insert absent digest
  refine ⟨u.insert pkg digest, ?_, ⟨?_, ?_⟩, ?_, ?_⟩
  · rw [pkgJobsUniverseProcessItem]
    simp only [InstalledDb.env, added, processAdded]
    rfl
  · intro other item filedUnder
    rw [found] at filedUnder
    split at filedUnder
    · next same =>
        obtain rfl := Option.some.inj filedUnder
        refine ⟨by simp, pkg, same ▸ row, ?_⟩
        rw [JobsUniverse.insert_pkg_new, InstalledDb.stored, digestEq]
    · obtain ⟨below, stored⟩ := filed.rows other item filedUnder
      rw [JobsUniverse.insert_pkg_old pkg digest below]
      refine ⟨?_, stored⟩
      rw [JobsUniverse.insert_pkgs, List.length_append, List.length_singleton]
      exact Nat.lt_succ_of_lt below
  · intro other item seen
    have entries : (u.insert pkg digest).seen = HashTable.add digest u.pkgs.length u.seen := by
      rw [JobsUniverse.insert, unseen]
    rw [entries, HashTable.find_add] at seen
    split at seen
    · next same =>
        refine ⟨pkg, member, same ▸ digestEq, ?_⟩
        rw [found, if_pos rfl]
        simp
    · obtain ⟨owner, ownerMember, ownerDigest, present⟩ := filed.seen other item seen
      refine ⟨owner, ownerMember, ownerDigest, ?_⟩
      rw [found]
      split
      · simp
      · exact present
  · intro other item filedUnder
    rw [found, if_neg fun same => by rw [same, filedUnder] at absent; cases absent]
    exact filedUnder
  · rw [found, if_pos rfl]

/-! ## The test is the search -/

/-- The loop over reverse dependencies answers as the search over their uids. -/
theorem testReverse_search {fuel : Nat} {self : JobsUniverse → Pkg → Ended (Bool × JobsUniverse)}
    {below : Uid → Ended Bool}
    (calls : ∀ u p uid pkg, Filed db u → db.row uid = some pkg → p.rdeps = pkg.rdeps →
      ∃ u', Filed db u' ∧ KeepsFiled u u' ∧ self u p = (below uid).map fun ret => (ret, u'))
    {deps : List Dep} (filed : Filed db u) :
    ∃ u', Filed db u' ∧ KeepsFiled u u' ∧
      testReverse (db.env others) (fuel + 1) self deps u =
        (searchList db.look below (deps.map Dep.uid)).map fun ret => (ret, u') := by
  induction deps generalizing u with
  | nil => exact ⟨u, filed, fun _ _ found => found, rfl⟩
  | cons d rest ih =>
      -- Once the package below has been tested, the loop goes on or is over.
      have goesOn : ∀ {v : JobsUniverse} {p pkg : Pkg}, Filed db v → KeepsFiled u v →
          db.row d.uid = some pkg → p.rdeps = pkg.rdeps →
          ∃ u', Filed db u' ∧ KeepsFiled u u' ∧
            ((self v p).bind fun (ret, u) =>
              if ret then testReverse (db.env others) (fuel + 1) self rest u
                else .returns (false, u)) =
              ((below d.uid).bind fun all =>
                if all then searchList db.look below (rest.map Dep.uid)
                  else .returns false).map fun ret => (ret, u') := by
        intro v p pkg filedMid keptMid row sameRdeps
        obtain ⟨mid, midFiled, midKept, ran⟩ := calls v p d.uid pkg filedMid row sameRdeps
        rw [ran]
        cases below d.uid with
        | exhausted => exact ⟨mid, midFiled, keptMid.trans midKept, rfl⟩
        | aborted => exact ⟨mid, midFiled, keptMid.trans midKept, rfl⟩
        | returns all =>
            cases all with
            | false => exact ⟨mid, midFiled, keptMid.trans midKept, rfl⟩
            | true =>
                obtain ⟨last, lastFiled, lastKept, later⟩ := ih midFiled
                exact ⟨last, lastFiled, (keptMid.trans midKept).trans lastKept, later⟩
      rw [testReverse, List.map_cons, searchList]
      cases found : u.find d.uid with
      | some unit =>
          obtain ⟨_, pkg, row, stored⟩ := filed.rows d.uid unit found
          have automatic : (u.pkg unit).automatic = pkg.automatic := by
            rw [stored, InstalledDb.stored]
          have rdeps : (u.pkg unit).rdeps = pkg.rdeps := by
            rw [stored, InstalledDb.stored]
          rw [InstalledDb.look_of_row row]
          simp only [automatic]
          cases pkg.automatic with
          | false => exact ⟨u, filed, fun _ _ found => found, rfl⟩
          | true => exact goesOn filed (fun _ _ found => found) row rdeps
      | none =>
          have read : pkgJobsUniverseGetLocal (db.env others) u d.uid = db.row d.uid := by
            simp [pkgJobsUniverseGetLocal, found, InstalledDb.env]
          rw [read]
          cases row : db.row d.uid with
          | none =>
              rw [InstalledDb.look, row]
              exact ⟨u, filed, fun _ _ found => found, rfl⟩
          | some pkg =>
              rw [InstalledDb.look_of_row row]
              cases automatic : pkg.automatic with
              | false => exact ⟨u, filed, fun _ _ found => found, by simp [automatic]⟩
              | true =>
                  obtain ⟨v, ran, midFiled, midKept, _⟩ :=
                    @Filed.process db others u d.uid pkg filed row found fuel
                  simp only [automatic, ran, if_true]
                  exact goesOn midFiled midKept row rfl

/-- `pkg_jobs_test_automatic` is the search over the installed packages. -/
theorem pkgJobsTestAutomatic_search {depth : Nat} {p : Pkg} (filed : Filed db u)
    (row : db.row uid = some pkg) (sameRdeps : p.rdeps = pkg.rdeps) :
    ∃ u', Filed db u' ∧ KeepsFiled u u' ∧
      pkgJobsTestAutomatic (db.env others) depth u p =
        (search db.look db.rdepUids depth uid).map fun ret => (ret, u') := by
  induction depth generalizing u p uid pkg with
  | zero => exact ⟨u, filed, fun _ _ found => found, rfl⟩
  | succ depth ih =>
      rw [pkgJobsTestAutomatic, search, InstalledDb.rdepUids_of_row row, sameRdeps]
      exact testReverse_search (fun u p uid pkg filed row same => ih filed row same) filed

end Universe

/-! ## The requests -/

/-- The state of the job after some of the rows. -/
structure Collected (db : InstalledDb) (done : List Pkg) (j : Jobs) : Prop where
  filed : Filed db j.univ
  type : j.type = .autoremove
  nodup : j.requestDelete.Nodup
  orphans : ∀ item ∈ j.requestDelete, ∃ uid, j.univ.find uid = some item ∧ db.Orphan uid
  complete : ∀ pkg ∈ done, db.Orphan pkg.uid →
    ∃ item ∈ j.requestDelete, j.univ.find pkg.uid = some item

section Requests

variable {db : InstalledDb} {others : Env} {depth : Nat} {pkg p : Pkg} {item : Addr}
  {done rest : List Pkg} {j j' : Jobs} {univ : JobsUniverse}

theorem Collected.grow (collected : Collected db done j) (filed : Filed db univ)
    (kept : KeepsFiled j.univ univ) : Collected db done { j with univ := univ } where
  filed := filed
  type := collected.type
  nodup := collected.nodup
  orphans item member :=
    have ⟨uid, found, orphan⟩ := collected.orphans item member
    ⟨uid, kept uid item found, orphan⟩
  complete pkg member orphan :=
    have ⟨item, requested, found⟩ := collected.complete pkg member orphan
    ⟨item, requested, kept pkg.uid item found⟩

/-- A row without a request is no orphan. -/
theorem Collected.skip (collected : Collected db done j) (needed : ¬ db.Orphan pkg.uid) :
    Collected db (done ++ [pkg]) j where
  filed := collected.filed
  type := collected.type
  nodup := collected.nodup
  orphans := collected.orphans
  complete other member orphan := by
    rcases List.mem_append.mp member with early | last
    · exact collected.complete other early orphan
    · rw [List.mem_singleton.mp last] at orphan
      exact absurd orphan needed

/-- The request for an orphan. -/
theorem Collected.request (collected : Collected db done j) (orphan : db.Orphan pkg.uid)
    (found : j.univ.find pkg.uid = some item) :
    ∃ j', pkgJobsAddReq j (some item) = some j' ∧ Collected db (done ++ [pkg]) j' := by
  obtain ⟨_, row, found', stored⟩ := collected.filed.rows pkg.uid item found
  have installed : (j.pkg item).isInstalled = true := by
    rw [Jobs.pkg, stored, Pkg.isInstalled_eq_true]
    exact db.installed row (InstalledDb.row_eq_some_iff.mp found').1
  have add : pkgJobsAddReq j (some item) =
      if item ∈ j.requestDelete then some j
      else some { j with requestDelete := j.requestDelete ++ [item] } := by
    unfold pkgJobsAddReq
    simp only [Option.bind_eq_bind, Option.bind_some]
    rw [if_pos (Or.inr collected.type), if_pos installed]
  rw [add]
  split
  · next already =>
      refine ⟨j, rfl, collected.filed, collected.type, collected.nodup, collected.orphans, ?_⟩
      intro other member orphanOther
      rcases List.mem_append.mp member with early | last
      · exact collected.complete other early orphanOther
      · rw [List.mem_singleton.mp last]
        exact ⟨item, already, found⟩
  · next new =>
      refine ⟨_, rfl, collected.filed, collected.type, ?_, ?_, ?_⟩
      · refine List.nodup_append.mpr ⟨collected.nodup, List.nodup_singleton _, ?_⟩
        intro a old b last same
        rw [same, List.mem_singleton.mp last] at old
        exact new old
      · intro other member
        rcases List.mem_append.mp member with early | last
        · exact collected.orphans other early
        · rw [List.mem_singleton.mp last]
          exact ⟨pkg.uid, found, orphan⟩
      · intro other member orphanOther
        rcases List.mem_append.mp member with early | last
        · obtain ⟨unit, requested, filed⟩ := collected.complete other early orphanOther
          exact ⟨unit, List.mem_append_left _ requested, filed⟩
        · rw [List.mem_singleton.mp last]
          exact ⟨item, List.mem_append_right _ (List.mem_singleton_self _), found⟩

theorem orphan_iff (member : pkg ∈ db.automatics) :
    db.Orphan pkg.uid ↔
      pkg.locked = false ∧ ConfirmedBelow db.look db.rdepUids pkg.uid := by
  obtain ⟨inDb, automatic⟩ := List.mem_filter.mp member
  constructor
  · rintro ⟨other, otherMember, sameUid, _, unlocked, confirmed⟩
    rw [List.inj_on_of_nodup_map db.uidsNodup otherMember inDb sameUid] at unlocked
    exact ⟨unlocked, confirmed⟩
  · rintro ⟨unlocked, confirmed⟩
    exact ⟨pkg, inDb, rfl, automatic, unlocked, confirmed⟩

/-- What becomes of a row: it follows the search. -/
theorem requestUnneeded_cases (collected : Collected db done j) (member : pkg ∈ db.automatics)
    (found : j.univ.find pkg.uid = some item) (sameRdeps : p.rdeps = pkg.rdeps)
    (sameLock : p.locked = pkg.locked) :
    (pkg.locked = true ∧ requestUnneeded (db.env others) depth p (some item) j = .returns j ∧
      Collected db (done ++ [pkg]) j) ∨
    (pkg.locked = false ∧ (∀ all, search db.look db.rdepUids depth pkg.uid ≠ .returns all) ∧
      ∀ j', requestUnneeded (db.env others) depth p (some item) j ≠ .returns j') ∨
    ∃ all j', search db.look db.rdepUids depth pkg.uid = .returns all ∧
      requestUnneeded (db.env others) depth p (some item) j = .returns j' ∧
      Collected db (done ++ [pkg]) j' := by
  have inDb := (List.mem_filter.mp member).1
  cases locked : pkg.locked with
  | true =>
      refine Or.inl ⟨rfl, ?_, collected.skip fun orphan => ?_⟩
      · rw [requestUnneeded, sameLock, locked, if_pos rfl]
      · rw [((orphan_iff member).mp orphan).1] at locked
        cases locked
  | false =>
      right
      obtain ⟨univ, filed, kept, test⟩ := @pkgJobsTestAutomatic_search db others j.univ pkg.uid pkg
        depth p collected.filed (InstalledDb.row_eq_some_iff.mpr ⟨inDb, rfl⟩) sameRdeps
      have grown := collected.grow filed kept
      rw [requestUnneeded, sameLock, locked, test]
      cases ends : search db.look db.rdepUids depth pkg.uid with
      | exhausted => exact Or.inl ⟨rfl, by simp, by simp⟩
      | aborted => exact Or.inl ⟨rfl, by simp, by simp⟩
      | returns all =>
          right
          have right := search_returns ends
          cases all with
          | false =>
              refine ⟨false, { j with univ := univ }, rfl, rfl, grown.skip fun orphan => ?_⟩
              cases right.mpr ((orphan_iff member).mp orphan).2
          | true =>
              have orphan := (orphan_iff member).mpr ⟨locked, right.mp rfl⟩
              obtain ⟨j', added, collectedAfter⟩ := grown.request orphan (kept pkg.uid item found)
              refine ⟨true, j', rfl, ?_, collectedAfter⟩
              simp [added]

theorem autoremoveRow_cases (collected : Collected db done j) (member : pkg ∈ db.automatics) :
    (∃ j', autoremoveRow (db.env others) (depth + 1) pkg j = .returns j' ∧
      Collected db (done ++ [pkg]) j' ∧
      (pkg.locked = false → ∃ all, search db.look db.rdepUids (depth + 1) pkg.uid = .returns all)) ∨
    (pkg.locked = false ∧
      (∀ all, search db.look db.rdepUids (depth + 1) pkg.uid ≠ .returns all) ∧
      ∀ j', autoremoveRow (db.env others) (depth + 1) pkg j ≠ .returns j') := by
  have inDb := (List.mem_filter.mp member).1
  have row : db.row pkg.uid = some pkg := InstalledDb.row_eq_some_iff.mpr ⟨inDb, rfl⟩
  -- The row is handled like this once its item is known.
  have handled : ∀ {j : Jobs} {p : Pkg} {item : Addr}, Collected db done j →
      j.univ.find pkg.uid = some item → p.rdeps = pkg.rdeps → p.locked = pkg.locked →
      (∃ j', requestUnneeded (db.env others) (depth + 1) p (some item) j = .returns j' ∧
        Collected db (done ++ [pkg]) j' ∧ (pkg.locked = false →
          ∃ all, search db.look db.rdepUids (depth + 1) pkg.uid = .returns all)) ∨
      (pkg.locked = false ∧
        (∀ all, search db.look db.rdepUids (depth + 1) pkg.uid ≠ .returns all) ∧
        ∀ j', requestUnneeded (db.env others) (depth + 1) p (some item) j ≠ .returns j') := by
    intro j p item collected found sameRdeps sameLock
    rcases @requestUnneeded_cases db others (depth + 1) pkg p item done j collected member found
      sameRdeps sameLock with ⟨locked, ran, after⟩ | endless | ⟨all, j', ends, ran, after⟩
    · refine Or.inl ⟨j, ran, after, fun unlocked => ?_⟩
      rw [locked] at unlocked
      cases unlocked
    · exact Or.inr endless
    · exact Or.inl ⟨j', ran, after, fun _ => ⟨all, ends⟩⟩
  rw [autoremoveRow]
  cases found : j.univ.find pkg.uid with
  | none =>
      obtain ⟨univ, ran, filed, kept, foundAfter⟩ :=
        @Filed.process db others j.univ pkg.uid pkg collected.filed row found depth
      simp only [ran]
      exact handled (collected.grow filed kept) foundAfter rfl rfl
  | some item =>
      obtain ⟨_, other, foundOther, stored⟩ := collected.filed.rows pkg.uid item found
      obtain rfl := Option.some.inj (row.symm.trans foundOther)
      dsimp only
      refine handled collected found ?_ ?_
      · rw [Jobs.pkg, stored, InstalledDb.stored]
      · rw [Jobs.pkg, stored, InstalledDb.stored]

/-- The rows are all handled exactly if the searches of the unlocked ones end. -/
theorem autoremoveRows_cases (collected : Collected db done j)
    (members : ∀ pkg ∈ rest, pkg ∈ db.automatics) :
    (∃ j', autoremoveRows (db.env others) (depth + 1) rest j = .returns j' ∧
      Collected db (done ++ rest) j' ∧ ∀ pkg ∈ rest, pkg.locked = false →
        ∃ all, search db.look db.rdepUids (depth + 1) pkg.uid = .returns all) ∨
    ((∃ pkg ∈ rest, pkg.locked = false ∧
        ∀ all, search db.look db.rdepUids (depth + 1) pkg.uid ≠ .returns all) ∧
      ∀ j', autoremoveRows (db.env others) (depth + 1) rest j ≠ .returns j') := by
  induction rest generalizing done j with
  | nil =>
      rw [List.append_nil]
      refine Or.inl ⟨{ j with solved := 1 }, rfl, ?_, by simp⟩
      exact ⟨collected.filed, collected.type, collected.nodup, collected.orphans,
        collected.complete⟩
  | cons pkg rest ih =>
      rw [autoremoveRows]
      rcases @autoremoveRow_cases db others depth pkg done j collected
        (members pkg (List.mem_cons_self ..)) with
        ⟨mid, ran, after, ends⟩ | ⟨unlocked, endless, ran⟩
      · rw [ran, Ended.returns_bind]
        have continued : done ++ [pkg] ++ rest = done ++ pkg :: rest := by simp
        rcases ih after fun other member => members other (List.mem_cons_of_mem _ member) with
          ⟨last, later, collectedLast, endsRest⟩ | ⟨⟨other, member, endless⟩, later⟩
        · refine Or.inl ⟨last, later, continued ▸ collectedLast, fun other member => ?_⟩
          rcases List.mem_cons.mp member with rfl | inRest
          · exact ends
          · exact endsRest other inRest
        · exact Or.inr ⟨⟨other, List.mem_cons_of_mem _ member, endless⟩, later⟩
      · refine Or.inr ⟨⟨pkg, List.mem_cons_self .., unlocked, endless⟩, fun j' later => ?_⟩
        obtain ⟨mid, ranRow, _⟩ := Ended.bind_eq_returns.mp later
        exact ran mid ranRow

theorem collected_fresh (db : InstalledDb) :
    Collected db [] { univ := {}, type := .autoremove } where
  filed := filed_empty db
  type := rfl
  nodup := List.nodup_nil
  orphans _ member := absurd member List.not_mem_nil
  complete _ member := absurd member List.not_mem_nil

theorem Collected.uids (collected : Collected db db.automatics j) (uid : Uid) :
    uid ∈ j.requestDelete.map (fun item => (j.pkg item).uid) ↔ db.Orphan uid := by
  have uidOf : ∀ {uid item}, j.univ.find uid = some item → (j.pkg item).uid = uid := by
    intro uid item found
    obtain ⟨_, pkg, row, stored⟩ := collected.filed.rows uid item found
    rw [Jobs.pkg, stored, ← (InstalledDb.row_eq_some_iff.mp row).2, InstalledDb.stored]
  constructor
  · intro requested
    obtain ⟨item, member, rfl⟩ := List.mem_map.mp requested
    obtain ⟨uid, found, orphan⟩ := collected.orphans item member
    rw [uidOf found]
    exact orphan
  · rintro ⟨pkg, member, rfl, automatic, unlocked, confirmed⟩
    obtain ⟨item, requested, found⟩ := collected.complete pkg
      (List.mem_filter.mpr ⟨member, automatic⟩) ⟨pkg, member, rfl, automatic, unlocked, confirmed⟩
    exact List.mem_map.mpr ⟨item, requested, uidOf found⟩

/-- One depth that is enough for all searches of a list. -/
theorem common_depth {uids : List Uid}
    (ends : ∀ uid ∈ uids, ∃ depth all, search db.look db.rdepUids depth uid = .returns all) :
    ∃ depth, ∀ uid ∈ uids, ∃ all, search db.look db.rdepUids (depth + 1) uid = .returns all := by
  induction uids with
  | nil => exact ⟨0, by simp⟩
  | cons uid rest ih =>
      obtain ⟨depth, all, ran⟩ := ends uid (List.mem_cons_self ..)
      obtain ⟨depthRest, ranRest⟩ :=
        ih fun other member => ends other (List.mem_cons_of_mem _ member)
      refine ⟨max depth depthRest, fun other member => ?_⟩
      rcases List.mem_cons.mp member with rfl | inRest
      · exact ⟨all, search_mono ran (by omega)⟩
      · obtain ⟨below, ranBelow⟩ := ranRest other inRest
        exact ⟨below, search_mono ranBelow (by omega)⟩

end Requests

namespace InstalledDb

theorem not_stuck_iff {db : InstalledDb} {uid : Uid} :
    ¬ db.Stuck uid ↔ ∃ depth all, search db.look db.rdepUids depth uid = .returns all := by
  rw [search_ends_iff db.confirms_finite, Stuck]
  simp only [not_exists, not_and, not_or]

/-- Where the job selects the orphans, it has been through all the searches. -/
theorem searches_end {db : InstalledDb} {others : Env} (selects : db.SelectsOrphans others)
    {pkg : Pkg} (member : pkg ∈ db.pkgs) (automatic : pkg.automatic = true)
    (unlocked : pkg.locked = false) :
    ∃ depth all, search db.look db.rdepUids depth pkg.uid = .returns all := by
  obtain ⟨depth, j, ran, _⟩ := selects
  have inRows : pkg ∈ db.automatics := List.mem_filter.mpr ⟨member, automatic⟩
  obtain ⟨_, ranRows, _⟩ := Ended.map_eq_returns.mp ran
  cases depth with
  | zero =>
      -- Without any depth not even the first row is handled.
      cases rows : db.automatics with
      | nil =>
          rw [rows] at inRows
          cases inRows
      | cons first rest =>
          rw [rows, autoremoveRows, autoremoveRow] at ranRows
          simp [JobsUniverse.find, pkgJobsUniverseProcessItem] at ranRows
  | succ depth =>
      rcases @autoremoveRows_cases db others depth [] db.automatics _ (collected_fresh db)
        fun _ m => m with ⟨_, _, _, ends⟩ | ⟨_, endless⟩
      · exact ⟨depth + 1, ends pkg inRows unlocked⟩
      · exact absurd ranRows (endless _)

/-- Where all the searches end, the job selects the orphans. -/
theorem selects_of_ends (db : InstalledDb) (others : Env)
    (free : ∀ pkg ∈ db.pkgs, pkg.automatic = true → pkg.locked = false →
      ∃ depth all, search db.look db.rdepUids depth pkg.uid = .returns all) :
    db.SelectsOrphans others := by
  obtain ⟨depth, ends⟩ := @common_depth db
    ((db.automatics.filter fun pkg => !pkg.locked).map Pkg.uid) fun uid member => by
      obtain ⟨pkg, inRows, rfl⟩ := List.mem_map.mp member
      obtain ⟨inRows, unlocked⟩ := List.mem_filter.mp inRows
      obtain ⟨inDb, automatic⟩ := List.mem_filter.mp inRows
      exact free pkg inDb automatic (by simpa using unlocked)
  rcases @autoremoveRows_cases db others depth [] db.automatics _ (collected_fresh db)
    fun _ m => m with ⟨j, ran, collected, _⟩ | ⟨⟨pkg, inRows, unlocked, endless⟩, _⟩
  · exact ⟨depth + 1, j, by rw [jobsSolveAutoremove, ran, Ended.returns_map], collected.nodup,
      collected.uids⟩
  · obtain ⟨all, ran⟩ := ends pkg.uid (List.mem_map.mpr
      ⟨pkg, List.mem_filter.mpr ⟨inRows, by simp [unlocked]⟩, rfl⟩)
    exact absurd ran (endless all)

/-- The job selects the orphans exactly if no test of an unlocked automatic
package comes round a cycle or to a package that is not installed. -/
theorem selectsOrphans_iff (db : InstalledDb) (others : Env) :
    db.SelectsOrphans others ↔
      ∀ pkg ∈ db.pkgs, pkg.automatic = true → pkg.locked = false → ¬ db.Stuck pkg.uid := by
  constructor
  · intro selects pkg member automatic unlocked
    exact not_stuck_iff.mpr (searches_end selects member automatic unlocked)
  · intro free
    exact selects_of_ends db others fun pkg member automatic unlocked =>
      not_stuck_iff.mp (free pkg member automatic unlocked)

/-- Two automatic packages that depend on each other. -/
def mutualPair : InstalledDb where
  pkgs :=
    [{ type := .installed, uid := "app", digest := some "1", automatic := true,
       rdeps := [⟨"lib", "lib", ""⟩] },
      { type := .installed, uid := "lib", digest := some "2", automatic := true,
        rdeps := [⟨"app", "app", ""⟩] }]
  checksum := Pkg.digest
  installed := by decide
  uidsNodup := by decide
  digested := by simp [digestOf]
  digestsNodup := by decide

/-- The test of either of the two never ends. -/
theorem mutualPair_not_selected :
    ¬ mutualPair.SelectsOrphans
      { query := fun _ => []
        repoQuery := fun _ => []
        shlibProvide := fun _ => none
        versionCmp := fun _ _ => 0
        checksum := Pkg.digest } := by
  intro selects
  obtain ⟨depth, all, ran⟩ := searches_end selects (List.mem_cons_self ..) rfl rfl
  have round : TransGen (Enters mutualPair.look mutualPair.rdepUids) "app" "app" := by
    refine .head (b := "lib") ⟨[], [], by decide, by simp [Passes], by decide⟩ (.single ?_)
    exact ⟨[], [], by decide, by simp [Passes], by decide⟩
  exact not_cycle_of_acc (acc_of_search ran) round

end InstalledDb

end Pkgng
