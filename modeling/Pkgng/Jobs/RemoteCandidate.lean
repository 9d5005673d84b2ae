import Pkgng.Jobs.LockedPackages
import Pkgng.Jobs.PropagateAutomatic
import Pkgng.Jobs.Replacements

/-!
# Candidates under another uid

`pkg_jobs_try_remote_candidate` offers packages of the repositories in place of an installed one
that has no candidate of its own uid.  An accepted one has the chain of the installed package
renamed before `pkg_jobs_process_remote_pkg` looks at it.
-/

set_option autoImplicit false

namespace Pkgng

open Lib

/-! ## `pkg_jobs_process_remote_pkg` -/

/-- The code, what `*unit` is set to, and the jobs. -/
abbrev ProcessedRemote := Option (Epkg × Option Addr × Jobs)

section Process

variable (env : Env) (fuel : Nat)

/-- The walk back along a chain from an item that has been seen, to one that is not installed. -/
def seenRemote (u : JobsUniverse) (start : Addr) : Nat → Addr → Option Addr
  | 0, _ => none
  | steps + 1, jit =>
      if (u.pkg jit).isInstalled = false then some jit
      else if u.links.prev jit = start then none
      else seenRemote u start steps (u.links.prev jit)

/-- The package is in the universe, and not forced. -/
def remoteSeen (j : Jobs) (un : Addr) : ProcessedRemote :=
  match seenRemote j.univ un j.univ.pkgs.length un with
  | none => some (.installed, none, j)
  | some jit => (pkgJobsAddReq j (some jit)).map fun j => (.installed, none, j)

/-- A forced insertion, with the flag of another item or its own: the new item, the package and
the universe. -/
def forceAdd (u : JobsUniverse) (rp : Pkg) (source : Option Addr) :
    Option (Addr × Pkg × JobsUniverse) :=
  match pkgJobsUniverseAddPkg env.checksum u rp true with
  | (_, none, _) => none
  | (_, some jit, u) =>
      let rp := rp.setAutomatic (u.pkg (source.getD jit)).automatic
      some (jit, rp, u.setAutomatic [jit] rp.automatic)

/-- The package is in the universe, and forced. -/
def remoteSeenForced (j : Jobs) (rp : Pkg) (un : Addr) : ProcessedRemote :=
  match (j.univ.chain un).find? fun cur => !(j.univ.pkg cur).isInstalled with
  | none => do
      let (jit, rp, u) ← forceAdd env j.univ rp (some un)
      let (rc, _, u) ← pkgJobsUniverseProcessItem env fuel u rp
      let j := { j with univ := u }
      let j ← if rc = .ok then pkgJobsAddReq j (some jit) else some j
      pure (.ok, some jit, j)
  | some jit => do
      let (jit, u) ←
        if pkgJobsNeedUpgrade env.versionCmp rp (some (j.univ.pkg jit)) then do
          let (jit, rp, u) ← forceAdd env j.univ rp (some un)
          let (_, _, u) ← pkgJobsUniverseProcessItem env fuel u rp
          pure (jit, u)
        else pure (jit, j.univ)
      -- The search for a request is given the item for a pointer to it, and finds none.
      let j ← pkgJobsAddReq { j with univ := u } (some jit)
      pure (.ok, some jit, j)

/-- How the loop over the chain of the package's uid ends. -/
inductive ChainVerdict
  | exhausted
  | upgrade
  | installed
  | newer (rjit : Addr)
deriving DecidableEq, Repr

def chainVerdict (u : JobsUniverse) (rp : Pkg) (force : Bool) : List Addr → ChainVerdict
  | [] => .exhausted
  | rjit :: rest =>
      if pkgJobsNeedUpgrade env.versionCmp rp (some (u.pkg rjit)) then .upgrade
      else if (u.pkg rjit).isInstalled then
        if force then chainVerdict u rp force rest else .installed
      else .newer rjit

/-- The closing lines; `*result` is `jit` where that is null. -/
def remotePopulate (j : Jobs) (rp : Pkg) (jit : Option Addr) : ProcessedRemote := do
  let (rc, result, u) ← pkgJobsUniverseProcessItem env fuel j.univ rp
  let j := { j with univ := u }
  if rc = .ok then
    let j ← pkgJobsAddReq j (jit.or result)
    pure (.ok, jit.or result, j)
  else pure (rc, none, j)

/-- The head of the chain of the package's uid; without a chain the installed package is added. -/
def remoteHead (u : JobsUniverse) (rp : Pkg) : Option (Option Addr × JobsUniverse) :=
  match u.find rp.uid with
  | some jit => some (some jit, u)
  | none =>
      if env.type = .fetch then some (none, u)
      else
        match pkgJobsUniverseGetLocal env u rp.uid with
        | none => some (none, u)
        | some lp => (pkgJobsUniverseProcessItem env fuel u lp).map fun answer => answer.2

/-- The package is not in the universe. -/
def remoteUnseen (j : Jobs) (rp : Pkg) (force : Bool) : ProcessedRemote := do
  let (jit, u) ← remoteHead env fuel j.univ rp
  let j := { j with univ := u }
  match jit with
  | none => remotePopulate env fuel j rp none
  | some jit =>
      match chainVerdict env u rp force (u.chain jit) with
      | .installed => pure (.installed, none, j)
      | .newer rjit => (pkgJobsAddReq j (some rjit)).map fun j => (.ok, none, j)
      | .upgrade => remotePopulate env fuel j rp none
      | .exhausted =>
          if force then do
            let (jit, rp, u) ← forceAdd env u rp none
            remotePopulate env fuel { j with univ := u } rp (some jit)
          else remotePopulate env fuel j rp (some jit)

def pkgJobsProcessRemotePkg (j : Jobs) (rp : Pkg) (force : Bool) : ProcessedRemote :=
  match digestOf env.checksum rp with
  | none => some (.fatal, none, j)
  | some digest =>
      let rp := { rp with digest := some digest }
      match HashTable.find digest j.univ.seen with
      | some un => if force then remoteSeenForced env fuel j rp un else remoteSeen j un
      | none => remoteUnseen env fuel j rp force

/-! ## `pkg_jobs_try_remote_candidate` -/

/-- `pkg_validate` of a package with a uid: a digest that is missing or not valid is made anew. -/
def pkgValidate (checksumIsValid : Digest → Bool) (pkg : Pkg) : Pkg :=
  match pkg.digest.filter checksumIsValid with
  | some _ => pkg
  | none => { pkg with digest := (env.checksum pkg).or pkg.digest }

/-- The question to the user. -/
def candidateQuestion (uid fuid : Uid) : String :=
  uid ++ " has no direct installation candidates, change it to " ++ fuid ++ "? [Y/n]: "

/-- The first row that the user accepts, by the number of the question and its text. -/
def acceptedRow (yes : Nat → String → Bool) (uid : Uid) : Nat → List Pkg → Option Pkg
  | _, [] => none
  | n, p :: rest =>
      if yes n (candidateQuestion uid p.uid) then some p else acceptedRow yes uid (n + 1) rest

/-- The chain of the old uid, if there is one, goes to the new one. -/
def renameFound (u : JobsUniverse) (uid fuid : Uid) : Option JobsUniverse :=
  match u.find uid with
  | some unit => pkgJobsUniverseChangeUid env fuel u unit fuid false
  | none => some u

/-- What is done with the accepted row. -/
def tryAccepted (checksumIsValid : Digest → Bool) (uid : Uid) (j : Jobs) (p : Pkg) :
    Option (Epkg × Jobs) :=
  (renameFound env fuel j.univ uid p.uid).bind fun u =>
    (pkgJobsProcessRemotePkg env fuel { j with univ := u } (pkgValidate env checksumIsValid p)
      false).map fun answer => (answer.1, answer.2.2)

/-- `pkg_jobs_try_remote_candidate`, with the rows of `pkgdb_repo_query`, which may fail. -/
def pkgJobsTryRemoteCandidate (checksumIsValid : Digest → Bool) (yes : Nat → String → Bool)
    (uid : Uid) (rows : Option (List Pkg)) (j : Jobs) : Option (Epkg × Jobs) :=
  match rows with
  | none => some (.fatal, j)
  | some rows =>
      match acceptedRow yes uid 0 rows with
      | none => some (.fatal, j)
      | some p => tryAccepted env fuel checksumIsValid uid j p

end Process

/-! ## Traces -/

/-- The items there were have their uids, their chains are filed under these, and no replacement
has been recorded. -/
structure NoTrace (u u' : JobsUniverse) : Prop where
  names : KeepsNames u u'
  filed : ∀ entry ∈ u.items, entry ∈ u'.items

namespace NoTrace

theorem refl (u : JobsUniverse) : NoTrace u u := ⟨.refl u, fun _ filed => filed⟩

theorem trans {u v w : JobsUniverse} (first : NoTrace u v) (second : NoTrace v w) : NoTrace u w :=
  ⟨first.names.trans second.names, fun entry filed => second.filed entry (first.filed entry filed)⟩

end NoTrace

section Frame

variable {env : Env} {fuel : Nat}

theorem processItem_noTrace {u u' : JobsUniverse} {pkg : Pkg} {rc : Epkg} {unit : Option Addr}
    (ran : pkgJobsUniverseProcessItem env fuel u pkg = some (rc, unit, u')) : NoTrace u u' where
  names := by
    have start : SameBelow u u.pkgs.length u := ⟨Nat.le_refl _, fun _ _ => rfl, rfl⟩
    exact ((processItem_sameBelow fuel u pkg start trivial).2 _ ran).2.keepsNames
  filed _ filed := (processItem_evolves fuel u pkg rc unit u' ran).items_mono filed

theorem univ_pkgJobsAddReq {j j' : Jobs} {item : Option Addr}
    (added : pkgJobsAddReq j item = some j') : j'.univ = j.univ := by
  obtain ⟨item, _, added⟩ := Option.bind_eq_some_iff.mp added
  split at added
  · split at added
    · split at added <;> cases added <;> rfl
    · cases added
  · split at added
    · cases added
    · split at added <;> cases added <;> rfl

theorem remotePopulate_noTrace {j j' : Jobs} {rp : Pkg} {jit unit : Option Addr} {rc : Epkg}
    (ran : remotePopulate env fuel j rp jit = some (rc, unit, j')) : NoTrace j.univ j'.univ := by
  obtain ⟨⟨code, result, u⟩, processed, ran⟩ := Option.bind_eq_some_iff.mp ran
  dsimp only at ran
  split at ran
  · obtain ⟨k, added, ran⟩ := Option.bind_eq_some_iff.mp ran
    cases ran
    rw [univ_pkgJobsAddReq added]
    exact processItem_noTrace processed
  · cases ran
    exact processItem_noTrace processed

theorem remoteHead_noTrace {u u' : JobsUniverse} {rp : Pkg} {jit : Option Addr}
    (ran : remoteHead env fuel u rp = some (jit, u')) : NoTrace u u' := by
  unfold remoteHead at ran
  split at ran
  · cases ran
    exact .refl u
  · split at ran
    · cases ran
      exact .refl u
    · split at ran
      · cases ran
        exact .refl u
      · obtain ⟨⟨code, result, v⟩, processed, same⟩ := Option.map_eq_some_iff.mp ran
        cases same
        exact processItem_noTrace processed

/-- Without force no uid is changed. -/
theorem processRemotePkg_noTrace {j j' : Jobs} {rp : Pkg} {unit : Option Addr} {rc : Epkg}
    (ran : pkgJobsProcessRemotePkg env fuel j rp false = some (rc, unit, j')) :
    NoTrace j.univ j'.univ := by
  unfold pkgJobsProcessRemotePkg at ran
  split at ran
  · cases ran
    exact .refl _
  · dsimp only at ran
    split at ran
    · rw [if_neg Bool.false_ne_true] at ran
      unfold remoteSeen at ran
      split at ran
      · cases ran
        exact .refl _
      · obtain ⟨k, added, same⟩ := Option.map_eq_some_iff.mp ran
        cases same
        rw [univ_pkgJobsAddReq added]
        exact .refl _
    · obtain ⟨⟨jit, u⟩, head, ran⟩ := Option.bind_eq_some_iff.mp ran
      refine (remoteHead_noTrace head).trans ?_
      dsimp only at ran
      split at ran
      · exact remotePopulate_noTrace ran
      · split at ran
        · cases ran
          exact .refl _
        · obtain ⟨k, added, same⟩ := Option.map_eq_some_iff.mp ran
          cases same
          rw [univ_pkgJobsAddReq added]
          exact .refl _
        · exact remotePopulate_noTrace ran
        · rw [if_neg Bool.false_ne_true] at ran
          exact remotePopulate_noTrace ran

end Frame

/-! ## After a rename -/

section Renamed

variable {env : Env} {fuel : Nat} {u : JobsUniverse} {unit : Addr} {newUid : Uid}

/-- The head of the chain that a package of the uid finds once the item has been renamed to it. -/
def firstRival (u : JobsUniverse) (unit : Addr) (newUid : Uid) : Addr :=
  (HashTable.find newUid (HashTable.delete unit u.items)).getD unit

theorem moveUid_find (u : JobsUniverse) (unit : Addr) (oldUid newUid : Uid) :
    (moveUid u unit oldUid newUid).find newUid = some (firstRival u unit newUid) := by
  unfold moveUid firstRival
  cases found : HashTable.find newUid (HashTable.delete unit u.items) with
  | none =>
      simp only [JobsUniverse.modifyPkg, found, JobsUniverse.find, HashTable.find_add_self,
        Option.getD_none]
  | some first =>
      simp only [JobsUniverse.modifyPkg, found, JobsUniverse.find, Option.getD_some]

/-- A rename leaves everything of a package but the uid. -/
theorem moveUid_pkg (u : JobsUniverse) (unit : Addr) (oldUid newUid : Uid) (item : Addr) :
    ∃ uid, (moveUid u unit oldUid newUid).pkg item = { u.pkg item with uid := uid } := by
  rw [JobsUniverse.pkg_moveUid]
  by_cases same : item = unit
  · by_cases inBounds : unit < u.pkgs.length
    · rw [same, JobsUniverse.pkg_modifyPkg_self _ inBounds]
      exact ⟨newUid, rfl⟩
    · refine ⟨(u.pkg item).uid, ?_⟩
      rw [JobsUniverse.modifyPkg, List.modify_eq_self (Nat.le_of_not_lt inBounds)]
  · rw [JobsUniverse.pkg_modifyPkg_other _ same]
    exact ⟨(u.pkg item).uid, rfl⟩

/-- The package with the digest that it is looked up under. -/
def withDigest (env : Env) (p : Pkg) : Pkg := { p with digest := digestOf env.checksum p }

/-- A candidate whose rename goes through: its digest is known and new; compared with the head of
its chain it is an upgrade, and what belongs to it is found, or that one is not installed. -/
structure Succeeds (env : Env) (fuel : Nat) (u : JobsUniverse) (unit : Addr) (p : Pkg) : Prop where
  fresh : ∃ digest, digestOf env.checksum p = some digest ∧ HashTable.find digest u.seen = none
  newer : pkgJobsNeedUpgrade env.versionCmp (withDigest env p)
      (some (u.pkg (firstRival u unit p.uid))) = false →
    (u.pkg (firstRival u unit p.uid)).isInstalled = false
  populates : pkgJobsNeedUpgrade env.versionCmp (withDigest env p)
      (some (u.pkg (firstRival u unit p.uid))) = true →
    ∀ rc result u', pkgJobsUniverseProcessItem env fuel
      (moveUid u unit (u.pkg unit).uid p.uid) (withDigest env p) = some (rc, result, u') → rc = .ok

theorem seenRemote_notInstalled {start jit found : Addr} {steps : Nat}
    (meets : seenRemote u start steps jit = some found) : (u.pkg found).isInstalled = false := by
  induction steps generalizing jit with
  | zero => cases meets
  | succ steps ih =>
      rw [seenRemote] at meets
      split at meets
      · next remote =>
          cases meets
          exact remote
      · split at meets
        · cases meets
        · exact ih meets

/-- An item that is not installed can be requested by a job that is not a removal. -/
theorem pkgJobsAddReq_remote {j : Jobs} (adds : j.type ≠ .deinstall ∧ j.type ≠ .autoremove)
    {item : Addr} (remote : (j.univ.pkg item).isInstalled = false) :
    ∃ j', pkgJobsAddReq j (some item) = some j' := by
  have removal : ¬(j.type = .deinstall ∨ j.type = .autoremove) := not_or.mpr adds
  rw [pkgJobsAddReq, Option.bind_eq_bind, Option.bind_some, if_neg removal, Jobs.pkg, remote,
    if_neg Bool.false_ne_true]
  split <;> exact ⟨_, rfl⟩

theorem remoteSeen_installed {j : Jobs} (adds : j.type ≠ .deinstall ∧ j.type ≠ .autoremove)
    (un : Addr) : ∃ j', remoteSeen j un = some (.installed, none, j') := by
  unfold remoteSeen
  split
  · exact ⟨_, rfl⟩
  · next jit meets =>
      obtain ⟨j', added⟩ := pkgJobsAddReq_remote adds (seenRemote_notInstalled meets)
      rw [added]
      exact ⟨_, rfl⟩

/-- The code is that of `pkg_jobs_universe_process_item`. -/
theorem remotePopulate_ok_iff {j : Jobs} {rp : Pkg} :
    (∀ rc unit j', remotePopulate env fuel j rp none = some (rc, unit, j') → rc = .ok) ↔
      ∀ rc result u', pkgJobsUniverseProcessItem env fuel j.univ rp = some (rc, result, u') →
        rc = .ok := by
  constructor
  · intro succeeds rc result u' ran
    by_contra failed
    have populated : remotePopulate env fuel j rp none =
        some (rc, none, { j with univ := u' }) := by
      rw [remotePopulate, ran, Option.bind_eq_bind, Option.bind_some]
      dsimp only
      rw [if_neg failed]
      rfl
    exact failed (succeeds _ _ _ populated)
  · intro succeeds rc unit j' ran
    obtain ⟨⟨code, result, u⟩, processed, ran⟩ := Option.bind_eq_some_iff.mp ran
    have ok := succeeds _ _ _ processed
    dsimp only at ran
    rw [if_pos ok] at ran
    obtain ⟨k, _, ran⟩ := Option.bind_eq_some_iff.mp ran
    cases ran
    rfl

/-- Of a chain that is there only the first item is compared. -/
theorem remoteUnseen_of_found {j : Jobs} {rp : Pkg} {first : Addr} {rest : List Addr}
    (found : j.univ.find rp.uid = some first) (cons : j.univ.chain first = first :: rest) :
    remoteUnseen env fuel j rp false =
      if pkgJobsNeedUpgrade env.versionCmp rp (some (j.univ.pkg first)) then
        remotePopulate env fuel j rp none
      else if (j.univ.pkg first).isInstalled then some (.installed, none, j)
      else (pkgJobsAddReq j (some first)).map fun j => (.ok, none, j) := by
  rw [remoteUnseen, remoteHead, found]
  dsimp only
  rw [Option.bind_eq_bind, Option.bind_some]
  dsimp only
  rw [cons, chainVerdict]
  by_cases upgrade : pkgJobsNeedUpgrade env.versionCmp rp (some (j.univ.pkg first)) = true
  · rw [if_pos upgrade, if_pos upgrade]
  · rw [if_neg upgrade, if_neg upgrade]
    by_cases installed : (j.univ.pkg first).isInstalled = true
    · rw [if_pos installed, if_pos installed, if_neg Bool.false_ne_true]
      rfl
    · rw [if_neg installed, if_neg installed]

/-- The universe is not empty, so the chain of the new uid has its head. -/
theorem moveUid_chain (inv : u.Chained) {uid : Uid} (found : u.find uid = some unit)
    (oldUid newUid : Uid) :
    ∃ rest, (moveUid u unit oldUid newUid).chain (firstRival u unit newUid) =
      firstRival u unit newUid :: rest := by
  have filed := HashTable.mem_of_find found
  have below : unit < u.pkgs.length :=
    inv.inBounds unit (JobsUniverse.mem_units.mpr ⟨_, filed, JobsUniverse.head_mem inv filed⟩)
  obtain ⟨size, isSize⟩ := Nat.exists_eq_succ_of_ne_zero (Nat.ne_of_gt (Nat.zero_lt_of_lt below))
  rw [JobsUniverse.chain, JobsUniverse.length_moveUid, isSize]
  exact ⟨_, rfl⟩

/-- After the rename the candidate is compared with the head of its chain. -/
theorem remoteUnseen_moveUid {j : Jobs} (inv : j.univ.Chained) {uid : Uid}
    (found : j.univ.find uid = some unit) {p moved : Pkg} (sameUid : moved.uid = p.uid) :
    remoteUnseen env fuel
        { j with univ := moveUid j.univ unit (j.univ.pkg unit).uid p.uid } moved false =
      if pkgJobsNeedUpgrade env.versionCmp moved
          (some (j.univ.pkg (firstRival j.univ unit p.uid))) then
        remotePopulate env fuel
          { j with univ := moveUid j.univ unit (j.univ.pkg unit).uid p.uid } moved none
      else if (j.univ.pkg (firstRival j.univ unit p.uid)).isInstalled then
        some (.installed, none,
          { j with univ := moveUid j.univ unit (j.univ.pkg unit).uid p.uid })
      else (pkgJobsAddReq { j with univ := moveUid j.univ unit (j.univ.pkg unit).uid p.uid }
        (some (firstRival j.univ unit p.uid))).map fun j => (.ok, none, j) := by
  have isFirst := moveUid_find j.univ unit (j.univ.pkg unit).uid p.uid
  obtain ⟨uid', isPkg⟩ := moveUid_pkg j.univ unit (j.univ.pkg unit).uid p.uid
    (firstRival j.univ unit p.uid)
  obtain ⟨rest, cons⟩ := moveUid_chain inv found (j.univ.pkg unit).uid p.uid
  rw [← sameUid] at isFirst cons isPkg ⊢
  rw [remoteUnseen_of_found isFirst cons]
  dsimp only
  rw [isPkg]
  -- Neither the comparison nor the kind of a package reads its uid.
  rfl

/-- The rename of a candidate goes through exactly if `pkg_jobs_process_remote_pkg` returns
nothing but `EPKG_OK`. -/
theorem processRemotePkg_ok_iff {j : Jobs} (inv : j.univ.Chained)
    (adds : j.type ≠ .deinstall ∧ j.type ≠ .autoremove) {uid : Uid}
    (found : j.univ.find uid = some unit) (p : Pkg) :
    (∀ rc result j', pkgJobsProcessRemotePkg env fuel
        { j with univ := moveUid j.univ unit (j.univ.pkg unit).uid p.uid } p false =
          some (rc, result, j') → rc = .ok) ↔ Succeeds env fuel j.univ unit p := by
  have seen := moveUid_seen j.univ unit (j.univ.pkg unit).uid p.uid
  have compared := @remoteUnseen_moveUid env fuel unit j inv uid found p (withDigest env p) rfl
  have populates := @remotePopulate_ok_iff env fuel
    { j with univ := moveUid j.univ unit (j.univ.pkg unit).uid p.uid } (withDigest env p)
  unfold pkgJobsProcessRemotePkg
  cases isDigest : digestOf env.checksum p with
  | none =>
      refine iff_of_false (fun all => ?_) fun succeeds => ?_
      · exact Epkg.noConfusion (all _ _ _ rfl)
      · obtain ⟨digest, isSome, _⟩ := succeeds.fresh
        rw [isDigest] at isSome
        cases isSome
  | some digest =>
      have filled : { p with digest := some digest } = withDigest env p := by
        rw [withDigest, isDigest]
      dsimp only
      rw [filled, seen]
      cases isSeen : HashTable.find digest j.univ.seen with
      | some un =>
          refine iff_of_false (fun all => ?_) fun succeeds => ?_
          · obtain ⟨j', ran⟩ := remoteSeen_installed
              (j := { j with univ := moveUid j.univ unit (j.univ.pkg unit).uid p.uid }) adds un
            exact Epkg.noConfusion (all _ _ _ ran)
          · obtain ⟨other, isSome, fresh⟩ := succeeds.fresh
            rw [isDigest, Option.some.injEq] at isSome
            rw [← isSome, isSeen] at fresh
            cases fresh
      | none =>
          dsimp only
          rw [compared]
          have fresh : ∃ digest, digestOf env.checksum p = some digest ∧
              HashTable.find digest j.univ.seen = none := ⟨digest, isDigest, isSeen⟩
          by_cases upgrade : pkgJobsNeedUpgrade env.versionCmp (withDigest env p)
              (some (j.univ.pkg (firstRival j.univ unit p.uid))) = true
          · rw [if_pos upgrade, populates]
            refine ⟨fun ok => ⟨fresh, fun older => ?_, fun _ => ok⟩,
              fun succeeds => succeeds.populates upgrade⟩
            rw [upgrade] at older
            cases older
          · rw [if_neg upgrade]
            cases isLocal : (j.univ.pkg (firstRival j.univ unit p.uid)).isInstalled with
            | true =>
                rw [if_pos rfl]
                refine iff_of_false (fun all => ?_) fun succeeds => ?_
                · exact Epkg.noConfusion (all _ _ _ rfl)
                · have remote := succeeds.newer (Bool.not_eq_true _ ▸ upgrade)
                  rw [isLocal] at remote
                  cases remote
            | false =>
                rw [if_neg Bool.false_ne_true]
                refine iff_of_true (fun rc result j' ran => ?_)
                  ⟨fresh, fun _ => isLocal, fun needs => absurd needs upgrade⟩
                obtain ⟨k, _, same⟩ := Option.map_eq_some_iff.mp ran
                cases same
                rfl

end Renamed

/-! ## The candidate -/

section Candidate

variable (env : Env) (fuel : Nat) (checksumIsValid : Digest → Bool) (yes : Nat → String → Bool)

/-- Unless the call succeeds it leaves no trace. -/
def LeavesNoTrace (uid : Uid) (rows : Option (List Pkg)) (j : Jobs) : Prop :=
  ∀ rc j', pkgJobsTryRemoteCandidate env fuel checksumIsValid yes uid rows j = some (rc, j') →
    rc ≠ .ok → NoTrace j.univ j'.univ

theorem uid_pkgValidate (p : Pkg) : (pkgValidate env checksumIsValid p).uid = p.uid := by
  unfold pkgValidate
  split <;> rfl

/-- Once an item is renamed there is a trace. -/
theorem not_noTrace_of_moved {u v : JobsUniverse} {unit : Addr} {oldUid newUid : Uid}
    (later : NoTrace (moveUid u unit oldUid newUid) v) : ¬NoTrace u v := by
  intro none
  have recorded := later.names.uidReplaces
  rw [none.names.uidReplaces, moveUid_uidReplaces] at recorded
  exact List.cons_ne_self _ _ recorded.symm

theorem tryAccepted_absent {uid : Uid} {j : Jobs} {p : Pkg} (absent : j.univ.find uid = none) :
    tryAccepted env fuel checksumIsValid uid j p =
      (pkgJobsProcessRemotePkg env fuel j (pkgValidate env checksumIsValid p) false).map
        fun answer => (answer.1, answer.2.2) := by
  rw [tryAccepted, renameFound, absent]
  rfl

theorem tryAccepted_found {uid : Uid} {j : Jobs} {p : Pkg} {unit : Addr}
    (found : j.univ.find uid = some unit) :
    tryAccepted env fuel checksumIsValid uid j p =
      (pkgJobsProcessRemotePkg env fuel
        { j with univ := moveUid j.univ unit (j.univ.pkg unit).uid p.uid }
          (pkgValidate env checksumIsValid p) false).map fun answer => (answer.1, answer.2.2) := by
  rw [tryAccepted, renameFound, found]
  rfl

/-- With a chain for the uid only success leaves what is asked for. -/
theorem tryAccepted_noTrace_iff {uid : Uid} {j : Jobs} {p : Pkg} {unit : Addr}
    (found : j.univ.find uid = some unit) :
    (∀ rc j', tryAccepted env fuel checksumIsValid uid j p = some (rc, j') → rc ≠ .ok →
        NoTrace j.univ j'.univ) ↔
      ∀ rc result j', pkgJobsProcessRemotePkg env fuel
        { j with univ := moveUid j.univ unit (j.univ.pkg unit).uid p.uid }
          (pkgValidate env checksumIsValid p) false = some (rc, result, j') → rc = .ok := by
  rw [tryAccepted_found _ _ _ found]
  constructor
  · intro none rc result j' processed
    by_contra failed
    refine not_noTrace_of_moved (processRemotePkg_noTrace processed) (none rc j' ?_ failed)
    rw [processed]
    rfl
  · intro succeeds rc j' ran failed
    obtain ⟨⟨code, result, k⟩, processed, same⟩ := Option.map_eq_some_iff.mp ran
    cases same
    exact absurd (succeeds _ _ _ processed) failed

end Candidate

/-! ## Two candidates -/

/-- An install job with the installed package `p~o` of version 2. -/
def staleInstalled : Jobs where
  univ := JobsUniverse.ofPackages (fun _ => none)
    [{ type := .installed, uid := "p~o", version := "2", digest := some "l" }]

/-- The package `q~o` of version 1. -/
def olderCandidate : Pkg := { type := .remote, uid := "q~o", version := "1", digest := some "r" }

/-- A version comparison of one digit. -/
def digitEnv : Env :=
  { emptyEnv with versionCmp := fun a b => if a = b then 0 else if a < b then -1 else 1 }

end Pkgng
