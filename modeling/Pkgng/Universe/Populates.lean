import Pkgng.Universe.Evolve
import Pkgng.Lib.Follows

/-!
# Rules for populating the universe

The loops of `pkg_jobs_universe_process_item` take the recursive call as a
parameter.  What is shown here of each of them holds for any two such calls of
which one follows the other, and for any invariant that messages, recorded
providers and refills keep; the insertion is left to the call.  The invariant may depend on
which items are refilled: only those that the loop itself has added.
-/

set_option autoImplicit false

namespace Pkgng

open Lib

/-- An invariant of the universe and a property of the packages on the way
through the loops. -/
structure Populates (env : Env) (inv : JobsUniverse → Prop) (ok : Pkg → Prop) : Prop where
  query : ∀ uid, ∀ pkg ∈ env.query uid, ok pkg
  repoQuery : ∀ uid, ∀ pkg ∈ env.repoQuery uid, ok pkg
  provide : ∀ shlib rows, env.shlibProvide shlib = some rows → ∀ row ∈ rows, ok row
  automatic : ∀ pkg automatic, ok pkg → ok { pkg with automatic := automatic }
  held : ∀ u, inv u → ∀ item, ok (u.pkg item)
  emit : ∀ u message, inv u → inv (u.emitError message)
  record : ∀ u shlib prhead un, inv u → inv (u.recordProvide shlib prhead un).2
  refill : ∀ u owners shlib rows, env.shlibProvide shlib = some rows → ∀ row ∈ rows,
    inv u → inv (u.refill owners row)

/-- The same where the items that a row iterator owns are known to be fresh. -/
structure PopulatesFresh (env : Env) (inv : JobsUniverse → Prop) (ok : Pkg → Prop)
    (fresh : Addr → Prop) : Prop where
  query : ∀ uid, ∀ pkg ∈ env.query uid, ok pkg
  repoQuery : ∀ uid, ∀ pkg ∈ env.repoQuery uid, ok pkg
  provide : ∀ shlib rows, env.shlibProvide shlib = some rows → ∀ row ∈ rows, ok row
  automatic : ∀ pkg automatic, ok pkg → ok { pkg with automatic := automatic }
  held : ∀ u, inv u → ∀ item, ok (u.pkg item)
  emit : ∀ u message, inv u → inv (u.emitError message)
  record : ∀ u shlib prhead un, inv u → inv (u.recordProvide shlib prhead un).2
  next : ∀ u, inv u → fresh u.pkgs.length
  refill : ∀ u owners shlib rows, env.shlibProvide shlib = some rows → ∀ row ∈ rows,
    (∀ owner ∈ owners, fresh owner) → inv u → inv (u.refill owners row)

theorem Populates.toFresh {env : Env} {inv : JobsUniverse → Prop} {ok : Pkg → Prop}
    (rules : Populates env inv ok) : PopulatesFresh env inv ok fun _ => True where
  query := rules.query
  repoQuery := rules.repoQuery
  provide := rules.provide
  automatic := rules.automatic
  held := rules.held
  emit := rules.emit
  record := rules.record
  next _ _ := trivial
  refill u owners shlib rows offered row member _ holds :=
    rules.refill u owners shlib rows offered row member holds

/-- A call that keeps the invariant, and another one that follows it. -/
def FollowingCalls (total : Prop) (inv : JobsUniverse → Prop) (ok : Pkg → Prop)
    (self self' : ProcessItem) : Prop :=
  ∀ u pkg, inv u → ok pkg → Follows total (fun result => inv result.2.2) (self u pkg) (self' u pkg)

section Rules

variable {env : Env} {inv : JobsUniverse → Prop} {ok : Pkg → Prop} {fresh : Addr → Prop}
  {total : Prop}
  {self self' : ProcessItem} {u : JobsUniverse} {pkg row : Pkg}

theorem selectRemote_mem {versionCmp : String → String → Int} {rows : List Pkg} {best : Pkg}
    (selected : selectRemote versionCmp rows = some best) : best ∈ rows := by
  suffices ∀ best ∈ selectRemote versionCmp rows, best ∈ rows from this best selected
  refine List.foldlRecOn (motive := fun selected : Option Pkg => ∀ best ∈ selected, best ∈ rows)
    rows _ (by simp) fun first sofar row member best chosen => ?_
  cases first with
  | none =>
      cases chosen
      exact member
  | some old =>
      dsimp only at chosen
      split at chosen
      · cases chosen
        exact member
      · cases chosen
        exact sofar _ rfl

variable (rules : PopulatesFresh env inv ok fresh)

include rules

theorem PopulatesFresh.local (holds : inv u) {uid : Uid}
    (found : pkgJobsUniverseGetLocal env u uid = some pkg) : ok pkg := by
  unfold pkgJobsUniverseGetLocal at found
  split at found
  · split at found
    · cases found
      exact rules.held u holds _
    · exact rules.query uid pkg (List.mem_of_head? found)
  · exact rules.query uid pkg (List.mem_of_head? found)

theorem PopulatesFresh.remote (holds : inv u) {uid : Uid}
    (found : pkgJobsUniverseGetRemote env u uid = some pkg) : ok pkg := by
  unfold pkgJobsUniverseGetRemote at found
  split at found
  · split at found
    · cases found
      exact rules.held u holds _
    · exact rules.repoQuery uid pkg (selectRemote_mem found)
  · exact rules.repoQuery uid pkg (selectRemote_mem found)

theorem PopulatesFresh.candidate (holds : inv u) {flags : DepsFlags} {uid : Uid} {npkg : Option Pkg}
    (found : remoteCandidate env u flags uid npkg = some pkg) : ok pkg := by
  unfold remoteCandidate at found
  split at found
  · cases found
  · exact rules.remote holds (Option.filter_eq_some_iff.mp found).1

variable (calls : FollowingCalls total inv ok self self')

include calls

theorem processDeps_follows {flags : DepsFlags} {deps : List Dep} (holds : inv u) :
    Follows total (fun result => inv result.2) (processDeps env self flags pkg deps u)
      (processDeps env self' flags pkg deps u) := by
  induction deps generalizing u with
  | nil => exact .result holds
  | cons d rest ih =>
      simp only [processDeps]
      split
      · exact ih holds
      · split
        · have told := rules.emit u (pkg.name ++ " has a missing dependency: " ++ d.name) holds
          split
          · exact ih told
          · exact .result told
        · next candidate =>
            exact .bind (calls u _ holds (rules.candidate holds candidate)) fun _ later => ih later
        · next npkg found =>
            have okLocal : ok npkg := by
              split at found
              · cases found
              · exact rules.local holds found
            refine .bind (calls u npkg holds okLocal) fun result mid => ?_
            obtain ⟨rc, _, v⟩ := result
            dsimp only at mid ⊢
            split
            · next rpkg candidate =>
                split
                · exact ih mid
                · have okRemote := rules.automatic rpkg npkg.automatic (rules.candidate holds candidate)
                  exact .bind (calls v _ mid okRemote) fun _ later => ih later
            · exact ih mid

theorem processConflicts_follows {conflicts : List Conflict} (holds : inv u) :
    Follows total (fun result => inv result.2) (processConflicts env self pkg conflicts u)
      (processConflicts env self' pkg conflicts u) := by
  induction conflicts generalizing u with
  | nil => exact .result holds
  | cons c rest ih =>
      simp only [processConflicts]
      split
      · exact ih holds
      · split
        · split
          · exact ih holds
          · next npkg found =>
              exact .bind (calls u npkg holds (rules.remote holds found)) fun _ later => ih later
        · split
          · exact ih holds
          · next npkg found =>
              refine .bind (calls u npkg holds (rules.local holds found)) fun result mid => ?_
              obtain ⟨rc, _, v⟩ := result
              dsimp only at mid ⊢
              split
              · exact ih mid
              · split
                · exact ih mid
                · next remote foundRemote =>
                    exact .bind (calls v remote mid (rules.remote mid foundRemote))
                      fun _ later => ih later

/-- What a row leads to: the invariant, and fresh items that own the row. -/
def GoodRow (inv : JobsUniverse → Prop) (fresh : Addr → Prop)
    (result : Epkg × Option Addr × List Addr × JobsUniverse) : Prop :=
  inv result.2.2.2 ∧ ∀ owner ∈ result.2.2.1, fresh owner

theorem processRow_follows {owners : List Addr} (holds : inv u) (okRow : ok row)
    (owned : ∀ owner ∈ owners, fresh owner) :
    Follows total (GoodRow inv fresh) (processRow self u row owners)
      (processRow self' u row owners) := by
  refine .bind (calls u row holds okRow) fun result later => .result ⟨later, fun owner member => ?_⟩
  dsimp only at member
  split at member
  · rcases List.mem_append.mp member with old | new
    · exact owned owner old
    · rw [List.mem_singleton.mp new]
      exact rules.next u holds
  · exact owned owner member

theorem processUnseen_follows {owners : List Addr} (holds : inv u) (okRow : ok row)
    (owned : ∀ owner ∈ owners, fresh owner) :
    Follows total (GoodRow inv fresh) (processUnseen env self u pkg row owners)
      (processUnseen env self' u pkg row owners) := by
  unfold processUnseen
  split
  · exact .result ⟨holds, owned⟩
  · split
    · exact .result ⟨holds, owned⟩
    · exact .bind (processRow_follows rules calls holds okRow owned) fun _ later =>
        .result ⟨later.1, fun _ member => absurd member List.not_mem_nil⟩

theorem processProvider_follows {owners : List Addr} (holds : inv u) (okRow : ok row)
    (owned : ∀ owner ∈ owners, fresh owner) :
    Follows total (GoodRow inv fresh) (processProvider env self u pkg row owners)
      (processProvider env self' u pkg row owners) := by
  have added : ∀ {v : JobsUniverse} {keep : List Addr → List Addr},
      (∀ owners, ∀ owner ∈ keep owners, owner ∈ owners) → inv v →
      Follows total (GoodRow inv fresh)
        (processRow self v row owners >>= fun result =>
          if result.1 ≠ .ok then pure (.again, result.2.1, result.2.2.1, result.2.2.2)
          else pure (.ok, result.2.1, keep result.2.2.1, result.2.2.2))
        (processRow self' v row owners >>= fun result =>
          if result.1 ≠ .ok then pure (.again, result.2.1, result.2.2.1, result.2.2.2)
          else pure (.ok, result.2.1, keep result.2.2.1, result.2.2.2)) := by
    intro v keep keeps mid
    refine .bind (processRow_follows rules calls mid okRow owned) fun result later => ?_
    split
    · exact .result later
    · exact .result ⟨later.1, fun owner member => later.2 owner (keeps _ owner member)⟩
  simp only [processProvider]
  split
  · split
    · exact @added u (fun _ => []) (fun _ _ member => absurd member List.not_mem_nil) holds
    · exact .result ⟨holds, owned⟩
  · split
    · exact processUnseen_follows rules calls holds okRow owned
    · next npkg found =>
        refine .bind (calls u npkg holds (rules.local holds found)) fun result mid => ?_
        obtain ⟨rc, unit, v⟩ := result
        dsimp only at mid ⊢
        split
        · exact .result ⟨mid, owned⟩
        · split
          · exact @added v id (fun _ _ member => member) mid
          · exact .result ⟨mid, owned⟩

theorem processProviders_follows {shlib : String} {all rows : List Pkg} {owners : List Addr}
    {prhead : Option Nat} (offered : env.shlibProvide shlib = some all)
    (members : ∀ row ∈ rows, row ∈ all) (holds : inv u)
    (owned : ∀ owner ∈ owners, fresh owner) :
    Follows total (fun result => inv result.2)
      (processProviders env self pkg shlib rows owners prhead u)
      (processProviders env self' pkg shlib rows owners prhead u) := by
  induction rows generalizing u owners prhead with
  | nil => exact .result holds
  | cons row rest ih =>
      have here := members row (List.mem_cons_self ..)
      have further := fun other later => members other (List.mem_cons_of_mem row later)
      simp only [processProviders]
      refine .bind (processProvider_follows rules calls
        (rules.refill u owners shlib all offered row here owned holds)
        (rules.provide shlib all offered row here) owned) fun result mid => ?_
      obtain ⟨rc, unit, owners', v⟩ := result
      obtain ⟨kept, ownedAfter⟩ := mid
      dsimp only at kept ownedAfter ⊢
      split
      · exact ih further (rules.record v shlib prhead unit kept) ownedAfter
      · exact ih further kept ownedAfter
      · exact .result kept

theorem processShlibs_follows {shlibs : List String} (holds : inv u) :
    Follows total (fun result => inv result.2) (processShlibs env self pkg shlibs u)
      (processShlibs env self' pkg shlibs u) := by
  induction shlibs generalizing u with
  | nil => exact .result holds
  | cons shlib rest ih =>
      simp only [processShlibs]
      split
      · exact ih holds
      · exact ih holds
      · next rows _ offered =>
          refine .bind (processProviders_follows rules calls offered (fun _ member => member) holds
            (fun _ member => absurd member List.not_mem_nil)) fun result mid => ?_
          obtain ⟨rc, v⟩ := result
          dsimp only at mid ⊢
          split
          · exact .result mid
          · exact ih mid

theorem processWanted_follows {flags : DepsFlags} (holds : inv u) :
    Follows total (fun result => inv result.2) (processWanted env self flags pkg u)
      (processWanted env self' flags pkg u) := by
  have deps : ∀ {flags : DepsFlags} {v : JobsUniverse}, inv v →
      Follows total (fun result => inv result.2) (pkgJobsUniverseProcessDeps env self flags pkg v)
        (pkgJobsUniverseProcessDeps env self' flags pkg v) := fun mid =>
    processDeps_follows rules calls mid
  unfold processWanted
  refine .bind (deps holds) fun result mid => ?_
  obtain ⟨rc, v⟩ := result
  dsimp only at mid ⊢
  split
  · exact .result mid
  · refine .bind (deps mid) fun result late => ?_
    obtain ⟨rc, w⟩ := result
    dsimp only at late ⊢
    split
    · exact .result late
    · refine .bind (processConflicts_follows rules calls late) fun result last => ?_
      obtain ⟨rc, z⟩ := result
      dsimp only at last ⊢
      split
      · exact .result last
      · split
        · exact processShlibs_follows rules calls last
        · exact .result last

theorem processAdded_follows (holds : inv u) :
    Follows total (fun result => inv result.2) (processAdded env self pkg u)
      (processAdded env self' pkg u) := by
  simp only [processAdded]
  split
  · split
    · exact processDeps_follows rules calls holds
    · exact .result holds
  · exact processWanted_follows rules calls holds
  · exact processWanted_follows rules calls holds
  · exact .result holds
  · split
    · exact processDeps_follows rules calls holds
    · exact .result holds

end Rules

end Pkgng
