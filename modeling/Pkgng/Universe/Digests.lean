import Pkgng.Universe.Populates

/-!
# Populating the universe ends

Every call of `pkg_jobs_universe_process_item` that goes on has filed a digest
not seen before, and all packages on the way come out of the databases, so the
digests not seen yet bound the depth of the recursion, whatever the cycles.  The
items added have different digests as long as no row iterator overwrites a
package that it has given away.
-/

set_option autoImplicit false

namespace Pkgng

open Lib

/-- The rows that a query may give. -/
structure Env.Draws (env : Env) (rows : List Pkg) : Prop where
  query : ∀ uid, ∀ pkg ∈ env.query uid, pkg ∈ rows
  repoQuery : ∀ uid, ∀ pkg ∈ env.repoQuery uid, pkg ∈ rows
  provide : ∀ shlib given, env.shlibProvide shlib = some given → ∀ pkg ∈ given, pkg ∈ rows

/-- No two items that were added have packages of one digest. -/
def DistinctlyAdded (u u' : JobsUniverse) : Prop :=
  ∀ i k, u.pkgs.length ≤ i → i < k → k < u'.pkgs.length → (u'.pkg i).digest ≠ (u'.pkg k).digest

/-- The call comes to its end, whatever the bound on the depth from some bound
on, and adds no two items with the same digest. -/
def PopulatesOnce (env : Env) (u : JobsUniverse) (pkg : Pkg) : Prop :=
  ∃ bound rc unit u', (∀ depth, bound ≤ depth →
      pkgJobsUniverseProcessItem env depth u pkg = some (rc, unit, u')) ∧
    DistinctlyAdded u u'

/-- From some bound on, no row is read into a package that has been given to the
universe. -/
def KeepsGiven (env : Env) (u : JobsUniverse) (pkg : Pkg) : Prop :=
  ∃ bound, ∀ depth, bound ≤ depth → ∀ rc unit u',
    pkgJobsUniverseProcessItem env depth u pkg = some (rc, unit, u') → u'.refilled = u.refilled

/-! ## The digests that may still be filed -/

/-- Whatever becomes of its automatic flag, the package is filed under one of
the digests. -/
def Known (checksum : Pkg → Option Digest) (digests : List Digest) (pkg : Pkg) : Prop :=
  ∀ automatic digest, digestOf checksum { pkg with automatic := automatic } = some digest →
    digest ∈ digests

/-- The digests under which the packages may be filed. -/
def digestsOf (checksum : Pkg → Option Digest) (pkgs : List Pkg) : List Digest :=
  pkgs.flatMap fun pkg => [true, false].filterMap fun automatic =>
    digestOf checksum { pkg with automatic := automatic }

/-- How many of the digests have not been seen. -/
def unseen (digests : List Digest) (u : JobsUniverse) : Nat :=
  digests.countP fun digest => (HashTable.find digest u.seen).isNone

section Digests

variable {checksum : Pkg → Option Digest} {digests : List Digest} {u : JobsUniverse} {pkg : Pkg}
  {digest : Digest}

theorem known_of_mem {pkgs : List Pkg} (member : pkg ∈ pkgs) :
    Known checksum (digestsOf checksum pkgs) pkg := fun automatic digest filed =>
  List.mem_flatMap.mpr ⟨pkg, member, List.mem_filterMap.mpr ⟨automatic, by simp, filed⟩⟩

theorem Known.automatic (known : Known checksum digests pkg) (automatic : Bool) :
    Known checksum digests { pkg with automatic := automatic } := known

theorem Known.digest_mem (known : Known checksum digests pkg)
    (filed : digestOf checksum pkg = some digest) : digest ∈ digests :=
  known pkg.automatic digest filed

theorem Known.stored (known : Known checksum digests pkg)
    (filed : digestOf checksum pkg = some digest) :
    Known checksum digests { pkg with digest := some digest } := fun _ other same => by
  obtain rfl := Option.some.inj same
  exact known.digest_mem filed

theorem insert_seen (fresh : HashTable.find digest u.seen = none) :
    (u.insert pkg digest).seen = HashTable.add digest u.pkgs.length u.seen := by
  rw [JobsUniverse.insert, fresh]

theorem find_insert_seen (fresh : HashTable.find digest u.seen = none) (other : Digest) :
    HashTable.find other (u.insert pkg digest).seen =
      if digest = other then some u.pkgs.length else HashTable.find other u.seen := by
  rw [insert_seen fresh, HashTable.find_add]

/-- Filing a new one of the digests leaves fewer. -/
theorem unseen_insert_lt (member : digest ∈ digests)
    (fresh : HashTable.find digest u.seen = none) :
    unseen digests (u.insert pkg digest) < unseen digests u := by
  have fewer : ∀ other, (HashTable.find other (u.insert pkg digest).seen).isNone = true →
      (HashTable.find other u.seen).isNone = true := by
    intro other none
    rw [find_insert_seen fresh] at none
    split at none
    · cases none
    · exact none
  unfold unseen
  induction digests with
  | nil => cases member
  | cons first rest ih =>
      have restLe : rest.countP (fun other => (HashTable.find other
          (u.insert pkg digest).seen).isNone) ≤
          rest.countP fun other => (HashTable.find other u.seen).isNone :=
        List.countP_mono_left fun other _ => fewer other
      rw [List.countP_cons, List.countP_cons]
      rcases List.mem_cons.mp member with rfl | inRest
      · rw [find_insert_seen fresh, fresh]
        simp only [if_pos, Option.isNone_some, Option.isNone_none]
        simpa using Nat.lt_succ_of_le restLe
      · have less := ih inRest
        have here := fewer first
        split
        · next none =>
            rw [if_pos (here none)]
            omega
        · omega

end Digests

/-! ## The invariant -/

/-- What a run has added so far. -/
structure AddsItems (start u : JobsUniverse) : Prop where
  longer : start.pkgs.length ≤ u.pkgs.length
  refilled : start.refilled <+: u.refilled
  filed : u.refilled = start.refilled → ∀ item, start.pkgs.length ≤ item → item < u.pkgs.length →
    ∃ digest, (u.pkg item).digest = some digest ∧ HashTable.find digest u.seen = some item

/-- The packages are known, some number of digests may still be filed, and so
far a run from some universe has added items of different digests. -/
structure Populating (checksum : Pkg → Option Digest) (digests : List Digest)
    (start : JobsUniverse) (left : Nat) (u : JobsUniverse) : Prop where
  known : ∀ item, Known checksum digests (u.pkg item)
  left : unseen digests u ≤ left
  adds : AddsItems start u

theorem AddsItems.refl (u : JobsUniverse) : AddsItems u u where
  longer := Nat.le_refl _
  refilled := List.prefix_refl _
  filed _ _ below above := absurd above (Nat.not_lt_of_le below)

theorem AddsItems.distinct {start u : JobsUniverse} (adds : AddsItems start u)
    (kept : u.refilled = start.refilled) : DistinctlyAdded start u := by
  intro i k start_le_i i_lt_k k_lt same
  obtain ⟨digestI, ownI, foundI⟩ := adds.filed kept i start_le_i (Nat.lt_trans i_lt_k k_lt)
  obtain ⟨digestK, ownK, foundK⟩ := adds.filed kept k (by omega) k_lt
  rw [ownI, ownK] at same
  rw [Option.some.inj same, foundK] at foundI
  exact Nat.ne_of_gt i_lt_k (Option.some.inj foundI)

section Invariant

variable {checksum : Pkg → Option Digest} {digests : List Digest} {start u u' : JobsUniverse}
  {left : Nat} {pkg : Pkg} {digest : Digest}

theorem AddsItems.insert (adds : AddsItems start u) (fresh : HashTable.find digest u.seen = none) :
    AddsItems start (u.insert pkg digest) where
  longer := Nat.le_trans adds.longer (by simp)
  refilled := adds.refilled
  filed kept item started below := by
    rw [JobsUniverse.insert_pkgs, List.length_append, List.length_singleton] at below
    rcases Nat.lt_succ_iff_lt_or_eq.mp below with old | rfl
    · obtain ⟨other, own, found⟩ := adds.filed kept item started old
      refine ⟨other, by rw [JobsUniverse.insert_pkg_old pkg digest old, own], ?_⟩
      rw [find_insert_seen fresh, if_neg fun same => ?_]
      · exact found
      · rw [same, found] at fresh
        cases fresh
    · refine ⟨digest, by rw [JobsUniverse.insert_pkg_new], ?_⟩
      rw [find_insert_seen fresh, if_pos rfl]

/-- Steps that leave the packages and the digests seen alone. -/
theorem AddsItems.of_same (adds : AddsItems start u) (pkgs : u'.pkgs = u.pkgs)
    (seen : u'.seen = u.seen) (refilled : u'.refilled = u.refilled) : AddsItems start u' where
  longer := by rw [pkgs]; exact adds.longer
  refilled := by rw [refilled]; exact adds.refilled
  filed := by
    simp only [JobsUniverse.pkg, pkgs, seen, refilled]
    exact adds.filed

theorem AddsItems.refill (adds : AddsItems start u) (owners : List Addr) (row : Pkg) :
    AddsItems start (u.refill owners row) where
  longer := (replaced_refill u owners row).length ▸ adds.longer
  refilled := adds.refilled.trans (List.prefix_append ..)
  filed kept := by
    have step := UniverseStep.refill u owners row
    have early := Evolves.quiet_before (.single step) adds.refilled kept
    rw [refill_of_quiet (kept.trans early.symm)]
    exact adds.filed early

theorem Populating.of_same (populating : Populating checksum digests start left u)
    (pkgs : u'.pkgs = u.pkgs) (seen : u'.seen = u.seen) (refilled : u'.refilled = u.refilled) :
    Populating checksum digests start left u' where
  known item := by
    rw [JobsUniverse.pkg, pkgs]
    exact populating.known item
  left := by
    rw [unseen, seen]
    exact populating.left
  adds := populating.adds.of_same pkgs seen refilled

theorem Populating.insert (populating : Populating checksum digests start (left + 1) u)
    (known : Known checksum digests pkg) (filed : digestOf checksum pkg = some digest)
    (fresh : HashTable.find digest u.seen = none) :
    Populating checksum digests start left (u.insert pkg digest) where
  known item := by
    rcases Nat.lt_trichotomy item u.pkgs.length with old | rfl | beyond
    · rw [JobsUniverse.insert_pkg_old pkg digest old]
      exact populating.known item
    · rw [JobsUniverse.insert_pkg_new]
      exact known.stored filed
    · have outside := populating.known item
      have none : u.pkg item = (u.insert pkg digest).pkg item := by
        have outsideNew : (u.pkgs ++ [{ pkg with digest := some digest }]).length ≤ item := by
          rw [List.length_append, List.length_singleton]
          exact beyond
        simp only [JobsUniverse.pkg, JobsUniverse.insert_pkgs, List.getD_eq_getElem?_getD]
        rw [List.getElem?_eq_none (Nat.le_of_lt beyond), List.getElem?_eq_none outsideNew]
      rw [← none]
      exact outside
  left := Nat.le_of_lt_succ
    (Nat.lt_of_lt_of_le (unseen_insert_lt (known.digest_mem filed) fresh) populating.left)
  adds := populating.adds.insert fresh

theorem Populating.weaken (populating : Populating checksum digests start left u) :
    Populating checksum digests start (left + 1) u :=
  ⟨populating.known, Nat.le_succ_of_le populating.left, populating.adds⟩

/-- The invariant meets the rules of the loops. -/
theorem populates_digests {env : Env} {rows : List Pkg} (draws : env.Draws rows)
    (known : ∀ pkg ∈ rows, Known env.checksum digests pkg) (start : JobsUniverse) (left : Nat) :
    Populates env (Populating env.checksum digests start left) (Known env.checksum digests) where
  query uid pkg member := known pkg (draws.query uid pkg member)
  repoQuery uid pkg member := known pkg (draws.repoQuery uid pkg member)
  provide shlib given offered pkg member := known pkg (draws.provide shlib given offered pkg member)
  automatic pkg automatic known := known.automatic automatic
  held u populating := populating.known
  emit u message populating := populating.of_same rfl rfl rfl
  record u shlib prhead un populating := by
    cases prhead with
    | none => exact populating.of_same rfl rfl rfl
    | some entry => exact populating.of_same rfl rfl rfl
  refill u owners shlib given offered row member populating := by
    have same := replaced_refill u owners row
    refine ⟨fun item => ?_, ?_, populating.adds.refill owners row⟩
    · rcases same.pkg item with old | new
      · rw [old]
        exact populating.known item
      · rw [new]
        exact known row (draws.provide shlib given offered row member)
    · rw [unseen, same.seen]
      exact populating.left

/-- Two bounds on the depth that are above the number of digests left give the
same result. -/
theorem processItem_follows {env : Env} {rows : List Pkg} (draws : env.Draws rows)
    (knownRows : ∀ pkg ∈ rows, Known env.checksum digests pkg) :
    ∀ {left depth depth' : Nat}, left < depth → left < depth' →
      FollowingCalls True (Populating env.checksum digests start left) (Known env.checksum digests)
        (pkgJobsUniverseProcessItem env depth) (pkgJobsUniverseProcessItem env depth') := by
  intro left
  induction left using Nat.strongRecOn with
  | ind left ih =>
      intro depth depth' above above' u pkg populating known
      obtain ⟨below, rfl⟩ : ∃ below, depth = below + 1 := ⟨depth - 1, by omega⟩
      obtain ⟨below', rfl⟩ : ∃ below, depth' = below + 1 := ⟨depth' - 1, by omega⟩
      rw [pkgJobsUniverseProcessItem, pkgJobsUniverseProcessItem]
      rcases pkgJobsUniverseAddPkg_cases env.checksum u pkg false with
        ⟨_, added⟩ | ⟨_, _, _, _, _, added⟩ | ⟨digest, filed, fresh, added⟩
      · rw [added]
        exact .result populating
      · rw [added]
        exact .result populating
      · -- The digest is one of those that were left.
        have fresh := fresh.resolve_left Bool.false_ne_true
        have less := @unseen_insert_lt digests u pkg digest (known.digest_mem filed) fresh
        obtain ⟨fewer, rfl⟩ : ∃ fewer, left = fewer + 1 :=
          ⟨left - 1, by have := populating.left; omega⟩
        rw [added]
        refine .bind (processAdded_follows (populates_digests draws knownRows start fewer).toFresh
          (ih fewer (Nat.lt_succ_self _) (by omega) (by omega))
          (populating.insert known filed fresh)) fun result later => ?_
        exact .result later.weaken

end Invariant

/-! ## The call -/

/-- A depth that is enough for a call. -/
def enoughDepth (env : Env) (rows : List Pkg) (u : JobsUniverse) (pkg : Pkg) : Nat :=
  unseen (digestsOf env.checksum (rows ++ default :: pkg :: u.pkgs)) u + 1

theorem processItem_settles {env : Env} {rows : List Pkg} (draws : env.Draws rows)
    (u : JobsUniverse) (pkg : Pkg) :
    ∃ rc unit u', (∀ depth, enoughDepth env rows u pkg ≤ depth →
        pkgJobsUniverseProcessItem env depth u pkg = some (rc, unit, u')) ∧ AddsItems u u' := by
  let digests := digestsOf env.checksum (rows ++ default :: pkg :: u.pkgs)
  have known : ∀ p ∈ rows ++ default :: pkg :: u.pkgs, Known env.checksum digests p :=
    fun p member => known_of_mem member
  have populating : Populating env.checksum digests u (unseen digests u) u := by
    refine ⟨fun item => known _ ?_, Nat.le_refl _, .refl u⟩
    simp only [JobsUniverse.pkg, List.getD_eq_getElem?_getD]
    cases here : u.pkgs[item]? with
    | none => simp
    | some p => simp [List.mem_of_getElem? here]
  have ends : ∀ depth, unseen digests u + 1 ≤ depth → ∃ result,
      pkgJobsUniverseProcessItem env (unseen digests u + 1) u pkg = some result ∧
      pkgJobsUniverseProcessItem env depth u pkg = some result ∧
      Populating env.checksum digests u (unseen digests u) result.2.2 := fun depth above =>
    (@processItem_follows digests u env rows draws (fun p member => known p (by simp [member]))
      (unseen digests u) _ depth (Nat.lt_succ_self _) above u pkg populating
      (known pkg (by simp))).exists_result trivial
  obtain ⟨⟨rc, unit, u'⟩, ran, _, after⟩ := ends _ (Nat.le_refl _)
  refine ⟨rc, unit, u', fun depth above => ?_, after.adds⟩
  obtain ⟨result, ranFirst, ranDepth, _⟩ := ends depth above
  rw [ran] at ranFirst
  rw [ranDepth, ← Option.some.inj ranFirst]

/-- The call ends on every finite database; where it leaves the packages alone
that it has given to the universe, the items added have different digests. -/
theorem processItem_populatesOnce {env : Env} {rows : List Pkg} (draws : env.Draws rows)
    (u : JobsUniverse) (pkg : Pkg) :
    (∃ bound rc unit u', ∀ depth, bound ≤ depth →
      pkgJobsUniverseProcessItem env depth u pkg = some (rc, unit, u')) ∧
    (KeepsGiven env u pkg → PopulatesOnce env u pkg) := by
  obtain ⟨rc, unit, u', ran, adds⟩ := processItem_settles draws u pkg
  refine ⟨⟨_, rc, unit, u', ran⟩, fun keeps => ⟨_, rc, unit, u', ran, adds.distinct ?_⟩⟩
  obtain ⟨bound, kept⟩ := keeps
  exact kept (max bound (enoughDepth env rows u pkg)) (Nat.le_max_left ..) rc unit u'
    (ran _ (Nat.le_max_right ..))

/-- What an installed `app` and `tool`, newer ones in a repository and the
providers of a library answer. -/
def withProviders (providers : List Pkg) : Env where
  query uid :=
    if uid = "app" then
      [{ type := .installed, uid := "app", version := "1", digest := some "1",
         deps := [⟨"tool", "tool", ""⟩] }]
    else if uid = "tool" then
      [{ type := .installed, uid := "tool", version := "1", digest := some "2",
         deps := [⟨"app", "app", ""⟩] }]
    else []
  repoQuery _ := []
  shlibProvide shlib := if shlib = "libtool.so" then some providers else none
  versionCmp first second := if first = second then 0 else if first = "1" then -1 else 1
  checksum := Pkg.digest

/-- The rows of the local database. -/
def appAndTool : List Pkg := (withProviders []).query "app" ++ (withProviders []).query "tool"

theorem withProviders_draws (providers : List Pkg) :
    (withProviders providers).Draws (appAndTool ++ providers) where
  query uid pkg member := by
    simp only [withProviders] at member
    split at member
    · simp_all [appAndTool, withProviders]
    · split at member
      · simp_all [appAndTool, withProviders]
      · cases member
  repoQuery uid pkg member := by cases member
  provide shlib given offered pkg member := by
    simp only [withProviders] at offered
    split at offered
    · cases offered
      exact List.mem_append_right _ member
    · cases offered

def newTool : Pkg := { type := .remote, uid := "tool", version := "2", digest := some "3" }

def newApp : Pkg := { type := .remote, uid := "app", version := "2", digest := some "4" }

/-- It requires the library. -/
def toolUser : Pkg :=
  { type := .remote, uid := "user", digest := some "5", shlibsRequired := ["libtool.so"] }

theorem oneProvider_populatesOnce : PopulatesOnce (withProviders [newTool]) {} toolUser := by
  refine (processItem_populatesOnce (withProviders_draws [newTool]) {} toolUser).2 ?_
  obtain ⟨rc, unit, u', ran, _⟩ :=
    processItem_settles (withProviders_draws [newTool]) {} toolUser
  have kept : (pkgJobsUniverseProcessItem (withProviders [newTool])
      (enoughDepth (withProviders [newTool]) (appAndTool ++ [newTool]) {} toolUser)
      {} toolUser).map (fun result => result.2.2.refilled) = some [] := by decide +kernel
  rw [ran _ (Nat.le_refl _)] at kept
  refine ⟨enoughDepth (withProviders [newTool]) (appAndTool ++ [newTool]) {} toolUser,
    fun depth above rc' unit' v ranDepth => ?_⟩
  rw [ran depth above] at ranDepth
  cases ranDepth
  exact Option.some.inj kept

/-- The row of `tool` is read into the package that `app` has been added with,
and then added itself. -/
theorem twoProviders_not_populatesOnce :
    ¬ PopulatesOnce (withProviders [newApp, newTool]) {} toolUser := by
  intro ⟨bound, rc, unit, u', ran, distinct⟩
  obtain ⟨rc', unit', v, settled, _⟩ :=
    processItem_settles (withProviders_draws [newApp, newTool]) {} toolUser
  have same := (ran (max bound _) (Nat.le_max_left ..)).symm.trans
    (settled (max bound _) (Nat.le_max_right ..))
  cases same
  have added : (pkgJobsUniverseProcessItem (withProviders [newApp, newTool])
      (enoughDepth (withProviders [newApp, newTool]) (appAndTool ++ [newApp, newTool]) {} toolUser)
      {} toolUser).map (fun result => result.2.2.pkgs.map Pkg.digest) =
        some [some "5", some "1", some "2", some "3", some "3"] := by decide +kernel
  rw [settled _ (Nat.le_refl _), Option.map_some, Option.some.injEq] at added
  have length : u'.pkgs.length = 5 := by simpa using congrArg List.length added
  have digestAt : ∀ item, (u'.pkg item).digest =
      [some "5", some "1", some "2", some "3", some "3"].getD item none := by
    intro item
    rw [← added, JobsUniverse.pkg, List.getD_eq_getElem?_getD, List.getD_eq_getElem?_getD,
      List.getElem?_map]
    cases u'.pkgs[item]? with
    | none => rfl
    | some pkg => rfl
  refine distinct 3 4 (by simp) (by omega) (by omega) ?_
  rw [digestAt, digestAt]
  rfl

end Pkgng
