import Pkgng.Package

/-!
# What counts as a change

The loops that end `pkg_jobs_need_upgrade` advance through a table of each package in step and
compare entry by entry.  They are shown to compare the two sequences, and what that says about
the two sets of entries.
-/

set_option autoImplicit false

namespace Pkgng

/-- One of the loops, with both iterators where they are: `HASH_NEXT` ends both at once, ends one
of them, or gives an entry of each. -/
def lockstepChanged {α β : Type} (same : α → β → Bool) : List α → List β → Bool
  | [], [] => false
  | r :: remote, l :: loc => if same r l then lockstepChanged same remote loc else true
  | _, _ => true

def sameOption (ro lo : String × String) : Bool := lo.1 = ro.1 && lo.2 = ro.2

def sameName (r l : String) : Bool := r = l

section Loops

-- `pkg_version_cmp`.
variable (versionCmp : String → String → Int) (rp : Pkg)

/-- The five loops; `PKG_REASON` is set where one of them returns. -/
def tablesChanged (lp : Pkg) : Bool × Option String :=
  if lockstepChanged sameOption rp.options lp.options then (true, some "options changed")
  else if lockstepChanged (fun rd ld => sameName (Dep.name rd) (Dep.name ld)) rp.deps lp.deps then
    (true, some "direct dependency changed")
  else if lockstepChanged
      (fun rc lc => sameName (Conflict.uniqueid rc) (Conflict.uniqueid lc))
      rp.conflicts lp.conflicts then (true, some "direct conflict changed")
  else if lockstepChanged sameName rp.provides lp.provides then (true, some "provides changed")
  else if lockstepChanged sameName rp.shlibsRequired lp.shlibsRequired then
    (true, some "needed shared library changed")
  else (false, none)

/-- `pkg_jobs_need_upgrade` with its loops, and the reason that it sets. -/
def needUpgrade : Option Pkg → Bool × Option String
  | none => (true, none)
  | some lp =>
      if lp.locked then (false, none)
      else if lp.digest.isSome && rp.digest.isSome && decide (lp.digest = rp.digest) then
        (false, none)
      else if 0 < versionCmp lp.version rp.version then (false, none)
      else if versionCmp lp.version rp.version < 0 then (true, none)
      else if lp.repository.isSome && decide (lp.repository ≠ some rp.reponame) then
        (false, none)
      else if lp.arch ≠ rp.arch then (true, some "ABI changed")
      else tablesChanged rp lp

end Loops

theorem lockstepChanged_eq {α β γ : Type} [DecidableEq γ] {same : α → β → Bool} {f : α → γ}
    {g : β → γ} (compares : ∀ a b, same a b = true ↔ f a = g b) (remote : List α)
    (loc : List β) : lockstepChanged same remote loc = decide (remote.map f ≠ loc.map g) := by
  induction remote generalizing loc with
  | nil =>
      cases loc with
      | nil => simp [lockstepChanged]
      | cons l loc => simp [lockstepChanged]
  | cons r remote ih =>
      cases loc with
      | nil => simp [lockstepChanged]
      | cons l loc =>
          rw [lockstepChanged, List.map_cons, List.map_cons]
          by_cases equal : same r l = true
          · rw [if_pos equal, ih, (compares r l).mp equal]
            simp
          · rw [if_neg equal]
            have differ : f r ≠ g l := fun agree => equal ((compares r l).mpr agree)
            simp [differ]

/-- The five loops compare five sequences. -/
theorem tablesChanged_fst (rp lp : Pkg) :
    (tablesChanged rp lp).1 =
      if rp.options ≠ lp.options then true
      else if rp.deps.map Dep.name ≠ lp.deps.map Dep.name then true
      else if rp.conflicts.map Conflict.uniqueid ≠ lp.conflicts.map Conflict.uniqueid then true
      else if rp.provides ≠ lp.provides then true
      else decide (rp.shlibsRequired ≠ lp.shlibsRequired) := by
  have names (remote loc : List String) :
      lockstepChanged sameName remote loc = decide (remote ≠ loc) := by
    have changed := @lockstepChanged_eq _ _ _ _ sameName id id (fun _ _ => decide_eq_true_iff)
      remote loc
    rwa [List.map_id, List.map_id] at changed
  have options : lockstepChanged sameOption rp.options lp.options =
      decide (rp.options ≠ lp.options) := by
    have compares (a b : String × String) : sameOption a b = true ↔ id a = id b := by
      rw [sameOption, Bool.and_eq_true, decide_eq_true_iff, decide_eq_true_iff, id, id,
        Prod.ext_iff, eq_comm, @eq_comm _ b.2]
    have changed := lockstepChanged_eq compares rp.options lp.options
    rwa [List.map_id, List.map_id] at changed
  have deps := @lockstepChanged_eq Dep Dep _ _ (fun rd ld => sameName rd.name ld.name) Dep.name
    Dep.name (fun _ _ => decide_eq_true_iff) rp.deps lp.deps
  have conflicts := @lockstepChanged_eq Conflict Conflict _ _
    (fun rc lc => sameName rc.uniqueid lc.uniqueid) Conflict.uniqueid Conflict.uniqueid
    (fun _ _ => decide_eq_true_iff) rp.conflicts lp.conflicts
  have last : decide (rp.shlibsRequired ≠ lp.shlibsRequired) =
      if rp.shlibsRequired ≠ lp.shlibsRequired then true else false := by
    by_cases same : rp.shlibsRequired = lp.shlibsRequired <;> simp [same]
  rw [last]
  unfold tablesChanged
  simp only [options, deps, conflicts, names, decide_eq_true_eq, apply_ite Prod.fst]

/-- Loop by loop this is the comparison that the rest of the development uses. -/
theorem needUpgrade_fst (versionCmp : String → String → Int) (rp : Pkg) (lp : Option Pkg) :
    (needUpgrade versionCmp rp lp).1 = pkgJobsNeedUpgrade versionCmp rp lp := by
  cases lp with
  | none => rfl
  | some lp => simp only [needUpgrade, pkgJobsNeedUpgrade, apply_ite Prod.fst, tablesChanged_fst]

/-! ## Contents and order -/

/-- The five sequences are the same. -/
structure SameOrders (rp lp : Pkg) : Prop where
  options : rp.options = lp.options
  deps : rp.deps.map Dep.name = lp.deps.map Dep.name
  conflicts : rp.conflicts.map Conflict.uniqueid = lp.conflicts.map Conflict.uniqueid
  provides : rp.provides = lp.provides
  shlibsRequired : rp.shlibsRequired = lp.shlibsRequired

/-- The five sets are the same. -/
structure SameContents (rp lp : Pkg) : Prop where
  options : ∀ option, option ∈ rp.options ↔ option ∈ lp.options
  deps : ∀ name, name ∈ rp.deps.map Dep.name ↔ name ∈ lp.deps.map Dep.name
  conflicts : ∀ uniqueid, uniqueid ∈ rp.conflicts.map Conflict.uniqueid ↔
    uniqueid ∈ lp.conflicts.map Conflict.uniqueid
  provides : ∀ name, name ∈ rp.provides ↔ name ∈ lp.provides
  shlibsRequired : ∀ name, name ∈ rp.shlibsRequired ↔ name ∈ lp.shlibsRequired

theorem SameOrders.contents {rp lp : Pkg} (same : SameOrders rp lp) : SameContents rp lp where
  options _ := by rw [same.options]
  deps _ := by rw [same.deps]
  conflicts _ := by rw [same.conflicts]
  provides _ := by rw [same.provides]
  shlibsRequired _ := by rw [same.shlibsRequired]

theorem tablesChanged_iff (rp lp : Pkg) :
    (tablesChanged rp lp).1 = true ↔ ¬SameOrders rp lp := by
  rw [tablesChanged_fst]
  constructor
  · intro changed same
    simp only [same.options, same.deps, same.conflicts, same.provides, same.shlibsRequired,
      ne_eq, not_true_eq_false, if_false, decide_false] at changed
    cases changed
  · intro differs
    by_contra unchanged
    split at unchanged
    · exact unchanged rfl
    next sameOptions =>
    split at unchanged
    · exact unchanged rfl
    next sameDeps =>
    split at unchanged
    · exact unchanged rfl
    next sameConflicts =>
    split at unchanged
    · exact unchanged rfl
    next sameProvides =>
    rw [decide_eq_true_iff] at unchanged
    exact differs ⟨not_not.mp sameOptions, not_not.mp sameDeps, not_not.mp sameConflicts,
      not_not.mp sameProvides, not_not.mp unchanged⟩

/-- The two packages are compared by their tables: the installed one is not locked, the digests
differ, version and architecture are the same, and the installed one comes from the repository
of the other. -/
structure Comparable (versionCmp : String → String → Int) (rp lp : Pkg) : Prop where
  unlocked : lp.locked = false
  digests : ∀ digest, lp.digest = some digest → rp.digest ≠ some digest
  version : versionCmp lp.version rp.version = 0
  repository : ∀ reponame, lp.repository = some reponame → reponame = rp.reponame
  arch : lp.arch = rp.arch

theorem needUpgrade_comparable {versionCmp : String → String → Int} {rp lp : Pkg}
    (comparable : Comparable versionCmp rp lp) :
    needUpgrade versionCmp rp (some lp) = tablesChanged rp lp := by
  have digests : ¬(lp.digest.isSome && rp.digest.isSome && decide (lp.digest = rp.digest)) := by
    cases isDigest : lp.digest with
    | none => simp
    | some digest => simpa using fun _ => (comparable.digests digest isDigest).symm
  have repository : ¬(lp.repository.isSome &&
      decide (lp.repository ≠ some rp.reponame)) := by
    cases isRepo : lp.repository with
    | none => simp
    | some reponame => simpa using comparable.repository reponame isRepo
  rw [needUpgrade, comparable.unlocked, if_neg Bool.false_ne_true, if_neg digests,
    comparable.version, if_neg (Int.lt_irrefl _), if_neg (Int.lt_irrefl _), if_neg repository,
    if_neg (not_not.mpr comparable.arch)]

/-- An upgrade is needed exactly if the packages differ in one of the sets. -/
def ComparesContents (versionCmp : String → String → Int) (rp lp : Pkg) : Prop :=
  (needUpgrade versionCmp rp (some lp)).1 = true ↔ ¬SameContents rp lp

/-- Contents are compared exactly where the same sets come in the same order. -/
theorem comparesContents_iff {versionCmp : String → String → Int} {rp lp : Pkg}
    (comparable : Comparable versionCmp rp lp) :
    ComparesContents versionCmp rp lp ↔ (SameContents rp lp → SameOrders rp lp) := by
  rw [ComparesContents, needUpgrade_comparable comparable, tablesChanged_iff, not_iff_not]
  exact ⟨fun same => same.mpr, fun ordered => ⟨SameOrders.contents, ordered⟩⟩

/-- A package with the given options and provided names. -/
def tabled (type : PkgType) (digest : Digest) (options : List (String × String))
    (provides : List String) : Pkg :=
  { type := type, uid := "a~ports/a", digest := some digest, options := options
    provides := provides }

theorem comparable_tabled (options options' : List (String × String))
    (provides provides' : List String) :
    Comparable (fun _ _ => 0) (tabled .remote "r" options provides)
      (tabled .installed "l" options' provides') where
  unlocked := rfl
  digests digest isDigest isSame := by
    cases isDigest
    exact absurd (Option.some.inj isSame) (by decide)
  version := rfl
  repository reponame isRepo := by cases isRepo
  arch := rfl

/-- A provided name that is gone is a change. -/
theorem lostProvide_comparesContents :
    ComparesContents (fun _ _ => 0) (tabled .remote "r" [("A", "on")] [])
      (tabled .installed "l" [("A", "on")] ["p"]) := by
  refine (comparesContents_iff (comparable_tabled _ _ _ _)).mpr fun same => ?_
  have listed := (same.provides "p").mpr (by simp [tabled])
  cases listed

/-- Two options in the other order are reported as changed. -/
theorem swappedOptions_not_comparesContents :
    ¬∀ versionCmp rp lp, Comparable versionCmp rp lp → ComparesContents versionCmp rp lp := by
  intro all
  have compares := all _ _ _
    (comparable_tabled [("A", "on"), ("B", "on")] [("B", "on"), ("A", "on")] [] [])
  refine compares.mp ?_ ?_
  · rw [needUpgrade_comparable (comparable_tabled _ _ _ _)]
    rfl
  · constructor <;> intro name <;> simp [tabled, or_comm]

end Pkgng
