import Pkgng.Repo.Incremental
import Pkgng.Version.Compare

/-!
# Adding a row to the catalogue

The loop of `pkg_repo_binary_add_pkg` that deletes a conflicting row and goes back to `try_again`,
over what its statements come to.
-/

set_option autoImplicit false

namespace Pkgng

open Lib

/-- How the statements of each round end. -/
structure AddOutcomes where
  inserts : Nat → InsertResult
  /-- The version in the row that is found. -/
  lookups : Nat → Option String
  deletes : Nat → Bool
  /-- The statements behind the insertion. -/
  children : Nat → Bool

namespace AddOutcomes

variable (outcomes : AddOutcomes) (version : String) (forced : Bool) (round : Nat)

/-- `pkg_repo_binary_delete_conflicting`.  Where it is forced, `ret = EPKG_OK` stands behind the
test of the deletion. -/
def pkgRepoBinaryDeleteConflicting : RepoRc :=
  match outcomes.lookups round with
  | none => .fatal
  | some oversion =>
      if forced then .ok
      else
        match pkgVersionCmp oversion version with
        | -1 => if outcomes.deletes round then .ok else .fatal
        | 0 => .finished
        | 1 => .finished
        | _ => .fatal

/-- What is returned from `try_again` on; `none` where the code goes back to it. -/
def tryAgain : Option RepoRc :=
  match outcomes.inserts round with
  | .done => some (if outcomes.children round then .ok else .fatal)
  | .error => some .fatal
  | .constraint =>
      match outcomes.pkgRepoBinaryDeleteConflicting version forced round with
      | .fatal => some .fatal
      | .finished => some .finished
      | _ => none

/-- `pkg_repo_binary_add_pkg`: the return code and the number of insertions; `none` where more
rounds are needed than given. -/
def addPkg : Nat → Nat → Option (RepoRc × Nat)
  | 0, _ => none
  | rounds + 1, round =>
      match outcomes.tryAgain version forced round with
      | some rc => some (rc, round + 1)
      | none => addPkg rounds (round + 1)

/-- The round runs the deletion, and it fails. -/
def DeleteFails : Prop :=
  outcomes.inserts round = .constraint ∧ outcomes.deletes round = false ∧
    ∃ oversion, outcomes.lookups round = some oversion ∧
      (forced = true ∨ pkgVersionCmp oversion version = -1)

/-- At most two insertions, and no failed deletion but with `EPKG_FATAL`. -/
def AddsHonestly : Prop :=
  ∃ rounds rc inserted, outcomes.addPkg version forced rounds 0 = some (rc, inserted) ∧
    inserted ≤ 2 ∧
    ((∃ round < inserted, outcomes.DeleteFails version forced round) → rc = .fatal)

/-- The first round deletes by force and in vain. -/
def FailsByForce : Prop :=
  forced = true ∧ outcomes.inserts 0 = .constraint ∧ (outcomes.lookups 0).isSome = true ∧
    outcomes.deletes 0 = false

/-- The second round fails of itself. -/
def FailsAfterwards : Prop :=
  match outcomes.inserts 1 with
  | .done => outcomes.children 1 = false
  | .error => True
  | .constraint => outcomes.lookups 1 = none

end AddOutcomes

/-- The outcomes of a table in which a successful deletion removes the constraint. -/
structure ClearingOutcomes extends AddOutcomes where
  clears : ∀ round, deletes round = true → inserts (round + 1) ≠ .constraint

/-! ## The rounds -/

namespace AddOutcomes

variable {outcomes : AddOutcomes} {version : String} {forced : Bool} {round : Nat}

/-- The conflict counts as cleared. -/
theorem deleteConflicting_ok_iff :
    outcomes.pkgRepoBinaryDeleteConflicting version forced round = .ok ↔
      ∃ oversion, outcomes.lookups round = some oversion ∧
        (forced = true ∨ pkgVersionCmp oversion version = -1 ∧ outcomes.deletes round = true) := by
  unfold pkgRepoBinaryDeleteConflicting
  cases outcomes.lookups round with
  | none => simp
  | some oversion =>
      cases forced with
      | true => simp
      | false =>
          simp only [Bool.false_eq_true, if_false, false_or, Option.some.injEq, exists_eq_left']
          split
          · next older =>
              rw [older]
              cases outcomes.deletes round <;> simp
          · next same =>
              rw [same]
              simp
          · next newer =>
              rw [newer]
              simp
          · next notOlder _ _ => exact ⟨nofun, fun both => absurd both.1 notOlder⟩

theorem deleteConflicting_ne_uptodate :
    outcomes.pkgRepoBinaryDeleteConflicting version forced round ≠ .uptodate := by
  unfold pkgRepoBinaryDeleteConflicting
  split
  · exact nofun
  · split
    · exact nofun
    · split
      · split <;> exact nofun
      all_goals exact nofun

theorem tryAgain_eq_none_iff :
    outcomes.tryAgain version forced round = none ↔
      outcomes.inserts round = .constraint ∧ ∃ oversion, outcomes.lookups round = some oversion ∧
        (forced = true ∨ pkgVersionCmp oversion version = -1 ∧ outcomes.deletes round = true) := by
  rw [← deleteConflicting_ok_iff]
  unfold tryAgain
  cases outcomes.inserts round with
  | done => simp
  | error => simp
  | constraint =>
      cases cleared : outcomes.pkgRepoBinaryDeleteConflicting version forced round with
      | ok => simp
      | uptodate => exact absurd cleared deleteConflicting_ne_uptodate
      | fatal => simp
      | finished => simp

/-- A failed deletion is reported where the code does not go back. -/
theorem fatal_of_deleteFails {rc : RepoRc} (fails : outcomes.DeleteFails version forced round)
    (returns : outcomes.tryAgain version forced round = some rc) : rc = .fatal := by
  obtain ⟨inserted, deleted, oversion, found, cause⟩ := fails
  cases forced with
  | true =>
      have again : outcomes.tryAgain version true round = none :=
        tryAgain_eq_none_iff.mpr ⟨inserted, oversion, found, .inl rfl⟩
      rw [again] at returns
      cases returns
  | false =>
      have older := cause.resolve_left Bool.false_ne_true
      simp only [tryAgain, pkgRepoBinaryDeleteConflicting, inserted, found, older, deleted,
        Bool.false_eq_true, if_false, Option.some.injEq] at returns
      exact returns.symm

/-- Where the first round returns. -/
theorem addPkg_first {rc : RepoRc} (rounds : Nat)
    (returns : outcomes.tryAgain version forced round = some rc) :
    outcomes.addPkg version forced (rounds + 1) round = some (rc, round + 1) := by
  rw [addPkg, returns]

theorem addPkg_again (rounds : Nat) (again : outcomes.tryAgain version forced round = none) :
    outcomes.addPkg version forced (rounds + 1) round =
      outcomes.addPkg version forced rounds (round + 1) := by
  rw [addPkg, again]

/-- The function returns from a round that does not go back, and not before its first. -/
theorem addPkg_spec {rounds inserted : Nat} {rc : RepoRc}
    (ends : outcomes.addPkg version forced rounds round = some (rc, inserted)) :
    ∃ last, inserted = last + 1 ∧ round ≤ last ∧
      outcomes.tryAgain version forced last = some rc := by
  induction rounds generalizing round with
  | zero => cases ends
  | succ rounds ih =>
      cases returns : outcomes.tryAgain version forced round with
      | some first =>
          rw [addPkg_first rounds returns, Option.some.injEq, Prod.mk.injEq] at ends
          obtain ⟨rfl, rfl⟩ := ends
          exact ⟨round, rfl, Nat.le_refl _, returns⟩
      | none =>
          rw [addPkg_again rounds returns] at ends
          obtain ⟨last, isLast, later, lastReturns⟩ := ih ends
          exact ⟨last, isLast, Nat.le_of_succ_le later, lastReturns⟩

/-- A forced addition goes on for as long as the row stands in its way. -/
theorem addPkg_endless (inserts : ∀ round, outcomes.inserts round = .constraint)
    (lookups : ∀ round, ∃ oversion, outcomes.lookups round = some oversion) (rounds : Nat) :
    outcomes.addPkg version true rounds round = none := by
  induction rounds generalizing round with
  | zero => rfl
  | succ rounds ih =>
      obtain ⟨oversion, found⟩ := lookups round
      have again : outcomes.tryAgain version true round = none :=
        tryAgain_eq_none_iff.mpr ⟨inserts round, oversion, found, .inl rfl⟩
      rw [addPkg_again rounds again, ih]

theorem failsAfterwards_iff (byForce : outcomes.FailsByForce forced) :
    outcomes.FailsAfterwards ↔ outcomes.tryAgain version forced 1 = some .fatal := by
  obtain ⟨rfl, -, -, -⟩ := byForce
  unfold FailsAfterwards tryAgain pkgRepoBinaryDeleteConflicting
  cases outcomes.inserts 1 with
  | done => cases outcomes.children 1 <;> simp
  | error => simp
  | constraint => cases outcomes.lookups 1 <;> simp

end AddOutcomes

/-! ## When the addition is honest -/

namespace ClearingOutcomes

variable {outcomes : ClearingOutcomes} {version : String} {forced : Bool}

/-- What the first round leaves where it goes back. -/
theorem clears_or_failsByForce (again : outcomes.tryAgain version forced 0 = none) :
    (outcomes.inserts 1 ≠ .constraint ∧ outcomes.deletes 0 = true) ∨
      outcomes.FailsByForce forced := by
  obtain ⟨inserted, oversion, found, cause⟩ := AddOutcomes.tryAgain_eq_none_iff.mp again
  cases deleted : outcomes.deletes 0 with
  | true => exact .inl ⟨outcomes.clears 0 deleted, rfl⟩
  | false =>
      rw [deleted] at cause
      have byForce := cause.resolve_right fun both => Bool.false_ne_true both.2
      exact .inr ⟨byForce, inserted, by rw [found]; rfl, deleted⟩

theorem addsHonestly_of_failsAfterwards
    (afterwards : outcomes.FailsByForce forced → outcomes.FailsAfterwards) :
    outcomes.AddsHonestly version forced := by
  cases first : outcomes.tryAgain version forced 0 with
  | some rc =>
      refine ⟨1, rc, 1, AddOutcomes.addPkg_first 0 first, by decide, ?_⟩
      rintro ⟨round, below, fails⟩
      obtain rfl := Nat.lt_one_iff.mp below
      exact AddOutcomes.fatal_of_deleteFails fails first
  | none =>
      rcases clears_or_failsByForce first with ⟨cleared, deleted⟩ | byForce
      · obtain ⟨rc, second⟩ : ∃ rc, outcomes.tryAgain version forced 1 = some rc := by
          apply Option.ne_none_iff_exists'.mp
          intro again
          exact cleared (AddOutcomes.tryAgain_eq_none_iff.mp again).1
        refine ⟨2, rc, 2, ?_, Nat.le_refl _, ?_⟩
        · rw [AddOutcomes.addPkg_again 1 first, AddOutcomes.addPkg_first 0 second]
        · rintro ⟨round, below, conflict, notDeleted, -⟩
          match round with
          | 0 => exact Bool.noConfusion (deleted.symm.trans notDeleted)
          | 1 => exact absurd conflict cleared
      · have second : outcomes.tryAgain version forced 1 = some .fatal :=
          (AddOutcomes.failsAfterwards_iff byForce).mp (afterwards byForce)
        refine ⟨2, .fatal, 2, ?_, Nat.le_refl _, fun _ => rfl⟩
        rw [AddOutcomes.addPkg_again 1 first, AddOutcomes.addPkg_first 0 second]

/-- The addition is honest unless it deletes by force, in vain, and then goes on. -/
theorem addsHonestly_iff (outcomes : ClearingOutcomes) (version : String) (forced : Bool) :
    outcomes.AddsHonestly version forced ↔
      (outcomes.FailsByForce forced → outcomes.FailsAfterwards) := by
  refine ⟨?_, addsHonestly_of_failsAfterwards⟩
  rintro ⟨rounds, rc, inserted, ends, few, reported⟩ byForce
  obtain ⟨isForced, conflict, found, deleted⟩ := byForce
  obtain ⟨oversion, isRow⟩ := Option.isSome_iff_exists.mp found
  have again : outcomes.tryAgain version forced 0 = none :=
    AddOutcomes.tryAgain_eq_none_iff.mpr ⟨conflict, oversion, isRow, .inl isForced⟩
  obtain ⟨last, rfl, -, returns⟩ := AddOutcomes.addPkg_spec ends
  have isFatal := reported ⟨0, Nat.succ_pos last, conflict, deleted, oversion, isRow, .inl isForced⟩
  -- The first round has gone back, and no third one is allowed.
  have second : last = 1 := by
    have notFirst : last ≠ 0 := by
      rintro rfl
      rw [again] at returns
      cases returns
    omega
  rw [second, isFatal] at returns
  exact (AddOutcomes.failsAfterwards_iff ⟨isForced, conflict, found, deleted⟩).mpr returns

/-- Every insertion meets the row, which is found and cannot be deleted. -/
def lockedRow : ClearingOutcomes where
  inserts _ := .constraint
  lookups _ := some "1.0"
  deletes _ := false
  children _ := true
  clears _ deleted := Bool.noConfusion deleted

theorem lockedRow_not_addsHonestly :
    ¬∀ (outcomes : ClearingOutcomes) (version : String) (forced : Bool),
      outcomes.AddsHonestly version forced := by
  intro all
  obtain ⟨rounds, rc, inserted, ends, -⟩ := all lockedRow "1.0" true
  rw [AddOutcomes.addPkg_endless (fun _ => rfl) fun _ => ⟨"1.0", rfl⟩] at ends
  cases ends

end ClearingOutcomes

/-! ## The update -/

/-- The outcomes that the model of the update takes for granted: a constraint that stays, and a
row that is deleted. -/
def updateOutcomes (env : UpdateEnv) (number : Nat) (row : RepoRow) (table : RepoTable)
    (oversion : String) : AddOutcomes where
  inserts _ := env.inserts number
  lookups round := if round = 0 ∧ table.origins.contains row.origin then some oversion else none
  deletes _ := true
  children _ := env.children number = .done

theorem pkgRepoBinaryAddPkg_addPkg (env : UpdateEnv) (number : Nat) (row : RepoRow)
    (conn : Connection RepoTable) (version oversion : String) :
    ((updateOutcomes env number row conn.now oversion).addPkg version true 2 0).map Prod.fst =
      some (pkgRepoBinaryAddPkg env number row conn).1 := by
  unfold pkgRepoBinaryAddPkg
  cases inserted : env.inserts number with
  | done =>
      cases children : env.children number <;>
        simp [updateOutcomes, AddOutcomes.addPkg, AddOutcomes.tryAgain, inserted, children]
  | error => simp [updateOutcomes, AddOutcomes.addPkg, AddOutcomes.tryAgain, inserted]
  | constraint =>
      by_cases listed : row.origin ∈ conn.now.origins <;>
        simp [updateOutcomes, AddOutcomes.addPkg, AddOutcomes.tryAgain,
          AddOutcomes.pkgRepoBinaryDeleteConflicting, inserted, listed]

end Pkgng
