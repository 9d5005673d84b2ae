import Pkgng.Cudf.Numbering
import Pkgng.Universe.ChangeUid

/-!
# Rewinding a chain

`pkg_jobs_cudf_add_package` and `pkg_solve_handle_provide` look for the head of a chain
from any of its items: they follow `prev` until the item before has no `next`.  They rely
on the `prev` link of the head, which holds the last item.  Additions, moves to another uid
and sorts in place all keep that, whatever uids the items of a chain carry: a move that
cuts off the rest of a chain takes the rest out of the table.
-/

set_option autoImplicit false

namespace Pkgng

open Lib

namespace JobsUniverse

section Relabel

variable {u : JobsUniverse}

/-- The uid under which the chain of an item is filed. -/
def keyOf (u : JobsUniverse) (item : Addr) : Uid :=
  ((u.items.find? fun entry => (u.chain entry.2).contains item).map Prod.fst).getD ""

/-- Every package gets the uid of its chain.  What is done with the links and the table
does not depend on it. -/
def relabelled (u : JobsUniverse) : JobsUniverse :=
  { u with pkgs := u.pkgs.mapIdx fun item pkg => { pkg with uid := u.keyOf item } }

@[simp] theorem length_relabelled : u.relabelled.pkgs.length = u.pkgs.length := by
  simp [relabelled]

@[simp] theorem links_relabelled : u.relabelled.links = u.links := rfl

@[simp] theorem items_relabelled : u.relabelled.items = u.items := rfl

@[simp] theorem find_relabelled (uid : Uid) : u.relabelled.find uid = u.find uid := rfl

theorem uid_relabelled {item : Addr} (below : item < u.pkgs.length) :
    (u.relabelled.pkg item).uid = u.keyOf item := by
  simp [relabelled, pkg, List.getD_eq_getElem?_getD, below]

theorem keyOf_eq (inv : u.Threaded) {entry : Uid × Addr} {item : Addr} (member : entry ∈ u.items)
    (inChain : item ∈ u.chain entry.2) : u.keyOf item = entry.1 := by
  obtain ⟨other, found⟩ : ∃ other, u.items.find? (fun entry => (u.chain entry.2).contains item) =
      some other :=
    Option.isSome_iff_exists.mp (List.find?_isSome.mpr ⟨entry, member, by simpa using inChain⟩)
  have otherMember := List.mem_of_find?_eq_some found
  have inOther : item ∈ u.chain other.2 := by simpa using List.find?_some found
  have disjointSymm : Std.Symm fun entry other : Uid × Addr =>
      (u.chain entry.2).Disjoint (u.chain other.2) := ⟨fun _ _ apart => List.Disjoint.symm apart⟩
  have same : other = entry := by
    by_contra different
    have apart := inv.apart.forall otherMember member different
    exact apart inOther inChain
  rw [keyOf, found, same]
  rfl

theorem chained_relabelled (inv : u.Threaded) : u.relabelled.Chained := by
  have threaded : u.relabelled.Threaded := inv.of_same rfl rfl length_relabelled
  have chainEq : ∀ head, u.relabelled.chain head = u.chain head :=
    chain_of_same rfl length_relabelled
  refine ⟨threaded.linked, threaded.headed, threaded.keysNodup, threaded.unitsNodup,
    threaded.inBounds, ?_⟩
  intro entry member item inChain
  rw [chainEq] at inChain
  rw [uid_relabelled (inv.inBounds item (mem_units.mpr ⟨entry, member, inChain⟩))]
  exact keyOf_eq inv member inChain

end Relabel

/-! ## What keeps the chains threaded -/

section Keep

variable {u : JobsUniverse}

theorem Threaded.insert (inv : u.Threaded) (pkg : Pkg) (digest : Digest) :
    (u.insert pkg digest).Threaded := by
  have relabelled := (chained_insert pkg digest (chained_relabelled inv)).threaded
  refine relabelled.of_same ?_ ?_ ?_
  · simp [JobsUniverse.insert]
  · simp [JobsUniverse.insert]
  · simp

theorem Threaded.moveUid (inv : u.Threaded) {uid : Uid} {unit : Addr}
    (member : (uid, unit) ∈ u.items) (oldUid newUid : Uid) :
    (moveUid u unit oldUid newUid).Threaded := by
  have relabelled : (Pkgng.moveUid u.relabelled unit oldUid newUid).Threaded := by
    cases other : HashTable.find newUid (HashTable.delete unit u.items) with
    | none => exact threaded_refile oldUid other (chained_relabelled inv) member
    | some found => exact threaded_join oldUid other (chained_relabelled inv) member
  refine relabelled.of_same ?_ ?_ ?_
  · simp only [Pkgng.moveUid, modifyPkg, items_relabelled]
    split <;> rfl
  · simp only [Pkgng.moveUid, modifyPkg, items_relabelled]
    split <;> rfl
  · rw [length_moveUid, length_moveUid, length_relabelled]

end Keep

end JobsUniverse

section Runs

variable {env : Env} {fuel : Nat} {u u' : JobsUniverse}

theorem threaded_empty : JobsUniverse.Threaded {} :=
  JobsUniverse.repInv_empty.toChained.threaded

/-- The refills of a row iterator reach no link and no entry. -/
theorem Evolves.threaded (evolves : Evolves u u') (inv : u.Threaded) : u'.Threaded := by
  induction evolves with
  | refl => exact inv
  | @tail mid last first step ih =>
      cases step with
      | insert pkg digest => exact ih.insert pkg digest
      | emit message => exact ih.of_same rfl rfl rfl
      | record shlib prhead un => cases prhead <;> exact ih.of_same rfl rfl rfl
      | refill owners row =>
          have replaced := replaced_refill mid owners row
          exact ih.of_same replaced.links replaced.items replaced.length

theorem changeRdeps_threaded {oldUid newUid : Uid} : ∀ {rdeps : List Dep} {u mid : JobsUniverse},
    changeRdeps env fuel oldUid newUid rdeps u = some mid → u.Threaded → mid.Threaded := by
  intro rdeps
  induction rdeps with
  | nil =>
      intro u mid runs inv
      cases runs
      exact inv
  | cons rd rest ih =>
      intro u mid runs inv
      rw [changeRdeps] at runs
      obtain ⟨⟨found, u₁⟩, ran, runs⟩ := Option.bind_eq_some_iff.mp runs
      have early := (findRdep_evolves ran).threaded inv
      dsimp only at runs
      split at runs
      · exact ih runs (early.of_same rfl rfl (JobsUniverse.length_modifyPkg _ _))
      · exact ih runs early

theorem changeUid_threaded {uid newUid : Uid} {unit : Addr} {updateRdeps : Bool}
    (inv : u.Threaded) (member : (uid, unit) ∈ u.items)
    (ran : pkgJobsUniverseChangeUid env fuel u unit newUid updateRdeps = some u') :
    u'.Threaded := by
  obtain ⟨mid, before, result⟩ := Option.bind_eq_some_iff.mp ran
  cases result
  rw [beforeMove] at before
  split at before
  · obtain ⟨_, keeps, _⟩ := changeRdeps_spec before
    exact (changeRdeps_threaded before inv).moveUid (keeps _ member) _ _
  · cases before
    exact inv.moveUid member _ _

/-- One operation. -/
theorem runUniverseOp_threaded {op : UniverseOp} (inv : u.Threaded)
    (ran : runUniverseOp env fuel u op = some u') : u'.Threaded := by
  cases op with
  | addPkg pkg force =>
      cases ran
      exact (addPkg_evolves env.checksum u pkg force).threaded inv
  | changeUid uid newUid updateRdeps =>
      cases found : u.find uid with
      | none =>
          simp only [runUniverseOp, found] at ran
          cases ran
          exact inv
      | some unit =>
          simp only [runUniverseOp, found] at ran
          exact changeUid_threaded inv (HashTable.mem_of_find found) ran

theorem runUniverseOps_threaded (ops : List UniverseOp) (inv : u.Threaded)
    (ran : ops.foldlM (runUniverseOp env fuel) u = some u') : u'.Threaded := by
  induction ops generalizing u with
  | nil =>
      cases ran
      exact inv
  | cons op rest ih =>
      rw [List.foldlM_cons] at ran
      obtain ⟨mid, first, later⟩ := Option.bind_eq_some_iff.mp ran
      exact ih (runUniverseOp_threaded inv first) later

end Runs

/-! ## The two loops -/

/-- The `do` loop of `pkg_jobs_cudf_add_package`, which ends behind the item it leaves in
`head`. -/
def cudfFindHead (links : Links) : Nat → Addr → Option Addr
  | 0, _ => none
  | fuel + 1, cur =>
      let head := cur
      let cur := links.prev cur
      if links.next cur ≠ none then cudfFindHead links fuel cur else some head

/-- The `while` loop of `pkg_solve_handle_provide`. -/
def provideFindFirst (links : Links) : Nat → Addr → Option Addr
  | 0, _ => none
  | fuel + 1, un =>
      if links.next (links.prev un) ≠ none then provideFindFirst links fuel (links.prev un)
      else some un

theorem provideFindFirst_eq (links : Links) :
    ∀ (fuel : Nat) (item : Addr), provideFindFirst links fuel item = links.rewind fuel item := by
  intro fuel
  induction fuel with
  | zero => exact fun _ => rfl
  | succ fuel ih =>
      intro item
      rw [provideFindFirst, Links.rewind]
      cases links.next (links.prev item) with
      | none => rfl
      | some following => simpa using ih (links.prev item)

/-- The other loop has the head in a variable of its own. -/
theorem cudfFindHead_eq (links : Links) (fuel : Nat) (item : Addr) :
    cudfFindHead links fuel item = links.rewind fuel item := by
  rw [← provideFindFirst_eq]
  induction fuel generalizing item with
  | zero => rfl
  | succ fuel ih =>
      rw [cudfFindHead, provideFindFirst]
      simp only [ih]

/-- From every item of the chain both loops end, and end at its first element, from which
`LL_FOREACH` meets the whole chain. -/
def JobsUniverse.Rewinds (u : JobsUniverse) (chain : List Addr) : Prop :=
  ∀ item ∈ chain, ∃ first, chain.head? = some first ∧
    cudfFindHead u.links (u.pkgs.length + 1) item = some first ∧
    provideFindFirst u.links (u.pkgs.length + 1) item = some first ∧
    u.chain first = chain

theorem JobsUniverse.rewinds_chain {u : JobsUniverse} {chain : List Addr}
    (chained : Links.Represents u.links chain) (enough : chain.length ≤ u.pkgs.length) :
    u.Rewinds chain := by
  intro item inChain
  obtain ⟨first, isFirst, rewinds, walked⟩ :=
    JobsUniverse.rewinds_of_represents chained inChain enough
  refine ⟨first, isFirst, ?_, ?_, walked⟩
  · rw [cudfFindHead_eq, rewinds]
  · rw [provideFindFirst_eq, rewinds]

/-- In every universe that additions and moves reach, the chains are rewound to their
first elements, and so are the chains that `pkg_jobs_cudf_emit_file` sorts in place. -/
theorem rewinds_of_run (env : Env) (fuel : Nat) (ops : List UniverseOp) {u : JobsUniverse}
    (ran : ops.foldlM (runUniverseOp env fuel) {} = some u) :
    ∀ entry ∈ u.items, u.Rewinds (u.chain entry.2) ∧
      (sortedUniverse u).Rewinds (listSort (notNewer u) (u.chain entry.2)) := by
  intro entry member
  have inv := runUniverseOps_threaded ops threaded_empty ran
  obtain ⟨pkgs, _, sorted⟩ := sortedUniverse_spec inv
  refine ⟨JobsUniverse.rewinds_chain (inv.linked entry member) (inv.chain_length_le member),
    JobsUniverse.rewinds_chain (sorted entry member) ?_⟩
  rw [(listSort_perm (notNewer u) (u.chain entry.2)).length_eq, pkgs]
  exact inv.chain_length_le member

/-- Two packages of one uid, the first of which is moved behind a package of another. -/
def joinsOther : List UniverseOp :=
  [.addPkg { type := .installed, uid := "a", version := "1" } false,
   .addPkg { type := .remote, uid := "a", version := "2" } false,
   .addPkg { type := .remote, uid := "b", version := "3" } false,
   .changeUid "a" "b" false]

theorem joinsOther_rewinds : ∃ u, joinsOther.foldlM (runUniverseOp emptyEnv 0) {} = some u ∧
    u.items = [("b", 2)] ∧ u.chain 2 = [2, 0] ∧ u.Rewinds (u.chain 2) := by
  refine ⟨_, rfl, by decide, by decide, ?_⟩
  exact (rewinds_of_run emptyEnv 0 joinsOther rfl ("b", 2) (by decide)).1

end Pkgng
