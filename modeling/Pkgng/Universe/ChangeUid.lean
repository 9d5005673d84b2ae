import Pkgng.Universe.Evolve
import Pkgng.Solve.Variables

/-!
# Moving an item under another uid

`pkg_jobs_universe_change_uid` takes the head of a chain out of the table and
files it under a new uid.  The rest of its chain is not looked at: where the new
uid has no chain the rest moves along with its old uids, and where it has one
the append cuts the rest off.  For an item that is alone in its chain the move
is sound.
-/

set_option autoImplicit false

namespace Pkgng

open Lib

/-- The dependencies on the old uid, renamed. -/
def renameDeps (oldUid newUid : Uid) (pkg : Pkg) : Pkg :=
  { pkg with deps := pkg.deps.map fun d => if d.uid = oldUid then { d with uid := newUid } else d }

/-- The item of a reverse dependency.  One that is not in the universe must be
installed and is added first. -/
def findRdep (env : Env) (fuel : Nat) (u : JobsUniverse) (uid : Uid) :
    Option (Option Addr × JobsUniverse) :=
  match u.find uid with
  | some found => some (some found, u)
  | none => do
      let lp ← pkgJobsUniverseGetLocal env u uid
      let (_, found, u) ← pkgJobsUniverseProcessItem env fuel u lp
      pure (found, u)

/-- The loop over the reverse dependencies. -/
def changeRdeps (env : Env) (fuel : Nat) (oldUid newUid : Uid) :
    List Dep → JobsUniverse → Option JobsUniverse
  | [], u => some u
  | rd :: rest, u => do
      let (found, u) ← findRdep env fuel u rd.uid
      match found with
      | some found =>
          changeRdeps env fuel oldUid newUid rest (u.modifyPkg found (renameDeps oldUid newUid))
      | none => changeRdeps env fuel oldUid newUid rest u

/-- The closing lines: the replacement is noted and the item filed under its new
uid. -/
def moveUid (u : JobsUniverse) (unit : Addr) (oldUid newUid : Uid) : JobsUniverse :=
  let u := { u with uidReplaces := (oldUid, newUid) :: u.uidReplaces }
  let u := { u with items := HashTable.delete unit u.items }
  let u := u.modifyPkg unit fun pkg => { pkg with uid := newUid }
  match HashTable.find newUid u.items with
  | some found => { u with links := u.links.append (some found) unit }
  | none => { u with items := HashTable.add newUid unit u.items }

/-- What the loop over the reverse dependencies leaves, if it runs. -/
def beforeMove (env : Env) (fuel : Nat) (u : JobsUniverse) (unit : Addr) (newUid : Uid)
    (updateRdeps : Bool) : Option JobsUniverse :=
  if updateRdeps then
    changeRdeps env fuel (u.pkg unit).uid newUid (u.pkg unit).rdeps u
  else some u

def pkgJobsUniverseChangeUid (env : Env) (fuel : Nat) (u : JobsUniverse) (unit : Addr)
    (newUid : Uid) (updateRdeps : Bool) : Option JobsUniverse := do
  let mid ← beforeMove env fuel u unit newUid updateRdeps
  pure (moveUid mid unit (u.pkg unit).uid newUid)

theorem moveUid_uidReplaces (u : JobsUniverse) (unit : Addr) (oldUid newUid : Uid) :
    (moveUid u unit oldUid newUid).uidReplaces = (oldUid, newUid) :: u.uidReplaces := by
  unfold moveUid
  dsimp only
  split <;> rfl

theorem moveUid_seen (u : JobsUniverse) (unit : Addr) (oldUid newUid : Uid) :
    (moveUid u unit oldUid newUid).seen = u.seen := by
  unfold moveUid
  dsimp only
  split <;> rfl

theorem moveUid_pkgs (u : JobsUniverse) (unit : Addr) (oldUid newUid : Uid) :
    (moveUid u unit oldUid newUid).pkgs =
      u.pkgs.modify unit fun pkg => { pkg with uid := newUid } := by
  unfold moveUid
  dsimp only
  split <;> rfl

theorem moveUid_nitems (u : JobsUniverse) (unit : Addr) (oldUid newUid : Uid) :
    (moveUid u unit oldUid newUid).nitems = u.nitems := by
  unfold moveUid
  dsimp only
  split <;> rfl

namespace JobsUniverse

section Modify

variable {u : JobsUniverse}

@[simp] theorem length_modifyPkg (item : Addr) (f : Pkg → Pkg) :
    (u.modifyPkg item f).pkgs.length = u.pkgs.length := by
  simp [modifyPkg]

@[simp] theorem links_modifyPkg (item : Addr) (f : Pkg → Pkg) :
    (u.modifyPkg item f).links = u.links := rfl

theorem pkg_modifyPkg_self {item : Addr} (f : Pkg → Pkg) (inBounds : item < u.pkgs.length) :
    (u.modifyPkg item f).pkg item = f (u.pkg item) := by
  simp [modifyPkg, pkg, List.getD_eq_getElem?_getD, inBounds]

theorem pkg_modifyPkg_other {item other : Addr} (f : Pkg → Pkg) (apart : other ≠ item) :
    (u.modifyPkg item f).pkg other = u.pkg other := by
  have apart' : ¬ item = other := fun same => apart same.symm
  simp [modifyPkg, pkg, List.getD_eq_getElem?_getD, apart']

theorem repInv_modifyPkg {item : Addr} {f : Pkg → Pkg} (inv : u.RepInv)
    (keepsUid : ∀ pkg, (f pkg).uid = pkg.uid) : (u.modifyPkg item f).RepInv := by
  refine inv.of_same rfl rfl rfl rfl (by simp) fun other => ?_
  by_cases same : other = item
  · subst same
    by_cases inBounds : other < u.pkgs.length
    · rw [pkg_modifyPkg_self f inBounds, keepsUid]
    · simp [modifyPkg, pkg, List.getD_eq_getElem?_getD, inBounds]
  · rw [pkg_modifyPkg_other f same]

end Modify

/-! ## The move -/

section Move

variable {u : JobsUniverse} {uid newUid oldUid : Uid} {unit : Addr}

/-- Only the moved item's entry leaves the table. -/
theorem mem_delete_iff (inv : u.Chained) (member : (uid, unit) ∈ u.items) {entry : Uid × Addr} :
    entry ∈ HashTable.delete unit u.items ↔ entry ∈ u.items ∧ entry ≠ (uid, unit) := by
  rw [HashTable.mem_delete]
  refine and_congr_right fun old => not_congr ⟨fun same => ?_, fun same => by rw [same]⟩
  refine entry_unique inv old member (head_mem inv old) ?_
  rw [same]
  exact head_mem inv member

theorem items_perm_delete (inv : u.Chained) (member : (uid, unit) ∈ u.items) :
    u.items.Perm ((uid, unit) :: HashTable.delete unit u.items) := by
  have erased : HashTable.delete unit u.items = u.items.erase (uid, unit) := by
    rw [inv.keysNodup.of_map.erase_eq_filter, HashTable.delete]
    refine List.filter_congr fun entry old => ?_
    have iff : entry ∈ HashTable.delete unit u.items ↔ _ := mem_delete_iff inv member
    rw [HashTable.mem_delete] at iff
    simp only [old, true_and] at iff
    simp [bne, beq_eq_decide, iff]
  rw [erased]
  exact List.perm_cons_erase member

/-- The units, with the moved chain in front. -/
theorem units_perm_delete (inv : u.Chained) (member : (uid, unit) ∈ u.items) :
    u.units.Perm (u.chain unit ++
      ((HashTable.delete unit u.items).map fun entry => u.chain entry.2).flatten) := by
  have perm := ((items_perm_delete inv member).map fun entry => u.chain entry.2).flatten
  simpa [units, chains] using perm

/-- Items of the other chains are not the moved one. -/
theorem ne_unit_of_other (inv : u.Chained) (member : (uid, unit) ∈ u.items) {entry : Uid × Addr}
    (other : entry ∈ HashTable.delete unit u.items) {item : Addr}
    (inChain : item ∈ u.chain entry.2) : item ≠ unit := by
  rintro rfl
  obtain ⟨old, apart⟩ := (mem_delete_iff inv member).mp other
  exact apart (entry_unique inv old member inChain (head_mem inv member))

variable (oldUid)

theorem length_moveUid : (moveUid u unit oldUid newUid).pkgs.length = u.pkgs.length := by
  rw [moveUid_pkgs, List.length_modify]

theorem pkg_moveUid (item : Addr) : (moveUid u unit oldUid newUid).pkg item =
    (u.modifyPkg unit fun pkg => { pkg with uid := newUid }).pkg item := by
  rw [pkg, moveUid_pkgs]
  rfl

theorem pkg_moveUid_other {item : Addr} (apart : item ≠ unit) :
    (moveUid u unit oldUid newUid).pkg item = u.pkg item := by
  rw [pkg_moveUid, pkg_modifyPkg_other _ apart]

theorem uid_moveUid_self (inv : u.Chained) (member : (uid, unit) ∈ u.items) :
    ((moveUid u unit oldUid newUid).pkg unit).uid = newUid := by
  have below := inv.inBounds unit (mem_units.mpr ⟨_, member, head_mem inv member⟩)
  rw [pkg_moveUid, pkg_modifyPkg_self _ below]

/-- A move that keeps the units and the uids of its chains has the invariant. -/
theorem repInv_of_threaded (inv : u.RepInv)
    (threaded : (moveUid u unit oldUid newUid).Threaded)
    (perm : (moveUid u unit oldUid newUid).units.Perm u.units)
    (homogeneous : ∀ entry ∈ (moveUid u unit oldUid newUid).items,
      ∀ item ∈ (moveUid u unit oldUid newUid).chain entry.2,
        ((moveUid u unit oldUid newUid).pkg item).uid = entry.1) :
    (moveUid u unit oldUid newUid).RepInv where
  linked := threaded.linked
  headed := threaded.headed
  keysNodup := threaded.keysNodup
  unitsNodup := threaded.unitsNodup
  inBounds := threaded.inBounds
  homogeneous := homogeneous
  keepsAll item below := by
    rw [length_moveUid] at below
    exact perm.mem_iff.mpr (inv.keepsAll item below)
  seenReachable entry inSeen := by
    rw [moveUid_seen] at inSeen
    exact perm.mem_iff.mpr (inv.seenReachable entry inSeen)
  counted := by
    rw [perm.length_eq, moveUid_nitems]
    exact inv.counted

/-! ### Where the new uid has no chain

The item's chain is filed under it as it is. -/

section Refile

variable (absent : HashTable.find newUid (HashTable.delete unit u.items) = none)

include absent

theorem refile_links : (moveUid u unit oldUid newUid).links = u.links := by
  unfold moveUid
  dsimp only [modifyPkg]
  rw [absent]

theorem refile_items : (moveUid u unit oldUid newUid).items =
    HashTable.add newUid unit (HashTable.delete unit u.items) := by
  unfold moveUid
  dsimp only [modifyPkg]
  rw [absent]

theorem refile_chain (head : Addr) : (moveUid u unit oldUid newUid).chain head = u.chain head :=
  chain_of_same (refile_links oldUid absent) (length_moveUid oldUid) head

/-- The entries after the move. -/
theorem refile_entry_cases (inv : u.Chained) (member : (uid, unit) ∈ u.items) {entry : Uid × Addr}
    (inV : entry ∈ (moveUid u unit oldUid newUid).items) :
    (entry ∈ u.items ∧ entry ∈ HashTable.delete unit u.items) ∨ entry = (newUid, unit) := by
  rw [refile_items oldUid absent, HashTable.mem_add] at inV
  exact inV.imp_left fun other => ⟨((mem_delete_iff inv member).mp other).1, other⟩

theorem refile_units (inv : u.Chained) (member : (uid, unit) ∈ u.items) :
    (moveUid u unit oldUid newUid).units.Perm u.units := by
  refine List.Perm.trans ?_ (units_perm_delete inv member).symm
  simp only [units, chains, refile_items oldUid absent, refile_chain oldUid absent, HashTable.add,
    List.map_append, List.flatten_append]
  simpa using List.perm_append_comm

theorem threaded_refile (inv : u.Chained) (member : (uid, unit) ∈ u.items) :
    (moveUid u unit oldUid newUid).Threaded where
  linked := by
    intro entry inV
    rw [refile_chain oldUid absent, refile_links oldUid absent]
    rcases refile_entry_cases oldUid absent inv member inV with ⟨old, _⟩ | rfl
    · exact inv.linked entry old
    · exact inv.linked (uid, unit) member
  headed := by
    intro entry inV
    rw [refile_chain oldUid absent]
    rcases refile_entry_cases oldUid absent inv member inV with ⟨old, _⟩ | rfl
    · exact inv.headed entry old
    · exact inv.headed (uid, unit) member
  keysNodup := by
    rw [refile_items oldUid absent]
    exact HashTable.keys_nodup_add (HashTable.keys_nodup_delete inv.keysNodup) absent
  unitsNodup := (refile_units oldUid absent inv member).nodup_iff.mpr inv.unitsNodup
  inBounds item reachable := by
    rw [length_moveUid]
    exact inv.inBounds item ((refile_units oldUid absent inv member).mem_iff.mp reachable)

theorem repInv_refile (inv : u.RepInv) (member : (uid, unit) ∈ u.items)
    (sound : newUid = uid ∨ u.chain unit = [unit]) : (moveUid u unit oldUid newUid).RepInv := by
  refine repInv_of_threaded oldUid inv (threaded_refile oldUid absent inv.toChained member)
    (refile_units oldUid absent inv.toChained member) ?_
  intro entry inV item inChain
  rw [refile_chain oldUid absent] at inChain
  rcases refile_entry_cases oldUid absent inv.toChained member inV with ⟨old, other⟩ | rfl
  · rw [pkg_moveUid_other oldUid (ne_unit_of_other inv.toChained member other inChain)]
    exact inv.homogeneous entry old item inChain
  · by_cases isUnit : item = unit
    · rw [isUnit]
      exact uid_moveUid_self oldUid inv.toChained member
    · rw [pkg_moveUid_other oldUid isUnit]
      rcases sound with sameUid | alone
      · rw [inv.homogeneous _ member item inChain, sameUid]
      · rw [alone, List.mem_singleton] at inChain
        exact absurd inChain isUnit

end Refile

/-! ### Where the new uid has a chain

The item is appended to it, and the rest of its own chain is cut off. -/

section Join

variable {found : Addr}
  (present : HashTable.find newUid (HashTable.delete unit u.items) = some found)

include present

theorem join_links :
    (moveUid u unit oldUid newUid).links = u.links.append (some found) unit := by
  unfold moveUid
  dsimp only [modifyPkg]
  rw [present]

theorem join_items :
    (moveUid u unit oldUid newUid).items = HashTable.delete unit u.items := by
  unfold moveUid
  dsimp only [modifyPkg]
  rw [present]

theorem join_found_mem (inv : u.Chained) (member : (uid, unit) ∈ u.items) :
    (newUid, found) ∈ u.items :=
  ((mem_delete_iff inv member).mp (HashTable.mem_of_find present)).1

theorem join_unit_notMem (inv : u.Chained) (member : (uid, unit) ∈ u.items) :
    unit ∉ u.chain found := fun inChain =>
  ne_unit_of_other inv member (HashTable.mem_of_find present) inChain rfl

theorem join_chain_other (inv : u.Chained) (member : (uid, unit) ∈ u.items) {entry : Uid × Addr}
    (other : entry ∈ HashTable.delete unit u.items) (apart : entry.1 ≠ newUid) :
    Links.Represents (moveUid u unit oldUid newUid).links (u.chain entry.2) ∧
      (moveUid u unit oldUid newUid).chain entry.2 = u.chain entry.2 := by
  refine chain_append_other inv (join_links oldUid present)
    (Nat.le_of_eq (length_moveUid oldUid).symm) ((mem_delete_iff inv member).mp other).1
    (fun inChain => ne_unit_of_other inv member other inChain rfl) fun head isFound => ?_
  cases isFound
  exact ⟨newUid, join_found_mem present inv member, apart.symm⟩

theorem join_chain_same (inv : u.Chained) (member : (uid, unit) ∈ u.items) :
    Links.Represents (moveUid u unit oldUid newUid).links (u.chain found ++ [unit]) ∧
      (moveUid u unit oldUid newUid).chain found = u.chain found ++ [unit] := by
  have foundMember := join_found_mem present inv member
  have notIn := join_unit_notMem present inv member
  refine chain_append_same inv (join_links oldUid present) foundMember ?_ notIn
  have withUnit : (unit :: u.chain found).Nodup :=
    List.nodup_cons.mpr ⟨notIn, (inv.linked _ foundMember).nodup⟩
  rw [length_moveUid]
  refine Nat.lt_of_succ_le (length_le_of_nodup withUnit fun item inList => ?_)
  rcases List.mem_cons.mp inList with rfl | inChain
  · exact inv.inBounds _ (mem_units.mpr ⟨_, member, head_mem inv member⟩)
  · exact inv.inBounds item (mem_units.mpr ⟨_, foundMember, inChain⟩)

/-- The entries and chains after the move. -/
theorem join_entry_cases (inv : u.Chained) (member : (uid, unit) ∈ u.items) {entry : Uid × Addr}
    (inV : entry ∈ (moveUid u unit oldUid newUid).items) :
    (entry ∈ HashTable.delete unit u.items ∧ entry ∈ u.items ∧
      Links.Represents (moveUid u unit oldUid newUid).links (u.chain entry.2) ∧
      (moveUid u unit oldUid newUid).chain entry.2 = u.chain entry.2) ∨
    (entry = (newUid, found) ∧
      Links.Represents (moveUid u unit oldUid newUid).links (u.chain found ++ [unit]) ∧
      (moveUid u unit oldUid newUid).chain found = u.chain found ++ [unit]) := by
  rw [join_items oldUid present] at inV
  have old := ((mem_delete_iff inv member).mp inV).1
  by_cases sameUid : entry.1 = newUid
  · have filed := (find_eq_some_iff inv).mpr old
    rw [sameUid, (find_eq_some_iff inv).mpr (join_found_mem present inv member)] at filed
    have same : entry = (newUid, found) := Prod.ext sameUid (Option.some.inj filed).symm
    exact Or.inr ⟨same, join_chain_same oldUid present inv member⟩
  · exact Or.inl ⟨inV, old, join_chain_other oldUid present inv member inV sameUid⟩

theorem join_units (inv : u.Chained) (member : (uid, unit) ∈ u.items) :
    (moveUid u unit oldUid newUid).units.Perm
      (((HashTable.delete unit u.items).map fun entry => u.chain entry.2).flatten ++ [unit]) := by
  rw [units, chains, join_items oldUid present]
  exact perm_flatten_append (HashTable.keys_nodup_delete inv.keysNodup)
    (HashTable.mem_of_find present)
    (fun _ other apart => (join_chain_other oldUid present inv member other apart).2)
    (join_chain_same oldUid present inv member).2

/-- No item is met that was not met before. -/
theorem join_units_sub (inv : u.Chained) (member : (uid, unit) ∈ u.items) {item : Addr}
    (reachable : item ∈ (moveUid u unit oldUid newUid).units) : item ∈ u.units := by
  rw [(join_units oldUid present inv member).mem_iff, List.mem_append, List.mem_singleton]
    at reachable
  rw [(units_perm_delete inv member).mem_iff, List.mem_append]
  rcases reachable with other | rfl
  · exact Or.inr other
  · exact Or.inl (head_mem inv member)

theorem threaded_join (inv : u.Chained) (member : (uid, unit) ∈ u.items) :
    (moveUid u unit oldUid newUid).Threaded where
  linked := by
    intro entry inV
    rcases join_entry_cases oldUid present inv member inV with
      ⟨_, _, chained, same⟩ | ⟨rfl, chained, same⟩
    · rw [same]; exact chained
    · rw [same]; exact chained
  headed := by
    intro entry inV
    rcases join_entry_cases oldUid present inv member inV with ⟨_, old, _, same⟩ | ⟨rfl, _, same⟩
    · rw [same]; exact inv.headed entry old
    · rw [same, List.head?_append, inv.headed _ (join_found_mem present inv member)]
      rfl
  keysNodup := by
    rw [join_items oldUid present]
    exact HashTable.keys_nodup_delete inv.keysNodup
  unitsNodup := by
    have before := (units_perm_delete inv member).nodup_iff.mp inv.unitsNodup
    rw [(join_units oldUid present inv member).nodup_iff,
      List.perm_append_comm.nodup_iff, List.singleton_append, List.nodup_cons]
    obtain ⟨_, others, apart⟩ := List.nodup_append.mp before
    exact ⟨fun inOther => apart unit (head_mem inv member) unit inOther rfl, others⟩
  inBounds item reachable := by
    rw [length_moveUid]
    exact inv.inBounds item (join_units_sub oldUid present inv member reachable)

theorem repInv_join (inv : u.RepInv) (member : (uid, unit) ∈ u.items)
    (alone : u.chain unit = [unit]) : (moveUid u unit oldUid newUid).RepInv := by
  have perm : (moveUid u unit oldUid newUid).units.Perm u.units := by
    refine (join_units oldUid present inv.toChained member).trans ?_
    refine List.Perm.trans ?_ (units_perm_delete inv.toChained member).symm
    rw [alone]
    exact List.perm_append_comm
  refine repInv_of_threaded oldUid inv (threaded_join oldUid present inv.toChained member) perm ?_
  intro entry inV item inChain
  rcases join_entry_cases oldUid present inv.toChained member inV with
    ⟨other, old, _, same⟩ | ⟨rfl, _, same⟩
  · rw [same] at inChain
    rw [pkg_moveUid_other oldUid (ne_unit_of_other inv.toChained member other inChain)]
    exact inv.homogeneous entry old item inChain
  · rw [same, List.mem_append, List.mem_singleton] at inChain
    rcases inChain with inFound | rfl
    · rw [pkg_moveUid_other oldUid (ne_unit_of_other inv.toChained member
        (HashTable.mem_of_find present) inFound)]
      exact inv.homogeneous _ (join_found_mem present inv.toChained member) item inFound
    · exact uid_moveUid_self oldUid inv.toChained member

end Join

/-- The move of a head that is alone in its chain, or back under its own uid. -/
theorem repInv_moveUid (inv : u.RepInv) (member : (uid, unit) ∈ u.items)
    (sound : newUid = uid ∨ u.chain unit = [unit]) : (moveUid u unit oldUid newUid).RepInv := by
  cases other : HashTable.find newUid (HashTable.delete unit u.items) with
  | none => exact repInv_refile oldUid other inv member sound
  | some found =>
      rcases sound with rfl | alone
      · obtain ⟨old, apart⟩ := (mem_delete_iff inv.toChained member).mp (HashTable.mem_of_find other)
        have filed := (find_eq_some_iff inv.toChained).mpr old
        rw [(find_eq_some_iff inv.toChained).mpr member] at filed
        cases filed
        exact absurd rfl apart
      · exact repInv_join oldUid other inv member alone

end Move

end JobsUniverse

/-! ## Runs -/

section Runs

variable {env : Env} {fuel : Nat}

theorem findRdep_evolves {u u' : JobsUniverse} {uid : Uid} {found : Option Addr}
    (ran : findRdep env fuel u uid = some (found, u')) : Evolves u u' := by
  rw [findRdep] at ran
  split at ran
  · cases ran
    exact .refl
  · obtain ⟨lp, _, ran⟩ := Option.bind_eq_some_iff.mp ran
    obtain ⟨⟨_, _, _⟩, ran, same⟩ := Option.bind_eq_some_iff.mp ran
    cases same
    exact processItem_evolves _ _ _ _ _ _ ran

/-- The loop over the reverse dependencies keeps the invariant and leaves every
chain head filed, unless a row iterator overwrites a package. -/
theorem changeRdeps_spec {oldUid newUid : Uid} : ∀ {rdeps : List Dep} {u mid : JobsUniverse},
    changeRdeps env fuel oldUid newUid rdeps u = some mid →
      u.refilled <+: mid.refilled ∧ (∀ entry ∈ u.items, entry ∈ mid.items) ∧
        (mid.refilled = u.refilled → u.RepInv → mid.RepInv) := by
  intro rdeps
  induction rdeps with
  | nil =>
      intro u mid runs
      cases runs
      exact ⟨List.prefix_refl _, fun _ member => member, fun _ inv => inv⟩
  | cons rd rest ih =>
      intro u mid runs
      rw [changeRdeps] at runs
      obtain ⟨⟨found, u₁⟩, ran, runs⟩ := Option.bind_eq_some_iff.mp runs
      have evolves := findRdep_evolves ran
      have later : u₁.refilled <+: mid.refilled ∧ (∀ entry ∈ u₁.items, entry ∈ mid.items) ∧
          (mid.refilled = u₁.refilled → u₁.RepInv → mid.RepInv) := by
        dsimp only at runs
        split at runs
        · next item =>
            obtain ⟨grows, keeps, inv⟩ := ih runs
            exact ⟨grows, keeps, fun quiet old =>
              inv quiet (JobsUniverse.repInv_modifyPkg old fun _ => rfl)⟩
        · exact ih runs
      obtain ⟨grows, keeps, inv⟩ := later
      refine ⟨evolves.refilled_prefix.trans grows,
        fun entry member => keeps entry (evolves.items_mono member), fun quiet old => ?_⟩
      have early := evolves.refilled_prefix
      rw [quiet] at grows
      have same := grows.eq_of_length_le early.length_le
      exact inv (quiet.trans same.symm) (evolves.repInv same old)

/-- The two operations that shape the chains.  An item to be moved is looked up
by its uid, as the callers do. -/
inductive UniverseOp
  | addPkg (pkg : Pkg) (force : Bool)
  | changeUid (uid newUid : Uid) (updateRdeps : Bool)

def runUniverseOp (env : Env) (fuel : Nat) (u : JobsUniverse) : UniverseOp → Option JobsUniverse
  | .addPkg pkg force => some (pkgJobsUniverseAddPkg env.checksum u pkg force).2.2
  | .changeUid uid newUid updateRdeps =>
      match u.find uid with
      | none => some u
      | some unit => pkgJobsUniverseChangeUid env fuel u unit newUid updateRdeps

/-- An item is moved only while it is alone in its chain, or back under its own
uid, and the reverse dependencies are added without refilling a package. -/
def CarefulOp (env : Env) (fuel : Nat) (u : JobsUniverse) : UniverseOp → Prop
  | .addPkg _ _ => True
  | .changeUid uid newUid updateRdeps => ∀ unit mid, u.find uid = some unit →
      beforeMove env fuel u unit newUid updateRdeps = some mid →
        mid.refilled = u.refilled ∧ (newUid = uid ∨ mid.chain unit = [unit])

/-- The universes that runs of careful operations reach. -/
inductive CarefulRun (env : Env) (fuel : Nat) : JobsUniverse → Prop
  | start : CarefulRun env fuel {}
  | step {u u' : JobsUniverse} {op : UniverseOp} (reached : CarefulRun env fuel u)
      (careful : CarefulOp env fuel u op) (ran : runUniverseOp env fuel u op = some u') :
      CarefulRun env fuel u'

theorem repInv_changeUid {u u' : JobsUniverse} {uid newUid : Uid} {unit : Addr}
    {updateRdeps : Bool} (inv : u.RepInv) (found : u.find uid = some unit)
    (careful : CarefulOp env fuel u (.changeUid uid newUid updateRdeps))
    (ran : pkgJobsUniverseChangeUid env fuel u unit newUid updateRdeps = some u') : u'.RepInv := by
  obtain ⟨mid, before, result⟩ := Option.bind_eq_some_iff.mp ran
  cases result
  obtain ⟨quiet, sound⟩ := careful unit mid found before
  have member := (JobsUniverse.find_eq_some_iff inv.toChained).mp found
  rw [beforeMove] at before
  split at before
  · obtain ⟨_, keeps, midInv⟩ := changeRdeps_spec before
    exact JobsUniverse.repInv_moveUid _ (midInv quiet inv) (keeps _ member) sound
  · cases before
    exact JobsUniverse.repInv_moveUid _ inv member sound

/-- One operation. -/
theorem repInv_runUniverseOp {u u' : JobsUniverse} {op : UniverseOp} (inv : u.RepInv)
    (careful : CarefulOp env fuel u op) (ran : runUniverseOp env fuel u op = some u') :
    u'.RepInv := by
  cases op with
  | addPkg pkg force =>
      cases ran
      exact JobsUniverse.repInv_addPkg env.checksum pkg force inv
  | changeUid uid newUid updateRdeps =>
      cases found : u.find uid with
      | none =>
          simp only [runUniverseOp, found] at ran
          cases ran
          exact inv
      | some unit =>
          simp only [runUniverseOp, found] at ran
          exact repInv_changeUid inv found careful ran

/-- The variables of `pkg_solve_jobs_to_sat` are all filled, and no more than
there are. -/
def FillsVariables (u : JobsUniverse) : Prop :=
  ∃ sv, pkgSolveAddVariables u = some (sv, u.nitems) ∧ sv.vars.length = u.nitems ∧
    ∀ slot ∈ sv.vars, slot ≠ none

theorem fillsVariables_of_repInv {u : JobsUniverse} (inv : u.RepInv) : FillsVariables u := by
  obtain ⟨sv, runs, _, slots⟩ :=
    pkgSolveAddVariables_spec inv.toChained (Nat.le_of_eq inv.counted.symm)
  rw [inv.counted, Nat.sub_self, List.replicate_zero, List.append_nil] at slots
  refine ⟨sv, by rw [inv.counted]; exact runs, by rw [slots, inv.counted]; simp, ?_⟩
  intro slot inVars empty
  rw [slots, List.mem_iff_getElem?] at inVars
  obtain ⟨i, atIndex⟩ := inVars
  rw [getElem?_variablesOf, empty, Option.map_eq_some_iff] at atIndex
  obtain ⟨item, _, absurdity⟩ := atIndex
  cases absurdity

/-- Every universe that a careful run reaches has its representation intact. -/
theorem carefulRun_repInv {u : JobsUniverse} (run : CarefulRun env fuel u) :
    u.RepInv ∧ FillsVariables u := by
  have inv : u.RepInv := by
    induction run with
    | start => exact JobsUniverse.repInv_empty
    | step _ careful ran ih => exact repInv_runUniverseOp ih careful ran
  exact ⟨inv, fillsVariables_of_repInv inv⟩

end Runs

/-! ## Two runs -/

/-- Databases without a package. -/
def emptyEnv : Env where
  query _ := []
  repoQuery _ := []
  shlibProvide _ := none
  versionCmp _ _ := 0
  checksum pkg := some (pkg.uid ++ pkg.version)

/-- A package `a` that is added, and renamed to `c` after a package `b` was. -/
def renamedAlone : JobsUniverse :=
  let u := (pkgJobsUniverseAddPkg emptyEnv.checksum {} { type := .installed, uid := "a" } false).2.2
  let u := (pkgJobsUniverseAddPkg emptyEnv.checksum u { type := .remote, uid := "b" } false).2.2
  moveUid u 0 "a" "c"

theorem renamedAlone_repInv : renamedAlone.RepInv ∧ FillsVariables renamedAlone := by
  have empty : CarefulRun emptyEnv 0 {} := .start
  have first := @CarefulRun.step emptyEnv 0 _ _
    (.addPkg { type := .installed, uid := "a" } false) empty trivial rfl
  have second := @CarefulRun.step emptyEnv 0 _ _
    (.addPkg { type := .remote, uid := "b" } false) first trivial rfl
  refine carefulRun_repInv
    (@CarefulRun.step emptyEnv 0 _ _ (.changeUid "a" "c" false) second ?_ rfl)
  intro unit mid found before
  cases before
  cases found
  exact ⟨rfl, .inr rfl⟩

/-- An installed package and its remote update, of which only the head is renamed. -/
def upgradeThenRename : List UniverseOp :=
  [.addPkg { type := .installed, uid := "a", version := "1" } false,
   .addPkg { type := .remote, uid := "a", version := "2" } false,
   .changeUid "a" "b" false]

/-- The chain filed under `b` keeps an item that carries the uid `a`. -/
theorem upgradeThenRename_breaks : ∃ u,
    upgradeThenRename.foldlM (runUniverseOp emptyEnv 0) {} = some u ∧ ¬ u.RepInv := by
  refine ⟨_, rfl, fun inv => ?_⟩
  have carried := inv.homogeneous ("b", 0) (by decide) 1 (by decide)
  revert carried
  decide

end Pkgng
