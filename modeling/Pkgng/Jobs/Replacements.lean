import Pkgng.Lib.CStrings
import Pkgng.Lib.Renames
import Pkgng.Lib.Runs
import Pkgng.Universe.ChangeUid
import Pkgng.Universe.Populates

/-!
# Replaying the renames on the database

`pkg_jobs_universe_change_uid` notes each rename in front of `uid_replaces`, and
`pkg_jobs_apply_replacements` repeats them on the table of the packages from the front on, the
youngest first.
-/

set_option autoImplicit false

namespace Pkgng

open Lib

/-! ## The database -/

/-- `SPLIT_UID` for the name and the origin: what stands before and behind the last `~`. -/
def splitUid (data : List Char) : List Char × List Char :=
  match strrchr '~' data with
  | some pos => (data.take (data.length - pos.length), pos.drop 1)
  | none => (data, data)

/-- A row of `packages`: its id with its name and origin. -/
abbrev NamedRow := Nat × (List Char × List Char)

def rowUid (row : NamedRow) : List Char := row.2.1 ++ '~' :: row.2.2

/-- One `UPDATE`; the index `packages_unique` may refuse it. -/
def updateUid (rows : List NamedRow) (r : Uid × Uid) : List NamedRow :=
  rename rows (splitUid r.1.toList, splitUid r.2.toList)

/-- `pkg_jobs_apply_replacements`; a refused statement is passed over. -/
def pkgJobsApplyReplacements (rows : List NamedRow) (uidReplaces : List (Uid × Uid)) :
    List NamedRow :=
  uidReplaces.foldl updateUid rows

/-- The packages of the table differ in name or origin, and an origin has no `~`. -/
structure InstalledTable (rows : List NamedRow) : Prop where
  keys : (rows.map Prod.snd).Nodup
  origins : ∀ row ∈ rows, '~' ∉ row.2.2

/-- A uid of the form `name~origin`. -/
def NameAndOrigin (uid : Uid) : Prop :=
  ∃ name origin, uid.toList = name ++ '~' :: origin ∧ '~' ∉ origin

/-! ## Runs -/

/-- A call of `pkg_jobs_universe_change_uid`. -/
structure UidCall where
  unit : Addr
  newUid : Uid
  updateRdeps : Bool

/-- The universe, with the uids that the items had when they were added. -/
structure Renaming where
  univ : JobsUniverse
  loaded : List Uid

def Renaming.start (u : JobsUniverse) : Renaming := ⟨u, u.pkgs.map Pkg.uid⟩

def changeUidStep (env : Env) (fuel : Nat) (s : Renaming) (call : UidCall) : Option Renaming :=
  (pkgJobsUniverseChangeUid env fuel s.univ call.unit call.newUid call.updateRdeps).map fun univ =>
    ⟨univ, s.loaded ++ (univ.pkgs.drop s.loaded.length).map Pkg.uid⟩

/-- The item has been made of the package of the row. -/
def Renaming.MadeOf (s : Renaming) (item : Addr) (row : NamedRow) : Prop :=
  ∃ uid, s.loaded[item]? = some uid ∧ uid.toList = rowUid row

/-- An item of an installed package gets a uid that no other installed package has: no other
item, and no row whose package has not been moved away. -/
structure SoundCall (rows : List NamedRow) (s : Renaming) (call : UidCall) : Prop where
  installed : (s.univ.pkg call.unit).isInstalled = true
  own : ∃ row ∈ rows, s.MadeOf call.unit row
  form : NameAndOrigin call.newUid
  otherItems : ∀ item < s.univ.pkgs.length, item ≠ call.unit →
    (s.univ.pkg item).isInstalled = true → (s.univ.pkg item).uid ≠ call.newUid
  otherRows : ∀ row ∈ rows, rowUid row = call.newUid.toList →
    s.MadeOf call.unit row ∨ ∃ r ∈ s.univ.uidReplaces, r.1.toList = rowUid row

/-- Neither uid of the call has been the old uid of a rename, and the item's uid is not the new
one of a rename. -/
def KeepsOrder (s : Renaming) (call : UidCall) : Prop :=
  ∀ r ∈ s.univ.uidReplaces, r.1 ≠ (s.univ.pkg call.unit).uid ∧
    r.2 ≠ (s.univ.pkg call.unit).uid ∧ r.1 ≠ call.newUid

/-- Once the renames are replayed, the row of each renamed package has the name and the origin
of its item's uid. -/
def RowsFollow (rows : List NamedRow) (calls : List UidCall) (s : Renaming) : Prop :=
  ∀ call ∈ calls, ∀ row ∈ rows, s.MadeOf call.unit row →
    (row.1, splitUid (s.univ.pkg call.unit).uid.toList) ∈
      pkgJobsApplyReplacements rows s.univ.uidReplaces

/-! ## What a call does to the items -/

section Calls

variable {env : Env}

/-- The items below `n` and the renames are those of `start`. -/
structure SameBelow (start : JobsUniverse) (n : Nat) (u : JobsUniverse) : Prop where
  longer : n ≤ u.pkgs.length
  pkg : ∀ item < n, u.pkg item = start.pkg item
  uidReplaces : u.uidReplaces = start.uidReplaces

theorem pkg_refill_other {u : JobsUniverse} {owners : List Addr} {row : Pkg} {item : Addr}
    (other : item ∉ owners) : (u.refill owners row).pkg item = u.pkg item := by
  have folded : ∀ (owners : List Addr) (v : JobsUniverse), item ∉ owners →
      (owners.foldl (fun u owner => u.modifyPkg owner fun _ => row) v).pkg item = v.pkg item := by
    intro owners
    induction owners with
    | nil => exact fun _ _ => rfl
    | cons owner rest ih =>
        intro v notIn
        rw [List.mem_cons, not_or] at notIn
        rw [List.foldl_cons, ih _ notIn.2]
        exact JobsUniverse.pkg_modifyPkg_other _ notIn.1
  exact folded owners u other

theorem refill_frame (u : JobsUniverse) (owners : List Addr) (row : Pkg) :
    (u.refill owners row).pkgs.length = u.pkgs.length ∧
      (u.refill owners row).uidReplaces = u.uidReplaces := by
  have folded : ∀ (owners : List Addr) (v : JobsUniverse),
      (owners.foldl (fun u owner => u.modifyPkg owner fun _ => row) v).pkgs.length =
          v.pkgs.length ∧
        (owners.foldl (fun u owner => u.modifyPkg owner fun _ => row) v).uidReplaces =
          v.uidReplaces := by
    intro owners
    induction owners with
    | nil => exact fun _ => ⟨rfl, rfl⟩
    | cons owner rest ih =>
        intro v
        rw [List.foldl_cons]
        have later := ih (v.modifyPkg owner fun _ => row)
        rw [JobsUniverse.length_modifyPkg] at later
        exact later
  exact folded owners u

theorem populates_sameBelow (env : Env) (start : JobsUniverse) (n : Nat) :
    PopulatesFresh env (SameBelow start n) (fun _ => True) (n ≤ ·) where
  query _ _ _ := trivial
  repoQuery _ _ _ := trivial
  provide _ _ _ _ _ := trivial
  automatic _ _ _ := trivial
  held _ _ _ := trivial
  emit _ _ same := ⟨same.longer, same.pkg, same.uidReplaces⟩
  record u shlib prhead un same := by
    unfold JobsUniverse.recordProvide
    cases prhead with
    | none => exact ⟨same.longer, same.pkg, same.uidReplaces⟩
    | some entry => exact ⟨same.longer, same.pkg, same.uidReplaces⟩
  next _ same := same.longer
  refill u owners _ _ _ row _ fresh same := by
    obtain ⟨length, replaces⟩ := refill_frame u owners row
    refine ⟨by rw [length]; exact same.longer, fun item below => ?_,
      by rw [replaces]; exact same.uidReplaces⟩
    rw [pkg_refill_other fun owned => absurd (fresh item owned) (Nat.not_le_of_lt below)]
    exact same.pkg item below

theorem SameBelow.insert {start u : JobsUniverse} {n : Nat} (same : SameBelow start n u)
    (pkg : Pkg) (digest : Digest) : SameBelow start n (u.insert pkg digest) := by
  refine ⟨?_, fun item below => ?_, same.uidReplaces⟩
  · rw [JobsUniverse.insert, List.length_append]
    exact Nat.le_add_right_of_le same.longer
  · rw [← same.pkg item below]
    simp only [JobsUniverse.pkg, JobsUniverse.insert, List.getD_eq_getElem?_getD]
    rw [List.getElem?_append_left (Nat.lt_of_lt_of_le below same.longer)]

theorem processItem_sameBelow (fuel : Nat) {start : JobsUniverse} {n : Nat} :
    FollowingCalls False (SameBelow start n) (fun _ => True)
      (pkgJobsUniverseProcessItem env fuel) (pkgJobsUniverseProcessItem env fuel) := by
  induction fuel with
  | zero => exact fun _ _ _ _ => .nothing id _
  | succ fuel ih =>
      intro u pkg same _
      rw [pkgJobsUniverseProcessItem]
      rcases pkgJobsUniverseAddPkg_cases env.checksum u pkg false with
        ⟨_, added⟩ | ⟨_, _, _, _, _, added⟩ | ⟨digest, _, _, added⟩
      · rw [added]
        exact .result same
      · rw [added]
        exact .result same
      · rw [added]
        exact .bind (processAdded_follows (populates_sameBelow env start n) ih
          (same.insert pkg digest)) fun _ later => .result later

/-- The items of `start` have their uids, and are installed or not as before. -/
structure KeepsNames (start u : JobsUniverse) : Prop where
  longer : start.pkgs.length ≤ u.pkgs.length
  uid : ∀ item < start.pkgs.length, (u.pkg item).uid = (start.pkg item).uid
  installed : ∀ item < start.pkgs.length, (u.pkg item).isInstalled = (start.pkg item).isInstalled
  uidReplaces : u.uidReplaces = start.uidReplaces

theorem KeepsNames.refl (u : JobsUniverse) : KeepsNames u u :=
  ⟨Nat.le_refl _, fun _ _ => rfl, fun _ _ => rfl, rfl⟩

theorem KeepsNames.trans {u v w : JobsUniverse} (first : KeepsNames u v)
    (second : KeepsNames v w) : KeepsNames u w where
  longer := Nat.le_trans first.longer second.longer
  uid item below :=
    (second.uid item (Nat.lt_of_lt_of_le below first.longer)).trans (first.uid item below)
  installed item below :=
    (second.installed item (Nat.lt_of_lt_of_le below first.longer)).trans
      (first.installed item below)
  uidReplaces := second.uidReplaces.trans first.uidReplaces

theorem SameBelow.keepsNames {start u : JobsUniverse}
    (same : SameBelow start start.pkgs.length u) : KeepsNames start u :=
  ⟨same.longer, fun item below => by rw [same.pkg item below],
    fun item below => by rw [same.pkg item below], same.uidReplaces⟩

theorem keepsNames_renameDeps (u : JobsUniverse) (found : Addr) (oldUid newUid : Uid) :
    KeepsNames u (u.modifyPkg found (renameDeps oldUid newUid)) := by
  have unchanged : ∀ item < u.pkgs.length,
      ((u.modifyPkg found (renameDeps oldUid newUid)).pkg item).uid = (u.pkg item).uid ∧
        ((u.modifyPkg found (renameDeps oldUid newUid)).pkg item).isInstalled =
          (u.pkg item).isInstalled := by
    intro item below
    by_cases same : item = found
    · rw [same] at below ⊢
      rw [JobsUniverse.pkg_modifyPkg_self _ below]
      exact ⟨rfl, rfl⟩
    · rw [JobsUniverse.pkg_modifyPkg_other _ same]
      exact ⟨rfl, rfl⟩
  exact ⟨(@JobsUniverse.length_modifyPkg u found _).ge, fun item below => (unchanged item below).1,
    fun item below => (unchanged item below).2, rfl⟩

theorem findRdep_keepsNames {fuel : Nat} {u u' : JobsUniverse} {uid : Uid} {found : Option Addr}
    (ran : findRdep env fuel u uid = some (found, u')) : KeepsNames u u' := by
  rw [findRdep] at ran
  split at ran
  · cases ran
    exact .refl u
  · obtain ⟨lp, _, ran⟩ := Option.bind_eq_some_iff.mp ran
    obtain ⟨⟨rc, unit, v⟩, ran, same⟩ := Option.bind_eq_some_iff.mp ran
    cases same
    have start : SameBelow u u.pkgs.length u := ⟨Nat.le_refl _, fun _ _ => rfl, rfl⟩
    exact ((processItem_sameBelow fuel u lp start trivial).2 _ ran).2.keepsNames

theorem changeRdeps_keepsNames {fuel : Nat} {oldUid newUid : Uid} {rdeps : List Dep}
    {u mid : JobsUniverse} (runs : changeRdeps env fuel oldUid newUid rdeps u = some mid) :
    KeepsNames u mid := by
  induction rdeps generalizing u with
  | nil =>
      cases runs
      exact .refl _
  | cons rd rest ih =>
      rw [changeRdeps] at runs
      obtain ⟨⟨found, v⟩, ran, runs⟩ := Option.bind_eq_some_iff.mp runs
      have first := findRdep_keepsNames ran
      dsimp only at runs
      split at runs
      · next item => exact first.trans ((keepsNames_renameDeps v item oldUid newUid).trans (ih runs))
      · exact first.trans (ih runs)

/-- Everything a rename does to uids. -/
structure Renames (u : JobsUniverse) (unit : Addr) (newUid : Uid) (u' : JobsUniverse) : Prop where
  longer : u.pkgs.length ≤ u'.pkgs.length
  moved : (u'.pkg unit).uid = newUid
  others : ∀ item < u.pkgs.length, item ≠ unit → (u'.pkg item).uid = (u.pkg item).uid
  installed : ∀ item < u.pkgs.length, (u'.pkg item).isInstalled = (u.pkg item).isInstalled
  uidReplaces : u'.uidReplaces = ((u.pkg unit).uid, newUid) :: u.uidReplaces

theorem changeUid_renames {fuel : Nat} {u u' : JobsUniverse} {unit : Addr} {newUid : Uid}
    {updateRdeps : Bool} (inBounds : unit < u.pkgs.length)
    (ran : pkgJobsUniverseChangeUid env fuel u unit newUid updateRdeps = some u') :
    Renames u unit newUid u' := by
  obtain ⟨mid, before, result⟩ := Option.bind_eq_some_iff.mp ran
  cases result
  have kept : KeepsNames u mid := by
    unfold beforeMove at before
    split at before
    · exact changeRdeps_keepsNames before
    · cases before
      exact .refl u
  have inMid := Nat.lt_of_lt_of_le inBounds kept.longer
  have pkgs : (moveUid mid unit (u.pkg unit).uid newUid).pkgs =
      mid.pkgs.modify unit fun pkg => { pkg with uid := newUid } := by
    unfold moveUid
    dsimp only
    split
    · rfl
    · rfl
  have replaces : (moveUid mid unit (u.pkg unit).uid newUid).uidReplaces =
      ((u.pkg unit).uid, newUid) :: mid.uidReplaces := by
    unfold moveUid
    dsimp only
    split
    · rfl
    · rfl
  have item : ∀ item, (moveUid mid unit (u.pkg unit).uid newUid).pkg item =
      (mid.modifyPkg unit fun pkg => { pkg with uid := newUid }).pkg item := by
    intro item
    rw [JobsUniverse.pkg, pkgs]
    rfl
  have self := @JobsUniverse.pkg_modifyPkg_self mid unit (fun pkg => { pkg with uid := newUid }) inMid
  refine ⟨?_, ?_, fun other below apart => ?_, fun other below => ?_, ?_⟩
  · rw [pkgs, List.length_modify]
    exact kept.longer
  · rw [item, self]
  · rw [item, JobsUniverse.pkg_modifyPkg_other _ apart]
    exact kept.uid other below
  · rw [item, ← kept.installed other below]
    by_cases same : other = unit
    · rw [same, self]
      rfl
    · rw [JobsUniverse.pkg_modifyPkg_other _ same]
  · rw [replaces, kept.uidReplaces]

end Calls

/-! ## Splitting uids -/

theorem splitUid_nameAndOrigin {name origin : List Char} (noTilde : '~' ∉ origin) :
    splitUid (name ++ '~' :: origin) = (name, origin) := by
  have found : strrchr '~' (name ++ '~' :: origin) = some ('~' :: origin) := by
    rw [strrchr_append, strrchr_head noTilde, Option.some_or]
  rw [splitUid, found]
  simp

theorem splitUid_row {rows : List NamedRow} (table : InstalledTable rows) {row : NamedRow}
    (member : row ∈ rows) : splitUid (rowUid row) = row.2 :=
  splitUid_nameAndOrigin (table.origins row member)

theorem splitUid_injective {uid other : Uid} (form : NameAndOrigin uid)
    (formOther : NameAndOrigin other) (same : splitUid uid.toList = splitUid other.toList) :
    uid = other := by
  obtain ⟨name, origin, uidEq, noTilde⟩ := form
  obtain ⟨nameOther, originOther, otherEq, noTildeOther⟩ := formOther
  rw [uidEq, otherEq, splitUid_nameAndOrigin noTilde, splitUid_nameAndOrigin noTildeOther,
    Prod.mk.injEq] at same
  rw [← String.toList_inj, uidEq, otherEq, same.1, same.2]

theorem nameAndOrigin_row {rows : List NamedRow} (table : InstalledTable rows) {row : NamedRow}
    (member : row ∈ rows) {uid : Uid} (isRow : uid.toList = rowUid row) : NameAndOrigin uid :=
  ⟨row.2.1, row.2.2, isRow, table.origins row member⟩

/-! ## The invariant -/

section Runs

variable {env : Env} {fuel : Nat} {rows : List NamedRow}

/-- What holds along a run that keeps the order. -/
structure RenameInv (rows : List NamedRow) (s : Renaming) : Prop where
  length : s.loaded.length = s.univ.pkgs.length
  uids : ∀ (item : Addr) (uid : Uid), s.loaded[item]? = some uid →
    (s.univ.pkg item).uid = uid ∨ (uid, (s.univ.pkg item).uid) ∈ s.univ.uidReplaces
  items : ∀ r ∈ s.univ.uidReplaces, ∃ item < s.univ.pkgs.length,
    s.loaded[item]? = some r.1 ∧ (s.univ.pkg item).uid = r.2 ∧
      (s.univ.pkg item).isInstalled = true
  ofRow : ∀ r ∈ s.univ.uidReplaces, ∃ row ∈ rows, r.1.toList = rowUid row
  form : ∀ r ∈ s.univ.uidReplaces, NameAndOrigin r.2
  apart : s.univ.uidReplaces.Pairwise Untouched
  fresh : ∀ r ∈ s.univ.uidReplaces, ∀ row ∈ rows, rowUid row = r.2.toList →
    rowUid row = r.1.toList

theorem renameInv_start {u : JobsUniverse} (empty : u.uidReplaces = []) :
    RenameInv rows (.start u) where
  length := List.length_map _
  uids item uid atItem := by
    left
    rw [Renaming.start, List.getElem?_map, Option.map_eq_some_iff] at atItem
    obtain ⟨pkg, found, rfl⟩ := atItem
    rw [Renaming.start, JobsUniverse.pkg, List.getD_eq_getElem?_getD, found]
    rfl
  items r member := by
    rw [Renaming.start, empty] at member
    cases member
  ofRow r member := by
    rw [Renaming.start, empty] at member
    cases member
  form r member := by
    rw [Renaming.start, empty] at member
    cases member
  apart := by
    rw [Renaming.start, empty]
    exact .nil
  fresh r member := by
    rw [Renaming.start, empty] at member
    cases member

/-- What is loaded later is behind what was there. -/
theorem changeUidStep_spec {s s' : Renaming} {call : UidCall}
    (length : s.loaded.length = s.univ.pkgs.length) (inBounds : call.unit < s.univ.pkgs.length)
    (ran : changeUidStep env fuel s call = some s') :
    Renames s.univ call.unit call.newUid s'.univ ∧ s'.loaded.length = s'.univ.pkgs.length ∧
      (∀ item < s.univ.pkgs.length, s'.loaded[item]? = s.loaded[item]?) ∧
      ∀ item, s.univ.pkgs.length ≤ item → ∀ uid, s'.loaded[item]? = some uid →
        (s'.univ.pkg item).uid = uid := by
  obtain ⟨univ, changed, rfl⟩ := Option.map_eq_some_iff.mp ran
  have renames := changeUid_renames inBounds changed
  have longer := renames.longer
  refine ⟨renames, ?_, fun item below => ?_, fun item above uid atItem => ?_⟩
  · dsimp only
    rw [List.length_append, List.length_map, List.length_drop, length]
    omega
  · dsimp only
    rw [List.getElem?_append_left (by omega)]
  · dsimp only at atItem ⊢
    rw [List.getElem?_append_right (by omega), List.getElem?_map, List.getElem?_drop, length,
      Nat.add_sub_cancel' above, Option.map_eq_some_iff] at atItem
    obtain ⟨pkg, found, rfl⟩ := atItem
    rw [JobsUniverse.pkg, List.getD_eq_getElem?_getD, found]
    rfl

/-- The item of a call still has the uid of its row. -/
theorem RenameInv.unmoved {s : Renaming} {call : UidCall} (inv : RenameInv rows s)
    (sound : SoundCall rows s call) (order : KeepsOrder s call) :
    call.unit < s.univ.pkgs.length ∧ s.loaded[call.unit]? = some (s.univ.pkg call.unit).uid ∧
      ∃ row ∈ rows, (s.univ.pkg call.unit).uid.toList = rowUid row := by
  obtain ⟨row, member, uid, atUnit, isRow⟩ := sound.own
  obtain ⟨inLoaded, _⟩ := List.getElem?_eq_some_iff.mp atUnit
  have same : (s.univ.pkg call.unit).uid = uid := by
    rcases inv.uids call.unit uid atUnit with same | moved
    · exact same
    · exact absurd rfl (order _ moved).2.1
  rw [same]
  exact ⟨inv.length ▸ inLoaded, atUnit, row, member, isRow⟩

theorem RenameInv.step {s s' : Renaming} {call : UidCall} (inv : RenameInv rows s)
    (sound : SoundCall rows s call) (order : KeepsOrder s call)
    (ran : changeUidStep env fuel s call = some s') : RenameInv rows s' := by
  obtain ⟨inBounds, atUnit, ownRow⟩ := inv.unmoved sound order
  obtain ⟨renames, length, before, behind⟩ := changeUidStep_spec inv.length inBounds ran
  have otherItem : ∀ r ∈ s.univ.uidReplaces, ∃ item < s.univ.pkgs.length, item ≠ call.unit ∧
      s.loaded[item]? = some r.1 ∧ (s.univ.pkg item).uid = r.2 ∧
        (s.univ.pkg item).isInstalled = true := by
    intro r member
    obtain ⟨item, below, loaded, uid, installed⟩ := inv.items r member
    refine ⟨item, below, fun same => ?_, loaded, uid, installed⟩
    rw [same] at uid
    exact (order r member).2.1 uid.symm
  constructor
  · exact length
  · intro item uid atItem
    rw [renames.uidReplaces]
    by_cases below : item < s.univ.pkgs.length
    · rw [before item below] at atItem
      by_cases same : item = call.unit
      · rw [same, atUnit] at atItem
        rw [← Option.some.inj atItem, same, renames.moved]
        exact Or.inr (List.mem_cons_self ..)
      · rw [renames.others item below same]
        exact (inv.uids item uid atItem).imp id (List.mem_cons_of_mem _)
    · exact Or.inl (behind item (Nat.le_of_not_lt below) uid atItem)
  · intro r member
    rw [renames.uidReplaces] at member
    rcases List.mem_cons.mp member with rfl | old
    · refine ⟨call.unit, Nat.lt_of_lt_of_le inBounds renames.longer, ?_, renames.moved, ?_⟩
      · rw [before _ inBounds, atUnit]
      · rw [renames.installed _ inBounds, sound.installed]
    · obtain ⟨item, below, apart, loaded, uid, installed⟩ := otherItem r old
      refine ⟨item, Nat.lt_of_lt_of_le below renames.longer, ?_, ?_, ?_⟩
      · rw [before item below, loaded]
      · rw [renames.others item below apart, uid]
      · rw [renames.installed item below, installed]
  · intro r member
    rw [renames.uidReplaces] at member
    rcases List.mem_cons.mp member with rfl | old
    · exact ownRow
    · exact inv.ofRow r old
  · intro r member
    rw [renames.uidReplaces] at member
    rcases List.mem_cons.mp member with rfl | old
    · exact sound.form
    · exact inv.form r old
  · rw [renames.uidReplaces, List.pairwise_cons]
    refine ⟨fun r member => ?_, inv.apart⟩
    obtain ⟨item, below, apart, _, uid, installed⟩ := otherItem r member
    obtain ⟨oldOld, newOld, oldNew⟩ := order r member
    refine ⟨oldOld.symm, newOld.symm, oldNew.symm, fun same => ?_⟩
    exact sound.otherItems item below apart installed (uid.trans same.symm)
  · intro r member row isRow same
    rw [renames.uidReplaces] at member
    rcases List.mem_cons.mp member with rfl | old
    · rcases sound.otherRows row isRow same with ⟨uid, atItem, isUid⟩ | ⟨r, member, isOld⟩
      · rw [atUnit] at atItem
        rw [← isUid, ← Option.some.inj atItem]
      · have used : r.1 = call.newUid := by rw [← String.toList_inj, isOld, same]
        exact absurd used (order r member).2.2
    · exact inv.fresh r old row isRow same

/-- An item that has been renamed. -/
def Renamed (item : Addr) (s : Renaming) : Prop :=
  ∃ uid, s.loaded[item]? = some uid ∧ (uid, (s.univ.pkg item).uid) ∈ s.univ.uidReplaces

theorem renamed_self {s s' : Renaming} {call : UidCall} (inv : RenameInv rows s)
    (sound : SoundCall rows s call) (order : KeepsOrder s call)
    (ran : changeUidStep env fuel s call = some s') : Renamed call.unit s' := by
  obtain ⟨inBounds, atUnit, _⟩ := inv.unmoved sound order
  obtain ⟨renames, _, before, _⟩ := changeUidStep_spec inv.length inBounds ran
  refine ⟨(s.univ.pkg call.unit).uid, ?_, ?_⟩
  · rw [before _ inBounds, atUnit]
  · rw [renames.uidReplaces, renames.moved]
    exact List.mem_cons_self ..

theorem Renamed.step {s s' : Renaming} {call : UidCall} {item : Addr} (inv : RenameInv rows s)
    (sound : SoundCall rows s call) (order : KeepsOrder s call)
    (ran : changeUidStep env fuel s call = some s') (done : Renamed item s) :
    Renamed item s' := by
  obtain ⟨inBounds, _, _⟩ := inv.unmoved sound order
  obtain ⟨renames, _, before, _⟩ := changeUidStep_spec inv.length inBounds ran
  obtain ⟨uid, atItem, noted⟩ := done
  obtain ⟨inLoaded, _⟩ := List.getElem?_eq_some_iff.mp atItem
  have below : item < s.univ.pkgs.length := inv.length ▸ inLoaded
  have apart : item ≠ call.unit := by
    rintro rfl
    exact (order _ noted).2.1 rfl
  refine ⟨uid, by rw [before item below, atItem], ?_⟩
  rw [renames.uidReplaces, renames.others item below apart]
  exact List.mem_cons_of_mem _ noted

/-- A call that is sound and keeps the order. -/
def OrderlyCall (rows : List NamedRow) (s : Renaming) (call : UidCall) : Prop :=
  SoundCall rows s call ∧ KeepsOrder s call

theorem run_renamed {calls : List UidCall} {s s' : Renaming} (inv : RenameInv rows s)
    (run : runEvents (changeUidStep env fuel) s calls = some s')
    (careful : MeetsAlong (changeUidStep env fuel) (OrderlyCall rows) s calls) :
    RenameInv rows s' ∧ ∀ call ∈ calls, Renamed call.unit s' := by
  induction calls generalizing s with
  | nil =>
      cases run
      exact ⟨inv, fun _ member => absurd member List.not_mem_nil⟩
  | cons call rest ih =>
      obtain ⟨next, stepRun, restRun⟩ := runEvents_cons run
      obtain ⟨⟨sound, order⟩, later⟩ := careful
      have invNext := inv.step sound order stepRun
      have carefulRest := later next stepRun
      obtain ⟨invEnd, renamedRest⟩ := ih invNext restRun carefulRest
      refine ⟨invEnd, fun other member => ?_⟩
      rcases List.mem_cons.mp member with rfl | inRest
      · have done := @runEvents_invariant _ _ (changeUidStep env fuel) (OrderlyCall rows)
          (fun s => RenameInv rows s ∧ Renamed other.unit s)
          (fun _ _ _ holds meets ran =>
            ⟨holds.1.step meets.1 meets.2 ran, holds.2.step holds.1 meets.1 meets.2 ran⟩)
          next s' rest restRun carefulRest ⟨invNext, renamed_self inv sound order stepRun⟩
        exact done.2
      · exact renamedRest other inRest

/-! ## The replay -/

/-- The renames in terms of names and origins. -/
def Renaming.keys (s : Renaming) : List ((List Char × List Char) × (List Char × List Char)) :=
  s.univ.uidReplaces.map fun r => (splitUid r.1.toList, splitUid r.2.toList)

theorem keys_untouched (table : InstalledTable rows) {s : Renaming} (inv : RenameInv rows s) :
    s.keys.Pairwise Untouched := by
  have oldForm : ∀ r ∈ s.univ.uidReplaces, NameAndOrigin r.1 := by
    intro r member
    obtain ⟨row, isRow, uid⟩ := inv.ofRow r member
    exact nameAndOrigin_row table isRow uid
  rw [Renaming.keys, List.pairwise_map]
  refine inv.apart.imp_of_mem fun {r t} member memberT apart => ?_
  obtain ⟨oldOld, oldNew, newOld, newNew⟩ := apart
  refine ⟨fun same => oldOld ?_, fun same => oldNew ?_, fun same => newOld ?_,
    fun same => newNew ?_⟩
  · exact splitUid_injective (oldForm r member) (oldForm t memberT) same
  · exact splitUid_injective (oldForm r member) (inv.form t memberT) same
  · exact splitUid_injective (inv.form r member) (oldForm t memberT) same
  · exact splitUid_injective (inv.form r member) (inv.form t memberT) same

theorem applyReplacements_eq (table : InstalledTable rows) {s : Renaming}
    (inv : RenameInv rows s) :
    pkgJobsApplyReplacements rows s.univ.uidReplaces =
      rows.map fun row => (row.1, renamed s.keys row.2) := by
  rw [← foldl_rename table.keys (keys_untouched table inv), pkgJobsApplyReplacements,
    Renaming.keys, List.foldl_map]
  · rfl
  · intro key member row isRow same
    obtain ⟨r, noted, rfl⟩ := List.mem_map.mp member
    obtain ⟨name, origin, uid, noTilde⟩ := inv.form r noted
    dsimp only at same ⊢
    rw [uid, splitUid_nameAndOrigin noTilde] at same
    have old := inv.fresh r noted row isRow (by rw [rowUid, same, uid])
    rw [← old, splitUid_row table isRow]

/-- In every run that keeps the order of the renames the rows follow the items. -/
theorem carefulCalls_rowsFollow (env : Env) (fuel : Nat) (u : JobsUniverse) (rows : List NamedRow)
    (calls : List UidCall) (s : Renaming) (fresh : u.uidReplaces = [])
    (table : InstalledTable rows)
    (run : runEvents (changeUidStep env fuel) (.start u) calls = some s)
    (careful : MeetsAlong (changeUidStep env fuel) (OrderlyCall rows) (.start u) calls) :
    RowsFollow rows calls s := by
  obtain ⟨inv, done⟩ := run_renamed (renameInv_start fresh) run careful
  intro call member row isRow made
  obtain ⟨uid, atItem, isUid⟩ := made
  obtain ⟨loaded, atItem', noted⟩ := done call member
  rw [atItem] at atItem'
  cases atItem'
  rw [applyReplacements_eq table inv, List.mem_map]
  have key := renamed_of_mem (keys_untouched table inv) (List.mem_map_of_mem noted)
  rw [isUid, splitUid_row table isRow] at key
  exact ⟨row, isRow, by rw [key]⟩

end Runs

/-! ## Two runs -/

/-- A universe and a table with one installed package. -/
def oneInstalled : JobsUniverse :=
  (pkgJobsUniverseAddPkg emptyEnv.checksum {} { type := .installed, uid := "p~o" } false).2.2

def oneRow : List NamedRow := [(1, (['p'], ['o']))]

theorem oneRow_table : InstalledTable oneRow := ⟨by decide, by decide⟩

/-- The only item is given a uid that differs from the one of its row. -/
theorem soundCall_oneRow {s : Renaming} {newUid : Uid} {name : List Char}
    (alone : s.univ.pkgs.length = 1) (installed : (s.univ.pkg 0).isInstalled = true)
    (loaded : s.loaded[0]? = some "p~o") (form : newUid.toList = name ++ ['~', 'o'])
    (other : name ≠ ['p']) : SoundCall oneRow s ⟨0, newUid, false⟩ where
  installed := installed
  own := ⟨_, List.mem_singleton_self _, "p~o", loaded, by decide⟩
  form := ⟨name, ['o'], form, by decide⟩
  otherItems item below apart := by
    dsimp only at apart
    omega
  otherRows row member same := by
    rw [List.mem_singleton.mp member] at same
    refine absurd (List.append_cancel_right (same.trans form)) fun isName => ?_
    exact other isName.symm

/-- A package that is renamed twice. -/
def renamedTwice : List UidCall := [⟨0, "q~o", false⟩, ⟨0, "r~o", false⟩]

theorem renamedTwice_not_rowsFollow :
    ∃ s, InstalledTable oneRow ∧
      runEvents (changeUidStep emptyEnv 0) (.start oneInstalled) renamedTwice = some s ∧
      MeetsAlong (changeUidStep emptyEnv 0) (SoundCall oneRow) (.start oneInstalled)
        renamedTwice ∧
      ¬RowsFollow oneRow renamedTwice s := by
  refine ⟨_, oneRow_table, rfl, ?_, fun follow => ?_⟩
  · refine meetsAlong_cons (@soundCall_oneRow _ _ ['q'] rfl rfl rfl rfl (by decide)) rfl ?_
    exact meetsAlong_cons (@soundCall_oneRow _ _ ['r'] rfl rfl rfl rfl (by decide)) rfl trivial
  · have row := follow ⟨0, "q~o", false⟩ (by simp [renamedTwice]) (1, (['p'], ['o']))
      (List.mem_singleton_self _) ⟨"p~o", rfl, by decide⟩
    revert row
    decide +kernel

theorem renamedOnce_rowsFollow :
    ∃ s, runEvents (changeUidStep emptyEnv 0) (.start oneInstalled) [⟨0, "q~o", false⟩] = some s ∧
      RowsFollow oneRow [⟨0, "q~o", false⟩] s := by
  refine ⟨_, rfl, carefulCalls_rowsFollow emptyEnv 0 oneInstalled oneRow _ _ rfl oneRow_table rfl ?_⟩
  refine meetsAlong_cons ⟨@soundCall_oneRow _ _ ['q'] rfl rfl rfl rfl (by decide), ?_⟩ rfl
    trivial
  exact fun r member => absurd member List.not_mem_nil

end Pkgng
