import Pkgng.Package
import Mathlib.Data.List.Nodup

/-!
# Conflicts of files

`pkgdb_integrity_append` enters the files of the packages to be installed into a temporary table,
in which a path has one owner, and `pkgdb_integrity_check` compares the table with the files of the
installed packages.
-/

set_option autoImplicit false

namespace Pkgng

/-- A package with the paths of its files. -/
structure FilesPkg where
  uid : Uid
  files : List String
deriving DecidableEq, Repr

/-- The table `integritycheck`, path and uid; the path is unique. -/
abbrev IntegrityTable := List (String × Uid)

/-- The table `files` with the uids of the packages; the path is its primary key. -/
structure InstalledFiles where
  rows : List (String × Uid)
  unique : (rows.map Prod.fst).Nodup

/-- The uids that the callback is invoked with. -/
abbrev ConflictCalls := List (Uid × Uid)

/-- The loop of `pkgdb_integrity_append`.  Where the path is there the row is refused, and the
package is reported with its owner. -/
def integrityAppend (uid : Uid) :
    List String → IntegrityTable → Epkg × ConflictCalls × IntegrityTable
  | [], table => (.ok, [], table)
  | path :: rest, table =>
      match table.lookup path with
      | none => integrityAppend uid rest (table ++ [(path, uid)])
      | some owner =>
          let (_, calls, table) := integrityAppend uid rest table
          (.conflict, (uid, owner) :: calls, table)

def pkgdbIntegrityAppend (p : FilesPkg) (table : IntegrityTable) :
    Epkg × ConflictCalls × IntegrityTable :=
  integrityAppend p.uid p.files table

/-- One package after the other. -/
def appendAll : List FilesPkg → IntegrityTable → ConflictCalls × IntegrityTable
  | [], table => ([], table)
  | p :: rest, table =>
      let (_, calls, table) := pkgdbIntegrityAppend p table
      let (more, table) := appendAll rest table
      (calls ++ more, table)

/-- `pkgdb_integrity_check`: the installed owner of a path in the table, and the one in the table,
if they differ. -/
def pkgdbIntegrityCheck (table : IntegrityTable) (files : InstalledFiles) :
    Epkg × ConflictCalls :=
  let calls := files.rows.filterMap fun row =>
    ((table.lookup row.1).filter fun uid => row.2 ≠ uid).map fun uid => (row.2, uid)
  (if calls = [] then .ok else .conflict, calls)

/-- Every two of the packages that share a path are reported, and every package with an installed
one of another uid. -/
structure FindsConflicts (pkgs : List FilesPkg) (files : InstalledFiles) : Prop where
  pairs : pkgs.Pairwise fun p q => (∃ path ∈ p.files, path ∈ q.files) →
    (p.uid, q.uid) ∈ (appendAll pkgs []).1 ∨ (q.uid, p.uid) ∈ (appendAll pkgs []).1
  installed : ∀ p ∈ pkgs, ∀ row ∈ files.rows, row.1 ∈ p.files → row.2 ≠ p.uid →
    (row.2, p.uid) ∈ (pkgdbIntegrityCheck (appendAll pkgs []).2 files).2

/-- The first of the packages that has the path. -/
def firstOwner (pkgs : List FilesPkg) (path : String) : Option Uid :=
  (pkgs.find? fun p => path ∈ p.files).map FilesPkg.uid

/-- Of the paths that two packages share, or a package and an installed one, there is one that no
package in front of them has. -/
structure OwnsShared (pkgs : List FilesPkg) (files : InstalledFiles) : Prop where
  pairs : pkgs.Pairwise fun p q => (∃ path ∈ p.files, path ∈ q.files) →
    ∃ path ∈ q.files, firstOwner pkgs path = some p.uid
  installed : ∀ p ∈ pkgs, ∀ row ∈ files.rows, row.1 ∈ p.files → row.2 ≠ p.uid →
    ∃ other ∈ files.rows, other.2 = row.2 ∧ firstOwner pkgs other.1 = some p.uid

section Append

variable {uid : Uid} {table : IntegrityTable}

theorem lookup_integrityAppend (paths : List String) (path : String) :
    (integrityAppend uid paths table).2.2.lookup path =
      (table.lookup path).or (if path ∈ paths then some uid else none) := by
  induction paths generalizing table with
  | nil => simp [integrityAppend]
  | cons first rest ih =>
      rw [integrityAppend]
      cases found : table.lookup first with
      | none =>
          dsimp only
          rw [ih, List.lookup_append]
          by_cases same : path = first
          · simp [same, found]
          · have other : List.lookup path [(first, uid)] = none := by
              rw [List.lookup_cons, beq_false_of_ne same]
              rfl
            rw [other, Option.or_none]
            simp [same]
      | some owner =>
          dsimp only
          rw [ih]
          by_cases same : path = first
          · simp [same, found]
          · simp [same]

theorem fst_integrityAppend (paths : List String) :
    ∀ call ∈ (integrityAppend uid paths table).2.1, call.1 = uid := by
  induction paths generalizing table with
  | nil => exact fun _ member => absurd member List.not_mem_nil
  | cons first rest ih =>
      rw [integrityAppend]
      split
      · exact ih
      · exact List.forall_mem_cons.mpr ⟨rfl, ih⟩

/-- A package is reported with the owners of its paths, and with none but these and itself. -/
theorem mem_integrityAppend (paths : List String) {a b : Uid} (other : b ≠ uid) :
    (a, b) ∈ (integrityAppend uid paths table).2.1 ↔
      a = uid ∧ ∃ path ∈ paths, table.lookup path = some b := by
  induction paths generalizing table with
  | nil => simp [integrityAppend]
  | cons first rest ih =>
      rw [integrityAppend]
      cases found : table.lookup first with
      | none =>
          dsimp only
          rw [ih]
          -- The new row belongs to the package itself.
          have same : ∀ path, (table ++ [(first, uid)]).lookup path = some b ↔
              table.lookup path = some b := by
            intro path
            rw [List.lookup_append, Option.or_eq_some_iff]
            refine ⟨fun either => either.elim id fun new => absurd new.2 ?_, .inl⟩
            rw [List.lookup_cons]
            split
            · exact fun isUid => other (Option.some.inj isUid).symm
            · exact nofun
          simp only [same, List.mem_cons, exists_eq_or_imp, found, reduceCtorEq, false_or]
      | some owner =>
          dsimp only
          rw [List.mem_cons, ih, Prod.mk.injEq]
          simp only [List.mem_cons, exists_eq_or_imp, found, Option.some.injEq]
          constructor
          · rintro (⟨rfl, rfl⟩ | ⟨rfl, later⟩)
            · exact ⟨rfl, .inl rfl⟩
            · exact ⟨rfl, .inr later⟩
          · rintro ⟨rfl, rfl | later⟩
            · exact .inl ⟨rfl, rfl⟩
            · exact .inr ⟨rfl, later⟩

end Append

section Runs

variable {pkgs : List FilesPkg} {table : IntegrityTable}

theorem firstOwner_cons (p : FilesPkg) (rest : List FilesPkg) (path : String) :
    firstOwner (p :: rest) path = if path ∈ p.files then some p.uid else firstOwner rest path := by
  rw [firstOwner, List.find?_cons]
  by_cases has : path ∈ p.files
  · rw [if_pos has, decide_eq_true has]
    rfl
  · rw [if_neg has, decide_eq_false has]
    rfl

theorem firstOwner_append (before after : List FilesPkg) (path : String) :
    firstOwner (before ++ after) path = (firstOwner before path).or (firstOwner after path) := by
  rw [firstOwner, List.find?_append, firstOwner, firstOwner]
  cases before.find? fun p => path ∈ p.files <;> rfl

theorem mem_of_firstOwner {path : String} {uid : Uid} (owns : firstOwner pkgs path = some uid) :
    ∃ p ∈ pkgs, p.uid = uid ∧ path ∈ p.files := by
  obtain ⟨p, found, same⟩ := Option.map_eq_some_iff.mp owns
  exact ⟨p, List.mem_of_find?_eq_some found, same, by simpa using List.find?_some found⟩

theorem firstOwner_isSome {p : FilesPkg} (member : p ∈ pkgs) {path : String}
    (has : path ∈ p.files) : ∃ uid, firstOwner pkgs path = some uid := by
  cases owns : firstOwner pkgs path with
  | some uid => exact ⟨uid, rfl⟩
  | none =>
      rw [firstOwner, Option.map_eq_none_iff, List.find?_eq_none] at owns
      exact absurd (decide_eq_true has) (owns p member)

/-- The table keeps the first owner of each path. -/
theorem lookup_appendAll (pkgs : List FilesPkg) (table : IntegrityTable) (path : String) :
    (appendAll pkgs table).2.lookup path = (table.lookup path).or (firstOwner pkgs path) := by
  induction pkgs generalizing table with
  | nil => rw [appendAll, firstOwner, List.find?_nil, Option.map_none, Option.or_none]
  | cons p rest ih =>
      rw [appendAll]
      dsimp only
      rw [ih, pkgdbIntegrityAppend, lookup_integrityAppend, firstOwner_cons, Option.or_assoc]
      congr 1
      split <;> rfl

/-- Everything that the packages are reported for: the owners, among those in front, of their
paths. -/
theorem mem_appendAll (pkgs : List FilesPkg) (table : IntegrityTable) {a b : Uid} (other : b ≠ a) :
    (a, b) ∈ (appendAll pkgs table).1 ↔
      ∃ before q after, pkgs = before ++ q :: after ∧ q.uid = a ∧
        ∃ path ∈ q.files, (table.lookup path).or (firstOwner before path) = some b := by
  induction pkgs generalizing table with
  | nil =>
      rw [appendAll]
      refine iff_of_false List.not_mem_nil fun split => ?_
      obtain ⟨before, q, after, same, _⟩ := split
      cases before <;> cases same
  | cons p rest ih =>
      rw [appendAll]
      dsimp only
      rw [List.mem_append, ih]
      constructor
      · rintro (here | ⟨before, q, after, rfl, isUid, path, has, owns⟩)
        · have isUid : a = p.uid := fst_integrityAppend _ _ here
          obtain ⟨_, path, has, owns⟩ := (mem_integrityAppend _ (isUid ▸ other)).mp here
          exact ⟨[], p, rest, rfl, isUid.symm, path, has, by rw [owns]; rfl⟩
        · refine ⟨p :: before, q, after, rfl, isUid, path, has, ?_⟩
          rw [pkgdbIntegrityAppend, lookup_integrityAppend, Option.or_assoc] at owns
          rw [firstOwner_cons, ← owns]
          congr 1
          split <;> rfl
      · rintro ⟨before, q, after, same, isUid, path, has, owns⟩
        cases before with
        | nil =>
            obtain ⟨rfl, rfl⟩ := List.cons.inj same
            rw [firstOwner, List.find?_nil, Option.map_none, Option.or_none] at owns
            exact .inl ((mem_integrityAppend _ (isUid ▸ other)).mpr ⟨isUid.symm, path, has, owns⟩)
        | cons first before =>
            obtain ⟨rfl, rfl⟩ := List.cons.inj same
            refine .inr ⟨before, q, after, rfl, isUid, path, has, ?_⟩
            rw [firstOwner_cons] at owns
            rw [pkgdbIntegrityAppend, lookup_integrityAppend, Option.or_assoc, ← owns]
            congr 1
            split <;> rfl

/-- Two elements of a list without repetition have one order. -/
theorem not_sublist_swapped {α : Type} {list : List α} (nodup : list.Nodup) {a b : α}
    (order : [a, b].Sublist list) : ¬[b, a].Sublist list := by
  induction list with
  | nil => cases order
  | cons first rest ih =>
      obtain ⟨notIn, restNodup⟩ := List.nodup_cons.mp nodup
      intro swapped
      rcases List.sublist_cons_iff.mp order with inRest | ⟨tail, same, inRest⟩
      · rcases List.sublist_cons_iff.mp swapped with swappedRest | ⟨tail', same', _⟩
        · exact ih restNodup inRest swappedRest
        · exact notIn ((List.cons.inj same').1 ▸ inRest.subset (by simp))
      · obtain ⟨rfl, rfl⟩ := List.cons.inj same
        rcases List.sublist_cons_iff.mp swapped with swappedRest | ⟨tail', same', _⟩
        · exact notIn (swappedRest.subset (by simp))
        · exact notIn ((List.cons.inj same').1 ▸ inRest.subset (by simp))

section Main

variable {files : InstalledFiles}

theorem eq_of_uid (distinct : (pkgs.map FilesPkg.uid).Nodup) {p q : FilesPkg} (member : p ∈ pkgs)
    (other : q ∈ pkgs) (same : p.uid = q.uid) : p = q :=
  List.inj_on_of_nodup_map distinct member other same

/-- Of two packages the later one is reported with the earlier one, for a path of which that one
is the first owner. -/
theorem pair_reported_iff (distinct : (pkgs.map FilesPkg.uid).Nodup) {p q : FilesPkg}
    (order : [p, q].Sublist pkgs) :
    ((p.uid, q.uid) ∈ (appendAll pkgs []).1 ∨ (q.uid, p.uid) ∈ (appendAll pkgs []).1) ↔
      ∃ path ∈ q.files, firstOwner pkgs path = some p.uid := by
  have pIn : p ∈ pkgs := order.subset (by simp)
  have qIn : q ∈ pkgs := order.subset (by simp)
  obtain ⟨front, back, rfl, pFront, qBack⟩ := List.cons_sublist_iff.mp order
  have apart : p.uid ≠ q.uid := by
    intro same
    rw [List.map_append] at distinct
    exact List.disjoint_of_nodup_append distinct (List.mem_map_of_mem pFront)
      (same ▸ List.mem_map_of_mem (List.singleton_sublist.mp qBack))
  rw [mem_appendAll _ _ apart.symm, mem_appendAll _ _ apart]
  simp only [List.lookup_nil, Option.none_or]
  constructor
  · rintro (⟨before, p', after, split, isP, path, has, owns⟩ |
      ⟨before, q', after, split, isQ, path, has, owns⟩)
    · -- The other way round the later package would stand in front.
      obtain ⟨q', inBefore, isQ, _⟩ := mem_of_firstOwner owns
      have sameP := eq_of_uid distinct (split ▸ List.mem_append_right _ List.mem_cons_self) pIn isP
      have sameQ := eq_of_uid distinct (split ▸ List.mem_append_left _ inBefore) qIn isQ
      subst sameP sameQ
      refine absurd ?_ (not_sublist_swapped (List.Nodup.of_map _ distinct) order)
      rw [split]
      exact (List.singleton_sublist.mpr inBefore).append
        (List.singleton_sublist.mpr List.mem_cons_self)
    · have sameQ := eq_of_uid distinct (split ▸ List.mem_append_right _ List.mem_cons_self) qIn isQ
      subst sameQ
      refine ⟨path, has, ?_⟩
      rw [split, firstOwner_append, owns]
      rfl
  · rintro ⟨path, has, owns⟩
    obtain ⟨p', p'In, isP, pHas⟩ := mem_of_firstOwner owns
    have sameP := eq_of_uid distinct p'In pIn isP
    subst sameP
    obtain ⟨middle, after, rfl⟩ := List.append_of_mem (List.singleton_sublist.mp qBack)
    obtain ⟨uid, frontOwns⟩ := firstOwner_isSome pFront pHas
    rw [firstOwner_append, frontOwns, Option.some_or] at owns
    refine .inr ⟨front ++ middle, q, after, (List.append_assoc ..).symm, rfl, path, has, ?_⟩
    rw [firstOwner_append, frontOwns, owns]
    rfl

theorem installed_reported_iff (pkgs : List FilesPkg) {installed uid : Uid}
    (apart : installed ≠ uid) :
    (installed, uid) ∈ (pkgdbIntegrityCheck (appendAll pkgs []).2 files).2 ↔
      ∃ row ∈ files.rows, row.2 = installed ∧ firstOwner pkgs row.1 = some uid := by
  rw [pkgdbIntegrityCheck]
  dsimp only
  rw [List.mem_filterMap]
  simp only [lookup_appendAll, List.lookup_nil, Option.none_or]
  constructor
  · rintro ⟨row, member, reported⟩
    obtain ⟨owner, isOwner, same⟩ := Option.map_eq_some_iff.mp reported
    obtain ⟨rfl, rfl⟩ := Prod.mk.inj same
    exact ⟨row, member, rfl, (Option.filter_eq_some_iff.mp isOwner).1⟩
  · rintro ⟨row, member, rfl, owns⟩
    refine ⟨row, member, ?_⟩
    rw [owns, Option.filter_some, if_pos (decide_eq_true apart)]
    rfl

/-- All conflicts are found exactly if each has a path whose first owner takes part in it. -/
theorem findsConflicts_iff (distinct : (pkgs.map FilesPkg.uid).Nodup) :
    FindsConflicts pkgs files ↔ OwnsShared pkgs files := by
  constructor
  · intro finds
    refine ⟨List.pairwise_iff_forall_sublist.mpr fun order shares => ?_,
      fun p member row isRow has apart => ?_⟩
    · exact (pair_reported_iff distinct order).mp
        (List.pairwise_iff_forall_sublist.mp finds.pairs order shares)
    · exact (installed_reported_iff pkgs apart).mp (finds.installed p member row isRow has apart)
  · intro owns
    refine ⟨List.pairwise_iff_forall_sublist.mpr fun order shares => ?_,
      fun p member row isRow has apart => ?_⟩
    · exact (pair_reported_iff distinct order).mpr
        (List.pairwise_iff_forall_sublist.mp owns.pairs order shares)
    · exact (installed_reported_iff pkgs apart).mpr (owns.installed p member row isRow has apart)

end Main

end Runs

/-- No package is installed. -/
def noFiles : InstalledFiles := ⟨[], List.nodup_nil⟩

/-- Two packages with one path. -/
theorem twoPackages_findsConflicts :
    FindsConflicts [⟨"a", ["/f", "/a"]⟩, ⟨"b", ["/b", "/f"]⟩] noFiles := by
  refine (findsConflicts_iff (by decide)).mpr ⟨?_, nofun⟩
  simp [firstOwner]

/-- Of three packages with one path the second and the third are not reported. -/
theorem threePackages_not_findsConflicts :
    ¬∀ pkgs files, (pkgs.map FilesPkg.uid).Nodup → FindsConflicts pkgs files := by
  intro all
  have owns := (findsConflicts_iff (by decide)).mp
    (all [⟨"a", ["/f"]⟩, ⟨"b", ["/f"]⟩, ⟨"c", ["/f"]⟩] noFiles (by decide))
  have pairs := owns.pairs
  simp [firstOwner] at pairs

end Pkgng
