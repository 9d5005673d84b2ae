import Pkgng.Db.StoreViews

/-!
# What the statements do to the packages that can be loaded

Rows are inserted and deleted with all that refers to them, so the tables stay joined.
-/

set_option autoImplicit false

namespace Pkgng

open Lib

namespace Store

variable {rowIds : RowIds} {s s' : Store}

/-! ## Packages -/

theorem mem_ids {p : StoredPackage} (member : p ∈ s.packages) : p.id ∈ s.ids :=
  List.mem_map_of_mem member

theorem registry_eq_none {id : Int} (fresh : id ∉ s.ids) : s.registry id = none := by
  rw [registry, Option.map_eq_none_iff, List.find?_eq_none]
  intro p member same
  exact fresh (of_decide_eq_true same ▸ mem_ids member)

/-- The rows of a package stay when others are deleted. -/
theorem installed_deletePackages (sound : s.Sound) {gone : StoredPackage → Bool} {p : StoredPackage}
    (member : p ∈ s.packages) (kept : gone p = false) :
    (s.deletePackages gone).installed p = s.installed p := by
  have stays : p.id ∉ (s.packages.filter gone).map StoredPackage.id := by
    rintro listed
    obtain ⟨other, inGone, same⟩ := List.mem_map.mp listed
    obtain ⟨inPackages, isGone⟩ := List.mem_filter.mp inGone
    rw [List.inj_on_of_nodup_map sound.ids inPackages member same, kept] at isGone
    cases isGone
  have rows : ∀ {Row : Type} (list : List Row) (package : Row → Int),
      (list.filter fun row => decide (package row ∉
        (s.packages.filter gone).map StoredPackage.id)).filter (fun row => package row = p.id) =
        list.filter fun row => package row = p.id := by
    intro Row list package
    rw [List.filter_filter]
    refine List.filter_congr fun row _ => ?_
    by_cases owner : package row = p.id
    · simp only [owner, stays, not_false_eq_true, decide_true, Bool.and_true]
    · simp only [owner, decide_false, Bool.false_and]
  have deps := rows s.deps DepRow.package
  have files := rows s.files FileRow.package
  have links := fun kind => rows (s.links kind) LinkRow.package
  have linked : ∀ kind, (s.deletePackages gone).linked kind p.id = s.linked kind p.id :=
    fun kind => congrArg (List.filterMap (s.resolve kind)) (links kind)
  rw [installed, installed, funext linked]
  unfold depsOf filesOf deletePackages
  dsimp only
  rw [deps, files]

theorem registry_deletePackages (sound : s.Sound) (gone : StoredPackage → Bool) :
    (s.deletePackages gone).registry = fun id =>
      ((s.packages.find? (·.id = id)).filter (!gone ·)).map s.installed := by
  funext id
  have packages : (s.deletePackages gone).packages = s.packages.filter (!gone ·) := rfl
  rw [registry, packages]
  cases found : s.packages.find? (·.id = id) with
  | none =>
      have missing : (s.packages.filter (!gone ·)).find? (·.id = id) = none := by
        rw [List.find?_eq_none] at found ⊢
        exact fun p member => found p (List.mem_filter.mp member).1
      rw [missing]
      rfl
  | some p =>
      have member := List.mem_of_find?_eq_some found
      have same : p.id = id := by simpa using List.find?_some found
      cases kept : gone p with
      | true =>
          have missing : (s.packages.filter (!gone ·)).find? (·.id = id) = none := by
            rw [List.find?_eq_none]
            intro other inKept isId
            obtain ⟨inPackages, stays⟩ := List.mem_filter.mp inKept
            have isP := List.inj_on_of_nodup_map sound.ids inPackages member
              ((of_decide_eq_true isId).trans same.symm)
            rw [isP, kept] at stays
            cases stays
          rw [missing, Option.filter_some, kept]
          rfl
      | false =>
          have found : (s.packages.filter (!gone ·)).find? (·.id = id) = some p := by
            have inKept : p ∈ s.packages.filter (!gone ·) :=
              List.mem_filter.mpr ⟨member, by rw [kept]; rfl⟩
            have nodup : ((s.packages.filter (!gone ·)).map StoredPackage.id).Nodup :=
              sound.ids.sublist (List.Sublist.map _ List.filter_sublist)
            rw [← same]
            exact (find_key_eq_some nodup).mpr ⟨inKept, rfl⟩
          rw [found, Option.filter_some, kept, Option.map_some,
            installed_deletePackages sound member kept]
          rfl

theorem sound_deletePackages (sound : s.Sound) (gone : StoredPackage → Bool) :
    (s.deletePackages gone).Sound := by
  have stays : ∀ id, id ∈ s.ids → id ∉ (s.packages.filter gone).map StoredPackage.id →
      id ∈ (s.deletePackages gone).ids := by
    intro id listed notGone
    obtain ⟨p, member, rfl⟩ := List.mem_map.mp listed
    refine mem_ids (List.mem_filter.mpr ⟨member, ?_⟩)
    by_contra isGone
    refine notGone (List.mem_map_of_mem (List.mem_filter.mpr ⟨member, ?_⟩))
    simpa using isGone
  exact
    { ids := sound.ids.sublist (List.Sublist.map _ List.filter_sublist)
      uids := sound.uids.sublist (List.Sublist.map _ List.filter_sublist)
      nameIds := sound.nameIds
      names := sound.names
      mtrees := fun p member => sound.mtrees p (List.mem_filter.mp member).1
      owners := fun kind row member =>
        stays _ (sound.owners kind row (List.mem_filter.mp member).1)
          (by simpa using (List.mem_filter.mp member).2)
      links := fun kind row member =>
        have resolves := sound.links kind row (List.mem_filter.mp member).1
        ⟨resolves.name, resolves.value⟩
      deps := fun row member => stays _ (sound.deps row (List.mem_filter.mp member).1)
        (by simpa using (List.mem_filter.mp member).2)
      files := fun row member => stays _ (sound.files row (List.mem_filter.mp member).1)
        (by simpa using (List.mem_filter.mp member).2)
      paths := sound.paths.sublist (List.Sublist.map _ List.filter_sublist) }

/-- Nothing belongs to an id that no package has. -/
theorem nothing_of_fresh (sound : s.Sound) {id : Int} (fresh : id ∉ s.ids) :
    s.depsOf id = [] ∧ s.filesOf id = [] ∧ ∀ kind, s.linked kind id = [] := by
  have none : ∀ {Row : Type} (list : List Row) (package : Row → Int),
      (∀ row ∈ list, package row ∈ s.ids) → (list.filter fun row => package row = id) = [] := by
    intro Row list package owned
    rw [List.filter_eq_nil_iff]
    intro row member same
    exact fresh (of_decide_eq_true same ▸ owned row member)
  refine ⟨?_, ?_, fun kind => ?_⟩
  · rw [depsOf, none s.deps DepRow.package sound.deps]
    rfl
  · rw [filesOf, none s.files FileRow.package sound.files]
    rfl
  · rw [linked, none (s.links kind) LinkRow.package (sound.owners kind)]
    rfl

/-- The new row takes the place of one with the same origin and name. -/
theorem insertPackage_spec {row : PkgColumns} (sound : s.Sound)
    (interned : ∀ content, row.mtree = some content →
      ((s.names .mtree).idOf content).isSome = true)
    (done : s.insertPackage rowIds row = (.done, s')) :
    s'.Sound ∧ s'.lastRowid ∈ s'.ids ∧ s'.lastRowid ∉ s.ids ∧
      s'.registry =
        (s.registry.remove fun _ p => p.sameUid row).set s'.lastRowid { row := row } := by
  unfold insertPackage at done
  split at done
  · next complete =>
    have fresh : rowIds.next s.ids ∉ s.ids := rowIds.fresh _
    let gone : StoredPackage → Bool := fun p =>
      p.columns.origin = row.origin && p.columns.name = row.name
    let new : StoredPackage :=
      ⟨rowIds.next s.ids, { row with mtree := none }, row.mtree.bind (s.names .mtree).idOf⟩
    have left := sound_deletePackages sound gone
    have subset : ∀ id ∈ (s.deletePackages gone).ids, id ∈ s.ids := fun id listed =>
      (List.Sublist.map _ List.filter_sublist).subset listed
    have freshLeft : rowIds.next s.ids ∉ (s.deletePackages gone).ids :=
      fun listed => fresh (subset _ listed)
    have registry := registry_deletePackages sound gone
    cases done
    refine ⟨?_, ?_, fresh, ?_⟩
    · have within : ∀ id, id ∈ (s.deletePackages gone).ids →
          id ∈ ((s.deletePackages gone).packages ++ [new]).map StoredPackage.id := by
        intro id listed
        rw [List.map_append]
        exact List.mem_append_left _ listed
      exact
        { ids := by
            rw [Store.ids, List.map_append]
            exact List.Nodup.append left.ids (List.nodup_singleton _)
              (List.disjoint_singleton.mpr freshLeft)
          uids := by
            rw [List.map_append]
            refine List.Nodup.append left.uids (List.nodup_singleton _)
              (List.disjoint_singleton.mpr fun listed => ?_)
            obtain ⟨p, member, same⟩ := List.mem_map.mp listed
            have stays := (List.mem_filter.mp member).2
            obtain ⟨origin, name⟩ := Prod.mk.inj same
            simp [origin, name] at stays
          nameIds := left.nameIds
          names := left.names
          mtrees := by
            intro p member id reference
            rcases List.mem_append.mp member with old | isNew
            · exact left.mtrees p old id reference
            · rw [List.mem_singleton.mp isNew] at reference
              obtain ⟨content, _, found⟩ := Option.bind_eq_some_iff.mp reference
              exact List.mem_map_of_mem (NameTable.mem_of_idOf found)
          owners := fun kind row member => within _ (left.owners kind row member)
          links := fun kind row member =>
            ⟨(left.links kind row member).name, (left.links kind row member).value⟩
          deps := fun row member => within _ (left.deps row member)
          files := fun row member => within _ (left.files row member)
          paths := left.paths }
    · exact List.mem_map_of_mem (List.mem_append_right _ (List.mem_singleton_self new))
    · funext other
      rw [Registry.set, Store.registry, List.find?_append]
      by_cases here : other = rowIds.next s.ids
      · have missing : (s.deletePackages gone).packages.find? (·.id = other) = none := by
          rw [List.find?_eq_none]
          intro p member same
          exact freshLeft (here ▸ of_decide_eq_true same ▸ mem_ids member)
        have mtree : (row.mtree.bind (s.names .mtree).idOf).bind (s.names .mtree).nameOf =
            row.mtree := by
          cases content : row.mtree with
          | none => rfl
          | some content =>
              obtain ⟨id, found⟩ := Option.isSome_iff_exists.mp (interned _ content)
              rw [Option.bind_some, found, Option.bind_some,
                NameTable.nameOf_idOf (sound.nameIds .mtree) found]
        obtain ⟨deps, files, links⟩ := nothing_of_fresh left freshLeft
        rw [if_pos here, missing, Option.none_or, List.find?_cons_of_pos (by simp [here]),
          Option.map_some]
        refine congrArg some ?_
        calc
          _ = ({ row := { row with
                  mtree := (row.mtree.bind (s.names .mtree).idOf).bind (s.names .mtree).nameOf }
                 deps := (s.deletePackages gone).depsOf (rowIds.next s.ids)
                 files := (s.deletePackages gone).filesOf (rowIds.next s.ids)
                 links := fun kind => (s.deletePackages gone).linked kind (rowIds.next s.ids) } :
                Installed) := rfl
          _ = { row := row } := by rw [mtree, deps, files, funext links]
      · rw [if_neg here, List.find?_cons_of_neg (by simpa [new] using Ne.symm here), List.find?_nil,
          Option.or_none]
        have others := congrFun registry other
        rw [Registry.remove, Store.registry, Option.filter_map]
        exact others
  · cases done

/-! ## Dependencies and files -/

theorem mem_owned {Row : Type} {list : List Row} {package : Row → Int} {ids : List Int}
    (owned : ∀ row ∈ list, package row ∈ ids) {new : Row} (isNew : package new ∈ ids) :
    ∀ row ∈ list ++ [new], package row ∈ ids := by
  intro row member
  rcases List.mem_append.mp member with old | last
  · exact owned row old
  · rw [List.mem_singleton.mp last]
    exact isNew

theorem Sound.links_of (sound : s.Sound) (names : s'.names = s.names) (links : s'.links = s.links) :
    ∀ kind, ∀ row ∈ s'.links kind, s'.Resolves kind row := by
  intro kind row member
  rw [links] at member
  have resolves := sound.links kind row member
  exact ⟨by rw [names]; exact resolves.name, by rw [names]; exact resolves.value⟩

/-- All dependencies on an origin are renamed. -/
theorem updateDeps_spec {name version origin : String} (sound : s.Sound)
    (done : s.updateDeps name version origin = (.done, s')) :
    s'.Sound ∧ s'.packages = s.packages ∧
      s'.registry = s.registry.map fun p => p.renameDeps name version origin := by
  unfold updateDeps at done
  dsimp only at done
  split at done
  · cases done
    refine ⟨{ sound with deps := ?_, links := sound.links_of rfl rfl }, rfl,
      registry_of_packages rfl fun p _ => ?_⟩
    · intro row member
      obtain ⟨dep, old, rfl⟩ := List.mem_map.mp member
      have owned := sound.deps dep old
      split
      · exact owned
      · exact owned
    · have renamed : ∀ deps : List DepRow,
          ((deps.map fun dep => if dep.origin = origin then
              { dep with name := name, version := version } else dep).filter
            (·.package = p.id)).map (fun dep => (dep.origin, dep.name, dep.version)) =
          ((deps.filter (·.package = p.id)).map fun dep =>
              (dep.origin, dep.name, dep.version)).map fun dep =>
            if dep.1 = origin then (dep.1, name, version) else dep := by
        intro deps
        induction deps with
        | nil => rfl
        | cons dep rest ih =>
            have owner : (if dep.origin = origin then
                { dep with name := name, version := version } else dep).package = dep.package := by
              split <;> rfl
            rw [List.map_cons]
            by_cases here : dep.package = p.id
            · rw [List.filter_cons_of_pos (by simpa [owner] using here),
                List.filter_cons_of_pos (by simpa using here), List.map_cons, List.map_cons,
                List.map_cons, ih]
              split <;> rfl
            · rw [List.filter_cons_of_neg (by simpa [owner] using here),
                List.filter_cons_of_neg (by simpa using here), ih]
      exact congrArg (fun deps => ({ s.installed p with deps := deps } : Installed))
        (renamed s.deps)
  · cases done

theorem insertDep_spec {row : DepRow} (sound : s.Sound) (done : s.insertDep row = (.done, s')) :
    s'.Sound ∧ s'.packages = s.packages ∧
      s'.registry = s.registry.modify row.package fun p =>
        p.addDep (row.origin, row.name, row.version) := by
  unfold insertDep at done
  split at done
  · cases done
  next accepted =>
  rw [not_or, not_not] at accepted
  cases done
  refine ⟨{ sound with
    deps := mem_owned sound.deps accepted.1
    links := sound.links_of rfl rfl }, rfl, registry_of_packages rfl fun p _ => ?_⟩
  have deps : ({ s with deps := s.deps ++ [row] } : Store).depsOf p.id =
      if p.id = row.package then s.depsOf p.id ++ [(row.origin, row.name, row.version)]
      else s.depsOf p.id := by
    rw [depsOf, depsOf, List.filter_append, List.map_append]
    split
    · next here => rw [List.filter_cons_of_pos (by simp [here])]; rfl
    · next other =>
        rw [List.filter_cons_of_neg (by simpa using Ne.symm other)]
        exact List.append_nil _
  have rows : ({ s with deps := s.deps ++ [row] } : Store).installed p =
      { s.installed p with
        deps := ({ s with deps := s.deps ++ [row] } : Store).depsOf p.id } := rfl
  rw [rows, deps]
  split
  · rfl
  · rfl

/-- A path that is taken is refused. -/
theorem insertFile_spec {row : FileRow} (sound : s.Sound)
    (done : s.insertFile row = (.done, s')) :
    s'.Sound ∧ s'.packages = s.packages ∧ row.path ∉ s.files.map FileRow.path ∧
      s'.registry = s.registry.modify row.package fun p => p.addFile (row.path, row.sum) := by
  unfold insertFile at done
  split at done
  · cases done
  next accepted =>
  rw [not_or, not_not] at accepted
  cases done
  refine ⟨{ sound with
    files := mem_owned sound.files accepted.1
    paths := ?_
    links := sound.links_of rfl rfl }, rfl, accepted.2, registry_of_packages rfl fun p _ => ?_⟩
  · rw [List.map_append]
    exact List.Nodup.append sound.paths (List.nodup_singleton _)
      (List.disjoint_singleton.mpr accepted.2)
  have files : ({ s with files := s.files ++ [row] } : Store).filesOf p.id =
      if p.id = row.package then s.filesOf p.id ++ [(row.path, row.sum)] else s.filesOf p.id := by
    rw [filesOf, filesOf, List.filter_append, List.map_append]
    split
    · next here => rw [List.filter_cons_of_pos (by simp [here])]; rfl
    · next other =>
        rw [List.filter_cons_of_neg (by simpa using Ne.symm other)]
        exact List.append_nil _
  have rows : ({ s with files := s.files ++ [row] } : Store).installed p =
      { s.installed p with
        files := ({ s with files := s.files ++ [row] } : Store).filesOf p.id } := rfl
  rw [rows, files]
  split
  · rfl
  · rfl

/-- A path is taken exactly if it is loaded with a package. -/
theorem owns_iff (sound : s.Sound) {path : String} :
    path ∈ s.files.map FileRow.path ↔ s.registry.Owns path := by
  constructor
  · intro listed
    obtain ⟨row, member, rfl⟩ := List.mem_map.mp listed
    obtain ⟨p, inPackages, same⟩ := List.mem_map.mp (sound.files row member)
    refine ⟨p.id, s.installed p, ?_, ?_⟩
    · rw [registry, (find_key_eq_some sound.ids).mpr ⟨inPackages, rfl⟩]
      rfl
    · refine List.mem_map.mpr ⟨(row.path, row.sum), List.mem_map.mpr ⟨row, ?_, rfl⟩, rfl⟩
      exact List.mem_filter.mpr ⟨member, by simpa using same.symm⟩
  · rintro ⟨id, p, loaded, listed⟩
    obtain ⟨stored, _, rfl⟩ := Option.map_eq_some_iff.mp loaded
    obtain ⟨file, inFiles, rfl⟩ := List.mem_map.mp listed
    obtain ⟨row, inRows, rfl⟩ := List.mem_map.mp inFiles
    exact List.mem_map_of_mem (List.mem_filter.mp inRows).1

/-- Every file is found by its owner. -/
theorem which_of_taken (sound : s.Sound) {path : String}
    (taken : path ∈ s.files.map FileRow.path) : s.which path = .found := by
  obtain ⟨row, member, rfl⟩ := List.mem_map.mp taken
  rw [which, if_pos]
  exact List.any_eq_true.mpr ⟨row, member, by simpa using sound.files row member⟩

/-! ## Deleting -/

/-- What is not referred to can go. -/
theorem deleteUnused_sameRows (sound : s.Sound) {kind : NameKind} (notNote : kind ≠ .annotations) :
    s.SameRows (s.deleteUnused kind) := by
  rw [deleteUnused]
  split
  · exact .refl sound
  · refine .update sound (NameTable.nodup_ids_keep (sound.nameIds kind) _)
      (fun notProvide => NameTable.nodup_names_keep (sound.names kind notProvide) _) ?_
    rintro id _ (⟨p, member, rfl, reference⟩ | ⟨link, rfl, row, member, reference⟩ |
      ⟨link, isNote, _⟩)
    · exact NameTable.nameOf_keep (decide_eq_true (List.mem_map.mpr ⟨p, member, reference⟩))
    · refine NameTable.nameOf_keep (decide_eq_true ?_)
      have listed : some id ∈ (s.links link).map LinkRow.name :=
        List.mem_map.mpr ⟨row, member, reference⟩
      cases link with
      | shlibRequired =>
          rw [LinkKind.names, references, List.map_append]
          exact List.mem_append_left _ listed
      | shlibProvided =>
          rw [LinkKind.names, references, List.map_append]
          exact List.mem_append_right _ listed
      | _ => exact listed
    · exact absurd isNote notNote

theorem deleteUnused_all (kinds : List NameKind) (notNote : .annotations ∉ kinds)
    (sound : s.Sound) : s.SameRows (kinds.foldl deleteUnused s) := by
  induction kinds generalizing s with
  | nil => exact .refl sound
  | cons kind rest ih =>
      rw [List.mem_cons, not_or] at notNote
      have first := deleteUnused_sameRows sound (Ne.symm notNote.1)
      exact first.trans (ih notNote.2 (first.sound sound))

/-- The package is gone, and nothing else has changed. -/
theorem pkgdbUnregisterPkg_spec (sound : s.Sound) (id : Int) :
    (s.pkgdbUnregisterPkg id).Sound ∧
      (s.pkgdbUnregisterPkg id).registry = s.registry.remove fun other _ => other = id := by
  have deleted := sound_deletePackages sound (·.id = id)
  have unused := deleteUnused_all [.directory, .category, .license, .mtree, .user, .group,
    .shlib, .script] (by decide) deleted
  refine ⟨unused.sound deleted, ?_⟩
  refine unused.registry.trans ((registry_deletePackages sound _).trans ?_)
  funext other
  rw [Registry.remove, registry]
  cases found : s.packages.find? (·.id = other) with
  | none => rfl
  | some p =>
      have same : p.id = other := by simpa using List.find?_some found
      rw [Option.map_some, Option.filter_some, Option.filter_some, same]
      split
      · rfl
      · rfl

end Store

end Pkgng
