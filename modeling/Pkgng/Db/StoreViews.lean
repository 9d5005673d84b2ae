import Pkgng.Db.Store

/-!
# The packages that can be loaded

The tables are joined again by their references.  Names come and go without a package being loaded
in another way, and a link is loaded with its package alone.
-/

set_option autoImplicit false

namespace Pkgng

open Lib

/-- The references of a link lead to names. -/
structure Store.Resolves (s : Store) (kind : LinkKind) (row : LinkRow) : Prop where
  name : ∀ id, row.name = some id → id ∈ (s.names kind.names).ids
  value : ∀ id, row.value = .reference id → ∃ i, id = some i ∧ i ∈ (s.names .annotations).ids

/-- The constraints of the tables. -/
structure Store.Sound (s : Store) : Prop where
  ids : s.ids.Nodup
  uids : (s.packages.map fun p => (p.columns.origin, p.columns.name)).Nodup
  nameIds : ∀ kind, (s.names kind).ids.Nodup
  names : ∀ kind, kind ≠ .provide → (s.names kind).names.Nodup
  mtrees : ∀ p ∈ s.packages, ∀ id, p.mtreeId = some id → id ∈ (s.names .mtree).ids
  owners : ∀ kind, ∀ row ∈ s.links kind, row.package ∈ s.ids
  links : ∀ kind, ∀ row ∈ s.links kind, s.Resolves kind row
  deps : ∀ row ∈ s.deps, row.package ∈ s.ids
  files : ∀ row ∈ s.files, row.package ∈ s.ids
  paths : (s.files.map FileRow.path).Nodup

/-- The two stores differ at most in the names, and none is lost that is referred to. -/
structure Store.SameRows (s s' : Store) : Prop where
  packages : s'.packages = s.packages
  links : s'.links = s.links
  deps : s'.deps = s.deps
  files : s'.files = s.files
  lastRowid : s'.lastRowid = s.lastRowid
  mtrees : ∀ p ∈ s.packages, ∀ id, p.mtreeId = some id →
    (s'.names .mtree).nameOf id = (s.names .mtree).nameOf id
  names : ∀ kind, ∀ row ∈ s.links kind, ∀ id, row.name = some id →
    (s'.names kind.names).nameOf id = (s.names kind.names).nameOf id
  values : ∀ kind, ∀ row ∈ s.links kind, ∀ id, row.value = .reference (some id) →
    (s'.names .annotations).nameOf id = (s.names .annotations).nameOf id
  nameIds : ∀ kind, (s'.names kind).ids.Nodup
  unique : ∀ kind, kind ≠ .provide → (s'.names kind).names.Nodup

namespace Store

variable {rowIds : RowIds} {s s' : Store}

namespace SameRows

theorem resolve (same : s.SameRows s') {kind : LinkKind} {row : LinkRow}
    (member : row ∈ s.links kind) : s'.resolve kind row = s.resolve kind row := by
  have name : row.name.bind (s'.names kind.names).nameOf =
      row.name.bind (s.names kind.names).nameOf := by
    cases reference : row.name with
    | none => rfl
    | some id => exact same.names kind row member id reference
  have value : s'.resolveValue row.value = s.resolveValue row.value := by
    cases second : row.value with
    | reference id =>
        cases id with
        | none => rfl
        | some id => exact congrArg (Option.map _) (same.values kind row member id second)
    | _ => rfl
  rw [Store.resolve, Store.resolve, name, value]

/-- Nothing that can be loaded has changed. -/
theorem installed (same : s.SameRows s') {p : StoredPackage} (member : p ∈ s.packages) :
    s'.installed p = s.installed p := by
  have mtree : p.mtreeId.bind (s'.names .mtree).nameOf = p.mtreeId.bind (s.names .mtree).nameOf := by
    cases reference : p.mtreeId with
    | none => rfl
    | some id => exact same.mtrees p member id reference
  have linked : (fun kind => s'.linked kind p.id) = fun kind => s.linked kind p.id := by
    funext kind
    rw [Store.linked, Store.linked, same.links]
    exact List.filterMap_congr fun row inLinks => same.resolve (List.mem_filter.mp inLinks).1
  rw [Store.installed, Store.installed, mtree, linked, depsOf, depsOf, filesOf, filesOf, same.deps,
    same.files]

theorem ids (same : s.SameRows s') : s'.ids = s.ids := by rw [Store.ids, Store.ids, same.packages]

theorem sound (same : s.SameRows s') (sound : s.Sound) : s'.Sound where
  ids := by rw [same.ids]; exact sound.ids
  uids := by rw [same.packages]; exact sound.uids
  nameIds := same.nameIds
  names := same.unique
  mtrees := by
    intro p member id reference
    rw [same.packages] at member
    rw [← NameTable.isSome_nameOf, same.mtrees p member id reference, NameTable.isSome_nameOf]
    exact sound.mtrees p member id reference
  owners := by
    intro kind row member
    rw [same.links] at member
    rw [same.ids]
    exact sound.owners kind row member
  links := by
    intro kind row member
    rw [same.links] at member
    have resolves := sound.links kind row member
    refine ⟨fun id reference => ?_, fun id reference => ?_⟩
    · rw [← NameTable.isSome_nameOf, same.names kind row member id reference,
        NameTable.isSome_nameOf]
      exact resolves.name id reference
    · obtain ⟨i, rfl, there⟩ := resolves.value id reference
      refine ⟨i, rfl, ?_⟩
      rw [← NameTable.isSome_nameOf, same.values kind row member i reference,
        NameTable.isSome_nameOf]
      exact there
  deps := by rw [same.deps, same.ids]; exact sound.deps
  files := by rw [same.files, same.ids]; exact sound.files
  paths := by rw [same.files]; exact sound.paths

theorem trans {s'' : Store} (first : s.SameRows s') (second : s'.SameRows s'') :
    s.SameRows s'' where
  packages := second.packages.trans first.packages
  links := second.links.trans first.links
  deps := second.deps.trans first.deps
  files := second.files.trans first.files
  lastRowid := second.lastRowid.trans first.lastRowid
  mtrees := fun p member id reference => (second.mtrees p (by rwa [first.packages]) id
    reference).trans (first.mtrees p member id reference)
  names := fun kind row member id reference => (second.names kind row (by rwa [first.links]) id
    reference).trans (first.names kind row member id reference)
  values := fun kind row member id reference => (second.values kind row (by rwa [first.links]) id
    reference).trans (first.values kind row member id reference)
  nameIds := second.nameIds
  unique := second.unique

theorem refl (sound : s.Sound) : s.SameRows s :=
  ⟨rfl, rfl, rfl, rfl, rfl, fun _ _ _ _ => rfl, fun _ _ _ _ _ => rfl, fun _ _ _ _ _ => rfl,
    sound.nameIds, sound.names⟩

/-- One table of names is exchanged for one in which all that is referred to is kept. -/
theorem update (sound : s.Sound) {kind : NameKind} {table : NameTable String}
    (keyed : table.ids.Nodup) (unique : kind ≠ .provide → table.names.Nodup)
    (kept : ∀ id ∈ (s.names kind).ids, (∃ p ∈ s.packages, kind = .mtree ∧ p.mtreeId = some id) ∨
        (∃ link, kind = link.names ∧ ∃ row ∈ s.links link, row.name = some id) ∨
        (∃ link, kind = .annotations ∧ ∃ row ∈ s.links link, row.value = .reference (some id)) →
      table.nameOf id = (s.names kind).nameOf id) :
    s.SameRows (s.withNames kind table) where
  packages := rfl
  links := rfl
  deps := rfl
  files := rfl
  lastRowid := rfl
  mtrees := by
    intro p member id reference
    by_cases here : kind = .mtree
    · subst here
      rw [withNames_same]
      exact kept id (sound.mtrees p member id reference) (Or.inl ⟨p, member, rfl, reference⟩)
    · rw [withNames_other _ _ (Ne.symm here)]
  names := by
    intro link row member id reference
    by_cases here : kind = link.names
    · subst here
      rw [withNames_same]
      exact kept id ((sound.links link row member).name id reference)
        (Or.inr (Or.inl ⟨link, rfl, row, member, reference⟩))
    · rw [withNames_other _ _ (Ne.symm here)]
  values := by
    intro link row member id reference
    by_cases here : kind = .annotations
    · subst here
      obtain ⟨i, same, there⟩ := (sound.links link row member).value _ reference
      cases same
      rw [withNames_same]
      exact kept id there (Or.inr (Or.inr ⟨link, rfl, row, member, reference⟩))
    · rw [withNames_other _ _ (Ne.symm here)]
  nameIds := by
    intro other
    by_cases here : other = kind
    · subst here
      rwa [withNames_same]
    · rw [withNames_other _ _ here]
      exact sound.nameIds other
  unique := by
    intro other notProvide
    by_cases here : other = kind
    · subst here
      rw [withNames_same]
      exact unique notProvide
    · rw [withNames_other _ _ here]
      exact sound.names other notProvide

end SameRows

/-- A new name changes nothing that refers to others. -/
theorem intern_sameRows (sound : s.Sound) (kind : NameKind) (name : Option String) :
    (s.intern rowIds kind name).1 = .done ∧ s.SameRows (s.intern rowIds kind name).2 := by
  cases name with
  | none => exact ⟨rfl, .refl sound⟩
  | some name =>
      refine ⟨rfl, ?_⟩
      rw [intern]
      dsimp only
      by_cases provides : kind = .provide
      · rw [if_pos provides]
        refine .update sound ?_ (fun other => absurd provides other) fun id there _ =>
          NameTable.nameOf_append _ there
        rw [NameTable.ids, List.map_append]
        exact List.Nodup.append (sound.nameIds kind) (List.nodup_singleton _)
          (List.disjoint_singleton.mpr (rowIds.fresh _))
      · rw [if_neg provides]
        exact .update sound (NameTable.nodup_ids_intern (sound.nameIds kind) rowIds.fresh)
          (fun _ => NameTable.nodup_names_intern (sound.names kind provides)) fun id there _ =>
          NameTable.nameOf_intern there

/-- A name that was interned can be looked up, and so can all others. -/
theorem idOf_intern (kind other : NameKind) (name : String) (text : String)
    (there : (kind = other ∧ name = text) ∨ ((s.names other).idOf text).isSome = true) :
    (((s.intern rowIds kind name).2.names other).idOf text).isSome = true := by
  have appended : ∀ rest : NameTable String, ((s.names other).idOf text).isSome = true →
      (NameTable.idOf (s.names other ++ rest) text).isSome = true := by
    intro rest found
    rw [NameTable.idOf, Option.isSome_map, List.find?_isSome] at found ⊢
    obtain ⟨row, member, same⟩ := found
    exact ⟨row, List.mem_append_left _ member, same⟩
  rw [intern]
  dsimp only
  by_cases here : other = kind
  · subst here
    rw [withNames_same]
    split
    · rcases there with ⟨_, rfl⟩ | there
      · rw [NameTable.idOf, Option.isSome_map, List.find?_isSome]
        exact ⟨_, List.mem_append_right _ (List.mem_singleton_self _), by simp⟩
      · exact appended _ there
    · rcases there with ⟨_, rfl⟩ | there
      · exact NameTable.idOf_intern
      · rw [NameTable.intern]
        split
        · exact there
        · exact appended _ there
  · rw [withNames_other _ _ here]
    exact there.resolve_left fun same => here same.1.symm
end Store

/-! ## The registry -/

/-- The packages that can be loaded, by their ids. -/
abbrev Registry := Int → Option Installed

def Store.registry (s : Store) : Registry := fun id =>
  (s.packages.find? (·.id = id)).map s.installed

namespace Installed

/-- A link is added, unless the table takes a name only once. -/
def addLink (p : Installed) (kind : LinkKind) (link : String × LinkedValue) : Installed :=
  if kind.ignores = true ∧ link.1 ∈ (p.links kind).map Prod.fst then p
  else { p with links := Function.update p.links kind (p.links kind ++ [link]) }

def addDep (p : Installed) (dep : String × String × String) : Installed :=
  { p with deps := p.deps ++ [dep] }

def addFile (p : Installed) (file : String × Option String) : Installed :=
  { p with files := p.files ++ [file] }

/-- The dependencies on an origin get another name and version. -/
def renameDeps (p : Installed) (name version origin : String) : Installed :=
  { p with deps := p.deps.map fun dep =>
      if dep.1 = origin then (dep.1, name, version) else dep }

def sameUid (p : Installed) (row : PkgColumns) : Bool :=
  p.row.origin = row.origin && p.row.name = row.name

end Installed

namespace Registry

def modify (r : Registry) (id : Int) (change : Installed → Installed) : Registry := fun other =>
  (r other).map fun p => if other = id then change p else p

def map (r : Registry) (change : Installed → Installed) : Registry := fun other =>
  (r other).map change

def remove (r : Registry) (gone : Int → Installed → Bool) : Registry := fun other =>
  (r other).filter fun p => !gone other p

def set (r : Registry) (id : Int) (p : Installed) : Registry := fun other =>
  if other = id then some p else r other

/-- Some package has the file. -/
def Owns (r : Registry) (path : String) : Prop :=
  ∃ id p, r id = some p ∧ path ∈ p.files.map Prod.fst

@[simp] theorem modify_id (r : Registry) (id : Int) : r.modify id (fun p => p) = r := by
  funext other
  simp [modify]

theorem modify_set (r : Registry) (id : Int) (p : Installed) (change : Installed → Installed) :
    (r.set id p).modify id change = r.set id (change p) := by
  funext other
  by_cases same : other = id
  · simp [modify, set, same]
  · simp [modify, set, same]

end Registry

namespace Store

variable {rowIds : RowIds} {s s' : Store}

/-- The same rows, loaded in another way. -/
theorem registry_of_packages {change : Int → Installed → Installed}
    (packages : s'.packages = s.packages)
    (each : ∀ p ∈ s.packages, s'.installed p = change p.id (s.installed p)) :
    s'.registry = fun id => (s.registry id).map (change id) := by
  funext id
  rw [registry, registry, packages, Option.map_map]
  cases found : s.packages.find? (·.id = id) with
  | none => rfl
  | some p =>
      have same : p.id = id := by simpa using List.find?_some found
      rw [Option.map_some, Option.map_some, each p (List.mem_of_find?_eq_some found), same]
      rfl

theorem SameRows.registry (same : s.SameRows s') : s'.registry = s.registry := by
  rw [@registry_of_packages _ _ (fun _ p => p) same.packages fun p member =>
    same.installed member]
  funext id
  rw [Option.map_id']

/-! ### Links -/

theorem resolveValue_encode (kind : LinkKind) {value : LinkedValue} (sound : s.Sound)
    (known : ∀ text, value = .text text → kind = .annotations →
      ((s.names .annotations).idOf text).isSome = true) :
    s.resolveValue (s.encode kind value) = some value ∧ s.encode kind value ≠ .reference none := by
  cases value with
  | plain => exact ⟨rfl, nofun⟩
  | number n => exact ⟨rfl, nofun⟩
  | text text =>
      rw [encode]
      split
      · next isNote =>
          obtain ⟨id, found⟩ := Option.isSome_iff_exists.mp (known text rfl isNote)
          rw [found]
          refine ⟨?_, nofun⟩
          rw [resolveValue, Option.bind_some,
            NameTable.nameOf_idOf (sound.nameIds .annotations) found]
          rfl
      · exact ⟨rfl, nofun⟩

theorem resolve_linkRow {kind : LinkKind} (package : Int) {name : String} {value : LinkedValue}
    (sound : s.Sound) (interned : ((s.names kind.names).idOf name).isSome = true)
    (known : ∀ text, value = .text text → kind = .annotations →
      ((s.names .annotations).idOf text).isSome = true) :
    s.resolve kind (s.linkRow kind package name value) = some (name, value) ∧
      s.Resolves kind (s.linkRow kind package name value) := by
  obtain ⟨id, found⟩ := Option.isSome_iff_exists.mp interned
  have named : (s.linkRow kind package name value).name = some id := found
  obtain ⟨second, _⟩ := resolveValue_encode kind sound known
  refine ⟨?_, fun other reference => ?_, fun other reference => ?_⟩
  · rw [resolve, named, Option.bind_some, NameTable.nameOf_idOf (sound.nameIds _) found]
    show (s.resolveValue (s.encode kind value)).bind _ = _
    rw [second]
    rfl
  · cases named.symm.trans reference
    exact List.mem_map_of_mem (NameTable.mem_of_idOf found)
  · have encoded : s.encode kind value = .reference other := reference
    rw [encoded] at second
    cases value with
    | plain => cases encoded
    | number n => cases encoded
    | text text =>
        rw [encode] at encoded
        split at encoded
        · next isNote =>
            obtain ⟨i, there⟩ := Option.isSome_iff_exists.mp (known text rfl isNote)
            rw [there] at encoded
            cases encoded
            exact ⟨i, rfl, List.mem_map_of_mem (NameTable.mem_of_idOf there)⟩
        · cases encoded

/-- A link of a sound store is resolved. -/
theorem Resolves.isSome {kind : LinkKind} {row : LinkRow} {id : Int} (resolves : s.Resolves kind row)
    (named : row.name = some id) : ∃ name value, (s.names kind.names).nameOf id = some name ∧
      s.resolve kind row = some (name, value) := by
  obtain ⟨name, found⟩ := Option.isSome_iff_exists.mp
    (NameTable.isSome_nameOf.mpr (resolves.name id named))
  have second : ∃ value, s.resolveValue row.value = some value := by
    cases value : row.value with
    | plain => exact ⟨_, rfl⟩
    | number n => exact ⟨_, rfl⟩
    | text text => exact ⟨_, rfl⟩
    | reference other =>
        obtain ⟨i, rfl, there⟩ := resolves.value other value
        obtain ⟨text, isText⟩ := Option.isSome_iff_exists.mp (NameTable.isSome_nameOf.mpr there)
        refine ⟨.text text, ?_⟩
        rw [resolveValue, Option.bind_some, isText]
        rfl
  obtain ⟨value, isValue⟩ := second
  refine ⟨name, value, found, ?_⟩
  rw [resolve, named, Option.bind_some, found, isValue]
  rfl

/-- A table that takes a name once has it exactly if it is loaded. -/
theorem mem_linked_iff {kind : LinkKind} {package : Int} {name : String} {value : LinkedValue}
    (sound : s.Sound) (ignores : kind.ignores = true)
    (interned : ((s.names kind.names).idOf name).isSome = true) :
    (s.links kind).any (kind.sameKey (s.linkRow kind package name value)) = true ↔
      name ∈ (s.linked kind package).map Prod.fst := by
  have key : ∀ row, kind.sameKey (s.linkRow kind package name value) row = true ↔
      row.package = package ∧ row.name = (s.names kind.names).idOf name := by
    intro row
    cases kind with
    | shlibRequired | shlibProvided =>
        simp only [LinkKind.sameKey, linkRow, Bool.and_eq_true, interned, and_true]
        exact and_congr (decide_eq_true_iff.trans eq_comm) (decide_eq_true_iff.trans eq_comm)
    | _ => cases ignores
  have notProvide : kind.names ≠ .provide := by
    cases kind with
    | provide => cases ignores
    | _ => exact nofun
  rw [List.any_eq_true, List.mem_map]
  constructor
  · rintro ⟨row, member, same⟩
    obtain ⟨owner, reference⟩ := (key row).mp same
    obtain ⟨id, found⟩ := Option.isSome_iff_exists.mp interned
    obtain ⟨other, value, isName, resolved⟩ :=
      (sound.links kind row member).isSome (reference.trans found)
    rw [NameTable.nameOf_idOf (sound.nameIds _) found] at isName
    cases isName
    refine ⟨(name, value), List.mem_filterMap.mpr ⟨row, List.mem_filter.mpr ⟨member, ?_⟩,
      resolved⟩, rfl⟩
    exact decide_eq_true owner
  · rintro ⟨link, inLinked, rfl⟩
    obtain ⟨row, inLinks, resolved⟩ := List.mem_filterMap.mp inLinked
    obtain ⟨member, owner⟩ := List.mem_filter.mp inLinks
    refine ⟨row, member, (key row).mpr ⟨of_decide_eq_true owner, ?_⟩⟩
    obtain ⟨text, isText, rest⟩ := Option.bind_eq_some_iff.mp resolved
    obtain ⟨second, _, same⟩ := Option.bind_eq_some_iff.mp rest
    obtain ⟨id, reference, isName⟩ := Option.bind_eq_some_iff.mp isText
    cases same
    rw [reference, NameTable.idOf_nameOf (sound.names _ notProvide) isName]

/-- Where the new row is loaded. -/
theorem linked_withLink {kind : LinkKind} {row : LinkRow} {link : String × LinkedValue}
    (resolved : s.resolve kind row = some link) (other : LinkKind) (package : Int) :
    (s.withLink kind row).linked other package =
      if other = kind ∧ package = row.package then s.linked kind package ++ [link]
      else s.linked other package := by
  have same : (s.withLink kind row).resolve other = s.resolve other := rfl
  rw [linked, same, withLink]
  dsimp only
  by_cases here : other = kind
  · subst here
    rw [Function.update_self, List.filter_append]
    by_cases owner : package = row.package
    · rw [if_pos ⟨rfl, owner⟩, List.filter_cons_of_pos (by simp [owner]), List.filterMap_append]
      simp only [List.filter_nil, List.filterMap_cons, resolved, List.filterMap_nil]
      rfl
    · rw [if_neg fun both => owner both.2,
        List.filter_cons_of_neg (by simpa using Ne.symm owner), List.filter_nil, List.append_nil]
      rfl
  · rw [Function.update_of_ne here, if_neg fun both => here both.1]
    rfl

theorem sound_withLink {kind : LinkKind} {row : LinkRow} (sound : s.Sound)
    (owned : row.package ∈ s.ids) (resolves : s.Resolves kind row) : (s.withLink kind row).Sound := by
  have each : ∀ property : LinkKind → LinkRow → Prop,
      (∀ other, ∀ row ∈ s.links other, property other row) → property kind row →
      ∀ other, ∀ row' ∈ (s.withLink kind row).links other, property other row' := by
    intro property before new other row' member
    rw [withLink] at member
    dsimp only at member
    by_cases here : other = kind
    · subst here
      rw [Function.update_self, List.mem_append, List.mem_singleton] at member
      rcases member with old | rfl
      · exact before other row' old
      · exact new
    · rw [Function.update_of_ne here] at member
      exact before other row' member
  exact
    { sound with
      owners := each (fun _ row => row.package ∈ s.ids) sound.owners owned
      links := fun other row' member =>
        have resolved := each (fun other row => s.Resolves other row) sound.links resolves other row'
          member
        ⟨resolved.name, resolved.value⟩ }

/-- A link that is inserted is loaded with its package. -/
theorem link_spec {kind : LinkKind} {package : Int} {name : String} {value : LinkedValue}
    (sound : s.Sound) (interned : ((s.names kind.names).idOf name).isSome = true)
    (known : ∀ text, value = .text text → kind = .annotations →
      ((s.names .annotations).idOf text).isSome = true)
    (done : s.link kind package name value = (.done, s')) :
    s'.Sound ∧ s'.packages = s.packages ∧
      s'.registry = s.registry.modify package fun p => p.addLink kind (name, value) := by
  obtain ⟨resolved, resolves⟩ := resolve_linkRow package sound interned known
  have filled : (s.linkRow kind package name value).name ≠ none := fun missing => by
    have missing : (s.names kind.names).idOf name = none := missing
    rw [missing] at interned
    cases interned
  have valued : (s.linkRow kind package name value).value ≠ .reference none :=
    (resolveValue_encode kind sound known).2
  unfold link at done
  dsimp only at done
  split at done
  · next refused =>
      -- The row is there already, and the statement ignores that.
      have twice := (refused.resolve_left fun missing => filled missing.1).resolve_left valued
      split at done
      · next ignores =>
          cases done
          have listed := (mem_linked_iff sound ignores interned).mp twice
          refine ⟨sound, rfl, registry_of_packages rfl fun p _ => ?_⟩
          dsimp only
          by_cases here : p.id = package
          · rw [if_pos here, Installed.addLink, if_pos]
            exact ⟨ignores, by rw [installed, here]; exact listed⟩
          · rw [if_neg here]
      · cases done
  · next accepted =>
      split at done
      · cases done
      next owned =>
      rw [not_not] at owned
      cases done
      refine ⟨sound_withLink sound owned resolves, rfl, registry_of_packages rfl fun p _ => ?_⟩
      have rows : (s.withLink kind (s.linkRow kind package name value)).installed p =
          { s.installed p with
            links := fun other =>
              if other = kind ∧ p.id = package then s.linked kind p.id ++ [(name, value)]
              else s.linked other p.id } := by
        rw [installed, installed]
        congr 1
        funext other
        exact linked_withLink resolved other p.id
      rw [rows]
      dsimp only
      by_cases here : p.id = package
      · rw [if_pos here, Installed.addLink, if_neg]
        · congr 1
          funext other
          by_cases sameKind : other = kind
          · subst sameKind
            rw [Function.update_self, if_pos ⟨rfl, here⟩]
            rfl
          · rw [Function.update_of_ne sameKind, if_neg fun both => sameKind both.1]
            rfl
        · rintro ⟨ignores, listed⟩
          refine accepted (Or.inr (Or.inr ((mem_linked_iff sound ignores interned).mpr ?_)))
          rw [installed, here] at listed
          exact listed
      · rw [if_neg here]
        congr 1
        funext other
        rw [if_neg fun both => here both.2]

end Store

end Pkgng
