import Mathlib.Data.List.Induction
import Pkgng.Db.StoreStatements

/-!
# What a registration does to the packages that can be loaded

`pkgdb_register_pkg` on the tables of the store: a call that returns has put the package as a whole
where one with its origin and name was, and has renamed the dependencies on its origin.
-/

set_option autoImplicit false

namespace Pkgng

open Lib

/-! ## The package as it is loaded -/

namespace RegisteredPkg

/-- The links of a package; shared libraries are linked once. -/
def links (pkg : RegisteredPkg) : LinkKind → List (String × LinkedValue)
  | .script => pkg.scripts.map fun script => (script.2, .number script.1)
  | .option => pkg.options.map fun option => (option.1, .text option.2)
  | .directory => pkg.dirs.map fun dir => (dir.1, .number (if dir.2 then 1 else 0))
  | .category => pkg.categories.map fun name => (name, .plain)
  | .license => pkg.licenses.map fun name => (name, .plain)
  | .user => pkg.users.map fun name => (name, .plain)
  | .group => pkg.groups.map fun name => (name, .plain)
  | .shlibRequired => pkg.shlibsRequired.eraseDups.map fun name => (name, .plain)
  | .shlibProvided => pkg.shlibsProvided.eraseDups.map fun name => (name, .plain)
  | .annotations => pkg.annotations.map fun note => (note.1, .text note.2)
  | .provide => pkg.provides.map fun name => (name, .plain)

def installed (pkg : RegisteredPkg) (files : List (String × Option String)) : Installed where
  row := pkg.row
  deps := pkg.deps
  files := files
  links := pkg.links

end RegisteredPkg

namespace Registry

open Classical in
/-- A path that has an owner is passed over. -/
noncomputable def record (r : Registry) (id : Int) (file : String × Option String) : Registry :=
  if r.Owns file.1 then r else r.modify id fun p => p.addFile file

open Classical in
/-- The same among the files of a package to come. -/
noncomputable def claim (r : Registry) (files : List (String × Option String))
    (file : String × Option String) : List (String × Option String) :=
  if r.Owns file.1 ∨ file.1 ∈ files.map Prod.fst then files else files ++ [file]

noncomputable def unowned (r : Registry) (files : List (String × Option String)) :
    List (String × Option String) := files.foldl r.claim []

/-- What is left for a package to come. -/
def makeRoom (r : Registry) (row : PkgColumns) : Registry :=
  (r.remove fun _ p => p.sameUid row).map fun p => p.renameDeps row.name row.version row.origin

noncomputable def register (r : Registry) (pkg : RegisteredPkg) (id : Int) : Registry :=
  (r.makeRoom pkg.row).set id (pkg.installed ((r.makeRoom pkg.row).unowned pkg.files))

theorem modify_modify (r : Registry) (id : Int) (change change' : Installed → Installed) :
    (r.modify id change).modify id change' = r.modify id fun p => change' (change p) := by
  funext other
  rw [modify, modify, modify, Option.map_map]
  refine congrArg (fun f => Option.map f (r other)) (funext fun p => ?_)
  by_cases here : other = id
  · simp [here]
  · simp [here]

theorem modify_foldl {α : Type} (change : α → Installed → Installed) (list : List α) (r : Registry)
    (id : Int) :
    list.foldl (fun r x => r.modify id (change x)) r =
      r.modify id fun p => list.foldl (fun p x => change x p) p := by
  induction list generalizing r with
  | nil => exact (modify_id r id).symm
  | cons x rest ih => rw [List.foldl_cons, ih, modify_modify]; rfl

theorem map_set (r : Registry) (id : Int) (p : Installed) (change : Installed → Installed) :
    (r.set id p).map change = (r.map change).set id (change p) := by
  funext other
  by_cases here : other = id
  · simp [map, set, here]
  · simp [map, set, here]

theorem owns_set {r : Registry} {id : Int} {p : Installed} {path : String} (free : r id = none) :
    (r.set id p).Owns path ↔ r.Owns path ∨ path ∈ p.files.map Prod.fst := by
  constructor
  · rintro ⟨other, q, loaded, listed⟩
    by_cases here : other = id
    · rw [set, if_pos here] at loaded
      cases loaded
      exact Or.inr listed
    · rw [set, if_neg here] at loaded
      exact Or.inl ⟨other, q, loaded, listed⟩
  · rintro (⟨other, q, loaded, listed⟩ | listed)
    · have elsewhere : other ≠ id := by
        rintro rfl
        rw [free] at loaded
        cases loaded
      exact ⟨other, q, by rw [set, if_neg elsewhere]; exact loaded, listed⟩
    · exact ⟨id, p, by rw [set, if_pos rfl], listed⟩

theorem record_set {r : Registry} {id : Int} (free : r id = none) (p : Installed)
    (file : String × Option String) :
    (r.set id p).record id file = r.set id { p with files := r.claim p.files file } := by
  rw [record, claim]
  by_cases owned : r.Owns file.1 ∨ file.1 ∈ p.files.map Prod.fst
  · rw [if_pos ((owns_set free).mpr owned), if_pos owned]
  · rw [if_neg fun owns => owned ((owns_set free).mp owns), if_neg owned, modify_set]
    rfl

theorem foldl_record {r : Registry} {id : Int} (free : r id = none)
    (files : List (String × Option String)) (p : Installed) :
    files.foldl (fun r file => r.record id file) (r.set id p) =
      r.set id { p with files := files.foldl r.claim p.files } := by
  induction files generalizing p with
  | nil => rfl
  | cons file rest ih => rw [List.foldl_cons, record_set free, ih]; rfl

theorem makeRoom_free {r : Registry} {id : Int} (free : r id = none) (row : PkgColumns) :
    r.makeRoom row id = none := by
  rw [makeRoom, map, remove, free]
  rfl

end Registry

namespace Installed

theorem foldl_addDep (deps : List (String × String × String)) (p : Installed) :
    deps.foldl addDep p = { p with deps := p.deps ++ deps } := by
  induction deps generalizing p with
  | nil => rw [List.foldl_nil, List.append_nil]
  | cons dep rest ih => rw [List.foldl_cons, ih, addDep, List.append_assoc]; rfl

theorem foldl_addFile (files : List (String × Option String)) (p : Installed) :
    files.foldl addFile p = { p with files := p.files ++ files } := by
  induction files generalizing p with
  | nil => rw [List.foldl_nil, List.append_nil]
  | cons file rest ih => rw [List.foldl_cons, ih, addFile, List.append_assoc]; rfl

def withLinks (p : Installed) (kind : LinkKind) (links : List (String × LinkedValue)) : Installed :=
  { p with links := Function.update p.links kind links }

@[simp] theorem withLinks_same (p : Installed) (kind : LinkKind)
    (links : List (String × LinkedValue)) : (p.withLinks kind links).links kind = links :=
  Function.update_self ..

@[simp] theorem withLinks_row (p : Installed) (kind : LinkKind)
    (links : List (String × LinkedValue)) : (p.withLinks kind links).row = p.row := rfl

@[simp] theorem withLinks_deps (p : Installed) (kind : LinkKind)
    (links : List (String × LinkedValue)) : (p.withLinks kind links).deps = p.deps := rfl

@[simp] theorem withLinks_files (p : Installed) (kind : LinkKind)
    (links : List (String × LinkedValue)) : (p.withLinks kind links).files = p.files := rfl

theorem withLinks_links_apply (p : Installed) (kind other : LinkKind)
    (links : List (String × LinkedValue)) :
    (p.withLinks kind links).links other = if other = kind then links else p.links other :=
  Function.update_apply ..

theorem eq_of_links {p q : Installed} (row : p.row = q.row) (deps : p.deps = q.deps)
    (files : p.files = q.files) (links : ∀ kind, p.links kind = q.links kind) : p = q := by
  cases p
  cases q
  cases row
  cases deps
  cases files
  cases funext links
  rfl

@[simp] theorem withLinks_withLinks (p : Installed) (kind : LinkKind)
    (links links' : List (String × LinkedValue)) :
    (p.withLinks kind links).withLinks kind links' = p.withLinks kind links' :=
  congrArg (fun links => ({ p with links := links } : Installed)) (Function.update_idem ..)

theorem withLinks_links (p : Installed) (kind : LinkKind) : p.withLinks kind (p.links kind) = p :=
  congrArg (fun links => ({ p with links := links } : Installed)) (Function.update_eq_self ..)

theorem addLink_eq (p : Installed) (kind : LinkKind) (link : String × LinkedValue) :
    p.addLink kind link =
      if kind.ignores = true ∧ link.1 ∈ (p.links kind).map Prod.fst then p
      else p.withLinks kind (p.links kind ++ [link]) := rfl

def addLinks (p : Installed) (kind : LinkKind) (links : List (String × LinkedValue)) : Installed :=
  links.foldl (fun p link => p.addLink kind link) p

/-- All links of a kind are added. -/
theorem addLinks_eq (kind : LinkKind) (links : List (String × LinkedValue)) (p : Installed)
    (takesAll : kind.ignores = false) :
    p.addLinks kind links = p.withLinks kind (p.links kind ++ links) := by
  induction links generalizing p with
  | nil => rw [List.append_nil, withLinks_links]; rfl
  | cons link rest ih =>
      have added : p.addLink kind link = p.withLinks kind (p.links kind ++ [link]) := by
        rw [addLink_eq, if_neg fun both => by rw [takesAll] at both; cases both.1]
      change (p.addLink kind link).addLinks kind rest = _
      rw [ih, added, withLinks_same, withLinks_withLinks, List.append_assoc]
      rfl

theorem eraseDups_snoc (names : List String) (name : String) :
    (names ++ [name]).eraseDups =
      if name ∈ names.eraseDups then names.eraseDups else names.eraseDups ++ [name] := by
  rw [List.eraseDups_append]
  split
  · next listed =>
      rw [List.mem_eraseDups] at listed
      rw [List.removeAll, List.filter_cons_of_neg (by simpa using listed)]
      exact List.append_nil _
  · next absent =>
      rw [List.mem_eraseDups] at absent
      rw [List.removeAll, List.filter_cons_of_pos (by simpa using absent)]
      rfl

/-- A repeated name is ignored. -/
theorem addLinks_ignores (kind : LinkKind) (names : List String) (p : Installed)
    (ignores : kind.ignores = true) (empty : p.links kind = []) :
    p.addLinks kind (names.map fun name => (name, .plain)) =
      p.withLinks kind (names.eraseDups.map fun name => (name, .plain)) := by
  induction names using List.reverseRecOn with
  | nil => rw [List.eraseDups_nil, List.map_nil, ← empty, withLinks_links, empty]; rfl
  | append_singleton names name ih =>
      have listed : (names.eraseDups.map fun name => (name, LinkedValue.plain)).map Prod.fst =
          names.eraseDups := by
        rw [List.map_map]
        exact List.map_id _
      rw [addLinks] at ih
      rw [addLinks, List.map_append, List.foldl_append, ih, List.map_cons, List.map_nil,
        List.foldl_cons, List.foldl_nil, addLink_eq, eraseDups_snoc]
      simp only [withLinks_same, withLinks_withLinks, listed, ignores, true_and]
      split
      · rfl
      · rw [List.map_append]
        rfl

end Installed

/-! ## The steps -/

section Steps

variable {rowIds : RowIds}

/-- A step that returns changes what is loaded in this way. -/
abbrev Loads (step : Fallible (PkgdbHandle Store) Unit) (change : Registry → Registry) : Prop :=
  Acts (fun h => h.conn.now.Sound) (fun h => h.conn.now.registry) step change

theorem runPrstmt_ok {stmt : PrStmt} {code : SqliteCode} {h h' : PkgdbHandle Store}
    (returned : runPrstmt (Store.sqlite rowIds) stmt h = .ok code h') :
    (h.conn.now.exec rowIds stmt).1 = code ∧
      (code = .done → h.conn.now.exec rowIds stmt = (.done, h'.conn.now)) ∧
      (code ≠ .done → rollsBack stmt code = false → h'.conn = h.conn) := by
  rw [runPrstmt_eq] at returned
  have step : (Store.sqlite rowIds).step h.log.length stmt h.conn.now =
      h.conn.now.exec rowIds stmt := rfl
  rw [step] at returned
  cases returned
  refine ⟨rfl, fun done => Prod.ext done ?_, fun notDone keeps => ?_⟩
  · rw [afterStep, if_pos done]
    cases saved : h.conn.savepoint with
    | none => simp [Connection.write, saved]
    | some old => simp [Connection.write, saved]
  · rw [afterStep, if_neg notDone, if_neg (by rw [keeps]; exact Bool.false_ne_true)]

theorem mustRun_ok {stmt : PrStmt} {h h' : PkgdbHandle Store}
    (returned : mustRun (Store.sqlite rowIds) stmt h = .ok () h') :
    h.conn.now.exec rowIds stmt = (.done, h'.conn.now) := by
  obtain ⟨code, between, ran, rest⟩ := bind_ok returned
  obtain ⟨_, left, _⟩ := runPrstmt_ok ran
  split at rest
  · next done =>
      cases rest
      exact left done
  · cases rest

theorem mustRun_loads {stmt : PrStmt} {change : Registry → Registry}
    (changes : ∀ s s' : Store, s.Sound → s.exec rowIds stmt = (.done, s') →
      s'.Sound ∧ s'.registry = change s.registry) :
    Loads (mustRun (Store.sqlite rowIds) stmt) change := fun _ _ sound returned =>
  changes _ _ sound (mustRun_ok returned)

/-- A name and the link to it. -/
theorem link_loads {kind : LinkKind} {package : Int} {name : String} {value : LinkedValue}
    {first second : PrStmt} (plain : ∀ text, value = .text text → kind ≠ .annotations)
    (interns : ∀ s : Store, s.exec rowIds first = s.intern rowIds kind.names (some name))
    (links : ∀ s : Store, s.exec rowIds second = s.link kind package name value) :
    Loads (do
        mustRun (Store.sqlite rowIds) first
        mustRun (Store.sqlite rowIds) second)
      (·.modify package fun p => p.addLink kind (name, value)) := by
  intro h h' sound returned
  obtain ⟨_, between, ranFirst, ranSecond⟩ := bind_ok returned
  have interned := (interns _).symm.trans (mustRun_ok ranFirst)
  have linked := (links _).symm.trans (mustRun_ok ranSecond)
  have same := (@Store.intern_sameRows rowIds _ sound kind.names (some name)).2
  have found := @Store.idOf_intern rowIds h.conn.now kind.names kind.names name
    name (Or.inl ⟨rfl, rfl⟩)
  rw [interned] at same found
  obtain ⟨sound', _, loaded⟩ := Store.link_spec (same.sound sound) found
    (fun text isText isNote => absurd isNote (plain text isText)) linked
  exact ⟨sound', loaded.trans (by rw [same.registry])⟩

/-- The tag and the value of an annotation share a table. -/
theorem annotation_loads (package : Int) (key value : String) :
    Loads (do
        mustRun (Store.sqlite rowIds) (.annotate1 key)
        mustRun (Store.sqlite rowIds) (.annotate1 value)
        mustRun (Store.sqlite rowIds) (.annotate2 package key value))
      (·.modify package fun p => p.addLink .annotations (key, .text value)) := by
  intro h h' sound returned
  obtain ⟨_, first, ranKey, rest⟩ := bind_ok returned
  obtain ⟨_, second, ranValue, ranLink⟩ := bind_ok rest
  have internedKey : h.conn.now.intern rowIds .annotations (some key) = (.done, first.conn.now) :=
    mustRun_ok ranKey
  have internedValue : first.conn.now.intern rowIds .annotations (some value) =
      (.done, second.conn.now) := mustRun_ok ranValue
  have linked : second.conn.now.link .annotations package key (.text value) =
      (.done, h'.conn.now) := mustRun_ok ranLink
  have sameKey := (@Store.intern_sameRows rowIds _ sound .annotations (some key)).2
  rw [internedKey] at sameKey
  have soundKey := sameKey.sound sound
  have sameValue := (@Store.intern_sameRows rowIds _ soundKey .annotations (some value)).2
  rw [internedValue] at sameValue
  have keyThere := @Store.idOf_intern rowIds h.conn.now .annotations .annotations
    key key (Or.inl ⟨rfl, rfl⟩)
  rw [internedKey] at keyThere
  have keyStays := @Store.idOf_intern rowIds first.conn.now .annotations
    .annotations value key (Or.inr keyThere)
  have valueThere := @Store.idOf_intern rowIds first.conn.now .annotations
    .annotations value value (Or.inl ⟨rfl, rfl⟩)
  rw [internedValue] at keyStays valueThere
  obtain ⟨sound', _, loaded⟩ := @Store.link_spec _ _ .annotations _ _ _
    (sameValue.sound soundKey) keyStays
    (fun text isText _ => by cases isText; exact valueThere) linked
  exact ⟨sound', loaded.trans (by rw [sameValue.registry, sameKey.registry])⟩

/-- A file is recorded unless it has an owner, which only some calls pass over. -/
theorem registerFile_ok {config : RegisterConfig} {forced : Bool} {package : Int}
    {file : String × Option String} {h h' : PkgdbHandle Store} (sound : h.conn.now.Sound)
    (returned : registerFile (Store.sqlite rowIds) config forced package file h = .ok () h') :
    h'.conn.now.Sound ∧
      ((¬h.conn.now.registry.Owns file.1 ∧ h'.conn.now.registry =
          h.conn.now.registry.modify package fun p => p.addFile file) ∨
        (h.conn.now.registry.Owns file.1 ∧ h'.conn.now.registry = h.conn.now.registry ∧
          (forced = true ∨ config.developerMode = false ∧ config.permissive = true))) := by
  obtain ⟨code, between, ran, rest⟩ := bind_ok returned
  obtain ⟨answer, left, refused⟩ := runPrstmt_ok ran
  have exec : h.conn.now.exec rowIds (.files file.1 file.2 package) =
      h.conn.now.insertFile ⟨file.1, file.2, package⟩ := rfl
  cases code with
  | done =>
      cases rest
      obtain ⟨sound', _, free, loaded⟩ := Store.insertFile_spec sound (left rfl)
      rw [Store.owns_iff sound] at free
      exact ⟨sound', Or.inl ⟨free, loaded⟩⟩
  | error rolledBack => cases rest
  | constraint =>
      have stays := refused nofun rfl
      obtain ⟨owner, asked, which, rest⟩ := bind_ok rest
      rw [pkgdbQueryWhich_eq] at which
      cases which
      have answered : (Store.sqlite rowIds).which between.log.length file.1 between.conn.now =
          h.conn.now.which file.1 := by rw [stays]; rfl
      by_cases taken : file.1 ∈ h.conn.now.files.map FileRow.path
      · rw [answered, Store.which_of_taken sound taken] at rest
        have same : ∀ log, (⟨afterWhich between.conn .found, log⟩ : PkgdbHandle Store).conn =
            h.conn := fun _ => stays
        have owned := (Store.owns_iff sound).mp taken
        change (if forced = true then pure ()
          else if (!config.developerMode && config.permissive) = true then pure () else throw () :
            Fallible (PkgdbHandle Store) Unit) _ = _ at rest
        split at rest
        · next isForced =>
            cases rest
            rw [same]
            exact ⟨sound, Or.inr ⟨owned, rfl, Or.inl isForced⟩⟩
        · split at rest
          · next isLenient =>
              cases rest
              rw [same]
              exact ⟨sound, Or.inr ⟨owned, rfl, Or.inr (by simpa using isLenient)⟩⟩
          · cases rest
      · -- The package has no row, and the file is refused again.
        have noPackage : package ∉ h.conn.now.ids := by
          intro listed
          rw [exec, Store.insertFile, if_neg (by rintro (missing | listed') <;> contradiction)]
            at answer
          cases answer
        have stray : h.conn.now.which file.1 = .stray := by
          rw [Store.which, if_neg]
          rw [List.any_eq_true]
          rintro ⟨row, member, same⟩
          rw [decide_eq_true_eq] at same
          exact taken (List.mem_map.mpr ⟨row, member, same.1⟩)
        rw [answered, stray] at rest
        have replaced := mustRun_ok rest
        have exec : (afterWhich between.conn .stray).now.exec rowIds
            (.filesReplace file.1 file.2 package) = (.constraint, h.conn.now) := by
          change between.conn.now.replaceFile _ = _
          rw [stays, Store.replaceFile, if_pos noPackage]
        rw [exec] at replaced
        cases replaced

/-- One kind of links. -/
theorem links_load {α : Type} (kind : LinkKind) (package : Int) (list : List α)
    (link : α → String × LinkedValue) (first second : α → PrStmt)
    (plain : ∀ x text, (link x).2 = .text text → kind ≠ .annotations)
    (interns : ∀ x (s : Store), s.exec rowIds (first x) =
      s.intern rowIds kind.names (some (link x).1))
    (links : ∀ x (s : Store), s.exec rowIds (second x) = s.link kind package (link x).1 (link x).2) :
    Loads (list.forM fun x => do
        mustRun (Store.sqlite rowIds) (first x)
        mustRun (Store.sqlite rowIds) (second x))
      (·.modify package fun p => p.addLinks kind (list.map link)) := by
  intro h h' sound returned
  obtain ⟨sound', loaded⟩ := Acts.forM (fun x => link_loads (plain x) (interns x) (links x)) h h'
    sound returned
  refine ⟨sound', loaded.trans ?_⟩
  refine (Registry.modify_foldl (fun x p => p.addLink kind (link x)) list _ package).trans ?_
  simp only [Installed.addLinks, List.foldl_map]

theorem registerFile_loads {config : RegisterConfig} {forced : Bool} {package : Int}
    (file : String × Option String) :
    Loads (registerFile (Store.sqlite rowIds) config forced package file)
      (·.record package file) := by
  intro h h' sound returned
  obtain ⟨sound', ⟨free, loaded⟩ | ⟨owned, loaded, _⟩⟩ := registerFile_ok sound returned
  · exact ⟨sound', loaded.trans (if_neg free).symm⟩
  · exact ⟨sound', loaded.trans (if_pos owned).symm⟩

/-- A call that is neither forced nor permissive records every file. -/
theorem registerFile_strict {config : RegisterConfig} {package : Int}
    (strict : config.developerMode = true ∨ config.permissive = false)
    (file : String × Option String) :
    Loads (registerFile (Store.sqlite rowIds) config false package file)
      (·.modify package fun p => p.addFile file) := by
  intro h h' sound returned
  obtain ⟨sound', ⟨_, loaded⟩ | ⟨_, _, lenient⟩⟩ := registerFile_ok sound returned
  · exact ⟨sound', loaded⟩
  · rcases lenient with isForced | ⟨notDeveloper, permissive⟩
    · cases isForced
    · rcases strict with developer | notPermissive
      · cases developer.symm.trans notDeveloper
      · cases notPermissive.symm.trans permissive

/-- The links in the order in which they are inserted. -/
def RegisteredPkg.linkAll (pkg : RegisteredPkg) (p : Installed) : Installed :=
  let p := p.addLinks .directory (pkg.links .directory)
  let p := p.addLinks .category (pkg.links .category)
  let p := p.addLinks .license (pkg.links .license)
  let p := p.addLinks .user (pkg.links .user)
  let p := p.addLinks .group (pkg.links .group)
  let p := p.addLinks .script (pkg.links .script)
  let p := p.addLinks .option (pkg.links .option)
  let p := p.addLinks .shlibRequired (pkg.shlibsRequired.map fun name => (name, .plain))
  let p := p.addLinks .shlibProvided (pkg.shlibsProvided.map fun name => (name, .plain))
  let p := p.addLinks .annotations (pkg.links .annotations)
  p.addLinks .provide (pkg.links .provide)

/-- A package without links gets all of its links. -/
theorem Installed.linkAll_eq (pkg : RegisteredPkg) {p : Installed} (empty : p.links = fun _ => []) :
    pkg.linkAll p = { p with links := pkg.links } := by
  have fresh : ∀ kind, p.links kind = [] := fun kind => congrFun empty kind
  rw [RegisteredPkg.linkAll]
  rw [Installed.addLinks_eq .directory _ _ rfl, Installed.addLinks_eq .category _ _ rfl,
    Installed.addLinks_eq .license _ _ rfl, Installed.addLinks_eq .user _ _ rfl,
    Installed.addLinks_eq .group _ _ rfl, Installed.addLinks_eq .script _ _ rfl,
    Installed.addLinks_eq .option _ _ rfl,
    Installed.addLinks_ignores .shlibRequired _ _ rfl (by simp [Installed.withLinks_links_apply, fresh]),
    Installed.addLinks_ignores .shlibProvided _ _ rfl (by simp [Installed.withLinks_links_apply, fresh]),
    Installed.addLinks_eq .annotations _ _ rfl, Installed.addLinks_eq .provide _ _ rfl]
  refine Installed.eq_of_links (by simp) (by simp) (by simp) fun kind => ?_
  cases kind with
  | _ => simp [Installed.withLinks_links_apply, RegisteredPkg.links, fresh]

theorem mustRun_same {stmt : PrStmt} {h h' : PkgdbHandle Store} (sound : h.conn.now.Sound)
    (interns : ∃ kind name, ∀ s : Store, s.exec rowIds stmt = s.intern rowIds kind name)
    (returned : mustRun (Store.sqlite rowIds) stmt h = .ok () h') :
    h.conn.now.SameRows h'.conn.now := by
  obtain ⟨kind, name, isIntern⟩ := interns
  have same := (@Store.intern_sameRows rowIds _ sound kind name).2
  rwa [← isIntern, mustRun_ok returned] at same

/-- The search index is not loaded. -/
theorem ftsAppend_loads (id : Int) (name version origin : String) :
    Loads (mustRun (Store.sqlite rowIds) (.ftsAppend id name version origin)) fun r => r := by
  refine mustRun_loads fun s s' sound done => ?_
  cases done
  exact ⟨{ sound with links := sound.links_of rfl rfl }, rfl⟩

theorem conflict_loads (package : Int) (uniqueid : String) :
    Loads (mustRun (Store.sqlite rowIds) (.conflict package uniqueid)) fun r => r := by
  refine mustRun_loads fun s s' sound done => ?_
  change s.insertConflict package uniqueid = _ at done
  unfold Store.insertConflict at done
  split at done
  · cases done
  · split at done
    · cases done
    · cases done
      exact ⟨{ sound with links := sound.links_of rfl rfl }, rfl⟩

/-- From the directories to the names that are provided. -/
theorem tail_loads (pkg : RegisteredPkg) (packageId : Int) :
    Loads (do
        pkg.dirs.forM fun (path, try_) => do
          mustRun (Store.sqlite rowIds) (.dirs1 path)
          mustRun (Store.sqlite rowIds) (.dirs2 packageId path try_)
        pkg.categories.forM fun name => do
          mustRun (Store.sqlite rowIds) (.category1 name)
          mustRun (Store.sqlite rowIds) (.category2 packageId name)
        pkg.licenses.forM fun name => do
          mustRun (Store.sqlite rowIds) (.licenses1 name)
          mustRun (Store.sqlite rowIds) (.licenses2 packageId name)
        pkg.users.forM fun name => do
          mustRun (Store.sqlite rowIds) (.users1 name)
          mustRun (Store.sqlite rowIds) (.users2 packageId name)
        pkg.groups.forM fun name => do
          mustRun (Store.sqlite rowIds) (.groups1 name)
          mustRun (Store.sqlite rowIds) (.groups2 packageId name)
        pkg.scripts.forM fun (type, script) => do
          mustRun (Store.sqlite rowIds) (.script1 script)
          mustRun (Store.sqlite rowIds) (.script2 script packageId type)
        pkg.options.forM fun (opt, value) => do
          mustRun (Store.sqlite rowIds) (.option1 opt)
          mustRun (Store.sqlite rowIds) (.option2 packageId opt value)
        pkg.shlibsRequired.forM fun name => do
          mustRun (Store.sqlite rowIds) (.shlibs1 name)
          mustRun (Store.sqlite rowIds) (.shlibsReqd packageId name)
        pkg.shlibsProvided.forM fun name => do
          mustRun (Store.sqlite rowIds) (.shlibs1 name)
          mustRun (Store.sqlite rowIds) (.shlibsProv packageId name)
        pkg.annotations.forM fun (key, value) => do
          mustRun (Store.sqlite rowIds) (.annotate1 key)
          mustRun (Store.sqlite rowIds) (.annotate1 value)
          mustRun (Store.sqlite rowIds) (.annotate2 packageId key value)
        pkg.conflicts.forM fun uniqueid =>
          mustRun (Store.sqlite rowIds) (.conflict packageId uniqueid)
        pkg.provides.forM fun name => do
          mustRun (Store.sqlite rowIds) (.provide name)
          mustRun (Store.sqlite rowIds) (.pkgProvide packageId name))
      (·.modify packageId pkg.linkAll) := by
  have plain : ∀ {α : Type} (kind : LinkKind) (list : List α) (name : α → String)
      (first second : α → PrStmt), (∀ x (s : Store), s.exec rowIds (first x) =
        s.intern rowIds kind.names (some (name x))) →
      (∀ x (s : Store), s.exec rowIds (second x) = s.link kind packageId (name x) .plain) →
      Loads (list.forM fun x => do
          mustRun (Store.sqlite rowIds) (first x)
          mustRun (Store.sqlite rowIds) (second x))
        (·.modify packageId fun p => p.addLinks kind (list.map fun x => (name x, .plain))) :=
    fun kind list name first second interns links =>
      links_load kind packageId list (fun x => (name x, .plain)) first second nofun interns links
  have dirs := @links_load rowIds _ .directory packageId pkg.dirs
    (fun dir => (dir.1, .number (if dir.2 then 1 else 0))) (fun dir => .dirs1 dir.1)
    (fun dir => .dirs2 packageId dir.1 dir.2) nofun
    (fun _ _ => rfl) (fun _ _ => rfl)
  have scripts := @links_load rowIds _ .script packageId pkg.scripts
    (fun script => (script.2, .number script.1)) (fun script => .script1 script.2)
    (fun script => .script2 script.2 packageId script.1) nofun
    (fun _ _ => rfl) (fun _ _ => rfl)
  have options := @links_load rowIds _ .option packageId pkg.options
    (fun option => (option.1, .text option.2)) (fun option => .option1 option.1)
    (fun option => .option2 packageId option.1 option.2) nofun
    (fun _ _ => rfl) (fun _ _ => rfl)
  have notes : Loads (pkg.annotations.forM fun (key, value) => do
        mustRun (Store.sqlite rowIds) (.annotate1 key)
        mustRun (Store.sqlite rowIds) (.annotate1 value)
        mustRun (Store.sqlite rowIds) (.annotate2 packageId key value))
      (·.modify packageId fun p => p.addLinks .annotations (pkg.links .annotations)) := by
    intro h h' sound returned
    obtain ⟨sound', loaded⟩ := Acts.forM (fun note : String × String =>
      annotation_loads packageId note.1 note.2) h h' sound returned
    refine ⟨sound', loaded.trans ?_⟩
    refine (Registry.modify_foldl (fun note : String × String => fun p =>
      p.addLink .annotations (note.1, .text note.2)) pkg.annotations _ packageId).trans ?_
    simp only [Installed.addLinks, RegisteredPkg.links, List.foldl_map]
  have conflicts := @Acts.forM _ _ _ _ _ pkg.conflicts _ _ fun uniqueid =>
    @conflict_loads rowIds packageId uniqueid
  have all := dirs.bind ((plain .category pkg.categories id .category1 (.category2 packageId)
    (fun _ _ => rfl) fun _ _ => rfl).bind ((plain .license pkg.licenses id .licenses1
    (.licenses2 packageId) (fun _ _ => rfl) fun _ _ => rfl).bind ((plain .user pkg.users id .users1
    (.users2 packageId) (fun _ _ => rfl) fun _ _ => rfl).bind ((plain .group pkg.groups id .groups1
    (.groups2 packageId) (fun _ _ => rfl) fun _ _ => rfl).bind (scripts.bind (options.bind
    ((plain .shlibRequired pkg.shlibsRequired id .shlibs1 (.shlibsReqd packageId)
    (fun _ _ => rfl) fun _ _ => rfl).bind ((plain .shlibProvided pkg.shlibsProvided id .shlibs1
    (.shlibsProv packageId) (fun _ _ => rfl) fun _ _ => rfl).bind (notes.bind (conflicts.bind
    (plain .provide pkg.provides id .provide (.pkgProvide packageId)
    (fun _ _ => rfl) fun _ _ => rfl)))))))))))
  intro h h' sound returned
  obtain ⟨sound', loaded⟩ := all h h' sound returned
  refine ⟨sound', loaded.trans ?_⟩
  have unchanged : ∀ r : Registry, pkg.conflicts.foldl (fun r _ => r) r = r := by
    intro r
    induction pkg.conflicts with
    | nil => rfl
    | cons _ _ ih => exact ih
  simp only [unchanged, Registry.modify_modify]
  rfl

theorem depsUpdate_loads (name version origin : String) :
    Loads (mustRun (Store.sqlite rowIds) (.depsUpdate name version origin))
      (·.map fun p => p.renameDeps name version origin) :=
  mustRun_loads fun _ _ sound done =>
    have spec := Store.updateDeps_spec sound done
    ⟨spec.1, spec.2.2⟩

theorem deps_load (pkg : RegisteredPkg) (packageId : Int) :
    Loads (pkg.deps.forM fun (origin, name, version) =>
        mustRun (Store.sqlite rowIds) (.deps origin name version packageId))
      (·.modify packageId fun p => { p with deps := p.deps ++ pkg.deps }) := by
  intro h h' sound returned
  have each : ∀ dep : String × String × String,
      Loads (mustRun (Store.sqlite rowIds) (.deps dep.1 dep.2.1 dep.2.2 packageId))
        (·.modify packageId fun p => p.addDep dep) := fun dep =>
    mustRun_loads fun _ _ sound done =>
      have spec := Store.insertDep_spec sound done
      ⟨spec.1, spec.2.2⟩
  obtain ⟨sound', loaded⟩ := Acts.forM each h h' sound returned
  refine ⟨sound', loaded.trans ?_⟩
  refine (Registry.modify_foldl (fun dep p => Installed.addDep p dep) pkg.deps _ packageId).trans ?_
  exact congrArg (Registry.modify _ packageId) (funext fun p => Installed.foldl_addDep pkg.deps p)

/-- What is left when the package has been put there. -/
structure Registered (config : RegisterConfig) (pkg : RegisteredPkg) (forced : Bool)
    (s s' : Store) : Prop where
  sound : s'.Sound
  registered : ∃ id, s.registry id = none ∧ s'.registry = s.registry.register pkg id
  recorded : forced = false → config.developerMode = true ∨ config.permissive = false →
    (s.registry.makeRoom pkg.row).unowned pkg.files = pkg.files

/-- Within a transaction. -/
theorem pkgdbRegisterPkg_inside {config : RegisterConfig} {pkg : RegisteredPkg} {forced : Bool}
    {h h' : PkgdbHandle Store} (sound : h.conn.now.Sound)
    (returned : pkgdbRegisterPkg (Store.sqlite rowIds) config pkg true forced h = .ok () h') :
    Registered config pkg forced h.conn.now h'.conn.now := by
  change (mustRun (Store.sqlite rowIds) (.mtree pkg.row.mtree) >>= _) h = _ at returned
  obtain ⟨_, second, mtree, returned⟩ := bind_ok returned
  obtain ⟨_, third, row, returned⟩ := bind_ok returned
  rw [read_bind] at returned
  have sameRows := mustRun_same sound ⟨.mtree, pkg.row.mtree, fun _ => rfl⟩ mtree
  have interned : ∀ content, pkg.row.mtree = some content →
      ((second.conn.now.names .mtree).idOf content).isSome = true := by
    intro content isContent
    have there := @Store.idOf_intern rowIds h.conn.now .mtree .mtree content
      content (Or.inl ⟨rfl, rfl⟩)
    have ran := mustRun_ok mtree
    rw [isContent] at ran
    change h.conn.now.intern rowIds .mtree (some content) = _ at ran
    rwa [ran] at there
  obtain ⟨soundRow, _, fresh, loadedRow⟩ := Store.insertPackage_spec (sameRows.sound sound)
    interned (mustRun_ok row)
  have free := Store.registry_eq_none fresh
  rw [sameRows.registry] at free loadedRow
  have isId : (Store.sqlite rowIds).lastInsertRowid third.conn.now = third.conn.now.lastRowid := rfl
  rw [isId] at returned
  generalize third.conn.now.lastRowid = id at free loadedRow returned
  obtain ⟨_, fourth, search, returned⟩ := bind_ok returned
  obtain ⟨_, fifth, update, returned⟩ := bind_ok returned
  obtain ⟨_, sixth, deps, returned⟩ := bind_ok returned
  obtain ⟨_, seventh, files, returned⟩ := bind_ok returned
  obtain ⟨soundSearch, loadedSearch⟩ := ftsAppend_loads _ _ _ _ third fourth soundRow search
  obtain ⟨soundUpdate, loadedUpdate⟩ := depsUpdate_loads _ _ _ fourth fifth soundSearch update
  obtain ⟨soundDeps, loadedDeps⟩ := deps_load pkg id fifth sixth soundUpdate deps
  obtain ⟨soundFiles, loadedFiles⟩ := Acts.forM (fun file => registerFile_loads file) sixth seventh
    soundDeps files
  obtain ⟨sound', loaded⟩ := tail_loads pkg id seventh h' soundFiles returned
  -- The package before its files.
  have before : sixth.conn.now.registry = (h.conn.now.registry.makeRoom pkg.row).set id
      { row := pkg.row, deps := pkg.deps } := by
    refine loadedDeps.trans ?_
    dsimp only at loadedUpdate loadedSearch ⊢
    rw [loadedUpdate, loadedSearch, loadedRow, Registry.map_set, Registry.modify_set]
    rfl
  have room := Registry.makeRoom_free free pkg.row
  refine ⟨sound', ⟨id, free, ?_⟩, fun notForced strict => ?_⟩
  · refine loaded.trans ?_
    dsimp only at loadedFiles ⊢
    rw [loadedFiles, before, Registry.foldl_record room, Registry.modify_set,
      Installed.linkAll_eq pkg rfl]
    rfl
  · subst notForced
    obtain ⟨_, allFiles⟩ := Acts.forM (fun file => registerFile_strict strict file) sixth seventh
      soundDeps files
    dsimp only at loadedFiles allFiles
    rw [loadedFiles, before, Registry.foldl_record room,
      Registry.modify_foldl (fun file p => Installed.addFile p file), Registry.modify_set,
      Installed.foldl_addFile] at allFiles
    have there := congrFun allFiles id
    rw [Registry.set, Registry.set, if_pos rfl, if_pos rfl] at there
    exact congrArg Installed.files (Option.some.inj there)

end Steps

end Pkgng
