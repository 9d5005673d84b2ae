import Pkgng.PkgObject.Calls

/-!
# Reusing a package object

`pkg_reset` frees the tables of its own list, in which the conflicts are missing, empties the
buffers of the scripts, and clears the flags of what it has freed.  What a caller can tell from a
new package is compared accessor by accessor, and by whatever is added afterwards.
-/

set_option autoImplicit false

namespace Pkgng

open Lib

inductive PkgList
  | deps
  | rdeps
  | options
  | files
  | dirs
  | users
  | groups
  | shlibsRequired
  | shlibsProvided
  | conflicts
  | provides
deriving DecidableEq, Repr

namespace PkgObject

/-- `pkg->flags &= ~flag`. -/
def clearFlag (pkg : PkgObject) (flag : LoadFlag) : PkgObject :=
  { pkg with flags := Function.update pkg.flags flag false }

/-- `HASH_FREE` on the options: the entries freed. -/
def freeOptions (pkg : PkgObject) : Option (List Nat) :=
  let table := pkg.options.table
  ElementOrder.free (pkg.options.entries.length + 1) table.head []
    ⟨table.head, table.next, pkg.optionPrev⟩

/-- `pkg_list_free`; none is an entry that is freed twice. -/
def listFree (pkg : PkgObject) : PkgList → Option PkgObject
  | .deps => some { pkg.clearFlag .deps with deps := [] }
  | .rdeps => some { pkg.clearFlag .rdeps with rdeps := [] }
  | .options =>
      pkg.freeOptions.map fun _ =>
        { pkg.clearFlag .options with options := {}, optionPrev := fun _ => none }
  | .files => some { pkg.clearFlag .files with files := [] }
  | .dirs => some { pkg.clearFlag .dirs with dirs := [] }
  | .users => some { pkg.clearFlag .users with users := [] }
  | .groups => some { pkg.clearFlag .groups with groups := [] }
  | .shlibsRequired => some { pkg.clearFlag .shlibsRequired with shlibsRequired := [] }
  | .shlibsProvided => some { pkg.clearFlag .shlibsProvided with shlibsProvided := [] }
  | .conflicts => some { pkg.clearFlag .conflicts with conflicts := [] }
  | .provides => some { pkg.clearFlag .provides with provides := [] }

/-- The calls of `pkg_list_free` in `pkg_reset`. -/
def resetLists : List PkgList :=
  [.deps, .rdeps, .files, .dirs, .options, .users, .groups, .shlibsRequired, .shlibsProvided,
    .provides]

def reset (pkg : PkgObject) (type : PkgType) : Option PkgObject :=
  let pkg := { pkg with fields := fun _ => none }
  let pkg := ((pkg.clearFlag .categories).clearFlag .licenses).clearFlag .annotations
  -- `sbuf_reset` leaves an empty buffer, and does nothing without a buffer.
  let pkg := { pkg with scripts := fun script => (pkg.scripts script).map fun _ => "" }
  (resetLists.foldlM listFree pkg).map fun pkg => { pkg with rootfd := none, type := type }

/-! ## What can be told apart -/

/-- `pkg_get` for one attribute. -/
def get (pkg : PkgObject) (attr : PkgAttr) : Option FieldValue :=
  match pkg.fields attr, (pkgKeys attr).2 with
  | some value, _ => some value
  | none, .boolean => some (.boolean false)
  | none, .int => some (.int 0)
  | none, _ => none

/-- `pkg_options` from an entry on; none where the entries come to no end. -/
def visitOptions (pkg : PkgObject) : Nat → Option Nat → Option (List OptionEntry)
  | _, none => some []
  | 0, some _ => none
  | fuel + 1, some a => do
      let o ← pkg.options.entries[a]?
      let rest ← visitOptions pkg fuel (pkg.options.table.next a)
      pure (o :: rest)

/-- The readings of the accessors. -/
structure View where
  get : PkgAttr → Option FieldValue
  scripts : PkgScript → Option String
  deps : List DepCell
  rdeps : List DepCell
  files : List FileCell
  dirs : List DirCell
  options : Option (List OptionEntry)
  users : List AccountCell
  groups : List AccountCell
  shlibsRequired : List String
  shlibsProvided : List String
  conflicts : List String
  provides : List String
  flags : LoadFlag → Bool
  rootfd : Option Nat
  type : PkgType

def view (pkg : PkgObject) : View where
  get := pkg.get
  scripts := pkg.scripts
  deps := pkg.deps
  rdeps := pkg.rdeps
  files := pkg.files
  dirs := pkg.dirs
  options := pkg.visitOptions pkg.options.entries.length pkg.options.table.head
  users := pkg.users
  groups := pkg.groups
  shlibsRequired := pkg.shlibsRequired
  shlibsProvided := pkg.shlibsProvided
  conflicts := pkg.conflicts
  provides := pkg.provides
  flags := pkg.flags
  rootfd := pkg.rootfd
  type := pkg.type

end PkgObject

/-- After `pkg_reset` no accessor, and no sequence of calls, can tell the package from a new
one. -/
def CarriesNothing (bucket : List Char → Nat) (developer : Bool) (pkg : PkgObject)
    (type : PkgType) : Prop :=
  ∃ after, pkg.reset type = some after ∧ after.view = (pkgNew type).view ∧
    ∀ calls, (runPkgCalls bucket developer calls after).map PkgObject.view =
      (runPkgCalls bucket developer calls (pkgNew type)).map PkgObject.view

/-- The flags that `pkg_reset` leaves. -/
def keptFlags : List LoadFlag := [.scripts, .mtree, .conflicts]

/-- A call adds nothing that `pkg_reset` leaves: no conflict, no script, and no flag of
`keptFlags`. -/
def PkgCall.leavesNothing : PkgCall → Bool
  | .addconflict _ => false
  | .addscript _ _ => false
  | .appendscript _ _ => false
  | .addscriptFile filename content =>
      content.isNone || (PkgObject.scriptOfFile filename).isNone
  | .loaded flag => !keptFlags.contains flag
  | _ => true

namespace PkgObject

variable {pkg : PkgObject}

/-- What is left after `pkg_reset`. -/
theorem reset_eq (pkg : PkgObject) (type : PkgType) :
    pkg.reset type = pkg.freeOptions.map fun _ =>
      { pkgNew type with
        scripts := fun script => (pkg.scripts script).map fun _ => ""
        conflicts := pkg.conflicts
        flags := fun flag => keptFlags.contains flag && pkg.flags flag } := by
  simp only [reset, clearFlag, resetLists, List.foldlM_cons, List.foldlM_nil, listFree,
    freeOptions, Option.bind_eq_bind, Option.bind_some]
  cases ElementOrder.free (pkg.options.entries.length + 1) pkg.options.table.head []
    ⟨pkg.options.table.head, pkg.options.table.next, pkg.optionPrev⟩ with
  | none => rfl
  | some cells =>
      simp only [Option.map_some, Option.bind_some, Option.pure_def, pkgNew, Option.some.injEq,
        PkgObject.mk.injEq, true_and, and_true]
      funext flag
      cases flag <;> rfl

/-- Nothing of what `pkg_reset` leaves. -/
structure LeftClean (pkg : PkgObject) : Prop where
  conflicts : pkg.conflicts = []
  scripts : ∀ script, pkg.scripts script = none
  flags : ∀ flag ∈ keptFlags, pkg.flags flag = false

theorem leftClean_new (type : PkgType) : (pkgNew type).LeftClean where
  conflicts := rfl
  scripts _ := rfl
  flags _ _ := rfl

theorem LeftClean.reset_eq (clean : pkg.LeftClean) (type : PkgType) :
    pkg.reset type = pkg.freeOptions.map fun _ => pkgNew type := by
  rw [PkgObject.reset_eq]
  congr 1
  funext _
  have noScripts : (fun script => (pkg.scripts script).map fun _ => "") = fun _ => none := by
    funext script
    rw [clean.scripts script, Option.map_none]
  have noFlags : (fun flag => keptFlags.contains flag && pkg.flags flag) = fun _ => false := by
    funext flag
    by_cases kept : flag ∈ keptFlags
    · rw [clean.flags flag kept, Bool.and_false]
    · simp [kept]
  rw [noScripts, noFlags, clean.conflicts]
  rfl

/-! ## Which calls leave something -/

/-- The parts of a package that `pkg_reset` leaves. -/
def kept (pkg : PkgObject) : List String × (PkgScript → Option String) × (LoadFlag → Bool) :=
  (pkg.conflicts, pkg.scripts, pkg.flags)

theorem leftClean_congr {after : PkgObject} (same : after.kept = pkg.kept) :
    after.LeftClean ↔ pkg.LeftClean := by
  obtain ⟨conflicts, scripts, flags⟩ : after.conflicts = pkg.conflicts ∧
      after.scripts = pkg.scripts ∧ after.flags = pkg.flags := by
    simpa only [kept, Prod.mk.injEq] using same
  constructor
  · exact fun clean => ⟨conflicts ▸ clean.conflicts, scripts ▸ clean.scripts, flags ▸ clean.flags⟩
  · exact fun clean => ⟨conflicts ▸ clean.conflicts, scripts ▸ clean.scripts, flags ▸ clean.flags⟩

section Frames

-- What neither the fields nor the added entry change.
variable {β : Type} (part : PkgObject → β)

theorem addEntry_keeps {asserted taken : Bool} {code ran : Epkg} {added after : PkgObject}
    (same : part added = part pkg)
    (runs : pkg.addEntry asserted taken code added = some (ran, after)) :
    part after = part pkg := by
  unfold addEntry at runs
  split at runs
  · cases runs
  · split at runs
    · cases runs
      rfl
    · cases runs
      exact same

theorem set_keeps {attr : PkgAttr} {value : Option FieldValue} {ran : Epkg} {after : PkgObject}
    (same : ∀ value, part (pkg.setField attr value) = part pkg)
    (runs : pkg.set attr value = some (ran, after)) : part after = part pkg := by
  unfold set at runs
  split at runs
  · split at runs
    · cases runs
    · cases runs
      exact same _
  all_goals cases runs
  all_goals first | exact same _ | rfl

end Frames

theorem addoption_kept {bucket : List Char → Nat} {developer : Bool} {call : OptionCall}
    {ran : Epkg} {after : PkgObject}
    (runs : pkg.addoption bucket developer call = some (ran, after)) : after.kept = pkg.kept := by
  obtain ⟨options, _, result⟩ := Option.map_eq_some_iff.mp runs
  split at result
  · cases result
    rfl
  · cases result
    rfl

theorem addconflict_leaves {uniqueid : String} {ran : Epkg} {after : PkgObject}
    (runs : pkg.addconflict uniqueid = some (ran, after)) : ¬after.LeftClean := by
  intro clean
  have empty := clean.conflicts
  unfold addconflict addEntry at runs
  split at runs
  · cases runs
  · split at runs
    · next known =>
        cases runs
        rw [empty] at known
        cases known
    · cases runs
      simp at empty

theorem addscript_leaves {data : String} {type : PkgScript} {ran : Epkg} {after : PkgObject}
    (runs : pkg.addscript data type = some (ran, after)) : ¬after.LeftClean := by
  intro clean
  have unset := clean.scripts type
  cases runs
  dsimp only at unset
  rw [Function.update_self] at unset
  cases unset

theorem appendscript_leaves {cmd : String} {type : PkgScript} {ran : Epkg} {after : PkgObject}
    (runs : pkg.appendscript cmd type = some (ran, after)) : ¬after.LeftClean := by
  unfold appendscript at runs
  split at runs
  · cases runs
  · split at runs
    · exact addscript_leaves runs
    · exact addscript_leaves runs

theorem loaded_leaves (flag : LoadFlag) :
    { pkg with flags := Function.update pkg.flags flag true }.LeftClean ↔
      pkg.LeftClean ∧ flag ∉ keptFlags := by
  constructor
  · intro clean
    have outside : flag ∉ keptFlags := by
      intro member
      have unset := clean.flags flag member
      dsimp only at unset
      rw [Function.update_self] at unset
      cases unset
    refine ⟨⟨clean.conflicts, clean.scripts, fun other member => ?_⟩, outside⟩
    have differs : other ≠ flag := fun same => outside (same ▸ member)
    have unset := clean.flags other member
    dsimp only at unset
    rwa [Function.update_of_ne differs] at unset
  · rintro ⟨clean, outside⟩
    refine ⟨clean.conflicts, clean.scripts, fun other member => ?_⟩
    have differs : other ≠ flag := fun same => outside (same ▸ member)
    dsimp only
    rw [Function.update_of_ne differs]
    exact clean.flags other member

/-- One call leaves nothing exactly if it is none of those that do. -/
theorem run_leaves {bucket : List Char → Nat} {developer : Bool} {call : PkgCall} {ran : Epkg}
    {after : PkgObject} (runs : call.run bucket developer pkg = some (ran, after)) :
    after.LeftClean ↔ pkg.LeftClean ∧ call.leavesNothing = true := by
  have unchanged (same : after.kept = pkg.kept) (leaves : call.leavesNothing = true) :
      after.LeftClean ↔ pkg.LeftClean ∧ call.leavesNothing = true := by
    rw [leftClean_congr same, leaves, and_iff_left rfl]
  have changed (left : ¬after.LeftClean) (leaves : call.leavesNothing = false) :
      after.LeftClean ↔ pkg.LeftClean ∧ call.leavesNothing = true :=
    iff_of_false left fun both => Bool.false_ne_true (leaves.symm.trans both.2)
  cases call with
  | set attr value => exact unchanged (set_keeps kept (fun _ => rfl) runs) rfl
  | addoption call => exact unchanged (addoption_kept runs) rfl
  | addconflict uniqueid => exact changed (addconflict_leaves runs) rfl
  | addscript data type => exact changed (addscript_leaves runs) rfl
  | appendscript cmd type => exact changed (appendscript_leaves runs) rfl
  | addscriptFile filename content =>
      cases content with
      | none =>
          cases runs
          exact unchanged rfl rfl
      | some data =>
          cases known : scriptOfFile filename with
          | none =>
              simp only [PkgCall.run, addscriptFile, known, Option.some.injEq,
                Prod.mk.injEq] at runs
              exact unchanged (congrArg kept runs.2.symm) (by simp [PkgCall.leavesNothing, known])
          | some type =>
              simp only [PkgCall.run, addscriptFile, known] at runs
              exact changed (addscript_leaves runs) (by simp [PkgCall.leavesNothing, known])
  | loaded flag =>
      cases runs
      rw [loaded_leaves]
      simp [PkgCall.leavesNothing]
  | addannotationTag tag value =>
      simp only [PkgCall.run, addannotationTag] at runs
      refine unchanged (addEntry_keeps kept ?_ runs) rfl
      rfl
  | _ =>
      refine unchanged (addEntry_keeps kept ?_ runs) rfl
      rfl

theorem runPkgCalls_leaves {bucket : List Char → Nat} {developer : Bool} {calls : List PkgCall}
    {after : PkgObject} (runs : runPkgCalls bucket developer calls pkg = some after) :
    after.LeftClean ↔ pkg.LeftClean ∧ ∀ call ∈ calls, call.leavesNothing = true := by
  induction calls generalizing pkg with
  | nil =>
      cases runs
      simp
  | cons call rest ih =>
      rw [runPkgCalls, List.foldlM_cons, Option.bind_eq_bind, Option.bind_eq_some_iff] at runs
      obtain ⟨next, first, later⟩ := runs
      obtain ⟨⟨ran, next'⟩, once, same⟩ := Option.map_eq_some_iff.mp first
      cases same
      rw [ih later, run_leaves once, List.forall_mem_cons, and_assoc]

/-! ## The options that are freed -/

/-- The table of the options in order, with the backward links. -/
structure OptionsLinked (bucket : List Char → Nat) (before : List OptionCall) (pkg : PkgObject) :
    Prop where
  healthy : OptionsHealthy bucket before pkg.options
  back : ElementOrder.PointsBack pkg.optionPrev none (List.range pkg.options.entries.length)

theorem OptionsLinked.freed {bucket : List Char → Nat} {before : List OptionCall}
    (linked : OptionsLinked bucket before pkg) : pkg.freeOptions.isSome = true := by
  have order := linked.healthy.healthy.order
  have size : (List.range pkg.options.entries.length).length <
      pkg.options.entries.length + 1 := by simp
  have result := ElementOrder.free_of_pointsBack order linked.back
    (fun a _ => List.not_mem_nil) size
  rw [freeOptions, result, Option.isSome_some]

/-- The calls for options among the calls. -/
def optionCalls (calls : List PkgCall) : List OptionCall :=
  calls.filterMap fun call =>
    match call with
    | .addoption call => some call
    | _ => none

theorem OptionsLinked.adds {bucket : List Char → Nat} {before : List OptionCall}
    (linked : OptionsLinked bucket before pkg) :
    ElementOrder.PointsBack (pkg.options.table.addPrev pkg.options.entries.length pkg.optionPrev)
      none (List.range (pkg.options.entries.length + 1)) := by
  have healthy := linked.healthy.healthy
  have back := linked.back
  unfold UtHash.addPrev
  cases size : pkg.options.entries.length with
  | zero =>
      have empty : pkg.options.table.head = none := by
        have order := healthy.order
        rw [size] at order
        cases first : pkg.options.table.head with
        | none => rfl
        | some a =>
            rw [first] at order
            cases order
      rw [empty]
      exact ⟨Function.update_self .., trivial⟩
  | succ count =>
      rw [size, List.range_succ] at back
      have last : count = pkg.options.table.tail := by
        refine healthy.last count ?_
        rw [size, List.range_succ]
        simp
      have nonempty : pkg.options.table.head ≠ none :=
        healthy.nonempty (List.mem_range.mpr (by omega : count < _))
      obtain ⟨first, isFirst⟩ := Option.ne_none_iff_exists'.mp nonempty
      rw [isFirst, Option.map_some, ← last, List.range_succ, List.range_succ]
      refine back.snoc ?_
      rw [← List.range_succ, List.mem_range]
      omega

/-- A call for an option that fits keeps the table in order. -/
theorem OptionsLinked.step {bucket : List Char → Nat} {developer : Bool}
    {before : List OptionCall} {call : OptionCall} (linked : OptionsLinked bucket before pkg)
    (fits : CallFits before call) {ran : Epkg} {after : PkgObject}
    (runs : pkg.addoption bucket developer call = some (ran, after)) :
    OptionsLinked bucket (before ++ [call]) after := by
  obtain ⟨options, run, healthy⟩ := linked.healthy.step fits
  have good := linked.healthy
  rw [addoption, run, Option.map_some] at runs
  have named : call.name ≠ [] ∧ call.text ≠ [] := ⟨fits.1, fits.2.1⟩
  rcases good.find call.name with ⟨absent, found⟩ | ⟨a, o, isEntry, isKey, found⟩
  · have inserted : call.inserted bucket pkg.options = some pkg.options.entries.length := by
      rw [OptionCall.inserted, found]
    rw [run_new named found] at run
    rw [inserted] at runs
    cases runs
    refine ⟨healthy, ?_⟩
    have longer : options.entries.length = pkg.options.entries.length + 1 := by
      rw [← Option.some.inj run, List.length_append, List.length_singleton]
    dsimp only
    rw [longer]
    exact linked.adds
  · -- The name was given before, so the call repeats one of its kind.
    obtain ⟨earlier, member, sameName, sameField⟩ : ∃ earlier ∈ before,
        earlier.name = call.name ∧ earlier.field = call.field := by
      refine fits.2.2.resolve_right fun first => ?_
      have given := (good.names call.name).mp
        (isKey ▸ List.mem_map_of_mem (List.mem_of_getElem? isEntry))
      obtain ⟨other, isOther, same⟩ := List.mem_map.mp given
      exact first.1 other isOther same
    have given : (o.get call.field).isSome = true := by
      rw [good.holds o (List.mem_of_getElem? isEntry), firstText, Option.isSome_map,
        List.find?_isSome]
      exact ⟨earlier, member, by simp [sameName, sameField, isKey]⟩
    have inserted : call.inserted bucket pkg.options = none := by
      rw [OptionCall.inserted, found]
      simp [isEntry, given]
    rw [run_found named found isEntry isKey, if_pos given] at run
    rw [inserted] at runs
    cases runs
    cases run
    exact ⟨healthy, linked.back⟩

/-- The table of the options with its backward links. -/
def optionTable (pkg : PkgObject) : PkgOptions × (Nat → Option Nat) :=
  (pkg.options, pkg.optionPrev)

theorem OptionsLinked.congr {bucket : List Char → Nat} {before : List OptionCall}
    {after : PkgObject} (linked : OptionsLinked bucket before pkg)
    (same : after.optionTable = pkg.optionTable) : OptionsLinked bucket before after := by
  obtain ⟨options, prev⟩ : after.options = pkg.options ∧ after.optionPrev = pkg.optionPrev := by
    simpa only [optionTable, Prod.mk.injEq] using same
  exact ⟨options ▸ linked.healthy, by rw [options, prev]; exact linked.back⟩

/-- All other calls leave the options alone. -/
theorem run_options {bucket : List Char → Nat} {developer : Bool} {call : PkgCall} {ran : Epkg}
    {after : PkgObject} (other : ∀ option, call ≠ .addoption option)
    (runs : call.run bucket developer pkg = some (ran, after)) :
    after.optionTable = pkg.optionTable := by
  cases call with
  | set attr value => exact set_keeps optionTable (fun _ => rfl) runs
  | addoption option => exact absurd rfl (other option)
  | addscript data type =>
      cases runs
      rfl
  | addscriptFile filename content =>
      simp only [PkgCall.run, addscriptFile] at runs
      split at runs
      all_goals
        cases runs
        rfl
  | appendscript cmd type =>
      simp only [PkgCall.run, appendscript] at runs
      split at runs
      · cases runs
      · split at runs
        all_goals
          cases runs
          rfl
  | loaded flag =>
      cases runs
      rfl
  | addannotationTag tag value =>
      simp only [PkgCall.run, addannotationTag] at runs
      refine addEntry_keeps optionTable ?_ runs
      rfl
  | _ =>
      refine addEntry_keeps optionTable ?_ runs
      rfl

theorem runPkgCalls_linked {bucket : List Char → Nat} {developer : Bool} {calls : List PkgCall}
    {type : PkgType} (fit : AllFit (optionCalls calls))
    (runs : runPkgCalls bucket developer calls (pkgNew type) = some pkg) :
    OptionsLinked bucket (optionCalls calls) pkg := by
  induction calls using List.reverseRecOn generalizing pkg with
  | nil =>
      cases runs
      exact ⟨optionsHealthy_nil bucket, trivial⟩
  | append_singleton calls call ih =>
      rw [runPkgCalls, List.foldlM_append, Option.bind_eq_bind, Option.bind_eq_some_iff] at runs
      obtain ⟨mid, front, last⟩ := runs
      simp only [List.foldlM_cons, List.foldlM_nil, Option.bind_eq_bind, Option.pure_def,
        Option.bind_fun_some] at last
      obtain ⟨⟨ran, after⟩, once, same⟩ := Option.map_eq_some_iff.mp last
      cases same
      rw [optionCalls, List.filterMap_append] at fit ⊢
      have linked := ih fit.front front
      by_cases isOption : ∃ option, call = .addoption option
      · obtain ⟨option, rfl⟩ := isOption
        exact linked.step (allFit_snoc.mp fit).2 once
      · have other : ∀ option, call ≠ .addoption option := not_exists.mp isOption
        have none : [call].filterMap (fun call =>
            match call with
            | .addoption call => some call
            | _ => none) = [] := by
          cases call with
          | addoption option => exact absurd rfl (other option)
          | _ => rfl
        rw [none, List.append_nil]
        exact linked.congr (run_options other once)

/-- Where every call for an option repeats one of its kind, or is the first under its name and
is inserted under it, the options are freed. -/
theorem freeOptions_of_fit {bucket : List Char → Nat} {developer : Bool} {calls : List PkgCall}
    {type : PkgType} (fit : AllFit (optionCalls calls))
    (runs : runPkgCalls bucket developer calls (pkgNew type) = some pkg) :
    pkg.freeOptions.isSome = true := (runPkgCalls_linked fit runs).freed

end PkgObject

open PkgObject in
/-- A package carries nothing over exactly if no conflict, no script and none of the flags that
stay was added, and the entries of its options can be freed one after the other. -/
theorem carriesNothing_iff {bucket : List Char → Nat} {developer : Bool} {calls : List PkgCall}
    {created : PkgType} {pkg : PkgObject}
    (reached : runPkgCalls bucket developer calls (pkgNew created) = some pkg) (type : PkgType) :
    CarriesNothing bucket developer pkg type ↔
      (∀ call ∈ calls, call.leavesNothing = true) ∧ pkg.freeOptions.isSome = true := by
  have clean : pkg.LeftClean ↔ ∀ call ∈ calls, call.leavesNothing = true := by
    rw [runPkgCalls_leaves reached, and_iff_right (leftClean_new created)]
  rw [← clean]
  constructor
  · rintro ⟨after, ran, same, _⟩
    rw [reset_eq] at ran
    obtain ⟨cells, freed, rfl⟩ := Option.map_eq_some_iff.mp ran
    have scripts := congrArg View.scripts same
    have flags := congrArg View.flags same
    refine ⟨⟨congrArg View.conflicts same, fun script => ?_, fun flag kept => ?_⟩, by simp [freed]⟩
    · exact Option.map_eq_none_iff.mp (congrFun scripts script)
    · have unset : (keptFlags.contains flag && pkg.flags flag) = false := congrFun flags flag
      rwa [List.contains_iff_mem.mpr kept, Bool.true_and] at unset
  · rintro ⟨left, freed⟩
    obtain ⟨cells, isFreed⟩ := Option.isSome_iff_exists.mp freed
    refine ⟨pkgNew type, ?_, rfl, fun _ => rfl⟩
    rw [left.reset_eq, isFreed, Option.map_some]

/-- A provided name is not carried over. -/
theorem provided_carriesNothing :
    CarriesNothing List.length false { pkgNew .file with provides := ["p"] } .remote := by
  have reached : runPkgCalls List.length false [.addprovide "p"] (pkgNew .file) =
      some { pkgNew .file with provides := ["p"] } := by
    simp [runPkgCalls, PkgCall.run, PkgObject.addprovide, PkgObject.addEntry, pkgNew]
  refine (carriesNothing_iff reached .remote).mpr ⟨fun call member => ?_, rfl⟩
  rw [List.mem_singleton.mp member]
  rfl

/-- A conflict of the package before is one of the next package. -/
theorem conflict_carriedOver :
    ¬∀ calls pkg, runPkgCalls List.length false calls (pkgNew .remote) = some pkg →
      CarriesNothing List.length false pkg .remote := by
  intro all
  have reached : runPkgCalls List.length false [.addconflict "b~ports/b"] (pkgNew .remote) =
      some { pkgNew .remote with conflicts := ["b~ports/b"] } := by
    simp [runPkgCalls, PkgCall.run, PkgObject.addconflict, PkgObject.addEntry, pkgNew]
  obtain ⟨after, ran, same, _⟩ := all _ _ reached
  rw [PkgObject.reset_eq] at ran
  obtain ⟨cells, _, rfl⟩ := Option.map_eq_some_iff.mp ran
  have left : ["b~ports/b"] = [] := congrArg PkgObject.View.conflicts same
  cases left

end Pkgng
