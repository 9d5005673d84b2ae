import Mathlib.Data.List.Nodup
import Pkgng.Manifest.Texts

/-!
# Emitting and parsing texts

What comes back of a package's texts.  Descriptions, scripts and paths are decoded as they
were encoded, but of a message the encoding stays.
-/

set_option autoImplicit false

namespace Pkgng

open Lib

/-- A text that is neither cut nor trimmed. -/
def SoundText (text : List Char) : Prop := ByteString text ∧ Trimmed text

/-- A path that fits into `char path[MAXPATHLEN]`. -/
def SoundPath (path : List Char) : Prop :=
  ByteString path ∧ path ≠ [] ∧ path.length ≤ 1023

/-- What the fields of a package hold. -/
structure ManifestTexts.Sound (pkg : ManifestTexts) : Prop where
  desc : ∀ text, pkg.desc = some text → SoundText text
  message : ∀ text, pkg.message = some text → SoundText text
  scripts : ∀ type text, pkg.scripts type = some text → SoundText text
  files : ∀ file ∈ pkg.files, SoundPath file.path
  dirs : ∀ dir ∈ pkg.dirs, SoundPath dir.path

theorem encodedText_eq {text : List Char} (sound : SoundText text) :
    encodedText text = .string (urlencode text) := by
  rw [encodedText, uclTrim_eq_self sound.2.urlencode]

theorem urldecode_text {text : List Char} (sound : SoundText text) :
    sbufData (urldecode (urlencode text)) = some text := by
  rw [urldecode_urlencode sound.1, sbufData, if_pos rfl, cstring_bytes sound.1]

/-! ## Files and directories -/

def fileOf (field : String × Ucl) : PkgFile where
  path := (urldecode field.1.toList).1
  sum := match field.2 with
    | .string text => if text.length = 64 then text else []
    | _ => []

def dirOf (field : String × Ucl) : PkgDir where
  path := (urldecode field.1.toList).1
  try_ := match field.2 with
    | .string text => text.head? = some 'y'
    | _ => false

/-- A string under an encoded path. -/
def PathField (field : String × Ucl) : Prop :=
  ∃ path text, SoundPath path ∧ field = (String.ofList (urlencode path), .string text)

section Objects

variable (toBoolean : Ucl → Bool)

theorem pkgObj_file (pkg : ManifestTexts) {field : String × Ucl} (isPath : PathField field) :
    pkgObj toBoolean .files pkg field =
      some { pkg with files := pkg.files ++ [fileOf field] } := by
  obtain ⟨path, text, ⟨bytes, nonempty, short⟩, rfl⟩ := isPath
  simp only [pkgObj, fileOf, String.toList_ofList, urldecode_urlencode bytes, cstring_bytes bytes,
    addFile, if_neg nonempty, List.take_of_length_le short]

theorem pkgObj_dir (pkg : ManifestTexts) {field : String × Ucl} (isPath : PathField field) :
    pkgObj toBoolean .directories pkg field =
      some { pkg with dirs := pkg.dirs ++ [dirOf field] } := by
  obtain ⟨path, text, ⟨bytes, nonempty, short⟩, rfl⟩ := isPath
  simp only [pkgObj, dirOf, String.toList_ofList, urldecode_urlencode bytes, sbufData,
    cstring_bytes bytes, if_true, Option.bind_some, addDir, if_neg nonempty,
    List.take_of_length_le short]

/-- A fold whose turns append to one list. -/
theorem foldlM_appends {σ β γ : Type} {step : σ → β → Option σ} (append : σ → List γ → σ)
    {item : β → γ} {fields : List β}
    (turn : ∀ s, ∀ field ∈ fields, step s field = some (append s [item field]))
    (append_nil : ∀ s, append s [] = s)
    (append_append : ∀ s front back, append (append s front) back = append s (front ++ back))
    (s : σ) : fields.foldlM step s = some (append s (fields.map item)) := by
  induction fields generalizing s with
  | nil => rw [List.foldlM_nil, List.map_nil, append_nil]; rfl
  | cons field rest ih =>
      rw [List.foldlM_cons, turn s field (List.mem_cons_self ..)]
      have later := ih (fun s other member => turn s other (List.mem_cons_of_mem _ member))
        (append s [item field])
      rw [append_append] at later
      exact later

theorem foldlM_files {fields : List (String × Ucl)} (paths : ∀ field ∈ fields, PathField field)
    (pkg : ManifestTexts) :
    fields.foldlM (pkgObj toBoolean .files) pkg =
      some { pkg with files := pkg.files ++ fields.map fileOf } := by
  apply foldlM_appends fun (pkg : ManifestTexts) files => { pkg with files := pkg.files ++ files }
  · intro pkg field member
    exact pkgObj_file toBoolean pkg (paths field member)
  · intro pkg
    rw [List.append_nil]
  · intro pkg front back
    rw [List.append_assoc]

theorem foldlM_dirs {fields : List (String × Ucl)} (paths : ∀ field ∈ fields, PathField field)
    (pkg : ManifestTexts) :
    fields.foldlM (pkgObj toBoolean .directories) pkg =
      some { pkg with dirs := pkg.dirs ++ fields.map dirOf } := by
  apply foldlM_appends fun (pkg : ManifestTexts) dirs => { pkg with dirs := pkg.dirs ++ dirs }
  · intro pkg field member
    exact pkgObj_dir toBoolean pkg (paths field member)
  · intro pkg
    rw [List.append_nil]
  · intro pkg front back
    rw [List.append_assoc]

/-! ## Scripts -/

theorem scriptTypeStr_name (type : PkgScript) : scriptTypeStr type.name = some type := by
  cases type <;> rfl

theorem name_injective : Function.Injective PkgScript.name := by
  intro type other same
  have types := congrArg scriptTypeStr same
  rw [scriptTypeStr_name, scriptTypeStr_name] at types
  exact Option.some.inj types

theorem pkgObj_script (pkg : ManifestTexts) (type : PkgScript) {data : List Char}
    (sound : SoundText data) :
    pkgObj toBoolean .scripts pkg (type.name, encodedText data) =
      some (addScript pkg data type) := by
  simp only [pkgObj, encodedText_eq sound, scriptTypeStr_name, urldecode_text sound,
    Option.map_some]

/-- The scripts of some types, and those that were there before. -/
def mergeScripts (types : List PkgScript) (new old : PkgScript → Option (List Char)) :
    PkgScript → Option (List Char) :=
  fun type => if type ∈ types then (new type).or (old type) else old type

theorem foldlM_scripts {scripts : PkgScript → Option (List Char)}
    (sound : ∀ type text, scripts type = some text → SoundText text) (types : List PkgScript)
    (nodup : types.Nodup) (pkg : ManifestTexts) :
    (emitScripts scripts types).foldlM (pkgObj toBoolean .scripts) pkg =
      some { pkg with scripts := mergeScripts types scripts pkg.scripts } := by
  induction types generalizing pkg with
  | nil =>
      have unchanged : mergeScripts [] scripts pkg.scripts = pkg.scripts :=
        funext fun _ => if_neg List.not_mem_nil
      rw [unchanged]
      rfl
  | cons type types ih =>
      rw [List.nodup_cons] at nodup
      rw [emitScripts, List.filterMap_cons]
      cases present : scripts type with
      | none =>
          refine (ih nodup.2 pkg).trans ?_
          congr 2
          funext other
          by_cases same : other = type
          · rw [same]
            simp [mergeScripts, present]
          · simp [mergeScripts, same]
      | some data =>
          dsimp only [Option.map_some]
          rw [List.foldlM_cons, pkgObj_script toBoolean pkg type (sound type data present)]
          refine (ih nodup.2 (addScript pkg data type)).trans ?_
          congr 2
          funext other
          by_cases same : other = type
          · rw [same]
            simp [mergeScripts, addScript, present, nodup.1]
          · simp [mergeScripts, addScript, same]

/-! ## One round -/

/-- A field that may be missing. -/
def parseOptional (pkg : ManifestTexts) (field : String × Option Ucl) : Option ManifestTexts :=
  match field.2.map fun value => (field.1, value) with
  | some present => parseField toBoolean pkg present
  | none => some pkg

theorem parseManifest_ofFields {fields : List (String × Option Ucl)}
    (nodup : (fields.map Prod.fst).Nodup) (pkg : ManifestTexts) :
    parseManifest toBoolean pkg (Ucl.ofFields fields) =
      fields.foldlM (parseOptional toBoolean) pkg := by
  have keys : ((fields.filterMap fun field => field.2.map fun value => (field.1, value)).map
      Prod.fst).Sublist (fields.map Prod.fst) := by
    induction fields with
    | nil => exact List.Sublist.slnil
    | cons field rest ih =>
        rw [List.map_cons, List.nodup_cons] at nodup
        have kept := ih nodup.2
        rw [List.filterMap_cons, List.map_cons]
        cases field.2 with
        | none => exact kept.cons _
        | some value => exact kept.cons_cons _
  rw [Ucl.ofFields, parseManifest, Ucl.heads_eq_self (keys.nodup nodup), List.foldlM_filterMap]
  congr 1
  funext pkg field
  obtain ⟨key, value⟩ := field
  cases value with
  | none => rfl
  | some value => rfl

theorem parse_desc (pkg : ManifestTexts) {desc : Option (List Char)}
    (sound : ∀ text, desc = some text → SoundText text) :
    parseOptional toBoolean pkg ("desc", desc.map encodedText) =
      some { pkg with desc := desc.or pkg.desc } := by
  cases desc with
  | none => rfl
  | some text =>
      have isText := sound text rfl
      simp [parseOptional, parseField, manifestKeys, encodedText_eq isText, Ucl.type, pkgString,
        urldecode_urlencode isText.1, cstring_bytes isText.1]

/-- What a message is after a round. -/
def sentMessage (message : Option (List Char)) : Option (List Char) :=
  message.bind fun text => if text = [] then none else some (urlencode text)

theorem parse_message (pkg : ManifestTexts) {message : Option (List Char)}
    (sound : ∀ text, message = some text → SoundText text) :
    parseOptional toBoolean pkg ("message", emitMessage message) =
      some { pkg with message := (sentMessage message).or pkg.message } := by
  cases message with
  | none => rfl
  | some text =>
      by_cases empty : text = []
      · simp [parseOptional, emitMessage, sentMessage, empty]
      · simp [parseOptional, emitMessage, sentMessage, empty, parseField, manifestKeys,
          encodedText_eq (sound text rfl), Ucl.type, pkgString]

theorem parse_map (pkg : ManifestTexts) {key : String} {attr : ManifestAttr}
    (known : (key, attr, UclType.object) ∈ manifestKeys) (fields : List (String × Ucl)) :
    parseOptional toBoolean pkg (key, mapOf fields) =
      (Ucl.heads fields).foldlM (pkgObj toBoolean attr) pkg := by
  have found : ∀ map, manifestKeys.find? (fun entry => entry.1 = key && entry.2.2 =
      (Ucl.object map).type) = some (key, attr, .object) := by
    intro map
    simp only [manifestKeys, List.mem_cons, Prod.mk.injEq, List.not_mem_nil] at known
    rcases known with known | known | known | known | known | known
    · cases known.2.2
    · obtain ⟨rfl, rfl, _⟩ := known
      rfl
    · obtain ⟨rfl, rfl, _⟩ := known
      rfl
    · cases known.2.2
    · obtain ⟨rfl, rfl, _⟩ := known
      rfl
    · cases known
  cases fields with
  | nil => rfl
  | cons field rest =>
      rw [mapOf, if_neg (List.cons_ne_nil _ _), parseOptional]
      dsimp only [Option.map_some]
      rw [parseField, found]

theorem pathField_file {file : PkgFile} (sound : SoundPath file.path) :
    PathField (emitFile file) := ⟨file.path, _, sound, rfl⟩

theorem pathField_dir {dir : PkgDir} (sound : SoundPath dir.path) : PathField (emitDir dir) :=
  ⟨dir.path, _, sound, rfl⟩

theorem mem_allScripts (type : PkgScript) : type ∈ allScripts := by
  cases type <;> decide

theorem heads_emitScripts (scripts : PkgScript → Option (List Char)) :
    Ucl.heads (emitScripts scripts allScripts) = emitScripts scripts allScripts := by
  have names : ∀ types : List PkgScript,
      ((emitScripts scripts types).map Prod.fst).Sublist (types.map PkgScript.name) := by
    intro types
    induction types with
    | nil => exact List.Sublist.slnil
    | cons type types ih =>
        rw [emitScripts, List.filterMap_cons]
        cases scripts type with
        | none => exact ih.cons _
        | some data => exact ih.cons_cons _
  have nodup : (allScripts.map PkgScript.name).Nodup := by
    have types : allScripts.Nodup := by decide
    exact List.Nodup.map name_injective types
  exact Ucl.heads_eq_self ((names allScripts).nodup nodup)

/-- The file and directory lists that are emitted. -/
def listed {α : Type} (flags : EmitFlags) (list : List α) : List α :=
  if !flags.compact && !flags.nofiles then list else []

theorem listed_subset {α : Type} {flags : EmitFlags} {list : List α} {x : α}
    (member : x ∈ listed flags list) : x ∈ list := by
  unfold listed at member
  split at member
  · exact member
  · cases member

theorem pathField_listed {α : Type} {flags : EmitFlags} {list : List α} {emit : α → String × Ucl}
    (paths : ∀ x ∈ list, PathField (emit x)) :
    ∀ field ∈ Ucl.heads ((listed flags list).map emit), PathField field := by
  intro field member
  obtain ⟨x, isListed, rfl⟩ := List.mem_map.mp ((Ucl.heads_sublist _).subset member)
  exact paths x (listed_subset isListed)

/-- The package that a round leaves. -/
def reparsed (flags : EmitFlags) (pkg : ManifestTexts) : ManifestTexts where
  desc := pkg.desc
  message := sentMessage pkg.message
  scripts := if flags.compact then fun _ => none else pkg.scripts
  files := (Ucl.heads ((listed flags pkg.files).map emitFile)).map fileOf
  dirs := (Ucl.heads ((listed flags pkg.dirs).map emitDir)).map dirOf

theorem mapOf_listed {α : Type} (flags : EmitFlags) (list : List α) (emit : α → String × Ucl) :
    (if !flags.compact && !flags.nofiles then mapOf (list.map emit) else none) =
      mapOf ((listed flags list).map emit) := by
  unfold listed
  split
  · rfl
  · rfl

theorem mergeScripts_all (scripts : PkgScript → Option (List Char)) :
    mergeScripts allScripts scripts (fun _ => none) = scripts := by
  funext type
  rw [mergeScripts, if_pos (mem_allScripts type), Option.or_none]

theorem reparse_eq (flags : EmitFlags) {pkg : ManifestTexts} (sound : pkg.Sound) :
    reparse toBoolean flags pkg = some (reparsed flags pkg) := by
  have files := @pathField_listed _ flags pkg.files emitFile
    fun file member => pathField_file (sound.files file member)
  have dirs := @pathField_listed _ flags pkg.dirs emitDir
    fun dir member => pathField_dir (sound.dirs dir member)
  have scripts : (if flags.compact then none else mapOf (emitScripts pkg.scripts allScripts)) =
      mapOf (emitScripts (if flags.compact then fun _ => none else pkg.scripts) allScripts) := by
    cases flags.compact with
    | false => rfl
    | true => rfl
  have soundScripts : ∀ type text,
      (if flags.compact then fun _ => none else pkg.scripts) type = some text → SoundText text := by
    intro type text present
    split at present
    · cases present
    · exact sound.scripts type text present
  have keys : ["desc", "files", "directories", "scripts", "message"].Nodup := by decide
  rw [reparse, emitObject, parseManifest_ofFields toBoolean (by exact keys)]
  simp only [mapOf_listed, scripts, List.foldlM_cons, List.foldlM_nil, Option.bind_eq_bind]
  rw [parse_desc toBoolean _ sound.desc, Option.bind_some,
    @parse_map toBoolean _ "files" .files (by decide), foldlM_files toBoolean files,
    Option.bind_some, @parse_map toBoolean _ "directories" .directories (by decide),
    foldlM_dirs toBoolean dirs, Option.bind_some,
    @parse_map toBoolean _ "scripts" .scripts (by decide), heads_emitScripts,
    foldlM_scripts toBoolean soundScripts _ (by decide), Option.bind_some,
    parse_message toBoolean _ sound.message]
  simp only [Option.or_none, mergeScripts_all, List.nil_append, reparsed]
  rfl

end Objects

/-! ## Any number of rounds -/

/-- The paths that come back are the paths that were emitted. -/
theorem mem_paths_heads {α : Type} {emit : α → String × Ucl} {parse : String × Ucl → α}
    {pathOf : α → List Char} (named : ∀ x, (emit x).1 = String.ofList (urlencode (pathOf x)))
    (read : ∀ field, pathOf (parse field) = (urldecode field.1.toList).1) {list : List α}
    (sound : ∀ x ∈ list, SoundPath (pathOf x)) (path : List Char) :
    path ∈ ((Ucl.heads (list.map emit)).map parse).map pathOf ↔ path ∈ list.map pathOf := by
  have byKey : ∀ fields : List (String × Ucl), path ∈ (fields.map parse).map pathOf ↔
      ∃ key ∈ fields.map Prod.fst, (urldecode key.toList).1 = path := by
    intro fields
    simp [read]
  rw [byKey]
  simp only [Ucl.mem_keys_heads]
  rw [← byKey, List.map_map, List.map_map, List.mem_map, List.mem_map]
  refine exists_congr fun x => and_congr_right fun member => ?_
  rw [Function.comp_apply, Function.comp_apply, read, named, String.toList_ofList,
    urldecode_urlencode (sound x member).1]

section Rounds

variable {flags : EmitFlags} {pkg : ManifestTexts}

theorem mem_files_reparsed (sound : pkg.Sound) (path : List Char) :
    path ∈ (reparsed flags pkg).files.map PkgFile.path ↔
      path ∈ (listed flags pkg.files).map PkgFile.path :=
  @mem_paths_heads _ emitFile fileOf PkgFile.path (fun _ => rfl) (fun _ => rfl) _
    (fun file member => sound.files file (listed_subset member)) path

theorem mem_dirs_reparsed (sound : pkg.Sound) (path : List Char) :
    path ∈ (reparsed flags pkg).dirs.map PkgDir.path ↔
      path ∈ (listed flags pkg.dirs).map PkgDir.path :=
  @mem_paths_heads _ emitDir dirOf PkgDir.path (fun _ => rfl) (fun _ => rfl) _
    (fun dir member => sound.dirs dir (listed_subset member)) path

theorem sentMessage_eq {message : Option (List Char)}
    (plain : ∀ text, message = some text → Unencoded text) :
    sentMessage message = if message = some [] then none else message := by
  cases message with
  | none => rfl
  | some text =>
      by_cases empty : text = []
      · simp [sentMessage, empty]
      · simp [sentMessage, empty, urlencode_eq_self_iff.mpr (plain text rfl)]

theorem reparsed_sound (sound : pkg.Sound)
    (plain : ∀ text, pkg.message = some text → Unencoded text) :
    (reparsed flags pkg).Sound where
  desc := sound.desc
  message text present := by
    rw [reparsed, sentMessage_eq plain] at present
    dsimp only at present
    split at present
    · cases present
    · exact sound.message text present
  scripts type text present := by
    dsimp only [reparsed] at present
    split at present
    · cases present
    · exact sound.scripts type text present
  files file member := by
    have found := (mem_files_reparsed sound file.path).mp (List.mem_map_of_mem member)
    obtain ⟨origin, isOrigin, same⟩ := List.mem_map.mp found
    rw [← same]
    exact sound.files origin (listed_subset isOrigin)
  dirs dir member := by
    have found := (mem_dirs_reparsed sound dir.path).mp (List.mem_map_of_mem member)
    obtain ⟨origin, isOrigin, same⟩ := List.mem_map.mp found
    rw [← same]
    exact sound.dirs origin (listed_subset isOrigin)

end Rounds

/-- Every text that is encoded in all the rounds is what it was before; an empty message is
not encoded. -/
structure Restored (rounds : List EmitFlags) (pkg out : ManifestTexts) : Prop where
  desc : out.desc = pkg.desc
  message : pkg.message ≠ some [] → out.message = pkg.message
  scripts : (∀ flags ∈ rounds, flags.compact = false) → out.scripts = pkg.scripts
  files : (∀ flags ∈ rounds, flags.compact = false ∧ flags.nofiles = false) →
    ∀ path, path ∈ out.files.map PkgFile.path ↔ path ∈ pkg.files.map PkgFile.path
  dirs : (∀ flags ∈ rounds, flags.compact = false ∧ flags.nofiles = false) →
    ∀ path, path ∈ out.dirs.map PkgDir.path ↔ path ∈ pkg.dirs.map PkgDir.path

/-- Decoding undoes encoding, and the encoded texts survive any number of rounds. -/
def TextsSurvive (toBoolean : Ucl → Bool) (pkg : ManifestTexts) : Prop :=
  (∀ s, ByteString s → urldecode (urlencode s) = (s, true)) ∧
    ∀ rounds, ∃ out, reparseAll toBoolean rounds pkg = some out ∧ Restored rounds pkg out

theorem reparseAll_restored (toBoolean : Ucl → Bool) (rounds : List EmitFlags)
    {pkg : ManifestTexts} (sound : pkg.Sound)
    (plain : ∀ text, pkg.message = some text → Unencoded text) :
    ∃ out, reparseAll toBoolean rounds pkg = some out ∧ Restored rounds pkg out := by
  induction rounds generalizing pkg with
  | nil =>
      exact ⟨pkg, rfl, ⟨rfl, fun _ => rfl, fun _ => rfl, fun _ _ => Iff.rfl, fun _ _ => Iff.rfl⟩⟩
  | cons flags rounds ih =>
      have message : (reparsed flags pkg).message =
          if pkg.message = some [] then none else pkg.message := sentMessage_eq plain
      have plainAfter : ∀ text, (reparsed flags pkg).message = some text → Unencoded text := by
        intro text present
        rw [message] at present
        split at present
        · cases present
        · exact plain text present
      obtain ⟨out, runs, restored⟩ := ih (reparsed_sound sound plain) plainAfter
      refine ⟨out, ?_, ?_⟩
      · rw [reparseAll, List.foldlM_cons, reparse_eq toBoolean flags sound]
        exact runs
      · constructor
        · exact restored.desc
        · intro nonempty
          rw [if_neg nonempty] at message
          rw [← message]
          exact restored.message (message ▸ nonempty)
        · intro full
          have first := full flags (List.mem_cons_self ..)
          rw [restored.scripts fun other member => full other (List.mem_cons_of_mem _ member)]
          simp [reparsed, first]
        · intro full path
          obtain ⟨first, second⟩ := full flags (List.mem_cons_self ..)
          rw [restored.files (fun other member => full other (List.mem_cons_of_mem _ member)),
            mem_files_reparsed sound, listed, first, second]
          rfl
        · intro full path
          obtain ⟨first, second⟩ := full flags (List.mem_cons_self ..)
          rw [restored.dirs (fun other member => full other (List.mem_cons_of_mem _ member)),
            mem_dirs_reparsed sound, listed, first, second]
          rfl

/-- A package whose message is `100%`. -/
def percentMessage : ManifestTexts where
  message := some ['1', '0', '0', '%']

end Pkgng
