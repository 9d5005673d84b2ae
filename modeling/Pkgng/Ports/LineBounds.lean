import Pkgng.Ports.Keywords

/-!
# Bounds of the lines

A blank line is trimmed past its start, an empty prefix has no last character, and a name is split
at a hyphen that it may not have.  `ports_parse_plist` stays within its lines and its prefix
exactly in the runs that meet none of these.
-/

set_option autoImplicit false

namespace Pkgng

open Lib

/-- A byte in front of the line or of the prefix, or the result of a failed search. -/
def PlistFault.OutOfBounds (fault : PlistFault) : Prop :=
  fault = .beforeLine ∨ fault = .beforePrefix ∨ fault = .failedSearch

def Performed.InBounds : Performed → Prop
  | .returned _ _ => True
  | .fault cause _ => ¬cause.OutOfBounds

/-- The state in which an action returns. -/
def Performed.Leaves (r : Performed) (P : Work → Prop) : Prop :=
  ∀ code w, r = .returned code w → P w

/-- The call reads and writes nothing in front of a line or of the prefix, and uses no result of a
failed search. -/
def PlistInBounds (env : PortsEnv) (pkg : PkgObject) (plist : List Char)
    (stage : Option (List Char)) : Prop :=
  ∀ fault, portsParsePlist env pkg (some plist) stage = .error fault → ¬fault.OutOfBounds

/-! ## Which lines are safe -/

/-- An action that looks for a hyphen has one to find. -/
def HyphenFound (act : PlistAction) (w : Work) : Prop :=
  match act with
  | .nameKey => (w.plist.pkg.text .name).getD [] ≠ [] ∨ '-' ∈ w.line.text
  | .commentKey =>
      "DEPORIGIN:".toList.isPrefixOf w.line.text = true →
        ∀ name, w.plist.pkgdep = some name → '-' ∈ name
  | _ => True

section Safe

variable (env : PortsEnv)

/-- Each action of a definition, in the state in which it is performed. -/
def ActionsSafe : List PlistAction → Work → Option FileAttr → Prop
  | [], _, _ => True
  | act :: rest, w, a =>
      HyphenFound act w ∧ (act.perform env w a).Leaves fun w => ActionsSafe rest w a

/-- The action of a keyword of the table, or those of a keyword that is defined in a file. -/
def DispatchSafe (key : List Char) (w : Work) (a : Option FileAttr) : Prop :=
  key ≠ [] →
    match keyacts.find? fun entry => entry.1.toList = key with
    | some entry => HyphenFound entry.2 w
    | none => ∀ d names, env.keywordFile key = .definition d → d.actions = some names →
        (runScriptBlocks d.scripts w.line.text scriptBlocks w).Leaves fun w =>
          ActionsSafe env (namedActions names) w (attributesOf env d a)

def KeywordSafe (keyword : List Char) (w : Work) : Prop :=
  ∀ key a, keywordAttributes env keyword = .ok (key, a) → DispatchSafe env key w a

/-- A line that is neither ignored nor empty has a safe keyword, or is not blank. -/
def LineSafe (p : Plist) (line : List Char) : Prop :=
  p.ignoreNext = false → lineText line ≠ [] →
    if (lineText line).head? = some '@' then
      KeywordSafe env (keywordLine (lineText line).tail).1
        ⟨p, (keywordLine (lineText line).tail).2, []⟩
    else ∃ c ∈ lineText line, isspace c = false

/-- Each line, in the state in which it is parsed. -/
def LinesSafe : List (List Char) → Plist → Prop
  | [], _ => True
  | line :: rest, p =>
      LineSafe env p line ∧ ∀ p' code, parseLine env p line = .ok (p', code) → LinesSafe rest p'

end Safe

/-! ## Trimming -/

theorem blankBelow_isSome_iff (bytes : List Char) :
    (∃ written, blankBelow bytes = some written) ↔ ∃ c ∈ bytes, isspace c = false := by
  induction bytes with
  | nil => simp [blankBelow]
  | cons c below ih =>
      rw [blankBelow, List.exists_mem_cons_iff]
      by_cases blank : isspace c = true
      · rw [if_pos blank, blank, or_iff_right (by simp), ← ih]
        simp only [Option.map_eq_some_iff]
        exact ⟨fun ⟨_, written, found, _⟩ => ⟨written, found⟩,
          fun ⟨written, found⟩ => ⟨_, written, found, rfl⟩⟩
      · rw [if_neg blank]
        exact iff_of_true ⟨_, rfl⟩ (.inl (Bool.not_eq_true _ ▸ blank))

/-- A byte that is not blank stays so, as do the zeros. -/
theorem blankBelow_drop {bytes written : List Char} (found : blankBelow bytes = some written)
    (n : Nat) (solid : ∃ c ∈ bytes.drop n, isspace c = false) :
    ∃ c ∈ written.drop n, isspace c = false := by
  induction bytes generalizing written n with
  | nil => cases found
  | cons c below ih =>
      rw [blankBelow] at found
      split at found
      · obtain ⟨written, later, rfl⟩ := Option.map_eq_some_iff.mp found
        cases n with
        | zero => exact ⟨'\x00', List.mem_cons_self, by decide⟩
        | succ n => exact ih later n solid
      · cases found
        exact solid

theorem trimLine_none_iff (line : LineMem) :
    trimLine line = none ↔ ¬∃ c ∈ line.text ++ line.before, isspace c = false := by
  have found := blankBelow_isSome_iff (line.text.reverse ++ line.before)
  simp only [List.mem_append, List.mem_reverse] at found
  unfold trimLine
  rw [Option.map_eq_none_iff, Option.eq_none_iff_forall_ne_some]
  simp only [List.mem_append, ← found, not_exists]

/-- Trimming leaves a byte in front of the line that is not blank. -/
theorem trimLine_before {line trimmed : LineMem} (trims : trimLine line = some trimmed)
    (solid : ∃ c ∈ line.before, isspace c = false) :
    ∃ c ∈ trimmed.before, isspace c = false := by
  obtain ⟨bytes, found, rfl⟩ := Option.map_eq_some_iff.mp trims
  refine blankBelow_drop found line.text.length ?_
  have behind : (line.text.reverse ++ line.before).drop line.text.length = line.before := by
    rw [← List.length_reverse, List.drop_left]
  rw [behind]
  exact solid

/-! ## The fields of a package -/

namespace PkgObject

variable {developer : Bool} {pkg pkg' : PkgObject} {code : Epkg}

theorem addEntry_fields {asserted taken : Bool} {added : PkgObject} {c : Epkg}
    (same : added.fields = pkg.fields)
    (runs : addEntry pkg asserted taken c added = some (code, pkg')) :
    pkg'.fields = pkg.fields := by
  unfold addEntry at runs
  split at runs
  · cases runs
  · split at runs
    · cases runs
      rfl
    · cases runs
      exact same

theorem adddir_fields {path : String} {uname gname : Option String} {perm : Nat} {try_ dup : Bool}
    (runs : adddir developer pkg path uname gname perm try_ dup = some (code, pkg')) :
    pkg'.fields = pkg.fields :=
  addEntry_fields (by rfl) runs

theorem addfile_fields {path : String} {sum uname gname : Option String} {perm : Nat} {dup : Bool}
    (runs : addfile developer pkg path sum uname gname perm dup = some (code, pkg')) :
    pkg'.fields = pkg.fields :=
  addEntry_fields (by rfl) runs

theorem adddep_fields {name origin version : String} {locked : Bool}
    (runs : adddep developer pkg name origin version locked = some (code, pkg')) :
    pkg'.fields = pkg.fields :=
  addEntry_fields (by rfl) runs

theorem addoption_fields {bucket : List Char → Nat} {call : OptionCall}
    (runs : pkg.addoption bucket developer call = some (code, pkg')) :
    pkg'.fields = pkg.fields := by
  obtain ⟨options, _, same⟩ := Option.map_eq_some_iff.mp runs
  split at same <;> cases same <;> rfl

theorem text_eq_of_fields {attr : PkgAttr} (same : pkg'.fields = pkg.fields) :
    pkg'.text attr = pkg.text attr := by
  unfold text
  rw [same]

theorem text_setText (attr : PkgAttr) (value : List Char) :
    (pkg.setText attr value).text attr = some value := by
  simp [text, setText, setField]

theorem text_setText_of_ne {attr other : PkgAttr} (differ : other ≠ attr) (value : List Char) :
    (pkg.setText attr value).text other = pkg.text other := by
  simp [text, setText, setField, Function.update_of_ne differ]

end PkgObject

theorem addOptions_fields {env : PortsEnv} {options : List (List Char)} {pkg pkg' : PkgObject}
    (runs : addOptions env options pkg = some pkg') : pkg'.fields = pkg.fields := by
  induction options generalizing pkg with
  | nil =>
      cases runs
      rfl
  | cons option rest ih =>
      rw [addOptions] at runs
      split at runs
      · split at runs
        · cases runs
        · next added =>
            exact (ih runs).trans (PkgObject.addoption_fields added)
      · exact ih runs

/-! ## What an action keeps -/

/-- A line of a keyword, whose `@` is in front of it, and a prefix that is not empty. -/
structure Held (w : Work) : Prop where
  solid : ∃ c ∈ w.line.before, isspace c = false
  prefixSet : w.plist.pkg.text .installPath ≠ some []

/-- What the bounds depend on is the same. -/
structure SameBounds (w w' : Work) : Prop where
  line : w'.line = w.line
  fields : w'.plist.pkg.fields = w.plist.pkg.fields

theorem Held.of_same {w w' : Work} (held : Held w) (before : w'.line.before = w.line.before)
    (fields : w'.plist.pkg.fields = w.plist.pkg.fields) : Held w' := by
  refine ⟨?_, ?_⟩
  · rw [before]
    exact held.solid
  · rw [PkgObject.text_eq_of_fields fields]
    exact held.prefixSet

/-- The line has been trimmed, and nothing else has changed. -/
def TrimmedTo (w w' : Work) : Prop :=
  ∃ line, trimLine w.line = some line ∧ SameBounds { w with line := line } w'

theorem TrimmedTo.held {w w' : Work} (trimmed : TrimmedTo w w') (held : Held w) : Held w' := by
  obtain ⟨line, trims, same⟩ := trimmed
  have solid : Held { w with line := line } :=
    ⟨trimLine_before trims held.solid, held.prefixSet⟩
  exact solid.of_same (congrArg LineMem.before same.line) same.fields

theorem TrimmedTo.fields {w w' : Work} (trimmed : TrimmedTo w w') :
    w'.plist.pkg.fields = w.plist.pkg.fields := by
  obtain ⟨_, _, same⟩ := trimmed
  exact same.fields

section Attr

variable (w : Work) (a : Option FileAttr)

@[simp] theorem freeAttr_plist : (w.freeAttr a).plist = w.plist := by cases a <;> rfl

@[simp] theorem freeAttr_line : (w.freeAttr a).line = w.line := by cases a <;> rfl

@[simp] theorem useAttr_plist : (w.useAttr a).plist = w.plist := by cases a <;> rfl

@[simp] theorem useAttr_line : (w.useAttr a).line = w.line := by cases a <;> rfl

end Attr

section Actions

variable {env : PortsEnv} {w : Work} {a : Option FileAttr}

theorem returned_leaves {P : Work → Prop} {code : PlistCode} (holds : P w) :
    (Performed.returned code w).Leaves P := by
  rintro _ _ ⟨⟩
  exact holds

theorem fault_leaves {P : Work → Prop} (cause : PlistFault) :
    (Performed.fault cause w).Leaves P := by
  rintro _ _ ⟨⟩

theorem added_inBounds (r : Option (Epkg × PkgObject)) : (w.added a r).InBounds := by
  cases r with
  | none => simp [Work.added, Performed.InBounds, PlistFault.OutOfBounds]
  | some r => trivial

theorem Performed.Leaves.mono {P Q : Work → Prop} {r : Performed} (leaves : r.Leaves P)
    (weaker : ∀ w, P w → Q w) : r.Leaves Q :=
  fun code w returned => weaker w (leaves code w returned)

theorem added_same {r : Option (Epkg × PkgObject)}
    (fields : ∀ code pkg, r = some (code, pkg) → pkg.fields = w.plist.pkg.fields) :
    (w.added a r).Leaves (SameBounds w) := by
  cases r with
  | none => exact fault_leaves _
  | some r =>
      refine returned_leaves ⟨?_, ?_⟩
      · rw [freeAttr_line]
      · rw [freeAttr_plist]
        exact fields r.1 r.2 rfl

theorem metaDirrm_inBounds_iff (try_ : Bool) : (metaDirrm env try_ w a).InBounds ↔
    ∃ c ∈ w.line.text ++ w.line.before, isspace c = false := by
  unfold metaDirrm
  cases trims : trimLine w.line with
  | none =>
      refine iff_of_false ?_ ((trimLine_none_iff _).mp trims)
      simp [Performed.InBounds, PlistFault.OutOfBounds]
  | some line =>
      refine iff_of_true ?_ ?_
      · dsimp only
        split
        · trivial
        · exact added_inBounds _
      · by_contra blank
        rw [(trimLine_none_iff _).mpr blank] at trims
        cases trims

theorem metaDirrm_trimmed (try_ : Bool) : (metaDirrm env try_ w a).Leaves (TrimmedTo w) := by
  unfold metaDirrm
  cases trims : trimLine w.line with
  | none => exact fault_leaves _
  | some line =>
      dsimp only
      split
      · exact returned_leaves ⟨line, trims, by rw [freeAttr_line], by rw [freeAttr_plist]⟩
      · refine (added_same ?_).mono fun w' same => ⟨line, trims, ?_, ?_⟩
        · intro code pkg runs
          rw [useAttr_plist]
          exact PkgObject.adddir_fields runs
        · rw [same.line, useAttr_line]
        · rw [same.fields, useAttr_plist]

theorem addEntryFor_inBounds (path : List Char) (kind : PathKind) (sum : Option String) :
    (addEntryFor env path kind sum w a).InBounds := by
  unfold addEntryFor
  dsimp only
  split <;> exact added_inBounds _

theorem addEntryFor_same (path : List Char) (kind : PathKind) (sum : Option String) :
    (addEntryFor env path kind sum w a).Leaves (SameBounds w) := by
  have used (w' : Work) (same : SameBounds (w.useAttr a) w') : SameBounds w w' := by
    refine ⟨?_, ?_⟩
    · rw [same.line, useAttr_line]
    · rw [same.fields, useAttr_plist]
  unfold addEntryFor
  dsimp only
  split
  · refine (added_same ?_).mono used
    intro code pkg runs
    rw [useAttr_plist]
    exact PkgObject.adddir_fields runs
  · refine (added_same ?_).mono used
    intro code pkg runs
    rw [useAttr_plist]
    exact PkgObject.addfile_fields runs

theorem addRegular_inBounds (path testpath : List Char) (st : PathStat) :
    (addRegular env path testpath st w a).InBounds := by
  unfold addRegular
  generalize (if 1 < st.nlink then w.plist.checkForHardlink st.ino else (false, w.plist)) = met
  dsimp only
  split <;> exact addEntryFor_inBounds _ _ _

theorem checkForHardlink_pkg (p : Plist) (ino : Nat) : (p.checkForHardlink ino).2.pkg = p.pkg := by
  unfold Plist.checkForHardlink
  split <;> rfl

theorem addRegular_same (path testpath : List Char) (st : PathStat) :
    (addRegular env path testpath st w a).Leaves (SameBounds w) := by
  have same : (if 1 < st.nlink then w.plist.checkForHardlink st.ino else (false, w.plist)).2.pkg =
      w.plist.pkg := by
    split
    · exact checkForHardlink_pkg w.plist st.ino
    · rfl
  unfold addRegular
  generalize (if 1 < st.nlink then w.plist.checkForHardlink st.ino else (false, w.plist)) = met
    at same ⊢
  have met_same (w' : Work) (counted : Int) (after : SameBounds
      { w with plist := { met.2 with flatsize := counted } } w') : SameBounds w w' :=
    ⟨after.line, after.fields.trans (congrArg PkgObject.fields same)⟩
  dsimp only
  split
  · exact (addEntryFor_same _ _ _).mono fun w' after => met_same w' met.2.flatsize after
  · exact (addEntryFor_same _ _ _).mono fun w' after => met_same w' _ after

theorem file_inBounds_iff : (file env w a).InBounds ↔
    ∃ c ∈ w.line.text ++ w.line.before, isspace c = false := by
  unfold file
  cases trims : trimLine w.line with
  | none =>
      refine iff_of_false ?_ ((trimLine_none_iff _).mp trims)
      simp [Performed.InBounds, PlistFault.OutOfBounds]
  | some line =>
      refine iff_of_true ?_ ?_
      · dsimp only
        split
        · trivial
        · split
          · exact addRegular_inBounds _ _ _
          · split
            · trivial
            · exact addEntryFor_inBounds _ _ _
          · exact addEntryFor_inBounds _ _ _
      · by_contra blank
        rw [(trimLine_none_iff _).mpr blank] at trims
        cases trims

theorem file_trimmed : (file env w a).Leaves (TrimmedTo w) := by
  unfold file
  cases trims : trimLine w.line with
  | none => exact fault_leaves _
  | some line =>
      have same_trimmed (w' : Work) (same : SameBounds { w with line := line } w') :
          TrimmedTo w w' := ⟨line, trims, same⟩
      dsimp only
      split
      · exact returned_leaves ⟨line, trims, by rw [freeAttr_line], by rw [freeAttr_plist]⟩
      · split
        · exact (addRegular_same _ _ _).mono same_trimmed
        · split
          · exact returned_leaves ⟨line, trims, rfl, rfl⟩
          · exact (addEntryFor_same _ _ _).mono same_trimmed
        · exact (addEntryFor_same _ _ _).mono same_trimmed

theorem newPrefix_ne_nil (prefixSet : w.plist.pkg.text .installPath ≠ some [])
    {newPrefix : List Char} (chosen : w.newPrefix = some newPrefix) : newPrefix ≠ [] := by
  rintro rfl
  unfold Work.newPrefix at chosen
  split at chosen
  · exact prefixSet chosen
  · next named => exact named (Option.some.inj chosen)

theorem setPrefix_inBounds (prefixSet : w.plist.pkg.text .installPath ≠ some []) :
    (setPrefix w a).InBounds := by
  unfold setPrefix
  cases chosen : w.newPrefix with
  | none => simp [Performed.InBounds, PlistFault.OutOfBounds]
  | some newPrefix =>
      have nonempty := newPrefix_ne_nil prefixSet chosen
      dsimp only
      split
      · next empty =>
          refine absurd (List.getLast?_eq_none_iff.mp empty) ?_
          simp [Plist.withPrefix, maxPathLen, nonempty]
      · trivial

theorem setPrefix_leaves (held : Held w) : (setPrefix w a).Leaves Held := by
  unfold setPrefix
  cases chosen : w.newPrefix with
  | none => exact fault_leaves _
  | some newPrefix =>
      dsimp only
      split
      · exact fault_leaves _
      · refine returned_leaves ⟨?_, ?_⟩
        · rw [freeAttr_line]
          exact held.solid
        · rw [freeAttr_plist]
          change (w.plist.withPrefix newPrefix w.line.text).pkg.text .installPath ≠ some []
          unfold Plist.withPrefix
          dsimp only
          split
          · next unset =>
              rw [PkgObject.text_setText]
              intro empty
              have noLine : w.line.text = [] := Option.some.inj empty
              rw [Work.newPrefix, if_pos noLine] at chosen
              rw [chosen, Option.getD_some] at unset
              exact newPrefix_ne_nil held.prefixSet (by rw [Work.newPrefix, if_pos noLine, chosen])
                unset
          · exact held.prefixSet

theorem nameKey_inBounds_iff :
    (nameKey w a).InBounds ↔ HyphenFound .nameKey w := by
  unfold nameKey HyphenFound
  split
  · next named => exact iff_of_true trivial (.inl named)
  · next unnamed =>
      rw [or_iff_right unnamed]
      dsimp only
      split
      · next absent =>
          refine iff_of_false ?_ ((strrchr_eq_none_iff _ _).mp absent)
          simp [Performed.InBounds, PlistFault.OutOfBounds]
      · next found =>
          refine iff_of_true trivial ?_
          by_contra absent
          rw [strrchr_none absent] at found
          cases found

theorem nameKey_leaves (held : Held w) : (nameKey w a).Leaves Held := by
  unfold nameKey
  split
  · exact returned_leaves (held.of_same (by rw [freeAttr_line]) (by rw [freeAttr_plist]))
  · dsimp only
    split
    · exact fault_leaves _
    · refine returned_leaves ⟨?_, ?_⟩
      · rw [freeAttr_line]
        exact held.solid
      · rw [freeAttr_plist]
        dsimp only
        rw [PkgObject.text_setText_of_ne (by decide), PkgObject.text_setText_of_ne (by decide)]
        exact held.prefixSet

theorem commentKey_inBounds_iff :
    (commentKey env w a).InBounds ↔ HyphenFound .commentKey w := by
  unfold commentKey HyphenFound
  dsimp only
  split
  · next isOrigin =>
      simp only [isOrigin, forall_const]
      cases w.plist.pkgdep with
      | none => exact iff_of_true trivial (by simp)
      | some name =>
          dsimp only
          split
          · next absent =>
              refine iff_of_false ?_ fun found =>
                (strrchr_eq_none_iff _ _).mp absent (found name rfl)
              simp [Performed.InBounds, PlistFault.OutOfBounds]
          · next found =>
              refine iff_of_true ?_ ?_
              · split
                · simp [Performed.InBounds, PlistFault.OutOfBounds]
                · trivial
              · rintro _ ⟨⟩
                by_contra absent
                rw [strrchr_none absent] at found
                cases found
  · next other =>
      refine iff_of_true ?_ fun isOrigin => absurd isOrigin other
      split
      · trivial
      · split
        · split
          · simp [Performed.InBounds, PlistFault.OutOfBounds]
          · trivial
        · trivial

theorem commentKey_leaves (held : Held w) : (commentKey env w a).Leaves Held := by
  have freed : Held (w.freeAttr a) := held.of_same (by rw [freeAttr_line]) (by rw [freeAttr_plist])
  unfold commentKey
  dsimp only
  split
  · split
    · exact returned_leaves freed
    · split
      · exact fault_leaves _
      · split
        · exact fault_leaves _
        · next added =>
            refine returned_leaves (held.of_same (by rw [freeAttr_line]) ?_)
            rw [freeAttr_plist]
            exact PkgObject.adddep_fields added
  · split
    · refine returned_leaves ⟨?_, ?_⟩
      · rw [freeAttr_line]
        exact held.solid
      · rw [freeAttr_plist]
        dsimp only
        rw [PkgObject.text_setText_of_ne (by decide)]
        exact held.prefixSet
    · split
      · split
        · exact fault_leaves _
        · next added =>
            refine returned_leaves (held.of_same (by rw [freeAttr_line]) ?_)
            rw [freeAttr_plist]
            exact addOptions_fields added
      · exact returned_leaves freed

/-! ## Commands -/

theorem regexec_head {lead : List Char} {inside : Char → Bool} {buf path rest : List Char}
    (found : regexec lead inside buf = some (path, rest)) : path.head? = some '/' := by
  induction buf with
  | nil => cases found
  | cons c buf ih =>
      rw [regexec] at found
      split at found
      · cases found
        rfl
      · exact ih found

theorem matchedPaths_head {lead : List Char} {inside : Char → Bool} {n : Nat} {buf : List Char} :
    ∀ path ∈ matchedPaths lead inside n buf, path.head? = some '/' := by
  induction n generalizing buf with
  | zero => exact fun _ member => absurd member List.not_mem_nil
  | succ n ih =>
      rw [matchedPaths]
      split
      · exact fun _ member => absurd member List.not_mem_nil
      · next found => exact List.forall_mem_cons.mpr ⟨regexec_head found, ih⟩

/-- Every path of a command starts with a slash, where trimming stops. -/
theorem rmdirPaths_head (cmd : List Char) : ∀ path ∈ rmdirPaths cmd, path.head? = some '/' := by
  unfold rmdirPaths
  dsimp only
  split <;> exact matchedPaths_head

theorem dirrmPaths_spec {paths : List (List Char)} (slashes : ∀ path ∈ paths, path.head? = some '/')
    (held : Held w) :
    (dirrmPaths env paths w a).1.InBounds ∧ (dirrmPaths env paths w a).1.Leaves Held := by
  induction paths generalizing w a with
  | nil => exact ⟨trivial, returned_leaves held⟩
  | cons path rest ih =>
      obtain ⟨slash, later⟩ := List.forall_mem_cons.mp slashes
      rw [dirrmPaths]
      split
      · exact ⟨by simp [Performed.InBounds, PlistFault.OutOfBounds], fault_leaves _⟩
      · split
        · exact ih later held
        · have within := (@metaDirrm_inBounds_iff env { w with line := ⟨[], path⟩ } a true).mpr
            ⟨'/', by simpa using List.mem_of_mem_head? slash, by decide⟩
          have trimmed := @metaDirrm_trimmed env { w with line := ⟨[], path⟩ } a true
          cases performed : metaDirrm env true { w with line := ⟨[], path⟩ } a with
          | fault cause w' =>
              rw [performed] at within
              exact ⟨within, fault_leaves _⟩
          | returned code w' =>
              exact ih later (held.of_same rfl (trimmed code w' performed).fields)

theorem metaExec_inBounds (unexec : Bool) (held : Held w) :
    (metaExec env unexec w a).InBounds ∧ (metaExec env unexec w a).Leaves Held := by
  have appended (s : ScriptSection) (text : List Char) :
      (Performed.returned .ok ({ w with plist := w.plist.append s text }.freeAttr a)).Leaves Held :=
    returned_leaves (held.of_same (by rw [freeAttr_line]) (by rw [freeAttr_plist]; rfl))
  unfold metaExec
  dsimp only
  split
  · exact ⟨by simp [Performed.InBounds, PlistFault.OutOfBounds], fault_leaves _⟩
  · exact ⟨by simp [Performed.InBounds, PlistFault.OutOfBounds], fault_leaves _⟩
  · exact ⟨trivial, returned_leaves held⟩
  · split
    · exact ⟨trivial, appended _ _⟩
    · split
      · exact ⟨trivial, appended _ _⟩
      · next cmd _ _ _ =>
          have fields : (if shouldBePost env cmd = true then w.plist
              else w.plist.append .preDeinstall ('#' :: cmd ++ ['\n'])).pkg.fields =
              w.plist.pkg.fields := by
            split <;> rfl
          generalize (if shouldBePost env cmd = true then w.plist
            else w.plist.append .preDeinstall ('#' :: cmd ++ ['\n'])) = p at fields ⊢
          obtain ⟨within, leaves⟩ := @dirrmPaths_spec env { w with plist := p } a
            (rmdirPaths cmd) (rmdirPaths_head cmd) (held.of_same rfl fields)
          split
          · next performed =>
              rw [performed] at within
              exact ⟨within, fault_leaves _⟩
          · next code w' left performed =>
              rw [performed] at leaves
              exact ⟨trivial, returned_leaves ((leaves code w' rfl).of_same (by rw [freeAttr_line])
                (by rw [freeAttr_plist]))⟩

/-! ## One action -/

theorem perform_inBounds_iff (act : PlistAction) (held : Held w) :
    (act.perform env w a).InBounds ↔ HyphenFound act w := by
  have solid : ∃ c ∈ w.line.text ++ w.line.before, isspace c = false := by
    obtain ⟨c, member, solid⟩ := held.solid
    exact ⟨c, List.mem_append_right _ member, solid⟩
  cases act with
  | setPrefix => exact iff_of_true (setPrefix_inBounds held.prefixSet) trivial
  | dirrm => exact iff_of_true ((metaDirrm_inBounds_iff false).mpr solid) trivial
  | dirrmtry => exact iff_of_true ((metaDirrm_inBounds_iff true).mpr solid) trivial
  | file => exact iff_of_true (file_inBounds_iff.mpr solid) trivial
  | setmod =>
      refine iff_of_true ?_ trivial
      simp only [PlistAction.perform, setmod]
      split
      · trivial
      · split <;> trivial
  | setowner => exact iff_of_true trivial trivial
  | setgroup => exact iff_of_true trivial trivial
  | commentKey => exact commentKey_inBounds_iff
  | ignoreNext => exact iff_of_true trivial trivial
  | exec => exact iff_of_true (metaExec_inBounds false held).1 trivial
  | unexec => exact iff_of_true (metaExec_inBounds true held).1 trivial
  | nameKey => exact nameKey_inBounds_iff
  | pkgdep =>
      refine iff_of_true ?_ trivial
      simp only [PlistAction.perform, pkgdep]
      split <;> trivial

theorem perform_leaves (act : PlistAction) (held : Held w) :
    (act.perform env w a).Leaves Held := by
  have plain (p : Plist) (same : p.pkg = w.plist.pkg) (code : PlistCode) :
      (Performed.returned code ({ w with plist := p }.freeAttr a)).Leaves Held :=
    returned_leaves (held.of_same (by rw [freeAttr_line])
      (by rw [freeAttr_plist]; exact congrArg PkgObject.fields same))
  cases act with
  | setPrefix => exact setPrefix_leaves held
  | dirrm => exact (metaDirrm_trimmed false).mono fun w' trimmed => trimmed.held held
  | dirrmtry => exact (metaDirrm_trimmed true).mono fun w' trimmed => trimmed.held held
  | file => exact file_trimmed.mono fun w' trimmed => trimmed.held held
  | setmod =>
      simp only [PlistAction.perform, setmod]
      split
      · exact returned_leaves (held.of_same rfl rfl)
      · split <;> exact plain _ (by rfl) _
  | setowner => exact plain _ (by rfl) _
  | setgroup => exact plain _ (by rfl) _
  | commentKey => exact commentKey_leaves held
  | ignoreNext => exact plain _ (by rfl) _
  | exec => exact (metaExec_inBounds false held).2
  | unexec => exact (metaExec_inBounds true held).2
  | nameKey => exact nameKey_leaves held
  | pkgdep =>
      simp only [PlistAction.perform, pkgdep]
      split
      · exact plain _ (by rfl) _
      · exact plain w.plist rfl _

/-! ## A keyword -/

theorem parseActions_inBounds_iff (acts : List PlistAction) (held : Held w) :
    (parseActions env acts w a).InBounds ↔ ActionsSafe env acts w a := by
  induction acts generalizing w with
  | nil => exact iff_of_true trivial trivial
  | cons act rest ih =>
      have found_iff := @perform_inBounds_iff env w a act held
      have leaves := @perform_leaves env w a act held
      rw [parseActions, ActionsSafe, ← found_iff]
      cases performed : act.perform env w a with
      | fault cause w' => exact (and_iff_left (fault_leaves cause)).symm
      | returned code w' =>
          refine (ih (leaves code w' performed)).trans ⟨fun safe => ⟨trivial, returned_leaves safe⟩,
            fun safe => safe.2 code w' rfl⟩

/-- A block appends the expansion, or ends the program somewhere else. -/
theorem scriptBlock_cases (template line : List Char) (target : ScriptSection) (w : Work) :
    (∃ cmd, formatExecCmd ⟨w.plist.dirPrefix, some w.plist.lastFile, some line⟩ template =
        .ok (.done cmd) ∧
      scriptBlock template line target w =
        .returned .ok { w with plist := w.plist.append target (cmd ++ ['\n']) }) ∨
    ((∀ cmd, formatExecCmd ⟨w.plist.dirPrefix, some w.plist.lastFile, some line⟩ template ≠
        .ok (.done cmd)) ∧
      ∃ cause, ¬cause.OutOfBounds ∧ scriptBlock template line target w = .fault cause w) := by
  unfold scriptBlock
  split
  · next expanded => exact .inr ⟨by simp [expanded], _, by simp [PlistFault.OutOfBounds], rfl⟩
  · next expanded => exact .inr ⟨by simp [expanded], _, by simp [PlistFault.OutOfBounds], rfl⟩
  · next expanded => exact .inr ⟨by simp [expanded], _, by simp [PlistFault.OutOfBounds], rfl⟩
  · next cmd expanded => exact .inl ⟨cmd, expanded, rfl⟩

theorem runScriptBlocks_spec (scripts : ScriptSection → Option (List Char)) (line : List Char)
    (blocks : List (ScriptSection × ScriptSection)) (held : Held w) :
    (runScriptBlocks scripts line blocks w).InBounds ∧
      (runScriptBlocks scripts line blocks w).Leaves Held := by
  induction blocks generalizing w with
  | nil => exact ⟨trivial, returned_leaves held⟩
  | cons block rest ih =>
      rw [runScriptBlocks]
      split
      · exact ih held
      · next template _ =>
          rcases scriptBlock_cases template line block.2 w with
            ⟨cmd, _, performed⟩ | ⟨_, cause, within, performed⟩
          · rw [performed]
            exact ih (held.of_same rfl rfl)
          · rw [performed]
            exact ⟨within, fault_leaves cause⟩

theorem applyKeywordFile_inBounds_iff (d : KeywordDef) (held : Held w) :
    (applyKeywordFile env d w a).InBounds ↔ ∀ names, d.actions = some names →
      (runScriptBlocks d.scripts w.line.text scriptBlocks w).Leaves fun w =>
        ActionsSafe env (namedActions names) w (attributesOf env d a) := by
  obtain ⟨within, leaves⟩ := runScriptBlocks_spec d.scripts w.line.text scriptBlocks held
  unfold applyKeywordFile
  cases performed : runScriptBlocks d.scripts w.line.text scriptBlocks w with
  | fault cause w' =>
      rw [performed] at within
      exact iff_of_true within fun names _ => fault_leaves cause
  | returned code w' =>
      dsimp only
      cases d.actions with
      | none => exact iff_of_true trivial nofun
      | some names =>
          refine (parseActions_inBounds_iff _ (leaves code w' performed)).trans
            ⟨?_, fun safe => safe names rfl code w' rfl⟩
          rintro safe _ ⟨⟩
          exact returned_leaves safe

theorem keywordActions_inBounds (act : PlistAction) (ret : PlistCode) :
    (keywordActions env [act] ret w a).InBounds ↔ (act.perform env w a).InBounds := by
  rw [keywordActions]
  cases act.perform env w a with
  | fault cause w' => exact Iff.rfl
  | returned code w' => cases code <;> exact Iff.rfl

theorem dispatchKeyword_inBounds_iff (key : List Char) (held : Held w) :
    (dispatchKeyword env key w a).InBounds ↔ DispatchSafe env key w a := by
  unfold dispatchKeyword DispatchSafe
  by_cases empty : key = []
  · have solid : ∃ c ∈ w.line.text ++ w.line.before, isspace c = false := by
      obtain ⟨c, member, solid⟩ := held.solid
      exact ⟨c, List.mem_append_right _ member, solid⟩
    rw [if_pos empty]
    exact iff_of_true (file_inBounds_iff.mpr solid) fun named => absurd empty named
  · rw [if_neg empty, imp_iff_right empty]
    cases keyacts.find? fun entry => entry.1.toList = key with
    | some entry =>
        exact (keywordActions_inBounds entry.2 .fatal).trans (perform_inBounds_iff entry.2 held)
    | none =>
        unfold externalKeyword
        cases env.keywordFile key with
        | unparsed => exact iff_of_true trivial (by simp)
        | invalid => exact iff_of_true trivial (by simp)
        | definition d =>
            refine (applyKeywordFile_inBounds_iff d held).trans
              ⟨?_, fun safe names => safe d names rfl⟩
            rintro safe _ names ⟨⟩
            exact safe names

theorem parseKeywords_inBounds_iff (keyword : List Char) (held : Held w) :
    (parseKeywords env keyword w).InBounds ↔ KeywordSafe env keyword w := by
  unfold parseKeywords KeywordSafe
  cases keywordAttributes env keyword with
  | error message => exact iff_of_true trivial nofun
  | ok parsed =>
      refine (dispatchKeyword_inBounds_iff parsed.1 held).trans
        ⟨?_, fun safe => safe parsed.1 parsed.2 rfl⟩
      rintro safe _ _ ⟨⟩
      exact safe

theorem parseActions_leaves (acts : List PlistAction) (held : Held w) :
    (parseActions env acts w a).Leaves Held := by
  induction acts generalizing w with
  | nil => exact returned_leaves held
  | cons act rest ih =>
      have leaves := @perform_leaves env w a act held
      rw [parseActions]
      cases performed : act.perform env w a with
      | fault cause w' => exact fault_leaves cause
      | returned code w' => exact ih (leaves code w' performed)

theorem dispatchKeyword_leaves (key : List Char) (held : Held w) :
    (dispatchKeyword env key w a).Leaves Held := by
  unfold dispatchKeyword
  split
  · exact file_trimmed.mono fun w' trimmed => trimmed.held held
  · split
    · next entry _ =>
        have leaves := @perform_leaves env w a entry.2 held
        rw [keywordActions]
        cases performed : entry.2.perform env w a with
        | fault cause w' => exact fault_leaves cause
        | returned code w' => cases code <;> exact returned_leaves (leaves _ w' performed)
    · unfold externalKeyword
      split
      · exact returned_leaves held
      · exact returned_leaves held
      · next d _ =>
          have leaves := (runScriptBlocks_spec d.scripts w.line.text scriptBlocks held).2
          unfold applyKeywordFile
          cases performed : runScriptBlocks d.scripts w.line.text scriptBlocks w with
          | fault cause w' => exact fault_leaves cause
          | returned code w' =>
              dsimp only
              split
              · exact returned_leaves (leaves code w' performed)
              · exact parseActions_leaves _ (leaves code w' performed)

theorem parseKeywords_leaves (keyword : List Char) (held : Held w) :
    (parseKeywords env keyword w).Leaves Held := by
  unfold parseKeywords
  split
  · exact returned_leaves held
  · exact dispatchKeyword_leaves _ held

end Actions

/-! ## A line, and all lines -/

section Lines

variable {env : PortsEnv} {p : Plist}

/-- The `@` stands in front of what follows the keyword. -/
theorem keywordLine_before (line : List Char) :
    ∃ c ∈ (keywordLine line).2.before, isspace c = false := by
  refine ⟨'@', ?_, by decide⟩
  unfold keywordLine
  dsimp only
  split <;> simp

theorem fileLine_bytes (line : List Char) (c : Char) :
    c ∈ (fileLine line).text ++ (fileLine line).before ↔ c ∈ line := by
  have parts := List.takeWhile_append_dropWhile (p := isspace) (l := line)
  unfold fileLine
  rw [List.mem_append, List.mem_reverse, or_comm, ← List.mem_append, parts]

theorem performLine_inBounds_iff (prefixSet : p.pkg.text .installPath ≠ some [])
    (text : List Char) :
    (performLine env p text).InBounds ↔
      if text.head? = some '@' then
        KeywordSafe env (keywordLine text.tail).1 ⟨p, (keywordLine text.tail).2, []⟩
      else ∃ c ∈ text, isspace c = false := by
  unfold performLine
  split
  · exact parseKeywords_inBounds_iff _ ⟨keywordLine_before _, prefixSet⟩
  · refine file_inBounds_iff.trans ?_
    simp only [fileLine_bytes]

theorem parseLine_inBounds_iff (prefixSet : p.pkg.text .installPath ≠ some [])
    (line : List Char) :
    (∀ cause, parseLine env p line = .error cause → ¬cause.OutOfBounds) ↔ LineSafe env p line := by
  unfold parseLine LineSafe
  cases p.ignoreNext with
  | true => exact iff_of_true (by simp) nofun
  | false =>
      rw [if_neg Bool.false_ne_true, imp_iff_right rfl]
      by_cases empty : lineText line = []
      · rw [if_pos empty]
        exact iff_of_true (by simp) fun nonempty => absurd empty nonempty
      · rw [if_neg empty, imp_iff_right empty, ← performLine_inBounds_iff prefixSet]
        cases performLine env p (lineText line) with
        | fault cause w => simp [Performed.InBounds]
        | returned code w => exact iff_of_true (by simp) trivial

theorem parseLine_prefixSet (prefixSet : p.pkg.text .installPath ≠ some []) {line : List Char}
    {p' : Plist} {code : PlistCode} (parsed : parseLine env p line = .ok (p', code)) :
    p'.pkg.text .installPath ≠ some [] := by
  have performed_prefixSet : (performLine env p (lineText line)).Leaves fun w =>
      w.plist.pkg.text .installPath ≠ some [] := by
    unfold performLine
    split
    · exact (parseKeywords_leaves _ ⟨keywordLine_before _, prefixSet⟩).mono fun w held =>
        held.prefixSet
    · refine file_trimmed.mono fun w trimmed => ?_
      rw [PkgObject.text_eq_of_fields trimmed.fields]
      exact prefixSet
  unfold parseLine at parsed
  split at parsed
  · cases parsed
    exact prefixSet
  · split at parsed
    · cases parsed
      exact prefixSet
    · split at parsed
      · cases parsed
      · next code w performed =>
          cases parsed
          exact performed_prefixSet code w performed

theorem parseLines_inBounds_iff (prefixSet : p.pkg.text .installPath ≠ some [])
    (lines : List (List Char)) (ret : PlistCode) :
    (∀ cause, parseLines env lines p ret = .error cause → ¬cause.OutOfBounds) ↔
      LinesSafe env lines p := by
  induction lines generalizing p ret with
  | nil => exact iff_of_true (by simp [parseLines]) trivial
  | cons line rest ih =>
      rw [parseLines, LinesSafe, ← parseLine_inBounds_iff prefixSet]
      cases parsed : parseLine env p line with
      | error cause => simp
      | ok result =>
          have kept := parseLine_prefixSet prefixSet parsed
          refine (ih kept _).trans ⟨fun safe => ⟨by simp, ?_⟩, fun safe => safe.2 _ _ rfl⟩
          rintro _ _ ⟨⟩
          exact safe

end Lines

/-! ## The call -/

theorem initialPlist_cases (pkg : PkgObject) (stage : Option (List Char)) :
    (pkg.text .installPath = some [] ∧ initialPlist pkg stage = .error .beforePrefix) ∨
      (pkg.text .installPath ≠ some [] ∧ ∃ p, initialPlist pkg stage = .ok p ∧ p.pkg = pkg) := by
  unfold initialPlist
  cases pkg.text .installPath with
  | none => exact .inr ⟨nofun, _, rfl, rfl⟩
  | some tmpprefix =>
      by_cases empty : tmpprefix = []
      · exact .inl ⟨congrArg some empty, by simp [empty]⟩
      · refine .inr ⟨fun same => empty (Option.some.inj same), ?_⟩
        dsimp only
        split
        · next noLast =>
            have cut := List.getLast?_eq_none_iff.mp noLast
            simp [maxPathLen, empty] at cut
        · exact ⟨_, rfl, rfl⟩

/-- The call stays in bounds exactly when the package has no empty prefix, and every line is safe
in the state in which it is parsed. -/
theorem plistInBounds_iff (env : PortsEnv) (pkg : PkgObject) (plist : List Char)
    (stage : Option (List Char)) :
    PlistInBounds env pkg plist stage ↔ pkg.text .installPath ≠ some [] ∧
      ∀ p, initialPlist pkg stage = .ok p → LinesSafe env (getlines plist) p := by
  unfold PlistInBounds portsParsePlist
  rcases initialPlist_cases pkg stage with ⟨empty, failed⟩ | ⟨prefixSet, p, started, same⟩
  · rw [failed]
    refine iff_of_false (fun within => within .beforePrefix rfl (.inr (.inl rfl))) fun safe => ?_
    exact safe.1 empty
  · have lines_iff := @parseLines_inBounds_iff env p (same ▸ prefixSet) (getlines plist) .ok
    rw [started, and_iff_right prefixSet]
    simp only [Except.ok.injEq, forall_eq']
    rw [← lines_iff]
    cases parseLines env (getlines plist) p .ok with
    | error cause => simp
    | ok result =>
        dsimp only
        cases flushPlist result.1 with
        | none => simp [PlistFault.OutOfBounds]
        | some pkg => simp

/-- A line of two blanks. -/
theorem blankLine_not_plistInBounds :
    ¬PlistInBounds bareSystem (pkgNew .file) "  \n".toList none :=
  fun within => within .beforeLine rfl (.inl rfl)

end Pkgng
