import Pkgng.Ports.LineBounds

/-!
# The scripts of a keyword

`apply_keyword_file` has one block for each script, and the last two of the six write to the
buffers of deinstallation.  What `format_exec_cmd` returns is not looked at in any of them.
-/

set_option autoImplicit false

namespace Pkgng

/-- The command that a template expands to, on a line of its own. -/
def expandedSection (p : Plist) (line template : List Char) : Option (List Char) :=
  match formatExecCmd ⟨p.dirPrefix, some p.lastFile, some line⟩ template with
  | .ok (.done cmd) => some (cmd ++ ['\n'])
  | _ => none

/-- What a section has to add: nothing where there is none, or where its expansion fails. -/
def sectionText (p : Plist) (line : List Char) (template : Option (List Char)) : List Char :=
  (template.bind (expandedSection p line)).getD []

/-- Each buffer gets the expansion of the section of its own name, before the actions are
performed, and nothing else changes. -/
def ScriptsLand (d : KeywordDef) (w : Work) : Prop :=
  runScriptBlocks d.scripts w.line.text scriptBlocks w = .returned .ok { w with
    plist := { w.plist with
      buf := fun s => w.plist.buf s ++ sectionText w.plist w.line.text (d.scripts s) } }

/-- The actions are performed in the state that the blocks leave. -/
theorem applyKeywordFile_eq (env : PortsEnv) (d : KeywordDef) (w : Work) (a : Option FileAttr) :
    applyKeywordFile env d w a =
      match runScriptBlocks d.scripts w.line.text scriptBlocks w with
      | .fault fault w => .fault fault w
      | .returned _ w =>
          match d.actions with
          | none => .returned .ok w
          | some names => parseActions env (namedActions names) w (attributesOf env d a) := rfl

/-! ## The blocks -/

section Blocks

variable (scripts : ScriptSection → Option (List Char)) (line : List Char)

/-- The sections of the blocks expand to commands. -/
def AllExpand (p : Plist) (blocks : List (ScriptSection × ScriptSection)) : Prop :=
  ∀ block ∈ blocks, ∀ template, scripts block.1 = some template →
    expandedSection p line template ≠ none

/-- The buffers behind the blocks. -/
def bufsBehind (p : Plist) (blocks : List (ScriptSection × ScriptSection)) (s : ScriptSection) :
    List Char :=
  p.buf s ++ (blocks.filter fun block => block.2 = s).flatMap fun block =>
    sectionText p line (scripts block.1)

theorem append_nil_buf (p : Plist) (s : ScriptSection) : p.append s [] = p := by
  unfold Plist.append
  rw [List.append_nil, Function.update_eq_self]

theorem bufsBehind_cons (p : Plist) (block : ScriptSection × ScriptSection)
    (rest : List (ScriptSection × ScriptSection)) :
    bufsBehind scripts line p (block :: rest) =
      bufsBehind scripts line (p.append block.2 (sectionText p line (scripts block.1))) rest := by
  funext s
  unfold bufsBehind
  by_cases target : block.2 = s
  · rw [List.filter_cons, if_pos (decide_eq_true target), List.flatMap_cons, ← List.append_assoc,
      target]
    congr 1
    exact (Function.update_self (f := p.buf) s _).symm
  · rw [List.filter_cons, if_neg (by simpa using target)]
    congr 1
    exact (Function.update_of_ne (f := p.buf) (Ne.symm target) _).symm

/-- The blocks append the expansions, unless one of them fails. -/
theorem runScriptBlocks_cases (blocks : List (ScriptSection × ScriptSection)) (w : Work) :
    (AllExpand scripts line w.plist blocks ∧
      runScriptBlocks scripts line blocks w = .returned .ok { w with
        plist := { w.plist with buf := bufsBehind scripts line w.plist blocks } }) ∨
    (¬AllExpand scripts line w.plist blocks ∧
      ∃ cause w', runScriptBlocks scripts line blocks w = .fault cause w') := by
  induction blocks generalizing w with
  | nil =>
      refine .inl ⟨fun _ member => absurd member List.not_mem_nil, ?_⟩
      have same : bufsBehind scripts line w.plist [] = w.plist.buf := by
        funext s
        simp [bufsBehind]
      rw [runScriptBlocks, same]
  | cons block rest ih =>
      have all_iff : AllExpand scripts line w.plist (block :: rest) ↔
          (∀ template, scripts block.1 = some template →
            expandedSection w.plist line template ≠ none) ∧
            AllExpand scripts line w.plist rest := List.forall_mem_cons
      rw [runScriptBlocks, bufsBehind_cons]
      cases isSection : scripts block.1 with
      | none =>
          have nothing : sectionText w.plist line none = [] := rfl
          have rest_iff := all_iff.trans (and_iff_right (by simp [isSection]))
          rw [nothing, append_nil_buf, rest_iff]
          exact ih w
      | some template =>
          rcases scriptBlock_cases template line block.2 w with
            ⟨cmd, expanded, performed⟩ | ⟨unexpanded, cause, _, performed⟩
          · have text : expandedSection w.plist line template = some (cmd ++ ['\n']) := by
              rw [expandedSection, expanded]
            have section_eq : sectionText w.plist line (some template) = cmd ++ ['\n'] := by
              rw [sectionText, Option.bind_some, text, Option.getD_some]
            have rest_iff := all_iff.trans (and_iff_right (by simp [isSection, text]))
            dsimp only
            rw [performed, section_eq, rest_iff]
            exact ih { w with plist := w.plist.append block.2 (cmd ++ ['\n']) }
          · have noText : expandedSection w.plist line template = none := by
              unfold expandedSection
              split
              · next cmd expanded => exact absurd expanded (unexpanded cmd)
              · rfl
            dsimp only
            rw [performed]
            exact .inr ⟨fun all => (all_iff.mp all).1 template isSection noText, cause, w, rfl⟩

end Blocks

/-! ## The call -/

theorem expandedSection_ne_none_iff (p : Plist) (line template : List Char) :
    expandedSection p line template ≠ none ↔
      ∃ cmd, formatExecCmd ⟨p.dirPrefix, some p.lastFile, some line⟩ template =
        .ok (.done cmd) := by
  unfold expandedSection
  split
  · next cmd expanded => exact iff_of_true (Option.some_ne_none _) ⟨cmd, expanded⟩
  · next unexpanded =>
      exact iff_of_false (fun named => named rfl) fun ⟨cmd, expanded⟩ => unexpanded cmd expanded

/-- An expansion has at least its newline. -/
theorem sectionText_eq_nil_iff {p : Plist} {line : List Char} {section_ : Option (List Char)}
    (expands : ∀ template, section_ = some template → expandedSection p line template ≠ none) :
    sectionText p line section_ = [] ↔ section_ = none := by
  cases section_ with
  | none => exact iff_of_true rfl rfl
  | some template =>
      obtain ⟨cmd, expanded⟩ := (expandedSection_ne_none_iff p line template).mp
        (expands template rfl)
      refine iff_of_false ?_ (Option.some_ne_none _)
      simp [sectionText, expandedSection, expanded]

/-- The buffers of deinstallation get the scripts of the upgrade, too. -/
theorem bufsBehind_scriptBlocks (scripts : ScriptSection → Option (List Char)) (line : List Char)
    (p : Plist) (s : ScriptSection) :
    bufsBehind scripts line p scriptBlocks s = p.buf s ++
      match s with
      | .preInstall => sectionText p line (scripts .preInstall)
      | .postInstall => sectionText p line (scripts .postInstall)
      | .preDeinstall =>
          sectionText p line (scripts .preDeinstall) ++ sectionText p line (scripts .preUpgrade)
      | .postDeinstall =>
          sectionText p line (scripts .postDeinstall) ++ sectionText p line (scripts .postUpgrade)
      | .preUpgrade => []
      | .postUpgrade => [] := by
  cases s <;> simp [bufsBehind, scriptBlocks]

/-- The scripts land exactly where there is no script of an upgrade, and every section expands to
a command. -/
theorem scriptsLand_iff (d : KeywordDef) (w : Work) :
    ScriptsLand d w ↔ (d.scripts .preUpgrade = none ∧ d.scripts .postUpgrade = none) ∧
      ∀ s template, d.scripts s = some template →
        ∃ cmd, formatExecCmd ⟨w.plist.dirPrefix, some w.plist.lastFile, some w.line.text⟩ template =
          .ok (.done cmd) := by
  have all_iff : AllExpand d.scripts w.line.text w.plist scriptBlocks ↔
      ∀ s template, d.scripts s = some template →
        expandedSection w.plist w.line.text template ≠ none := by
    refine ⟨fun all s => ?_, fun all block _ => all block.1⟩
    cases s with
    | preInstall => exact all (.preInstall, .preInstall) (by decide)
    | postInstall => exact all (.postInstall, .postInstall) (by decide)
    | preDeinstall => exact all (.preDeinstall, .preDeinstall) (by decide)
    | postDeinstall => exact all (.postDeinstall, .postDeinstall) (by decide)
    | preUpgrade => exact all (.preUpgrade, .preDeinstall) (by decide)
    | postUpgrade => exact all (.postUpgrade, .postDeinstall) (by decide)
  simp only [← expandedSection_ne_none_iff]
  rw [← all_iff]
  unfold ScriptsLand
  rcases runScriptBlocks_cases d.scripts w.line.text scriptBlocks w with
    ⟨all, performed⟩ | ⟨notAll, cause, w', performed⟩
  · rw [performed, and_iff_left all]
    have empty_iff (s : ScriptSection) :=
      @sectionText_eq_nil_iff w.plist w.line.text (d.scripts s) (all_iff.mp all s)
    rw [← empty_iff, ← empty_iff]
    constructor
    · intro same
      have bufs : bufsBehind d.scripts w.line.text w.plist scriptBlocks =
          fun s => w.plist.buf s ++ sectionText w.plist w.line.text (d.scripts s) := by
        injection same with _ sameWork
        exact congrArg (fun w => w.plist.buf) sameWork
      have pre := congrFun bufs .preUpgrade
      have post := congrFun bufs .postUpgrade
      rw [bufsBehind_scriptBlocks] at pre post
      exact ⟨(List.append_cancel_left pre).symm, (List.append_cancel_left post).symm⟩
    · rintro ⟨noPre, noPost⟩
      have bufs : bufsBehind d.scripts w.line.text w.plist scriptBlocks =
          fun s => w.plist.buf s ++ sectionText w.plist w.line.text (d.scripts s) := by
        funext s
        rw [bufsBehind_scriptBlocks]
        cases s <;> simp [noPre, noPost]
      rw [bufs]
  · rw [performed]
    exact iff_of_false nofun fun holds => notAll holds.2

/-- A script of the upgrade alone. -/
theorem preUpgrade_not_scriptsLand :
    ¬ScriptsLand { scripts := fun s => if s = .preUpgrade then some "true".toList else none }
      ⟨{ stage := none, pkg := pkgNew .file }, ⟨['@'], []⟩, []⟩ := by
  intro lands
  have appended := congrArg (fun r : Performed => r.work.plist.buf .preUpgrade) lands
  exact absurd appended (by decide +kernel)

/-! ## The end of the list -/

theorem script_injective : Function.Injective ScriptSection.script := by
  intro s t same
  cases s <;> cases t <;> first | rfl | cases same

/-- A buffer is appended to the script of its own name. -/
theorem flushScriptBuffer_eq (buf : List Char) (type : PkgScript) (pkg : PkgObject) :
    ∃ pkg', flushScriptBuffer buf type pkg = some pkg' ∧
      (∀ other ≠ type, pkg'.scripts other = pkg.scripts other) ∧
      pkg'.scripts type =
        if buf = [] then pkg.scripts type
        else some ((pkg.scripts type).getD "" ++ String.ofList buf) := by
  unfold flushScriptBuffer
  by_cases empty : buf = []
  · rw [if_pos empty, if_pos empty]
    exact ⟨pkg, rfl, fun _ _ => rfl, rfl⟩
  · have nonempty : String.ofList buf ≠ "" := fun same => empty (String.ofList_inj.mp same)
    rw [if_neg empty, if_neg empty]
    unfold PkgObject.appendscript
    rw [if_neg nonempty]
    cases pkg.scripts type with
    | none =>
        refine ⟨_, rfl, fun other differs => Function.update_of_ne differs _ _, ?_⟩
        exact (Function.update_self type _ _).trans (by simp)
    | some text =>
        exact ⟨_, rfl, fun other differs => Function.update_of_ne differs _ _,
          Function.update_self type _ _⟩

/-- Behind the loop every buffer is appended to the script of its own name. -/
theorem flushPlist_scripts (p : Plist) :
    ∃ pkg, flushPlist p = some pkg ∧ ∀ s : ScriptSection,
      pkg.scripts s.script =
        if p.buf s = [] then p.pkg.scripts s.script
        else some ((p.pkg.scripts s.script).getD "" ++ String.ofList (p.buf s)) := by
  have flushes (l : List ScriptSection) (distinct : l.Nodup) (pkg : PkgObject) :
      ∃ pkg', l.foldlM (fun pkg s => flushScriptBuffer (p.buf s) s.script pkg) pkg = some pkg' ∧
        (∀ s ∉ l, pkg'.scripts s.script = pkg.scripts s.script) ∧
        ∀ s ∈ l, pkg'.scripts s.script =
          if p.buf s = [] then pkg.scripts s.script
          else some ((pkg.scripts s.script).getD "" ++ String.ofList (p.buf s)) := by
    induction l generalizing pkg with
    | nil => exact ⟨pkg, rfl, fun _ _ => rfl, nofun⟩
    | cons s rest ih =>
        obtain ⟨absent, distinct⟩ := List.nodup_cons.mp distinct
        obtain ⟨next, flushed, others, own⟩ := flushScriptBuffer_eq (p.buf s) s.script pkg
        obtain ⟨last, run, outside, inside⟩ := ih distinct next
        refine ⟨last, ?_, ?_, ?_⟩
        · rw [List.foldlM_cons, flushed]
          exact run
        · intro t notIn
          rw [List.mem_cons, not_or] at notIn
          rw [outside t notIn.2, others t.script fun same => notIn.1 (script_injective same)]
        · intro t member
          rcases List.mem_cons.mp member with rfl | later
          · rw [outside t absent, own]
          · have differs : t.script ≠ s.script :=
              fun same => absent (script_injective same ▸ later)
            rw [inside t later, others t.script differs]
  obtain ⟨pkg, flushed, _, scripts⟩ := flushes allSections (by decide)
    (p.pkg.setField .flatsize (some (.int p.flatsize)))
  exact ⟨pkg, flushed, fun s => scripts s (by cases s <;> decide)⟩

end Pkgng
