import Pkgng.Lib.CStrings
import Pkgng.Repo.Sigkeys

/-!
# Templates of commands

`format_exec_cmd` expands the directives of an `@exec` line.  Behind a percent sign it takes
the next character without asking whether there is one, and where it joins the prefix and a
file name it looks at the last character of the prefix.
-/

set_option autoImplicit false

namespace Pkgng

open Lib

inductive ExecFault
  | pastTemplate
  | beforePrefix
deriving DecidableEq

/-- How a call that reads only what it may ends: with the command, with `EPKG_FATAL`, or in
`strrchr` returning NULL for a path without a slash. -/
inductive ExecResult
  | done (dest : List Char)
  | fatal
  | nullPointer
deriving DecidableEq

structure ExecArgs where
  dirPrefix : List Char
  plistFile : Option (List Char)
  line : Option (List Char)

/-- `plist_file`, unless it is NULL or empty. -/
def ExecArgs.fileName (args : ExecArgs) : Option (List Char) := args.plistFile.filter (· ≠ [])

/-- What `snprintf` leaves in `path`; the prefix has a last character. -/
def execPath (dirPrefix file : List Char) : List Char :=
  (if dirPrefix.getLast? = some '/' then dirPrefix ++ file
    else dirPrefix ++ '/' :: file).take (maxPathLen - 1)

/-- What a directive puts into the buffer. -/
abbrev Expansion := Except ExecFault (ExecResult ⊕ List Char)

/-- The directives `f` and `B`, which take a part of the path. -/
def expandPath (args : ExecArgs) (part : (path cp : List Char) → List Char) : Expansion :=
  match args.fileName with
  | none => .ok (.inl .fatal)
  | some file =>
      if args.dirPrefix = [] then .error .beforePrefix
      else
        let path := execPath args.dirPrefix file
        match strrchr '/' path with
        | none => .ok (.inl .nullPointer)
        | some cp => .ok (.inr (part path cp))

/-- The branches for the character behind a percent sign. -/
def expandDirective (args : ExecArgs) (directive : Char) : Expansion :=
  match directive with
  | 'D' => .ok (.inr args.dirPrefix)
  | 'F' =>
      match args.fileName with
      | none => .ok (.inl .fatal)
      | some file => .ok (.inr file)
  | 'f' => expandPath args fun _ cp => cp.tail
  | 'B' => expandPath args fun path cp => path.take (path.length - cp.length)
  | '%' => .ok (.inr ['%'])
  | '@' =>
      match args.line with
      | some line => .ok (.inr line)
      | none => .ok (.inr ['%', '@'])
  | c => .ok (.inr ['%', c])

/-- The loop with what it has put into the buffer.  With nothing behind a percent sign the
default case puts a NUL, and the loop goes on behind the end of the template. -/
def execLoop (args : ExecArgs) : List Char → List Char → Except ExecFault ExecResult
  | [], buf => .ok (.done buf)
  | c :: rest, buf =>
      if c ≠ '%' then execLoop args rest (buf ++ [c])
      else
        match rest with
        | [] => .error .pastTemplate
        | directive :: rest =>
            match expandDirective args directive with
            | .error fault => .error fault
            | .ok (.inl result) => .ok result
            | .ok (.inr text) => execLoop args rest (buf ++ text)

def formatExecCmd (args : ExecArgs) (template : List Char) : Except ExecFault ExecResult :=
  execLoop args template []

/-! ## The directives of a template -/

/-- The characters behind the percent signs, in pairs from the left. -/
def directives : List Char → List Char
  | [] => []
  | c :: rest =>
      if c ≠ '%' then directives rest
      else
        match rest with
        | [] => []
        | directive :: rest => directive :: directives rest

/-- The last percent sign has nothing behind it. -/
def Unpaired : List Char → Prop
  | [] => False
  | c :: rest =>
      if c ≠ '%' then Unpaired rest
      else
        match rest with
        | [] => True
        | _ :: rest => Unpaired rest

/-- The directive ends the call: there is no file name, or the path has no slash. -/
def EndsCall (args : ExecArgs) (directive : Char) : Prop :=
  directive ∈ ['F', 'f', 'B'] ∧ args.fileName = none ∨
    directive ∈ ['f', 'B'] ∧ ∃ file, args.fileName = some file ∧
      '/' ∉ execPath args.dirPrefix file

/-- The directive looks at the last character of an empty prefix. -/
def LooksBefore (args : ExecArgs) (directive : Char) : Prop :=
  directive ∈ ['f', 'B'] ∧ args.fileName ≠ none ∧ args.dirPrefix = []

section Directives

variable {args : ExecArgs} {directive : Char}

theorem expandPath_cases (part : (path cp : List Char) → List Char) :
    (args.fileName = none ∧ expandPath args part = .ok (.inl .fatal)) ∨
    (args.fileName ≠ none ∧ args.dirPrefix = [] ∧ expandPath args part = .error .beforePrefix) ∨
    (args.dirPrefix ≠ [] ∧ (∃ file, args.fileName = some file ∧
        '/' ∉ execPath args.dirPrefix file) ∧ expandPath args part = .ok (.inl .nullPointer)) ∨
    (args.dirPrefix ≠ [] ∧ (∃ file, args.fileName = some file ∧
        '/' ∈ execPath args.dirPrefix file) ∧ ∃ text, expandPath args part = .ok (.inr text)) := by
  unfold expandPath
  cases args.fileName with
  | none => exact Or.inl ⟨rfl, rfl⟩
  | some file =>
      dsimp only
      split
      · next empty => exact Or.inr (Or.inl ⟨Option.some_ne_none file, empty, rfl⟩)
      · next nonempty =>
          cases last : strrchr '/' (execPath args.dirPrefix file) with
          | none =>
              have slashless := (strrchr_eq_none_iff _ _).mp last
              exact Or.inr (Or.inr (Or.inl ⟨nonempty, ⟨file, rfl, slashless⟩, rfl⟩))
          | some cp =>
              have slash : '/' ∈ execPath args.dirPrefix file := by
                by_contra slashless
                rw [(strrchr_eq_none_iff _ _).mpr slashless] at last
                cases last
              exact Or.inr (Or.inr (Or.inr ⟨nonempty, ⟨file, rfl, slash⟩, _, rfl⟩))

/-- An expansion fails if the directive looks before the prefix, and otherwise ends the call or
puts a text into the buffer. -/
structure ExpandsAs (args : ExecArgs) (directive : Char) (expansion : Expansion) : Prop where
  fails_iff : (∃ fault, expansion = .error fault) ↔ LooksBefore args directive
  ends_iff : ¬LooksBefore args directive →
    ((∃ result, expansion = .ok (.inl result)) ↔ EndsCall args directive)

theorem expandsAs_puts {text : List Char} (notLooks : ¬LooksBefore args directive)
    (notEnds : ¬EndsCall args directive) : ExpandsAs args directive (.ok (.inr text)) := by
  refine ⟨iff_of_false ?_ notLooks, fun _ => iff_of_false ?_ notEnds⟩
  · rintro ⟨fault, fails⟩
    cases fails
  · rintro ⟨result, ends⟩
    cases ends

theorem expandsAs_ends {result : ExecResult} (notLooks : ¬LooksBefore args directive)
    (ends : EndsCall args directive) : ExpandsAs args directive (.ok (.inl result)) := by
  refine ⟨iff_of_false ?_ notLooks, fun _ => iff_of_true ⟨result, rfl⟩ ends⟩
  rintro ⟨fault, fails⟩
  cases fails

/-- What the two directives for a part of the path have in common. -/
theorem expandPath_spec (isPart : directive ∈ ['f', 'B'])
    (part : (path cp : List Char) → List Char) :
    ExpandsAs args directive (expandPath args part) := by
  rcases @expandPath_cases args part with ⟨noFile, expands⟩ | ⟨hasFile, empty, expands⟩ |
      ⟨nonempty, slashless, expands⟩ | ⟨nonempty, ⟨file, isFile, slash⟩, text, expands⟩
  · rw [expands]
    exact expandsAs_ends (fun looks => looks.2.1 noFile)
      (Or.inl ⟨List.mem_cons_of_mem _ isPart, noFile⟩)
  · have looks : LooksBefore args directive := ⟨isPart, hasFile, empty⟩
    rw [expands]
    exact ⟨iff_of_true ⟨_, rfl⟩ looks, fun notLooks => absurd looks notLooks⟩
  · rw [expands]
    exact expandsAs_ends (fun looks => nonempty looks.2.2) (Or.inr ⟨isPart, slashless⟩)
  · rw [expands]
    refine expandsAs_puts (fun looks => nonempty looks.2.2) ?_
    rintro (⟨_, noFile⟩ | ⟨_, other, isOther, slashless⟩)
    · cases isFile.symm.trans noFile
    · cases isFile.symm.trans isOther
      exact slashless slash

theorem expandDirective_spec (args : ExecArgs) (directive : Char) :
    ExpandsAs args directive (expandDirective args directive) := by
  have plain : ∀ text, directive ∉ ['F', 'f', 'B'] →
      ExpandsAs args directive (.ok (.inr text)) := by
    intro text other
    refine expandsAs_puts (fun looks => other (List.mem_cons_of_mem _ looks.1)) ?_
    rintro (⟨isFile, _⟩ | ⟨isPart, _⟩)
    · exact other isFile
    · exact other (List.mem_cons_of_mem _ isPart)
  unfold expandDirective
  split
  · exact plain _ (by decide)
  · have notPart : 'F' ∉ ['f', 'B'] := by decide
    cases file : args.fileName with
    | none => exact expandsAs_ends (fun looks => notPart looks.1) (Or.inl ⟨by decide, file⟩)
    | some name =>
        refine expandsAs_puts (fun looks => notPart looks.1) ?_
        rintro (⟨_, noFile⟩ | ⟨isPart, _⟩)
        · cases file.symm.trans noFile
        · exact notPart isPart
  · exact expandPath_spec (by decide) _
  · exact expandPath_spec (by decide) _
  · exact plain _ (by decide)
  · split
    · exact plain _ (by decide)
    · exact plain _ (by decide)
  · next notF notf notB _ _ =>
      apply plain
      simp only [List.mem_cons, List.not_mem_nil, or_false, not_or]
      exact ⟨notF, notf, notB⟩

end Directives

/-! ## The scan -/

/-- The scan reads inside the template, and the prefix from its start. -/
def ReadsInside (args : ExecArgs) (template : List Char) : Prop :=
  ∀ fault, formatExecCmd args template ≠ .error fault

/-- An empty prefix leaves a slash in front of the file name, so that no directive ends the
call where one looks before the prefix. -/
theorem not_endsCall_of_looksBefore {args : ExecArgs} {looking directive : Char}
    (looks : LooksBefore args looking) : ¬EndsCall args directive := by
  obtain ⟨_, hasFile, empty⟩ := looks
  rintro (⟨_, noFile⟩ | ⟨_, file, _, slashless⟩)
  · exact hasFile noFile
  · rw [empty] at slashless
    exact slashless (List.mem_cons_self ..)

theorem execLoop_plain (args : ExecArgs) {c : Char} (plain : c ≠ '%') (rest buf : List Char) :
    execLoop args (c :: rest) buf = execLoop args rest (buf ++ [c]) := by
  rw [execLoop.eq_def]
  exact if_pos plain

theorem unpaired_plain {c : Char} (plain : c ≠ '%') (rest : List Char) :
    Unpaired (c :: rest) = Unpaired rest := by
  rw [Unpaired.eq_def]
  exact if_pos plain

theorem execLoop_inside_iff (args : ExecArgs) (template buf : List Char) :
    (∀ fault, execLoop args template buf ≠ .error fault) ↔
      (∀ directive ∈ directives template, ¬LooksBefore args directive) ∧
        (Unpaired template → ∃ directive ∈ directives template, EndsCall args directive) := by
  fun_induction directives template generalizing buf with
  | case1 =>
      refine iff_of_true (fun fault failed => ?_) ⟨nofun, False.elim⟩
      cases failed
  | case2 c rest plain ih =>
      rw [execLoop_plain args plain, unpaired_plain plain]
      exact ih _
  | case3 c isPercent =>
      rw [execLoop, if_neg isPercent, Unpaired, if_neg isPercent]
      refine iff_of_false (fun inside => inside _ rfl) fun both => ?_
      obtain ⟨directive, member, _⟩ := both.2 trivial
      cases member
  | case4 c isPercent directive rest ih =>
      obtain ⟨fails_iff, ends_iff⟩ := expandDirective_spec args directive
      rw [execLoop, if_neg isPercent, Unpaired, if_neg isPercent, List.forall_mem_cons]
      simp only [List.exists_mem_cons_iff]
      cases expands : expandDirective args directive with
      | error fault =>
          have looks := fails_iff.mp ⟨fault, expands⟩
          exact iff_of_false (fun inside => inside fault rfl) fun both => both.1.1 looks
      | ok expansion =>
          have notLooks : ¬LooksBefore args directive := by
            rw [← fails_iff]
            rintro ⟨fault, failed⟩
            cases expands.symm.trans failed
          cases expansion with
          | inl result =>
              have ends := (ends_iff notLooks).mp ⟨result, expands⟩
              refine iff_of_true (fun fault failed => ?_) ⟨⟨notLooks, ?_⟩, fun _ => Or.inl ends⟩
              · cases failed
              · exact fun other _ looks => not_endsCall_of_looksBefore looks ends
          | inr text =>
              have notEnds : ¬EndsCall args directive := by
                rw [← ends_iff notLooks]
                rintro ⟨result, ends⟩
                cases expands.symm.trans ends
              simp only [notLooks, notEnds, not_false_eq_true, true_and, false_or]
              exact ih _

/-- Nothing outside the template and the prefix is read exactly if `%f` and `%B` meet no empty
prefix, and the template ends in an unpaired percent sign only behind a directive that ends
the call. -/
theorem formatExecCmd_readsInside_iff (args : ExecArgs) (template : List Char) :
    ReadsInside args template ↔
      (∀ directive ∈ directives template, ¬LooksBefore args directive) ∧
        (Unpaired template → ∃ directive ∈ directives template, EndsCall args directive) :=
  execLoop_inside_iff args template []

/-- A percent sign at the end, and the directory of a file under an empty prefix. -/
theorem lonePercent_not_readsInside :
    ¬ReadsInside ⟨"/usr/local".toList, some "bin/tool".toList, none⟩ "echo 100%".toList ∧
      ¬ReadsInside ⟨[], some "bin/tool".toList, none⟩ "ls %B".toList := by
  constructor
  · intro inside
    refine inside .pastTemplate ?_
    simp [formatExecCmd, execLoop]
  · intro inside
    refine inside .beforePrefix ?_
    simp [formatExecCmd, execLoop, expandDirective, expandPath, ExecArgs.fileName, Option.filter]

end Pkgng
