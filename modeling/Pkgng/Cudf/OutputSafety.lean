import Mathlib.Data.List.TakeWhile
import Pkgng.Cudf.Output

/-!
# When reading a solver's answer is safe

The lines of an answer fall into a preamble and stanzas, each a `package` line with the
lines up to the next one.  The parser does with the stanzas, one after the other, what
`addStanzas` says, and it reads a null pointer exactly where a stanza it reaches lacks a
value or, if its uid is known, a version.
-/

set_option autoImplicit false

namespace Pkgng

open Lib

def isPackageLine (line : CudfLine) : Bool := lineParam line = some "package".toList

theorem isPackageLine_eq_true {line : CudfLine} :
    isPackageLine line = true ↔ lineParam line = some "package".toList := decide_eq_true_iff

theorem isPackageLine_eq_false {line : CudfLine} :
    isPackageLine line = false ↔ lineParam line ≠ some "package".toList := decide_eq_false_iff_not

def isVersionLine (line : CudfLine) : Bool := lineParam line = some "version".toList

def isInstalledLine (line : CudfLine) : Bool := lineParam line = some "installed".toList

def isWasInstalledLine (line : CudfLine) : Bool := lineParam line = some "was-installed".toList

/-- The lines that belong to a stanza and whose value is read. -/
def isFieldLine (line : CudfLine) : Bool :=
  isVersionLine line || isInstalledLine line || isWasInstalledLine line

/-- A stanza of an answer: its `package` line and the lines below it. -/
structure CudfStanza where
  head : CudfLine
  body : List CudfLine
deriving DecidableEq, Repr

namespace CudfStanza

/-- The value of the last version line. -/
def version (body : List CudfLine) : Option (List Char) :=
  (body.filter isVersionLine).getLast?.bind fun line => (lineValue line).map cudfStrdup

/-- Some line of the kind has a true value. -/
def flag (kind : CudfLine → Bool) (body : List CudfLine) : Bool :=
  body.any fun line => kind line && (lineValue line).any CudfReader.isTrue

/-- What a stanza says. -/
def entry (stanza : CudfStanza) : CudfEntry where
  uid := (lineValue stanza.head).map cudfStrdup
  wasInstalled := flag isWasInstalledLine stanza.body
  installed := flag isInstalledLine stanza.body
  version := version stanza.body

/-- No keyword line of the stanza lacks its value. -/
def HasValues (stanza : CudfStanza) : Prop :=
  lineValue stanza.head ≠ none ∧
    ∀ line ∈ stanza.body, isFieldLine line = true → lineValue line ≠ none

instance (stanza : CudfStanza) : Decidable stanza.HasValues := by
  unfold HasValues
  infer_instance

end CudfStanza

/-- The lines before the first `package` line. -/
def preamble (lines : List CudfLine) : List CudfLine :=
  lines.takeWhile fun line => !isPackageLine line

def stanzas : List CudfLine → List CudfStanza
  | [] => []
  | line :: rest =>
      if isPackageLine line then { head := line, body := preamble rest } :: stanzas rest
      else stanzas rest

/-- The table entries are items of well linked chains: its heads before the chains are
sorted for the solver, any of its items afterwards. -/
def JobsUniverse.Linked (u : JobsUniverse) : Prop :=
  ∀ entry ∈ u.items, ∃ chain, Links.Represents u.links chain ∧ entry.2 ∈ chain ∧
    chain.length ≤ u.pkgs.length

theorem JobsUniverse.Chained.toLinked {u : JobsUniverse} (chained : u.Chained) : u.Linked :=
  fun entry member => ⟨u.chain entry.2, chained.linked entry member,
    JobsUniverse.head_mem chained member, JobsUniverse.chain_length_le chained member⟩

/-- The chain of the uid an entry names, from its head on. -/
def CudfEntry.chain (u : JobsUniverse) (entry : CudfEntry) : Option (List Addr) := do
  let uid ← entry.uid
  let it ← u.find (String.ofList uid)
  let head ← u.links.rewind (u.pkgs.length + 1) it
  u.chain head

/-- The entry names a version that its chain has. -/
def CudfEntry.Known (u : JobsUniverse) (entry : CudfEntry) : Prop :=
  ∃ chain ∈ entry.chain u, ∃ version ∈ entry.version,
    1 ≤ toCInt (strtoul version) ∧ toCInt (strtoul version) ≤ chain.length

/-- The jobs after each of the entries has been added. -/
def CudfJobs.addStanzas (j : CudfJobs) : List CudfEntry → CudfResult
  | [] => .returned .ok j
  | entry :: rest =>
      match j.addPackage entry with
      | .returned .ok j => j.addStanzas rest
      | result => result

/-! ## Adding one package -/

/-- Rewinding from a table entry ends at the head of its chain. -/
theorem JobsUniverse.Linked.rewinds {u : JobsUniverse} (linked : u.Linked)
    {entry : Uid × Addr} (member : entry ∈ u.items) :
    ∃ head, u.links.rewind (u.pkgs.length + 1) entry.2 = some head ∧
      Links.Represents u.links (u.chain head) ∧ entry.2 ∈ u.chain head := by
  obtain ⟨chain, represented, inChain, bounded⟩ := linked entry member
  obtain ⟨head, _, rewinds, walked⟩ :=
    JobsUniverse.rewinds_of_represents represented inChain bounded
  exact ⟨head, rewinds, walked.symm ▸ represented, walked.symm ▸ inChain⟩

namespace CudfJobs

/-- The loop stops at the item whose place in the chain is the version, if there is one. -/
theorem selectVersion_cases (ver : Int) : ∀ (chain : List Addr) (n : Nat),
    (∃ k item, chain[k]? = some item ∧ ((n + k : Nat) : Int) = ver ∧
      selectVersion ver n chain = (n + k, some item)) ∨
    ((ver < n ∨ ((n + chain.length : Nat) : Int) ≤ ver) ∧
      ∃ last, selectVersion ver n chain = (last, none)) := by
  intro chain
  induction chain with
  | nil =>
      intro n
      refine Or.inr ⟨?_, n, rfl⟩
      simp only [List.length_nil]
      omega
  | cons cur rest ih =>
      intro n
      by_cases here : (n : Int) = ver
      · exact Or.inl ⟨0, cur, rfl, here, by simp [selectVersion, here]⟩
      · rcases ih (n + 1) with ⟨k, item, at_k, place, run⟩ | ⟨outside, last, run⟩
        · refine Or.inl ⟨k + 1, item, at_k, ?_, ?_⟩
          · omega
          · rw [selectVersion, if_neg here, run]
            congr 1
            omega
        · refine Or.inr ⟨?_, last, ?_⟩
          · simp only [List.length_cons]
            omega
          · rw [selectVersion, if_neg here, run]

theorem scheduled_univ (j : CudfJobs) (job : Solved) :
    ∃ after, j.scheduled job = .returned .ok after ∧ after.univ = j.univ := ⟨_, rfl, rfl⟩

/-- In a chain without repetitions every item selected but the first has another one
before it, and the assertion holds. -/
theorem addSelected_ok (j : CudfJobs) (entry : CudfEntry) {chain : List Addr} {k : Nat}
    {selected : Addr} (nodup : chain.Nodup) (at_k : chain[k]? = some selected) :
    ∃ after, j.addSelected entry chain (1 + k) selected = .returned .ok after ∧
      after.univ = j.univ := by
  unfold addSelected
  by_cases first : 1 + k = 1
  · rw [if_pos first]
    by_cases install : entry.installed ∧ (j.pkg selected).type ≠ .installed
    · rw [if_pos install]
      exact scheduled_univ j _
    · rw [if_neg install]
      by_cases delete : ¬entry.installed ∧ (j.pkg selected).type = .installed
      · rw [if_pos delete]
        exact scheduled_univ j _
      · rw [if_neg delete]
        exact ⟨j, rfl, rfl⟩
  · rw [if_neg first]
    cases chain with
    | nil => simp at at_k
    | cons head rest =>
        obtain ⟨before, rfl⟩ : ∃ before, k = before + 1 := ⟨k - 1, by omega⟩
        have later : selected ∈ rest := List.mem_of_getElem? (by simpa using at_k)
        have differs : head ≠ selected := fun same => by
          rw [same] at nodup
          exact (List.nodup_cons.mp nodup).1 later
        have found : (head :: rest).find? (· ≠ selected) = some head := by
          simp [differs]
        rw [found]
        exact scheduled_univ _ _

/-- Everything that adding an entry with a uid can do, in a universe with well linked
chains. -/
theorem addPackage_cases (j : CudfJobs) {entry : CudfEntry} (linked : j.univ.Linked)
    (named : entry.uid ≠ none) :
    (entry.chain j.univ ≠ none ∧ entry.version = none ∧ j.addPackage entry = .fault) ∨
    (entry.Known j.univ ∧ ∃ after, j.addPackage entry = .returned .ok after ∧
      after.univ = j.univ) ∨
    (¬entry.Known j.univ ∧ (entry.chain j.univ ≠ none → entry.version ≠ none) ∧
      ∃ after, j.addPackage entry = .returned .fatal after) := by
  obtain ⟨uid, isUid⟩ := Option.ne_none_iff_exists'.mp named
  cases isFound : j.univ.find (String.ofList uid) with
  | none =>
      have unknown : entry.chain j.univ = none := by
        simp [CudfEntry.chain, isUid, isFound]
      refine Or.inr (Or.inr ⟨?_, ?_, ?_⟩)
      · rintro ⟨chain, isChain, _⟩
        rw [unknown] at isChain
        cases isChain
      · intro known
        exact absurd unknown known
      · simp [addPackage, isUid, isFound, fail]
  | some it =>
      have entryMem := HashTable.mem_of_find isFound
      obtain ⟨head, rewinds, represented, _⟩ := linked.rewinds entryMem
      have isChain : entry.chain j.univ = some (j.univ.chain head) := by
        simp [CudfEntry.chain, isUid, isFound, rewinds]
      cases isVersion : entry.version with
      | none =>
          refine Or.inl ⟨?_, rfl, ?_⟩
          · simp [isChain]
          · simp [addPackage, isUid, isFound, isVersion]
      | some version =>
          rcases selectVersion_cases (toCInt (strtoul version)) (j.univ.chain head) 1 with
            ⟨k, selected, at_k, place, run⟩ | ⟨outside, last, run⟩
          · have inside := (List.getElem?_eq_some_iff.mp at_k).1
            refine Or.inr (Or.inl ⟨⟨_, isChain, version, isVersion, ?_, ?_⟩, ?_⟩)
            · omega
            · omega
            · obtain ⟨after, added, sameUniv⟩ := addSelected_ok j entry represented.nodup at_k
              refine ⟨after, ?_, sameUniv⟩
              simp only [addPackage, isUid, isFound, isVersion, rewinds, run, added]
          · refine Or.inr (Or.inr ⟨?_, ?_, ?_⟩)
            · rintro ⟨chain, member, other, isOther, low, high⟩
              rw [isChain] at member
              cases member
              rw [isVersion] at isOther
              cases isOther
              omega
            · simp
            · simp [addPackage, isUid, isFound, isVersion, rewinds, run, fail]

end CudfJobs

/-! ## Reading a stanza -/

/-- An entry after the lines of a body. -/
def CudfEntry.extend (cur : CudfEntry) (body : List CudfLine) : CudfEntry :=
  { cur with
    wasInstalled := cur.wasInstalled || CudfStanza.flag isWasInstalledLine body
    installed := cur.installed || CudfStanza.flag isInstalledLine body
    version := (CudfStanza.version body).or cur.version }

namespace CudfReader

theorem extend_nil (cur : CudfEntry) : cur.extend [] = cur := by
  simp [CudfEntry.extend, CudfStanza.flag, CudfStanza.version]

theorem field_ok {r : CudfReader} {line : CudfLine} {value : List Char}
    (change : List Char → CudfEntry → CudfEntry) (named : r.curPkg.uid ≠ none)
    (isValue : lineValue line = some value) :
    r.field line change = .ok { r with curPkg := change value r.curPkg } := by
  obtain ⟨uid, isUid⟩ := Option.ne_none_iff_exists'.mp named
  simp [field, isUid, isValue]

theorem field_fault {r : CudfReader} {line : CudfLine}
    (change : List Char → CudfEntry → CudfEntry) (named : r.curPkg.uid ≠ none)
    (bare : lineValue line = none) : r.field line change = .error .fault := by
  obtain ⟨uid, isUid⟩ := Option.ne_none_iff_exists'.mp named
  simp [field, isUid, bare]

/-- The last of a version line and the versions after it. -/
theorem version_cons (line : CudfLine) (rest : List CudfLine) {value : List Char}
    (isVersion : isVersionLine line = true) (isValue : lineValue line = some value)
    (values : ∀ later ∈ rest, isFieldLine later = true → lineValue later ≠ none) :
    CudfStanza.version (line :: rest) =
      (CudfStanza.version rest).or (some (cudfStrdup value)) := by
  unfold CudfStanza.version
  rw [List.filter_cons_of_pos isVersion]
  cases kept : rest.filter isVersionLine with
  | nil => simp [isValue]
  | cons first others =>
      obtain ⟨last, isLast⟩ : ∃ last, (first :: others).getLast? = some last :=
        ⟨_, List.getLast?_eq_getLast_of_ne_nil (by simp)⟩
      have member : last ∈ rest.filter isVersionLine := by
        rw [kept]
        exact List.mem_of_getLast? isLast
      obtain ⟨inRest, lastVersion⟩ := List.mem_filter.mp member
      have hasValue := values last inRest (by simp [isFieldLine, lastVersion])
      obtain ⟨text, isText⟩ := Option.ne_none_iff_exists'.mp hasValue
      rw [List.getLast?_cons_cons, isLast]
      simp [isText]

theorem version_cons_other (line : CudfLine) (rest : List CudfLine)
    (other : isVersionLine line = false) :
    CudfStanza.version (line :: rest) = CudfStanza.version rest := by
  simp [CudfStanza.version, other]

theorem flag_singleton (kind : CudfLine → Bool) (line : CudfLine) :
    CudfStanza.flag kind [line] = (kind line && (lineValue line).any isTrue) := by
  simp [CudfStanza.flag]

theorem flag_cons (kind : CudfLine → Bool) (line : CudfLine) (rest : List CudfLine) :
    CudfStanza.flag kind (line :: rest) =
      (CudfStanza.flag kind [line] || CudfStanza.flag kind rest) := by
  simp [CudfStanza.flag]

/-- What a line below a `package` line does, by its keyword. -/
theorem readLine_body {r : CudfReader} {line : CudfLine} (named : r.curPkg.uid ≠ none)
    (notPackage : isPackageLine line = false) :
    (isFieldLine line = true ∧ lineValue line = none ∧ r.readLine line = .error .fault) ∨
    ((isFieldLine line = true → lineValue line ≠ none) ∧
      r.readLine line = .ok { r with curPkg := r.curPkg.extend [line] }) := by
  have notPackage' : lineParam line ≠ some "package".toList :=
    isPackageLine_eq_false.mp notPackage
  by_cases version : lineParam line = some "version".toList
  · cases isValue : lineValue line with
    | none =>
        refine Or.inl ⟨by simp [isFieldLine, isVersionLine, version], rfl, ?_⟩
        simp only [readLine, if_neg notPackage', if_pos version, field_fault _ named isValue]
    | some value =>
        refine Or.inr ⟨by simp, ?_⟩
        simp only [readLine, if_neg notPackage', if_pos version, field_ok _ named isValue]
        simp [CudfEntry.extend, flag_singleton, CudfStanza.version, isVersionLine,
          isInstalledLine, isWasInstalledLine, version, isValue]
  by_cases installed : lineParam line = some "installed".toList
  · cases isValue : lineValue line with
    | none =>
        refine Or.inl ⟨by simp [isFieldLine, isInstalledLine, installed], rfl, ?_⟩
        simp only [readLine, if_neg notPackage', if_neg version, if_pos installed,
          field_fault _ named isValue]
    | some value =>
        refine Or.inr ⟨by simp, ?_⟩
        simp only [readLine, if_neg notPackage', if_neg version, if_pos installed,
          field_ok _ named isValue]
        simp [CudfEntry.extend, flag_singleton, CudfStanza.version, isVersionLine,
          isInstalledLine, isWasInstalledLine, installed, isValue]
  by_cases wasInstalled : lineParam line = some "was-installed".toList
  · cases isValue : lineValue line with
    | none =>
        refine Or.inl ⟨by simp [isFieldLine, isWasInstalledLine, wasInstalled], rfl, ?_⟩
        simp only [readLine, if_neg notPackage', if_neg version, if_neg installed,
          if_pos wasInstalled, field_fault _ named isValue]
    | some value =>
        refine Or.inr ⟨by simp, ?_⟩
        simp only [readLine, if_neg notPackage', if_neg version, if_neg installed,
          if_pos wasInstalled, field_ok _ named isValue]
        simp [CudfEntry.extend, flag_singleton, CudfStanza.version, isVersionLine,
          isInstalledLine, isWasInstalledLine, wasInstalled, isValue]
  · refine Or.inr ⟨?_, ?_⟩
    · simp only [String.reduceToList] at version installed wasInstalled
      simp [isFieldLine, isVersionLine, isInstalledLine, isWasInstalledLine, version, installed,
        wasInstalled]
    · simp only [readLine, if_neg notPackage', if_neg version, if_neg installed,
        if_neg wasInstalled]
      simp only [String.reduceToList] at version installed wasInstalled
      simp [CudfEntry.extend, flag_singleton, CudfStanza.version, isVersionLine,
        isInstalledLine, isWasInstalledLine, version, installed, wasInstalled]

theorem extend_extend (cur : CudfEntry) (line : CudfLine) (rest : List CudfLine)
    (value : isFieldLine line = true → lineValue line ≠ none)
    (values : ∀ later ∈ rest, isFieldLine later = true → lineValue later ≠ none) :
    (cur.extend [line]).extend rest = cur.extend (line :: rest) := by
  have versions : (CudfStanza.version rest).or
      ((CudfStanza.version [line]).or cur.version) =
        (CudfStanza.version (line :: rest)).or cur.version := by
    cases isVersion : isVersionLine line with
    | false => rw [version_cons_other line rest isVersion, version_cons_other line [] isVersion]; rfl
    | true =>
        obtain ⟨text, isText⟩ :=
          Option.ne_none_iff_exists'.mp (value (by simp [isFieldLine, isVersion]))
        have nothing : CudfStanza.version [] = none := rfl
        rw [version_cons line rest isVersion isText values,
          version_cons line [] isVersion isText (by simp), nothing, Option.none_or,
          Option.or_assoc]
  simp only [CudfEntry.extend, flag_cons _ line rest, versions, Bool.or_assoc]

/-- Reading lines that open no stanza, within one: every field line must have its value. -/
theorem readLines_body {r : CudfReader} (body rest : List CudfLine)
    (named : r.curPkg.uid ≠ none) (noPackage : ∀ line ∈ body, isPackageLine line = false) :
    ((∃ line ∈ body, isFieldLine line = true ∧ lineValue line = none) ∧
      r.readLines (body ++ rest) = .error .fault) ∨
    ((∀ line ∈ body, isFieldLine line = true → lineValue line ≠ none) ∧
      r.readLines (body ++ rest) =
        { r with curPkg := r.curPkg.extend body : CudfReader }.readLines rest) := by
  induction body generalizing r with
  | nil => exact Or.inr ⟨by simp, by rw [extend_nil]; rfl⟩
  | cons line body ih =>
      rcases readLine_body (r := r) named (noPackage line (by simp)) with
        ⟨isField, bare, run⟩ | ⟨value, run⟩
      · refine Or.inl ⟨⟨line, by simp, isField, bare⟩, ?_⟩
        rw [List.cons_append, readLines, run]
      · have noPackage' : ∀ later ∈ body, isPackageLine later = false :=
          fun later member => noPackage later (List.mem_cons_of_mem _ member)
        rcases ih (r := { r with curPkg := r.curPkg.extend [line] }) named noPackage' with
          ⟨⟨later, member, isField, bare⟩, faults⟩ | ⟨values, goesOn⟩
        · refine Or.inl ⟨⟨later, List.mem_cons_of_mem _ member, isField, bare⟩, ?_⟩
          rw [List.cons_append, readLines, run]
          exact faults
        · refine Or.inr ⟨?_, ?_⟩
          · intro later member
            rcases List.mem_cons.mp member with rfl | member
            · exact value
            · exact values later member
          · rw [List.cons_append, readLines, run]
            simp only
            rw [goesOn, extend_extend _ _ _ value values]

/-- Reading lines before the first `package` line: a field line is refused. -/
theorem readLines_preamble {r : CudfReader} (lines rest : List CudfLine)
    (unnamed : r.curPkg.uid = none) (noPackage : ∀ line ∈ lines, isPackageLine line = false) :
    ((∃ line ∈ lines, isFieldLine line = true) ∧
      ∃ final, r.readLines (lines ++ rest) = .error (.returned .fatal final)) ∨
    ((∀ line ∈ lines, isFieldLine line = false) ∧
      r.readLines (lines ++ rest) = r.readLines rest) := by
  induction lines with
  | nil => exact Or.inr ⟨by simp, rfl⟩
  | cons line lines ih =>
      have notPackage : lineParam line ≠ some "package".toList :=
        isPackageLine_eq_false.mp (noPackage line (by simp))
      cases isField : isFieldLine line with
      | true =>
          have refused : ∃ final, r.readLine line = .error (.returned .fatal final) := by
            simp only [isFieldLine, Bool.or_eq_true, isVersionLine, isInstalledLine,
              isWasInstalledLine, decide_eq_true_eq] at isField
            rw [readLine, if_neg notPackage]
            split
            · exact ⟨_, by simp [field, unnamed]; rfl⟩
            split
            · exact ⟨_, by simp [field, unnamed]; rfl⟩
            split
            · exact ⟨_, by simp [field, unnamed]; rfl⟩
            · rename_i notVersion notInstalled notWas
              rcases isField with (version | installed) | was
              · exact absurd version notVersion
              · exact absurd installed notInstalled
              · exact absurd was notWas
          obtain ⟨final, refused⟩ := refused
          refine Or.inl ⟨⟨line, by simp, isField⟩, final, ?_⟩
          rw [List.cons_append, readLines, refused]
      | false =>
          have skipped : r.readLine line = .ok r := by
            simp only [isFieldLine, Bool.or_eq_false_iff, isVersionLine, isInstalledLine,
              isWasInstalledLine, decide_eq_false_iff_not] at isField
            obtain ⟨⟨notVersion, notInstalled⟩, notWas⟩ := isField
            rw [readLine, if_neg notPackage, if_neg notVersion, if_neg notInstalled, if_neg notWas]
          rcases ih (fun later member => noPackage later (List.mem_cons_of_mem _ member)) with
            ⟨⟨later, member, laterField⟩, run⟩ | ⟨noField, run⟩
          · refine Or.inl ⟨⟨later, List.mem_cons_of_mem _ member, laterField⟩, ?_⟩
            rw [List.cons_append, readLines, skipped]
            exact run
          · refine Or.inr ⟨?_, ?_⟩
            · intro later member
              rcases List.mem_cons.mp member with rfl | member
              · exact isField
              · exact noField later member
            · rw [List.cons_append, readLines, skipped]
              exact run

end CudfReader

/-! ## The stanzas of a text -/

def CudfStanza.lines (stanza : CudfStanza) : List CudfLine := stanza.head :: stanza.body

structure CudfStanza.Opened (stanza : CudfStanza) : Prop where
  head : isPackageLine stanza.head = true
  body : ∀ line ∈ stanza.body, isPackageLine line = false

theorem preamble_noPackage (lines : List CudfLine) :
    ∀ line ∈ preamble lines, isPackageLine line = false := by
  intro line member
  simpa using List.mem_takeWhile_imp member

theorem opened_of_mem_stanzas {lines : List CudfLine} {stanza : CudfStanza}
    (member : stanza ∈ stanzas lines) : stanza.Opened := by
  induction lines with
  | nil => simp [stanzas] at member
  | cons line rest ih =>
      by_cases isPackage : isPackageLine line = true
      · rw [stanzas, if_pos isPackage] at member
        rcases List.mem_cons.mp member with rfl | member
        · exact ⟨isPackage, preamble_noPackage rest⟩
        · exact ih member
      · rw [stanzas, if_neg isPackage] at member
        exact ih member

/-- A text is its preamble and its stanzas. -/
theorem lines_eq (lines : List CudfLine) :
    lines = preamble lines ++ (stanzas lines).flatMap CudfStanza.lines := by
  induction lines with
  | nil => rfl
  | cons line rest ih =>
      by_cases isPackage : isPackageLine line = true
      · rw [stanzas, if_pos isPackage]
        simp only [preamble, List.takeWhile_cons, isPackage, Bool.not_true, Bool.false_eq_true,
          if_false, List.nil_append, List.flatMap_cons, CudfStanza.lines, List.cons_append]
        exact congrArg (line :: ·) ih
      · rw [stanzas, if_neg isPackage]
        simp only [preamble, List.takeWhile_cons, isPackage, Bool.not_false, if_true,
          List.cons_append]
        exact congrArg (line :: ·) ih

/-- The stanzas added one by one, each after its lines have been read. -/
def CudfJobs.processStanzas (j : CudfJobs) : List CudfStanza → CudfResult
  | [] => .returned .ok j
  | stanza :: rest =>
      if stanza.HasValues then
        match j.addPackage stanza.entry with
        | .returned .ok j => j.processStanzas rest
        | result => result
      else .fault

/-- The rest of a call, from a state of the loop on. -/
def CudfReader.finish (r : CudfReader) (lines : List CudfLine) : CudfResult :=
  match r.readLines lines with
  | .error result => result
  | .ok r =>
      match r.closeStanza with
      | .error result => result
      | .ok r => .returned .ok r.j

theorem pkgJobsCudfParseOutput_eq (j : CudfJobs) (file : List Char) :
    pkgJobsCudfParseOutput j file =
      CudfReader.finish { j := j } ((getlines file).map uptoNul) := rfl

theorem entry_eq_extend (stanza : CudfStanza) {value : List Char}
    (isValue : lineValue stanza.head = some value) :
    stanza.entry = ({ uid := some (cudfStrdup value) } : CudfEntry).extend stanza.body := by
  simp [CudfStanza.entry, CudfEntry.extend, isValue]

/-- The lines of a stanza, read where the entry before it has been added. -/
theorem readLines_stanza {r closed : CudfReader} {stanza : CudfStanza} (later : List CudfLine)
    (opened : stanza.Opened) (closes : r.closeStanza = .ok closed) :
    (¬stanza.HasValues ∧ r.readLines (stanza.lines ++ later) = .error .fault) ∨
    (stanza.HasValues ∧ r.readLines (stanza.lines ++ later) =
      { closed with curPkg := stanza.entry : CudfReader }.readLines later) := by
  have isPackage : lineParam stanza.head = some "package".toList :=
    isPackageLine_eq_true.mp opened.head
  rw [CudfStanza.lines, List.cons_append, CudfReader.readLines]
  cases isValue : lineValue stanza.head with
  | none =>
      refine Or.inl ⟨fun values => values.1 isValue, ?_⟩
      simp only [CudfReader.readLine, if_pos isPackage, closes, isValue]
  | some value =>
      have opens : r.readLine stanza.head =
          .ok { closed with curPkg := { uid := some (cudfStrdup value) } } := by
        simp only [CudfReader.readLine, if_pos isPackage, closes, isValue]
      rw [opens]
      simp only
      rcases CudfReader.readLines_body stanza.body later
          (r := { closed with curPkg := { uid := some (cudfStrdup value) } }) (by simp)
          opened.body with ⟨⟨line, member, isField, bare⟩, faults⟩ | ⟨values, goesOn⟩
      · exact Or.inl ⟨fun hasValues => hasValues.2 line member isField bare, faults⟩
      · refine Or.inr ⟨⟨?_, values⟩, ?_⟩
        · rw [isValue]
          exact Option.some_ne_none value
        · rw [goesOn, entry_eq_extend stanza isValue]

theorem closeStanza_named {r : CudfReader} (named : r.curPkg.uid ≠ none) :
    r.closeStanza =
      match r.j.addPackage r.curPkg with
      | .fault => .error .fault
      | .returned .ok j => .ok { r with j := j }
      | .returned _ j => .error (.returned .fatal j) := by
  unfold CudfReader.closeStanza
  split
  · next isNone => exact absurd isNone named
  · rfl

/-- Where the entry before cannot be added, the call ends at once. -/
theorem finish_of_not_closed {r : CudfReader} {list : List CudfStanza} {result : CudfResult}
    (opened : ∀ stanza ∈ list, stanza.Opened) (closes : r.closeStanza = .error result) :
    r.finish (list.flatMap CudfStanza.lines) = result := by
  cases list with
  | nil => simp [CudfReader.finish, CudfReader.readLines, closes]
  | cons stanza rest =>
      have isPackage : lineParam stanza.head = some "package".toList :=
        isPackageLine_eq_true.mp (opened stanza (by simp)).head
      have refuses : r.readLine stanza.head = .error result := by
        simp only [CudfReader.readLine, if_pos isPackage, closes]
      simp only [List.flatMap_cons, CudfStanza.lines, List.cons_append, CudfReader.finish,
        CudfReader.readLines, refuses]

/-- The loop from the state after the lines of one stanza on, by induction on the stanzas
that follow. -/
theorem finish_stanzas (list : List CudfStanza) {r : CudfReader}
    (opened : ∀ stanza ∈ list, stanza.Opened) (named : r.curPkg.uid ≠ none)
    (linked : r.j.univ.Linked) :
    r.finish (list.flatMap CudfStanza.lines) =
      match r.j.addPackage r.curPkg with
      | .returned .ok j => j.processStanzas list
      | result => result := by
  induction list generalizing r with
  | nil =>
      rw [List.flatMap_nil, CudfReader.finish, CudfReader.readLines]
      simp only
      rw [closeStanza_named named]
      rcases CudfJobs.addPackage_cases r.j linked named with
        ⟨_, _, run⟩ | ⟨_, after, run, _⟩ | ⟨_, _, after, run⟩
      · rw [run]
      · rw [run]
        rfl
      · rw [run]
  | cons stanza rest ih =>
      have closes := closeStanza_named named
      rcases CudfJobs.addPackage_cases r.j linked named with
        ⟨_, _, run⟩ | ⟨_, after, run, sameUniv⟩ | ⟨_, _, after, run⟩
      · rw [run] at closes ⊢
        exact finish_of_not_closed opened closes
      · rw [run] at closes ⊢
        simp only at closes ⊢
        rw [CudfJobs.processStanzas]
        rcases readLines_stanza (rest.flatMap CudfStanza.lines) (opened stanza (by simp)) closes
          with ⟨lacking, faults⟩ | ⟨values, goesOn⟩
        · rw [if_neg lacking, List.flatMap_cons, CudfReader.finish, faults]
        · have named' : stanza.entry.uid ≠ none := by
            obtain ⟨value, isValue⟩ := Option.ne_none_iff_exists'.mp values.1
            simp [CudfStanza.entry, isValue]
          have linked' : after.univ.Linked := sameUniv ▸ linked
          have goes := ih (r := { j := after, curPkg := stanza.entry })
            (fun other member => opened other (List.mem_cons_of_mem _ member)) named' linked'
          rw [if_pos values, List.flatMap_cons, CudfReader.finish, goesOn]
          exact goes
      · rw [run] at closes ⊢
        exact finish_of_not_closed opened closes

/-- A call without field lines in the preamble processes the stanzas. -/
theorem finish_eq_processStanzas {j : CudfJobs} {lines : List CudfLine}
    (linked : j.univ.Linked) (plain : ∀ line ∈ preamble lines, isFieldLine line = false) :
    CudfReader.finish { j := j } lines = j.processStanzas (stanzas lines) := by
  have skips : CudfReader.finish { j := j } lines =
      CudfReader.finish { j := j } ((stanzas lines).flatMap CudfStanza.lines) := by
    conv_lhs => rw [lines_eq lines]
    rcases CudfReader.readLines_preamble (r := { j := j }) (preamble lines)
        ((stanzas lines).flatMap CudfStanza.lines) rfl (preamble_noPackage lines) with
      ⟨⟨line, member, isField⟩, _⟩ | ⟨_, run⟩
    · rw [plain line member] at isField
      cases isField
    · rw [CudfReader.finish, run]
      rfl
  rw [skips]
  have opened : ∀ stanza ∈ stanzas lines, stanza.Opened := fun _ => opened_of_mem_stanzas
  cases split : stanzas lines with
  | nil => rfl
  | cons stanza rest =>
      rw [split] at opened
      have closes : CudfReader.closeStanza { j := j } = .ok { j := j } := rfl
      rw [CudfJobs.processStanzas, List.flatMap_cons, CudfReader.finish]
      rcases readLines_stanza (rest.flatMap CudfStanza.lines) (opened stanza (by simp)) closes
        with ⟨lacking, faults⟩ | ⟨values, goesOn⟩
      · rw [if_neg lacking, faults]
      · have named : stanza.entry.uid ≠ none := by
          obtain ⟨value, isValue⟩ := Option.ne_none_iff_exists'.mp values.1
          simp [CudfStanza.entry, isValue]
        rw [if_pos values, goesOn]
        exact finish_stanzas rest (r := { j := j, curPkg := stanza.entry })
          (fun other member => opened other (List.mem_cons_of_mem _ member)) named linked

/-! ## The condition -/

/-- Processing faults, or it ends as adding the entries does. -/
theorem processStanzas_cases (j : CudfJobs) (list : List CudfStanza) (linked : j.univ.Linked) :
    (j.processStanzas list = .fault ∧
      ∃ before stanza after, list = before ++ stanza :: after ∧
        (∀ earlier ∈ before, earlier.entry.Known j.univ) ∧
          (stanza.HasValues →
            stanza.entry.chain j.univ ≠ none ∧ stanza.entry.version = none)) ∨
    ((∃ final, j.processStanzas list = .returned .fatal final ∨
        (j.processStanzas list = .returned .ok final ∧
          j.addStanzas (list.map CudfStanza.entry) = .returned .ok final)) ∧
      ∀ before stanza after, list = before ++ stanza :: after →
        (∀ earlier ∈ before, earlier.entry.Known j.univ) →
          stanza.HasValues ∧ (stanza.entry.chain j.univ ≠ none → stanza.entry.version ≠ none)) := by
  induction list generalizing j with
  | nil =>
      refine Or.inr ⟨⟨j, Or.inr ⟨rfl, rfl⟩⟩, ?_⟩
      intro before stanza after split
      simp at split
  | cons first rest ih =>
      rw [CudfJobs.processStanzas]
      by_cases values : first.HasValues
      · have named : first.entry.uid ≠ none := by
          obtain ⟨value, isValue⟩ := Option.ne_none_iff_exists'.mp values.1
          simp [CudfStanza.entry, isValue]
        rw [if_pos values]
        rcases CudfJobs.addPackage_cases j linked named with
          ⟨known, noVersion, run⟩ | ⟨known, next, run, sameUniv⟩ | ⟨unknown, versioned, next, run⟩
        · rw [run]
          exact Or.inl ⟨rfl, [], first, rest, rfl, by simp, fun _ => ⟨known, noVersion⟩⟩
        · rw [run]
          simp only
          rcases ih next (sameUniv ▸ linked) with
            ⟨faults, before, stanza, after, split, earlier, lacking⟩ | ⟨⟨final, ends⟩, complete⟩
          · refine Or.inl ⟨faults, first :: before, stanza, after, by rw [split]; rfl, ?_, ?_⟩
            · intro other member
              rcases List.mem_cons.mp member with rfl | member
              · exact known
              · exact sameUniv ▸ earlier other member
            · exact sameUniv ▸ lacking
          · refine Or.inr ⟨⟨final, ?_⟩, ?_⟩
            · rcases ends with refused | ⟨accepted, added⟩
              · exact Or.inl refused
              · refine Or.inr ⟨accepted, ?_⟩
                rw [List.map_cons, CudfJobs.addStanzas, run]
                exact added
            · intro before stanza after split earlier
              cases before with
              | nil =>
                  cases split
                  refine ⟨values, fun _ => ?_⟩
                  obtain ⟨_, _, version, isVersion, _⟩ := known
                  rw [isVersion]
                  exact Option.some_ne_none version
              | cons head before =>
                  obtain ⟨rfl, restSplit⟩ := List.cons.inj split
                  have later := complete before stanza after restSplit
                  rw [sameUniv] at later
                  exact later fun other member => earlier other (List.mem_cons_of_mem _ member)
        · rw [run]
          refine Or.inr ⟨⟨next, Or.inl rfl⟩, ?_⟩
          intro before stanza after split earlier
          cases before with
          | nil =>
              cases split
              exact ⟨values, versioned⟩
          | cons head before =>
              obtain ⟨rfl, _⟩ := List.cons.inj split
              exact absurd (earlier _ (by simp)) unknown
      · rw [if_neg values]
        exact Or.inl ⟨rfl, [], first, rest, rfl, by simp, fun hasValues => absurd hasValues values⟩

/-- The claim on one call: it refuses the text, or each stanza has been added. -/
def ParsesSafely (j : CudfJobs) (file : List Char) : Prop :=
  (∃ final, pkgJobsCudfParseOutput j file = .returned .fatal final) ∨
    ∃ final, pkgJobsCudfParseOutput j file = .returned .ok final ∧
      j.addStanzas ((stanzas ((getlines file).map uptoNul)).map CudfStanza.entry) =
        .returned .ok final

/-- A field line stands before the first `package` line, or every stanza that follows on
known ones has its values, and a version if its uid is known. -/
def NothingMissing (u : JobsUniverse) (lines : List CudfLine) : Prop :=
  (∃ line ∈ preamble lines, isFieldLine line = true) ∨
    ∀ before stanza after, stanzas lines = before ++ stanza :: after →
      (∀ earlier ∈ before, earlier.entry.Known u) →
        stanza.HasValues ∧ (stanza.entry.chain u ≠ none → stanza.entry.version ≠ none)

/-- An answer is read safely exactly when nothing is missing in the stanzas it reaches. -/
theorem cudfParse_safe_iff (j : CudfJobs) (file : List Char) (linked : j.univ.Linked) :
    ParsesSafely j file ↔ NothingMissing j.univ ((getlines file).map uptoNul) := by
  unfold ParsesSafely NothingMissing
  rw [pkgJobsCudfParseOutput_eq]
  generalize (getlines file).map uptoNul = lines
  by_cases inPreamble : ∃ line ∈ preamble lines, isFieldLine line = true
  · refine ⟨fun _ => Or.inl inPreamble, fun _ => Or.inl ?_⟩
    rcases CudfReader.readLines_preamble (r := { j := j }) (preamble lines)
        ((stanzas lines).flatMap CudfStanza.lines) rfl (preamble_noPackage lines) with
      ⟨_, final, refused⟩ | ⟨plain, _⟩
    · rw [← lines_eq lines] at refused
      exact ⟨final, by rw [CudfReader.finish, refused]⟩
    · obtain ⟨line, member, isField⟩ := inPreamble
      rw [plain line member] at isField
      cases isField
  · have plain : ∀ line ∈ preamble lines, isFieldLine line = false := fun line member => by
      cases isField : isFieldLine line with
      | false => rfl
      | true => exact absurd ⟨line, member, isField⟩ inPreamble
    rw [finish_eq_processStanzas linked plain]
    rcases processStanzas_cases j (stanzas lines) linked with
      ⟨faults, before, stanza, after, split, earlier, lacking⟩ | ⟨⟨final, ends⟩, complete⟩
    · rw [faults]
      constructor
      · rintro (⟨final, impossible⟩ | ⟨final, impossible, _⟩) <;> cases impossible
      · rintro (there | complete)
        · exact absurd there inPreamble
        · obtain ⟨values, versioned⟩ := complete before stanza after split earlier
          obtain ⟨known, noVersion⟩ := lacking values
          exact absurd noVersion (versioned known)
    · refine ⟨fun _ => Or.inr complete, fun _ => ?_⟩
      rcases ends with refused | accepted
      · exact Or.inl ⟨final, refused⟩
      · exact Or.inr ⟨final, accepted⟩

/-- Jobs over a universe with one package. -/
def onePackageJobs : CudfJobs where
  univ := JobsUniverse.ofPackages (fun _ => some "sum") [{ type := .remote, uid := "a" }]

theorem cudfParse_safe_onePackage :
    onePackageJobs.univ.Linked ∧
      (ParsesSafely onePackageJobs "package: a\nversion: 1\n".toList ↔
        NothingMissing onePackageJobs.univ
          ((getlines "package: a\nversion: 1\n".toList).map uptoNul)) :=
  ⟨(JobsUniverse.repInv_ofPackages _ _).toLinked,
    cudfParse_safe_iff _ _ (JobsUniverse.repInv_ofPackages _ _).toLinked⟩

/-- A stanza without a version line, of a package that the universe has. -/
theorem cudfParse_missingVersion :
    ¬ ∀ (j : CudfJobs) (file : List Char), j.univ.Linked → ParsesSafely j file := by
  intro safe
  have onSample := safe onePackageJobs "package: a\ninstalled: true\n".toList
    (JobsUniverse.repInv_ofPackages _ _).toLinked
  have faults : pkgJobsCudfParseOutput onePackageJobs "package: a\ninstalled: true\n".toList =
      .fault := by rfl
  unfold ParsesSafely at onSample
  rw [faults] at onSample
  rcases onSample with ⟨final, impossible⟩ | ⟨final, impossible, _⟩ <;> cases impossible

end Pkgng
