import Pkgng.Audit.Document
import Pkgng.Lib.MarkedSearch

/-!
# The command `pkg audit`

`exec_audit` from the document to what is printed: every installed package that the document marks
is reported once, and with `-r` the packages that depend on it, in spite of cycles among them.
-/

set_option autoImplicit false

namespace Pkgng

open Lib

/-! ## The packages -/

/-- `struct pkg_check_entry`; a reverse dependency has a name and an origin. -/
structure CheckedPkg where
  name : AuditText
  version : Option AuditText := none
  uniqueid : AuditText
  rdeps : List (AuditText × AuditText) := []
deriving DecidableEq

/-- `uidbuf`, which has 1024 bytes. -/
def uidbuf (dep : AuditText × AuditText) : AuditText :=
  (dep.1 ++ "~".toList ++ dep.2).take 1023

/-- `HASH_FIND` among the packages that are checked. -/
def findChecked (check : List CheckedPkg) (dep : AuditText × AuditText) : Option CheckedPkg :=
  check.find? (·.uniqueid = uidbuf dep)

/-- `seen` and `sb`. -/
structure RdepsState where
  seen : List AuditText := []
  sb : AuditText
deriving DecidableEq

/-- The loop of `print_recursive_rdeps`. -/
def printRdeps (check : List CheckedPkg)
    (self : CheckedPkg → Bool → RdepsState → Option RdepsState) :
    List (AuditText × AuditText) → Bool → RdepsState → Option RdepsState
  | [], _, st => some st
  | dep :: rest, top, st =>
      if st.seen.contains dep.1 then printRdeps check self rest top st
      else
        match findChecked check dep with
        | none => printRdeps check self rest top st
        | some r =>
            let sb := (if top then st.sb else st.sb ++ ", ".toList) ++ dep.1
            (self r false { seen := st.seen ++ [dep.1], sb }).bind
              (printRdeps check self rest false)

def printRecursiveRdeps (check : List CheckedPkg) :
    Nat → CheckedPkg → Bool → RdepsState → Option RdepsState
  | 0, _, _, _ => none
  | depth + 1, p, top, st => printRdeps check (printRecursiveRdeps check depth) p.rdeps top st

/-- What is printed so far. -/
structure AuditOutput where
  vuln : Nat := 0
  out : List AuditText := []
deriving DecidableEq

/-- The depth that the names of the reverse dependencies allow. -/
def rdepsDepth (check : List CheckedPkg) : Nat := (check.flatMap CheckedPkg.rdeps).length + 1

def dependsHeading (name : AuditText) : AuditText :=
  "Packages that depend on ".toList ++ name ++ ": ".toList

/-- The body of the loop over the packages. -/
def auditPkg (items : List AuditItem) (quiet recursive : Bool) (check : List CheckedPkg)
    (cur : CheckedPkg) (output : AuditOutput) : Option AuditOutput := do
  let report ← pkgAuditIsVulnerable cur.name cur.version quiet items
  if report.res then
    if recursive then
      let sb := report.sb ++ dependsHeading cur.name
      let st ← printRecursiveRdeps check (rdepsDepth check) cur true { sb }
      some { vuln := output.vuln + 1, out := output.out ++ [report.sb, st.sb ++ "\n".toList] }
    else some { vuln := output.vuln + 1, out := output.out ++ [report.sb] }
  else some output

def auditPkgs (items : List AuditItem) (quiet recursive : Bool) (check : List CheckedPkg) :
    List CheckedPkg → AuditOutput → Option AuditOutput
  | [], output => some output
  | cur :: rest, output =>
      (auditPkg items quiet recursive check cur output).bind
        (auditPkgs items quiet recursive check rest)

def problemsFound (vuln : Nat) : AuditText :=
  (toString vuln).toList ++ " problem(s) in the installed packages found.\n".toList

/-- The end of `exec_audit`, from `pkg_audit_process` on, for a document that can be parsed: what
is printed and the exit code. -/
def execAudit (qsort : List AuditItem → List AuditItem) (events : List VulnxmlEvent)
    (quiet recursive : Bool) (check : List CheckedPkg) : Option (List AuditText × Nat) := do
  let entries := (events.foldl handlePieces {}).entries
  let items ← pkgAuditPreprocess entries (qsort (auditItems entries))
  let output ← auditPkgs items quiet recursive check check {}
  some (if quiet then output.out else output.out ++ [problemsFound output.vuln],
    if output.vuln = 0 then 0 else 1)

/-! ## The dependents -/

section Dependents

variable {check : List CheckedPkg}

/-- The package `name` depends on `p`, directly or through others that are checked. -/
def DependsOn (check : List CheckedPkg) (p : CheckedPkg) (name : AuditText) : Prop :=
  ∃ dep, Found CheckedPkg.rdeps (findChecked check) p dep ∧ dep.1 = name

/-- The names behind what is printed already. -/
def listedNames (top : Bool) (names : List AuditText) : AuditText :=
  if top then (", ".toList).intercalate names else names.flatMap fun name => ", ".toList ++ name

theorem listedNames_nil (top : Bool) : listedNames top [] = [] := by
  cases top with
  | _ => rfl

theorem listedNames_append (names more : List AuditText) :
    listedNames false (names ++ more) = listedNames false names ++ listedNames false more :=
  List.flatMap_append

theorem listedNames_cons (top : Bool) (name : AuditText) (rest : List AuditText) :
    listedNames top (name :: rest) =
      (if top then name else ", ".toList ++ name) ++ listedNames false rest := by
  cases top with
  | false => rfl
  | true =>
      induction rest generalizing name with
      | nil => simp [listedNames, List.intercalate]
      | cons second rest ih =>
          have more := ih second
          rw [listedNames, if_pos rfl, if_pos rfl] at more ⊢
          rw [List.intercalate, List.intersperse_cons_cons, List.flatten_cons, List.flatten_cons]
          rw [List.intercalate] at more
          rw [more, listedNames, listedNames, List.flatMap_cons]
          simp

theorem markedEdges_grows {search : CheckedPkg → List AuditText → Option (List AuditText)}
    (grows : ∀ p seen seen', search p seen = some seen' → ∃ new, seen' = seen ++ new)
    {deps : List (AuditText × AuditText)} {seen seen' : List AuditText}
    (ran : markedEdges Prod.fst (findChecked check) search deps seen = some seen') :
    ∃ new, seen' = seen ++ new := by
  induction deps generalizing seen with
  | nil =>
      cases ran
      exact ⟨[], (List.append_nil _).symm⟩
  | cons dep rest ih =>
      rw [markedEdges] at ran
      split at ran
      · exact ih ran
      · split at ran
        · exact ih ran
        · obtain ⟨between, below, later⟩ := Option.bind_eq_some_iff.mp ran
          obtain ⟨new, rfl⟩ := grows _ _ _ below
          obtain ⟨more, rfl⟩ := ih later
          exact ⟨dep.1 :: new ++ more, by simp⟩

/-- The text lists the marks of the search. -/
theorem printRdeps_eq {self : CheckedPkg → Bool → RdepsState → Option RdepsState}
    {search : CheckedPkg → List AuditText → Option (List AuditText)}
    (grows : ∀ p seen seen', search p seen = some seen' → ∃ new, seen' = seen ++ new)
    (same : ∀ p st, self p false st = (search p st.seen).map fun seen' =>
      { seen := seen', sb := st.sb ++ listedNames false (seen'.drop st.seen.length) })
    (deps : List (AuditText × AuditText)) (top : Bool) (st : RdepsState) :
    printRdeps check self deps top st =
      (markedEdges Prod.fst (findChecked check) search deps st.seen).map fun seen' =>
        { seen := seen', sb := st.sb ++ listedNames top (seen'.drop st.seen.length) } := by
  induction deps generalizing top st with
  | nil => simp [printRdeps, markedEdges, listedNames_nil]
  | cons dep rest ih =>
      rw [printRdeps, markedEdges]
      by_cases old : dep.1 ∈ st.seen
      · rw [if_pos (List.contains_iff_mem.2 old), if_pos old]
        exact ih top st
      · rw [if_neg (mt List.contains_iff_mem.1 old), if_neg old]
        cases findChecked check dep with
        | none => exact ih top st
        | some r =>
            dsimp only
            rw [same]
            cases below : search r (st.seen ++ [dep.1]) with
            | none => rfl
            | some between =>
                obtain ⟨new, rfl⟩ := grows _ _ _ below
                rw [Option.map_some, Option.bind_some, Option.bind_some, ih]
                cases later : markedEdges Prod.fst (findChecked check) search rest
                    (st.seen ++ [dep.1] ++ new) with
                | none => rfl
                | some seen' =>
                    obtain ⟨more, rfl⟩ := markedEdges_grows grows later
                    have first : (st.seen ++ [dep.1] ++ new).drop (st.seen ++ [dep.1]).length =
                        new := List.drop_left
                    have second : (st.seen ++ [dep.1] ++ new ++ more).drop
                        (st.seen ++ [dep.1] ++ new).length = more := List.drop_left
                    have whole : (st.seen ++ [dep.1] ++ new ++ more).drop st.seen.length =
                        dep.1 :: (new ++ more) := by simp [List.append_assoc]
                    rw [Option.map_some, Option.map_some]
                    dsimp only
                    rw [first, second, whole, listedNames_cons, listedNames_append]
                    cases top with
                    | _ => simp [List.append_assoc]

theorem printRecursiveRdeps_eq (depth : Nat) (p : CheckedPkg) (top : Bool) (st : RdepsState) :
    printRecursiveRdeps check depth p top st =
      (markedSearch CheckedPkg.rdeps Prod.fst (findChecked check) depth p st.seen).map fun seen' =>
        { seen := seen', sb := st.sb ++ listedNames top (seen'.drop st.seen.length) } := by
  induction depth generalizing p top st with
  | zero => rfl
  | succ depth ih =>
      exact printRdeps_eq (fun _ _ _ ran => (markedSearch_adds ran).1.grows)
        (fun p st => ih p false st)
        p.rdeps top st

/-- The names that `-r` prints for a package: each once, all of them dependents, and all of these
where a name has one origin. -/
structure Dependents (check : List CheckedPkg) (p : CheckedPkg) (names : List AuditText) :
    Prop where
  nodup : names.Nodup
  sound : ∀ name ∈ names, DependsOn check p name
  complete : (∀ a ∈ check, ∀ b ∈ check, ∀ dep ∈ a.rdeps, ∀ dep' ∈ b.rdeps,
    dep.1 = dep'.1 → dep.2 = dep'.2) → ∀ name, DependsOn check p name → name ∈ names

theorem reached_checked {p a : CheckedPkg} (listed : p ∈ check)
    (path : Relation.ReflTransGen (Leads CheckedPkg.rdeps (findChecked check)) p a) :
    a ∈ check := by
  cases path with
  | refl => exact listed
  | tail _ step =>
      obtain ⟨dep, _, found⟩ := step
      exact List.mem_of_find?_eq_some found

/-- `print_recursive_rdeps` ends, and lists the dependents. -/
theorem printRecursiveRdeps_spec {p : CheckedPkg} (listed : p ∈ check) (sb : AuditText) :
    ∃ names, Dependents check p names ∧
      printRecursiveRdeps check (rdepsDepth check) p true { sb } =
        some { seen := names, sb := sb ++ (", ".toList).intercalate names } := by
  have closed : ∀ dep b, findChecked check dep = some b → b ∈ check := fun dep b found =>
    List.mem_of_find?_eq_some found
  obtain ⟨names, ran⟩ : ∃ names, markedSearch CheckedPkg.rdeps Prod.fst (findChecked check)
      (rdepsDepth check) p [] = some names := by
    have named : ∀ a, a ∈ check → ∀ dep ∈ a.rdeps, (findChecked check dep).isSome = true →
        dep.1 ∈ (check.flatMap CheckedPkg.rdeps).map Prod.fst := fun a inCheck dep inRdeps _ =>
      List.mem_map_of_mem (List.mem_flatMap.mpr ⟨a, inCheck, inRdeps⟩)
    refine markedSearch_ends closed named listed
      (Nat.lt_succ_of_le ((List.length_filter_le ..).trans ?_))
    rw [List.length_map]
  obtain ⟨adds, _⟩ := markedSearch_adds ran
  refine ⟨names, ⟨adds.nodup List.nodup_nil, ?_, ?_⟩, ?_⟩
  · intro name there
    obtain ⟨dep, _, found, isName, _⟩ := adds.found name there List.not_mem_nil
    exact ⟨dep, found, isName⟩
  · rintro oneOrigin name ⟨dep, found, rfl⟩
    refine markedSearch_complete ran (fun first second foundFirst foundSecond same => ?_) found
    obtain ⟨a, path, inRdeps, _⟩ := foundFirst
    obtain ⟨b, path', inRdeps', _⟩ := foundSecond
    have origins := oneOrigin a (reached_checked listed path) b (reached_checked listed path') first
      inRdeps second inRdeps' same
    rw [Prod.ext same origins]
  · rw [printRecursiveRdeps_eq, ran]
    rfl

end Dependents

/-! ## What is printed -/

section Printed

variable {items : List AuditItem} {quiet recursive : Bool} {check : List CheckedPkg}

/-- The only line about a package with `-q`. -/
def CheckedPkg.line (p : CheckedPkg) : AuditText :=
  p.name ++ p.version.elim [] (fun version => "-".toList ++ version) ++ "\n".toList

/-- What is printed for a package that the document marks. -/
def Reported (quiet recursive : Bool) (check : List CheckedPkg) (p : CheckedPkg)
    (texts : List AuditText) : Prop :=
  ∃ report, (quiet = true → report = p.line) ∧ if recursive then
      ∃ names, Dependents check p names ∧
        texts = [report, report ++ dependsHeading p.name ++ (", ".toList).intercalate names ++
          "\n".toList]
    else texts = [report]

/-- The reports of the packages one after the other. -/
def ReportsOf (quiet recursive : Bool) (check : List CheckedPkg) :
    List CheckedPkg → List AuditText → Prop
  | [], out => out = []
  | p :: rest, out => ∃ texts later, out = texts ++ later ∧
      Reported quiet recursive check p texts ∧ ReportsOf quiet recursive check rest later

/-- With `-q` the search ends at the first entry that it finds. -/
theorem auditSearchGroup_quiet {name : AuditText} {version : Option AuditText} {i : Nat}
    {list : List AuditItem} {report : AuditReport} {out : Bool}
    (ran : auditSearchGroup name version true i list {} = some (report, out)) :
    if out then report.sb = pkgAuditPrintEntry {} name version true else report = {} := by
  induction i generalizing list with
  | zero =>
      cases ran
      rfl
  | succ i ih =>
      cases list with
      | nil => cases ran
      | cons item rest =>
          rw [auditSearchGroup] at ran
          split at ran
          · exact ih ran
          · have found : auditEntryFound name version true item.e {} = {} ∨
                auditEntryFound name version true item.e {} =
                  { res := true, sb := pkgAuditPrintEntry {} name version true } := by
              cases version with
              | none => exact Or.inr rfl
              | some text =>
                  unfold auditEntryFound
                  dsimp only
                  split
                  · exact Or.inr rfl
                  · exact Or.inl rfl
            rcases found with nothing | something
            · rw [nothing] at ran
              exact ih ran
            · rw [something] at ran
              cases ran
              rfl

theorem auditSearch_quiet {name : AuditText} {version : Option AuditText} {fuel : Nat}
    {list : List AuditItem} {report : AuditReport}
    (ran : auditSearch name version true fuel list {} = some report) :
    report.res = true → report.sb = pkgAuditPrintEntry {} name version true := by
  induction fuel generalizing list with
  | zero => cases ran
  | succ fuel ih =>
      cases list with
      | nil =>
          cases ran
          exact nofun
      | cons a rest =>
          rw [auditSearch] at ran
          dsimp only at ran
          split at ran
          · cases ran
            exact nofun
          · have goesOn : (if a.nextPfxIncr ≤ (a :: rest).length then
                auditSearch name version true fuel ((a :: rest).drop a.nextPfxIncr) {}
                else none) = some report →
                  report.res = true → report.sb = pkgAuditPrintEntry {} name version true := by
              intro later
              split at later
              · exact ih later
              · cases later
            split at ran
            · exact goesOn ran
            · obtain ⟨⟨between, out⟩, group, later⟩ := Option.bind_eq_some_iff.mp ran
              have known := auditSearchGroup_quiet group
              cases out with
              | true =>
                  cases later
                  exact fun _ => known
              | false =>
                  have same : between = {} := known
                  subst same
                  exact goesOn later

/-- The answer of the search for a package. -/
def Searches (items : List AuditItem) (quiet : Bool) (marked : CheckedPkg → Bool)
    (p : CheckedPkg) : Prop :=
  ∃ report, pkgAuditIsVulnerable p.name p.version quiet items = some report ∧
    report.res = marked p ∧ (quiet = true → report.res = true → report.sb = p.line)

theorem auditPkg_spec {marked : CheckedPkg → Bool} {cur : CheckedPkg} (listed : cur ∈ check)
    (searches : Searches items quiet marked cur) (output : AuditOutput) :
    ∃ texts, auditPkg items quiet recursive check cur output =
        some { vuln := output.vuln + (if marked cur then 1 else 0), out := output.out ++ texts } ∧
      (if marked cur then Reported quiet recursive check cur texts else texts = []) := by
  obtain ⟨report, searched, res, line⟩ := searches
  rw [auditPkg, searched, ← res]
  cases marks : report.res with
  | false => exact ⟨[], by simp [marks], by simp⟩
  | true =>
      cases recursive with
      | false =>
          exact ⟨[report.sb], by simp [marks],
            ⟨report.sb, fun isQuiet => line isQuiet marks, rfl⟩⟩
      | true =>
          obtain ⟨names, dependents, printed⟩ :=
            printRecursiveRdeps_spec listed (report.sb ++ dependsHeading cur.name)
          refine ⟨[report.sb, report.sb ++ dependsHeading cur.name ++
            (", ".toList).intercalate names ++ "\n".toList], ?_,
            ⟨report.sb, fun isQuiet => line isQuiet marks, names, dependents, rfl⟩⟩
          simp only [Option.bind_eq_bind, Option.bind_some, marks, if_true, printed]

theorem auditPkgs_spec {marked : CheckedPkg → Bool} {list : List CheckedPkg}
    (listed : ∀ p ∈ list, p ∈ check) (searches : ∀ p ∈ list, Searches items quiet marked p)
    (output : AuditOutput) :
    ∃ texts, auditPkgs items quiet recursive check list output =
        some { vuln := output.vuln + (list.filter marked).length, out := output.out ++ texts } ∧
      ReportsOf quiet recursive check (list.filter marked) texts := by
  induction list generalizing output with
  | nil => exact ⟨[], by simp [auditPkgs], rfl⟩
  | cons cur rest ih =>
      obtain ⟨texts, first, reported⟩ := @auditPkg_spec items quiet recursive check marked cur
        (listed cur (List.mem_cons_self ..)) (searches cur (List.mem_cons_self ..)) output
      obtain ⟨later, others, reports⟩ := ih
        (fun p member => listed p (List.mem_cons_of_mem _ member))
        (fun p member => searches p (List.mem_cons_of_mem _ member))
        { vuln := output.vuln + (if marked cur then 1 else 0), out := output.out ++ texts }
      rw [auditPkgs, first, Option.bind_some, others]
      cases marks : marked cur with
      | true =>
          rw [marks] at reported
          refine ⟨texts ++ later, ?_, ?_⟩
          · simp [marks, Nat.add_assoc, Nat.add_comm 1]
          · rw [List.filter_cons_of_pos marks]
            exact ⟨texts, later, rfl, reported, reports⟩
      | false =>
          rw [marks] at reported
          have nothing : texts = [] := reported
          refine ⟨later, ?_, ?_⟩
          · simp [marks, nothing]
          · rw [List.filter_cons_of_neg (by simp [marks])]
            exact reports

end Printed

/-! ## The document and the search -/

/-- Where every pattern starts with a letter, no entry that matches is passed over. -/
theorem searched_literal {entries : List AuditEntry} (nonempty : entries ≠ [])
    (literal : ∀ e ∈ entries, ∀ text, e.pkgname = some text → pkgAuditStrNoglobLen text ≠ 0)
    {sorted : List AuditItem} (sorts : IsQsort pkgAuditEntryCmp (auditItems entries) sorted)
    (quiet : Bool) :
    ∃ items, pkgAuditPreprocess entries sorted = some items ∧
      ∀ p : CheckedPkg, firstByte p.name < 256 →
        Searches items quiet (fun p => entries.any (entryVulnerable p.name p.version)) p := by
  have ran : ∃ items, pkgAuditPreprocess entries sorted = some items := by
    unfold pkgAuditPreprocess
    rw [if_neg nonempty]
    split
    · exact ⟨_, rfl⟩
    · exact ⟨_, rfl⟩
  obtain ⟨items, result⟩ := ran
  refine ⟨items, result, fun p inIndex => ?_⟩
  obtain ⟨report, searched, res⟩ := @searched_sorted entries p.name p.version quiet nonempty inIndex
    _ sorts
  rw [result, Option.bind_some] at searched
  refine ⟨report, searched, ?_, ?_⟩
  · dsimp only
    rw [res, Bool.eq_iff_iff, List.any_eq_true, ← any_auditItems, List.any_eq_true]
    constructor
    · rintro ⟨a, member, vulnerable⟩
      exact ⟨a, sorts.perm.mem_iff.mp (List.dropWhile_subset _ member), vulnerable⟩
    · rintro ⟨a, member, vulnerable⟩
      refine ⟨a, ?_, vulnerable⟩
      have inSorted := sorts.perm.mem_iff.mpr member
      rw [← @List.takeWhile_append_dropWhile _ (fun a : AuditItem =>
        firstByte a.pkgname < firstByte p.name) sorted, List.mem_append] at inSorted
      refine inSorted.resolve_left fun before => ?_
      have below := List.mem_takeWhile_imp before
      rw [decide_eq_true_eq] at below
      obtain ⟨fits, inEntries, _⟩ := auditItems_fits member
      rw [fits.entryVulnerable, Bool.and_eq_true] at vulnerable
      have noPrefix := fits.noglob_eq_nil vulnerable.1 below
      have length := fits.length_noglob
      rw [noPrefix, fits.noglobLen] at length
      exact literal a.e inEntries a.pkgname fits.named length.symm
  · rintro rfl isFound
    rw [pkgAuditIsVulnerable, if_pos inIndex] at searched
    rw [auditSearch_quiet searched isFound]
    rfl

/-- A document with one package, and two installed packages that depend on each other. -/
def openssl : VulnDocument :=
  [.vuln [("vid", ['v'])]
    [.topic "a hole".toList,
      .package
        { parts :=
            [.name ⟨"openssl*".toList, by decide⟩,
              .range ⟨[.bound ⟨.lt, ['2'], by decide⟩], by decide⟩]
          named := by decide }]]

def mutualDependents : List CheckedPkg :=
  [{ name := "openssl".toList, version := some ['1'], uniqueid := "openssl~o".toList
     rdeps := [("curl".toList, "c".toList)] },
    { name := "curl".toList, version := some ['3'], uniqueid := "curl~c".toList
      rdeps := [("openssl".toList, "o".toList)] }]

example : execAudit id openssl.events true true mutualDependents =
    some (["openssl-1\n".toList, ("openssl-1\n" ++
      "Packages that depend on openssl: curl, openssl\n").toList], 1) := by
  decide +kernel

end Pkgng
