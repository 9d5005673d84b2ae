import Pkgng.Audit.Expand
import Pkgng.Audit.Search

/-!
# What a vulnerability document marks

A VuXML document by its meaning: the packages that it names and the ranges of their versions.  The
handlers read it event by event, with whatever else stands between the elements that they know.
-/

set_option autoImplicit false

namespace Pkgng

open Lib

/-! ## Documents -/

/-- The handlers have no use for the event in this state. -/
def passedOver : VulnxmlState → VulnxmlEvent → Bool
  | .init, .startElement element _ => !isElement element "vuln"
  | .init, _ => true
  | .vuln, .startElement element _ =>
      !isElement element "topic" && !isElement element "package" && !isElement element "cvename"
  | .vuln, .endElement element => !isElement element "vuln"
  | .vuln, .data _ _ => true
  | .package, .startElement element _ => !isElement element "name" && !isElement element "range"
  | .package, .endElement element => !isElement element "package"
  | .package, .data _ _ => true
  | .range, .startElement element _ =>
      !isElement element "gt" && !isElement element "ge" && !isElement element "lt" &&
        !isElement element "le" && !isElement element "eq"
  | .range, .endElement element => !isElement element "range"
  | .range, .data _ _ => true
  | _, _ => false

abbrev Noise (state : VulnxmlState) := { event : VulnxmlEvent // passedOver state event = true }

/-- A bound of a range; without a text it would not be one. -/
structure VersionBound where
  op : VersionOp
  version : AuditText
  given : version ≠ []

/-- The pattern of a name starts with a letter of the name. -/
structure NamePattern where
  text : AuditText
  literal : pkgAuditStrNoglobLen text ≠ 0

inductive RangePart
  | bound (b : VersionBound)
  | other (noise : Noise .range)

def RangePart.bound? : RangePart → Option VersionBound
  | .bound b => some b
  | .other _ => none

/-- The handlers have room for two bounds. -/
structure VulnRange where
  parts : List RangePart
  two : (parts.filterMap RangePart.bound?).length ≤ 2

inductive PackagePart
  | name (pattern : NamePattern)
  | range (ranged : VulnRange)
  | other (noise : Noise .package)

def PackagePart.name? : PackagePart → Option NamePattern
  | .name pattern => some pattern
  | _ => none

def PackagePart.range? : PackagePart → Option VulnRange
  | .range ranged => some ranged
  | _ => none

structure VulnPackage where
  parts : List PackagePart
  named : parts.filterMap PackagePart.name? ≠ []

inductive VulnPart
  | topic (text : AuditText)
  | package (part : VulnPackage)
  | cvename (text : AuditText)
  | other (noise : Noise .vuln)

def VulnPart.package? : VulnPart → Option VulnPackage
  | .package part => some part
  | _ => none

inductive DocumentPart
  | vuln (attributes : List (String × AuditText)) (parts : List VulnPart)
  | other (noise : Noise .init)

abbrev VulnDocument := List DocumentPart

/-! ## Their meaning -/

def VersionBound.Holds (b : VersionBound) (version : AuditText) : Prop :=
  match b.op with
  | .eq => versionCmpChars version b.version = 0
  | .lt => versionCmpChars version b.version = -1
  | .lte => versionCmpChars version b.version = -1 ∨ versionCmpChars version b.version = 0
  | .gt => versionCmpChars version b.version = 1
  | .gte => versionCmpChars version b.version = 1 ∨ versionCmpChars version b.version = 0

def VulnRange.bounds (range : VulnRange) : List VersionBound :=
  range.parts.filterMap RangePart.bound?

def VulnRange.Holds (range : VulnRange) (version : AuditText) : Prop :=
  ∀ b ∈ range.bounds, b.Holds version

/-- A name of the package matches, and the version, if there is one, is in one of its ranges. -/
def VulnPackage.Marks (package : VulnPackage) (name : AuditText) (version : Option AuditText) :
    Prop :=
  (∃ pattern ∈ package.parts.filterMap PackagePart.name?, fnmatch pattern.text name = true) ∧
    ∀ text, version = some text →
      ∃ range ∈ package.parts.filterMap PackagePart.range?, range.Holds text

/-- What the document says of a package. -/
def VulnDocument.Marks (doc : VulnDocument) (name : AuditText) (version : Option AuditText) : Prop :=
  ∃ attributes parts, DocumentPart.vuln attributes parts ∈ doc ∧
    ∃ package ∈ parts.filterMap VulnPart.package?, package.Marks name version

/-! ## Their events -/

/-- An element with a text, of which Expat reports an empty one with no call. -/
def textElement (element : String) (text : AuditText) : List VulnxmlEvent :=
  [.startElement element []] ++ (if text = [] then [] else [.data text []]) ++
    [.endElement element]

def VersionOp.element : VersionOp → String
  | .eq => "eq"
  | .lt => "lt"
  | .lte => "le"
  | .gt => "gt"
  | .gte => "ge"

def RangePart.events : RangePart → List VulnxmlEvent
  | .bound b => textElement b.op.element b.version
  | .other noise => [noise.1]

def PackagePart.events : PackagePart → List VulnxmlEvent
  | .name pattern => textElement "name" pattern.text
  | .range ranged =>
      .startElement "range" [] :: ranged.parts.flatMap RangePart.events ++ [.endElement "range"]
  | .other noise => [noise.1]

def VulnPart.events : VulnPart → List VulnxmlEvent
  | .topic text => textElement "topic" text
  | .package part =>
      .startElement "package" [] :: part.parts.flatMap PackagePart.events ++
        [.endElement "package"]
  | .cvename text => textElement "cvename" text
  | .other noise => [noise.1]

def DocumentPart.events : DocumentPart → List VulnxmlEvent
  | .vuln attributes parts =>
      .startElement "vuln" attributes :: parts.flatMap VulnPart.events ++ [.endElement "vuln"]
  | .other noise => [noise.1]

def VulnDocument.events (doc : VulnDocument) : List VulnxmlEvent := doc.flatMap DocumentPart.events

/-! ## Reading a range -/

/-- The handlers with the parts of the vulnerability that is being read. -/
def reading (state : VulnxmlState) (entry : AuditEntry) (packages : List AuditPackage)
    (entries : List AuditEntry) (rangeNum : Nat) : VulnxmlUserdata where
  curEntry := { entry with packages := packages }
  entries := entries
  state := state
  rangeNum := rangeNum

/-- The elements that the handlers ask for, among each other. -/
theorem isElement_known :
    isElement "vuln" "vuln" = true ∧ isElement "topic" "topic" = true ∧
    isElement "package" "topic" = false ∧ isElement "package" "package" = true ∧
    isElement "cvename" "topic" = false ∧ isElement "cvename" "package" = false ∧
    isElement "cvename" "cvename" = true ∧ isElement "name" "name" = true ∧
    isElement "range" "name" = false ∧ isElement "range" "range" = true ∧
    isElement "gt" "gt" = true ∧ isElement "ge" "gt" = false ∧ isElement "ge" "ge" = true ∧
    isElement "lt" "gt" = false ∧ isElement "lt" "ge" = false ∧ isElement "lt" "lt" = true ∧
    isElement "le" "gt" = false ∧ isElement "le" "ge" = false ∧ isElement "le" "lt" = false ∧
    isElement "le" "le" = true ∧ isElement "eq" "gt" = false ∧ isElement "eq" "ge" = false ∧
    isElement "eq" "lt" = false ∧ isElement "eq" "le" = false ∧ isElement "eq" "eq" = true := by
  decide +kernel

theorem handle_noise {ud : VulnxmlUserdata} {state : VulnxmlState} (noise : Noise state)
    (here : ud.state = state) : handlePieces ud noise.1 = ud := by
  obtain ⟨event, passed⟩ := noise
  have ignored : state = .init ∨ state = .vuln ∨ state = .package ∨ state = .range →
      ∀ content, ud.handleData content = ud := by
    intro idle content
    rw [VulnxmlUserdata.handleData, here]
    rcases idle with rfl | rfl | rfl | rfl <;> rfl
  cases event with
  | data first more =>
      refine foldl_of_ignores (ignored ?_) (first :: more)
      cases state with
      | init | vuln | package | range => simp
      | _ => cases passed
  | startElement element attributes =>
      cases state with
      | init | vuln | package | range =>
          simp only [passedOver, Bool.not_eq_true', Bool.and_eq_true] at passed
          simp [handlePieces, handleWhole, VulnxmlUserdata.startElement, here, passed]
      | _ => cases passed
  | endElement element =>
      cases state with
      | init | vuln | package | range =>
          simp only [passedOver, Bool.not_eq_true'] at passed
          simp [handlePieces, handleWhole, VulnxmlUserdata.endElement, VulnxmlUserdata.closes,
            here, passed]
      | _ => cases passed

/-- The first two bounds of a range are kept. -/
def withBound (n : Nat) (vers : VersionsRange) (b : VersionBound) : VersionsRange :=
  let bound : AuditVersion := { version := some b.version, type := some b.op }
  if n = 0 then { vers with v1 := bound } else if n = 1 then { vers with v2 := bound } else vers

section Reading

variable {entry : AuditEntry} {packages : List AuditPackage} {entries : List AuditEntry}
  {names : List (Option AuditText)} {versions : List VersionsRange} {n : Nat}

/-- The state within a bound. -/
def VersionOp.state : VersionOp → VulnxmlState
  | .eq => .rangeEq
  | .lt => .rangeLt
  | .lte => .rangeLe
  | .gt => .rangeGt
  | .gte => .rangeGe

theorem start_bound (op : VersionOp) :
    handlePieces (reading .range entry packages entries n) (.startElement op.element []) =
      reading op.state entry packages entries (n + 1) := by
  cases op with
  | _ =>
      simp [handlePieces, handleWhole, VulnxmlUserdata.startElement, VulnxmlUserdata.bound, reading,
        VersionOp.element, VersionOp.state, isElement_known]

theorem end_bound (op : VersionOp) :
    handlePieces (reading op.state entry packages entries n) (.endElement op.element) =
      reading .range entry packages entries n := by
  cases op with
  | _ =>
      simp [handlePieces, handleWhole, VulnxmlUserdata.endElement, VulnxmlUserdata.closes, reading,
        VersionOp.element, VersionOp.state, isElement_known]

theorem handle_bound (b : VersionBound) (vers : VersionsRange) :
    (textElement b.op.element b.version).foldl handlePieces
        (reading .range entry ({ names, versions := vers :: versions } :: packages) entries n) =
      reading .range entry
        ({ names, versions := withBound n vers b :: versions } :: packages) entries (n + 1) := by
  obtain ⟨op, version, given⟩ := b
  have set : handlePieces (reading op.state entry
      ({ names, versions := vers :: versions } :: packages) entries (n + 1)) (.data version []) =
        reading op.state entry ({ names, versions := withBound n vers ⟨op, version, given⟩ :: versions }
          :: packages) entries (n + 1) := by
    by_cases first : n = 0
    · subst first
      cases op with
      | _ => rfl
    · by_cases second : n = 1
      · subst second
        cases op with
        | _ => rfl
      · cases op with
        | _ =>
            simp [handlePieces, VulnxmlUserdata.handleData, VulnxmlUserdata.setBound, withBound,
              reading, VersionOp.state, first, second]
  rw [textElement, if_neg given]
  simp only [List.foldl_append, List.foldl_cons, List.foldl_nil, start_bound, set, end_bound]

/-- The bounds from the `n`th on. -/
def withBounds : Nat → VersionsRange → List VersionBound → VersionsRange
  | _, vers, [] => vers
  | n, vers, b :: rest => withBounds (n + 1) (withBound n vers b) rest

theorem handle_rangeParts (parts : List RangePart) (vers : VersionsRange) :
    (parts.flatMap RangePart.events).foldl handlePieces
        (reading .range entry ({ names, versions := vers :: versions } :: packages) entries n) =
      reading .range entry
        ({ names, versions := withBounds n vers (parts.filterMap RangePart.bound?) :: versions } ::
          packages) entries (n + (parts.filterMap RangePart.bound?).length) := by
  induction parts generalizing n vers with
  | nil => rfl
  | cons part rest ih =>
      rw [List.flatMap_cons, List.foldl_append]
      cases part with
      | other noise =>
          rw [RangePart.events, List.foldl_cons, List.foldl_nil, handle_noise noise rfl, ih]
          rfl
      | bound b =>
          rw [RangePart.events, handle_bound, ih, Nat.add_right_comm]
          rfl

/-- What the handlers keep of a range. -/
def VulnRange.kept (ranged : VulnRange) : VersionsRange := withBounds 0 {} ranged.bounds

theorem handle_range (ranged : VulnRange) :
    ∃ n', (PackagePart.events (.range ranged)).foldl handlePieces
        (reading .package entry ({ names, versions } :: packages) entries n) =
      reading .package entry ({ names, versions := ranged.kept :: versions } :: packages) entries
        n' := by
  have begins : handlePieces (reading .package entry ({ names, versions } :: packages) entries n)
      (.startElement "range" []) =
        reading .range entry ({ names, versions := {} :: versions } :: packages) entries 0 := by
    simp [handlePieces, handleWhole, VulnxmlUserdata.startElement, VulnxmlUserdata.modifyPackage,
      reading, isElement_known]
  refine ⟨0 + (ranged.parts.filterMap RangePart.bound?).length, ?_⟩
  simp only [PackagePart.events, List.foldl_append, List.foldl_cons, List.foldl_nil, begins,
    handle_rangeParts]
  simp [handlePieces, handleWhole, VulnxmlUserdata.endElement, VulnxmlUserdata.closes, reading,
    isElement_known, VulnRange.kept, VulnRange.bounds]

/-! ## Reading a package -/

theorem handle_name (pattern : NamePattern) :
    (PackagePart.events (.name pattern)).foldl handlePieces
        (reading .package entry ({ names, versions } :: packages) entries n) =
      reading .package entry ({ names := some pattern.text :: names, versions } :: packages) entries
        n := by
  have given : pattern.text ≠ [] := fun empty => pattern.literal (by rw [empty]; rfl)
  rw [PackagePart.events, textElement, if_neg given]
  simp [handlePieces, handleWhole, VulnxmlUserdata.startElement, VulnxmlUserdata.handleData,
    VulnxmlUserdata.endElement, VulnxmlUserdata.closes, VulnxmlUserdata.modifyPackage, reading,
    isElement_known]

theorem handle_packageParts (parts : List PackagePart) :
    ∃ n', (parts.flatMap PackagePart.events).foldl handlePieces
        (reading .package entry ({ names, versions } :: packages) entries n) =
      reading .package entry
        ({ names := ((parts.filterMap PackagePart.name?).map fun p => some p.text).reverse ++ names
           versions := ((parts.filterMap PackagePart.range?).map VulnRange.kept).reverse ++
            versions } :: packages) entries n' := by
  induction parts generalizing n names versions with
  | nil => exact ⟨n, rfl⟩
  | cons part rest ih =>
      rw [List.flatMap_cons, List.foldl_append]
      cases part with
      | other noise =>
          rw [PackagePart.events, List.foldl_cons, List.foldl_nil, handle_noise noise rfl]
          exact ih
      | name pattern =>
          rw [handle_name]
          obtain ⟨n', read⟩ := @ih (some pattern.text :: names) versions n
          refine ⟨n', read.trans ?_⟩
          simp [List.filterMap_cons, PackagePart.name?, PackagePart.range?]
      | range ranged =>
          obtain ⟨m, first⟩ := handle_range ranged
          rw [first]
          obtain ⟨n', read⟩ := @ih names (ranged.kept :: versions) m
          refine ⟨n', read.trans ?_⟩
          simp [List.filterMap_cons, PackagePart.name?, PackagePart.range?]

/-- What the handlers keep of a package. -/
def VulnPackage.kept (part : VulnPackage) : AuditPackage where
  names := ((part.parts.filterMap PackagePart.name?).map fun p => some p.text).reverse
  versions := ((part.parts.filterMap PackagePart.range?).map VulnRange.kept).reverse

theorem handle_package (part : VulnPackage) :
    ∃ n', (VulnPart.events (.package part)).foldl handlePieces
        (reading .vuln entry packages entries n) =
      reading .vuln entry (part.kept :: packages) entries n' := by
  have begins : handlePieces (reading .vuln entry packages entries n) (.startElement "package" []) =
      reading .package entry ({ names := [], versions := [] } :: packages) entries n := by
    simp [handlePieces, handleWhole, VulnxmlUserdata.startElement, reading, isElement_known]
  obtain ⟨n', read⟩ := @handle_packageParts entry packages entries [] [] n part.parts
  refine ⟨n', ?_⟩
  simp only [VulnPart.events, List.foldl_append, List.foldl_cons, List.foldl_nil, begins, read]
  simp [handlePieces, handleWhole, VulnxmlUserdata.endElement, VulnxmlUserdata.closes, reading,
    isElement_known, VulnPackage.kept]

/-! ## Reading a vulnerability -/

/-- Topics and CVE names change nothing of the packages. -/
theorem handle_text {part : VulnPart} (notPackage : part.package? = none) :
    ∃ entry', part.events.foldl handlePieces (reading .vuln entry packages entries n) =
      reading .vuln entry' packages entries n ∧ entry'.pkgname = entry.pkgname := by
  cases part with
  | package part => cases notPackage
  | other noise =>
      refine ⟨entry, ?_, rfl⟩
      rw [VulnPart.events, List.foldl_cons, List.foldl_nil, handle_noise noise rfl]
  | topic text =>
      by_cases empty : text = []
      · refine ⟨entry, ?_, rfl⟩
        simp [VulnPart.events, textElement, empty, handlePieces, handleWhole, reading,
          VulnxmlUserdata.startElement, VulnxmlUserdata.endElement, VulnxmlUserdata.closes,
          isElement_known]
      · refine ⟨{ entry with desc := some text }, ?_, rfl⟩
        simp [VulnPart.events, textElement, empty, handlePieces, handleWhole, reading,
          VulnxmlUserdata.startElement, VulnxmlUserdata.endElement, VulnxmlUserdata.closes,
          VulnxmlUserdata.handleData, isElement_known]
  | cvename text =>
      by_cases empty : text = []
      · refine ⟨entry, ?_, rfl⟩
        simp [VulnPart.events, textElement, empty, handlePieces, handleWhole, reading,
          VulnxmlUserdata.startElement, VulnxmlUserdata.endElement, VulnxmlUserdata.closes,
          isElement_known]
      · refine ⟨{ entry with cve := text :: entry.cve }, ?_, rfl⟩
        simp [VulnPart.events, textElement, empty, handlePieces, handleWhole, reading,
          VulnxmlUserdata.startElement, VulnxmlUserdata.endElement, VulnxmlUserdata.closes,
          VulnxmlUserdata.handleData, isElement_known]

theorem handle_vulnParts (parts : List VulnPart) :
    ∃ entry' n', (parts.flatMap VulnPart.events).foldl handlePieces
        (reading .vuln entry packages entries n) =
      reading .vuln entry'
        (((parts.filterMap VulnPart.package?).map VulnPackage.kept).reverse ++ packages) entries n' ∧
      entry'.pkgname = entry.pkgname := by
  induction parts generalizing entry packages n with
  | nil => exact ⟨entry, n, rfl, rfl⟩
  | cons part rest ih =>
      rw [List.flatMap_cons, List.foldl_append]
      cases isPackage : part.package? with
      | none =>
          obtain ⟨between, first, named⟩ :=
            @handle_text entry packages entries n part isPackage
          obtain ⟨entry', n', read, named'⟩ := @ih between packages n
          refine ⟨entry', n', ?_, named'.trans named⟩
          rw [first, read, List.filterMap_cons_none isPackage]
      | some package =>
          cases part with
          | package part =>
              cases isPackage
              obtain ⟨m, first⟩ := @handle_package entry packages entries n package
              obtain ⟨entry', n', read, named⟩ := @ih entry (package.kept :: packages) m
              refine ⟨entry', n', ?_, named⟩
              rw [first, read]
              simp [VulnPart.package?]
          | _ => cases isPackage

end Reading

/-! ## The entries -/

theorem versionMatch_iff (version : AuditText) (b : VersionBound) :
    pkgAuditVersionMatch version { version := some b.version, type := some b.op } = true ↔
      b.Holds version := by
  obtain ⟨op, bound, given⟩ := b
  rw [pkgAuditVersionMatch, VersionBound.Holds]
  dsimp only
  generalize versionCmpChars version bound = cmp
  by_cases less : cmp = -1
  · subst less
    cases op <;> simp
  · by_cases same : cmp = 0
    · subst same
      cases op <;> simp
    · by_cases greater : cmp = 1
      · subst greater
        cases op <;> simp
      · rw [if_neg less, if_neg same, if_neg greater]
        cases op <;> simp [less, same, greater]

theorem versionsMatch_kept (version : AuditText) (ranged : VulnRange) :
    versionsMatch version ranged.kept = true ↔ ranged.Holds version := by
  have two : ranged.bounds.length ≤ 2 := ranged.two
  have none : pkgAuditVersionMatch version {} = true := rfl
  rw [versionsMatch, VulnRange.kept, VulnRange.Holds, Bool.and_eq_true]
  cases bounds : ranged.bounds with
  | nil => simp [withBounds, none]
  | cons b rest =>
      cases rest with
      | nil =>
          simp only [withBounds, withBound, if_true, none, and_true, List.mem_singleton,
            forall_eq, versionMatch_iff]
      | cons c more =>
          rw [bounds] at two
          obtain rfl : more = [] := by
            rw [← List.length_eq_zero_iff]
            simp only [List.length_cons] at two
            omega
          simp only [withBounds, withBound, if_true, Nat.zero_add, Nat.one_ne_zero, if_false,
            List.mem_cons, List.not_mem_nil, or_false, forall_eq_or_imp, forall_eq,
            versionMatch_iff]

/-- The entry of one name of a package. -/
theorem entryVulnerable_expanded {entry : AuditEntry} {part : VulnPackage} {name : AuditText}
    {version : Option AuditText} :
    (part.kept.names.any fun ncur => entryVulnerable name version (entry.expanded (part.kept, ncur))) =
      true ↔ part.Marks name version := by
  have ranges : (∀ text, version = some text → part.kept.versions.any (versionsMatch text) = true) ↔
      ∀ text, version = some text →
        ∃ ranged ∈ part.parts.filterMap PackagePart.range?, ranged.Holds text := by
    refine forall₂_congr fun text _ => ?_
    simp only [VulnPackage.kept, List.any_reverse, List.any_map, List.any_eq_true,
      Function.comp_apply, versionsMatch_kept]
  have versions : version.all (fun text => part.kept.versions.any (versionsMatch text)) = true ↔
      ∀ text, version = some text → part.kept.versions.any (versionsMatch text) = true := by
    cases version with
    | none => simp
    | some text => simp
  rw [VulnPackage.Marks, ← ranges, ← versions]
  simp only [List.any_eq_true, entryVulnerable, AuditEntry.expanded, Bool.and_eq_true]
  simp only [VulnPackage.kept, List.mem_reverse, List.mem_map]
  constructor
  · rintro ⟨_, ⟨pattern, member, rfl⟩, matched, inRange⟩
    exact ⟨⟨pattern, member, by simpa using matched⟩, inRange⟩
  · rintro ⟨⟨pattern, member, matched⟩, inRange⟩
    exact ⟨_, ⟨pattern, member, rfl⟩, by simpa using matched, inRange⟩

/-- What the entries say after some packages have been read. -/
structure ReadsPackages (marked : AuditText → Option AuditText → Prop) (given : Prop)
    (before after : List AuditEntry) : Prop where
  marks : ∀ name version, after.any (entryVulnerable name version) = true ↔
    marked name version ∨ before.any (entryVulnerable name version) = true
  literal : ∀ e ∈ after, e ∈ before ∨
    ∀ text, e.pkgname = some text → pkgAuditStrNoglobLen text ≠ 0
  nonempty : given ∨ before ≠ [] → after ≠ []

/-- The entries of its packages' names make a vulnerability known. -/
theorem expand_kept {entry : AuditEntry} (nameless : entry.pkgname = none)
    (packages : List VulnPackage) (kept : entry.packages = (packages.map VulnPackage.kept).reverse)
    (entries : List AuditEntry) :
    ReadsPackages (fun name version => ∃ package ∈ packages, package.Marks name version)
      (packages ≠ []) entries (pkgAuditExpandEntry entry entries) := by
  have pairs : ∀ name version,
      (entry.namePairs.map entry.expanded).any (entryVulnerable name version) = true ↔
        ∃ package ∈ packages, package.Marks name version := by
    intro name version
    rw [AuditEntry.namePairs, kept, List.any_map, List.any_flatMap, List.any_reverse, List.any_map,
      List.any_eq_true]
    refine exists_congr fun part => and_congr_right fun _ => ?_
    rw [← @entryVulnerable_expanded entry, Function.comp_apply, List.any_map]
    rfl
  have itself : ∀ name version, entryVulnerable name version entry = false := by
    intro name version
    rw [entryVulnerable, nameless]
    rfl
  rw [pkgAuditExpandEntry_eq]
  split
  · refine ⟨fun name version => ?_, ?_, fun _ => List.cons_ne_nil _ _⟩
    · rw [List.cons_append, List.any_cons, List.any_append, List.any_reverse, itself,
        Bool.false_or, Bool.or_eq_true, pairs]
    · intro e member
      rw [List.cons_append, List.mem_cons, List.mem_append, List.mem_reverse, List.mem_map] at member
      rcases member with rfl | ⟨pair, inPairs, rfl⟩ | old
      · refine Or.inr fun text named => ?_
        rw [nameless] at named
        cases named
      · refine Or.inr fun text named => ?_
        obtain ⟨pcur, inPackages, inNames⟩ := List.mem_flatMap.mp inPairs
        obtain ⟨ncur, isName, rfl⟩ := List.mem_map.mp inNames
        rw [kept, List.mem_reverse] at inPackages
        obtain ⟨part, _, rfl⟩ := List.mem_map.mp inPackages
        obtain ⟨pattern, _, isText⟩ := List.mem_map.mp (List.mem_reverse.mp isName)
        rw [← Option.some.inj (isText.trans named)]
        exact pattern.literal
      · exact Or.inl old
  · next unnamed =>
      -- The package read last has a name, so there is none.
      have empty : packages = [] := by
        by_contra given
        obtain ⟨first, isFirst⟩ : ∃ first, entry.packages.head? = some first := by
          rw [kept, List.head?_reverse, List.getLast?_map]
          cases last : packages.getLast? with
          | none => exact absurd (List.getLast?_eq_none_iff.mp last) given
          | some part => exact ⟨_, rfl⟩
        refine unnamed ⟨first, isFirst, ?_⟩
        have member := List.mem_of_mem_head? isFirst
        rw [kept, List.mem_reverse] at member
        obtain ⟨part, _, rfl⟩ := List.mem_map.mp member
        simpa [VulnPackage.kept] using part.named
      subst empty
      exact ⟨fun name version => by simp, fun e old => Or.inl old,
        fun some => some.resolve_left fun given => given rfl⟩

theorem handle_vuln (attributes : List (String × AuditText)) (parts : List VulnPart)
    {ud : VulnxmlUserdata} (idle : ud.state = .init) :
    ((DocumentPart.events (.vuln attributes parts)).foldl handlePieces ud).state = .init ∧
      ReadsPackages (fun name version =>
          ∃ package ∈ parts.filterMap VulnPart.package?, package.Marks name version)
        (parts.filterMap VulnPart.package? ≠ []) ud.entries
        ((DocumentPart.events (.vuln attributes parts)).foldl handlePieces ud).entries := by
  have begins : ∃ entry n, handlePieces ud (.startElement "vuln" attributes) =
      reading .vuln entry [] ud.entries n ∧ entry.pkgname = none := by
    refine ⟨{ id := (attributes.find? fun attr => isElement attr.1 "vid").map Prod.snd },
      ud.rangeNum, ?_, rfl⟩
    simp [handlePieces, handleWhole, VulnxmlUserdata.startElement, reading, idle, isElement_known]
  obtain ⟨entry, n, started, nameless⟩ := begins
  obtain ⟨entry', n', read, named⟩ := @handle_vulnParts entry [] ud.entries n parts
  simp only [DocumentPart.events, List.foldl_append, List.foldl_cons, List.foldl_nil, started, read]
  have ends : handlePieces (reading .vuln entry'
        (((parts.filterMap VulnPart.package?).map VulnPackage.kept).reverse ++ []) ud.entries n')
      (.endElement "vuln") =
        reading .init entry' (((parts.filterMap VulnPart.package?).map VulnPackage.kept).reverse ++ [])
          (pkgAuditExpandEntry { entry' with packages :=
            ((parts.filterMap VulnPart.package?).map VulnPackage.kept).reverse ++ [] } ud.entries)
          n' := by
    simp [handlePieces, handleWhole, VulnxmlUserdata.endElement, reading, isElement_known]
  rw [ends]
  have unnamed : { entry' with packages :=
      ((parts.filterMap VulnPart.package?).map VulnPackage.kept).reverse ++ [] }.pkgname = none :=
    named.trans nameless
  exact ⟨rfl, expand_kept unnamed _ (List.append_nil _) ud.entries⟩

/-- The document names a package. -/
def VulnDocument.Names (doc : VulnDocument) : Prop :=
  ∃ attributes parts, DocumentPart.vuln attributes parts ∈ doc ∧
    parts.filterMap VulnPart.package? ≠ []

/-- The entries read make a package vulnerable exactly if the document marks it. -/
theorem document_entries (doc : VulnDocument) {ud : VulnxmlUserdata} (idle : ud.state = .init) :
    ReadsPackages doc.Marks doc.Names ud.entries (doc.events.foldl handlePieces ud).entries := by
  induction doc generalizing ud with
  | nil =>
      refine ⟨fun name version => ?_, fun e old => Or.inl old, ?_⟩
      · simp [VulnDocument.events, VulnDocument.Marks]
      · rintro (⟨_, _, member, _⟩ | given)
        · cases member
        · exact given
  | cons part rest ih =>
      have split : VulnDocument.events (part :: rest) =
          part.events ++ VulnDocument.events rest := List.flatMap_cons
      rw [split, List.foldl_append]
      cases part with
      | other noise =>
          rw [DocumentPart.events, List.foldl_cons, List.foldl_nil, handle_noise noise idle]
          have later := ih idle
          refine ⟨fun name version => ?_, later.literal, fun given => later.nonempty ?_⟩
          · rw [later.marks]
            simp [VulnDocument.Marks]
          · refine given.imp_left ?_
            rintro ⟨attributes, parts, member, packages⟩
            exact ⟨attributes, parts, by simpa using member, packages⟩
      | vuln attributes parts =>
          obtain ⟨state, first⟩ := handle_vuln attributes parts idle
          have later := ih state
          refine ⟨fun name version => ?_, fun e member => ?_, fun given => later.nonempty ?_⟩
          · rw [later.marks, first.marks, ← or_assoc]
            refine or_congr_left ?_
            simp only [VulnDocument.Marks, List.mem_cons, DocumentPart.vuln.injEq]
            constructor
            · rintro (⟨others, more, member, marked⟩ | marked)
              · exact ⟨others, more, Or.inr member, marked⟩
              · exact ⟨attributes, parts, Or.inl ⟨rfl, rfl⟩, marked⟩
            · rintro ⟨others, more, ⟨rfl, rfl⟩ | member, marked⟩
              · exact Or.inr marked
              · exact Or.inl ⟨others, more, member, marked⟩
          · rcases later.literal e member with old | literal
            · exact first.literal e old
            · exact Or.inr literal
          · rcases given with ⟨others, more, member, packages⟩ | before
            · rcases List.mem_cons.mp member with same | inRest
              · cases same
                exact Or.inr (first.nonempty (Or.inl packages))
              · exact Or.inl ⟨others, more, inRest, packages⟩
            · exact Or.inr (first.nonempty (Or.inr before))

end Pkgng
