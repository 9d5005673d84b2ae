import Mathlib.Data.List.Basic

/-!
# Reading the vulnerability database

The handlers that `pkg_audit_parse_vulnxml` gives to Expat.  Expat may deliver the text
of an element in several calls; the data handler keeps the text of the last one, and adds
one CVE name for each.
-/

set_option autoImplicit false

namespace Pkgng

/-- Names, versions and titles, as the parser delivers them. -/
abbrev AuditText := List Char

/-- `EQ`, `LT`, `LTE`, `GT` and `GTE`; a range that was not read has none. -/
inductive VersionOp
  | eq
  | lt
  | lte
  | gt
  | gte
deriving DecidableEq, Repr

structure AuditVersion where
  version : Option AuditText := none
  type : Option VersionOp := none
deriving DecidableEq, Repr

structure VersionsRange where
  v1 : AuditVersion := {}
  v2 : AuditVersion := {}
deriving DecidableEq, Repr

/-- `struct pkg_audit_package`, with its lists from the first element on. -/
structure AuditPackage where
  names : List (Option AuditText) := []
  versions : List VersionsRange := []
deriving DecidableEq, Repr

structure AuditEntry where
  pkgname : Option AuditText := none
  packages : List AuditPackage := []
  versions : List VersionsRange := []
  cve : List AuditText := []
  url : Option AuditText := none
  desc : Option AuditText := none
  id : Option AuditText := none
  ref : Bool := false
deriving DecidableEq, Repr

inductive VulnxmlState
  | init
  | vuln
  | topic
  | package
  | packageName
  | range
  | rangeGt
  | rangeGe
  | rangeLt
  | rangeLe
  | rangeEq
  | cve
deriving DecidableEq, Repr

/-- `struct vulnxml_userdata`, with the entries of the audit. -/
structure VulnxmlUserdata where
  curEntry : AuditEntry := {}
  entries : List AuditEntry := []
  state : VulnxmlState := .init
  rangeNum : Nat := 0
deriving DecidableEq, Repr

/-- `strcasecmp(element, name) == 0`. -/
def isElement (element name : String) : Bool :=
  element.toLower = name

/-- `pkg_audit_expand_entry`: one entry for each name of each package, and the entry
itself; an entry whose first package has no name is freed. -/
def pkgAuditExpandEntry (entry : AuditEntry) (head : List AuditEntry) : List AuditEntry :=
  match entry.packages with
  | [] => head
  | first :: _ =>
      if first.names = [] then head
      else
        entry :: entry.packages.foldl
          (fun head pcur => pcur.names.foldl
            (fun head ncur =>
              { pkgname := ncur
                ref := true
                cve := entry.cve
                desc := entry.desc
                versions := pcur.versions
                url := entry.url
                id := entry.id } :: head)
            head)
          head

namespace VulnxmlUserdata

/-- A change of the package read last; the states that make one are entered with one. -/
def modifyPackage (ud : VulnxmlUserdata) (change : AuditPackage → AuditPackage) :
    VulnxmlUserdata :=
  { ud with curEntry := { ud.curEntry with packages := ud.curEntry.packages.modifyHead change } }

/-- A bound of a range is opened. -/
def bound (ud : VulnxmlUserdata) (state : VulnxmlState) : VulnxmlUserdata :=
  { ud with rangeNum := ud.rangeNum + 1, state := state }

/-- `vulnxml_start_element`. -/
def startElement (ud : VulnxmlUserdata) (element : String)
    (attributes : List (String × AuditText)) : VulnxmlUserdata :=
  match ud.state with
  | .init =>
      if isElement element "vuln" then
        { ud with
          curEntry := { id := (attributes.find? fun attr => isElement attr.1 "vid").map Prod.snd }
          state := .vuln }
      else ud
  | .vuln =>
      if isElement element "topic" then { ud with state := .topic }
      else if isElement element "package" then
        { ud with
          curEntry := { ud.curEntry with packages := {} :: ud.curEntry.packages }
          state := .package }
      else if isElement element "cvename" then { ud with state := .cve }
      else ud
  | .package =>
      if isElement element "name" then
        { ud.modifyPackage fun package => { package with names := none :: package.names } with
          state := .packageName }
      else if isElement element "range" then
        { ud.modifyPackage fun package => { package with versions := {} :: package.versions } with
          state := .range
          rangeNum := 0 }
      else ud
  | .range =>
      if isElement element "gt" then ud.bound .rangeGt
      else if isElement element "ge" then ud.bound .rangeGe
      else if isElement element "lt" then ud.bound .rangeLt
      else if isElement element "le" then ud.bound .rangeLe
      else if isElement element "eq" then ud.bound .rangeEq
      else ud
  | _ => ud

/-- The state is left at the end of the element. -/
def closes (ud : VulnxmlUserdata) (element name : String) (outer : VulnxmlState) :
    VulnxmlUserdata :=
  if isElement element name then { ud with state := outer } else ud

/-- `vulnxml_end_element`. -/
def endElement (ud : VulnxmlUserdata) (element : String) : VulnxmlUserdata :=
  match ud.state with
  | .init => ud
  | .vuln =>
      if isElement element "vuln" then
        { ud with entries := pkgAuditExpandEntry ud.curEntry ud.entries, state := .init }
      else ud
  | .topic => ud.closes element "topic" .vuln
  | .cve => ud.closes element "cvename" .vuln
  | .package => ud.closes element "package" .vuln
  | .packageName => ud.closes element "name" .package
  | .range => ud.closes element "range" .package
  | .rangeGt => ud.closes element "gt" .range
  | .rangeGe => ud.closes element "ge" .range
  | .rangeLt => ud.closes element "lt" .range
  | .rangeLe => ud.closes element "le" .range
  | .rangeEq => ud.closes element "eq" .range

/-- The end of `vulnxml_handle_data`: the text is the first or the second bound of the
range read last. -/
def setBound (ud : VulnxmlUserdata) (type : VersionOp) (content : AuditText) :
    VulnxmlUserdata :=
  let version : AuditVersion := { version := some content, type := some type }
  if ud.rangeNum = 1 then
    ud.modifyPackage fun package =>
      { package with versions := package.versions.modifyHead fun vers =>
          { vers with v1 := version } }
  else if ud.rangeNum = 2 then
    ud.modifyPackage fun package =>
      { package with versions := package.versions.modifyHead fun vers =>
          { vers with v2 := version } }
  else ud

/-- `vulnxml_handle_data`. -/
def handleData (ud : VulnxmlUserdata) (content : AuditText) : VulnxmlUserdata :=
  match ud.state with
  | .init => ud
  | .vuln => ud
  | .package => ud
  | .range => ud
  | .topic => { ud with curEntry := { ud.curEntry with desc := some content } }
  | .packageName =>
      ud.modifyPackage fun package =>
        { package with names := package.names.modifyHead fun _ => some content }
  | .rangeGt => ud.setBound .gt content
  | .rangeGe => ud.setBound .gte content
  | .rangeLt => ud.setBound .lt content
  | .rangeLe => ud.setBound .lte content
  | .rangeEq => ud.setBound .eq content
  | .cve => { ud with curEntry := { ud.curEntry with cve := content :: ud.curEntry.cve } }

end VulnxmlUserdata

/-- What Expat reports: an element that starts or ends, or a run of character data, here
with the pieces that it is split into. -/
inductive VulnxmlEvent
  | startElement (element : String) (attributes : List (String × AuditText))
  | endElement (element : String)
  | data (first : AuditText) (more : List AuditText)
deriving DecidableEq, Repr

/-- The run is delivered in one call. -/
def handleWhole (ud : VulnxmlUserdata) : VulnxmlEvent → VulnxmlUserdata
  | .startElement element attributes => ud.startElement element attributes
  | .endElement element => ud.endElement element
  | .data first more => ud.handleData (first :: more).flatten

/-- The run is delivered in one call for each piece. -/
def handlePieces (ud : VulnxmlUserdata) : VulnxmlEvent → VulnxmlUserdata
  | .data first more => (first :: more).foldl VulnxmlUserdata.handleData ud
  | event => handleWhole ud event

/-- The text is not split where the handler records it: it keeps the last piece of a
topic, a name or a bound, and every piece of a CVE name. -/
def WholeText (ud : VulnxmlUserdata) : VulnxmlEvent → Prop
  | .data first more =>
      match ud.state with
      | .init => True
      | .vuln => True
      | .package => True
      | .range => True
      | .cve => more = []
      | .topic => (first :: more).dropLast.flatten = []
      | .packageName => (first :: more).dropLast.flatten = []
      | _ => ud.rangeNum = 1 ∨ ud.rangeNum = 2 → (first :: more).dropLast.flatten = []
  | _ => True

/-- Every run of character data meets the condition in the state it arrives in. -/
def WholeTexts (ud : VulnxmlUserdata) : List VulnxmlEvent → Prop
  | [] => True
  | event :: rest => WholeText ud event ∧ WholeTexts (handleWhole ud event) rest

instance (ud : VulnxmlUserdata) (event : VulnxmlEvent) : Decidable (WholeText ud event) := by
  unfold WholeText
  cases event with
  | data first more => cases ud.state <;> infer_instance
  | _ => infer_instance

instance decidableWholeTexts : ∀ (ud : VulnxmlUserdata) (events : List VulnxmlEvent),
    Decidable (WholeTexts ud events)
  | _, [] => .isTrue trivial
  | ud, event :: rest =>
      have := decidableWholeTexts (handleWhole ud event) rest
      inferInstanceAs (Decidable (WholeText ud event ∧ WholeTexts (handleWhole ud event) rest))

/-! ## Pieces against the whole -/

section Pieces

variable {ud : VulnxmlUserdata}

/-- The text that is kept is the last piece, which is the whole text when nothing stands
before it. -/
theorem getLast_of_dropLast_flatten {first : AuditText} {more : List AuditText}
    (nothing : (first :: more).dropLast.flatten = []) :
    (first :: more).getLast (List.cons_ne_nil first more) = (first :: more).flatten := by
  conv_rhs => rw [← List.dropLast_append_getLast (List.cons_ne_nil first more)]
  rw [List.flatten_append, nothing]
  simp

/-- Where a handler forgets the pieces before, the last one counts. -/
theorem foldl_of_forgets {α β : Type} {f : β → α → β}
    (forgets : ∀ (state : β) (a b : α), f (f state a) b = f state b) (first : α) :
    ∀ (more : List α) (state : β), (first :: more).foldl f state =
      f state ((first :: more).getLast (List.cons_ne_nil first more)) := by
  intro more
  induction more generalizing first with
  | nil => exact fun _ => rfl
  | cons second rest ih =>
      intro state
      rw [List.foldl_cons, ih second (f state first), forgets, List.getLast_cons_cons]

theorem foldl_of_ignores {α β : Type} {f : β → α → β} {state : β}
    (ignores : ∀ a, f state a = state) (pieces : List α) : pieces.foldl f state = state := by
  induction pieces with
  | nil => rfl
  | cons piece rest ih => rw [List.foldl_cons, ignores, ih]

@[simp] theorem modifyPackage_state (change : AuditPackage → AuditPackage) :
    (ud.modifyPackage change).state = ud.state := rfl

@[simp] theorem modifyPackage_rangeNum (change : AuditPackage → AuditPackage) :
    (ud.modifyPackage change).rangeNum = ud.rangeNum := rfl

theorem modifyPackage_modifyPackage (change after : AuditPackage → AuditPackage) :
    (ud.modifyPackage change).modifyPackage after =
      ud.modifyPackage fun package => after (change package) := by
  simp only [VulnxmlUserdata.modifyPackage, List.modifyHead_modifyHead]
  rfl

theorem setBound_state (type : VersionOp) (content : AuditText) :
    (ud.setBound type content).state = ud.state := by
  unfold VulnxmlUserdata.setBound
  split_ifs <;> rfl

theorem setBound_setBound (type : VersionOp) (first second : AuditText) :
    (ud.setBound type first).setBound type second = ud.setBound type second := by
  by_cases one : ud.rangeNum = 1
  · simp only [VulnxmlUserdata.setBound, one, if_true, modifyPackage_rangeNum,
      modifyPackage_modifyPackage, List.modifyHead_modifyHead]
    rfl
  · by_cases two : ud.rangeNum = 2
    · have notOne : ¬(2 = 1) := by omega
      simp only [VulnxmlUserdata.setBound, two, if_neg notOne, if_true, modifyPackage_rangeNum,
        modifyPackage_modifyPackage, List.modifyHead_modifyHead]
      rfl
    · simp [VulnxmlUserdata.setBound, one, two]

/-- A bound is recorded as its last piece. -/
theorem foldl_setBound (type : VersionOp) (first : AuditText) (more : List AuditText)
    (whole : ud.rangeNum = 1 ∨ ud.rangeNum = 2 → (first :: more).dropLast.flatten = []) :
    (first :: more).foldl (fun ud content => ud.setBound type content) ud =
      ud.setBound type (first :: more).flatten := by
  rw [foldl_of_forgets (fun state => @setBound_setBound state type) first more ud]
  by_cases recorded : ud.rangeNum = 1 ∨ ud.rangeNum = 2
  · rw [getLast_of_dropLast_flatten (whole recorded)]
  · rw [not_or] at recorded
    simp [VulnxmlUserdata.setBound, recorded]

/-- The data handler stays in its state, and so does what it does there. -/
theorem foldl_handleData_eq {f : VulnxmlUserdata → AuditText → VulnxmlUserdata}
    (here : ∀ other content, other.state = ud.state → other.handleData content = f other content)
    (stays : ∀ other content, (f other content).state = other.state) (pieces : List AuditText) :
    pieces.foldl VulnxmlUserdata.handleData ud = pieces.foldl f ud := by
  have all : ∀ other : VulnxmlUserdata, other.state = ud.state →
      pieces.foldl VulnxmlUserdata.handleData other = pieces.foldl f other := by
    induction pieces with
    | nil => exact fun _ _ => rfl
    | cons piece rest ih =>
        intro other same
        rw [List.foldl_cons, List.foldl_cons, here other piece same]
        exact ih _ ((stays other piece).trans same)
  exact all ud rfl

/-- Whole texts are handled alike, however many calls they come in. -/
theorem handlePieces_of_wholeText (event : VulnxmlEvent) (whole : WholeText ud event) :
    handlePieces ud event = handleWhole ud event := by
  cases event with
  | startElement element attributes => rfl
  | endElement element => rfl
  | data first more =>
      have bound : ∀ type : VersionOp,
          (∀ (other : VulnxmlUserdata) (content : AuditText), other.state = ud.state →
            other.handleData content = other.setBound type content) →
          (ud.rangeNum = 1 ∨ ud.rangeNum = 2 → (first :: more).dropLast.flatten = []) →
          handlePieces ud (.data first more) = handleWhole ud (.data first more) := by
        intro type here whole
        rw [handlePieces, handleWhole, here ud _ rfl, ← foldl_setBound type first more whole]
        exact foldl_handleData_eq here (fun other => @setBound_state other type) _
      have ignores : (∀ content, ud.handleData content = ud) →
          handlePieces ud (.data first more) = handleWhole ud (.data first more) := by
        intro same
        rw [handlePieces, handleWhole, foldl_of_ignores same, same]
      cases state : ud.state with
      | init => exact ignores fun content => by simp [VulnxmlUserdata.handleData, state]
      | vuln => exact ignores fun content => by simp [VulnxmlUserdata.handleData, state]
      | package => exact ignores fun content => by simp [VulnxmlUserdata.handleData, state]
      | range => exact ignores fun content => by simp [VulnxmlUserdata.handleData, state]
      | topic =>
          simp only [WholeText, state] at whole
          have here : ∀ (other : VulnxmlUserdata) (content : AuditText),
              other.state = ud.state → other.handleData content =
                { other with curEntry := { other.curEntry with desc := some content } } := by
            intro other content same
            simp only [VulnxmlUserdata.handleData, same.trans state]
          have forgets : ∀ (other : VulnxmlUserdata) (a b : AuditText),
              ({ other with curEntry := { other.curEntry with desc := some b } } :
                VulnxmlUserdata) =
              { { other with curEntry := { other.curEntry with desc := some a } } with
                curEntry := { other.curEntry with desc := some b } } := fun _ _ _ => rfl
          rw [handlePieces, handleWhole, here ud _ rfl, foldl_handleData_eq here fun _ _ => rfl,
            foldl_of_forgets (fun other a b => (forgets other a b).symm),
            getLast_of_dropLast_flatten whole]
      | packageName =>
          simp only [WholeText, state] at whole
          have here : ∀ (other : VulnxmlUserdata) (content : AuditText),
              other.state = ud.state → other.handleData content =
                other.modifyPackage fun package =>
                  { package with names := package.names.modifyHead fun _ => some content } := by
            intro other content same
            simp only [VulnxmlUserdata.handleData, same.trans state]
          have forgets : ∀ (other : VulnxmlUserdata) (a b : AuditText),
              ((other.modifyPackage fun package =>
                  { package with names := package.names.modifyHead fun _ => some a }).modifyPackage
                fun package =>
                  { package with names := package.names.modifyHead fun _ => some b }) =
              other.modifyPackage fun package =>
                { package with names := package.names.modifyHead fun _ => some b } := by
            intro other a b
            simp only [modifyPackage_modifyPackage, List.modifyHead_modifyHead]
            rfl
          rw [handlePieces, handleWhole, here ud _ rfl, foldl_handleData_eq here fun _ _ => rfl,
            foldl_of_forgets forgets, getLast_of_dropLast_flatten whole]
      | cve =>
          simp only [WholeText, state] at whole
          subst whole
          simp [handlePieces, handleWhole]
      | rangeGt =>
          simp only [WholeText, state] at whole
          exact bound .gt (fun other content same => by
            simp only [VulnxmlUserdata.handleData, same.trans state]) whole
      | rangeGe =>
          simp only [WholeText, state] at whole
          exact bound .gte (fun other content same => by
            simp only [VulnxmlUserdata.handleData, same.trans state]) whole
      | rangeLt =>
          simp only [WholeText, state] at whole
          exact bound .lt (fun other content same => by
            simp only [VulnxmlUserdata.handleData, same.trans state]) whole
      | rangeLe =>
          simp only [WholeText, state] at whole
          exact bound .lte (fun other content same => by
            simp only [VulnxmlUserdata.handleData, same.trans state]) whole
      | rangeEq =>
          simp only [WholeText, state] at whole
          exact bound .eq (fun other content same => by
            simp only [VulnxmlUserdata.handleData, same.trans state]) whole

theorem foldl_handlePieces_of_wholeTexts (events : List VulnxmlEvent)
    (whole : WholeTexts ud events) : events.foldl handlePieces ud = events.foldl handleWhole ud := by
  induction events generalizing ud with
  | nil => rfl
  | cons event rest ih =>
      rw [List.foldl_cons, List.foldl_cons, handlePieces_of_wholeText event whole.1]
      exact ih whole.2

end Pieces

/-! ## Runs -/

/-- In every run in which no recorded text is split, the entries are those of the
delivery in one call. -/
theorem wholeTexts_entries (events : List VulnxmlEvent) (whole : WholeTexts {} events) :
    (events.foldl handlePieces {}).entries = (events.foldl handleWhole {}).entries := by
  rw [foldl_handlePieces_of_wholeTexts events whole]

/-- A vulnerability in `ab` below version 2, with the name in the given pieces and the
text between the elements split at will. -/
def sampleVuln (first : AuditText) (more : List AuditText) : List VulnxmlEvent :=
  [.startElement "vuln" [("vid", ['v'])], .data ['\n'] [[' '], [' ']],
    .startElement "affects" [], .startElement "package" [], .startElement "name" [],
    .data first more, .endElement "name", .startElement "range" [], .startElement "lt" [],
    .data ['2'] [], .endElement "lt", .endElement "range", .endElement "package",
    .endElement "affects", .endElement "vuln"]

theorem sampleVuln_entries :
    ((sampleVuln ['a', 'b'] []).foldl handlePieces {}).entries =
      ((sampleVuln ['a', 'b'] []).foldl handleWhole {}).entries ∧
    ((sampleVuln ['a', 'b'] []).foldl handleWhole {}).entries.length = 2 := by
  refine ⟨wholeTexts_entries _ ?_, by decide +kernel⟩
  decide +kernel

/-- Of a name that comes in two pieces the second is left. -/
theorem splitName_entries :
    ¬∀ events : List VulnxmlEvent,
      (events.foldl handlePieces {}).entries = (events.foldl handleWhole {}).entries := by
  intro claim
  have names := congrArg (List.map AuditEntry.pkgname) (claim (sampleVuln ['a'] [['b']]))
  revert names
  decide +kernel

end Pkgng
