import Pkgng.Cudf.Emit

/-!
# When a CUDF document is well formed

A property is one line if exactly the last element is not followed by a comma, and the names
agree with the stanzas if the origins that are printed do.  Both can fail: `has_next` looks
at elements that are not printed, and stanzas are named by the uid.
-/

set_option autoImplicit false

namespace Pkgng

open Lib

/-- The text neither ends the line nor separates elements. -/
def Plain (name : List Char) : Prop := '\n' ∉ name ∧ ',' ∉ name

/-- One logical line of the entries: commas between them, and the only newline at the end. -/
def IsLine (entries : List (List Char)) (writes : List CudfWrite) : Prop :=
  writes.filter (· ≠ .fold) = (entries.map CudfWrite.entry).intersperse .comma ++ [.newline] ∧
    ∀ name ∈ entries, Plain name

def CudfWrite.name? : CudfWrite → Option (List Char)
  | .entry name => some name
  | _ => none

namespace CudfProperty

/-- The names in a property. -/
def names (property : CudfProperty) : List (List Char) := property.writes.filterMap CudfWrite.name?

/-- The properties that hold lists of packages. -/
def listKeys : List String := ["depends", "conflicts", "install", "upgrade", "remove"]

end CudfProperty

namespace CudfDocument

def properties (doc : CudfDocument) : List CudfProperty :=
  doc.stanzas.flatMap EmittedStanza.properties ++ doc.request

/-- Wherever a stanza of the uid is printed, it has the name. -/
def Names (doc : CudfDocument) (u : JobsUniverse) (name : List Char) (uid : Uid) : Prop :=
  ∀ stanza ∈ doc.stanzas, (u.pkg stanza.item).uid = uid →
    stanza.properties.head? = some ⟨"package", [.entry name, .newline]⟩

/-- Each list is one line, and each name of a package of the universe is that of its stanza. -/
structure WellFormed (doc : CudfDocument) (u : JobsUniverse) (add delete : CudfRequests) :
    Prop where
  lines : ∀ property ∈ doc.properties, property.key ∈ CudfProperty.listKeys →
    ∃ entries, IsLine entries property.writes
  depends : ∀ stanza ∈ doc.stanzas, ∀ property ∈ stanza.properties, property.key = "depends" →
    List.Forall₂ (fun name (dep : Dep) => doc.Names u name dep.uid) property.names
      (u.pkg stanza.item).deps
  requests : List.Forall₂ (fun (property : CudfProperty) (requests : CudfRequests) =>
      List.Forall₂ (fun name item => doc.Names u name (u.pkg item).uid) property.names
        (requests.items.filter fun item => !requests.skip item))
    doc.request [add, delete]

end CudfDocument

/-! ## The conditions -/

section Conditions

variable (u : JobsUniverse)

/-- Every version that is printed for `self` is followed by an item other than `self` exactly
if another version is printed after it. -/
def ChainFits (dropped : Dropped) (self : Addr) : List Addr → Prop
  | [] => True
  | item :: rest =>
      (item ≠ self → dropped item = false →
        ((∃ next ∈ rest.head?, next ≠ self) ↔ ∃ later ∈ rest, later ≠ self ∧ dropped later = false)) ∧
      ChainFits dropped self rest

/-- The conflicts of an item make one line: none at all, those of the package only, or
versions of its chain only. -/
def ConflictsFit (dropped : Dropped) (self : Addr) (chain : List Addr) : Prop :=
  hasConflicts u dropped self chain = true →
    if (u.pkg self).conflicts = [] then
      (∃ item ∈ chain, item ≠ self ∧ dropped item = false) ∧ ChainFits dropped self chain ∧
        Plain (u.pkg self).uid.toList
    else
      (∀ item ∈ chain, item ≠ self → dropped item = true) ∧
        ∀ conflict ∈ (u.pkg self).conflicts, Plain conflict.uniqueid.toList

/-- The last request of the table is not skipped, unless all are. -/
def RequestsFit (requests : CudfRequests) : Prop :=
  ((∀ item ∈ requests.items, requests.skip item = true) ∨
    ∃ item ∈ requests.items.getLast?, requests.skip item = false) ∧
  ∀ item ∈ requests.items, requests.skip item = false → Plain (u.pkg item).origin.toList

/-- The name is that of the uid wherever a stanza is printed for the uid. -/
def OriginFits (dropped : Dropped) (origin : String) (uid : Uid) : Prop :=
  (∃ sorted ∈ sortChains u dropped u.items, ∃ item ∈ sorted.1, sorted.2 item = false ∧
    (u.pkg item).uid = uid) → cudfPackageName origin = cudfPackageName uid

/-- What a universe and its requests have to meet. -/
structure EmitsWell (dropped : Dropped) (add delete : CudfRequests) : Prop where
  stanzas : ∀ sorted ∈ sortChains u dropped u.items, ∀ item ∈ sorted.1, sorted.2 item = false →
    ConflictsFit u sorted.2 item sorted.1 ∧
      ∀ dep ∈ (u.pkg item).deps, Plain dep.origin.toList ∧ OriginFits u dropped dep.origin dep.uid
  requests : ∀ requests ∈ [add, delete], RequestsFit u requests ∧
    ∀ item ∈ requests.items, requests.skip item = false →
      OriginFits u dropped (u.pkg item).origin (u.pkg item).uid

end Conditions

/-! ## Lines -/

/-- The flags of a line: a comma after every element but the last. -/
def Separated : List Bool → Prop
  | [] => False
  | [hasNext] => hasNext = false
  | hasNext :: rest => hasNext = true ∧ Separated rest

/-- What is printed, without the continuation lines. -/
def unfolded (elements : List (List Char × Bool)) : List CudfWrite :=
  elements.flatMap fun element => [.entry element.1, if element.2 then .comma else .newline]

theorem printElements_unfolded (elements : List (List Char × Bool)) (column : Nat) :
    (printElements elements column).1.filter (· ≠ .fold) = unfolded elements := by
  induction elements generalizing column with
  | nil => rfl
  | cons element rest ih =>
      obtain ⟨text, hasNext⟩ := element
      rw [printElements, List.filter_append, ih]
      have first : (cudfPrintElement text hasNext column).1.filter (· ≠ .fold) =
          [.entry text, if hasNext then .comma else .newline] := by
        unfold cudfPrintElement
        split <;> cases hasNext <;> rfl
      rw [first]
      rfl

theorem printElements_names (elements : List (List Char × Bool)) (column : Nat) :
    (printElements elements column).1.filterMap CudfWrite.name? = elements.map Prod.fst := by
  induction elements generalizing column with
  | nil => rfl
  | cons element rest ih =>
      obtain ⟨text, hasNext⟩ := element
      rw [printElements, List.filterMap_append, ih]
      have first : (cudfPrintElement text hasNext column).1.filterMap CudfWrite.name? = [text] := by
        unfold cudfPrintElement
        split <;> cases hasNext <;> rfl
      rw [first]
      rfl

/-- What is printed is the line of some entries only if these are the elements. -/
theorem unfolded_eq_iff (elements : List (List Char × Bool)) (entries : List (List Char)) :
    unfolded elements = (entries.map CudfWrite.entry).intersperse .comma ++ [.newline] ↔
      entries = elements.map Prod.fst ∧ Separated (elements.map Prod.snd) := by
  induction elements generalizing entries with
  | nil => simp [unfolded, Separated]
  | cons element rest ih =>
      obtain ⟨text, hasNext⟩ := element
      have split : unfolded ((text, hasNext) :: rest) =
          .entry text :: (if hasNext then .comma else .newline) :: unfolded rest := rfl
      rw [split]
      cases rest with
      | nil =>
          match entries with
          | [] => simp
          | [e] =>
              have sameText : text = e ↔ e = text := eq_comm
              cases hasNext <;> simp [unfolded, Separated, sameText]
          | e :: e2 :: es => simp [unfolded]
      | cons next rest =>
          match entries with
          | [] => simp
          | [e] => simp [unfolded]
          | e :: e2 :: es =>
              have tail := ih (e2 :: es)
              simp only [List.map_cons] at tail
              simp only [List.map_cons, List.intersperse_cons_cons, List.cons_append,
                List.cons.injEq, CudfWrite.entry.injEq, tail, Separated]
              cases hasNext <;> simp [and_assoc, eq_comm]

/-- The elements print one line if they are separated and plain. -/
theorem isLine_iff (elements : List (List Char × Bool)) (column : Nat) :
    (∃ entries, IsLine entries (printElements elements column).1) ↔
      Separated (elements.map Prod.snd) ∧ ∀ name ∈ elements.map Prod.fst, Plain name := by
  simp only [IsLine, printElements_unfolded, unfolded_eq_iff]
  constructor
  · rintro ⟨entries, ⟨rfl, separated⟩, plain⟩
    exact ⟨separated, plain⟩
  · rintro ⟨separated, plain⟩
    exact ⟨_, ⟨rfl, separated⟩, plain⟩

theorem plain_packageName (name : String) : Plain (cudfPackageName name) ↔ Plain name.toList := by
  have same : ∀ c : Char, c ≠ '@' → c ≠ '_' → (c ∈ cudfPackageName name ↔ c ∈ name.toList) := by
    intro c notAt notUnderscore
    unfold cudfPackageName
    rw [List.mem_map]
    constructor
    · rintro ⟨original, member, isC⟩
      split at isC
      · exact absurd isC.symm notAt
      · exact isC ▸ member
    · intro member
      exact ⟨c, member, if_neg notUnderscore⟩
  unfold Plain
  rw [same '\n' (by decide) (by decide), same ',' (by decide) (by decide)]

/-! ## Tables -/

theorem tableElements_fst (names : List (List Char)) :
    (tableElements names).map Prod.fst = names := by
  induction names with
  | nil => rfl
  | cons name rest ih => rw [tableElements, List.map_cons, ih]

/-- What follows a table is on the line behind its newline. -/
theorem separated_table_append {names : List (List Char)} (some : names ≠ [])
    (flags : List Bool) :
    Separated ((tableElements names).map Prod.snd ++ flags) ↔ flags = [] := by
  induction names with
  | nil => exact absurd rfl some
  | cons name rest ih =>
      cases rest with
      | nil =>
          cases flags with
          | nil => simp [tableElements, Separated]
          | cons flag flags => simp [tableElements, Separated]
      | cons next rest =>
          have later := ih (List.cons_ne_nil _ _)
          rw [tableElements] at later
          simpa [tableElements, Separated] using later

theorem table_isLine_iff {names : List (List Char)} (some : names ≠ []) :
    (∃ entries, IsLine entries (printElements (tableElements names) 0).1) ↔
      ∀ name ∈ names, Plain name := by
  have separated := (separated_table_append some []).mpr rfl
  rw [List.append_nil] at separated
  rw [isLine_iff, tableElements_fst]
  exact ⟨fun line => line.2, fun plain => ⟨separated, plain⟩⟩

/-! ## Requests -/

section Requests

variable {u : JobsUniverse} {skip : Skips}

theorem requestElements_fst (items : List Addr) : (requestElements u skip items).map Prod.fst =
    (items.filter fun item => !skip item).map fun item => cudfPackageName (u.pkg item).origin := by
  induction items with
  | nil => rfl
  | cons item rest ih =>
      rw [requestElements, List.filter_cons]
      cases skip item with
      | true => simpa using ih
      | false => simpa using ih

theorem requestElements_eq_nil_iff (items : List Addr) :
    requestElements u skip items = [] ↔ ∀ item ∈ items, skip item = true := by
  have names := congrArg List.length (@requestElements_fst u skip items)
  rw [List.length_map, List.length_map] at names
  rw [← List.length_eq_zero_iff, names, List.length_eq_zero_iff, List.filter_eq_nil_iff]
  simp

theorem requestElements_separated_iff {items : List Addr}
    (printed : requestElements u skip items ≠ []) :
    Separated ((requestElements u skip items).map Prod.snd) ↔
      ∃ item ∈ items.getLast?, skip item = false := by
  induction items with
  | nil => exact absurd rfl printed
  | cons item rest ih =>
      cases rest with
      | nil =>
          cases skipped : skip item with
          | true => simp [requestElements, skipped] at printed
          | false => simp [requestElements, skipped, Separated]
      | cons next rest =>
          rw [List.getLast?_cons_cons]
          cases skipped : skip item with
          | true =>
              rw [requestElements, if_pos skipped] at printed ⊢
              exact ih printed
          | false =>
              rw [requestElements, if_neg (by simp [skipped])]
              by_cases more : requestElements u skip (next :: rest) = []
              · rw [more]
                have allSkipped := (requestElements_eq_nil_iff _).mp more
                constructor
                · intro separated
                  cases separated
                · rintro ⟨last, isLast, kept⟩
                  have member := List.mem_of_getLast? isLast
                  rw [allSkipped last member] at kept
                  cases kept
              · have later := ih more
                obtain ⟨first, others, isElements⟩ := List.exists_cons_of_ne_nil more
                rw [isElements] at later ⊢
                rw [← later]
                simp [Separated]

theorem emitRequests_isLine_iff (key : String) (requests : CudfRequests) :
    (∃ entries, IsLine entries (emitRequests u key requests).writes) ↔ RequestsFit u requests := by
  unfold emitRequests RequestsFit
  dsimp only
  have plain : (∀ name ∈ (requestElements u requests.skip requests.items).map Prod.fst, Plain name) ↔
      ∀ item ∈ requests.items, requests.skip item = false → Plain (u.pkg item).origin.toList := by
    rw [requestElements_fst]
    constructor
    · intro plain item member kept
      exact (plain_packageName _).mp (plain _ (List.mem_map_of_mem (List.mem_filter.mpr
        ⟨member, by simp [kept]⟩)))
    · intro plain name member
      obtain ⟨item, inItems, rfl⟩ := List.mem_map.mp member
      obtain ⟨member, kept⟩ := List.mem_filter.mp inItems
      exact (plain_packageName _).mpr (plain item member (by simpa using kept))
  cases isElements : requestElements u requests.skip requests.items with
  | nil =>
      have allSkipped := (requestElements_eq_nil_iff _).mp isElements
      rw [isElements] at plain
      constructor
      · exact fun _ => ⟨Or.inl allSkipped, plain.mp (by simp)⟩
      · exact fun _ => ⟨[], rfl, by simp⟩
  | cons first rest =>
      have printed : requestElements u requests.skip requests.items ≠ [] := by
        rw [isElements]
        exact List.cons_ne_nil _ _
      have notAll : ¬∀ item ∈ requests.items, requests.skip item = true :=
        fun allSkipped => printed ((requestElements_eq_nil_iff _).mpr allSkipped)
      have separated := requestElements_separated_iff printed
      rw [isElements] at separated plain
      rw [if_neg (by simp), isLine_iff, separated, plain, or_iff_right notAll]

end Requests

/-! ## Conflicts -/

section ConflictLines

variable {u : JobsUniverse} {dropped : Dropped} {self : Addr}

theorem chainElements_eq_nil_iff (ver : Nat) (chain : List Addr) :
    chainElements u dropped self ver chain = [] ↔
      ∀ item ∈ chain, item ≠ self → dropped item = true := by
  induction chain generalizing ver with
  | nil => simp [chainElements]
  | cons item rest ih =>
      rw [chainElements]
      split
      · next printed => simp [printed.1, printed.2]
      · next notPrinted =>
          have here : item ≠ self → dropped item = true := by
            intro other
            by_contra kept
            exact notPrinted ⟨other, by simpa using kept⟩
          rw [ih, List.forall_mem_cons]
          exact ⟨fun rest => ⟨here, rest⟩, fun both => both.2⟩

theorem chainElements_ne_nil_iff (ver : Nat) (chain : List Addr) :
    chainElements u dropped self ver chain ≠ [] ↔
      ∃ item ∈ chain, item ≠ self ∧ dropped item = false := by
  rw [Ne, chainElements_eq_nil_iff]
  simp

/-- Where nothing is printed, no comma is wrong. -/
theorem chainFits_of_none {chain : List Addr}
    (none : ¬∃ item ∈ chain, item ≠ self ∧ dropped item = false) :
    ChainFits dropped self chain := by
  induction chain with
  | nil => trivial
  | cons item rest ih =>
      refine ⟨fun other kept => absurd ⟨item, List.mem_cons_self .., other, kept⟩ none, ih ?_⟩
      rintro ⟨later, member, printed⟩
      exact none ⟨later, List.mem_cons_of_mem _ member, printed⟩

theorem chainElements_separated_iff (ver : Nat) (chain : List Addr) :
    Separated ((chainElements u dropped self ver chain).map Prod.snd) ↔
      (∃ item ∈ chain, item ≠ self ∧ dropped item = false) ∧ ChainFits dropped self chain := by
  induction chain generalizing ver with
  | nil => simp [chainElements, Separated]
  | cons item rest ih =>
      have later := ih (ver + 1)
      have more := @chainElements_ne_nil_iff u dropped self (ver + 1) rest
      have anyOf : (∃ x ∈ item :: rest, x ≠ self ∧ dropped x = false) ↔
          (item ≠ self ∧ dropped item = false) ∨ ∃ x ∈ rest, x ≠ self ∧ dropped x = false := by
        simp
      rw [chainElements, ChainFits, anyOf]
      split
      · next printed =>
          have follows : (rest.head?.any (· ≠ self)) = true ↔ ∃ next ∈ rest.head?, next ≠ self := by
            simp [Option.any_eq_true]
          have comma : (item ≠ self → dropped item = false →
              ((∃ next ∈ rest.head?, next ≠ self) ↔
                ∃ x ∈ rest, x ≠ self ∧ dropped x = false)) ↔
              ((rest.head?.any (· ≠ self)) = true ↔
                chainElements u dropped self (ver + 1) rest ≠ []) := by
            rw [follows, more]
            exact ⟨fun fits => fits printed.1 printed.2, fun fits _ _ => fits⟩
          rw [comma, List.map_cons]
          generalize (rest.head?.any (· ≠ self)) = hasNext
          cases isElements : chainElements u dropped self (ver + 1) rest with
          | nil =>
              have noMore : ¬∃ x ∈ rest, x ≠ self ∧ dropped x = false := by
                rw [← more, isElements]
                simp
              have fits := chainFits_of_none noMore
              cases hasNext <;> simp [Separated, printed, fits]
          | cons first others =>
              have anyLater : ∃ x ∈ rest, x ≠ self ∧ dropped x = false :=
                more.mp (by rw [isElements]; exact List.cons_ne_nil _ _)
              rw [isElements] at later
              have separated : Separated (hasNext :: (first :: others).map Prod.snd) ↔
                  hasNext = true ∧ Separated ((first :: others).map Prod.snd) := Iff.rfl
              rw [separated, later]
              cases hasNext <;> simp [printed, anyLater]
      · next notPrinted =>
          rw [later]
          constructor
          · rintro ⟨anyLater, fits⟩
            exact ⟨Or.inr anyLater, fun other kept => absurd ⟨other, kept⟩ notPrinted, fits⟩
          · rintro ⟨here | anyLater, _, fits⟩
            · exact absurd here notPrinted
            · exact ⟨anyLater, fits⟩

theorem plain_append {first second : List Char} :
    Plain (first ++ second) ↔ Plain first ∧ Plain second := by
  unfold Plain
  rw [List.mem_append, List.mem_append]
  tauto

theorem plain_version (ver : Nat) : Plain ('=' :: (toString ver).toList) := by
  have digits : ∀ c ∈ (toString ver).toList, c.isDigit = true := by
    intro c member
    rw [Nat.toString_eq_repr, Nat.toList_repr] at member
    exact Nat.isDigit_of_mem_toDigits (by decide) (by decide) member
  constructor
  · intro member
    rcases List.mem_cons.mp member with isNewline | inDigits
    · cases isNewline
    · exact absurd (digits _ inDigits) (by decide)
  · intro member
    rcases List.mem_cons.mp member with isComma | inDigits
    · cases isComma
    · exact absurd (digits _ inDigits) (by decide)

/-- The names in the versions of a chain are the uid of the package. -/
theorem chainElements_plain_iff {ver : Nat} {chain : List Addr}
    (printed : chainElements u dropped self ver chain ≠ []) :
    (∀ name ∈ (chainElements u dropped self ver chain).map Prod.fst, Plain name) ↔
      Plain (u.pkg self).uid.toList := by
  have named : ∀ name ∈ (chainElements u dropped self ver chain).map Prod.fst,
      Plain name ↔ Plain (u.pkg self).uid.toList := by
    clear printed
    induction chain generalizing ver with
    | nil => simp [chainElements]
    | cons item rest ih =>
        rw [chainElements]
        split
        · intro name member
          rcases List.mem_cons.mp member with rfl | inRest
          · rw [plain_append, plain_packageName]
            exact and_iff_left (plain_version ver)
          · exact ih name inRest
        · exact ih
  obtain ⟨first, others, isElements⟩ := List.exists_cons_of_ne_nil printed
  constructor
  · intro plain
    have member : first.1 ∈ (chainElements u dropped self ver chain).map Prod.fst := by
      rw [isElements]
      exact List.mem_cons_self ..
    exact (named _ member).mp (plain _ member)
  · exact fun plain name member => (named name member).mpr plain

/-- The elements of a conflicts property. -/
def conflictElements (u : JobsUniverse) (dropped : Dropped) (self : Addr) (chain : List Addr) :
    List (List Char × Bool) :=
  tableElements ((u.pkg self).conflicts.map fun conflict => cudfPackageName conflict.uniqueid) ++
    chainElements u dropped self 1 chain

theorem conflicts_isLine_iff (chain : List Addr) :
    (∃ entries, IsLine entries (printElements (conflictElements u dropped self chain) 0).1) ↔
      if (u.pkg self).conflicts = [] then
        (∃ item ∈ chain, item ≠ self ∧ dropped item = false) ∧ ChainFits dropped self chain ∧
          Plain (u.pkg self).uid.toList
      else
        (∀ item ∈ chain, item ≠ self → dropped item = true) ∧
          ∀ conflict ∈ (u.pkg self).conflicts, Plain conflict.uniqueid.toList := by
  rw [isLine_iff, conflictElements, List.map_append, List.map_append]
  split
  · next noConflicts =>
      rw [noConflicts, List.map_nil, tableElements, List.map_nil, List.nil_append, List.map_nil,
        List.nil_append, chainElements_separated_iff, and_assoc]
      refine and_congr_right fun anyPrinted => and_congr_right fun _ => ?_
      exact chainElements_plain_iff ((chainElements_ne_nil_iff 1 chain).mpr anyPrinted)
  · next conflicts =>
      have some : ((u.pkg self).conflicts.map fun conflict =>
          cudfPackageName conflict.uniqueid) ≠ [] := by simpa using conflicts
      rw [separated_table_append some, List.map_eq_nil_iff, tableElements_fst,
        chainElements_eq_nil_iff]
      refine and_congr_right fun noneElse => ?_
      rw [(chainElements_eq_nil_iff 1 chain).mpr noneElse, List.map_nil, List.append_nil]
      simp [plain_packageName]

end ConflictLines

/-! ## Stanzas -/

section Stanzas

variable {u : JobsUniverse} {dropped : Dropped} {self : Addr}

/-- The properties of a stanza that hold lists. -/
theorem mem_cudfEmitPkg {version : Nat} {chain : List Addr} {property : CudfProperty}
    (isList : property.key ∈ CudfProperty.listKeys) :
    property ∈ cudfEmitPkg u dropped self version chain ↔
      ((u.pkg self).deps ≠ [] ∧ property = ⟨"depends", (printElements (tableElements
        ((u.pkg self).deps.map fun dep => cudfPackageName dep.origin)) 0).1⟩) ∨
      (hasConflicts u dropped self chain = true ∧ property =
        ⟨"conflicts", (printElements (conflictElements u dropped self chain) 0).1⟩) := by
  have other : ∀ key writes, key ∉ CudfProperty.listKeys → property ≠ ⟨key, writes⟩ := by
    rintro key writes notList rfl
    exact notList isList
  have package := fun writes => other "package" writes (by decide)
  have version := fun writes => other "version" writes (by decide)
  have provides := fun writes => other "provides" writes (by decide)
  have installed := fun writes => other "installed" writes (by decide)
  simp only [cudfEmitPkg, List.mem_append, List.mem_cons, List.not_mem_nil, or_false, package,
    version, installed, false_or]
  have notProvided : property ∉ (if ((u.pkg self).provides.map cudfPackageName).isEmpty = true
      then [] else [(⟨"provides", (printElements (tableElements
        ((u.pkg self).provides.map cudfPackageName)) 0).1⟩ : CudfProperty)]) := by
    split
    · exact List.not_mem_nil
    · rw [List.mem_singleton]
      exact provides _
  rw [or_iff_left notProvided]
  refine or_congr ?_ ?_
  · cases isDeps : (u.pkg self).deps with
    | nil => simp
    | cons dep rest => simp
  · split
    · next printed => simp [printed, conflictElements]
    · next notPrinted => simp [notPrinted]

theorem emitPkg_lines_iff (version : Nat) (chain : List Addr) :
    (∀ property ∈ cudfEmitPkg u dropped self version chain,
      property.key ∈ CudfProperty.listKeys → ∃ entries, IsLine entries property.writes) ↔
        ConflictsFit u dropped self chain ∧ ∀ dep ∈ (u.pkg self).deps, Plain dep.origin.toList := by
  have depends : (u.pkg self).deps ≠ [] → ((∃ entries, IsLine entries (printElements
      (tableElements ((u.pkg self).deps.map fun dep => cudfPackageName dep.origin)) 0).1) ↔
        ∀ dep ∈ (u.pkg self).deps, Plain dep.origin.toList) := by
    intro some
    rw [table_isLine_iff (by simpa using some)]
    simp [plain_packageName]
  have isDepends : "depends" ∈ CudfProperty.listKeys := by decide
  have isConflicts : "conflicts" ∈ CudfProperty.listKeys := by decide
  constructor
  · intro lines
    constructor
    · intro printed
      exact (conflicts_isLine_iff chain).mp (lines _ ((mem_cudfEmitPkg isConflicts).mpr
        (Or.inr ⟨printed, rfl⟩)) isConflicts)
    · by_cases noDeps : (u.pkg self).deps = []
      · simp [noDeps]
      · exact (depends noDeps).mp (lines _ ((mem_cudfEmitPkg isDepends).mpr
          (Or.inl ⟨noDeps, rfl⟩)) isDepends)
  · rintro ⟨fits, plain⟩ property member isList
    rcases (mem_cudfEmitPkg isList).mp member with ⟨some, rfl⟩ | ⟨printed, rfl⟩
    · exact (depends some).mpr plain
    · exact (conflicts_isLine_iff chain).mpr (fits printed)

/-- The stanzas of a chain are those of its items that are not dropped. -/
theorem forall_mem_emitChain {chain : List Addr} {P : EmittedStanza → Prop} {Q : Addr → Prop}
    (same : ∀ item version, P ⟨item, cudfEmitPkg u dropped item version chain⟩ ↔ Q item)
    (version : Nat) (items : List Addr) :
    (∀ stanza ∈ emitChain u dropped chain version items, P stanza) ↔
      ∀ item ∈ items, dropped item = false → Q item := by
  induction items generalizing version with
  | nil => simp [emitChain]
  | cons item rest ih =>
      rw [emitChain, List.forall_mem_cons]
      cases isDropped : dropped item with
      | true => simp [ih]
      | false => simp [ih, same]

theorem forall_mem_stanzas {type : JobsType} {add delete : CudfRequests}
    {P : EmittedStanza → Prop} {Q : List Addr × Dropped → Addr → Prop}
    (same : ∀ sorted item version,
      P ⟨item, cudfEmitPkg u sorted.2 item version sorted.1⟩ ↔ Q sorted item) :
    (∀ stanza ∈ (pkgJobsCudfEmitFile u dropped type add delete).stanzas, P stanza) ↔
      ∀ sorted ∈ sortChains u dropped u.items, ∀ item ∈ sorted.1, sorted.2 item = false →
        Q sorted item := by
  have each := fun sorted : List Addr × Dropped =>
    @forall_mem_emitChain u sorted.2 sorted.1 P (Q sorted) (same sorted) 1 sorted.1
  simp only [pkgJobsCudfEmitFile, List.forall_mem_flatMap, each]

/-- A name agrees with the stanzas of a uid if it is the name of the uid. -/
theorem names_iff {type : JobsType} {add delete : CudfRequests} (origin : String) (uid : Uid) :
    (pkgJobsCudfEmitFile u dropped type add delete).Names u (cudfPackageName origin) uid ↔
      OriginFits u dropped origin uid := by
  unfold CudfDocument.Names OriginFits
  rw [@forall_mem_stanzas u dropped type add delete _
    (fun _ item => (u.pkg item).uid = uid → cudfPackageName origin = cudfPackageName uid)]
  · constructor
    · rintro fits ⟨sorted, inChains, item, member, kept, isUid⟩
      exact fits sorted inChains item member kept isUid
    · exact fun fits sorted inChains item member kept isUid =>
        fits ⟨sorted, inChains, item, member, kept, isUid⟩
  · intro sorted item version
    have head : (cudfEmitPkg u sorted.2 item version sorted.1).head? =
        some ⟨"package", [.entry (cudfPackageName (u.pkg item).uid), .newline]⟩ := rfl
    refine imp_congr_right fun isUid => ?_
    rw [← isUid, head]
    simp [eq_comm]

theorem forall₂_map_left {α β : Type} {R : List Char → β → Prop} {f : α → List Char}
    {g : α → β} (list : List α) :
    List.Forall₂ R (list.map f) (list.map g) ↔ ∀ x ∈ list, R (f x) (g x) := by
  induction list with
  | nil => simp
  | cons x rest ih => simp [ih]

theorem emitRequests_names (key : String) (requests : CudfRequests) :
    (emitRequests u key requests).names = (requests.items.filter fun item =>
      !requests.skip item).map fun item => cudfPackageName (u.pkg item).origin := by
  rw [← requestElements_fst]
  unfold emitRequests CudfProperty.names
  dsimp only
  cases requestElements u requests.skip requests.items with
  | nil => rfl
  | cons first rest => exact printElements_names _ 0

end Stanzas

section Document

variable {u : JobsUniverse} {dropped : Dropped} {type : JobsType} {add delete : CudfRequests}

theorem document_lines_iff :
    (∀ property ∈ (pkgJobsCudfEmitFile u dropped type add delete).properties,
      property.key ∈ CudfProperty.listKeys → ∃ entries, IsLine entries property.writes) ↔
        (∀ sorted ∈ sortChains u dropped u.items, ∀ item ∈ sorted.1, sorted.2 item = false →
          ConflictsFit u sorted.2 item sorted.1 ∧
            ∀ dep ∈ (u.pkg item).deps, Plain dep.origin.toList) ∧
        ∀ requests ∈ [add, delete], RequestsFit u requests := by
  have isRequest : requestKey type ∈ CudfProperty.listKeys := by
    cases type <;> decide
  have isRemove : "remove" ∈ CudfProperty.listKeys := by decide
  rw [CudfDocument.properties, List.forall_mem_append, List.forall_mem_flatMap,
    forall_mem_stanzas fun sorted item version => emitPkg_lines_iff version sorted.1]
  refine and_congr_right fun _ => ?_
  simp only [pkgJobsCudfEmitFile, List.forall_mem_cons, List.not_mem_nil, false_imp_iff,
    implies_true, and_true]
  refine and_congr ?_ ?_
  · rw [← emitRequests_isLine_iff (requestKey type)]
    exact ⟨fun line => line isRequest, fun line _ => line⟩
  · rw [← emitRequests_isLine_iff "remove"]
    exact ⟨fun line => line isRemove, fun line _ => line⟩

theorem document_depends_iff :
    (∀ stanza ∈ (pkgJobsCudfEmitFile u dropped type add delete).stanzas,
      ∀ property ∈ stanza.properties, property.key = "depends" →
        List.Forall₂ (fun name (dep : Dep) =>
          (pkgJobsCudfEmitFile u dropped type add delete).Names u name dep.uid) property.names
            (u.pkg stanza.item).deps) ↔
      ∀ sorted ∈ sortChains u dropped u.items, ∀ item ∈ sorted.1, sorted.2 item = false →
        ∀ dep ∈ (u.pkg item).deps, OriginFits u dropped dep.origin dep.uid := by
  refine forall_mem_stanzas fun sorted item version => ?_
  have isDepends : "depends" ∈ CudfProperty.listKeys := by decide
  -- The names in the property are those of the dependencies, in their order.
  have named : List.Forall₂ (fun name (dep : Dep) =>
      (pkgJobsCudfEmitFile u dropped type add delete).Names u name dep.uid)
        (CudfProperty.names ⟨"depends", (printElements (tableElements
          ((u.pkg item).deps.map fun dep => cudfPackageName dep.origin)) 0).1⟩)
        (u.pkg item).deps ↔
      ∀ dep ∈ (u.pkg item).deps, OriginFits u dropped dep.origin dep.uid := by
    have names := @forall₂_map_left Dep Dep (fun name dep =>
      (pkgJobsCudfEmitFile u dropped type add delete).Names u name dep.uid)
        (fun dep => cudfPackageName dep.origin) id (u.pkg item).deps
    rw [List.map_id] at names
    rw [CudfProperty.names, printElements_names, tableElements_fst, names]
    exact forall₂_congr fun dep _ => names_iff dep.origin dep.uid
  constructor
  · intro fits
    by_cases noDeps : (u.pkg item).deps = []
    · simp [noDeps]
    · exact named.mp (fits _ ((mem_cudfEmitPkg isDepends).mpr (Or.inl ⟨noDeps, rfl⟩)) rfl)
  · intro fits property member isKey
    rcases (mem_cudfEmitPkg (isKey ▸ isDepends)).mp member with ⟨_, rfl⟩ | ⟨_, rfl⟩
    · exact named.mpr fits
    · exact absurd (show "conflicts" = "depends" from isKey) (by decide)

theorem document_requests_iff :
    List.Forall₂ (fun (property : CudfProperty) (requests : CudfRequests) =>
      List.Forall₂ (fun name item =>
        (pkgJobsCudfEmitFile u dropped type add delete).Names u name (u.pkg item).uid)
          property.names (requests.items.filter fun item => !requests.skip item))
      (pkgJobsCudfEmitFile u dropped type add delete).request [add, delete] ↔
    ∀ requests ∈ [add, delete], ∀ item ∈ requests.items, requests.skip item = false →
      OriginFits u dropped (u.pkg item).origin (u.pkg item).uid := by
  have named : ∀ key requests, List.Forall₂ (fun name item =>
      (pkgJobsCudfEmitFile u dropped type add delete).Names u name (u.pkg item).uid)
        (emitRequests u key requests).names (requests.items.filter fun item =>
          !requests.skip item) ↔
      ∀ item ∈ requests.items, requests.skip item = false →
        OriginFits u dropped (u.pkg item).origin (u.pkg item).uid := by
    intro key requests
    have names := @forall₂_map_left Addr Addr (fun name item =>
      (pkgJobsCudfEmitFile u dropped type add delete).Names u name (u.pkg item).uid)
        (fun item => cudfPackageName (u.pkg item).origin) id
        (requests.items.filter fun item => !requests.skip item)
    rw [List.map_id] at names
    rw [emitRequests_names, names]
    simp [names_iff]
  have request : (pkgJobsCudfEmitFile u dropped type add delete).request =
      [emitRequests u (requestKey type) add, emitRequests u "remove" delete] := rfl
  rw [request, List.forall₂_cons, List.forall₂_cons, named, named]
  simp

end Document

/-- A document is well formed exactly if the universe and the requests fit. -/
theorem emitFile_wellFormed_iff (u : JobsUniverse) (dropped : Dropped) (type : JobsType)
    (add delete : CudfRequests) :
    (pkgJobsCudfEmitFile u dropped type add delete).WellFormed u add delete ↔
      EmitsWell u dropped add delete := by
  constructor
  · rintro ⟨lines, depends, requests⟩
    obtain ⟨stanzas, fits⟩ := document_lines_iff.mp lines
    have depends := document_depends_iff.mp depends
    have requests := document_requests_iff.mp requests
    constructor
    · intro sorted inChains item member kept
      obtain ⟨conflicts, plain⟩ := stanzas sorted inChains item member kept
      exact ⟨conflicts, fun dep isDep =>
        ⟨plain dep isDep, depends sorted inChains item member kept dep isDep⟩⟩
    · exact fun table isTable => ⟨fits table isTable, requests table isTable⟩
  · rintro ⟨stanzas, requests⟩
    refine ⟨document_lines_iff.mpr ⟨?_, fun table isTable => (requests table isTable).1⟩,
      document_depends_iff.mpr ?_,
      document_requests_iff.mpr fun table isTable => (requests table isTable).2⟩
    · intro sorted inChains item member kept
      obtain ⟨conflicts, depends⟩ := stanzas sorted inChains item member kept
      exact ⟨conflicts, fun dep isDep => (depends dep isDep).1⟩
    · intro sorted inChains item member kept dep isDep
      exact ((stanzas sorted inChains item member kept).2 dep isDep).2

/-- Two packages, the second of which is skipped among the requests. -/
def skippedLast : JobsUniverse :=
  JobsUniverse.ofPackages Pkg.digest
    [{ type := .remote, uid := "app", origin := "app", digest := some "d1" },
     { type := .remote, uid := "tool", origin := "tool", digest := some "d2" }]

/-- The line of the install requests ends with a comma. -/
theorem skippedLast_not_wellFormed :
    ¬ ∀ add delete, (pkgJobsCudfEmitFile skippedLast (fun _ => false) .install add
      delete).WellFormed skippedLast add delete := by
  intro wellFormed
  have lines := (wellFormed ⟨[0, 1], fun item => item = 1⟩ ⟨[], fun _ => false⟩).lines
  have property := lines ⟨"install", [.entry "app".toList, .comma]⟩
    (List.mem_append_right _ (List.mem_cons_self ..)) (by decide)
  obtain ⟨entries, line, _⟩ := property
  have last := congrArg List.getLast? line
  rw [List.getLast?_concat] at last
  cases last

end Pkgng
