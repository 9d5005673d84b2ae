import Pkgng.Db.PackageTable

/-!
# Annotations of installed packages

`pkgdb_add_annotation`, `pkgdb_modify_annotation` and `pkgdb_delete_annotation` on the tables
`annotation` and `pkg_annotation`, statement by statement, with the rows that `sqlite3_changes`
counts.  No statement fails.
-/

set_option autoImplicit false

namespace Pkgng

/-- The row that a value of a unique column selects. -/
theorem find_key_eq_some {Row Key : Type} [DecidableEq Key] {key : Row → Key} {rows : List Row}
    (unique : (rows.map key).Nodup) {value : Key} {row : Row} :
    rows.find? (fun row => key row = value) = some row ↔ row ∈ rows ∧ key row = value := by
  constructor
  · intro found
    exact ⟨List.mem_of_find?_eq_some found, by simpa using List.find?_some found⟩
  · rintro ⟨member, rfl⟩
    cases found : rows.find? (fun other => key other = key row) with
    | none =>
        have missing := List.find?_eq_none.mp found row member
        exact absurd (decide_eq_true rfl) missing
    | some other =>
        have same : key other = key row := by simpa using List.find?_some found
        exact congrArg some
          (List.inj_on_of_nodup_map unique (List.mem_of_find?_eq_some found) member same)

/-- A row of `annotation`: a text that tags and values of any package refer to. -/
structure AnnotationRow (Text : Type) where
  id : Int
  text : Text
deriving DecidableEq, Repr

/-- A row of `pkg_annotation`; the package may be NULL. -/
structure PkgAnnotationRow where
  package : Option Nat
  tag : Int
  value : Int
deriving DecidableEq, Repr

/-- `UNIQUE (package_id, tag_id)`, where NULL is not equal to NULL. -/
def PkgAnnotationRow.SameKey (row other : PkgAnnotationRow) : Prop :=
  row.package ≠ none ∧ row.package = other.package ∧ row.tag = other.tag

instance (row other : PkgAnnotationRow) : Decidable (row.SameKey other) :=
  inferInstanceAs (Decidable (_ ∧ _ ∧ _))

/-- The two tables with their constraints. -/
structure AnnotationDb (Text : Type) where
  texts : List (AnnotationRow Text)
  rows : List PkgAnnotationRow
  ids : (texts.map AnnotationRow.id).Nodup
  distinct : (texts.map AnnotationRow.text).Nodup
  tags : ∀ row ∈ rows, row.tag ∈ texts.map AnnotationRow.id
  values : ∀ row ∈ rows, row.value ∈ texts.map AnnotationRow.id
  keys : rows.Pairwise fun row other => ¬row.SameKey other

/-- The choice of an `annotation_id` that no row has. -/
structure RowIds where
  next : List Int → Int
  fresh : ∀ ids, next ids ∉ ids

/-- What a statement leaves, and what `sqlite3_changes` tells. -/
structure Changed (Text : Type) where
  db : AnnotationDb Text
  changes : Nat

inductive AnnotateResult
  | ok
  | warn
deriving DecidableEq, Repr

/-- `rows_changed == 1 ? EPKG_OK : EPKG_WARN`. -/
def rowsChangedVerdict (changes : Nat) : AnnotateResult := if changes = 1 then .ok else .warn

theorem rowsChangedVerdict_ok {changes : Nat} : rowsChangedVerdict changes = .ok ↔ changes = 1 := by
  unfold rowsChangedVerdict
  split
  · next one => exact ⟨fun _ => one, fun _ => rfl⟩
  · next other => exact ⟨nofun, fun one => absurd one other⟩

/-- `SELECT id FROM packages WHERE name || '~' || origin = ?1` as a value. -/
def PackageTable.idOf (packages : PackageTable) (uid : Uid) : Option Nat :=
  (packages.rows.find? (·.uid = uid)).map PackageRow.id

structure PackageTable.Installed (packages : PackageTable) where
  row : PackageRow
  member : row ∈ packages.rows

theorem PackageTable.Installed.idOf {packages : PackageTable} (package : packages.Installed) :
    packages.idOf package.row.uid = some package.row.id := by
  have found : packages.rows.find? (·.uid = package.row.uid) = some package.row :=
    (find_key_eq_some packages.uids).mpr ⟨package.member, rfl⟩
  rw [PackageTable.idOf, found, Option.map_some]

namespace AnnotationDb

variable {Text : Type} [DecidableEq Text]

/-- `SELECT annotation_id FROM annotation WHERE annotation = ?` as a value. -/
def textId (db : AnnotationDb Text) (text : Text) : Option Int :=
  (db.texts.find? (·.text = text)).map AnnotationRow.id

omit [DecidableEq Text] in
theorem eq_of_id {db : AnnotationDb Text} {id : Int} {text other : Text}
    (member : ⟨id, text⟩ ∈ db.texts) (memberOther : ⟨id, other⟩ ∈ db.texts) : text = other :=
  congrArg AnnotationRow.text (List.inj_on_of_nodup_map db.ids member memberOther rfl)

omit [DecidableEq Text] in
theorem eq_of_text {db : AnnotationDb Text} {id other : Int} {text : Text}
    (member : ⟨id, text⟩ ∈ db.texts) (memberOther : ⟨other, text⟩ ∈ db.texts) : id = other :=
  congrArg AnnotationRow.id (List.inj_on_of_nodup_map db.distinct member memberOther rfl)

theorem textId_eq_some {db : AnnotationDb Text} {text : Text} {id : Int} :
    db.textId text = some id ↔ ⟨id, text⟩ ∈ db.texts := by
  rw [textId, Option.map_eq_some_iff]
  constructor
  · rintro ⟨⟨id, found⟩, first, rfl⟩
    obtain ⟨member, rfl⟩ := (find_key_eq_some db.distinct).mp first
    exact member
  · intro member
    exact ⟨⟨id, text⟩, (find_key_eq_some db.distinct).mpr ⟨member, rfl⟩, rfl⟩

/-- `ANNOTATE1`: `INSERT OR IGNORE INTO annotation`. -/
def annotate1 (rowIds : RowIds) (db : AnnotationDb Text) (text : Text) : Changed Text :=
  if listed : text ∈ db.texts.map AnnotationRow.text then ⟨db, 0⟩
  else
    { changes := 1
      db :=
        { texts := db.texts ++ [⟨rowIds.next (db.texts.map AnnotationRow.id), text⟩]
          rows := db.rows
          ids := by
            rw [List.map_append]
            refine List.Nodup.append db.ids (List.nodup_singleton _) ?_
            exact List.disjoint_singleton.mpr (rowIds.fresh _)
          distinct := by
            rw [List.map_append]
            refine List.Nodup.append db.distinct (List.nodup_singleton _) ?_
            exact List.disjoint_singleton.mpr listed
          tags := fun row member => by
            rw [List.map_append]
            exact List.mem_append_left _ (db.tags row member)
          values := fun row member => by
            rw [List.map_append]
            exact List.mem_append_left _ (db.values row member)
          keys := db.keys } }

/-- `ANNOTATE_ADD1`: `INSERT OR IGNORE INTO pkg_annotation`; a NULL for the tag or the value
is ignored as a second row for a package and tag is. -/
def annotateAdd1 (packages : PackageTable) (db : AnnotationDb Text) (uid : Uid)
    (tag value : Text) : Changed Text :=
  match isTag : db.textId tag, isValue : db.textId value with
  | some tagId, some valueId =>
      let row : PkgAnnotationRow := ⟨packages.idOf uid, tagId, valueId⟩
      if conflict : ∃ other ∈ db.rows, other.SameKey row then ⟨db, 0⟩
      else
        { changes := 1
          db :=
            { texts := db.texts
              rows := db.rows ++ [row]
              ids := db.ids
              distinct := db.distinct
              tags := List.forall_mem_append.mpr ⟨db.tags, List.forall_mem_singleton.mpr
                (List.mem_map.mpr ⟨_, textId_eq_some.mp isTag, rfl⟩)⟩
              values := List.forall_mem_append.mpr ⟨db.values, List.forall_mem_singleton.mpr
                (List.mem_map.mpr ⟨_, textId_eq_some.mp isValue, rfl⟩)⟩
              keys := List.pairwise_append.mpr ⟨db.keys, List.pairwise_singleton _ _,
                fun other member _ isNew same =>
                  conflict ⟨other, member, List.mem_singleton.mp isNew ▸ same⟩⟩ } }
  | _, _ => ⟨db, 0⟩

/-- The rows `ANNOTATE_DEL1` deletes. -/
def del1Selects (packages : PackageTable) (db : AnnotationDb Text) (uid : Uid) (tag : Text)
    (row : PkgAnnotationRow) : Bool :=
  packages.rows.any (fun package => package.uid = uid && row.package = some package.id) &&
    db.texts.any (fun text => text.text = tag && text.id = row.tag)

/-- `ANNOTATE_DEL1`: `DELETE FROM pkg_annotation`. -/
def annotateDel1 (packages : PackageTable) (db : AnnotationDb Text) (uid : Uid) (tag : Text) :
    Changed Text where
  changes := db.rows.countP (db.del1Selects packages uid tag)
  db :=
    { texts := db.texts
      rows := db.rows.filter fun row => !db.del1Selects packages uid tag row
      ids := db.ids
      distinct := db.distinct
      tags := fun row member => db.tags row (List.mem_of_mem_filter member)
      values := fun row member => db.values row (List.mem_of_mem_filter member)
      keys := db.keys.filter _ }

/-- The texts that `ANNOTATE_DEL2` keeps. -/
def Referenced (db : AnnotationDb Text) (text : AnnotationRow Text) : Bool :=
  text.id ∈ db.rows.map PkgAnnotationRow.tag || text.id ∈ db.rows.map PkgAnnotationRow.value

/-- `ANNOTATE_DEL2`: `DELETE FROM annotation`. -/
def annotateDel2 (db : AnnotationDb Text) : Changed Text where
  changes := db.texts.countP fun text => !db.Referenced text
  db :=
    { texts := db.texts.filter db.Referenced
      rows := db.rows
      ids := db.ids.sublist (List.Sublist.map _ List.filter_sublist)
      distinct := db.distinct.sublist (List.Sublist.map _ List.filter_sublist)
      tags := fun row member => by
        obtain ⟨text, listed, same⟩ := List.mem_map.mp (db.tags row member)
        refine List.mem_map.mpr ⟨text, List.mem_filter.mpr ⟨listed, ?_⟩, same⟩
        have referenced : text.id ∈ db.rows.map PkgAnnotationRow.tag :=
          same ▸ List.mem_map_of_mem member
        rw [Referenced, decide_eq_true referenced, Bool.true_or]
      values := fun row member => by
        obtain ⟨text, listed, same⟩ := List.mem_map.mp (db.values row member)
        refine List.mem_map.mpr ⟨text, List.mem_filter.mpr ⟨listed, ?_⟩, same⟩
        have referenced : text.id ∈ db.rows.map PkgAnnotationRow.value :=
          same ▸ List.mem_map_of_mem member
        rw [Referenced, decide_eq_true referenced, Bool.or_true]
      keys := db.keys }

end AnnotationDb

section Functions

variable {Text : Type} [DecidableEq Text] (rowIds : RowIds) (packages : PackageTable)
  (db : AnnotationDb Text) (uid : Uid) (tag value : Text)

def pkgdbAddAnnotation : AnnotationDb Text × AnnotateResult :=
  let db := (db.annotate1 rowIds tag).db
  let db := (db.annotate1 rowIds value).db
  let added := db.annotateAdd1 packages uid tag value
  (added.db, rowsChangedVerdict added.changes)

def pkgdbModifyAnnotation : AnnotationDb Text × AnnotateResult :=
  let db := (db.annotateDel1 packages uid tag).db
  let db := (db.annotate1 rowIds tag).db
  let db := (db.annotate1 rowIds value).db
  let db := (db.annotateAdd1 packages uid tag value).db
  let cleaned := db.annotateDel2
  -- the changes of the last statement, not of the insertion
  (cleaned.db, rowsChangedVerdict cleaned.changes)

def pkgdbDeleteAnnotation : AnnotationDb Text × AnnotateResult :=
  let deleted := db.annotateDel1 packages uid tag
  (deleted.db.annotateDel2.db, rowsChangedVerdict deleted.changes)

end Functions

namespace AnnotationDb

variable {Text : Type} [DecidableEq Text] {rowIds : RowIds} {packages : PackageTable}
  {db : AnnotationDb Text} {package : packages.Installed} {tag value text : Text}

/-! ## The annotations the tables stand for -/

/-- The package has the value for the tag. -/
def Annotated (db : AnnotationDb Text) (package : Option Nat) (tag value : Text) : Prop :=
  ∃ row ∈ db.rows, row.package = package ∧ ⟨row.tag, tag⟩ ∈ db.texts ∧
    ⟨row.value, value⟩ ∈ db.texts

omit [DecidableEq Text] in
/-- Statements that keep the rows, and the texts they refer to. -/
theorem annotated_congr {other : AnnotationDb Text} (rows : other.rows = db.rows)
    (texts : ∀ id text, (∃ row ∈ db.rows, row.tag = id ∨ row.value = id) →
      (⟨id, text⟩ ∈ other.texts ↔ ⟨id, text⟩ ∈ db.texts))
    (package : Option Nat) (tag value : Text) :
    other.Annotated package tag value ↔ db.Annotated package tag value := by
  unfold Annotated
  rw [rows]
  refine exists_congr fun row => and_congr_right fun member => and_congr_right fun _ => ?_
  rw [texts row.tag tag ⟨row, member, .inl rfl⟩, texts row.value value ⟨row, member, .inr rfl⟩]

theorem texts_annotate1 (rowIds : RowIds) (db : AnnotationDb Text) (text : Text) :
    (db.annotate1 rowIds text).db.texts = db.texts ∧
        text ∈ db.texts.map AnnotationRow.text ∨
      ∃ id, id ∉ db.texts.map AnnotationRow.id ∧
        (db.annotate1 rowIds text).db.texts = db.texts ++ [⟨id, text⟩] := by
  unfold annotate1
  split
  · next listed => exact .inl ⟨rfl, listed⟩
  · exact .inr ⟨_, rowIds.fresh _, rfl⟩

@[simp] theorem rows_annotate1 : (db.annotate1 rowIds text).db.rows = db.rows := by
  unfold annotate1
  split <;> rfl

theorem exists_annotate1 (rowIds : RowIds) (db : AnnotationDb Text) (text : Text) :
    ∃ id, ⟨id, text⟩ ∈ (db.annotate1 rowIds text).db.texts := by
  obtain ⟨texts, listed⟩ | ⟨id, -, texts⟩ := texts_annotate1 rowIds db text
  · obtain ⟨row, member, rfl⟩ := List.mem_map.mp listed
    exact ⟨row.id, texts ▸ member⟩
  · exact ⟨id, texts ▸ List.mem_append_right _ (List.mem_singleton.mpr rfl)⟩

theorem subset_annotate1 : db.texts ⊆ (db.annotate1 rowIds text).db.texts := by
  obtain ⟨texts, -⟩ | ⟨id, -, texts⟩ := texts_annotate1 rowIds db text
  · rw [texts]
    exact fun _ => id
  · rw [texts]
    exact List.subset_append_left _ _

theorem annotated_annotate1 (other : Option Nat) (tag value : Text) :
    (db.annotate1 rowIds text).db.Annotated other tag value ↔ db.Annotated other tag value := by
  refine annotated_congr rows_annotate1 ?_ other tag value
  rintro id listed ⟨row, member, refers⟩
  have known : id ∈ db.texts.map AnnotationRow.id := by
    obtain rfl | rfl := refers
    · exact db.tags row member
    · exact db.values row member
  obtain ⟨texts, -⟩ | ⟨new, fresh, texts⟩ := texts_annotate1 rowIds db text
  · rw [texts]
  · rw [texts, List.mem_append, List.mem_singleton]
    refine or_iff_left fun isNew => fresh ?_
    have same : id = new := congrArg AnnotationRow.id isNew
    exact same ▸ known

omit [DecidableEq Text] in
theorem annotated_annotateDel2 (other : Option Nat) (tag value : Text) :
    db.annotateDel2.db.Annotated other tag value ↔ db.Annotated other tag value := by
  have rows : db.annotateDel2.db.rows = db.rows := rfl
  refine annotated_congr rows ?_ other tag value
  rintro id listed ⟨row, member, refers⟩
  have kept : db.Referenced ⟨id, listed⟩ = true := by
    rw [Referenced, Bool.or_eq_true, decide_eq_true_eq, decide_eq_true_eq]
    refine refers.imp ?_ ?_
    · rintro rfl
      exact List.mem_map_of_mem member
    · rintro rfl
      exact List.mem_map_of_mem member
  exact List.mem_filter.trans (and_iff_left kept)

/-! ## Deleting the row of a tag -/

theorem del1Selects_iff {row : PkgAnnotationRow} :
    db.del1Selects packages package.row.uid tag row = true ↔
      row.package = some package.row.id ∧ ⟨row.tag, tag⟩ ∈ db.texts := by
  rw [del1Selects, Bool.and_eq_true, List.any_eq_true, List.any_eq_true]
  simp only [Bool.and_eq_true, decide_eq_true_eq]
  constructor
  · rintro ⟨⟨other, member, uid, same⟩, ⟨id, found⟩, listed, rfl, rfl⟩
    rw [PackageTable.eq_of_uid member package.member uid] at same
    exact ⟨same, listed⟩
  · rintro ⟨same, listed⟩
    exact ⟨⟨package.row, package.member, rfl, same⟩, _, listed, rfl, rfl⟩

theorem annotated_annotateDel1 (other : Option Nat) (otherTag value : Text) :
    (db.annotateDel1 packages package.row.uid tag).db.Annotated other otherTag value ↔
      db.Annotated other otherTag value ∧ ¬(other = some package.row.id ∧ otherTag = tag) := by
  have kept (row : PkgAnnotationRow) :
      row ∈ (db.annotateDel1 packages package.row.uid tag).db.rows ↔
        row ∈ db.rows ∧ ¬(row.package = some package.row.id ∧ ⟨row.tag, tag⟩ ∈ db.texts) := by
    rw [← del1Selects_iff]
    simp only [annotateDel1, List.mem_filter, Bool.not_eq_true', Bool.not_eq_true]
  constructor
  · rintro ⟨row, member, rfl, isTag, isValue⟩
    obtain ⟨member, different⟩ := (kept row).mp member
    refine ⟨⟨row, member, rfl, isTag, isValue⟩, ?_⟩
    rintro ⟨own, rfl⟩
    exact different ⟨own, isTag⟩
  · rintro ⟨⟨row, member, rfl, isTag, isValue⟩, different⟩
    refine ⟨row, (kept row).mpr ⟨member, ?_⟩, rfl, isTag, isValue⟩
    rintro ⟨own, same⟩
    exact different ⟨own, eq_of_id isTag same⟩

/-- At most one row of a list is selected where no two rows of it are. -/
theorem countP_le_one {Row : Type} {related : Row → Row → Prop} {selected : Row → Bool}
    {rows : List Row} (pairwise : rows.Pairwise related)
    (apart : ∀ row other, selected row → selected other → ¬related row other) :
    rows.countP selected ≤ 1 := by
  induction pairwise with
  | nil => exact Nat.zero_le 1
  | cons first rest ih =>
      rename_i row rows
      cases isSelected : selected row with
      | false => rwa [List.countP_cons_of_neg (by rw [isSelected]; exact Bool.false_ne_true)]
      | true =>
          have others : rows.countP selected = 0 :=
            List.countP_eq_zero.mpr fun other member isOther =>
              apart row other isSelected isOther (first other member)
          exact Nat.le_of_eq ((List.countP_cons_of_pos isSelected).trans (congrArg (· + 1) others))

theorem changes_annotateDel1 :
    (db.annotateDel1 packages package.row.uid tag).changes = 1 ↔
      ∃ value, db.Annotated (some package.row.id) tag value := by
  have atMost : (db.annotateDel1 packages package.row.uid tag).changes ≤ 1 := by
    refine countP_le_one db.keys fun row other selected selectedOther different => different ?_
    obtain ⟨own, isTag⟩ := del1Selects_iff.mp selected
    obtain ⟨ownOther, isTagOther⟩ := del1Selects_iff.mp selectedOther
    exact ⟨own ▸ Option.some_ne_none _, own.trans ownOther.symm, eq_of_text isTag isTagOther⟩
  have positive : 0 < (db.annotateDel1 packages package.row.uid tag).changes ↔
      ∃ value, db.Annotated (some package.row.id) tag value := by
    refine List.countP_pos_iff.trans ?_
    constructor
    · rintro ⟨row, member, selected⟩
      obtain ⟨own, isTag⟩ := del1Selects_iff.mp selected
      obtain ⟨⟨id, value⟩, listed, same⟩ := List.mem_map.mp (db.values row member)
      exact ⟨value, row, member, own, isTag, same ▸ listed⟩
    · rintro ⟨value, row, member, own, isTag, -⟩
      exact ⟨row, member, del1Selects_iff.mpr ⟨own, isTag⟩⟩
  rw [← positive]
  omega

/-! ## Inserting a row -/

theorem annotateAdd1_present
    (present : ∃ other, db.Annotated (some package.row.id) tag other) :
    db.annotateAdd1 packages package.row.uid tag value = ⟨db, 0⟩ := by
  unfold annotateAdd1
  split
  · next foundTag foundValue someTag someValue =>
      refine dif_pos ?_
      obtain ⟨other, row, member, own, listed, -⟩ := present
      refine ⟨row, member, own ▸ Option.some_ne_none _, own.trans package.idOf.symm, ?_⟩
      exact eq_of_text listed (textId_eq_some.mp someTag)
  · rfl

section Insertion

variable {tagId valueId : Int} (isTag : ⟨tagId, tag⟩ ∈ db.texts)
  (isValue : ⟨valueId, value⟩ ∈ db.texts)

include isTag isValue

theorem annotateAdd1_absent
    (absent : ¬∃ other, db.Annotated (some package.row.id) tag other) :
    let added := db.annotateAdd1 packages package.row.uid tag value
    added.changes = 1 ∧ added.db.texts = db.texts ∧
      added.db.rows = db.rows ++ [⟨some package.row.id, tagId, valueId⟩] := by
  have someTag := textId_eq_some.mpr isTag
  have someValue := textId_eq_some.mpr isValue
  unfold annotateAdd1
  split
  · next foundTag foundValue isFoundTag isFoundValue =>
      obtain rfl : tagId = foundTag := Option.some.inj (someTag.symm.trans isFoundTag)
      obtain rfl : valueId = foundValue := Option.some.inj (someValue.symm.trans isFoundValue)
      have free : ¬∃ other ∈ db.rows,
          other.SameKey ⟨packages.idOf package.row.uid, tagId, valueId⟩ := by
        rintro ⟨row, member, -, own, same⟩
        obtain ⟨⟨id, text⟩, listed, rfl⟩ := List.mem_map.mp (db.values row member)
        refine absent ⟨text, row, member, own.trans package.idOf, ?_, listed⟩
        exact same ▸ isTag
      rw [dif_neg free]
      exact ⟨rfl, rfl, package.idOf ▸ rfl⟩
  · next missing => exact absurd someValue (missing tagId valueId someTag)

theorem annotated_annotateAdd1
    (absent : ¬∃ other, db.Annotated (some package.row.id) tag other)
    (other : Option Nat) (otherTag otherValue : Text) :
    (db.annotateAdd1 packages package.row.uid tag value).db.Annotated other otherTag otherValue ↔
      db.Annotated other otherTag otherValue ∨
        other = some package.row.id ∧ otherTag = tag ∧ otherValue = value := by
  obtain ⟨-, texts, rows⟩ := annotateAdd1_absent isTag isValue absent
  unfold Annotated
  rw [texts, rows]
  simp only [List.mem_append, List.mem_singleton, or_and_right, exists_or, exists_eq_left]
  refine or_congr_right ⟨?_, ?_⟩
  · rintro ⟨rfl, listed, listedValue⟩
    exact ⟨rfl, eq_of_id listed isTag, eq_of_id listedValue isValue⟩
  · rintro ⟨rfl, rfl, rfl⟩
    exact ⟨rfl, isTag, isValue⟩

end Insertion

/-! ## The verdicts -/

/-- The texts, other than the two given, that no row refers to but that of the package and tag. -/
def orphans (db : AnnotationDb Text) (package : packages.Installed) (tag value : Text) :
    List (AnnotationRow Text) :=
  db.texts.filter fun text => text.text ≠ tag ∧ text.text ≠ value ∧
    ∀ row ∈ db.rows, ¬(db.del1Selects packages package.row.uid tag row = true) →
      row.tag ≠ text.id ∧ row.value ≠ text.id

end AnnotationDb

open AnnotationDb

/-- The annotations of the other packages are as before. -/
def KeepsOthers {Text : Type} (db after : AnnotationDb Text) (id : Nat) : Prop :=
  ∀ other, other ≠ some id → ∀ tag text,
    after.Annotated other tag text ↔ db.Annotated other tag text

/-- What the three functions return tells what they have done. -/
structure ReportsTruth {Text : Type} [DecidableEq Text] (rowIds : RowIds)
    (packages : PackageTable) (db : AnnotationDb Text) (package : packages.Installed)
    (tag value : Text) : Prop where
  modify : ( pkgdbModifyAnnotation rowIds packages db package.row.uid tag value).2 = .ok ↔
    ∀ text, ( pkgdbModifyAnnotation rowIds packages db package.row.uid tag value).1.Annotated
      (some package.row.id) tag text ↔ text = value
  modifyOthers : KeepsOthers db
    ( pkgdbModifyAnnotation rowIds packages db package.row.uid tag value).1 package.row.id
  add : ( pkgdbAddAnnotation rowIds packages db package.row.uid tag value).2 = .ok ↔
    (∀ text, ¬db.Annotated (some package.row.id) tag text) ∧
      ∀ text, ( pkgdbAddAnnotation rowIds packages db package.row.uid tag value).1.Annotated
        (some package.row.id) tag text ↔ text = value
  addOthers : KeepsOthers db
    ( pkgdbAddAnnotation rowIds packages db package.row.uid tag value).1 package.row.id
  delete : ( pkgdbDeleteAnnotation packages db package.row.uid tag).2 = .ok ↔
    (∃ text, db.Annotated (some package.row.id) tag text) ∧
      ∀ text, ¬( pkgdbDeleteAnnotation packages db package.row.uid tag).1.Annotated
        (some package.row.id) tag text
  deleteOthers : KeepsOthers db
    ( pkgdbDeleteAnnotation packages db package.row.uid tag).1 package.row.id

section Verdicts

variable {Text : Type} [DecidableEq Text] (rowIds : RowIds) {packages : PackageTable}
  (db : AnnotationDb Text) (package : packages.Installed) (tag value : Text)

theorem pkgdbDeleteAnnotation_annotated (other : Option Nat) (otherTag text : Text) :
    ( pkgdbDeleteAnnotation packages db package.row.uid tag).1.Annotated other otherTag text ↔
      db.Annotated other otherTag text ∧ ¬(other = some package.row.id ∧ otherTag = tag) :=
  (annotated_annotateDel2 other otherTag text).trans (annotated_annotateDel1 other otherTag text)

/-- The tables after `ANNOTATE1` for the tag and the value. -/
structure Interned (db before : AnnotationDb Text) (tag value : Text) (tagId valueId : Int) :
    Prop where
  isTag : ⟨tagId, tag⟩ ∈ before.texts
  isValue : ⟨valueId, value⟩ ∈ before.texts
  rows : before.rows = db.rows
  texts : ∃ extra, before.texts = db.texts ++ extra ∧
    ∀ row ∈ extra, row.text = tag ∨ row.text = value
  annotated : ∀ other otherTag text,
    before.Annotated other otherTag text ↔ db.Annotated other otherTag text

theorem exists_interned : ∃ tagId valueId,
    Interned db ((db.annotate1 rowIds tag).db.annotate1 rowIds value).db tag value
      tagId valueId := by
  have added (db : AnnotationDb Text) (text : Text) : ∃ extra,
      (db.annotate1 rowIds text).db.texts = db.texts ++ extra ∧ ∀ row ∈ extra, row.text = text := by
    obtain ⟨texts, -⟩ | ⟨id, -, texts⟩ := texts_annotate1 rowIds db text
    · exact ⟨[], texts.trans (List.append_nil _).symm, List.forall_mem_nil _⟩
    · exact ⟨[⟨id, text⟩], texts, List.forall_mem_singleton.mpr rfl⟩
  obtain ⟨tagId, isTag⟩ := exists_annotate1 rowIds db tag
  obtain ⟨valueId, isValue⟩ := exists_annotate1 rowIds (db.annotate1 rowIds tag).db value
  refine ⟨tagId, valueId, subset_annotate1 isTag, isValue, ?_, ?_, fun other otherTag text => ?_⟩
  · rw [rows_annotate1, rows_annotate1]
  · obtain ⟨first, texts, isFirst⟩ := added db tag
    obtain ⟨second, textsAfter, isSecond⟩ := added (db.annotate1 rowIds tag).db value
    refine ⟨first ++ second, by rw [textsAfter, texts, List.append_assoc], fun row member => ?_⟩
    exact (List.mem_append.mp member).imp (isFirst row) (isSecond row)
  · exact (annotated_annotate1 other otherTag text).trans (annotated_annotate1 other otherTag text)

theorem pkgdbAddAnnotation_present
    (present : ∃ other, db.Annotated (some package.row.id) tag other) :
    ( pkgdbAddAnnotation rowIds packages db package.row.uid tag value).2 = .warn ∧
      ∀ other otherTag text,
        ( pkgdbAddAnnotation rowIds packages db package.row.uid tag value).1.Annotated
          other otherTag text ↔ db.Annotated other otherTag text := by
  obtain ⟨tagId, valueId, interned⟩ := exists_interned rowIds db tag value
  have still := present.imp fun other => (interned.annotated _ tag other).mpr
  unfold pkgdbAddAnnotation
  dsimp only
  rw [annotateAdd1_present still]
  exact ⟨rfl, interned.annotated⟩

theorem pkgdbAddAnnotation_absent
    (absent : ¬∃ other, db.Annotated (some package.row.id) tag other) :
    ( pkgdbAddAnnotation rowIds packages db package.row.uid tag value).2 = .ok ∧
      ∀ other otherTag text,
        ( pkgdbAddAnnotation rowIds packages db package.row.uid tag value).1.Annotated
            other otherTag text ↔
          db.Annotated other otherTag text ∨
            other = some package.row.id ∧ otherTag = tag ∧ text = value := by
  obtain ⟨tagId, valueId, interned⟩ := exists_interned rowIds db tag value
  have still := mt (Exists.imp fun other => (interned.annotated _ tag other).mp) absent
  constructor
  · exact rowsChangedVerdict_ok.mpr (annotateAdd1_absent interned.isTag interned.isValue still).1
  · intro other otherTag text
    rw [← interned.annotated]
    exact annotated_annotateAdd1 interned.isTag interned.isValue still other otherTag text

/-- `pkgdb_modify_annotation` before the unused texts are collected. -/
theorem exists_modified : ∃ before : AnnotationDb Text,
    pkgdbModifyAnnotation rowIds packages db package.row.uid tag value =
        (before.annotateDel2.db, rowsChangedVerdict before.annotateDel2.changes) ∧
      (∃ tagId valueId,
        ⟨tagId, tag⟩ ∈ before.texts ∧ ⟨valueId, value⟩ ∈ before.texts ∧
        before.rows = (db.annotateDel1 packages package.row.uid tag).db.rows ++
          [⟨some package.row.id, tagId, valueId⟩]) ∧
      (∃ extra, before.texts = db.texts ++ extra ∧
        ∀ row ∈ extra, row.text = tag ∨ row.text = value) ∧
      ∀ other otherTag text, before.Annotated other otherTag text ↔
        db.Annotated other otherTag text ∧ ¬(other = some package.row.id ∧ otherTag = tag) ∨
          other = some package.row.id ∧ otherTag = tag ∧ text = value := by
  obtain ⟨tagId, valueId, interned⟩ :=
    exists_interned rowIds (db.annotateDel1 packages package.row.uid tag).db tag value
  have absent : ¬∃ other, (((db.annotateDel1 packages package.row.uid tag).db.annotate1 rowIds
      tag).db.annotate1 rowIds value).db.Annotated (some package.row.id) tag other := by
    rintro ⟨other, still⟩
    have deleted := (interned.annotated _ tag other).mp still
    exact ((annotated_annotateDel1 _ tag other).mp deleted).2 ⟨rfl, rfl⟩
  obtain ⟨-, texts, rows⟩ := annotateAdd1_absent interned.isTag interned.isValue absent
  refine ⟨_, rfl, ⟨tagId, valueId, texts ▸ interned.isTag, texts ▸ interned.isValue, ?_⟩, ?_, ?_⟩
  · rw [rows, interned.rows]
  · obtain ⟨extra, added, isGiven⟩ := interned.texts
    exact ⟨extra, texts.trans added, isGiven⟩
  · intro other otherTag text
    refine (annotated_annotateAdd1 interned.isTag interned.isValue absent other otherTag text).trans
      (or_congr_left ?_)
    exact (interned.annotated other otherTag text).trans
      (annotated_annotateDel1 other otherTag text)

theorem pkgdbModifyAnnotation_annotated (other : Option Nat) (otherTag text : Text) :
    ( pkgdbModifyAnnotation rowIds packages db package.row.uid tag value).1.Annotated
        other otherTag text ↔
      db.Annotated other otherTag text ∧ ¬(other = some package.row.id ∧ otherTag = tag) ∨
        other = some package.row.id ∧ otherTag = tag ∧ text = value := by
  obtain ⟨before, run, -, -, annotated⟩ := exists_modified rowIds db package tag value
  rw [run]
  exact (annotated_annotateDel2 other otherTag text).trans (annotated other otherTag text)

omit [DecidableEq Text] in
theorem referenced_eq_false {before : AnnotationDb Text} {text : AnnotationRow Text} :
    before.Referenced text = false ↔
      ∀ row ∈ before.rows, row.tag ≠ text.id ∧ row.value ≠ text.id := by
  simp only [Referenced, Bool.or_eq_false_iff, decide_eq_false_iff_not, List.mem_map, not_exists,
    not_and, ← forall_and]

/-- `ANNOTATE_DEL2` counts the orphans. -/
theorem pkgdbModifyAnnotation_ok :
    ( pkgdbModifyAnnotation rowIds packages db package.row.uid tag value).2 = .ok ↔
      (db.orphans package tag value).length = 1 := by
  obtain ⟨before, run, ⟨tagId, valueId, isTag, isValue, rows⟩, ⟨extra, texts, isGiven⟩, -⟩ :=
    exists_modified rowIds db package tag value
  have isTagId (text : AnnotationRow Text) (member : text ∈ before.texts) :
      tagId ≠ text.id ↔ text.text ≠ tag := by
    refine not_congr ⟨?_, ?_⟩
    · rintro rfl
      exact eq_of_id member isTag
    · rintro rfl
      exact eq_of_text isTag member
  have isValueId (text : AnnotationRow Text) (member : text ∈ before.texts) :
      valueId ≠ text.id ↔ text.text ≠ value := by
    refine not_congr ⟨?_, ?_⟩
    · rintro rfl
      exact eq_of_id member isValue
    · rintro rfl
      exact eq_of_text isValue member
  have unused (text : AnnotationRow Text) (member : text ∈ before.texts) :
      (!before.Referenced text) = true ↔ text.text ≠ tag ∧ text.text ≠ value ∧
        ∀ row ∈ db.rows, ¬(db.del1Selects packages package.row.uid tag row = true) →
          row.tag ≠ text.id ∧ row.value ≠ text.id := by
    rw [Bool.not_eq_true', referenced_eq_false, rows, List.forall_mem_append,
      List.forall_mem_singleton, isTagId text member, isValueId text member, and_comm, and_assoc]
    refine and_congr_right fun _ => and_congr_right fun _ => ?_
    simp only [annotateDel1, List.mem_filter, and_imp, Bool.not_eq_true', Bool.not_eq_true]
  have none : extra.countP (fun text => !before.Referenced text) = 0 := by
    refine List.countP_eq_zero.mpr fun text member isUnused => ?_
    have listed : text ∈ before.texts := texts ▸ List.mem_append_right _ member
    obtain ⟨notTag, notValue, -⟩ := (unused text listed).mp isUnused
    exact (isGiven text member).elim notTag notValue
  have count : before.annotateDel2.changes = (db.orphans package tag value).length := by
    unfold AnnotationDb.annotateDel2 AnnotationDb.orphans
    dsimp only
    rw [texts, List.countP_append, none, Nat.add_zero, List.countP_eq_length_filter]
    refine congrArg List.length (List.filter_congr fun text member => ?_)
    rw [Bool.eq_iff_iff, decide_eq_true_eq]
    exact unused text (texts ▸ List.mem_append_left _ member)
  rw [run, ← count]
  exact rowsChangedVerdict_ok

theorem modified_value (text : Text) :
    ( pkgdbModifyAnnotation rowIds packages db package.row.uid tag value).1.Annotated
      (some package.row.id) tag text ↔ text = value := by
  rw [pkgdbModifyAnnotation_annotated]
  simp

theorem orphans_of_reportsTruth (truth : ReportsTruth rowIds packages db package tag value) :
    (db.orphans package tag value).length = 1 :=
  (pkgdbModifyAnnotation_ok rowIds db package tag value).mp
    (truth.modify.mpr (modified_value rowIds db package tag value))

/-- The verdicts are the truth where the collection of unused texts finds exactly one. -/
theorem reportsTruth_iff :
    ReportsTruth rowIds packages db package tag value ↔
      (db.orphans package tag value).length = 1 := by
  have modified := pkgdbModifyAnnotation_annotated rowIds db package tag value
  have deleted := pkgdbDeleteAnnotation_annotated db package tag
  have gone (text : Text) : ¬( pkgdbDeleteAnnotation packages db package.row.uid
      tag).1.Annotated (some package.row.id) tag text := by
    rw [deleted]
    simp
  constructor
  · exact orphans_of_reportsTruth rowIds db package tag value
  · intro one
    refine
      { modify := iff_of_true ((pkgdbModifyAnnotation_ok ..).mpr one)
          (modified_value rowIds db package tag value)
        modifyOthers := fun other different otherTag text => ?_
        add := ?_
        addOthers := fun other different otherTag text => ?_
        delete := ?_
        deleteOthers := fun other different otherTag text => ?_ }
    · rw [modified]
      simp [different]
    · by_cases present : ∃ text, db.Annotated (some package.row.id) tag text
      · obtain ⟨ret, -⟩ := pkgdbAddAnnotation_present rowIds db package tag value present
        rw [ret]
        exact iff_of_false nofun fun truth => present.elim truth.1
      · obtain ⟨ret, after⟩ := pkgdbAddAnnotation_absent rowIds db package tag value present
        refine iff_of_true ret ⟨not_exists.mp present, fun text => ?_⟩
        rw [after]
        simp [not_exists.mp present text]
    · by_cases present : ∃ text, db.Annotated (some package.row.id) tag text
      · exact
          (pkgdbAddAnnotation_present rowIds db package tag value present).2 other otherTag text
      · rw [(pkgdbAddAnnotation_absent rowIds db package tag value present).2]
        simp [different]
    · exact (rowsChangedVerdict_ok.trans changes_annotateDel1).trans (and_iff_left gone).symm
    · rw [deleted]
      simp [different]

end Verdicts

/-! ## A value that two packages share -/

/-- The largest id and one. -/
def RowIds.max : RowIds where
  next ids := ids.foldr Max.max 0 + 1
  fresh ids := by
    have bound : ∀ id ∈ ids, id ≤ ids.foldr Max.max 0 := by
      induction ids with
      | nil => exact List.forall_mem_nil _
      | cons first rest ih =>
          refine List.forall_mem_cons.mpr ⟨Int.le_max_left _ _, fun id member => ?_⟩
          exact Int.le_trans (ih id member) (Int.le_max_right _ _)
    intro member
    have below := bound _ member
    omega

def vimAndPerl : PackageTable where
  rows := [⟨1, "vim~editors/vim", "7.4"⟩, ⟨2, "perl~lang/perl5", "5.16"⟩]
  ids := by decide
  uids := by decide

def vimOfTwo : vimAndPerl.Installed := ⟨⟨1, "vim~editors/vim", "7.4"⟩, List.mem_cons_self⟩

/-- Both packages come from the repository FreeBSD. -/
def sharedRepository : AnnotationDb String where
  texts := [⟨1, "repository"⟩, ⟨2, "FreeBSD"⟩]
  rows := [⟨some 1, 1, 2⟩, ⟨some 2, 1, 2⟩]
  ids := by decide
  distinct := by decide
  tags := by decide
  values := by decide
  keys := by decide

/-- The new value is set for vim, and the old one is still that of perl. -/
theorem sharedValue_not_reportsTruth :
    ¬ReportsTruth RowIds.max vimAndPerl sharedRepository vimOfTwo "repository" "poudriere" := by
  intro truth
  have one := orphans_of_reportsTruth _ _ _ _ _ truth
  revert one
  decide

end Pkgng
