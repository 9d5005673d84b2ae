import Mathlib.Data.List.Basic

/-!
# UCL objects and schemata

Values of libucl with the parts of `ucl_object_validate` that a schema of types,
enumerations, properties and required keys uses.  A key of an object may stand
for several values, the elements of an implicit array.
-/

set_option autoImplicit false

namespace Pkgng.Lib

inductive UclType
  | object
  | array
  | int
  | float
  | string
  | boolean
  | time
  | userdata
  | null
deriving DecidableEq, Repr

/-- `ucl_object_t`; of values of the other types only the type is kept. -/
inductive Ucl
  | object (fields : List (String × Ucl))
  | array (elements : List Ucl)
  | int (value : Int)
  | string (text : List Char)
  | other (type : UclType)

namespace Ucl

def type : Ucl → UclType
  | object _ => .object
  | array _ => .array
  | int _ => .int
  | string _ => .string
  | other type => type

/-- The values of a key, in the order of their insertion. -/
def values (obj : Ucl) (key : String) : List Ucl :=
  match obj with
  | object fields => (fields.filter fun field => field.1 = key).map Prod.snd
  | _ => []

/-- `ucl_object_find_key`. -/
def findKey (obj : Ucl) (key : String) : Option Ucl := (obj.values key).head?

/-- What `ucl_hash_iterate` visits: of every key the first value. -/
def heads : List (String × Ucl) → List (String × Ucl)
  | [] => []
  | field :: rest => field :: (heads rest).filter fun other => other.1 ≠ field.1

/-- The characters of the class `UCL_CHARACTER_JSON_UNSAFE`, and what they are
escaped by. -/
def jsonEscape : Char → Option Char
  | '\n' => some 'n'
  | '\r' => some 'r'
  | '\x08' => some 'b'
  | '\t' => some 't'
  | '\x0c' => some 'f'
  | '\\' => some '\\'
  | '\x22' => some '\x22'
  | _ => none

/-- The text that `ucl_object_fromstring_common` stores under
`UCL_STRING_ESCAPE`. -/
def escape (text : List Char) : List Char :=
  text.flatMap fun c =>
    match jsonEscape c with
    | some escaped => ['\\', escaped]
    | none => [c]

/-- `ucl_object_fromstring`. -/
def fromString (text : List Char) : Ucl := string (escape text)

/-- An object that the present ones of some values are inserted into. -/
def ofFields (fields : List (String × Option Ucl)) : Ucl :=
  object (fields.filterMap fun field => field.2.map fun value => (field.1, value))

end Ucl

/-- A schema without the keywords that no schema here has. -/
inductive Schema
  | mk (type : Option UclType) (enum : Option (List (List Char)))
      (properties : List (String × Schema)) (required : List String)

/-- `ucl_schema_type_is_allowed`. -/
def typeIsAllowed (type : Option UclType) (obj : Ucl) : Bool :=
  match type with
  | none => true
  | some t =>
      decide (obj.type = t) || (decide (t = .float) &&
        (decide (obj.type = .time) || decide (obj.type = .int)))

/-- `ucl_schema_validate_enum` for an enumeration of strings. -/
def validateEnum (enum : Option (List (List Char))) (obj : Ucl) : Bool :=
  match enum, obj with
  | none, _ => true
  | some texts, .string text => texts.contains text
  | some _, _ => false

mutual

/-- `ucl_schema_validate` of one value. -/
def Schema.validate : Schema → Ucl → Bool
  | .mk type enum properties required, obj =>
      validateEnum enum obj && typeIsAllowed type obj &&
        (decide (obj.type ≠ .object) ||
          (validateProperties properties obj &&
            required.all fun key => (obj.findKey key).isSome))

def validateProperties : List (String × Schema) → Ucl → Bool
  | [], _ => true
  | (key, property) :: rest, obj =>
      ((obj.values key).all fun value => property.validate value) && validateProperties rest obj

end

namespace Schema

def ofType (type : UclType) : Schema := .mk (some type) none [] []

def ofEnum (texts : List String) : Schema := .mk none (some (texts.map String.toList)) [] []

end Schema

namespace Ucl

/-! ## Fields that were inserted -/

theorem values_ofFields_of_notMem {fields : List (String × Option Ucl)} {key : String}
    (absent : key ∉ fields.map Prod.fst) : (ofFields fields).values key = [] := by
  simp only [ofFields, values, List.map_eq_nil_iff, List.filter_eq_nil_iff]
  intro field kept same
  obtain ⟨origin, member, isField⟩ := List.mem_filterMap.mp kept
  obtain ⟨_, _, rfl⟩ := Option.map_eq_some_iff.mp isField
  exact absent (List.mem_map.mpr ⟨origin, member, by simpa using same⟩)

/-- With distinct keys, the value of a key is the one inserted under it. -/
theorem values_ofFields {fields : List (String × Option Ucl)} {key : String}
    {value : Option Ucl} (nodup : (fields.map Prod.fst).Nodup) (member : (key, value) ∈ fields) :
    (ofFields fields).values key = value.toList := by
  simp only [ofFields, values]
  induction fields with
  | nil => cases member
  | cons first rest ih =>
      rw [List.map_cons, List.nodup_cons] at nodup
      rcases List.mem_cons.mp member with rfl | inRest
      · have others := values_ofFields_of_notMem nodup.1
        simp only [ofFields, values] at others
        cases value with
        | none => simpa using others
        | some value => simpa using others
      · have differs : first.1 ≠ key := fun same =>
          nodup.1 (List.mem_map.mpr ⟨_, inRest, same.symm⟩)
        rw [← ih nodup.2 inRest]
        cases present : first.2 with
        | none => simp [present]
        | some other => simp [present, differs]

theorem findKey_ofFields {fields : List (String × Option Ucl)} {key : String}
    {value : Option Ucl} (nodup : (fields.map Prod.fst).Nodup) (member : (key, value) ∈ fields) :
    (ofFields fields).findKey key = value := by
  rw [findKey, values_ofFields nodup member]
  cases value with
  | none => rfl
  | some value => rfl

theorem heads_sublist (fields : List (String × Ucl)) : (heads fields).Sublist fields := by
  induction fields with
  | nil => exact List.Sublist.slnil
  | cons field rest ih => exact (List.filter_sublist.trans ih).cons_cons field

theorem mem_keys_heads {fields : List (String × Ucl)} {key : String} :
    key ∈ (heads fields).map Prod.fst ↔ key ∈ fields.map Prod.fst := by
  induction fields with
  | nil => rfl
  | cons field rest ih =>
      rw [heads, List.map_cons, List.map_cons, List.mem_cons, List.mem_cons, ← ih]
      by_cases same : key = field.1
      · simp [same]
      · have kept : key ∈ ((heads rest).filter fun other => other.1 ≠ field.1).map Prod.fst ↔
            key ∈ (heads rest).map Prod.fst := by
          simp only [List.mem_map, List.mem_filter, decide_eq_true_eq]
          constructor
          · rintro ⟨other, ⟨member, _⟩, isKey⟩
            exact ⟨other, member, isKey⟩
          · rintro ⟨other, member, isKey⟩
            exact ⟨other, ⟨member, isKey ▸ same⟩, isKey⟩
        rw [kept]

/-- Distinct keys have one value each. -/
theorem heads_eq_self {fields : List (String × Ucl)} (nodup : (fields.map Prod.fst).Nodup) :
    heads fields = fields := by
  induction fields with
  | nil => rfl
  | cons field rest ih =>
      rw [List.map_cons, List.nodup_cons] at nodup
      rw [heads, ih nodup.2, List.filter_eq_self.mpr]
      intro other member
      rw [decide_eq_true_eq]
      exact fun same => nodup.1 (List.mem_map.mpr ⟨other, member, same⟩)

/-! ## Escaping -/

/-- A text that escaping leaves alone. -/
def Plain (text : List Char) : Prop := ∀ c ∈ text, jsonEscape c = none

instance (text : List Char) : Decidable (Plain text) :=
  inferInstanceAs (Decidable (∀ c ∈ text, jsonEscape c = none))

theorem length_le_escape (text : List Char) : text.length ≤ (escape text).length := by
  induction text with
  | nil => exact Nat.le_refl _
  | cons c rest ih =>
      rw [escape, List.flatMap_cons, ← escape, List.length_append, List.length_cons]
      cases jsonEscape c with
      | none =>
          dsimp only
          rw [List.length_singleton]
          omega
      | some escaped =>
          dsimp only
          rw [List.length_cons, List.length_singleton]
          omega

theorem escape_eq_self_iff {text : List Char} : escape text = text ↔ Plain text := by
  induction text with
  | nil => simp [escape, Plain]
  | cons c rest ih =>
      rw [escape, List.flatMap_cons, ← escape]
      cases needs : jsonEscape c with
      | none =>
          rw [Plain, List.forall_mem_cons]
          rw [Plain] at ih
          simpa [needs] using ih
      | some escaped =>
          constructor
          · intro same
            have longer := length_le_escape rest
            have lengths := congrArg List.length same
            simp only [List.length_append, List.length_cons, List.length_nil] at lengths
            omega
          · intro plain
            rw [plain c (List.mem_cons_self ..)] at needs
            cases needs

end Ucl

/-! ## Validation -/

theorem validateProperties_iff {properties : List (String × Schema)} {obj : Ucl} :
    validateProperties properties obj = true ↔
      ∀ property ∈ properties, ∀ value ∈ obj.values property.1,
        property.2.validate value = true := by
  induction properties with
  | nil => simp [validateProperties]
  | cons first rest ih =>
      rw [validateProperties, Bool.and_eq_true, List.all_eq_true, ih, List.forall_mem_cons]

theorem Schema.validate_object_iff {properties : List (String × Schema)} {required : List String}
    {obj : Ucl} (object : obj.type = .object) :
    (Schema.mk (some .object) none properties required).validate obj = true ↔
      (∀ property ∈ properties, ∀ value ∈ obj.values property.1,
        property.2.validate value = true) ∧
      ∀ key ∈ required, (obj.findKey key).isSome = true := by
  rw [← validateProperties_iff, ← List.all_eq_true, ← Bool.and_eq_true]
  simp [Schema.validate, validateEnum, typeIsAllowed, object]

theorem Schema.validate_ofType {type : UclType} {obj : Ucl} (plain : obj.type ≠ .object)
    (same : obj.type = type) : (Schema.ofType type).validate obj = true := by
  subst same
  simp [ofType, validate, validateEnum, typeIsAllowed, plain]

end Pkgng.Lib
