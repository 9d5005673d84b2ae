import Mathlib.Data.List.Induction
import Pkgng.Lib.UtHash

/-!
# The options of a package

`pkg_addoption`, `pkg_addoption_default` and `pkg_addoption_description`.  Each finds or makes
the entry of an option and then inserts it, also where it was found, under the text at the
key pointer that it passes.
-/

set_option autoImplicit false

namespace Pkgng

open Lib

inductive OptionField
  | value
  | defaultValue
  | description
deriving DecidableEq, Repr

/-- `struct pkg_option`; its hash handle is kept in the table. -/
structure OptionEntry where
  key : List Char
  value : Option (List Char) := none
  defaultValue : Option (List Char) := none
  description : Option (List Char) := none
deriving DecidableEq, Repr

def OptionEntry.get (o : OptionEntry) : OptionField → Option (List Char)
  | .value => o.value
  | .defaultValue => o.defaultValue
  | .description => o.description

def OptionEntry.set (o : OptionEntry) (text : List Char) : OptionField → OptionEntry
  | .value => { o with value := some text }
  | .defaultValue => { o with defaultValue := some text }
  | .description => { o with description := some text }

/-- The options of a package: the entries by their addresses, and `pkg->options`. -/
structure PkgOptions where
  entries : List OptionEntry := []
  table : UtHash (List Char) := {}

section Calls

-- The bucket of a key.
variable (bucket : List Char → Nat)

/-- What the three functions share; none is a failed assertion or a search without end. -/
def addOptionField (field : OptionField) (hashKey : OptionEntry → List Char)
    (key text : List Char) (s : PkgOptions) : Option PkgOptions :=
  if key = [] ∨ text = [] then none
  else
    match s.table.find bucket s.entries.length key with
    | none => none
    | some none =>
        -- `pkg_option_new`
        let o := OptionEntry.set { key := key } text field
        some { entries := s.entries ++ [o]
               table := s.table.add bucket s.entries.length (hashKey o) }
    | some (some a) =>
        match s.entries[a]? with
        | none => none
        | some o =>
            -- A duplicate is ignored, in developer mode with an error.
            if (o.get field).isSome then some s
            else
              let o := o.set text field
              some { entries := s.entries.set a o
                     table := s.table.add bucket a (hashKey o) }

def pkgAddoption (key value : List Char) : PkgOptions → Option PkgOptions :=
  addOptionField bucket .value OptionEntry.key key value

def pkgAddoptionDefault (key defaultValue : List Char) : PkgOptions → Option PkgOptions :=
  addOptionField bucket .defaultValue (fun o => o.defaultValue.getD []) key defaultValue

def pkgAddoptionDescription (key description : List Char) : PkgOptions → Option PkgOptions :=
  addOptionField bucket .description (fun o => o.description.getD []) key description

structure OptionCall where
  field : OptionField
  name : List Char
  text : List Char
deriving DecidableEq, Repr

def OptionCall.run (call : OptionCall) : PkgOptions → Option PkgOptions :=
  match call.field with
  | .value => pkgAddoption bucket call.name call.text
  | .defaultValue => pkgAddoptionDefault bucket call.name call.text
  | .description => pkgAddoptionDescription bucket call.name call.text

/-- A sequence of calls on a new package. -/
def runOptionCalls (calls : List OptionCall) : Option PkgOptions :=
  calls.foldlM (fun s call => call.run bucket s) {}

/-- The first text given for a name in calls of one kind. -/
def firstText (calls : List OptionCall) (name : List Char) (field : OptionField) :
    Option (List Char) :=
  (calls.find? fun call => call.name = name && call.field = field).map OptionCall.text

/-- The table has one entry for each name given, finds it, visits it once and holds in it
what was given first. -/
structure OptionsConsistent (calls : List OptionCall) (s : PkgOptions) : Prop where
  single : (s.entries.map OptionEntry.key).Nodup
  names : ∀ name, name ∈ s.entries.map OptionEntry.key ↔ name ∈ calls.map OptionCall.name
  visits : ∃ order, Chain s.table.next s.table.head order ∧
    order.Perm (List.range s.entries.length)
  finds : ∀ name ∈ calls.map OptionCall.name, ∃ a o,
    s.table.find bucket s.entries.length name = some (some a) ∧ s.entries[a]? = some o ∧
      o.key = name
  holds : ∀ o ∈ s.entries, ∀ field, o.get field = firstText calls o.key field

/-- A call that repeats one of its kind, or is the first for its name and is inserted under
it. -/
def CallFits (before : List OptionCall) (call : OptionCall) : Prop :=
  call.name ≠ [] ∧ call.text ≠ [] ∧
    ((∃ earlier ∈ before, earlier.name = call.name ∧ earlier.field = call.field) ∨
      (∀ earlier ∈ before, earlier.name ≠ call.name) ∧
        (call.field = .value ∨ call.text = call.name))

/-! ## The three functions -/

/-- The text under which a call inserts an entry. -/
def OptionCall.hashText (call : OptionCall) : List Char :=
  if call.field = .value then call.name else call.text

theorem get_set (o : OptionEntry) (text : List Char) (field : OptionField) :
    (o.set text field).get field = some text := by
  cases field <;> rfl

theorem get_set_of_ne (o : OptionEntry) (text : List Char) {field other : OptionField}
    (differs : other ≠ field) : (o.set text field).get other = o.get other := by
  cases field <;> cases other <;> first | rfl | exact absurd rfl differs

theorem key_set (o : OptionEntry) (text : List Char) (field : OptionField) :
    (o.set text field).key = o.key := by
  cases field <;> rfl

variable {bucket} {call : OptionCall} {s : PkgOptions}

theorem run_empty (empty : call.name = [] ∨ call.text = []) : call.run bucket s = none := by
  unfold OptionCall.run
  cases call.field <;> exact if_pos empty

theorem run_new (named : call.name ≠ [] ∧ call.text ≠ [])
    (absent : s.table.find bucket s.entries.length call.name = some none) :
    call.run bucket s = some
      { entries := s.entries ++ [OptionEntry.set { key := call.name } call.text call.field]
        table := s.table.add bucket s.entries.length call.hashText } := by
  have nonempty : ¬(call.name = [] ∨ call.text = []) := not_or.mpr named
  unfold OptionCall.run OptionCall.hashText
  cases call.field <;>
    simp only [pkgAddoption, pkgAddoptionDefault, pkgAddoptionDescription, addOptionField,
      if_neg nonempty, absent] <;> rfl

theorem run_found {a : Nat} {o : OptionEntry} (named : call.name ≠ [] ∧ call.text ≠ [])
    (found : s.table.find bucket s.entries.length call.name = some (some a))
    (isEntry : s.entries[a]? = some o) (isKey : o.key = call.name) :
    call.run bucket s = some
      (if (o.get call.field).isSome then s
        else { entries := s.entries.set a (o.set call.text call.field)
               table := s.table.add bucket a call.hashText }) := by
  have nonempty : ¬(call.name = [] ∨ call.text = []) := not_or.mpr named
  unfold OptionCall.run OptionCall.hashText
  cases call.field <;>
    simp only [pkgAddoption, pkgAddoptionDefault, pkgAddoptionDescription, addOptionField,
      if_neg nonempty, found, isEntry] <;> split <;> simp [OptionEntry.set, isKey]

/-! ## Healthy tables -/

/-- A consistent table whose links are those of its entries in their order. -/
structure OptionsHealthy (bucket : List Char → Nat) (calls : List OptionCall) (s : PkgOptions) :
    Prop where
  healthy : UtHash.Healthy bucket s.table (List.range s.entries.length)
  keys : ∀ a o, s.entries[a]? = some o → s.table.key a = some o.key
  single : (s.entries.map OptionEntry.key).Nodup
  names : ∀ name, name ∈ s.entries.map OptionEntry.key ↔ name ∈ calls.map OptionCall.name
  holds : ∀ o ∈ s.entries, ∀ field, o.get field = firstText calls o.key field

variable {before : List OptionCall}

theorem optionsHealthy_nil (bucket : List Char → Nat) : OptionsHealthy bucket [] {} where
  healthy := UtHash.healthy_empty
  keys a o isEntry := by cases isEntry
  single := List.nodup_nil
  names name := Iff.rfl
  holds o member := by cases member

theorem OptionsHealthy.find (good : OptionsHealthy bucket before s) (name : List Char) :
    (name ∉ before.map OptionCall.name ∧
      s.table.find bucket s.entries.length name = some none) ∨
    ∃ a o, s.entries[a]? = some o ∧ o.key = name ∧
      s.table.find bucket s.entries.length name = some (some a) := by
  have entryAt : ∀ a ∈ List.range s.entries.length, ∃ o, s.entries[a]? = some o := by
    intro a member
    exact ⟨_, List.getElem?_eq_getElem (List.mem_range.mp member)⟩
  rcases good.healthy.find (Nat.le_of_eq List.length_range) name with
    ⟨found, absent⟩ | ⟨a, member, found, isKey⟩
  · refine Or.inl ⟨fun given => ?_, found⟩
    obtain ⟨o, isEntry, isName⟩ := List.mem_map.mp ((good.names name).mpr given)
    obtain ⟨a, inside, isAt⟩ := List.mem_iff_getElem.mp isEntry
    refine absent a (List.mem_range.mpr inside) ?_
    rw [good.keys a o (isAt ▸ List.getElem?_eq_getElem inside), isName]
  · obtain ⟨o, isEntry⟩ := entryAt a member
    rw [good.keys a o isEntry] at isKey
    exact Or.inr ⟨a, o, isEntry, Option.some.inj isKey, found⟩

theorem OptionsHealthy.consistent (good : OptionsHealthy bucket before s) :
    OptionsConsistent bucket before s where
  single := good.single
  names := good.names
  visits := ⟨_, good.healthy.order, List.Perm.refl _⟩
  finds name given := by
    rcases good.find name with ⟨absent, _⟩ | ⟨a, o, isEntry, isKey, found⟩
    · exact absurd given absent
    · exact ⟨a, o, found, isEntry, isKey⟩
  holds := good.holds

theorem firstText_snoc (name : List Char) (field : OptionField) :
    firstText (before ++ [call]) name field =
      (firstText before name field).or
        (if call.name = name ∧ call.field = field then some call.text else none) := by
  rw [firstText, firstText, List.find?_append, Option.map_or]
  congr 1
  rw [List.find?_singleton]
  by_cases same : call.name = name ∧ call.field = field
  · simp [same]
  · rw [if_neg same]
    simp only [← Bool.decide_and, decide_eq_true_eq, if_neg same, Option.map_none]

/-- A call that gives nothing new. -/
theorem OptionsHealthy.repeats (good : OptionsHealthy bucket before s)
    {earlier : OptionCall} (member : earlier ∈ before) (sameName : earlier.name = call.name)
    (sameField : earlier.field = call.field) : OptionsHealthy bucket (before ++ [call]) s where
  healthy := good.healthy
  keys := good.keys
  single := good.single
  names name := by
    rw [good.names, List.map_append, List.mem_append, List.map_singleton, List.mem_singleton]
    refine ⟨Or.inl, fun given => given.elim id fun isName => ?_⟩
    rw [isName, ← sameName]
    exact List.mem_map_of_mem member
  holds o isEntry field := by
    rw [good.holds o isEntry field, firstText_snoc]
    by_cases same : call.name = o.key ∧ call.field = field
    · obtain ⟨first, isFirst⟩ : ∃ first, before.find?
          (fun other => other.name = o.key && other.field = field) = some first := by
        refine Option.isSome_iff_exists.mp (List.find?_isSome.mpr ⟨earlier, member, ?_⟩)
        simp [sameName, sameField, same.1, same.2]
      rw [firstText, isFirst]
      rfl
    · rw [if_neg same, Option.or_none]

/-- A call for a name that was not given before, with the name as its hash text. -/
theorem OptionsHealthy.adds (good : OptionsHealthy bucket before s)
    (absent : call.name ∉ before.map OptionCall.name) (named : call.hashText = call.name) :
    OptionsHealthy bucket (before ++ [call])
      { entries := s.entries ++ [OptionEntry.set { key := call.name } call.text call.field]
        table := s.table.add bucket s.entries.length call.hashText } := by
  have isKey : (OptionEntry.set { key := call.name } call.text call.field).key = call.name :=
    key_set _ _ _
  have noName : call.name ∉ s.entries.map OptionEntry.key := fun member =>
    absent ((good.names _).mp member)
  constructor
  · have longer := good.healthy.add (a := s.entries.length) (by simp) call.hashText
    rw [← List.range_succ] at longer
    rw [List.length_append, List.length_singleton]
    exact longer
  · intro a o isEntry
    by_cases isNew : a = s.entries.length
    · subst isNew
      rw [List.getElem?_append_right (Nat.le_refl _), Nat.sub_self] at isEntry
      cases isEntry
      rw [UtHash.key_add_self, named, isKey]
    · have old : s.entries[a]? = some o := by
        have inside := (List.getElem?_eq_some_iff.mp isEntry).1
        rw [List.length_append, List.length_singleton] at inside
        rwa [List.getElem?_append_left (by omega)] at isEntry
      rw [UtHash.key_add_of_ne isNew, good.keys a o old]
  · rw [List.map_append, List.map_singleton, isKey]
    exact List.nodup_append.mpr ⟨good.single, List.nodup_singleton _, fun x member y single same =>
      noName (List.mem_singleton.mp single ▸ same ▸ member)⟩
  · intro name
    rw [List.map_append, List.map_append, List.mem_append, List.mem_append, good.names,
      List.map_singleton, List.map_singleton, isKey]
  · intro o member field
    rw [firstText_snoc]
    rcases List.mem_append.mp member with old | new
    · have other : call.name ≠ o.key := fun same => noName (same ▸ List.mem_map_of_mem old)
      rw [if_neg fun both => other both.1, Option.or_none]
      exact good.holds o old field
    · rw [List.mem_singleton.mp new, isKey]
      have none : firstText before call.name field = none := by
        rw [firstText, List.find?_eq_none.mpr, Option.map_none]
        intro earlier isEarlier
        have differs : earlier.name ≠ call.name := fun same =>
          absent (same ▸ List.mem_map_of_mem isEarlier)
        simp [differs]
      rw [none, Option.none_or]
      by_cases same : field = call.field
      · rw [same, get_set, if_pos ⟨rfl, rfl⟩]
      · rw [get_set_of_ne _ _ same, if_neg fun both => same both.2.symm]
        cases field <;> rfl

/-- Every call that fits keeps the table healthy. -/
theorem OptionsHealthy.step (good : OptionsHealthy bucket before s) (fits : CallFits before call) :
    ∃ s', call.run bucket s = some s' ∧ OptionsHealthy bucket (before ++ [call]) s' := by
  obtain ⟨nameGiven, textGiven, ⟨earlier, member, sameName, sameField⟩ | ⟨first, inserted⟩⟩ := fits
  · rcases good.find call.name with ⟨absent, _⟩ | ⟨a, o, isEntry, isKey, found⟩
    · exact absurd (sameName ▸ List.mem_map_of_mem member) absent
    · have given : (o.get call.field).isSome = true := by
        rw [good.holds o (List.mem_of_getElem? isEntry), firstText, Option.isSome_map,
          List.find?_isSome]
        exact ⟨earlier, member, by simp [sameName, sameField, isKey]⟩
      rw [run_found ⟨nameGiven, textGiven⟩ found isEntry isKey, if_pos given]
      exact ⟨s, rfl, good.repeats member sameName sameField⟩
  · have absent : call.name ∉ before.map OptionCall.name := by
      intro member
      obtain ⟨earlier, isEarlier, same⟩ := List.mem_map.mp member
      exact first earlier isEarlier same
    have named : call.hashText = call.name := by
      unfold OptionCall.hashText
      split
      · rfl
      · next other => exact inserted.resolve_left other
    rcases good.find call.name with ⟨_, found⟩ | ⟨a, o, isEntry, isKey, _⟩
    · rw [run_new ⟨nameGiven, textGiven⟩ found]
      exact ⟨_, rfl, good.adds absent named⟩
    · have member := List.mem_map_of_mem (f := OptionEntry.key) (List.mem_of_getElem? isEntry)
      rw [isKey] at member
      exact absurd ((good.names _).mp member) absent

/-- An entry that is inserted again: the iteration no longer visits every entry. -/
theorem OptionsHealthy.readd (good : OptionsHealthy bucket before s) {a : Nat} {o : OptionEntry}
    (isEntry : s.entries[a]? = some o) (k : List Char) (changed : OptionEntry)
    (calls : List OptionCall) :
    ¬OptionsConsistent bucket calls
      { entries := s.entries.set a changed, table := s.table.add bucket a k } := by
  intro consistent
  obtain ⟨order, listed, visits⟩ := consistent.visits
  have inside : a ∈ List.range s.entries.length :=
    List.mem_range.mpr (List.getElem?_eq_some_iff.mp isEntry).1
  obtain ⟨b, member, lost⟩ := good.healthy.readd inside k listed
  rw [List.length_set] at visits
  exact lost (visits.mem_iff.mpr member)

/-- An entry that is inserted under another text is not found by its name. -/
theorem OptionsHealthy.misfiled (good : OptionsHealthy bucket before s)
    (absent : call.name ∉ before.map OptionCall.name) {k : List Char} (other : k ≠ call.name)
    (o : OptionEntry) :
    ¬OptionsConsistent bucket (before ++ [call])
      { entries := s.entries ++ [o], table := s.table.add bucket s.entries.length k } := by
  intro consistent
  have healthy := good.healthy.add (a := s.entries.length) (by simp) k
  rw [← List.range_succ] at healthy
  have noKey : ∀ b ∈ List.range (s.entries.length + 1),
      (s.table.add bucket s.entries.length k).key b ≠ some call.name := by
    intro b member isKey
    by_cases isNew : b = s.entries.length
    · rw [isNew, UtHash.key_add_self] at isKey
      exact other (Option.some.inj isKey)
    · have inside : b < s.entries.length := by
        have bound := List.mem_range.mp member
        omega
      have isEntry := List.getElem?_eq_getElem inside
      rw [UtHash.key_add_of_ne isNew, good.keys b _ isEntry] at isKey
      have given := List.mem_map_of_mem (f := OptionEntry.key) (List.mem_of_getElem? isEntry)
      rw [Option.some.inj isKey] at given
      exact absent ((good.names _).mp given)
  obtain ⟨a, _, found, _⟩ := consistent.finds call.name (by simp)
  have size : (List.range (s.entries.length + 1)).length ≤ (s.entries ++ [o]).length := by simp
  rcases healthy.find size call.name with ⟨notFound, _⟩ | ⟨b, member, _, isKey⟩
  · rw [notFound] at found
    cases found
  · exact noKey b member isKey

/-- A call that does not fit leaves no consistent table. -/
theorem OptionsHealthy.fits (good : OptionsHealthy bucket before s)
    (runs : ∃ s', call.run bucket s = some s' ∧ OptionsConsistent bucket (before ++ [call]) s') :
    CallFits before call := by
  obtain ⟨s', run, consistent⟩ := runs
  have named : call.name ≠ [] ∧ call.text ≠ [] := by
    rw [← not_or]
    intro empty
    rw [run_empty empty] at run
    cases run
  refine ⟨named.1, named.2, ?_⟩
  rcases good.find call.name with ⟨absent, found⟩ | ⟨a, o, isEntry, isKey, found⟩
  · rw [run_new named found] at run
    cases run
    refine Or.inr ⟨fun earlier member same => absent (same ▸ List.mem_map_of_mem member), ?_⟩
    by_contra neither
    obtain ⟨notValue, differs⟩ := not_or.mp neither
    have hashText : call.hashText = call.text := if_neg notValue
    exact good.misfiled absent (hashText ▸ differs) _ consistent
  · rw [run_found named found isEntry isKey] at run
    split at run
    · next given =>
        rw [good.holds o (List.mem_of_getElem? isEntry), firstText, Option.isSome_map,
          List.find?_isSome] at given
        obtain ⟨earlier, member, same⟩ := given
        simp only [Bool.and_eq_true, decide_eq_true_eq] at same
        exact Or.inl ⟨earlier, member, same.1.trans isKey, same.2⟩
    · cases run
      exact absurd consistent (good.readd isEntry _ _ _)

theorem runOptionCalls_snoc (calls : List OptionCall) (call : OptionCall) :
    runOptionCalls bucket (calls ++ [call]) =
      (runOptionCalls bucket calls).bind (call.run bucket) := by
  rw [runOptionCalls, List.foldlM_append, ← runOptionCalls, Option.bind_eq_bind]
  congr 1
  funext s
  simp

/-- Each call of the sequence fits those before it. -/
def AllFit (calls : List OptionCall) : Prop :=
  ∀ before call after, calls = before ++ call :: after → CallFits before call

theorem AllFit.front {calls later : List OptionCall} (fit : AllFit (calls ++ later)) :
    AllFit calls := by
  intro before call after split
  refine fit before call (after ++ later) ?_
  rw [split, List.append_assoc, List.cons_append]

theorem allFit_snoc {calls : List OptionCall} :
    AllFit (calls ++ [call]) ↔ AllFit calls ∧ CallFits calls call := by
  constructor
  · intro fit
    exact ⟨fit.front, fit calls call [] rfl⟩
  · rintro ⟨fit, last⟩ before other after split
    rcases List.eq_nil_or_concat after with rfl | ⟨middle, final, rfl⟩
    · obtain ⟨rfl, same⟩ := List.append_inj' split rfl
      cases same
      exact last
    · rw [List.concat_eq_append, ← List.cons_append, ← List.append_assoc] at split
      obtain ⟨rfl, _⟩ := List.append_inj' split rfl
      exact fit before other middle rfl

theorem AllFit.healthy {calls : List OptionCall} (fit : AllFit calls) :
    ∃ s, runOptionCalls bucket calls = some s ∧ OptionsHealthy bucket calls s := by
  induction calls using List.reverseRecOn with
  | nil => exact ⟨{}, rfl, optionsHealthy_nil bucket⟩
  | append_singleton calls call ih =>
      obtain ⟨fitBefore, fits⟩ := allFit_snoc.mp fit
      obtain ⟨s, runs, good⟩ := ih fitBefore
      obtain ⟨s', run, good'⟩ := good.step fits
      exact ⟨s', by rw [runOptionCalls_snoc, runs, Option.bind_some, run], good'⟩

/-- The table is consistent after every call exactly if each call fits those before it. -/
theorem optionsStayConsistent_iff (bucket : List Char → Nat) (calls : List OptionCall) :
    (∀ before after, calls = before ++ after →
      ∃ s, runOptionCalls bucket before = some s ∧ OptionsConsistent bucket before s) ↔
    ∀ before call after, calls = before ++ call :: after → CallFits before call := by
  constructor
  · intro stays
    change AllFit calls
    induction calls using List.reverseRecOn with
    | nil =>
        intro before call after split
        simp at split
    | append_singleton calls call ih =>
        have fit : AllFit calls := ih fun before after split =>
          stays before (after ++ [call]) (by rw [split, List.append_assoc])
        obtain ⟨s, runs, good⟩ := @AllFit.healthy bucket calls fit
        refine allFit_snoc.mpr ⟨fit, good.fits ?_⟩
        obtain ⟨s', run, consistent⟩ := stays (calls ++ [call]) [] (List.append_nil _).symm
        rw [runOptionCalls_snoc, runs, Option.bind_some] at run
        exact ⟨s', run, consistent⟩
  · intro fit before after split
    have front : AllFit (before ++ after) := split ▸ fit
    obtain ⟨s, runs, good⟩ := @AllFit.healthy bucket before front.front
    exact ⟨s, runs, good.consistent⟩

/-- The option A with the value on, and then with the default off: the entry is inserted
twice and follows itself. -/
theorem valueThenDefault_not_consistent :
    ¬∀ before after,
      [OptionCall.mk .value ['A'] ['o', 'n'], ⟨.defaultValue, ['A'], ['o', 'f', 'f']⟩] =
        before ++ after →
      ∃ s, runOptionCalls List.length before = some s ∧
        OptionsConsistent List.length before s := by
  intro stays
  obtain ⟨s, runs, consistent⟩ := stays _ [] (List.append_nil _).symm
  have links : (runOptionCalls List.length [OptionCall.mk .value ['A'] ['o', 'n'],
      ⟨.defaultValue, ['A'], ['o', 'f', 'f']⟩]).map
        (fun s => (s.table.head, s.table.next 0)) = some (some 0, some 0) := by decide +kernel
  rw [runs, Option.map_some, Option.some.injEq, Prod.mk.injEq] at links
  obtain ⟨order, listed, _⟩ := consistent.visits
  rw [links.1] at listed
  exact listed.false_of_loop links.2

end Calls

end Pkgng
