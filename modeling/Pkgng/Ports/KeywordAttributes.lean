import Pkgng.Ports.Keywords

/-!
# The attributes of a keyword

`parse_keywords` takes the bracket off the end of the mode before `setmode` is asked, and once more
behind it, so that a mode of one character is lost.  It looks for commas only: a bracket may stand
in the owner or the group.
-/

set_option autoImplicit false

namespace Pkgng

/-- `key(owner,group,mode)` -/
def spellKeyword (key owner group mode : List Char) : List Char :=
  key ++ '(' :: (owner ++ ',' :: (group ++ ',' :: (mode ++ [')'])))

/-- The text at its first bracket and the first two commas behind it. -/
structure SplitsInto (text key owner group mode : List Char) : Prop where
  spelled : text = spellKeyword key owner group mode
  keyEnds : '(' ∉ key
  ownerEnds : ',' ∉ owner
  groupEnds : ',' ∉ group

/-- Free of brackets. -/
def Unbracketed (text : List Char) : Prop := '(' ∉ text ∧ ')' ∉ text

section Mode

variable (env : PortsEnv)

/-- The mode is empty or accepted by `setmode`. -/
def ModeAccepted (mode : List Char) : Prop := mode = [] ∨ (env.setmode mode).isSome = true

/-- `getmode(setmode(mode), 0)`, and zero for no mode. -/
def modeValue (mode : List Char) : Nat :=
  if mode = [] then 0 else ((env.setmode mode).map fun set => set 0).getD 0

/-- The record with the three texts. -/
def spelledAttr (owner group mode : List Char) : FileAttr where
  owner := if owner = [] then none else some owner
  group := if group = [] then none else some group
  mode := modeValue env mode

/-- A text of the form that the messages name. -/
structure WellSpelled (text key owner group mode : List Char) : Prop extends
    SplitsInto text key owner group mode where
  plainOwner : Unbracketed owner
  plainGroup : Unbracketed group
  accepted : ModeAccepted env mode

/-- A well spelled keyword has exactly its key and its attributes, and any other text with a
bracket is refused. -/
def AttributesExact (text : List Char) : Prop :=
  (∀ key owner group mode, WellSpelled env text key owner group mode →
    keywordAttributes env text = .ok (key, some (spelledAttr env owner group mode))) ∧
  ('(' ∈ text → (¬∃ key owner group mode, WellSpelled env text key owner group mode) →
    ∃ message, keywordAttributes env text = .error message)

/-- Refused keywords perform nothing; the others perform what is found for their keys. -/
theorem parseKeywords_eq (text : List Char) (w : Work) :
    parseKeywords env text w =
      match keywordAttributes env text with
      | .error _ => .returned .fatal w
      | .ok (key, a) => dispatchKeyword env key w a := rfl

end Mode

/-! ## The split -/

theorem cutAt_append {c : Char} {front : List Char} (absent : c ∉ front) (behind : List Char) :
    cutAt c (front ++ c :: behind) = some (front, behind) := by
  have before : ∀ d ∈ front, decide (d ≠ c) = true :=
    fun d member => decide_eq_true fun same => absent (same ▸ member)
  unfold cutAt
  rw [List.dropWhile_append_of_pos before, List.takeWhile_append_of_pos before]
  simp

theorem cutAt_none_iff {c : Char} {s : List Char} : cutAt c s = none ↔ c ∉ s := by
  constructor
  · intro nothing member
    obtain ⟨front, behind, rfl, absent⟩ := List.eq_append_cons_of_mem member
    rw [cutAt_append absent] at nothing
    cases nothing
  · intro absent
    have all : s.dropWhile (· ≠ c) = [] :=
      List.dropWhile_eq_nil_iff.mpr fun d member =>
        decide_eq_true fun same => absent (same ▸ member)
    unfold cutAt
    rw [all]

theorem cutAt_some {c : Char} {s front behind : List Char}
    (found : cutAt c s = some (front, behind)) : s = front ++ c :: behind ∧ c ∉ front := by
  by_cases member : c ∈ s
  · obtain ⟨front', behind', rfl, absent⟩ := List.eq_append_cons_of_mem member
    rw [cutAt_append absent] at found
    cases found
    exact ⟨rfl, absent⟩
  · rw [cutAt_none_iff.mpr member] at found
    cases found

/-! ## What is parsed -/

section Parsed

variable {env : PortsEnv} {text key owner group mode : List Char}

theorem getLast?_spellKeyword : (spellKeyword key owner group mode).getLast? = some ')' := by
  have ends : spellKeyword key owner group mode =
      (key ++ '(' :: (owner ++ ',' :: (group ++ ',' :: mode))) ++ [')'] := by
    simp [spellKeyword]
  rw [ends, List.getLast?_concat]

/-- What is left to do behind the two commas. -/
theorem keywordAttributes_of_splits (splits : SplitsInto text key owner group mode) :
    keywordAttributes env text =
      if mode ≠ [] ∧ (if mode = [] then none else env.setmode mode).isNone then
        .error (wrongMode key)
      else .ok (key, some { spelledAttr env owner group mode with
        mode := if mode.dropLast = [] then 0 else
          ((if mode = [] then none else env.setmode mode).map fun set => set 0).getD 0 }) := by
  have inner : (owner ++ ',' :: (group ++ ',' :: (mode ++ [')']))).dropLast =
      owner ++ ',' :: (group ++ ',' :: mode) := by
    have regrouped : owner ++ ',' :: (group ++ ',' :: (mode ++ [')'])) =
        (owner ++ ',' :: (group ++ ',' :: mode)) ++ [')'] := by simp
    rw [regrouped, List.dropLast_concat]
  obtain ⟨rfl, keyEnds, ownerEnds, groupEnds⟩ := splits
  have found : cutAt '(' (spellKeyword key owner group mode) = some (key, _) :=
    cutAt_append keyEnds _
  unfold keywordAttributes
  rw [found]
  dsimp only
  rw [if_neg (not_not.mpr getLast?_spellKeyword), inner, cutAt_append ownerEnds]
  dsimp only
  rw [cutAt_append groupEnds]
  rfl

/-- The mode is lost when it is one character. -/
theorem keywordAttributes_accepted (splits : SplitsInto text key owner group mode)
    (accepted : ModeAccepted env mode) :
    keywordAttributes env text =
      .ok (key, some { spelledAttr env owner group mode with
        mode := if mode.length = 1 then 0 else modeValue env mode }) := by
  rw [keywordAttributes_of_splits splits]
  by_cases empty : mode = []
  · subst empty
    rfl
  · have isSome := accepted.resolve_left empty
    rw [if_neg empty, if_neg fun refused => by
      simp [Option.isNone_iff_eq_none.mp refused.2] at isSome]
    have single : mode.dropLast = [] ↔ mode.length = 1 := by
      have positive := List.length_pos_iff.mpr empty
      rw [← List.length_eq_zero_iff, List.length_dropLast]
      omega
    simp only [single, modeValue, if_neg empty]

theorem keywordAttributes_refused (splits : SplitsInto text key owner group mode)
    (refused : ¬ModeAccepted env mode) :
    keywordAttributes env text = .error (wrongMode key) := by
  have nonempty : mode ≠ [] := fun empty => refused (.inl empty)
  have isNone : (env.setmode mode).isNone = true := by
    rw [Option.isNone_iff_eq_none]
    by_contra found
    exact refused (.inr (Option.isSome_iff_ne_none.mpr found))
  rw [keywordAttributes_of_splits splits, if_neg nonempty, if_pos ⟨nonempty, isNone⟩]

/-- A text with a bracket that does not split is refused. -/
theorem keywordAttributes_malformed (bracket : '(' ∈ text)
    (unsplit : ¬∃ key owner group mode, SplitsInto text key owner group mode) :
    ∃ message, keywordAttributes env text = .error message := by
  obtain ⟨key, tmp, rfl, keyEnds⟩ := List.eq_append_cons_of_mem bracket
  unfold keywordAttributes
  rw [cutAt_append keyEnds]
  dsimp only
  by_cases closed : (key ++ '(' :: tmp).getLast? = some ')'
  · rw [if_neg (not_not.mpr closed)]
    cases first : cutAt ',' tmp.dropLast with
    | none => exact ⟨_, rfl⟩
    | some parts =>
        obtain ⟨owner, later⟩ := parts
        dsimp only
        cases second : cutAt ',' later with
        | none => exact ⟨_, rfl⟩
        | some parts =>
            obtain ⟨group, mode⟩ := parts
            obtain ⟨inner, ownerEnds⟩ := cutAt_some first
            obtain ⟨rfl, groupEnds⟩ := cutAt_some second
            refine absurd ⟨key, owner, group, mode, ?_, keyEnds, ownerEnds, groupEnds⟩ unsplit
            have nonempty : tmp ≠ [] := by
              rintro rfl
              simp at inner
            have ends : tmp.getLast? = some ')' := by
              rw [List.getLast?_append_of_ne_nil _ (List.cons_ne_nil _ _),
                List.getLast?_cons_of_ne_nil nonempty] at closed
              exact closed
            unfold spellKeyword
            rw [← List.dropLast_append_getLast? ')' ends, inner]
            simp
  · rw [if_pos closed]
    exact ⟨_, rfl⟩

/-- A field tells its text. -/
theorem optionText_injective {s t : List Char}
    (same : (if s = [] then none else some s) = if t = [] then none else some t) : s = t := by
  split at same <;> split at same
  · next left right => rw [left, right]
  · cases same
  · cases same
  · exact Option.some.inj same

/-- Exactly the texts are parsed exactly whose owner and group, as they are split, have no
brackets, and whose mode is not lost, unless `setmode` refuses it. -/
theorem attributesExact_iff (env : PortsEnv) (text : List Char) :
    AttributesExact env text ↔ ∀ key owner group mode,
      SplitsInto text key owner group mode → ModeAccepted env mode →
        Unbracketed owner ∧ Unbracketed group ∧ (mode.length = 1 → modeValue env mode = 0) := by
  constructor
  · rintro ⟨exactly, refuses⟩ key owner group mode splits accepted
    have parsed := keywordAttributes_accepted splits accepted
    by_cases plain : Unbracketed owner ∧ Unbracketed group
    · refine ⟨plain.1, plain.2, fun single => ?_⟩
      have same := exactly key owner group mode ⟨splits, plain.1, plain.2, accepted⟩
      rw [parsed, if_pos single] at same
      exact (congrArg FileAttr.mode (Option.some.inj (congrArg Prod.snd
        (Except.ok.inj same)))).symm
    · have bracket : '(' ∈ text := by
        rw [splits.spelled]
        exact List.mem_append_right _ List.mem_cons_self
      have notSpelled : ¬∃ key owner group mode, WellSpelled env text key owner group mode := by
        rintro ⟨key', owner', group', mode', splits', plainOwner, plainGroup, accepted'⟩
        rw [keywordAttributes_accepted splits' accepted'] at parsed
        have same := Option.some.inj (congrArg Prod.snd (Except.ok.inj parsed))
        have sameOwner := optionText_injective (congrArg FileAttr.owner same)
        have sameGroup := optionText_injective (congrArg FileAttr.group same)
        exact plain ⟨sameOwner ▸ plainOwner, sameGroup ▸ plainGroup⟩
      obtain ⟨message, refused⟩ := refuses bracket notSpelled
      cases parsed.symm.trans refused
  · intro holds
    refine ⟨?_, ?_⟩
    · rintro key owner group mode ⟨splits, plainOwner, plainGroup, accepted⟩
      obtain ⟨-, -, kept⟩ := holds key owner group mode splits accepted
      rw [keywordAttributes_accepted splits accepted]
      by_cases single : mode.length = 1
      · rw [if_pos single, ← kept single]
        rfl
      · rw [if_neg single]
        rfl
    · intro bracket notSpelled
      by_cases split : ∃ key owner group mode, SplitsInto text key owner group mode
      · obtain ⟨key, owner, group, mode, splits⟩ := split
        refine ⟨_, keywordAttributes_refused splits fun accepted => notSpelled ?_⟩
        obtain ⟨plainOwner, plainGroup, -⟩ := holds key owner group mode splits accepted
        exact ⟨key, owner, group, mode, splits, plainOwner, plainGroup, accepted⟩
      · exact keywordAttributes_malformed bracket split

end Parsed

/-- A mode of one digit. -/
theorem oneDigit_not_attributesExact :
    ¬AttributesExact bareSystem "dir(root,wheel,7)".toList := by
  rintro ⟨exactly, -⟩
  have lost : keywordAttributes bareSystem "dir(root,wheel,7)".toList =
      .ok ("dir".toList, some ⟨some "root".toList, some "wheel".toList, 0⟩) := by decide +kernel
  have kept := exactly "dir".toList "root".toList "wheel".toList ['7']
    ⟨⟨by decide +kernel, by decide, by decide, by decide⟩, ⟨by decide, by decide⟩,
      ⟨by decide, by decide⟩, .inr (by decide)⟩
  have value : modeValue bareSystem ['7'] = 7 := by decide
  rw [lost] at kept
  have same := congrArg FileAttr.mode (Option.some.inj (congrArg Prod.snd (Except.ok.inj kept)))
  cases same.trans value

end Pkgng
