import Mathlib.Data.List.Basic

/-!
# Words that show their own end

A text is a row of such words and what is left behind them.  Where no word begins the rest, the
words and the rest are those of the text.
-/

set_option autoImplicit false

namespace Pkgng.Lib

variable {Word Letter : Type}

/-- No text begins with two of the words, and none of them is empty. -/
structure SelfDelimiting (valid : Word → Prop) (write : Word → List Letter) : Prop where
  ne_nil : ∀ word, valid word → write word ≠ []
  unique : ∀ word other rest otherRest, valid word → valid other →
    write word ++ rest = write other ++ otherRest → word = other ∧ rest = otherRest

/-- The text is the words and the rest, which no further word begins. -/
structure SplitsInto (valid : Word → Prop) (write : Word → List Letter) (text : List Letter)
    (words : List Word) (rest : List Letter) : Prop where
  areWords : ∀ word ∈ words, valid word
  joined : text = words.flatMap write ++ rest
  ended : ∀ word, valid word → ¬write word <+: rest

variable {valid : Word → Prop} {write : Word → List Letter}

theorem SelfDelimiting.exists_splitsInto (delimited : SelfDelimiting valid write)
    (text : List Letter) : ∃ words rest, SplitsInto valid write text words rest := by
  induction length : text.length using Nat.strongRecOn generalizing text with
  | ind n ih =>
      by_cases begins : ∃ word, valid word ∧ write word <+: text
      · obtain ⟨word, isWord, tail, rfl⟩ := begins
        have shorter : tail.length < n := by
          rw [← length, List.length_append]
          have := List.length_pos_of_ne_nil (delimited.ne_nil word isWord)
          omega
        obtain ⟨words, rest, splits⟩ := ih tail.length shorter tail rfl
        refine ⟨word :: words, rest, List.forall_mem_cons.mpr ⟨isWord, splits.areWords⟩, ?_,
          splits.ended⟩
        rw [List.flatMap_cons, List.append_assoc, ← splits.joined]
      · exact ⟨[], text, List.forall_mem_nil _, rfl, fun word isWord first =>
          begins ⟨word, isWord, first⟩⟩

theorem SelfDelimiting.splitsInto_unique (delimited : SelfDelimiting valid write)
    {text : List Letter} {words others : List Word} {rest otherRest : List Letter}
    (splits : SplitsInto valid write text words rest)
    (otherSplits : SplitsInto valid write text others otherRest) :
    words = others ∧ rest = otherRest := by
  obtain ⟨areWords, rfl, ended⟩ := splits
  obtain ⟨areOthers, same, otherEnded⟩ := otherSplits
  induction words generalizing others with
  | nil =>
      cases others with
      | nil => exact ⟨rfl, same⟩
      | cons other others =>
          rw [List.flatMap_cons, List.append_assoc] at same
          exact absurd ⟨_, same.symm⟩ (ended other (areOthers other List.mem_cons_self))
  | cons word words ih =>
      have isWord := areWords word List.mem_cons_self
      rw [List.flatMap_cons, List.append_assoc] at same
      cases others with
      | nil => exact absurd ⟨_, same⟩ (otherEnded word isWord)
      | cons other others =>
          rw [List.flatMap_cons, List.append_assoc] at same
          obtain ⟨rfl, tail⟩ := delimited.unique word other _ _ isWord
            (areOthers other List.mem_cons_self) same
          obtain ⟨rfl, sameRest⟩ := ih (List.forall_mem_cons.mp areWords).2
            (List.forall_mem_cons.mp areOthers).2 tail
          exact ⟨rfl, sameRest⟩

/-- A row of words splits into them, with nothing left. -/
theorem SelfDelimiting.splitsInto_flatMap (delimited : SelfDelimiting valid write)
    {words : List Word} (areWords : ∀ word ∈ words, valid word) :
    SplitsInto valid write (words.flatMap write) words [] where
  areWords := areWords
  joined := (List.append_nil _).symm
  ended := fun word isWord first => delimited.ne_nil word isWord (List.prefix_nil.mp first)

end Pkgng.Lib
