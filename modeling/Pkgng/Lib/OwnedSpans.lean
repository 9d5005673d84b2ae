import Mathlib.Data.List.Pairwise
import Mathlib.Logic.Function.Basic

/-!
# Spans of an append-only file

Parties that append to a file each keep a list of the spans they have written.  As
long as a new span starts at the end of the file, the spans of all parties hold
what was written and do not overlap, also when they are handed from one party to
another.
-/

set_option autoImplicit false

namespace Pkgng.Lib

variable {α Owner : Type}

structure Span (α : Type) where
  pos : Nat
  content : List α
deriving DecidableEq, Repr

namespace Span

/-- The file holds the content at the position. -/
def Written (file : List α) (span : Span α) : Prop :=
  ∃ before after, file = before ++ span.content ++ after ∧ before.length = span.pos

def Disjoint (span other : Span α) : Prop :=
  span.pos + span.content.length ≤ other.pos ∨ other.pos + other.content.length ≤ span.pos

theorem Disjoint.symm {span other : Span α} (disjoint : span.Disjoint other) :
    other.Disjoint span := Or.symm disjoint

theorem Written.append {file : List α} {span : Span α} (written : span.Written file)
    (more : List α) : span.Written (file ++ more) := by
  obtain ⟨before, after, rfl, length⟩ := written
  exact ⟨before, after ++ more, by simp, length⟩

theorem Written.end_le {file : List α} {span : Span α} (written : span.Written file) :
    span.pos + span.content.length ≤ file.length := by
  obtain ⟨before, after, rfl, length⟩ := written
  simp only [List.length_append]
  omega

theorem Written.slice {file : List α} {span : Span α} (written : span.Written file) :
    (file.drop span.pos).take span.content.length = span.content := by
  obtain ⟨before, after, rfl, length⟩ := written
  rw [← length, List.append_assoc, List.drop_left, List.take_left]

end Span

/-- Every party's spans are written, and no two spans overlap. -/
structure OwnedSpans (file : List α) (claims : Owner → List (Span α)) : Prop where
  written : ∀ owner, ∀ span ∈ claims owner, span.Written file
  own : ∀ owner, (claims owner).Pairwise Span.Disjoint
  apart : ∀ owner other, owner ≠ other → ∀ span ∈ claims owner, ∀ second ∈ claims other,
    span.Disjoint second

namespace OwnedSpans

variable {file : List α} {claims kept : Owner → List (Span α)}

theorem none (file : List α) : OwnedSpans file (fun _ : Owner => []) :=
  ⟨nofun, fun _ => List.Pairwise.nil, nofun⟩

theorem append (owned : OwnedSpans file claims) (more : List α) :
    OwnedSpans (file ++ more) claims :=
  ⟨fun owner span member => (owned.written owner span member).append more, owned.own,
    owned.apart⟩

/-- Parties may forget spans. -/
theorem sublist (owned : OwnedSpans file claims)
    (sub : ∀ owner, (kept owner).Sublist (claims owner)) : OwnedSpans file kept :=
  ⟨fun owner span member => owned.written owner span ((sub owner).subset member),
    fun owner => (owned.own owner).sublist (sub owner),
    fun owner other different span member second memberSecond =>
      owned.apart owner other different span ((sub owner).subset member) second
        ((sub other).subset memberSecond)⟩

variable [DecidableEq Owner]

/-- A party that appends to the file gets the span that starts at its end. -/
theorem write (owned : OwnedSpans file claims) (owner : Owner) (content after : List α) :
    OwnedSpans (file ++ content ++ after)
      (Function.update claims owner (claims owner ++ [⟨file.length, content⟩])) := by
  have below : ∀ party, ∀ span ∈ claims party, span.Disjoint ⟨file.length, content⟩ :=
    fun party span member => Or.inl (owned.written party span member).end_le
  have cases_of : ∀ party, ∀ span ∈ Function.update claims owner
      (claims owner ++ [⟨file.length, content⟩]) party,
      span ∈ claims party ∨ party = owner ∧ span = ⟨file.length, content⟩ := by
    intro party span member
    by_cases same : party = owner
    · subst same
      rw [Function.update_self, List.mem_append, List.mem_singleton] at member
      rcases member with old | new
      · exact Or.inl old
      · exact Or.inr ⟨rfl, new⟩
    · rw [Function.update_of_ne same] at member
      exact Or.inl member
  refine ⟨?_, ?_, ?_⟩
  · intro party span member
    rcases cases_of party span member with old | ⟨_, rfl⟩
    · rw [List.append_assoc]
      exact (owned.written party span old).append (content ++ after)
    · exact ⟨file, after, rfl, rfl⟩
  · intro party
    by_cases same : party = owner
    · subst same
      rw [Function.update_self, List.pairwise_append]
      refine ⟨owned.own party, List.pairwise_singleton _ _, ?_⟩
      intro span member second last
      rw [List.mem_singleton] at last
      subst last
      exact below party span member
    · rw [Function.update_of_ne same]
      exact owned.own party
  · intro party other different span member second memberSecond
    rcases cases_of party span member with old | ⟨rfl, rfl⟩
    · rcases cases_of other second memberSecond with oldSecond | ⟨rfl, rfl⟩
      · exact owned.apart party other different span old second oldSecond
      · exact below party span old
    · rcases cases_of other second memberSecond with oldSecond | ⟨rfl, rfl⟩
      · exact (below other second oldSecond).symm
      · exact absurd rfl different

/-- A party hands its first span to another one. -/
theorem hand (owned : OwnedSpans file claims) {giver taker : Owner} (different : giver ≠ taker)
    {span : Span α} {rest : List (Span α)} (first : claims giver = span :: rest) :
    OwnedSpans file (Function.update (Function.update claims giver rest) taker
      (claims taker ++ [span])) := by
  have given : span ∈ claims giver := by
    rw [first]
    exact List.mem_cons_self
  have ownGiver := owned.own giver
  rw [first, List.pairwise_cons] at ownGiver
  have cases_of : ∀ party, ∀ second ∈ Function.update (Function.update claims giver rest) taker
      (claims taker ++ [span]) party,
      (second ∈ claims party ∧ (party = giver → second ∈ rest)) ∨
        party = taker ∧ second = span := by
    intro party second member
    by_cases isTaker : party = taker
    · subst isTaker
      rw [Function.update_self, List.mem_append, List.mem_singleton] at member
      rcases member with old | new
      · exact Or.inl ⟨old, fun same => absurd same.symm different⟩
      · exact Or.inr ⟨rfl, new⟩
    · rw [Function.update_of_ne isTaker] at member
      by_cases isGiver : party = giver
      · subst isGiver
        rw [Function.update_self] at member
        refine Or.inl ⟨?_, fun _ => member⟩
        rw [first]
        exact List.mem_cons_of_mem span member
      · rw [Function.update_of_ne isGiver] at member
        exact Or.inl ⟨member, fun same => absurd same isGiver⟩
  have away : ∀ party, ∀ second ∈ claims party, (party = giver → second ∈ rest) →
      second.Disjoint span := by
    intro party second member inRest
    by_cases isGiver : party = giver
    · exact (ownGiver.1 second (inRest isGiver)).symm
    · exact owned.apart party giver isGiver second member span given
  refine ⟨?_, ?_, ?_⟩
  · intro party second member
    rcases cases_of party second member with ⟨old, _⟩ | ⟨_, rfl⟩
    · exact owned.written party second old
    · exact owned.written giver second given
  · intro party
    by_cases isTaker : party = taker
    · subst isTaker
      rw [Function.update_self, List.pairwise_append]
      refine ⟨owned.own party, List.pairwise_singleton _ _, ?_⟩
      intro second member last isLast
      rw [List.mem_singleton] at isLast
      subst isLast
      exact away party second member fun same => absurd same.symm different
    · rw [Function.update_of_ne isTaker]
      by_cases isGiver : party = giver
      · subst isGiver
        rw [Function.update_self]
        exact ownGiver.2
      · rw [Function.update_of_ne isGiver]
        exact owned.own party
  · intro party other apart second member third memberThird
    rcases cases_of party second member with ⟨old, inRest⟩ | ⟨rfl, rfl⟩
    · rcases cases_of other third memberThird with ⟨oldThird, _⟩ | ⟨rfl, rfl⟩
      · exact owned.apart party other apart second old third oldThird
      · exact away party second old inRest
    · rcases cases_of other third memberThird with ⟨oldThird, inRest⟩ | ⟨rfl, rfl⟩
      · exact (away other third oldThird inRest).symm
      · exact absurd rfl apart

end OwnedSpans

end Pkgng.Lib
