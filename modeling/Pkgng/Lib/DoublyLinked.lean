import Mathlib.Data.List.Basic
import Mathlib.Data.List.Induction
import Mathlib.Data.List.Nodup
import Mathlib.Logic.Function.Basic

/-!
# Doubly linked chains with a tail pointer in the head

The links of a heap of list cells, addressed by natural numbers.  A chain is
null-terminated forwards; backwards the `prev` link of its head holds the tail,
so that appending needs no walk.  `Represents links chain` relates the links to
the list of addresses they spell; appending, walking and rewinding are then
list operations.
-/

set_option autoImplicit false

namespace Pkgng.Lib

structure Links where
  next : Nat → Option Nat
  prev : Nat → Nat

namespace Links

def empty : Links := ⟨fun _ => none, id⟩

/-- Appends the cell `add` to the chain starting at `head`, which is the
address of its first cell or null.  Nothing else of the cell `add` is read: a
chain hanging off its `next` link is cut off. -/
def append (links : Links) (head : Option Nat) (add : Nat) : Links :=
  match head with
  | none =>
      { next := Function.update links.next add none
        prev := Function.update links.prev add add }
  | some first =>
      let last := links.prev first
      { next := Function.update (Function.update links.next last (some add)) add none
        prev := Function.update (Function.update links.prev add last) first add }

/-- The cells met by following `next` from `start`, at most `fuel` of them. -/
def walk (links : Links) : Nat → Option Nat → List Nat
  | 0, _ => []
  | _ + 1, none => []
  | fuel + 1, some cell => cell :: walk links fuel (links.next cell)

/-- The loop `while (cell->prev->next != NULL) cell = cell->prev`. -/
def rewind (links : Links) : Nat → Nat → Option Nat
  | 0, _ => none
  | fuel + 1, cell =>
      match links.next (links.prev cell) with
      | none => some cell
      | some _ => rewind links fuel (links.prev cell)

def Forward (links : Links) : List Nat → Prop
  | [] => True
  | [cell] => links.next cell = none
  | cell :: following :: rest =>
      links.next cell = some following ∧ Forward links (following :: rest)

def Backward (links : Links) : List Nat → Prop
  | cell :: following :: rest =>
      links.prev following = cell ∧ Backward links (following :: rest)
  | _ => True

/-- The links spell the chain, and its head points back at its last cell. -/
structure Represents (links : Links) (chain : List Nat) : Prop where
  nodup : chain.Nodup
  forward : Forward links chain
  backward : Backward links chain
  tail : ∀ head, chain.head? = some head → chain.getLast? = some (links.prev head)

variable {links links' : Links}

theorem forward_congr : ∀ {chain : List Nat},
    (∀ cell ∈ chain, links'.next cell = links.next cell) →
      Forward links chain → Forward links' chain
  | [], _, _ => trivial
  | [cell], agree, ends => (agree cell (by simp)).trans ends
  | cell :: following :: rest, agree, ⟨step, tail⟩ =>
      ⟨(agree cell (by simp)).trans step,
        forward_congr (fun c member => agree c (List.mem_cons_of_mem _ member)) tail⟩

theorem backward_congr : ∀ {chain : List Nat},
    (∀ cell ∈ chain.tail, links'.prev cell = links.prev cell) →
      Backward links chain → Backward links' chain
  | [], _, _ => trivial
  | [_], _, _ => trivial
  | cell :: following :: rest, agree, ⟨step, tail⟩ =>
      ⟨(agree following (by simp)).trans step,
        backward_congr (fun c member => agree c (by simp at member ⊢; exact Or.inr member)) tail⟩

/-- A chain only depends on the links of its own cells. -/
theorem Represents.congr {chain : List Nat} (chained : Represents links chain)
    (agree : ∀ cell ∈ chain, links'.next cell = links.next cell ∧
      links'.prev cell = links.prev cell) : Represents links' chain where
  nodup := chained.nodup
  forward := forward_congr (fun cell member => (agree cell member).1) chained.forward
  backward := backward_congr
    (fun cell member => (agree cell (List.mem_of_mem_tail member)).2) chained.backward
  tail := by
    intro head isHead
    rw [(agree head (List.mem_of_mem_head? isHead)).2]
    exact chained.tail head isHead

theorem forward_concat {last add : Nat} : ∀ (chain : List Nat),
    Forward links (chain ++ [last]) → links'.next last = some add →
      links'.next add = none → (∀ cell ∈ chain, links'.next cell = links.next cell) →
        Forward links' (chain ++ [last] ++ [add])
  | [], _, step, ends, _ => ⟨step, ends⟩
  | [cell], ⟨first, _⟩, step, ends, agree => ⟨(agree cell (by simp)).trans first, step, ends⟩
  | cell :: following :: rest, ⟨first, tail⟩, step, ends, agree =>
      ⟨(agree cell (by simp)).trans first,
        forward_concat (following :: rest) tail step ends
          (fun c member => agree c (List.mem_cons_of_mem _ member))⟩

theorem backward_concat {last add : Nat} : ∀ (chain : List Nat),
    Backward links (chain ++ [last]) → links'.prev add = last →
      (∀ cell ∈ (chain ++ [last]).tail, links'.prev cell = links.prev cell) →
        Backward links' (chain ++ [last] ++ [add])
  | [], _, step, _ => ⟨step, trivial⟩
  | [cell], ⟨first, _⟩, step, agree => ⟨(agree last (by simp)).trans first, step, trivial⟩
  | cell :: following :: rest, ⟨first, tail⟩, step, agree =>
      ⟨(agree following (by simp)).trans first,
        backward_concat (following :: rest) tail step
          (fun c member => agree c (by simp at member ⊢; exact Or.inr member))⟩

/-- Appending to null starts a chain of one cell. -/
theorem represents_append_none (add : Nat) : Represents (links.append none add) [add] where
  nodup := List.nodup_singleton add
  forward := by simp [Forward, append]
  backward := trivial
  tail := by
    intro head isHead
    cases isHead
    simp [append]

theorem represents_append_some {head add : Nat} {rest : List Nat}
    (chained : Represents links (head :: rest)) (fresh : add ∉ head :: rest) :
    Represents (links.append (some head) add) (head :: rest ++ [add]) := by
  obtain ⟨chain, last, split⟩ : ∃ chain last, head :: rest = chain ++ [last] :=
    ⟨_, _, (List.dropLast_append_getLast (List.cons_ne_nil head rest)).symm⟩
  have lastIs : links.prev head = last := by
    have ends := chained.tail head rfl
    rw [split, List.getLast?_append] at ends
    simpa using ends.symm
  have inChain : ∀ cell ∈ chain, cell ∈ head :: rest := fun cell member => by
    rw [split]; exact List.mem_append_left _ member
  have neAdd : ∀ cell ∈ head :: rest, cell ≠ add := fun cell member same =>
    fresh (same ▸ member)
  have lastMem : last ∈ head :: rest := by rw [split]; simp
  have split' := split
  rw [split] at chained ⊢
  have nodup := chained.nodup
  rw [List.nodup_append] at nodup
  refine ⟨?_, ?_, ?_, ?_⟩
  · rw [List.nodup_append]
    refine ⟨chained.nodup, List.nodup_singleton add, ?_⟩
    intro cell member other inSingleton
    rw [List.mem_singleton] at inSingleton
    rw [inSingleton]
    exact neAdd cell (split' ▸ member)
  · refine forward_concat _ chained.forward ?_ ?_ ?_
    · simp [append, lastIs, neAdd last lastMem]
    · simp [append]
    · intro cell member
      have neLast : cell ≠ last := nodup.2.2 cell member last (List.mem_singleton_self last)
      simp [append, lastIs, neLast, neAdd cell (inChain cell member)]
  · refine backward_concat _ chained.backward ?_ ?_
    · have headNe : add ≠ head := Ne.symm (neAdd head (List.mem_cons_self ..))
      simp [append, lastIs, headNe]
    · intro cell member
      rw [← split'] at member
      have neHead : cell ≠ head := by
        intro same
        have distinct := chained.nodup
        rw [← split', List.nodup_cons] at distinct
        exact distinct.1 (same ▸ member)
      simp [append, neHead, neAdd cell (List.mem_cons_of_mem _ member)]
  · intro first isFirst
    rw [← split'] at isFirst
    cases isFirst
    simp [append]

/-- Appending leaves every chain alone that shares no cell with it. -/
theorem Represents.append_other {head : Option Nat} {add : Nat} {chain : List Nat}
    (chained : Represents links chain) (notAdd : add ∉ chain)
    (apart : ∀ first, head = some first → first ∉ chain ∧ links.prev first ∉ chain) :
    Represents (links.append head add) chain := by
  refine chained.congr fun cell member => ?_
  have neAdd : cell ≠ add := fun same => notAdd (same ▸ member)
  cases head with
  | none => simp [append, neAdd]
  | some first =>
      obtain ⟨notFirst, notLast⟩ := apart first rfl
      have neFirst : cell ≠ first := fun same => notFirst (same ▸ member)
      have neLast : cell ≠ links.prev first := fun same => notLast (same ▸ member)
      simp [append, neAdd, neFirst, neLast]

theorem walk_of_forward : ∀ {chain : List Nat} (fuel : Nat),
    Forward links chain → chain.length ≤ fuel → walk links fuel chain.head? = chain
  | [], 0, _, _ => rfl
  | [], _ + 1, _, _ => rfl
  | cell :: rest, 0, _, enough => by simp at enough
  | [cell], fuel + 1, ends, _ => by
      have ends' : links.next cell = none := ends
      cases fuel <;> simp [walk, ends']
  | cell :: following :: rest, fuel + 1, ⟨step, tail⟩, enough => by
      have later := walk_of_forward fuel tail (by simpa using enough)
      simp only [List.head?_cons] at later ⊢
      simp only [walk, step, later]

/-- The end of a chain is a chain. -/
theorem forward_suffix {post : List Nat} : ∀ (pre : List Nat),
    Forward links (pre ++ post) → Forward links post
  | [], chained => chained
  | [cell], chained => by
      cases post with
      | nil => trivial
      | cons following rest => exact chained.2
  | cell :: following :: rest, chained => forward_suffix (following :: rest) chained.2

theorem forward_at {cell following : Nat} {post : List Nat} (pre : List Nat)
    (chained : Forward links (pre ++ cell :: following :: post)) :
    links.next cell = some following := (forward_suffix pre chained).1

theorem forward_last {cell : Nat} (pre : List Nat) (chained : Forward links (pre ++ [cell])) :
    links.next cell = none := forward_suffix pre chained

theorem backward_at {cell following : Nat} {post : List Nat} : ∀ (pre : List Nat),
    Backward links (pre ++ cell :: following :: post) → links.prev following = cell
  | [], ⟨step, _⟩ => step
  | [_], ⟨_, step, _⟩ => step
  | _ :: b :: pre, ⟨_, tail⟩ => backward_at (b :: pre) tail

/-- Rewinding from any cell of a chain stops, and stops at its head.  The
induction is on the cells before the one reached. -/
theorem rewind_of_represents {head cell : Nat} {rest post : List Nat} : ∀ (pre : List Nat)
    {fuel : Nat}, Represents links (head :: rest) → head :: rest = pre ++ cell :: post →
      pre.length < fuel → rewind links fuel cell = some head := by
  intro pre
  induction pre using List.reverseRecOn generalizing cell post with
  | nil =>
      intro fuel chained split enough
      cases fuel with
      | zero => omega
      | succ fuel =>
          rw [List.nil_append] at split
          obtain ⟨rfl, rfl⟩ := List.cons.inj split
          obtain ⟨front, last, ends⟩ : ∃ front last, head :: rest = front ++ [last] :=
            ⟨_, _, (List.dropLast_append_getLast (List.cons_ne_nil head rest)).symm⟩
          have lastIs : links.prev head = last := by
            have tail := chained.tail head rfl
            rw [ends, List.getLast?_append] at tail
            simpa using tail.symm
          have stops : links.next last = none := forward_last _ (ends ▸ chained.forward)
          simp [rewind, lastIs, stops]
  | append_singleton pre before ih =>
      intro fuel chained split enough
      cases fuel with
      | zero => omega
      | succ fuel =>
          have split' : head :: rest = pre ++ before :: cell :: post := by
            rw [split]; simp
          have back : links.prev cell = before := backward_at _ (split' ▸ chained.backward)
          have forth : links.next before = some cell := forward_at _ (split' ▸ chained.forward)
          simp only [List.length_append, List.length_singleton] at enough
          simp only [rewind, back, forth]
          exact ih chained split' (by omega)

theorem rewind_of_mem {chain : List Nat} {cell fuel : Nat} (chained : Represents links chain)
    (member : cell ∈ chain) (enough : chain.length ≤ fuel) :
    ∃ head, chain.head? = some head ∧ rewind links (fuel + 1) cell = some head := by
  obtain ⟨pre, post, split⟩ := List.append_of_mem member
  cases chain with
  | nil => cases member
  | cons head rest =>
      have lengths := congrArg List.length split
      simp only [List.length_append, List.length_cons] at lengths enough
      exact ⟨head, rfl, rewind_of_represents pre chained split (by omega)⟩

/-- The links after a sort of the chain, which puts its cells one after the other at the end
of a new one. -/
def relink (links : Links) : List Nat → Links
  | [] => links
  | head :: rest =>
      rest.foldl (fun links cell => links.append (some head) cell) (links.append none head)

theorem represents_relink {chain : List Nat} (nodup : chain.Nodup) :
    Represents (links.relink chain) chain := by
  have grows : ∀ (rest : List Nat) {links : Links} {head : Nat} {front : List Nat},
      Represents links (head :: front) → (head :: front ++ rest).Nodup →
        Represents (rest.foldl (fun links cell => links.append (some head) cell) links)
          (head :: front ++ rest) := by
    intro rest
    induction rest with
    | nil => intro links head front chained _; simpa using chained
    | cons cell rest ih =>
        intro links head front chained nodup
        have fresh : cell ∉ head :: front := fun member =>
          (List.nodup_append.mp nodup).2.2 cell member cell (List.mem_cons_self ..) rfl
        have later := ih (represents_append_some chained fresh) (by simpa using nodup)
        simpa using later
  cases chain with
  | nil => exact ⟨nodup, trivial, trivial, by simp⟩
  | cons head rest => exact grows rest (represents_append_none head) nodup

/-- Sorting a chain touches no cell of another one. -/
theorem Represents.relink_other {chain sorted : List Nat} (chained : Represents links chain)
    (apart : ∀ cell ∈ chain, cell ∉ sorted) : Represents (links.relink sorted) chain := by
  have agrees : ∀ (rest : List Nat) (links : Links) {head cell : Nat}, cell ≠ head →
      cell ∉ rest → cell ≠ links.prev head →
        (rest.foldl (fun links add => links.append (some head) add) links).next cell =
            links.next cell ∧
          (rest.foldl (fun links add => links.append (some head) add) links).prev cell =
            links.prev cell := by
    intro rest
    induction rest with
    | nil => intros; exact ⟨rfl, rfl⟩
    | cons add rest ih =>
        intro links head cell notHead notIn notLast
        obtain ⟨notAdd, notIn⟩ := not_or.mp (mt List.mem_cons.mpr notIn)
        obtain ⟨next, prev⟩ := ih (links.append (some head) add) notHead notIn
          (by simpa [append] using notAdd)
        rw [List.foldl_cons, next, prev]
        simp [append, notAdd, notHead, notLast]
  cases sorted with
  | nil => exact chained
  | cons head rest =>
      refine chained.congr fun cell member => ?_
      obtain ⟨notHead, notIn⟩ := not_or.mp (mt List.mem_cons.mpr (apart cell member))
      obtain ⟨next, prev⟩ := agrees rest (links.append none head) notHead notIn
        (by simpa [append] using notHead)
      rw [relink, next, prev]
      simp [append, notHead]

end Links

end Pkgng.Lib
