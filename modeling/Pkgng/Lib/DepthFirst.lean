import Mathlib.Data.Set.Finite.Basic
import Mathlib.Order.WellFounded
import Mathlib.Data.Fintype.EquivFin
import Mathlib.Logic.Relation

/-!
# Depth-first searches that mark nothing

A search that asks whether everything reachable from a node passes a test, by
plain recursion over the lists of successors.  It stops at the first node that
fails, and it keeps no marks, so whether it ends depends on the order of the
successors: a cycle is harmless if a failing node comes before it.
-/

set_option autoImplicit false

namespace Pkgng.Lib

open Relation

/-- The outcome of a computation with a bound on the depth of its recursion. -/
inductive Ended (α : Type)
  | exhausted
  | aborted
  | returns (value : α)
deriving DecidableEq, Repr

namespace Ended

variable {α β γ : Type}

def bind (first : Ended α) (next : α → Ended β) : Ended β :=
  match first with
  | exhausted => exhausted
  | aborted => aborted
  | returns value => next value

def map (f : α → β) (first : Ended α) : Ended β := first.bind fun value => returns (f value)

@[simp] theorem exhausted_bind (next : α → Ended β) : (exhausted.bind next) = exhausted := rfl

@[simp] theorem aborted_bind (next : α → Ended β) : (aborted.bind next) = aborted := rfl

@[simp] theorem returns_bind (value : α) (next : α → Ended β) :
    (returns value).bind next = next value := rfl

@[simp] theorem exhausted_map (f : α → β) : (exhausted.map f) = exhausted := rfl

@[simp] theorem aborted_map (f : α → β) : (aborted.map f) = aborted := rfl

@[simp] theorem returns_map (f : α → β) (value : α) : (returns value).map f = returns (f value) :=
  rfl

theorem bind_eq_returns {first : Ended α} {next : α → Ended β} {result : β} :
    first.bind next = returns result ↔
      ∃ value, first = returns value ∧ next value = returns result := by
  cases first with
  | exhausted => simp
  | aborted => simp
  | returns value => simp

theorem map_eq_returns {first : Ended α} {f : α → β} {result : β} :
    first.map f = returns result ↔ ∃ value, first = returns value ∧ f value = result := by
  rw [map, bind_eq_returns]
  simp only [returns.injEq]

end Ended

/-- What the test says of a node; nothing can be said of a missing one. -/
inductive Look
  | confirms
  | refutes
  | missing
deriving DecidableEq, Repr

section Search

variable {α : Type} (look : α → Look) (next : α → List α)

/-- The search over a list of nodes, below each of them by the given one. -/
def searchList (self : α → Ended Bool) : List α → Ended Bool
  | [] => .returns true
  | x :: rest =>
      match look x with
      | .refutes => .returns false
      | .missing => .aborted
      | .confirms => (self x).bind fun all => if all then searchList self rest else .returns false

/-- The search below a node. -/
def search : Nat → α → Ended Bool
  | 0, _ => .exhausted
  | depth + 1, x => searchList look (search depth) (next x)

/-- Everything below the node is confirmed. -/
def ConfirmedBelow (x : α) : Prop := ∀ y, TransGen (fun a b => b ∈ next a) x y → look y = .confirms

/-- The search of a node goes on past the nodes before a place in its list. -/
def Passes (before : List α) : Prop :=
  ∀ x ∈ before, look x = .confirms ∧ ConfirmedBelow look next x

/-- The search of the first node comes to that of the second one. -/
def Enters (x y : α) : Prop :=
  ∃ before after, next x = before ++ y :: after ∧ Passes look next before ∧ look y = .confirms

/-- The search of the node comes to a missing one. -/
def Misses (x : α) : Prop :=
  ∃ before y after, next x = before ++ y :: after ∧ Passes look next before ∧ look y = .missing

variable {look next} {self : α → Ended Bool} {depth depth' : Nat} {x y : α} {all : Bool}

theorem confirmedBelow_iff :
    ConfirmedBelow look next x ↔ ∀ y ∈ next x, look y = .confirms ∧ ConfirmedBelow look next y := by
  constructor
  · intro below y member
    exact ⟨below y (.single member), fun z later => below z (.head member later)⟩
  · intro direct z later
    rcases TransGen.head'_iff.mp later with ⟨y, member, rest⟩
    rcases reflTransGen_iff_eq_or_transGen.mp rest with rfl | further
    · exact (direct _ member).1
    · exact (direct y member).2 z further

/-- An answer of the search over a list, in terms of the answers below. -/
theorem searchList_returns {list : List α}
    (correct : ∀ x ∈ list, ∀ all, self x = .returns all →
      (all = true ↔ ConfirmedBelow look next x))
    (ran : searchList look self list = .returns all) :
    all = true ↔ Passes look next list := by
  induction list with
  | nil =>
      cases ran
      simp [Passes]
  | cons x rest ih =>
      have tail := ih fun y member => correct y (List.mem_cons_of_mem _ member)
      rw [searchList] at ran
      cases seen : look x with
      | refutes =>
          rw [seen] at ran
          cases ran
          simp [Passes, seen]
      | missing =>
          rw [seen] at ran
          cases ran
      | confirms =>
          rw [seen] at ran
          obtain ⟨below, ranBelow, ran⟩ := Ended.bind_eq_returns.mp ran
          have head := correct x (List.mem_cons_self ..) below ranBelow
          cases below with
          | true =>
              rw [if_pos rfl] at ran
              rw [tail ran]
              simp [Passes, seen, head.mp rfl]
          | false =>
              cases ran
              have notBelow : ¬ ConfirmedBelow look next x := fun holds => by
                cases head.mpr holds
              simp [Passes, notBelow]

/-- An answer of the search is right. -/
theorem search_returns (ran : search look next depth x = .returns all) :
    all = true ↔ ConfirmedBelow look next x := by
  induction depth generalizing x all with
  | zero => cases ran
  | succ depth ih =>
      rw [search] at ran
      rw [searchList_returns (fun y _ all => ih) ran, confirmedBelow_iff]
      rfl

theorem searchList_mono {self' : α → Ended Bool} {list : List α}
    (grows : ∀ x ∈ list, ∀ all, self x = .returns all → self' x = .returns all)
    (ran : searchList look self list = .returns all) :
    searchList look self' list = .returns all := by
  induction list with
  | nil => exact ran
  | cons x rest ih =>
      have tail := ih fun y member => grows y (List.mem_cons_of_mem _ member)
      rw [searchList] at ran ⊢
      cases seen : look x with
      | refutes =>
          rw [seen] at ran
          exact ran
      | missing =>
          rw [seen] at ran
          exact ran
      | confirms =>
          rw [seen] at ran
          obtain ⟨below, ranBelow, ran⟩ := Ended.bind_eq_returns.mp ran
          simp only [grows x (List.mem_cons_self ..) below ranBelow, Ended.returns_bind]
          cases below with
          | true => exact tail ran
          | false => exact ran

/-- More depth does not change an answer. -/
theorem search_mono (ran : search look next depth x = .returns all) (deeper : depth ≤ depth') :
    search look next depth' x = .returns all := by
  induction depth generalizing x all depth' with
  | zero => cases ran
  | succ depth ih =>
      obtain ⟨below, rfl⟩ : ∃ below, depth' = below + 1 := ⟨depth' - 1, by omega⟩
      rw [search] at ran ⊢
      exact searchList_mono (fun y _ all ranBelow => ih ranBelow (by omega)) ran

/-- A search over a list that ends comes to an end at every node it enters. -/
theorem searchList_enters {before after : List α}
    (correct : ∀ x all, self x = .returns all → (all = true ↔ ConfirmedBelow look next x))
    (passes : Passes look next before)
    (ran : searchList look self (before ++ y :: after) = .returns all) :
    look y ≠ .missing ∧ (look y = .confirms → ∃ below, self y = .returns below) := by
  induction before with
  | nil =>
      rw [List.nil_append, searchList] at ran
      cases seen : look y with
      | refutes => simp
      | missing =>
          rw [seen] at ran
          cases ran
      | confirms =>
          rw [seen] at ran
          obtain ⟨below, ranBelow, _⟩ := Ended.bind_eq_returns.mp ran
          exact ⟨by simp, fun _ => ⟨below, ranBelow⟩⟩
  | cons x rest ih =>
      obtain ⟨seen, confirmed⟩ := passes x (List.mem_cons_self ..)
      rw [List.cons_append, searchList, seen] at ran
      obtain ⟨below, ranBelow, ran⟩ := Ended.bind_eq_returns.mp ran
      rw [if_pos ((correct x below ranBelow).mpr confirmed)] at ran
      exact ih (fun z member => passes z (List.mem_cons_of_mem _ member)) ran

/-- Where a search ends, nothing is missing and what it enters ends. -/
theorem search_enters (ran : search look next depth x = .returns all) :
    ¬ Misses look next x ∧
      ∀ y, Enters look next x y →
        ∃ depth' < depth, ∃ below, search look next depth' y = .returns below := by
  cases depth with
  | zero => cases ran
  | succ depth =>
      rw [search] at ran
      constructor
      · rintro ⟨before, y, after, list, passes, seen⟩
        rw [list] at ran
        exact (searchList_enters (fun _ _ => search_returns) passes ran).1 seen
      · rintro y ⟨before, after, list, passes, seen⟩
        rw [list] at ran
        obtain ⟨below, ranBelow⟩ :=
          (searchList_enters (fun _ _ => search_returns) passes ran).2 seen
        exact ⟨depth, Nat.lt_succ_self depth, below, ranBelow⟩

theorem acc_of_search (ran : search look next depth x = .returns all) :
    Acc (fun b a => Enters look next a b) x := by
  induction depth using Nat.strongRecOn generalizing x all with
  | _ depth ih =>
      refine Acc.intro x fun y enters => ?_
      obtain ⟨depth', shallower, below, ranBelow⟩ := (search_enters ran).2 y enters
      exact ih depth' shallower ranBelow

theorem not_misses_of_search (ran : search look next depth x = .returns all)
    (reached : ReflTransGen (Enters look next) x y) : ¬ Misses look next y := by
  induction reached using ReflTransGen.head_induction_on generalizing depth all with
  | refl => exact (search_enters ran).1
  | head enters _ ih =>
      obtain ⟨_, _, _, ranBelow⟩ := (search_enters ran).2 _ enters
      exact ih ranBelow

/-- The list of a node, from a place on that the search comes to. -/
theorem searchList_ends {before rest : List α} (list : next x = before ++ rest)
    (passes : Passes look next before) (found : ¬ Misses look next x)
    (below : ∀ y, Enters look next x y → ∃ depth all, search look next depth y = .returns all) :
    ∃ depth all, searchList look (search look next depth) rest = .returns all := by
  induction rest generalizing before with
  | nil => exact ⟨0, true, rfl⟩
  | cons y rest ih =>
      cases seen : look y with
      | refutes => exact ⟨0, false, by rw [searchList, seen]⟩
      | missing => exact absurd ⟨before, y, rest, list, passes, seen⟩ found
      | confirms =>
          obtain ⟨depth, all, ran⟩ := below y ⟨before, rest, list, passes, seen⟩
          cases all with
          | false => exact ⟨depth, false, by simp [searchList, seen, ran]⟩
          | true =>
              have further : Passes look next (before ++ [y]) := fun z member => by
                rcases List.mem_append.mp member with early | last
                · exact passes z early
                · rw [List.mem_singleton.mp last]
                  exact ⟨seen, (search_returns ran).mp rfl⟩
              obtain ⟨depthRest, all, ranRest⟩ := ih (by rw [list]; simp) further
              refine ⟨max depth depthRest, all, ?_⟩
              rw [searchList, seen, search_mono ran (Nat.le_max_left ..)]
              exact searchList_mono
                (fun z _ below ranBelow => search_mono ranBelow (Nat.le_max_right ..)) ranRest

theorem search_of_acc (wellFounded : Acc (fun b a => Enters look next a b) x)
    (found : ∀ y, ReflTransGen (Enters look next) x y → ¬ Misses look next y) :
    ∃ depth all, search look next depth x = .returns all := by
  induction wellFounded with
  | intro x _ ih =>
      obtain ⟨depth, all, ran⟩ := searchList_ends (List.nil_append (next x)).symm
        (fun _ none => absurd none List.not_mem_nil) (found x .refl)
        fun y enters => ih y enters fun z reached => found z (.head enters reached)
      exact ⟨depth + 1, all, ran⟩

/-- Among finitely many nodes only a cycle can go on for ever. -/
theorem acc_of_noCycle (finite : {y | look y = .confirms}.Finite)
    (noCycle : ∀ y, ReflTransGen (Enters look next) x y → ¬ TransGen (Enters look next) y y) :
    Acc (fun b a => Enters look next a b) x := by
  let Reached := {y // ReflTransGen (Enters look next) x y}
  have reachedFinite : {y | ReflTransGen (Enters look next) x y}.Finite := by
    refine (finite.insert x).subset fun y reached => ?_
    rcases ReflTransGen.cases_tail reached with same | ⟨_, _, _, _, _, _, seen⟩
    · exact Or.inl same
    · exact Or.inr seen
  have : Finite Reached := reachedFinite.to_subtype
  let later : Reached → Reached → Prop := fun b a => TransGen (Enters look next) a.1 b.1
  have : IsTrans Reached later := ⟨fun a b c first second => second.trans first⟩
  have : Std.Irrefl later := ⟨fun a cycle => noCycle a.1 a.2 cycle⟩
  have wellFounded := Finite.wellFounded_of_trans_of_irrefl later
  have transfer : ∀ a : Reached, Acc (fun b a => Enters look next a b) a.1 := fun a => by
    induction a using wellFounded.induction with
    | _ a ih =>
        exact Acc.intro a.1 fun y enters => ih ⟨y, a.2.tail enters⟩ (.single enters)
  exact transfer ⟨x, .refl⟩

theorem not_cycle_of_acc (wellFounded : Acc (fun b a => Enters look next a b) x) :
    ¬ TransGen (Enters look next) x x := by
  induction wellFounded with
  | intro x _ ih =>
      intro cycle
      rcases TransGen.head'_iff.mp cycle with ⟨y, enters, back⟩
      exact ih y enters (TransGen.tail' back enters)

/-- The search of a node ends exactly if it comes neither to a missing node nor
round a cycle. -/
theorem search_ends_iff (finite : {y | look y = .confirms}.Finite) :
    (∃ depth all, search look next depth x = .returns all) ↔
      ∀ y, ReflTransGen (Enters look next) x y →
        ¬ Misses look next y ∧ ¬ TransGen (Enters look next) y y := by
  constructor
  · rintro ⟨depth, all, ran⟩ y reached
    refine ⟨not_misses_of_search ran reached, not_cycle_of_acc ?_⟩
    have wellFounded := acc_of_search ran
    induction reached with
    | refl => exact wellFounded
    | tail _ enters ih => exact ih.inv enters
  · intro free
    exact search_of_acc (acc_of_noCycle finite fun y reached => (free y reached).2)
      fun y reached => (free y reached).1

end Search

end Pkgng.Lib
