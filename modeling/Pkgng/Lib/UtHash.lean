import Mathlib.Data.List.Basic
import Mathlib.Data.List.Nodup
import Mathlib.Data.List.Perm.Subperm
import Mathlib.Logic.Function.Basic

/-!
# Intrusive hash tables by their links

The links of uthash: every element is in the list of all elements, in the order in which they
were added, and in the chain of its bucket, the youngest first.  Elements are addresses.  The
number of buckets does not change, and the backward links, which only a removal reads, are
left out.
-/

set_option autoImplicit false

namespace Pkgng.Lib

/-- The elements met from a start up to the null link. -/
inductive Chain (next : Nat → Option Nat) : Option Nat → List Nat → Prop
  | done : Chain next none []
  | cell {a : Nat} {rest : List Nat} (later : Chain next (next a) rest) :
      Chain next (some a) (a :: rest)

namespace Chain

variable {next next' : Nat → Option Nat} {start : Option Nat} {cells : List Nat}

theorem unique {other : List Nat} (chain : Chain next start cells)
    (chain' : Chain next start other) : cells = other := by
  induction chain generalizing other with
  | done =>
      cases chain'
      rfl
  | cell later ih =>
      cases chain' with
      | cell later' => rw [ih later']

theorem congr (chain : Chain next start cells) (agree : ∀ a ∈ cells, next' a = next a) :
    Chain next' start cells := by
  induction chain with
  | done => exact .done
  | @cell a rest later ih =>
      refine .cell ?_
      rw [agree a (List.mem_cons_self ..)]
      exact ih fun b member => agree b (List.mem_cons_of_mem _ member)

/-- From an element on. -/
theorem drop {front back : List Nat} {a : Nat}
    (chain : Chain next start (front ++ a :: back)) : Chain next (some a) (a :: back) := by
  induction front generalizing start with
  | nil =>
      cases chain with
      | cell later => exact .cell later
  | cons b front ih =>
      cases chain with
      | cell later => exact ih later

theorem nodup (chain : Chain next start cells) : cells.Nodup := by
  induction chain with
  | done => exact List.nodup_nil
  | @cell a rest later ih =>
      refine List.nodup_cons.mpr ⟨fun member => ?_, ih⟩
      obtain ⟨front, back, split⟩ := List.append_of_mem member
      rw [split] at later
      -- The element would be followed by two chains of different length.
      have longer := unique later.drop (.cell later)
      have lengths := congrArg List.length longer
      simp only [List.length_cons, List.length_append] at lengths
      omega

/-- An element that follows itself has no null link behind it. -/
theorem false_of_loop {a : Nat} (chain : Chain next (some a) cells) (loops : next a = some a) :
    False := by
  cases chain with
  | cell rest =>
      rw [loops] at rest
      have longer := rest.unique (.cell (loops.symm ▸ rest))
      have lengths := congrArg List.length longer
      rw [List.length_cons] at lengths
      omega

theorem snoc {last a : Nat} (chain : Chain next start (cells ++ [last])) (fresh : a ∉ cells)
    (apart : a ≠ last) :
    Chain (Function.update (Function.update next a none) last (some a)) start
      (cells ++ [last] ++ [a]) := by
  have single : Chain (Function.update (Function.update next a none) last (some a)) (some a)
      [a] := by
    refine .cell ?_
    rw [Function.update_of_ne apart, Function.update_self]
    exact .done
  have distinct := chain.nodup
  induction cells generalizing start with
  | nil =>
      cases chain with
      | cell later =>
          refine .cell ?_
          rw [Function.update_self]
          exact single
  | cons b cells ih =>
      rw [List.cons_append, List.nodup_cons, List.mem_append, not_or] at distinct
      rw [List.mem_cons, not_or] at fresh
      cases chain with
      | cell later =>
          have other : b ≠ last := fun same => distinct.1.2 (List.mem_singleton.mpr same)
          refine .cell ?_
          rw [Function.update_of_ne other, Function.update_of_ne (Ne.symm fresh.1)]
          exact ih later fresh.2 distinct.2

/-- Chains that agree up to an element. -/
theorem resume {front back list : List Nat} {a : Nat}
    (chain : Chain next start (front ++ a :: back)) (agree : ∀ b ∈ front, next' b = next b)
    (chain' : Chain next' start list) :
    ∃ later, list = front ++ later ∧ Chain next' (some a) later := by
  induction front generalizing start list with
  | nil =>
      cases chain with
      | cell later => exact ⟨list, rfl, chain'⟩
  | cons b front ih =>
      cases chain with
      | cell later =>
          cases chain' with
          | cell later' =>
              rw [agree b (List.mem_cons_self ..)] at later'
              obtain ⟨rest, split, continues⟩ :=
                ih later (fun c member => agree c (List.mem_cons_of_mem _ member)) later'
              exact ⟨rest, by rw [split, List.cons_append], continues⟩

end Chain

/-- A search along links; none where it comes to no end. -/
def walk (next : Nat → Option Nat) (stop : Nat → Bool) : Nat → Option Nat → Option (Option Nat)
  | _, none => some none
  | 0, some _ => none
  | fuel + 1, some a => if stop a then some (some a) else walk next stop fuel (next a)

theorem walk_chain {next : Nat → Option Nat} {start : Option Nat} {cells : List Nat}
    (chain : Chain next start cells) (stop : Nat → Bool) {fuel : Nat}
    (enough : cells.length ≤ fuel) : walk next stop fuel start = some (cells.find? stop) := by
  induction chain generalizing fuel with
  | done =>
      cases fuel with
      | zero => rfl
      | succ fuel => rfl
  | @cell a rest later ih =>
      cases fuel with
      | zero => cases enough
      | succ fuel =>
          rw [walk, List.find?_cons]
          cases stop a with
          | true => rfl
          | false => exact ih (Nat.le_of_succ_le_succ enough)

structure UtHash (κ : Type) where
  head : Option Nat := none
  tail : Nat := 0
  next : Nat → Option Nat := fun _ => none
  key : Nat → Option κ := fun _ => none
  hhNext : Nat → Option Nat := fun _ => none
  bucketHead : Nat → Option Nat := fun _ => none

namespace UtHash

variable {κ : Type} (bucket : κ → Nat)

/-- `HASH_ADD_KEYPTR`. -/
def add (a : Nat) (k : κ) (table : UtHash κ) : UtHash κ where
  head := some (table.head.getD a)
  tail := a
  next :=
    let cleared := Function.update table.next a none
    if table.head = none then cleared else Function.update cleared table.tail (some a)
  key := Function.update table.key a (some k)
  hhNext := Function.update table.hhNext a (table.bucketHead (bucket k))
  bucketHead := Function.update table.bucketHead (bucket k) (some a)

section Fields

variable {bucket} {table : UtHash κ} {a b : Nat} {k : κ}

theorem next_add_empty (empty : table.head = none) :
    (table.add bucket a k).next = Function.update table.next a none := if_pos empty

theorem next_add (nonempty : table.head ≠ none) :
    (table.add bucket a k).next =
      Function.update (Function.update table.next a none) table.tail (some a) := if_neg nonempty

theorem key_add_self : (table.add bucket a k).key a = some k := Function.update_self ..

theorem key_add_of_ne (other : b ≠ a) : (table.add bucket a k).key b = table.key b :=
  Function.update_of_ne other ..

theorem hhNext_add_self : (table.add bucket a k).hhNext a = table.bucketHead (bucket k) :=
  Function.update_self ..

theorem hhNext_add_of_ne (other : b ≠ a) : (table.add bucket a k).hhNext b = table.hhNext b :=
  Function.update_of_ne other ..

theorem bucketHead_add_self : (table.add bucket a k).bucketHead (bucket k) = some a :=
  Function.update_self ..

theorem bucketHead_add_of_ne (other : b ≠ bucket k) :
    (table.add bucket a k).bucketHead b = table.bucketHead b := Function.update_of_ne other ..

end Fields

/-- `HASH_FIND` with enough fuel for a table of that many elements. -/
def find [DecidableEq κ] (size : Nat) (k : κ) (table : UtHash κ) : Option (Option Nat) :=
  if table.head = none then some none
  else walk table.hhNext (fun a => table.key a = some k) size (table.bucketHead (bucket k))

/-- The links list the cells, and each bucket those of its keys. -/
structure Healthy (table : UtHash κ) (cells : List Nat) : Prop where
  order : Chain table.next table.head cells
  last : ∀ a ∈ cells.getLast?, a = table.tail
  chains : ∀ b, ∃ chain, Chain table.hhNext (table.bucketHead b) chain ∧
    ∀ a, a ∈ chain ↔ a ∈ cells ∧ (table.key a).map bucket = some b

variable {bucket} {table : UtHash κ} {cells : List Nat}

theorem healthy_empty : Healthy bucket ({} : UtHash κ) [] where
  order := .done
  last a isLast := by cases isLast
  chains b := ⟨[], .done, fun a => by simp⟩

theorem Healthy.nonempty (healthy : Healthy bucket table cells) {a : Nat} (member : a ∈ cells) :
    table.head ≠ none := by
  intro empty
  have order := healthy.order
  rw [empty] at order
  cases order
  cases member

theorem Healthy.order_add (healthy : Healthy bucket table cells) {a : Nat} (fresh : a ∉ cells)
    (k : κ) :
    Chain (table.add bucket a k).next (table.add bucket a k).head (cells ++ [a]) := by
  have isHead : (table.add bucket a k).head = some (table.head.getD a) := rfl
  rcases List.eq_nil_or_concat cells with rfl | ⟨front, last, rfl⟩
  · have empty : table.head = none := by
      cases first : table.head with
      | none => rfl
      | some first' =>
          have order := healthy.order
          rw [first] at order
          cases order
    rw [next_add_empty empty, isHead, empty]
    refine .cell ?_
    rw [Option.getD_none, Function.update_self]
    exact .done
  · rw [List.concat_eq_append] at healthy fresh ⊢
    have nonempty := healthy.nonempty (List.mem_append_right front (List.mem_singleton_self last))
    rw [List.mem_append, not_or] at fresh
    have apart : a ≠ last := fun same => fresh.2 (List.mem_singleton.mpr same)
    have isTail : last = table.tail := healthy.last last (by simp)
    have longer := healthy.order.snoc fresh.1 apart
    obtain ⟨first, isFirst⟩ := Option.ne_none_iff_exists'.mp nonempty
    rw [isFirst] at longer
    rw [next_add nonempty, isHead, ← isTail, isFirst, Option.getD_some]
    exact longer

theorem Healthy.chains_add (healthy : Healthy bucket table cells) {a : Nat} (fresh : a ∉ cells)
    (k : κ) (b : Nat) :
    ∃ chain, Chain (table.add bucket a k).hhNext ((table.add bucket a k).bucketHead b) chain ∧
      ∀ x, x ∈ chain ↔
        x ∈ cells ++ [a] ∧ ((table.add bucket a k).key x).map bucket = some b := by
  obtain ⟨chain, links, members⟩ := healthy.chains b
  have outside : a ∉ chain := fun member => fresh ((members a).mp member).1
  have unchanged : Chain (table.add bucket a k).hhNext (table.bucketHead b) chain := by
    refine links.congr fun x member => ?_
    exact hhNext_add_of_ne fun same => outside (same ▸ member)
  by_cases same : b = bucket k
  · subst same
    refine ⟨a :: chain, ?_, fun x => ?_⟩
    · rw [bucketHead_add_self]
      refine .cell ?_
      rw [hhNext_add_self]
      exact unchanged
    · by_cases isNew : x = a
      · subst isNew
        simp [key_add_self]
      · rw [List.mem_cons, or_iff_right isNew, members, key_add_of_ne isNew]
        simp [isNew]
  · refine ⟨chain, ?_, fun x => ?_⟩
    · rw [bucketHead_add_of_ne same]
      exact unchanged
    · by_cases isNew : x = a
      · subst isNew
        simp [key_add_self, outside, Ne.symm same]
      · rw [members, key_add_of_ne isNew]
        simp [isNew]

theorem Healthy.add (healthy : Healthy bucket table cells) {a : Nat} (fresh : a ∉ cells) (k : κ) :
    Healthy bucket (table.add bucket a k) (cells ++ [a]) where
  order := healthy.order_add fresh k
  last b isLast := by
    rw [List.getLast?_append_of_ne_nil _ (List.cons_ne_nil _ _)] at isLast
    exact (Option.some.inj isLast).symm
  chains := healthy.chains_add fresh k

theorem Healthy.find [DecidableEq κ] (healthy : Healthy bucket table cells) {size : Nat}
    (enough : cells.length ≤ size) (k : κ) :
    (table.find bucket size k = some none ∧ ∀ a ∈ cells, table.key a ≠ some k) ∨
      ∃ a ∈ cells, table.find bucket size k = some (some a) ∧ table.key a = some k := by
  obtain ⟨chain, links, members⟩ := healthy.chains (bucket k)
  rw [UtHash.find]
  split
  · next empty =>
      have order := healthy.order
      rw [empty] at order
      cases order
      exact Or.inl ⟨rfl, fun a member => by cases member⟩
  · have short : chain.length ≤ cells.length :=
      (links.nodup.subperm fun a member => ((members a).mp member).1).length_le
    rw [walk_chain links _ (Nat.le_trans short enough)]
    cases found : chain.find? fun a => decide (table.key a = some k) with
    | none =>
        refine Or.inl ⟨rfl, fun a member isKey => ?_⟩
        have inChain : a ∈ chain := (members a).mpr ⟨member, by rw [isKey]; rfl⟩
        have differs := List.find?_eq_none.mp found a inChain
        exact differs (decide_eq_true isKey)
    | some a =>
        have inChain := List.mem_of_find?_eq_some found
        exact Or.inr ⟨a, ((members a).mp inChain).1, rfl,
          by simpa using List.find?_some found⟩

/-- An element that is added again cuts off what followed it, or follows itself. -/
theorem Healthy.readd (healthy : Healthy bucket table cells) {a : Nat} (member : a ∈ cells)
    (k : κ) {list : List Nat}
    (listed : Chain (table.add bucket a k).next (table.add bucket a k).head list) :
    ∃ b ∈ cells, b ∉ list := by
  obtain ⟨front, back, split⟩ := List.append_of_mem member
  have order := healthy.order
  have distinct := order.nodup
  rw [split] at order distinct
  rw [List.nodup_append] at distinct
  obtain ⟨_, distinctBack, apart⟩ := distinct
  rw [List.nodup_cons] at distinctBack
  have nonempty := healthy.nonempty member
  have frontOther : ∀ b ∈ front, b ≠ a := fun b inFront =>
    apart b inFront a (List.mem_cons_self ..)
  have isTail : (a :: back).getLast (List.cons_ne_nil _ _) = table.tail := by
    refine healthy.last _ ?_
    rw [split, List.getLast?_append_of_ne_nil _ (List.cons_ne_nil _ _)]
    exact List.getLast?_eq_some_getLast _
  have tailInBack : table.tail ∈ a :: back := isTail ▸ List.getLast_mem _
  have agree : ∀ b ∈ front, (table.add bucket a k).next b = table.next b := by
    intro b inFront
    have notTail : b ≠ table.tail := apart b inFront _ tailInBack
    rw [next_add nonempty, Function.update_of_ne notTail,
      Function.update_of_ne (frontOther b inFront)]
  have starts : (table.add bucket a k).head = table.head := by
    obtain ⟨first, isFirst⟩ := Option.ne_none_iff_exists'.mp nonempty
    change some (table.head.getD a) = table.head
    rw [isFirst, Option.getD_some]
  rw [starts] at listed
  obtain ⟨later, isLater, continues⟩ := order.resume agree listed
  by_cases alone : a = table.tail
  · -- The element is the last one: it follows itself.
    have follows : (table.add bucket a k).next a = some a := by
      rw [next_add nonempty, ← alone, Function.update_self]
    exact (continues.false_of_loop follows).elim
  · have follows : (table.add bucket a k).next a = none := by
      rw [next_add nonempty, Function.update_of_ne alone, Function.update_self]
    cases continues with
    | cell rest =>
        rw [follows] at rest
        cases rest
        refine ⟨table.tail, ?_, ?_⟩
        · rw [split]
          exact List.mem_append_right _ tailInBack
        · rw [isLater, List.mem_append, List.mem_singleton, not_or]
          refine ⟨fun inFront => ?_, Ne.symm alone⟩
          exact apart _ inFront _ tailInBack rfl

end UtHash

end Pkgng.Lib
