import Pkgng.Lib.UtHash

/-!
# Emptying an intrusive hash table

`HASH_FREE` goes along the links of all elements, removes each from the table and frees it.
The backward links, which only a removal reads, are a map of their own.  Whether an element is
still allocated when it is read is part of the result; the links of the buckets are left out.
-/

set_option autoImplicit false

namespace Pkgng.Lib

/-- The backward links behind `HASH_ADD_KEYPTR`. -/
def UtHash.addPrev {κ : Type} (table : UtHash κ) (a : Nat) (prev : Nat → Option Nat) :
    Nat → Option Nat :=
  Function.update prev a (table.head.map fun _ => table.tail)

/-- The list of all elements. -/
structure ElementOrder where
  head : Option Nat
  next : Nat → Option Nat
  prev : Nat → Option Nat

namespace ElementOrder

/-- `HASH_DELETE`. -/
def delete (order : ElementOrder) (a : Nat) : ElementOrder :=
  let next :=
    match order.prev a with
    | some before => Function.update order.next before (order.next a)
    | none => order.next
  { head := if (order.prev a).isSome then order.head else order.next a
    next := next
    prev :=
      match next a with
      | some behind => Function.update order.prev behind (order.prev a)
      | none => order.prev }

/-- The elements that the removal of an element reads or writes. -/
def touched (order : ElementOrder) (a : Nat) : List Nat :=
  a :: (order.head.toList ++ (order.prev a).toList)

/-- The loop of `HASH_FREE` from an element on, behind which the next one is read before it is
removed.  None is an element that was freed already; `freed` are those freed before. -/
def free : Nat → Option Nat → List Nat → ElementOrder → Option (List Nat)
  | 0, _, _, _ => none
  | _ + 1, none, freed, _ => some freed
  | fuel + 1, some a, freed, order =>
      if (order.touched a).any fun x => freed.contains x then none
      else free fuel (order.next a) (a :: freed) (order.delete a)

/-- Each element of a list points back to the one before it. -/
def PointsBack (prev : Nat → Option Nat) : Option Nat → List Nat → Prop
  | _, [] => True
  | before, a :: rest => prev a = before ∧ PointsBack prev (some a) rest

variable {next prev prev' : Nat → Option Nat} {head before : Option Nat} {cells : List Nat}

theorem PointsBack.congr (back : PointsBack prev before cells)
    (agree : ∀ a ∈ cells, prev' a = prev a) : PointsBack prev' before cells := by
  induction cells generalizing before with
  | nil => trivial
  | cons a rest ih =>
      refine ⟨(agree a (List.mem_cons_self ..)).trans back.1, ih back.2 fun b member => ?_⟩
      exact agree b (List.mem_cons_of_mem _ member)

theorem PointsBack.snoc {last a : Nat} (back : PointsBack prev before (cells ++ [last]))
    (fresh : a ∉ cells ++ [last]) :
    PointsBack (Function.update prev a (some last)) before (cells ++ [last] ++ [a]) := by
  induction cells generalizing before with
  | nil =>
      have other : last ≠ a := fun same => fresh (List.mem_singleton.mpr same.symm)
      exact ⟨(Function.update_of_ne other ..).trans back.1, Function.update_self .., trivial⟩
  | cons b cells ih =>
      rw [List.cons_append, List.mem_cons, not_or] at fresh
      exact ⟨(Function.update_of_ne (Ne.symm fresh.1) ..).trans back.1, ih back.2 fresh.2⟩

/-- A list whose links agree in both directions is freed to its end. -/
theorem free_of_pointsBack {fuel : Nat} {freed : List Nat} (links : Chain next head cells)
    (back : PointsBack prev none cells) (apart : ∀ a ∈ cells, a ∉ freed)
    (enough : cells.length < fuel) :
    free fuel head freed ⟨head, next, prev⟩ = some (cells.reverse ++ freed) := by
  induction cells generalizing fuel head prev freed with
  | nil =>
      cases links
      cases fuel with
      | zero => cases enough
      | succ fuel => rfl
  | cons a rest ih =>
      have distinct := links.nodup
      rw [List.nodup_cons] at distinct
      cases links with
      | cell later =>
          cases fuel with
          | zero => cases enough
          | succ fuel =>
              have alone : prev a = none := back.1
              have live : ¬((touched ⟨some a, next, prev⟩ a).any fun x => freed.contains x) := by
                simpa [touched, alone] using apart a (List.mem_cons_self ..)
              have deleted : delete ⟨some a, next, prev⟩ a =
                  ⟨next a, next, match next a with
                    | some behind => Function.update prev behind none
                    | none => prev⟩ := by
                simp only [delete, alone, Option.isSome_none, Bool.false_eq_true, if_false]
              have apartRest : ∀ b ∈ rest, b ∉ a :: freed := by
                intro b member inFreed
                rcases List.mem_cons.mp inFreed with same | old
                · exact distinct.1 (same ▸ member)
                · exact apart b (List.mem_cons_of_mem _ member) old
              rw [free, if_neg live, deleted, List.reverse_cons, List.append_assoc,
                List.singleton_append]
              refine ih later ?_ apartRest (Nat.lt_of_succ_lt_succ enough)
              cases rest with
              | nil => trivial
              | cons b rest =>
                  cases isNext : next a with
                  | none =>
                      rw [isNext] at later
                      cases later
                  | some behind =>
                      rw [isNext] at later
                      cases later
                      rw [List.nodup_cons] at distinct
                      refine ⟨Function.update_self .., back.2.2.congr fun c member => ?_⟩
                      have other : c ≠ b := fun same => distinct.2.1 (same ▸ member)
                      exact Function.update_of_ne other ..

end ElementOrder

end Pkgng.Lib
