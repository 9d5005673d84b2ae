import Mathlib.Data.List.Chain
import Mathlib.Order.ConditionallyCompleteLattice.Finset
import Mathlib.Order.Lattice.Nat

/-!
# Relations with bounded paths

A relation whose paths have boundedly many nodes grades its elements: an element
lies as deep as the longest path that ends in it.  Along an edge the depth
grows.
-/

set_option autoImplicit false

namespace Pkgng.Lib

variable {α : Type}

/-- No path of the relation has more than `nodes` nodes; in particular there is
no cycle. -/
def Shallow (r : α → α → Prop) (nodes : Nat) : Prop :=
  ∀ path : List α, path.IsChain r → path.length ≤ nodes

/-- The numbers of edges of the paths that end in `a`. -/
def edgesTo (r : α → α → Prop) (a : α) : Set Nat :=
  {edges | ∃ path : List α, (path ++ [a]).IsChain r ∧ path.length = edges}

/-- The number of edges of a longest path that ends in `a`. -/
noncomputable def depth (r : α → α → Prop) (a : α) : Nat := sSup (edgesTo r a)

section EdgesTo

variable {r : α → α → Prop} {a b : α} {edges : Nat}

theorem zero_mem_edgesTo (r : α → α → Prop) (a : α) : 0 ∈ edgesTo r a :=
  ⟨[], List.isChain_singleton a, rfl⟩

/-- A path ends with its last edge. -/
theorem succ_mem_edgesTo_iff : edges + 1 ∈ edgesTo r b ↔ ∃ a, r a b ∧ edges ∈ edgesTo r a := by
  constructor
  · rintro ⟨path, chain, length⟩
    have nonempty : path ≠ [] := by
      rintro rfl
      cases length
    obtain ⟨front, a, rfl⟩ := List.eq_nil_or_concat path |>.resolve_left nonempty
    rw [List.concat_eq_append] at chain length
    rw [List.append_assoc, List.singleton_append] at chain
    have split := List.isChain_append.mp chain
    refine ⟨a, (List.isChain_cons_cons.mp split.2.1).1, front, ?_, by simpa using length⟩
    rw [List.isChain_append]
    exact ⟨split.1, List.isChain_singleton a, fun x last y first => by
      refine split.2.2 x last y ?_
      simpa using first⟩
  · rintro ⟨a, edge, path, chain, rfl⟩
    refine ⟨path ++ [a], ?_, by simp⟩
    refine List.IsChain.append chain (List.isChain_singleton b) fun x last y first => ?_
    rw [List.getLast?_concat, Option.mem_some_iff] at last
    rw [List.head?_cons, Option.mem_some_iff] at first
    rw [← last, ← first]
    exact edge

theorem succ_mem_edgesTo (edge : r a b) (path : edges ∈ edgesTo r a) : edges + 1 ∈ edgesTo r b :=
  succ_mem_edgesTo_iff.mpr ⟨a, edge, path⟩

/-- All edges that end in one element end in the other as well. -/
theorem edgesTo_subset (also : ∀ x, r x a → r x b) : edgesTo r a ⊆ edgesTo r b := by
  intro edges path
  cases edges with
  | zero => exact zero_mem_edgesTo r b
  | succ edges =>
      obtain ⟨x, edge, before⟩ := succ_mem_edgesTo_iff.mp path
      exact succ_mem_edgesTo (also x edge) before

end EdgesTo

namespace Shallow

variable {r : α → α → Prop} {nodes : Nat} {a b : α}

/-- A grading that stays below the bound. -/
theorem of_rank (rank : α → Nat) (grows : ∀ a b, r a b → rank a < rank b)
    (below : ∀ a, rank a < nodes) : Shallow r nodes := by
  have climbs : ∀ (path : List α) (a : α), (a :: path).IsChain r →
      rank a + path.length < nodes := by
    intro path
    induction path with
    | nil => exact fun a _ => below a
    | cons b rest ih =>
        intro a chain
        obtain ⟨edge, tail⟩ := List.isChain_cons_cons.mp chain
        have step := grows a b edge
        have later := ih b tail
        rw [List.length_cons]
        omega
  intro path chain
  cases path with
  | nil => exact Nat.zero_le _
  | cons a rest =>
      have := climbs rest a chain
      rw [List.length_cons]
      omega

theorem mono {r' : α → α → Prop} (shallow : Shallow r nodes) (sub : ∀ a b, r' a b → r a b) :
    Shallow r' nodes := fun path chain => shallow path (chain.imp sub)

/-- Reversing all edges reverses all paths. -/
theorem flip (shallow : Shallow r nodes) : Shallow (fun a b => r b a) nodes := fun path chain => by
  have reversed : path.reverse.IsChain r := by
    rw [List.isChain_reverse]
    exact chain
  simpa using shallow _ reversed

variable (shallow : Shallow r nodes)

include shallow

theorem bddAbove (a : α) : BddAbove (edgesTo r a) := by
  refine ⟨nodes, ?_⟩
  rintro edges ⟨path, chain, rfl⟩
  have := shallow _ chain
  rw [List.length_append, List.length_singleton] at this
  omega

theorem depth_mem (a : α) : depth r a ∈ edgesTo r a :=
  Nat.sSup_mem ⟨0, zero_mem_edgesTo r a⟩ (shallow.bddAbove a)

theorem depth_lt_nodes (a : α) : depth r a < nodes := by
  obtain ⟨path, chain, length⟩ := shallow.depth_mem a
  have := shallow _ chain
  rw [List.length_append, List.length_singleton] at this
  omega

theorem depth_lt_of_edge (edge : r a b) : depth r a < depth r b :=
  Nat.lt_of_lt_of_le (Nat.lt_succ_self _)
    (le_csSup (shallow.bddAbove b) (succ_mem_edgesTo edge (shallow.depth_mem a)))

end Shallow

end Pkgng.Lib
