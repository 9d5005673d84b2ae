import Mathlib.Data.List.Nodup

/-!
# Renaming the keys of a table

Renamings that are carried out one after the other on a table with different keys.  Where no
two of them touch, and none runs into a key of the table, each takes effect as if it were
alone, whatever their order.
-/

set_option autoImplicit false

namespace Pkgng.Lib

variable {ι K : Type} [DecidableEq K]

/-- One renaming; it is refused if two rows came to have the same key. -/
def rename (rows : List (ι × K)) (r : K × K) : List (ι × K) :=
  let changed := rows.map fun row => if row.2 = r.1 then (row.1, r.2) else row
  if (changed.map Prod.snd).Nodup then changed else rows

/-- Neither renaming sees what the other one does. -/
def Untouched (r s : K × K) : Prop := r.1 ≠ s.1 ∧ r.1 ≠ s.2 ∧ r.2 ≠ s.1 ∧ r.2 ≠ s.2

/-- The key that the renamings give to a key. -/
def renamed (rs : List (K × K)) (key : K) : K :=
  ((rs.find? fun r => r.1 = key).map Prod.snd).getD key

theorem renamed_of_mem {rs : List (K × K)} (apart : rs.Pairwise Untouched) {r : K × K}
    (member : r ∈ rs) : renamed rs r.1 = r.2 := by
  induction rs with
  | nil => cases member
  | cons s rest ih =>
      rw [List.pairwise_cons] at apart
      rw [renamed, List.find?_cons]
      rcases List.mem_cons.mp member with rfl | later
      · simp
      · have differs : s.1 ≠ r.1 := (apart.1 r later).1
        simp only [differs, decide_false]
        exact ih apart.2 later

theorem renamed_of_notMem {rs : List (K × K)} {key : K} (absent : ∀ r ∈ rs, r.1 ≠ key) :
    renamed rs key = key := by
  have nothing : rs.find? (fun r => r.1 = key) = none := by
    rw [List.find?_eq_none]
    intro r member
    simpa using absent r member
  rw [renamed, nothing]
  rfl

/-- A key that does not run into another row's key is accepted. -/
theorem rename_fresh {rows : List (ι × K)} {r : K × K} (nodup : (rows.map Prod.snd).Nodup)
    (fresh : ∀ row ∈ rows, row.2 = r.2 → row.2 = r.1) :
    rename rows r = rows.map fun row => (row.1, if row.2 = r.1 then r.2 else row.2) := by
  have sameRows : (rows.map fun row => if row.2 = r.1 then (row.1, r.2) else row) =
      rows.map fun row => (row.1, if row.2 = r.1 then r.2 else row.2) := by
    refine List.map_congr_left fun row _ => ?_
    split
    · rfl
    · rfl
  have keys : ((rows.map fun row => (row.1, if row.2 = r.1 then r.2 else row.2)).map
      Prod.snd).Nodup := by
    rw [List.map_map]
    refine List.Nodup.map_on ?_ (List.Nodup.of_map _ nodup)
    intro row member other memberOther same
    have sameKey : row.2 = other.2 → row = other := fun key =>
      List.inj_on_of_nodup_map nodup member memberOther key
    dsimp only [Function.comp_apply] at same
    split at same
    · next first =>
        split at same
        · next second => exact sameKey (first.trans second.symm)
        · next second => exact absurd (fresh other memberOther same.symm) second
    · next first =>
        split at same
        · next second => exact absurd (fresh row member same) first
        · exact sameKey same
  unfold rename
  rw [sameRows, if_pos keys]

theorem foldl_rename {rows : List (ι × K)} {rs : List (K × K)} (nodup : (rows.map Prod.snd).Nodup)
    (apart : rs.Pairwise Untouched)
    (fresh : ∀ r ∈ rs, ∀ row ∈ rows, row.2 = r.2 → row.2 = r.1) :
    rs.foldl rename rows = rows.map fun row => (row.1, renamed rs row.2) := by
  induction rs generalizing rows with
  | nil => simp [renamed]
  | cons r rest ih =>
      rw [List.pairwise_cons] at apart
      have freshHere := fresh r (List.mem_cons_self ..)
      have keys := rename_fresh nodup freshHere
      have nodupAfter : ((rename rows r).map Prod.snd).Nodup := by
        unfold rename
        dsimp only
        split
        · assumption
        · exact nodup
      rw [List.foldl_cons, ih nodupAfter apart.2, keys, List.map_map]
      · refine List.map_congr_left fun row member => ?_
        rw [Function.comp_apply, Prod.mk.injEq]
        refine ⟨rfl, ?_⟩
        dsimp only
        by_cases here : row.2 = r.1
        · have kept : renamed rest r.2 = r.2 := renamed_of_notMem fun s later same =>
            (apart.1 s later).2.2.1 same.symm
          rw [if_pos here, kept, here]
          simp [renamed]
        · rw [if_neg here, renamed, renamed, List.find?_cons_of_neg]
          simpa using fun same => here same.symm
      · intro s later row member same
        rw [keys] at member
        obtain ⟨old, memberOld, rfl⟩ := List.mem_map.mp member
        dsimp only at same ⊢
        split at same
        · exact absurd same (apart.1 s later).2.2.2
        · next notHere =>
            rw [if_neg notHere]
            exact fresh s (List.mem_cons_of_mem _ later) old memberOld same

end Pkgng.Lib
