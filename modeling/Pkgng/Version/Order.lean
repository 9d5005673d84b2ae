import Pkgng.Lib.Comparator
import Pkgng.Lib.PaddedLex
import Pkgng.Version.Compare

/-!
# The order of versions

A version string is a sequence of components and plus signs.  The plus signs cut it into
blocks, and the loop of `pkg_version_cmp` compares the blocks one after the other, and two
blocks component by component; missing components are zero and missing blocks empty.
-/

set_option autoImplicit false

namespace Pkgng

open Lib

inductive VersionToken
  | plus
  | component (vc : VersionComponent)
deriving DecidableEq, Repr

/-- The components and plus signs between `v` and `ve`. -/
def versionTokens (ve v : List Char) : List VersionToken :=
  if _more : ve.length < v.length then
    match _read : readComponent ve v with
    | some (vc, rest) => .component vc :: versionTokens ve rest
    | none => .plus :: versionTokens ve v.tail
  else []
termination_by v.length
decreasing_by
  · exact length_of_readComponent _read
  · rw [List.length_tail]
    omega

/-- The blocks between the plus signs. -/
def versionBlocks : List VersionToken → List (List VersionComponent)
  | [] => [[]]
  | .plus :: rest => [] :: versionBlocks rest
  | .component vc :: rest => (versionBlocks rest).modifyHead (vc :: ·)

def componentOrder : VersionComponent → VersionComponent → Ordering :=
  compareLex (compareOn VersionComponent.n)
    (compareLex (compareOn VersionComponent.a) (compareOn VersionComponent.pl))

def blockOrder : List VersionComponent → List VersionComponent → Ordering :=
  padCompare componentOrder {}

def tokenOrder (first second : List VersionToken) : Ordering :=
  padCompare blockOrder [] (versionBlocks first) (versionBlocks second)

theorem compareComponents_eq (vc1 vc2 : VersionComponent) :
    compareComponents vc1 vc2 = ordResult (componentOrder vc1 vc2) := by
  simp only [componentOrder, compareLex, compareOn, ordResult_then, ordResult_compareInt,
    compareComponents]
  split_ifs <;> first | rfl | omega

/-! ## The loop -/

theorem versionBlocks_cons (list : List VersionToken) :
    ∃ block blocks, versionBlocks list = block :: blocks := by
  induction list with
  | nil => exact ⟨[], [], rfl⟩
  | cons token rest ih =>
      cases token with
      | plus => exact ⟨[], _, rfl⟩
      | component vc =>
          obtain ⟨block, blocks, split⟩ := ih
          exact ⟨vc :: block, blocks, by rw [versionBlocks, split]; rfl⟩

theorem versionTokens_nil {ve v : List Char} (ended : ¬ve.length < v.length) :
    versionTokens ve v = [] := by
  rw [versionTokens, dif_neg ended]

theorem readComponent_ended {ve v : List Char} (ended : ¬ve.length < v.length) :
    readComponent ve v = none := by
  rw [readComponent, if_neg fun available => ended available.1]

theorem versionTokens_read {ve v rest : List Char} {vc : VersionComponent}
    (read : readComponent ve v = some (vc, rest)) :
    versionTokens ve v = .component vc :: versionTokens ve rest := by
  have more : ve.length < v.length := by
    by_contra ended
    rw [readComponent_ended ended] at read
    cases read
  rw [versionTokens, dif_pos more]
  split
  · next found =>
      rw [read] at found
      cases found
      rfl
  · next found =>
      rw [read] at found
      cases found

theorem versionTokens_blocked {ve v : List Char} (more : ve.length < v.length)
    (read : readComponent ve v = none) :
    versionTokens ve v = .plus :: versionTokens ve (advance ve v) := by
  rw [advance, if_pos more]
  conv_lhs => rw [versionTokens, dif_pos more]
  split
  · next found =>
      rw [read] at found
      cases found
  · rfl

/-- The first block of a string, with the component read next taken off. -/
theorem versionBlocks_read (ve v : List Char) : ∃ block blocks,
    versionBlocks (versionTokens ve ((readComponent ve v).elim v Prod.snd)) = block :: blocks ∧
    versionBlocks (versionTokens ve v) =
      (((readComponent ve v).map Prod.fst).toList ++ block) :: blocks ∧
    (readComponent ve v = none → block = []) := by
  cases read : readComponent ve v with
  | none =>
      by_cases more : ve.length < v.length
      · have tokens := versionTokens_blocked more read
        exact ⟨[], _, by simp only [Option.elim_none, tokens]; rfl, by rw [tokens]; rfl,
          fun _ => rfl⟩
      · have tokens := versionTokens_nil more
        exact ⟨[], [], by simp only [Option.elim_none, tokens]; rfl, by rw [tokens]; rfl,
          fun _ => rfl⟩
  | some next =>
      obtain ⟨vc, rest⟩ := next
      obtain ⟨block, blocks, split⟩ := versionBlocks_cons (versionTokens ve rest)
      refine ⟨block, blocks, split, ?_, by simp⟩
      rw [versionTokens_read read, versionBlocks, split]
      rfl

/-- One component, or a missing one, on either side. -/
theorem blockOrder_step {first second : Option VersionComponent}
    {block1 block2 : List VersionComponent} (some_ : ¬(first = none ∧ second = none))
    (empty1 : first = none → block1 = []) (empty2 : second = none → block2 = []) :
    blockOrder (first.toList ++ block1) (second.toList ++ block2) =
      (componentOrder (first.getD {}) (second.getD {})).then (blockOrder block1 block2) := by
  unfold blockOrder
  cases first with
  | none =>
      cases second with
      | none => exact absurd ⟨rfl, rfl⟩ some_
      | some vc2 =>
          rw [empty1 rfl]
          exact padCompare_nil_cons _ _ _ _
  | some vc1 =>
      cases second with
      | none =>
          rw [empty2 rfl]
          exact padCompare_cons_nil _ _ _ _
      | some vc2 => exact padCompare_cons_cons _ _ _ _ _ _

/-- An empty block at the end counts as none. -/
theorem padCompare_nil_blocks (block : List VersionComponent)
    (blocks : List (List VersionComponent)) :
    padCompare blockOrder [] [] (block :: blocks) =
      padCompare blockOrder [] [[]] (block :: blocks) := by
  rw [padCompare_nil_cons, padCompare_cons_cons]

theorem padCompare_blocks_nil (block : List VersionComponent)
    (blocks : List (List VersionComponent)) :
    padCompare blockOrder [] (block :: blocks) [] =
      padCompare blockOrder [] (block :: blocks) [[]] := by
  rw [padCompare_cons_nil, padCompare_cons_cons]

/-- Where both sides are blocked, the next blocks are compared. -/
theorem tokenOrder_blocked {ve1 ve2 v1 v2 : List Char}
    (more : ve1.length < v1.length ∨ ve2.length < v2.length)
    (read1 : readComponent ve1 v1 = none) (read2 : readComponent ve2 v2 = none) :
    tokenOrder (versionTokens ve1 v1) (versionTokens ve2 v2) =
      tokenOrder (versionTokens ve1 (advance ve1 v1)) (versionTokens ve2 (advance ve2 v2)) := by
  have empty : blockOrder [] [] = .eq := padCompare_nil_nil _ _
  unfold tokenOrder
  by_cases more1 : ve1.length < v1.length
  · by_cases more2 : ve2.length < v2.length
    · rw [versionTokens_blocked more1 read1, versionTokens_blocked more2 read2, versionBlocks,
        versionBlocks, padCompare_cons_cons, empty]
      rfl
    · obtain ⟨block, blocks, split⟩ := versionBlocks_cons (versionTokens ve1 (advance ve1 v1))
      have stays : advance ve2 v2 = v2 := if_neg more2
      rw [versionTokens_blocked more1 read1, stays, versionTokens_nil more2, versionBlocks,
        versionBlocks, padCompare_cons_cons, empty, split, ← padCompare_blocks_nil]
      rfl
  · have more2 : ve2.length < v2.length := more.resolve_left more1
    obtain ⟨block, blocks, split⟩ := versionBlocks_cons (versionTokens ve2 (advance ve2 v2))
    have stays : advance ve1 v1 = v1 := if_neg more1
    rw [versionTokens_blocked more2 read2, stays, versionTokens_nil more1, versionBlocks,
      versionBlocks, padCompare_cons_cons, empty, split, ← padCompare_nil_blocks]
    rfl

theorem tokenOrder_step {ve1 ve2 v1 v2 : List Char}
    (unblocked : ¬((readComponent ve1 v1).isNone = true ∧ (readComponent ve2 v2).isNone = true)) :
    tokenOrder (versionTokens ve1 v1) (versionTokens ve2 v2) =
      (componentOrder ((readComponent ve1 v1).elim {} Prod.fst)
        ((readComponent ve2 v2).elim {} Prod.fst)).then
        (tokenOrder (versionTokens ve1 ((readComponent ve1 v1).elim v1 Prod.snd))
          (versionTokens ve2 ((readComponent ve2 v2).elim v2 Prod.snd))) := by
  obtain ⟨block1, blocks1, after1, before1, empty1⟩ := versionBlocks_read ve1 v1
  obtain ⟨block2, blocks2, after2, before2, empty2⟩ := versionBlocks_read ve2 v2
  unfold tokenOrder
  rw [after1, after2, before1, before2, padCompare_cons_cons, padCompare_cons_cons,
    blockOrder_step (by simpa using unblocked) (by simpa using empty1) (by simpa using empty2),
    Ordering.then_assoc]
  congr 1
  cases readComponent ve1 v1 <;> cases readComponent ve2 v2 <;> rfl

/-- The loop is the comparison of the blocks. -/
theorem compareLoop_eq (ve1 ve2 v1 v2 : List Char) :
    compareLoop ve1 ve2 v1 v2 =
      ordResult (tokenOrder (versionTokens ve1 v1) (versionTokens ve2 v2)) := by
  fun_induction compareLoop ve1 ve2 v1 v2 with
  | case1 v1 v2 more next1 next2 blocked ih =>
      rw [ih, tokenOrder_blocked more (by simpa using blocked.1) (by simpa using blocked.2)]
  | case2 v1 v2 more next1 next2 blocked result isZero ih =>
      rw [ih, tokenOrder_step blocked, ordResult_then, ← compareComponents_eq, if_pos isZero]
  | case3 v1 v2 more next1 next2 blocked result notZero =>
      rw [tokenOrder_step blocked, ordResult_then, ← compareComponents_eq, if_neg notZero]
  | case4 v1 v2 ended =>
      have ended1 : ¬ve1.length < v1.length := fun more => ended (Or.inl more)
      have ended2 : ¬ve2.length < v2.length := fun more => ended (Or.inr more)
      rw [versionTokens_nil ended1, versionTokens_nil ended2]
      simp [tokenOrder, versionBlocks, blockOrder, ordResult]

end Pkgng
