import Pkgng.Net.SrvWeights

/-!
# The groups that weights are selected for

A call is made when the priority changes, so for every group of two or more records but the
last.
-/

set_option autoImplicit false

namespace Pkgng

open Lib

/-- The records `f` to `l` are all the neighbours of one priority. -/
structure SrvGroup (priorities : List Nat) (f l : Nat) : Prop where
  ordered : f ≤ l
  inside : l < priorities.length
  equal : ∀ k, f ≤ k → k ≤ l → priorities[k]? = priorities[f]?
  starts : f ≠ 0 → priorities[f - 1]? ≠ priorities[f]?
  ends : priorities[l + 1]? ≠ priorities[f]?

/-- A group of two or more records that is not the last. -/
def CalledGroup (priorities : List Nat) (f l : Nat) : Prop :=
  SrvGroup priorities f l ∧ f < l ∧ l + 1 < priorities.length

/-- The records that the loop has last seen, up to the one before `i`, have one priority. -/
structure OpenGroup (priorities : List Nat) (i : Nat) (g : GroupState) : Prop where
  ordered : g.f ≤ g.l
  upTo : g.l + 1 = i
  equal : ∀ k, g.f ≤ k → k ≤ g.l → priorities[k]? = some g.priority
  starts : g.f ≠ 0 → priorities[g.f - 1]? ≠ some g.priority

section Groups

variable {priorities : List Nat} {i : Nat} {g : GroupState}

/-- A group that starts in the open one starts where it does. -/
theorem OpenGroup.start_eq (isOpen : OpenGroup priorities i g) {f l : Nat}
    (group : SrvGroup priorities f l) (from_f : g.f ≤ f) (before : f < i) : f = g.f := by
  by_contra later
  have upTo := isOpen.upTo
  have here := isOpen.equal f from_f (by omega)
  have previous := isOpen.equal (f - 1) (by omega) (by omega)
  exact group.starts (by omega) (previous.trans here.symm)

/-- The open group ends where the priority changes. -/
theorem OpenGroup.closes (isOpen : OpenGroup priorities i g) (inside : i ≤ priorities.length)
    (changes : priorities[i]? ≠ some g.priority) : SrvGroup priorities g.f g.l := by
  have upTo := isOpen.upTo
  have first := isOpen.equal g.f (Nat.le_refl _) isOpen.ordered
  refine ⟨isOpen.ordered, by omega, fun k above below => ?_, fun notFirst => ?_, ?_⟩
  · rw [isOpen.equal k above below, first]
  · rw [first]
    exact isOpen.starts notFirst
  · rw [first, upTo]
    exact changes

theorem SrvGroup.last_eq {f l l' : Nat} (group : SrvGroup priorities f l)
    (other : SrvGroup priorities f l') : l = l' := by
  have ordered := group.ordered
  have ordered' := other.ordered
  rcases Nat.lt_trichotomy l l' with less | same | more
  · exact absurd (other.equal (l + 1) (by omega) less) group.ends
  · exact same
  · exact absurd (group.equal (l' + 1) (by omega) more) other.ends

theorem OpenGroup.extend (isOpen : OpenGroup priorities i g)
    (same : priorities[i]? = some g.priority) :
    OpenGroup priorities (i + 1) { g with l := i } := by
  have ordered := isOpen.ordered
  have upTo := isOpen.upTo
  refine ⟨by dsimp only; omega, rfl, fun k above below => ?_, isOpen.starts⟩
  dsimp only at above below ⊢
  rcases Nat.lt_or_ge g.l k with new | old
  · have isNew : k = i := by omega
    rw [isNew]
    exact same
  · exact isOpen.equal k above old

theorem OpenGroup.restart (isOpen : OpenGroup priorities i g) {priority : Nat}
    (here : priorities[i]? = some priority) (changes : priority ≠ g.priority) :
    OpenGroup priorities (i + 1) ⟨i, i, priority⟩ := by
  refine ⟨Nat.le_refl i, rfl, fun k above below => ?_, fun _ => ?_⟩
  · rw [Nat.le_antisymm below above]
    exact here
  · have previous := isOpen.equal g.l isOpen.ordered (Nat.le_refl _)
    have isLast : i - 1 = g.l := by
      have upTo := isOpen.upTo
      omega
    dsimp only
    rw [isLast, previous]
    exact fun same => changes (Option.some.inj same).symm

/-- The calls of the loop from `i` on, and their order. -/
theorem weightCalls_spec (turns : Nat) (isOpen : OpenGroup priorities i g)
    (upTo : i + turns = priorities.length) :
    (∀ f l, (f, l) ∈ weightCalls (priorities.drop i) i g ↔
      CalledGroup priorities f l ∧ g.f ≤ f) ∧
    (weightCalls (priorities.drop i) i g).Pairwise fun call next => call.2 < next.1 := by
  induction turns generalizing i g with
  | zero =>
      rw [List.drop_eq_nil_of_le (by omega)]
      refine ⟨fun f l => ⟨nofun, fun called => ?_⟩, .nil⟩
      obtain ⟨⟨group, _, notLast⟩, from_f⟩ := called
      have ordered := group.ordered
      have closed := isOpen.closes (by omega) (by rw [List.getElem?_eq_none (by omega)]; nofun)
      have isFirst := isOpen.start_eq group from_f (by omega)
      have isLast := SrvGroup.last_eq (isFirst ▸ group) closed
      have upTo := isOpen.upTo
      omega
  | succ turns ih =>
      have inside : i < priorities.length := by omega
      have here := List.getElem?_eq_getElem inside
      rw [List.drop_eq_getElem_cons inside]
      generalize priorities[i] = priority at here ⊢
      rw [weightCalls]
      by_cases changes : priority ≠ g.priority
      · rw [if_pos changes]
        have changed : priorities[i]? ≠ some g.priority := fun same =>
          changes (Option.some.inj (here.symm.trans same))
        have closed := isOpen.closes (by omega) changed
        obtain ⟨members, ordered⟩ := ih (isOpen.restart here changes) (by omega)
        dsimp only at members
        have upTo := isOpen.upTo
        have inOrder := isOpen.ordered
        -- The open group is the only one that starts before `i`.
        have split : ∀ f l, CalledGroup priorities f l ∧ g.f ≤ f ↔
            (f = g.f ∧ l = g.l ∧ g.f ≠ g.l) ∨ CalledGroup priorities f l ∧ i ≤ f := by
          intro f l
          constructor
          · rintro ⟨called, from_f⟩
            rcases Nat.lt_or_ge f i with before | behind
            · have isFirst := isOpen.start_eq called.1 from_f before
              have isLast := SrvGroup.last_eq (isFirst ▸ called.1) closed
              have two := called.2.1
              exact Or.inl ⟨isFirst, isLast, by omega⟩
            · exact Or.inr ⟨called, behind⟩
          · rintro (⟨rfl, rfl, two⟩ | ⟨called, behind⟩)
            · exact ⟨⟨closed, by omega, by omega⟩, Nat.le_refl _⟩
            · exact ⟨called, by omega⟩
        by_cases two : g.f ≠ g.l
        · rw [if_pos two]
          refine ⟨fun f l => ?_, List.pairwise_cons.mpr ⟨?_, ordered⟩⟩
          · rw [List.mem_cons, members, split, Prod.mk.injEq]
            simp only [two, ne_eq, not_false_eq_true, and_true]
          · rintro ⟨f, l⟩ member
            have behind := ((members f l).mp member).2
            dsimp only
            omega
        · rw [if_neg two]
          refine ⟨fun f l => ?_, ordered⟩
          rw [members, split]
          simp only [two, and_false, false_or]
      · rw [if_neg changes]
        have same : priorities[i]? = some g.priority := by rw [here, not_not.mp changes]
        exact ih (isOpen.extend same) (by omega)

end Groups

/-- The priorities of the sorted records. -/
def priorities (res : List SrvInfo) : List Nat := res.map SrvInfo.priority

theorem srvCalls_spec (res : List SrvInfo) :
    (∀ f l, (f, l) ∈ srvCalls res ↔ CalledGroup (priorities res) f l) ∧
      (srvCalls res).Pairwise fun call next => call.2 < next.1 := by
  unfold srvCalls
  change (∀ f l, (f, l) ∈ weightCalls (priorities res) 0 ⟨0, 0, 0⟩ ↔ _) ∧
    (weightCalls (priorities res) 0 ⟨0, 0, 0⟩).Pairwise _
  cases isList : priorities res with
  | nil =>
      refine ⟨fun f l => ⟨nofun, fun called => ?_⟩, .nil⟩
      exact absurd called.1.inside (Nat.not_lt_zero l)
  | cons priority rest =>
      have first : weightCalls (priority :: rest) 0 ⟨0, 0, 0⟩ =
          weightCalls ((priority :: rest).drop 1) 1 ⟨0, 0, priority⟩ := by
        rw [weightCalls]
        by_cases isZero : priority = 0
        · rw [isZero]
          rfl
        · rw [if_pos isZero]
          rfl
      have isOpen : OpenGroup (priority :: rest) 1 ⟨0, 0, priority⟩ := by
        refine ⟨Nat.le_refl 0, rfl, fun k _ below => ?_, fun notFirst => absurd rfl notFirst⟩
        rw [Nat.le_zero.mp below]
        rfl
      have spec := weightCalls_spec rest.length isOpen (by rw [List.length_cons]; omega)
      rw [first]
      exact ⟨fun f l => (spec.1 f l).trans (and_iff_left (Nat.zero_le f)), spec.2⟩

/-- The calls before one are those for the groups before its group. -/
theorem srvCalls_before {res : List SrvInfo} {before later : List (Nat × Nat)} {f l f' l' : Nat}
    (split : srvCalls res = before ++ (f, l) :: later) :
    (f', l') ∈ before ↔ CalledGroup (priorities res) f' l' ∧ l' < f := by
  obtain ⟨members, ordered⟩ := srvCalls_spec res
  rw [split, List.pairwise_append, List.pairwise_cons] at ordered
  obtain ⟨_, ⟨behind, _⟩, ahead⟩ := ordered
  have two := ((members f l).mp (split ▸ List.mem_append_right _ (List.mem_cons_self ..))).2.1
  rw [← members f' l', split, List.mem_append, List.mem_cons]
  constructor
  · intro member
    exact ⟨Or.inl member, ahead _ member _ (List.mem_cons_self ..)⟩
  · rintro ⟨member | same | member, less⟩
    · exact member
    · have isLast := (Prod.mk.inj same).2
      omega
    · have called := (members f' l').mp
        (split ▸ List.mem_append_right _ (List.mem_cons_of_mem _ member))
      have two' := called.2.1
      have apart := behind _ member
      dsimp only at apart
      omega

/-! ## Safety -/

/-- Whatever `random` returns, no remainder by zero is taken and no index of `chosen` is too
large. -/
def WeighsSafely (res : List SrvInfo) : Prop :=
  ∀ randoms, ValidRandoms randoms → ∀ why after, selectWeights res randoms ≠ .fault why after

/-- The selection is safe exactly if the call for every group but the last is, unless a call
before it cannot finish. -/
theorem weighsSafely_iff (res : List SrvInfo) :
    WeighsSafely res ↔
      ∀ f l, CalledGroup (priorities res) f l →
        (∀ f' l', CalledGroup (priorities res) f' l' → l' < f → CallFinishes res f' l') →
          CallSafe res f l := by
  have faults := runCalls_faults_iff (srvCalls res) res
  have members := (srvCalls_spec res).1
  constructor
  · intro safe f l called finish
    by_contra notSafe
    obtain ⟨before, later, split⟩ := List.append_of_mem ((members f l).mpr called)
    have finished : ∀ earlier ∈ before, CallFinishes res earlier.1 earlier.2 := by
      intro earlier member
      obtain ⟨calledEarlier, less⟩ := (srvCalls_before split).mp member
      exact finish _ _ calledEarlier less
    obtain ⟨randoms, valid, why, after, fault⟩ :=
      faults.mpr ⟨before, (f, l), later, split, finished, notSafe⟩
    exact safe randoms valid why after ((selectWeights_eq res randoms).trans fault)
  · intro allSafe randoms valid why after fault
    rw [selectWeights_eq] at fault
    obtain ⟨before, ⟨f, l⟩, later, split, finish, notSafe⟩ :=
      faults.mp ⟨randoms, valid, why, after, fault⟩
    have called := (members f l).mp (split ▸ List.mem_append_right _ (List.mem_cons_self ..))
    exact notSafe (allSafe f l called fun f' l' earlier less =>
      finish (f', l') ((srvCalls_before split).mpr ⟨earlier, less⟩))

/-- A record of a target that is left to its defaults. -/
def srvRecord (priority weight : Nat) (small : weight < 65536) : SrvInfo :=
  { type := 33, rrClass := 1, ttl := 300, priority, weight, port := 80, finalweight := 0,
    host := "pkg".toList, weight_lt := small }

/-- The first record has no weight of its own. -/
theorem zeroWeight_faults : ¬ ∀ res, WeighsSafely res := by
  intro safe
  have valid : ValidRandoms [0] := by
    intro random isZero
    rw [List.mem_singleton.mp isZero]
    exact Nat.succ_pos _
  exact safe [srvRecord 10 0 (by decide), srvRecord 10 1 (by decide), srvRecord 20 0 (by decide)]
    [0] valid .remainderByZero _ rfl

/-! ## Selection -/

/-- What the selection of weights is for. -/
structure SelectsWeights (res : List SrvInfo) : Prop where
  finishes : ∃ randoms, ValidRandoms randoms ∧ ∃ after left,
    selectWeights res randoms = .done after left
  covers : ∀ f l, SrvGroup (priorities res) f l → f < l → (f, l) ∈ srvCalls res
  insideGroup : ∀ f l, (f, l) ∈ srvCalls res → ∀ d, SameRecords d res → ∀ randoms k,
    k < f ∨ l < k → (computeWeight d f l randoms).records[k]? = d[k]?

theorem computeWeight_behind (d : List SrvInfo) (first : Nat) {last k : Nat} (behind : last < k)
    (inside : last < d.length) (randoms : List Nat) :
    (computeWeight d first last randoms).records[k]? = d[k]? := by
  obtain ⟨front, isFront, same⟩ := computeWeight_records d first last randoms
  have count : front.length = last + 1 := by
    have lengths := congrArg List.length same
    rw [List.length_map, List.length_map, List.length_take] at lengths
    omega
  rw [isFront, List.getElem?_append_right (by omega), List.getElem?_drop, count]
  congr 1
  omega

/-- The selection does what it is for exactly if the last group is one record, and each other
group of two or more has no weights up to its end, or is the first and has ranges that are
spread out. -/
theorem selectsWeights_iff (res : List SrvInfo) :
    SelectsWeights res ↔
      (∀ f l, SrvGroup (priorities res) f l → f < l → l + 1 < res.length) ∧
        ∀ f l, CalledGroup (priorities res) f l →
          totalWeight res l = 0 ∨ f = 0 ∧ SpreadOut (callRanges res l) := by
  have members := (srvCalls_spec res).1
  have count : (priorities res).length = res.length := List.length_map ..
  have done := runCalls_done_iff (srvCalls res) res
  -- Only the first group has room in `chosen` for all that is drawn.
  have finishes : ∀ f l, CalledGroup (priorities res) f l →
      (CallFinishes res f l ↔ totalWeight res l = 0 ∨ f = 0 ∧ SpreadOut (callRanges res l)) := by
    intro f l called
    have inside := called.1.inside
    have two := called.2.1
    have ranges : (callRanges res l).length = l + 1 := by
      rw [callRanges, List.length_map, List.length_take]
      omega
    unfold CallFinishes
    rw [ranges, and_comm]
    refine or_congr Iff.rfl (and_congr ⟨fun room => ?_, fun isZero => ?_⟩ Iff.rfl)
    · omega
    · omega
  simp only [← selectWeights_eq] at done
  constructor
  · intro selects
    refine ⟨fun f l group two => ?_, fun f l called => ?_⟩
    · exact count ▸ ((members f l).mp (selects.covers f l group two)).2.2
    · exact (finishes f l called).mp (done.mp selects.finishes (f, l) ((members f l).mpr called))
  · rintro ⟨lastAlone, spread⟩
    refine ⟨done.mpr fun call member => ?_, fun f l group two => ?_, ?_⟩
    · have called := (members call.1 call.2).mp member
      exact (finishes _ _ called).mpr (spread _ _ called)
    · exact (members f l).mpr ⟨group, two, count ▸ lastAlone f l group two⟩
    · intro f l member d same randoms k outside
      have called := (members f l).mp member
      rcases spread f l called with zero | ⟨isFirst, _⟩
      · rw [computeWeight, if_pos ((SameRecords.totalWeight same l).trans zero)]
        rfl
      · have length : d.length = res.length := by
          simpa using congrArg List.length same
        have inside := called.1.inside
        exact computeWeight_behind d f (by omega) (by omega) randoms

/-- Two records of one priority are the last group. -/
theorem lastGroup_not_selected :
    ¬ ∀ res, SelectsWeights res := by
  intro selects
  have called := (selects [srvRecord 10 1 (by decide), srvRecord 10 1 (by decide)]).covers 0 1
    ⟨by decide, by decide, by decide, by decide, by decide⟩ (by decide)
  cases called

end Pkgng
