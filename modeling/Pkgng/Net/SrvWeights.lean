import Mathlib.Algebra.GroupWithZero.Nat
import Pkgng.Lib.DistinctDraws

/-!
# The weights of SRV records

`dns_getsrvinfo` sorts the records by priority and then calls `compute_weight` for runs of
equal priority; `compute_weight` draws a different number for each record, from a range in
proportion to its weight, and draws again when a number has been chosen before.
-/

set_option autoImplicit false

namespace Pkgng

open Lib

/-- `struct dns_srvinfo`; the order of a list stands for its links.  A weight has 16 bits in
the message. -/
structure SrvInfo where
  type : Nat
  rrClass : Nat
  ttl : Nat
  priority : Nat
  weight : Nat
  port : Nat
  finalweight : Nat
  host : List Char
  weight_lt : weight < 65536
deriving DecidableEq

/-! ## Drawing -/

inductive WeightFault
  | remainderByZero
  | chosenIndex (index : Nat)
deriving DecidableEq

/-- The records before `d[i]` and from it to the last, and `chosen[0]` to `chosen[i - 1]`. -/
structure WeightState where
  passed : List SrvInfo
  rest : List SrvInfo
  chosen : List Nat

/-- `d[i]->weight * 100 / totalweight`. -/
def weightRange (totalweight : Nat) (r : SrvInfo) : Nat := r.weight * 100 / totalweight

/-- A turn of the inner loop with the next value of `random`; `chosen` has so many
elements. -/
def drawTurn (size totalweight : Nat) (s : WeightState) (random : Nat) :
    Except WeightFault WeightState :=
  match s.rest with
  | [] => .ok s
  | r :: rest =>
      if weightRange totalweight r = 0 then .error .remainderByZero
      else if size ≤ s.chosen.length then .error (.chosenIndex s.chosen.length)
      else
        let drawn := random % weightRange totalweight r
        if drawn ∈ s.chosen then .ok s
        else .ok ⟨s.passed ++ [{ r with finalweight := drawn }], rest, s.chosen ++ [drawn]⟩

/-- The records when the code has failed, when the random values are used up in the middle of
it, or when it is done, then with the random values that are left. -/
inductive Drawn
  | fault (why : WeightFault) (res : List SrvInfo)
  | waiting (res : List SrvInfo)
  | done (res : List SrvInfo) (randoms : List Nat)

def Drawn.records : Drawn → List SrvInfo
  | .fault _ res => res
  | .waiting res => res
  | .done res _ => res

/-- The two loops of `compute_weight`, in front of the records behind the last. -/
def drawLoop (size totalweight : Nat) (behind : List SrvInfo) : List Nat → WeightState → Drawn
  | [], s =>
      if s.rest = [] then .done (s.passed ++ behind) []
      else .waiting (s.passed ++ s.rest ++ behind)
  | random :: randoms, s =>
      if s.rest = [] then .done (s.passed ++ behind) (random :: randoms)
      else
        match drawTurn size totalweight s random with
        | .error why => .fault why (s.passed ++ s.rest ++ behind)
        | .ok s' => drawLoop size totalweight behind randoms s'

/-- The sum in an `int`, as the division takes it. -/
def totalWeight (d : List SrvInfo) (last : Nat) : Nat :=
  ((d.take (last + 1)).map SrvInfo.weight).sum % 4294967296

def computeWeight (d : List SrvInfo) (first last : Nat) (randoms : List Nat) : Drawn :=
  if totalWeight d last = 0 then .done d randoms
  else drawLoop (last - first + 1) (totalWeight d last) (d.drop (last + 1)) randoms
    ⟨[], d.take (last + 1), []⟩

/-! ## The groups -/

/-- The variables `f`, `l` and `priority`. -/
structure GroupState where
  f : Nat
  l : Nat
  priority : Nat

/-- The loop of `dns_getsrvinfo` over the sorted records from `i` on, for so many turns. -/
def weightLoop : Nat → Nat → GroupState → List SrvInfo → List Nat → Drawn
  | 0, _, _, res, randoms => .done res randoms
  | turns + 1, i, g, res, randoms =>
      match res[i]? with
      | none => .done res randoms
      | some r =>
          if r.priority ≠ g.priority then
            if g.f ≠ g.l then
              match computeWeight res g.f g.l randoms with
              | .done res randoms => weightLoop turns (i + 1) ⟨i, i, r.priority⟩ res randoms
              | stopped => stopped
            else weightLoop turns (i + 1) ⟨i, i, r.priority⟩ res randoms
          else weightLoop turns (i + 1) { g with l := i } res randoms

def selectWeights (res : List SrvInfo) (randoms : List Nat) : Drawn :=
  weightLoop res.length 0 ⟨0, 0, 0⟩ res randoms

/-! ## What the draws can come to -/

/-- The ranges of the records that a call goes through. -/
def callRanges (res : List SrvInfo) (last : Nat) : List Nat :=
  (res.take (last + 1)).map (weightRange (totalWeight res last))

/-- Whichever numbers are drawn: no range is 0 and no index of `chosen` too large at a record
that the draws can come to, which they do if the ranges before it are spread out. -/
def CallSafe (res : List SrvInfo) (first last : Nat) : Prop :=
  totalWeight res last = 0 ∨
    ∀ i range, (callRanges res last)[i]? = some range → SpreadOut ((callRanges res last).take i) →
      range ≠ 0 ∧ i < last - first + 1

/-- The draws can come to the end. -/
def CallFinishes (res : List SrvInfo) (first last : Nat) : Prop :=
  totalWeight res last = 0 ∨
    SpreadOut (callRanges res last) ∧ (callRanges res last).length ≤ last - first + 1

/-- Values of `random`. -/
def ValidRandoms (randoms : List Nat) : Prop := ∀ random ∈ randoms, random < 2147483648

theorem ValidRandoms.append {draws more : List Nat} (valid : ValidRandoms draws)
    (validMore : ValidRandoms more) : ValidRandoms (draws ++ more) :=
  fun random member => (List.mem_append.mp member).elim (valid random) (validMore random)

/-- What has been chosen are different numbers below the ranges of the records passed. -/
structure ChosenBelow (size totalweight : Nat) (ranges : List Nat) (s : WeightState) : Prop where
  distinct : s.chosen.Nodup
  below : List.Forall₂ (· < ·) s.chosen (s.passed.map (weightRange totalweight))
  room : s.chosen.length ≤ size
  same : (s.passed ++ s.rest).map (weightRange totalweight) = ranges

section Draws

variable {size totalweight : Nat} {behind : List SrvInfo} {ranges : List Nat} {s : WeightState}

theorem ChosenBelow.passed_eq (chosen : ChosenBelow size totalweight ranges s) :
    s.passed.map (weightRange totalweight) = ranges.take s.chosen.length := by
  rw [← chosen.same, List.map_append, chosen.below.length_eq, List.take_left]

theorem ChosenBelow.spreadOut (chosen : ChosenBelow size totalweight ranges s) :
    SpreadOut (ranges.take s.chosen.length) := by
  rw [← drawable_iff, ← chosen.passed_eq]
  exact ⟨s.chosen, chosen.distinct, chosen.below⟩

theorem ChosenBelow.next (chosen : ChosenBelow size totalweight ranges s) {r : SrvInfo}
    {rest : List SrvInfo} (isRest : s.rest = r :: rest) :
    ranges[s.chosen.length]? = some (weightRange totalweight r) := by
  rw [← chosen.same, isRest, List.map_append, chosen.below.length_eq,
    List.getElem?_append_right (Nat.le_refl _), Nat.sub_self]
  rfl

theorem ChosenBelow.atEnd (chosen : ChosenBelow size totalweight ranges s) (isRest : s.rest = []) :
    SpreadOut ranges ∧ ranges.length ≤ size := by
  have all : ranges.length = s.chosen.length := by
    rw [← chosen.same, isRest, List.append_nil, chosen.below.length_eq]
  have spread := chosen.spreadOut
  rw [← all, List.take_length] at spread
  exact ⟨spread, all ▸ chosen.room⟩

theorem drawTurn_ok {s' : WeightState} {random : Nat}
    (turned : drawTurn size totalweight s random = .ok s')
    (chosen : ChosenBelow size totalweight ranges s) :
    ChosenBelow size totalweight ranges s' := by
  unfold drawTurn at turned
  split at turned
  · cases turned
    exact chosen
  · next r rest isRest =>
      split at turned
      · cases turned
      · next nonzero =>
          split at turned
          · cases turned
          · next inside =>
              dsimp only at turned
              split at turned
              · cases turned
                exact chosen
              · next isNew =>
                  cases turned
                  have positive := Nat.pos_of_ne_zero nonzero
                  refine ⟨?_, ?_, ?_, ?_⟩
                  · exact chosen.distinct.append (List.nodup_singleton _)
                      (List.disjoint_singleton.mpr isNew)
                  · rw [List.map_append]
                    exact List.rel_append chosen.below
                      (.cons (Nat.mod_lt random positive) .nil)
                  · rw [List.length_append, List.length_singleton]
                    omega
                  · rw [← chosen.same, isRest]
                    simp [weightRange]

theorem drawTurn_error {why : WeightFault} {random : Nat}
    (turned : drawTurn size totalweight s random = .error why)
    (chosen : ChosenBelow size totalweight ranges s) :
    ∃ i range, ranges[i]? = some range ∧ SpreadOut (ranges.take i) ∧
      ¬(range ≠ 0 ∧ i < size) := by
  unfold drawTurn at turned
  split at turned
  · cases turned
  · next r rest isRest =>
      refine ⟨_, _, chosen.next isRest, chosen.spreadOut, fun safe => ?_⟩
      rw [if_neg safe.1, if_neg (Nat.not_le.mpr safe.2)] at turned
      dsimp only at turned
      split at turned <;> cases turned

/-- Where a run can end, with a fault or at the last record. -/
theorem drawLoop_outcome (randoms : List Nat)
    (chosen : ChosenBelow size totalweight ranges s) :
    (∀ why res, drawLoop size totalweight behind randoms s = .fault why res →
      ∃ i range, ranges[i]? = some range ∧ SpreadOut (ranges.take i) ∧
        ¬(range ≠ 0 ∧ i < size)) ∧
    (∀ res left, drawLoop size totalweight behind randoms s = .done res left →
      SpreadOut ranges ∧ ranges.length ≤ size) := by
  induction randoms generalizing s with
  | nil =>
      rw [drawLoop]
      split
      · next isRest => exact ⟨nofun, fun _ _ _ => chosen.atEnd isRest⟩
      · exact ⟨nofun, nofun⟩
  | cons random randoms ih =>
      rw [drawLoop]
      split
      · next isRest => exact ⟨nofun, fun _ _ _ => chosen.atEnd isRest⟩
      · cases turned : drawTurn size totalweight s random with
        | error why => exact ⟨fun _ _ _ => drawTurn_error turned chosen, nofun⟩
        | ok s' =>
            exact ih (drawTurn_ok turned chosen)

/-- Different numbers below the ranges are chosen as they are drawn. -/
theorem drawLoop_draws {draws : List Nat} {front rest : List SrvInfo}
    (isRest : s.rest = front ++ rest)
    (distinct : (s.chosen ++ draws).Nodup)
    (below : List.Forall₂ (· < ·) draws (front.map (weightRange totalweight)))
    (room : s.chosen.length + draws.length ≤ size) :
    ∃ passed, ∀ more, drawLoop size totalweight behind (draws ++ more) s =
      drawLoop size totalweight behind more ⟨passed, rest, s.chosen ++ draws⟩ := by
  induction draws generalizing s front with
  | nil =>
      cases front with
      | nil =>
          refine ⟨s.passed, fun more => ?_⟩
          rw [List.nil_append, List.append_nil, ← List.nil_append rest, ← isRest]
      | cons r front => cases below
  | cons draw draws ih =>
      cases front with
      | nil => cases below
      | cons r front =>
          rw [List.map_cons, List.forall₂_cons] at below
          rw [List.length_cons] at room
          have isNew : draw ∉ s.chosen := fun member =>
            List.disjoint_of_nodup_append distinct member (List.mem_cons_self ..)
          have turned : drawTurn size totalweight s draw = .ok
              ⟨s.passed ++ [{ r with finalweight := draw }], front ++ rest, s.chosen ++ [draw]⟩ := by
            unfold drawTurn
            rw [isRest]
            dsimp only [List.cons_append]
            rw [if_neg (by omega), if_neg (by omega), Nat.mod_eq_of_lt below.1, if_neg isNew]
          have regroup : s.chosen ++ draw :: draws = s.chosen ++ [draw] ++ draws := by simp
          have room' : (s.chosen ++ [draw]).length + draws.length ≤ size := by
            rw [List.length_append, List.length_singleton]
            omega
          obtain ⟨passed, drawn⟩ := @ih
            ⟨s.passed ++ [{ r with finalweight := draw }], front ++ rest, s.chosen ++ [draw]⟩ front
            rfl (regroup ▸ distinct) below.2 room'
          refine ⟨passed, fun more => ?_⟩
          rw [List.cons_append, drawLoop, if_neg (by rw [isRest]; exact List.cons_ne_nil _ _), turned,
            regroup]
          exact drawn more

end Draws

section Call

variable {res : List SrvInfo} {first last : Nat}

theorem weightRange_lt (totalweight : Nat) (r : SrvInfo) :
    weightRange totalweight r < 2147483648 := by
  have small := r.weight_lt
  have atMost := Nat.div_le_self (r.weight * 100) totalweight
  unfold weightRange
  omega

theorem chosenBelow_start (total : Nat) (size : Nat) (d : List SrvInfo) :
    ChosenBelow size total (d.map (weightRange total)) ⟨[], d, []⟩ :=
  ⟨List.nodup_nil, .nil, Nat.zero_le _, rfl⟩

theorem computeWeight_fault {randoms : List Nat} {why : WeightFault} {after : List SrvInfo}
    (faults : computeWeight res first last randoms = .fault why after) :
    ¬CallSafe res first last := by
  unfold computeWeight at faults
  split at faults
  · cases faults
  · next positive =>
      obtain ⟨i, range, isRange, spread, bad⟩ :=
        (drawLoop_outcome randoms (chosenBelow_start _ _ _)).1 _ _ faults
      rintro (zero | safe)
      · exact positive zero
      · exact bad (safe i range isRange spread)

theorem computeWeight_done {randoms left : List Nat} {after : List SrvInfo}
    (done : computeWeight res first last randoms = .done after left) :
    CallFinishes res first last := by
  unfold computeWeight at done
  split at done
  · next zero => exact Or.inl zero
  · exact Or.inr ((drawLoop_outcome randoms (chosenBelow_start _ _ _)).2 _ _ done)

/-- Distinct draws for the first `n` records of a call. -/
theorem computeWeight_draws {n : Nat} (positive : totalWeight res last ≠ 0)
    (inside : n ≤ (callRanges res last).length) (room : n ≤ last - first + 1)
    (spread : SpreadOut ((callRanges res last).take n)) :
    ∃ draws : List Nat, ValidRandoms draws ∧ ∃ passed chosen, chosen.length = n ∧ ∀ more,
      computeWeight res first last (draws ++ more) =
        drawLoop (last - first + 1) (totalWeight res last) (res.drop (last + 1)) more
          ⟨passed, (res.take (last + 1)).drop n, chosen⟩ := by
  obtain ⟨draws, distinct, below⟩ := (drawable_iff _).mpr spread
  have count : draws.length = n := by
    rw [below.length_eq, List.length_take, Nat.min_eq_left inside]
  refine ⟨draws, ?_, ?_⟩
  · intro draw member
    obtain ⟨j, inDraws, rfl⟩ := List.getElem_of_mem member
    have less := below.get inDraws (below.length_eq ▸ inDraws)
    have isRange : (List.take n (callRanges res last)).get ⟨j, below.length_eq ▸ inDraws⟩ ∈
        callRanges res last := List.mem_of_mem_take (List.get_mem ..)
    obtain ⟨r, _, isRange⟩ := List.mem_map.mp isRange
    exact (isRange ▸ less).trans (weightRange_lt _ r)
  · rw [callRanges, ← List.map_take] at below
    obtain ⟨passed, drawn⟩ := @drawLoop_draws (last - first + 1) (totalWeight res last)
      (res.drop (last + 1)) ⟨[], res.take (last + 1), []⟩ draws
      ((res.take (last + 1)).take n) ((res.take (last + 1)).drop n)
      (List.take_append_drop ..).symm distinct below (by simpa [count] using room)
    refine ⟨passed, draws, count, fun more => ?_⟩
    rw [computeWeight, if_neg positive, drawn]
    rfl

/-- The next turn of a state fails if the range is 0 or `chosen` is full. -/
theorem drawLoop_fault {size totalweight : Nat} {behind : List SrvInfo} {s : WeightState}
    {r : SrvInfo} {rest : List SrvInfo} (isRest : s.rest = r :: rest)
    (bad : ¬(weightRange totalweight r ≠ 0 ∧ s.chosen.length < size)) (random : Nat)
    (randoms : List Nat) :
    ∃ why after, drawLoop size totalweight behind (random :: randoms) s = .fault why after := by
  have fails : ∃ why, drawTurn size totalweight s random = .error why := by
    unfold drawTurn
    rw [isRest]
    dsimp only
    split
    · exact ⟨_, rfl⟩
    · next nonzero =>
        have full : size ≤ s.chosen.length := Nat.le_of_not_lt fun room => bad ⟨nonzero, room⟩
        rw [if_pos full]
        exact ⟨_, rfl⟩
  obtain ⟨why, fails⟩ := fails
  rw [drawLoop, if_neg (by rw [isRest]; exact List.cons_ne_nil _ _), fails]
  exact ⟨why, _, rfl⟩

/-- A call that is not safe fails for some random values. -/
theorem computeWeight_faults (notSafe : ¬CallSafe res first last) :
    ∃ randoms : List Nat, ValidRandoms randoms ∧ ∃ why after,
      computeWeight res first last randoms = .fault why after := by
  obtain ⟨positive, notSafe⟩ := not_or.mp notSafe
  simp only [not_forall] at notSafe
  obtain ⟨i, range, isRange, spread, bad⟩ := notSafe
  have inRanges : i < (callRanges res last).length := (List.getElem?_eq_some_iff.mp isRange).1
  -- The index of `chosen` fails first if it is the smaller one.
  generalize isFirst : min i (last - first + 1) = n
  have early : SpreadOut ((callRanges res last).take n) := by
    rw [← drawable_iff] at spread ⊢
    have earlier := spread.take (last - first + 1)
    rwa [List.take_take, Nat.min_comm, isFirst] at earlier
  have room : n ≤ last - first + 1 := by omega
  obtain ⟨draws, valid, passed, chosen, count, reaches⟩ :=
    computeWeight_draws positive (by omega) room early
  have inRecords : n < (res.take (last + 1)).length := by
    rw [callRanges, List.length_map] at inRanges
    omega
  refine ⟨draws ++ [0], valid.append ?_, ?_⟩
  · intro random isZero
    rw [List.mem_singleton.mp isZero]
    exact Nat.succ_pos _
  · rw [reaches]
    refine drawLoop_fault (List.drop_eq_getElem_cons inRecords) (fun fine => bad ?_) 0 []
    dsimp only at fine
    have same : n = i := by omega
    subst same
    rw [callRanges, List.getElem?_map, List.getElem?_eq_getElem inRecords] at isRange
    cases isRange
    exact ⟨fine.1, by omega⟩

theorem computeWeight_finishes (finishes : CallFinishes res first last) :
    ∃ draws : List Nat, ValidRandoms draws ∧ ∃ after, ∀ more,
      computeWeight res first last (draws ++ more) = .done after more := by
  by_cases zero : totalWeight res last = 0
  · refine ⟨[], nofun, res, fun more => ?_⟩
    rw [computeWeight, if_pos zero]
    rfl
  · obtain ⟨spread, room⟩ := finishes.resolve_left zero
    rw [← List.take_length (l := callRanges res last)] at spread
    obtain ⟨draws, valid, passed, chosen, _, reaches⟩ :=
      computeWeight_draws zero (Nat.le_refl _) room spread
    refine ⟨draws, valid, passed ++ res.drop (last + 1), fun more => ?_⟩
    rw [reaches, callRanges, List.length_map, List.drop_length]
    cases more with
    | nil => rfl
    | cons random more => rfl

end Call

/-! ## What a call leaves alone -/

/-- A record but for its final weight. -/
def SrvInfo.unweighted (r : SrvInfo) : SrvInfo := { r with finalweight := 0 }

/-- Two tables with the same records but for the final weights. -/
def SameRecords (d d' : List SrvInfo) : Prop :=
  d.map SrvInfo.unweighted = d'.map SrvInfo.unweighted

theorem SameRecords.map_eq {α : Type} {d d' : List SrvInfo} (same : SameRecords d d')
    {field : SrvInfo → α} (fixed : ∀ r, field r.unweighted = field r) :
    d.map field = d'.map field := by
  have through : ∀ d : List SrvInfo, d.map field = (d.map SrvInfo.unweighted).map field := by
    intro d
    rw [List.map_map]
    exact List.map_congr_left fun r _ => (fixed r).symm
  rw [through d, through d', same]

section SameCalls

variable {d d' : List SrvInfo} (same : SameRecords d d') (first last : Nat)

include same

theorem SameRecords.totalWeight : totalWeight d last = totalWeight d' last := by
  unfold Pkgng.totalWeight
  rw [List.map_take, List.map_take, same.map_eq fun _ => rfl]

theorem SameRecords.callRanges : callRanges d last = callRanges d' last := by
  unfold Pkgng.callRanges
  rw [same.totalWeight, List.map_take, List.map_take, same.map_eq fun _ => rfl]

theorem SameRecords.callSafe : CallSafe d first last ↔ CallSafe d' first last := by
  unfold CallSafe
  rw [same.totalWeight, same.callRanges]

theorem SameRecords.callFinishes : CallFinishes d first last ↔ CallFinishes d' first last := by
  unfold CallFinishes
  rw [same.totalWeight, same.callRanges]

end SameCalls

/-- The loops leave the records behind the last alone, and everything but the final weights. -/
theorem drawLoop_records (size totalweight : Nat) (behind : List SrvInfo) (randoms : List Nat)
    (s : WeightState) :
    ∃ front, (drawLoop size totalweight behind randoms s).records = front ++ behind ∧
      SameRecords front (s.passed ++ s.rest) := by
  induction randoms generalizing s with
  | nil =>
      rw [drawLoop]
      split
      · next isRest => exact ⟨s.passed, rfl, by rw [isRest, List.append_nil]; rfl⟩
      · exact ⟨s.passed ++ s.rest, rfl, rfl⟩
  | cons random randoms ih =>
      rw [drawLoop]
      split
      · next isRest => exact ⟨s.passed, rfl, by rw [isRest, List.append_nil]; rfl⟩
      · cases turned : drawTurn size totalweight s random with
        | error why => exact ⟨s.passed ++ s.rest, rfl, rfl⟩
        | ok s' =>
            obtain ⟨front, isFront, same⟩ := ih s'
            refine ⟨front, isFront, Eq.trans same ?_⟩
            unfold drawTurn at turned
            split at turned
            · cases turned
              rfl
            · next r rest isRest =>
                split at turned
                · cases turned
                · split at turned
                  · cases turned
                  · dsimp only at turned
                    split at turned
                    · cases turned
                      rfl
                    · cases turned
                      rw [isRest]
                      simp [SrvInfo.unweighted]

theorem computeWeight_records (res : List SrvInfo) (first last : Nat) (randoms : List Nat) :
    ∃ front, (computeWeight res first last randoms).records = front ++ res.drop (last + 1) ∧
      SameRecords front (res.take (last + 1)) := by
  unfold computeWeight
  split
  · exact ⟨res.take (last + 1), (List.take_append_drop ..).symm, rfl⟩
  · exact drawLoop_records ..

theorem computeWeight_same (res : List SrvInfo) (first last : Nat) (randoms : List Nat) :
    SameRecords (computeWeight res first last randoms).records res := by
  obtain ⟨front, isFront, same⟩ := computeWeight_records res first last randoms
  unfold SameRecords at same ⊢
  rw [isFront, List.map_append, same, ← List.map_append, List.take_append_drop]

/-! ## The calls -/

/-- The calls of `compute_weight` that the loop over these priorities makes. -/
def weightCalls : List Nat → Nat → GroupState → List (Nat × Nat)
  | [], _, _ => []
  | priority :: rest, i, g =>
      if priority ≠ g.priority then
        if g.f ≠ g.l then (g.f, g.l) :: weightCalls rest (i + 1) ⟨i, i, priority⟩
        else weightCalls rest (i + 1) ⟨i, i, priority⟩
      else weightCalls rest (i + 1) { g with l := i }

def runCalls : List (Nat × Nat) → List SrvInfo → List Nat → Drawn
  | [], res, randoms => .done res randoms
  | (first, last) :: calls, res, randoms =>
      match computeWeight res first last randoms with
      | .done res randoms => runCalls calls res randoms
      | stopped => stopped

theorem weightLoop_eq (turns i : Nat) (g : GroupState) (res : List SrvInfo) (randoms : List Nat)
    (enough : i + turns = res.length) :
    weightLoop turns i g res randoms =
      runCalls (weightCalls ((res.map SrvInfo.priority).drop i) i g) res randoms := by
  induction turns generalizing i g res randoms with
  | zero =>
      rw [List.drop_eq_nil_of_le (by rw [List.length_map]; omega)]
      rfl
  | succ turns ih =>
      have inside : i < res.length := by omega
      rw [weightLoop, List.getElem?_eq_getElem inside,
        List.drop_eq_getElem_cons (by rw [List.length_map]; exact inside), List.getElem_map,
        weightCalls]
      dsimp only
      split
      · split
        · rw [runCalls]
          have same := computeWeight_same res g.f g.l randoms
          cases drawn : computeWeight res g.f g.l randoms with
          | fault why after => rfl
          | waiting after => rfl
          | done after left =>
              rw [drawn] at same
              have priorities : after.map SrvInfo.priority = res.map SrvInfo.priority :=
                SameRecords.map_eq same fun _ => rfl
              have count : after.length = res.length := by
                simpa using congrArg List.length priorities
              dsimp only
              rw [ih _ _ _ _ (by omega), priorities]
        · exact ih _ _ _ _ (by omega)
      · exact ih _ _ _ _ (by omega)

/-- The calls of `dns_getsrvinfo` for its sorted records. -/
def srvCalls (res : List SrvInfo) : List (Nat × Nat) :=
  weightCalls (res.map SrvInfo.priority) 0 ⟨0, 0, 0⟩

theorem selectWeights_eq (res : List SrvInfo) (randoms : List Nat) :
    selectWeights res randoms = runCalls (srvCalls res) res randoms :=
  weightLoop_eq res.length 0 ⟨0, 0, 0⟩ res randoms (Nat.zero_add _)

theorem runCalls_same (calls : List (Nat × Nat)) (res : List SrvInfo) (randoms : List Nat) :
    SameRecords (runCalls calls res randoms).records res := by
  induction calls generalizing res randoms with
  | nil => rfl
  | cons call calls ih =>
      obtain ⟨first, last⟩ := call
      rw [runCalls]
      have same := computeWeight_same res first last randoms
      cases drawn : computeWeight res first last randoms with
      | fault why after =>
          rw [drawn] at same
          exact same
      | waiting after =>
          rw [drawn] at same
          exact same
      | done mid left =>
          rw [drawn] at same
          exact Eq.trans (ih mid left) same

/-- The selection keeps the records in their places. -/
theorem selectWeights_same (res : List SrvInfo) (randoms : List Nat) :
    SameRecords (selectWeights res randoms).records res := by
  rw [selectWeights_eq]
  exact runCalls_same ..

/-- A run fails only in a call that is not safe, behind calls that can finish. -/
theorem runCalls_fault {calls : List (Nat × Nat)} {res after : List SrvInfo} {randoms : List Nat}
    {why : WeightFault} (faults : runCalls calls res randoms = .fault why after) :
    ∃ before call later, calls = before ++ call :: later ∧
      (∀ earlier ∈ before, CallFinishes res earlier.1 earlier.2) ∧
        ¬CallSafe res call.1 call.2 := by
  induction calls generalizing res randoms with
  | nil => cases faults
  | cons call calls ih =>
      obtain ⟨first, last⟩ := call
      rw [runCalls] at faults
      have same := computeWeight_same res first last randoms
      cases drawn : computeWeight res first last randoms with
      | fault why after =>
          exact ⟨[], (first, last), calls, rfl, nofun, computeWeight_fault drawn⟩
      | waiting after =>
          rw [drawn] at faults
          cases faults
      | done mid left =>
          rw [drawn] at faults same
          obtain ⟨before, call, later, split, finish, notSafe⟩ := ih faults
          refine ⟨(first, last) :: before, call, later, by rw [split]; rfl, ?_, ?_⟩
          · intro earlier member
            rcases List.mem_cons.mp member with rfl | member
            · exact computeWeight_done drawn
            · exact (SameRecords.callFinishes same _ _).mp (finish earlier member)
          · exact fun safe => notSafe ((SameRecords.callSafe same _ _).mpr safe)

/-- Calls that can finish do so for some random values, with others left for what follows. -/
theorem runCalls_done {calls : List (Nat × Nat)} {res : List SrvInfo}
    (finish : ∀ call ∈ calls, CallFinishes res call.1 call.2) :
    ∃ draws : List Nat, ValidRandoms draws ∧ ∃ after, SameRecords after res ∧
      ∀ later more, runCalls (calls ++ later) res (draws ++ more) = runCalls later after more := by
  induction calls generalizing res with
  | nil => exact ⟨[], nofun, res, rfl, fun later more => rfl⟩
  | cons call calls ih =>
      obtain ⟨first, last⟩ := call
      obtain ⟨draws, valid, mid, drawn⟩ := computeWeight_finishes (finish _ (List.mem_cons_self ..))
      have same := computeWeight_same res first last (draws ++ [])
      rw [drawn] at same
      obtain ⟨others, validOthers, after, sameAfter, run⟩ := @ih mid fun call member =>
        (SameRecords.callFinishes same _ _).mpr (finish call (List.mem_cons_of_mem _ member))
      refine ⟨draws ++ others, valid.append validOthers, after, Eq.trans sameAfter same, ?_⟩
      intro later more
      rw [List.cons_append, runCalls, List.append_assoc, drawn]
      exact run later more

theorem runCalls_faults_iff (calls : List (Nat × Nat)) (res : List SrvInfo) :
    (∃ randoms, ValidRandoms randoms ∧ ∃ why after, runCalls calls res randoms = .fault why after) ↔
      ∃ before call later, calls = before ++ call :: later ∧
        (∀ earlier ∈ before, CallFinishes res earlier.1 earlier.2) ∧
          ¬CallSafe res call.1 call.2 := by
  constructor
  · rintro ⟨randoms, _, why, after, faults⟩
    exact runCalls_fault faults
  · rintro ⟨before, ⟨first, last⟩, later, rfl, finish, notSafe⟩
    obtain ⟨draws, valid, mid, same, run⟩ := runCalls_done finish
    obtain ⟨randoms, validMore, why, after, faults⟩ := computeWeight_faults
      fun safe => notSafe ((SameRecords.callSafe same first last).mp safe)
    refine ⟨draws ++ randoms, valid.append validMore, why, after, ?_⟩
    rw [run, runCalls, faults]

theorem runCalls_done_iff (calls : List (Nat × Nat)) (res : List SrvInfo) :
    (∃ randoms, ValidRandoms randoms ∧ ∃ after left,
        runCalls calls res randoms = .done after left) ↔
      ∀ call ∈ calls, CallFinishes res call.1 call.2 := by
  constructor
  · rintro ⟨randoms, -, after, left, done⟩
    induction calls generalizing res randoms with
    | nil => exact nofun
    | cons call calls ih =>
        obtain ⟨first, last⟩ := call
        rw [runCalls] at done
        have same := computeWeight_same res first last randoms
        cases drawn : computeWeight res first last randoms with
        | fault why after =>
            rw [drawn] at done
            cases done
        | waiting after =>
            rw [drawn] at done
            cases done
        | done mid rest =>
            rw [drawn] at done same
            intro call member
            rcases List.mem_cons.mp member with rfl | member
            · exact computeWeight_done drawn
            · exact (SameRecords.callFinishes same _ _).mp (ih mid rest done call member)
  · intro finish
    obtain ⟨draws, valid, after, _, run⟩ := runCalls_done finish
    have ended := run [] []
    rw [List.append_nil, List.append_nil] at ended
    exact ⟨draws, valid, after, [], ended⟩

end Pkgng
