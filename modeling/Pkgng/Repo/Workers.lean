import Pkgng.Lib.Consecutive
import Pkgng.Lib.CStrings
import Pkgng.Repo.CreateComplete

/-!
# The workers that create a repository

The loop of `pkg_create_repo` that splits the packages over the workers.  `cur_jobs`,
`remain_jobs` and `remain` are of type `int`, the number of packages is a `size_t`.
-/

set_option autoImplicit false

namespace Pkgng

open Lib

/-- `--` on an `int`; `none` where it overflows. -/
def decrement (value : Int) : Option Int := if value = -2147483648 then none else some (value - 1)

/-- The variables of the loop: `fts_cur` and `fts_start` as positions in the list, and the
arguments of the calls of `pkg_create_repo_worker`; `nworker` is their number. -/
structure Launching where
  pos : Nat := 0
  start : Nat := 0
  curJobs : Int
  remainJobs : Int
  remain : Int
  ranges : List Range := []
deriving DecidableEq, Repr

/-- `cur_jobs` for what is left of `remain`. -/
def workerJobs (tasksPerWorker : Nat) (remain : Int) : Int :=
  toInt32 (if 0 < remain then (tasksPerWorker + 1 : Nat) else tasksPerWorker)

/-- A turn of the loop. -/
def launchStep (tasksPerWorker : Nat) (state : Launching) : Option Launching := do
  let remainJobs ← decrement state.remainJobs
  if remainJobs = 0 then
    let remain ← decrement state.remain
    let curJobs := workerJobs tasksPerWorker remain
    some
      { pos := state.pos + 1
        start := state.pos + 1
        curJobs
        remainJobs := curJobs
        remain
        ranges := state.ranges ++ [⟨state.start, toSizeT state.curJobs⟩] }
  else some { state with pos := state.pos + 1, remainJobs }

def launchLoop (tasksPerWorker : Nat) : Nat → Launching → Option Launching
  | 0, state => some state
  | left + 1, state => (launchStep tasksPerWorker state).bind (launchLoop tasksPerWorker left)

/-- The ranges handed to the workers; `none` where a counter overflows. -/
def launchRanges (workers len : Nat) : Option (List Range) :=
  let numWorkers := min workers len
  let tasksPerWorker := len / numWorkers
  let remain : Int := (len % numWorkers : Nat)
  let curJobs := workerJobs tasksPerWorker remain
  (launchLoop tasksPerWorker len { curJobs, remainJobs := curJobs, remain }).map Launching.ranges

/-- `WORKERS_COUNT`, or the number of processors. -/
structure WorkersCount where
  count : Nat
  positive : 0 < count
  isInt : count < 2147483648

/-- The number of packages found. -/
structure PackagesCount where
  len : Nat
  positive : 0 < len

/-- The workers, each with its place in `pfd`, take every package once. -/
structure Partitions (numWorkers len : Nat) (ranges : List Range) : Prop where
  started : ranges.length = numWorkers
  pfd : ∀ nworker < ranges.length, nworker < numWorkers
  once : ∀ item < len, ranges.countP (·.covers item) = 1
  inside : ∀ range ∈ ranges, range.start + range.count ≤ len

def PartitionsWork (workers : WorkersCount) (packages : PackagesCount) : Prop :=
  ∃ ranges, launchRanges workers.count packages.len = some ranges ∧
    Partitions (min workers.count packages.len) packages.len ranges

/-! ## The shares -/

/-- One worker's share of the list. -/
theorem launchLoop_share {tasksPerWorker jobs left : Nat} {remain : Int} {pos start : Nat}
    {curJobs : Int} {ranges : List Range} (positive : 0 < jobs) (notLeast : -2147483648 < remain) :
    launchLoop tasksPerWorker (jobs + left)
        { pos, start, curJobs, remainJobs := jobs, remain, ranges } =
      launchLoop tasksPerWorker left
        { pos := pos + jobs
          start := pos + jobs
          curJobs := workerJobs tasksPerWorker (remain - 1)
          remainJobs := workerJobs tasksPerWorker (remain - 1)
          remain := remain - 1
          ranges := ranges ++ [⟨start, toSizeT curJobs⟩] } := by
  induction jobs generalizing pos with
  | zero => cases positive
  | succ jobs ih =>
      have decremented : decrement ((jobs + 1 : Nat) : Int) = some (jobs : Int) := by
        rw [decrement, if_neg (by omega)]
        exact congrArg some (by omega)
      have lessRemain : decrement remain = some (remain - 1) := by
        rw [decrement, if_neg (Int.ne_of_gt notLeast)]
      rw [Nat.add_right_comm, launchLoop, launchStep]
      simp only [decremented, Option.bind_eq_bind, Option.bind_some]
      cases jobs with
      | zero => rw [if_pos Int.natCast_zero, lessRemain, Option.bind_some, Option.bind_some,
          Nat.zero_add, Nat.zero_add]
      | succ jobs =>
          rw [if_neg (by omega), Option.bind_some, ih (Nat.succ_pos jobs), Nat.add_right_comm pos]
          rfl

/-- The variables at the start of a worker's share. -/
def Launching.atShare (tasksPerWorker pos : Nat) (remain : Int) (ranges : List Range) :
    Launching :=
  { pos
    start := pos
    curJobs := workerJobs tasksPerWorker remain
    remainJobs := workerJobs tasksPerWorker remain
    remain
    ranges }

theorem workerJobs_more {tasksPerWorker : Nat} {remain : Int} (more : 0 < remain)
    (fits : tasksPerWorker + 1 < 2147483648) :
    workerJobs tasksPerWorker remain = (tasksPerWorker + 1 : Nat) := by
  rw [workerJobs, if_pos more, toInt32_eq fits]

theorem workerJobs_even {tasksPerWorker : Nat} {remain : Int} (even : ¬0 < remain)
    (fits : tasksPerWorker < 2147483648) : workerJobs tasksPerWorker remain = tasksPerWorker := by
  rw [workerJobs, if_neg even, toInt32_eq fits]

/-- The turns of one share. -/
theorem launchLoop_atShare {tasksPerWorker jobs left pos : Nat} {remain : Int}
    {ranges : List Range} (positive : 0 < jobs) (fits : jobs < 2147483648)
    (isJobs : workerJobs tasksPerWorker remain = jobs) (notLeast : -2147483648 < remain) :
    launchLoop tasksPerWorker (jobs + left) (.atShare tasksPerWorker pos remain ranges) =
      launchLoop tasksPerWorker left
        (.atShare tasksPerWorker (pos + jobs) (remain - 1) (ranges ++ [⟨pos, jobs⟩])) := by
  rw [Launching.atShare, isJobs, launchLoop_share positive notLeast, toSizeT_eq (Nat.le_of_lt (Nat.lt_of_lt_of_le fits (by decide)))]
  rfl

/-- The shares of the workers that are not started yet, of whom `remain` get one package more. -/
theorem launchLoop_shares {tasksPerWorker : Nat} (positive : 0 < tasksPerWorker)
    (fits : tasksPerWorker < 2147483648) (workers pos : Nat) (remain : Int) (ranges : List Range)
    (few : remain ≤ workers) (low : -2147483648 ≤ remain - workers)
    (fitsMore : 0 < remain → tasksPerWorker + 1 < 2147483648) :
    ∃ final spans,
      launchLoop tasksPerWorker (workers * tasksPerWorker + remain.toNat)
        (.atShare tasksPerWorker pos remain ranges) = some final ∧
      final.ranges = ranges ++ spans ∧ spans.length = workers ∧
      Consecutive pos spans (pos + (workers * tasksPerWorker + remain.toNat)) := by
  induction workers generalizing pos remain ranges with
  | zero =>
      have none : remain.toNat = 0 := by omega
      rw [none, Nat.zero_mul]
      exact ⟨_, [], rfl, (List.append_nil _).symm, rfl, .nil pos⟩
  | succ workers ih =>
      obtain ⟨jobs, isJobs, some, small, left⟩ : ∃ jobs : Nat,
          workerJobs tasksPerWorker remain = jobs ∧ 0 < jobs ∧ jobs < 2147483648 ∧
          (workers + 1) * tasksPerWorker + remain.toNat =
            jobs + (workers * tasksPerWorker + (remain - 1).toNat) := by
        rw [Nat.succ_mul]
        by_cases more : 0 < remain
        · exact ⟨_, workerJobs_more more (fitsMore more), Nat.succ_pos _, fitsMore more, by omega⟩
        · exact ⟨_, workerJobs_even more fits, positive, fits, by omega⟩
      obtain ⟨final, spans, ends, handed, started, consecutive⟩ :=
        ih (pos + jobs) (remain - 1) (ranges ++ [⟨pos, jobs⟩]) (by omega) (by omega)
          fun more => fitsMore (by omega)
      refine ⟨final, ⟨pos, jobs⟩ :: spans, ?_, ?_, ?_, ?_⟩
      · rw [left, launchLoop_atShare some small isJobs (by omega), ends]
      · rw [handed, List.append_assoc, List.singleton_append]
      · rw [List.length_cons, started]
      · rw [left, ← Nat.add_assoc]
        exact .cons consecutive

/-- The largest share fits an `int`. -/
theorem shares_fit {numWorkers len : Nat} (fits : len ≤ 2147483647 * numWorkers) :
    len / numWorkers < 2147483648 ∧
      (0 < len % numWorkers → len / numWorkers + 1 < 2147483648) := by
  have split : numWorkers * (len / numWorkers) + len % numWorkers = len :=
    Nat.div_add_mod len numWorkers
  have bound := Nat.div_le_of_le_mul (Nat.mul_comm 2147483647 numWorkers ▸ fits)
  refine ⟨Nat.lt_succ_of_le bound, fun more => ?_⟩
  by_contra large
  have equal : len / numWorkers = 2147483647 := by omega
  rw [equal] at split
  omega

theorem launchRanges_eq (workers len : Nat) :
    launchRanges workers len =
      (launchLoop (len / min workers len) len
        (.atShare (len / min workers len) 0 (len % min workers len : Nat) [])).map
        Launching.ranges := rfl

/-- Where no share passes the largest `int`, the list is partitioned. -/
theorem launchRanges_partitions {workers len : Nat} (some : 0 < workers)
    (isInt : workers < 2147483648) (found : 0 < len)
    (fits : len ≤ 2147483647 * min workers len) :
    ∃ ranges, launchRanges workers len = .some ranges ∧
      Partitions (min workers len) len ranges := by
  rw [launchRanges_eq]
  generalize isNum : min workers len = numWorkers at fits ⊢
  have started : 0 < numWorkers := by omega
  obtain ⟨even, more⟩ := shares_fit fits
  have split : numWorkers * (len / numWorkers) + len % numWorkers = len :=
    Nat.div_add_mod len numWorkers
  have rest := Nat.mod_lt len started
  have full : 0 < len / numWorkers := Nat.div_pos (by omega) started
  generalize len / numWorkers = tasksPerWorker at split full even more ⊢
  generalize len % numWorkers = remain at split rest more ⊢
  obtain ⟨final, spans, ends, handed, all, consecutive⟩ :=
    launchLoop_shares full even numWorkers 0 remain [] (by omega) (by omega)
      fun positive => more (by omega)
  rw [Int.toNat_natCast, split] at ends consecutive
  rw [Nat.zero_add] at consecutive
  rw [List.nil_append] at handed
  refine ⟨spans, ?_, ?_⟩
  · rw [ends, Option.map_some, handed]
  · exact
      { started := all
        pfd := fun nworker below => all ▸ below
        once := by
          intro item below
          rw [consecutive.countP, if_pos ⟨Nat.zero_le _, below⟩]
        inside := consecutive.inside }

/-! ## Shares that do not fit -/

/-- What holds before every turn, whatever the numbers are. -/
structure Launching.Short (state : Launching) : Prop where
  curJobs : state.curJobs < 2147483648
  remainJobs : state.remainJobs ≤ state.curJobs
  ranges : ∀ range ∈ state.ranges, range.count ≤ 2147483647

theorem workerJobs_lt (tasksPerWorker : Nat) (remain : Int) :
    workerJobs tasksPerWorker remain < 2147483648 := toInt32_lt _

theorem launchStep_short {tasksPerWorker : Nat} {state next : Launching} (short : state.Short)
    (stepped : launchStep tasksPerWorker state = some next) : next.Short := by
  unfold launchStep decrement at stepped
  by_cases least : state.remainJobs = -2147483648
  · simp [least] at stepped
  simp only [if_neg least, Option.bind_eq_bind, Option.bind_some] at stepped
  have ordered := short.remainJobs
  have small := short.curJobs
  by_cases last : state.remainJobs - 1 = 0
  · rw [if_pos last] at stepped
    by_cases leastRemain : state.remain = -2147483648
    · simp [leastRemain] at stepped
    rw [if_neg leastRemain, Option.bind_some, Option.some.injEq] at stepped
    subst stepped
    refine ⟨workerJobs_lt _ _, Int.le_refl _, ?_⟩
    intro range member
    rcases List.mem_append.mp member with earlier | new
    · exact short.ranges range earlier
    · rw [List.mem_singleton.mp new]
      change toSizeT state.curJobs ≤ 2147483647
      unfold toSizeT
      omega
  · rw [if_neg last, Option.some.injEq] at stepped
    subst stepped
    exact ⟨small, by change state.remainJobs - 1 ≤ state.curJobs; omega, short.ranges⟩

theorem launchLoop_short {tasksPerWorker left : Nat} {state final : Launching}
    (short : state.Short) (ends : launchLoop tasksPerWorker left state = some final) :
    final.Short := by
  induction left generalizing state with
  | zero => exact Option.some.inj ends ▸ short
  | succ left ih =>
      obtain ⟨next, stepped, later⟩ := Option.bind_eq_some_iff.mp ends
      exact ih (launchStep_short short stepped) later

/-- No worker is handed more packages than the largest `int`. -/
theorem launchRanges_short {workers len : Nat} {ranges : List Range}
    (launched : launchRanges workers len = some ranges) :
    ∀ range ∈ ranges, range.count ≤ 2147483647 := by
  obtain ⟨final, ends, isRanges⟩ := Option.map_eq_some_iff.mp launched
  subst isRanges
  exact (launchLoop_short ⟨workerJobs_lt _ _, Int.le_refl _, List.forall_mem_nil _⟩ ends).ranges

theorem partitionsWork_le {workers : WorkersCount} {packages : PackagesCount}
    (work : PartitionsWork workers packages) :
    packages.len ≤ 2147483647 * min workers.count packages.len := by
  obtain ⟨ranges, launched, partitions⟩ := work
  rw [← partitions.started]
  refine le_of_covered ?_ (launchRanges_short launched)
  intro item below
  have once := partitions.once item below
  exact List.countP_pos_iff.mp (by omega)

/-- The loop splits the list as it should exactly when the largest share fits an `int`. -/
theorem partitionsWork_iff (workers : WorkersCount) (packages : PackagesCount) :
    PartitionsWork workers packages ↔
      packages.len ≤ 2147483647 * min workers.count packages.len :=
  ⟨partitionsWork_le,
    launchRanges_partitions workers.positive workers.isInt packages.positive⟩

/-- One worker for one package more than the largest `int`. -/
theorem intMaxPackages_not_partitionsWork :
    ¬∀ (workers : WorkersCount) (packages : PackagesCount), PartitionsWork workers packages := by
  intro all
  have fits := partitionsWork_le
    (all ⟨1, by decide, by decide⟩ ⟨2147483648, by decide⟩)
  exact absurd fits (by decide)

/-! ## The packages of each worker -/

section Packages

variable {Item : Type}

/-- The package files of a range. -/
def Range.files (files : List Item) (range : Range) : List Item :=
  (files.drop range.start).take range.count

theorem workerJobs_eq {tasksPerWorker : Nat} {remain : Int} (fits : tasksPerWorker < 2147483648)
    (fitsMore : 0 < remain → tasksPerWorker + 1 < 2147483648) :
    workerJobs tasksPerWorker remain =
      if remain > 0 then (tasksPerWorker + 1 : Int) else tasksPerWorker := by
  by_cases more : 0 < remain
  · rw [workerJobs_more more (fitsMore more), if_pos more, Int.natCast_add, Int.natCast_one]
  · rw [workerJobs_even more fits, if_neg more]

theorem launchLoop_files (files : List Item) {tasksPerWorker left : Nat}
    (fits : tasksPerWorker < 2147483648) {state final : Launching}
    (ends : launchLoop tasksPerWorker left state = some final)
    (fitsMore : 0 < state.remain → tasksPerWorker + 1 < 2147483648)
    (isNat : 0 ≤ state.curJobs) (isInt : state.curJobs < 2147483648)
    (atEnd : state.pos + left = files.length) :
    ∃ spans, final.ranges = state.ranges ++ spans ∧
      launchWorkers tasksPerWorker state.curJobs state.remainJobs state.remain
        (files.drop state.start) (files.drop state.pos) = spans.map (Range.files files) := by
  induction left generalizing state with
  | zero =>
      have none : files.drop state.pos = [] := List.drop_of_length_le (by omega)
      rw [← Option.some.inj ends, none]
      exact ⟨[], (List.append_nil _).symm, rfl⟩
  | succ left ih =>
      obtain ⟨next, stepped, later⟩ := Option.bind_eq_some_iff.mp ends
      have inFiles : state.pos < files.length := by omega
      rw [List.drop_eq_getElem_cons inFiles, launchWorkers]
      unfold launchStep decrement at stepped
      by_cases least : state.remainJobs = -2147483648
      · simp [least] at stepped
      simp only [if_neg least, Option.bind_eq_bind, Option.bind_some] at stepped
      by_cases last : state.remainJobs - 1 = 0
      · rw [if_pos last] at stepped ⊢
        by_cases leastRemain : state.remain = -2147483648
        · simp [leastRemain] at stepped
        rw [if_neg leastRemain, Option.bind_some, Option.some.injEq] at stepped
        subst stepped
        have nextMore : 0 < state.remain - 1 → tasksPerWorker + 1 < 2147483648 :=
          fun more => fitsMore (by omega)
        have jobs := workerJobs_eq fits nextMore
        have jobsNat : 0 ≤ workerJobs tasksPerWorker (state.remain - 1) := by
          rw [jobs]
          split <;> omega
        obtain ⟨spans, handed, split⟩ := ih later nextMore jobsNat (workerJobs_lt _ _)
          (by dsimp only; omega)
        refine ⟨⟨state.start, toSizeT state.curJobs⟩ :: spans, ?_, ?_⟩
        · rw [handed, List.append_assoc, List.singleton_append]
        · have count : toSizeT state.curJobs = state.curJobs.toNat := by
            unfold toSizeT
            omega
          rw [List.map_cons, ← split, Range.files, count]
          dsimp only
          rw [jobs]
      · rw [if_neg last] at stepped ⊢
        rw [Option.some.injEq] at stepped
        subst stepped
        exact ih later fitsMore isNat isInt (by dsimp only; omega)

/-- Where the shares fit an `int`, the ranges are the lists that `splitTasks` hands out. -/
theorem splitTasks_eq_ranges {workers : Nat} {files : List Item} (some : 0 < workers)
    (isInt : workers < 2147483648) (found : 0 < files.length)
    (fits : files.length ≤ 2147483647 * min workers files.length) :
    ∃ ranges, launchRanges workers files.length = .some ranges ∧
      splitTasks workers files = .some (ranges.map (Range.files files)) := by
  obtain ⟨ranges, launched, -⟩ := launchRanges_partitions some isInt found fits
  refine ⟨ranges, launched, ?_⟩
  rw [launchRanges_eq] at launched
  obtain ⟨final, ends, isRanges⟩ := Option.map_eq_some_iff.mp launched
  unfold splitTasks
  generalize isNum : min workers files.length = numWorkers at fits ends ⊢
  have started : 0 < numWorkers := by omega
  obtain ⟨even, more⟩ := shares_fit fits
  have full : 0 < files.length / numWorkers := Nat.div_pos (by omega) started
  have fitsMore : 0 < ((files.length % numWorkers : Nat) : Int) →
      files.length / numWorkers + 1 < 2147483648 := fun positive => more (by omega)
  have jobs := workerJobs_eq even fitsMore
  obtain ⟨spans, handed, split⟩ := launchLoop_files files even ends fitsMore
    (by rw [Launching.atShare, jobs]; dsimp only; split <;> omega) (workerJobs_lt _ _)
    (Nat.zero_add _)
  dsimp only [Launching.atShare] at handed split
  rw [List.nil_append, isRanges] at handed
  rw [jobs, List.drop_zero, ← handed] at split
  dsimp only
  rw [if_pos ⟨Nat.ne_of_gt found, full⟩, ← split]
  simp only [gt_iff_lt, Int.natCast_pos]

end Packages

end Pkgng
