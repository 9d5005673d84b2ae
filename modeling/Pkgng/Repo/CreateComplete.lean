import Pkgng.Repo.Create

/-!
# No package missing from a created repository

How `pkg_create_repo` hands the package files to its workers, and what a run that
returns `EPKG_OK` has in its digest list.  The parent counts the workers that are gone
and does not look at their exit status, so a worker that stops early takes its packages
with it; where none does, each package file that `pkg_open` accepts has one record.
-/

set_option autoImplicit false

namespace Pkgng

open Lib

/-! ## Handing out the packages -/

section Launch

variable {Item : Type}

/-- The loop over the package files.  `ftsStart` is the first one that no worker has,
and a worker takes `curJobs` of them from there. -/
def launchWorkers (tasksPerWorker : Nat) (curJobs remainJobs remain : Int)
    (ftsStart : List Item) : List Item → List (List Item)
  | [] => []
  | _ :: next =>
      if remainJobs - 1 = 0 then
        let jobs : Int := if remain - 1 > 0 then tasksPerWorker + 1 else tasksPerWorker
        ftsStart.take curJobs.toNat :: launchWorkers tasksPerWorker jobs jobs (remain - 1) next next
      else launchWorkers tasksPerWorker curJobs (remainJobs - 1) remain ftsStart next

/-- The packages of each worker; `none` without package files and where the assertion
`tasks_per_worker > 0` fails. -/
def splitTasks (numWorkers : Nat) (files : List Item) : Option (List (List Item)) :=
  let workers := min numWorkers files.length
  let tasksPerWorker := files.length / workers
  let remain := files.length % workers
  let curJobs : Int := if remain > 0 then tasksPerWorker + 1 else tasksPerWorker
  if files.length ≠ 0 ∧ 0 < tasksPerWorker then
    some (launchWorkers tasksPerWorker curJobs curJobs remain files files)
  else none

/-- With as many package files left as `later` more workers take, all are handed out. -/
theorem launchWorkers_spec {tasksPerWorker : Nat} (some_task : 0 < tasksPerWorker)
    (items : List Item) : ∀ (taken : List Item) (curJobs remainJobs : Nat) (remain : Int)
      (later : Nat), taken.length + remainJobs = curJobs → 0 < remainJobs →
      (remain - 1).toNat ≤ later →
      items.length = remainJobs + later * tasksPerWorker + (remain - 1).toNat →
      (launchWorkers tasksPerWorker curJobs remainJobs remain (taken ++ items) items).flatten =
          taken ++ items ∧
        (launchWorkers tasksPerWorker curJobs remainJobs remain (taken ++ items) items).length =
          later + 1 := by
  induction items with
  | nil =>
      intro taken curJobs remainJobs remain later _ waiting _ enough
      simp only [List.length_nil] at enough
      omega
  | cons item next ih =>
      intro taken curJobs remainJobs remain later position waiting extra enough
      simp only [List.length_cons] at enough
      by_cases last : remainJobs = 1
      · subst last
        have chunk : (taken ++ item :: next).take curJobs = taken ++ [item] := by
          rw [← position, List.append_cons, List.take_left' (by simp)]
        rw [launchWorkers, if_pos (by omega), Int.toNat_natCast, chunk]
        dsimp only
        cases later with
        | zero =>
            have none_left : next = [] := by
              apply List.eq_nil_of_length_eq_zero
              omega
            subst none_left
            simp [launchWorkers]
        | succ later =>
            rw [Nat.succ_mul] at enough
            have rest : ∀ jobs : Nat, 0 < jobs →
                next.length = jobs + later * tasksPerWorker + (remain - 1 - 1).toNat →
                (remain - 1 - 1).toNat ≤ later →
                (launchWorkers tasksPerWorker jobs jobs (remain - 1) next next).flatten = next ∧
                  (launchWorkers tasksPerWorker jobs jobs (remain - 1) next next).length =
                    later + 1 := by
              intro jobs positive left few
              exact ih [] jobs jobs (remain - 1) later (Nat.zero_add _) positive few left
            by_cases more : remain - 1 > 0
            · rw [if_pos more]
              obtain ⟨handed, count⟩ :=
                rest (tasksPerWorker + 1) (by omega) (by omega) (by omega)
              simp only [Int.natCast_add, Int.natCast_one] at handed count
              simp [handed, count]
            · rw [if_neg more]
              obtain ⟨handed, count⟩ := rest tasksPerWorker some_task (by omega) (by omega)
              simp [handed, count]
      · have goesOn : ¬((remainJobs : Int) - 1 = 0) := by omega
        have counted : (remainJobs : Int) - 1 = (remainJobs - 1 : Nat) := by omega
        have rest := ih (taken ++ [item]) curJobs (remainJobs - 1) remain later
          (by simp only [List.length_append, List.length_singleton]; omega) (by omega) extra
          (by omega)
        rw [List.append_assoc, List.singleton_append] at rest
        rw [launchWorkers, if_neg goesOn, counted]
        exact rest

/-- Every package file goes to one worker, in order, and as many workers are launched as
the parent polls. -/
theorem splitTasks_spec {numWorkers : Nat} {files : List Item} {tasks : List (List Item)}
    (split : splitTasks numWorkers files = some tasks) :
    tasks.flatten = files ∧ tasks.length = min numWorkers files.length := by
  simp only [splitTasks, Option.ite_none_right_eq_some, Option.some.injEq] at split
  obtain ⟨⟨_, some_task⟩, rfl⟩ := split
  generalize min numWorkers files.length = workers at some_task ⊢
  have positive : 0 < workers := by
    by_contra none
    rw [Nat.eq_zero_of_not_pos none, Nat.div_zero] at some_task
    omega
  obtain ⟨later, rfl⟩ : ∃ later, workers = later + 1 := ⟨workers - 1, by omega⟩
  have total := Nat.div_add_mod' files.length (later + 1)
  have below := Nat.mod_lt files.length positive
  generalize files.length / (later + 1) = each at some_task total ⊢
  generalize files.length % (later + 1) = remain at total below ⊢
  rw [Nat.mul_succ, Nat.mul_comm] at total
  by_cases extra : remain > 0
  · rw [if_pos extra]
    have spec := launchWorkers_spec some_task files [] (each + 1) (each + 1) remain later
      (Nat.zero_add _) (by omega) (by omega) (by omega)
    simpa using spec
  · rw [if_neg extra]
    have spec := launchWorkers_spec some_task files [] each each remain later
      (Nat.zero_add _) some_task (by omega) (by omega)
    simpa using spec

end Launch

/-! ## The property and the condition -/

/-- `pkg_open` accepts a package file or not, whichever worker opens it. -/
def OpensAs {Worker : Type} (accepts : RepoPackage → Bool) (state : CreateState Worker) :
    CreateEvent Worker → Prop
  | .step worker => state.pc worker = .next →
      ∀ pkg, (state.todo worker).head? = some pkg → accepts pkg = true
  | .fail worker => state.pc worker = .next →
      ∀ pkg, (state.todo worker).head? = some pkg → accepts pkg = false
  | _ => True

/-- The parent has left its loop over the workers, with `EPKG_OK`. -/
def CreateState.Created {Worker : Type} (state : CreateState Worker) : Prop :=
  state.parent = .polling ∧ ∀ worker, state.finished worker = true

/-- The digest list has one record for each package file that is accepted. -/
def RecordsEach {Worker : Type} (accepts : RepoPackage → Bool) (files : List RepoPackage)
    (state : CreateState Worker) : Prop :=
  ∃ regions : List Region, state.dlist.Perm (regions.map Region.entry) ∧
    regions.map Region.pkg = files.filter accepts

/-- No accepted package is lost in the step: a worker does not stop with an error while it
has a package or one left to open, and sends the record of a package, on a line that fits. -/
def LosesNothing {Worker : Type} (accepts : RepoPackage → Bool) (state : CreateState Worker) :
    CreateEvent Worker → Prop
  | .step worker => ∀ region, state.pc worker = .send region → region.Fits
  | .fail worker =>
      match state.pc worker with
      | .waiting => ∀ pkg ∈ state.todo worker, accepts pkg = false
      | .next => True
      | .cleanup => True
      | _ => False
  | _ => True

/-! ## The invariant of a worker -/

/-- What concerns one worker: where it stands, its packages, its socket, and whether the
parent knows it gone. -/
structure WorkerView where
  pc : WorkerPc
  todo : List RepoPackage
  socket : List Text
  finished : Bool

def CreateState.view {Worker : Type} (state : CreateState Worker) (worker : Worker) :
    WorkerView where
  pc := state.pc worker
  todo := state.todo worker
  socket := state.socket worker
  finished := state.finished worker

/-- The accepted packages of the worker are in the list, in the socket, in its hands, or
to be opened. -/
structure WorkerView.Keeps (view : WorkerView) (accepts : RepoPackage → Bool)
    (own : List RepoPackage) (received flight : List Region) : Prop where
  kept : received.map Region.pkg ++ flight.map Region.pkg ++ view.pc.package.toList ++
    view.todo.filter accepts = own.filter accepts
  socket : ∃ tail, view.socket = flight.map digestLine ++ tail ∧
    (tail = [] ∨ tail = [endMessage] ∧ view.pc = .exited)
  fits : ∀ region ∈ flight, region.Fits
  stopped : view.pc = .cleanup ∨ view.pc = .exited → view.todo.filter accepts = []
  finished : view.finished = true → view.pc = .exited ∧ flight = []

namespace WorkerView.Keeps

variable {view : WorkerView} {accepts : RepoPackage → Bool} {own : List RepoPackage}
  {received flight : List Region}

theorem goto (keeps : view.Keeps accepts own received flight) {pc : WorkerPc}
    {todo : List RepoPackage} (running : view.pc ≠ .exited)
    (same : pc.package.toList ++ todo.filter accepts =
      view.pc.package.toList ++ view.todo.filter accepts)
    (stops : pc = .cleanup ∨ pc = .exited → todo.filter accepts = []) :
    ({ view with pc := pc, todo := todo } : WorkerView).Keeps accepts own received flight where
  kept := by
    rw [← keeps.kept]
    simp only [List.append_assoc, same]
  socket := by
    obtain ⟨tail, messages, none | ⟨_, exited⟩⟩ := keeps.socket
    · exact ⟨tail, messages, Or.inl none⟩
    · exact absurd exited running
  fits := keeps.fits
  stopped := stops
  finished gone := absurd (keeps.finished gone).1 running

theorem send (keeps : view.Keeps accepts own received flight) {region : Region}
    (atSend : view.pc = .send region) (fits : region.Fits) :
    ({ view with
        pc := .next, socket := view.socket ++ [digestMessage (digestLine region)] } :
      WorkerView).Keeps accepts own received (flight ++ [region]) where
  kept := by
    rw [← keeps.kept, atSend]
    simp [WorkerPc.package]
  socket := by
    obtain ⟨tail, messages, none | ⟨_, exited⟩⟩ := keeps.socket
    · refine ⟨[], ?_, Or.inl rfl⟩
      simp [messages, none, digestMessage_of_fits fits]
    · rw [atSend] at exited
      cases exited
  fits sent member := by
    rcases List.mem_append.mp member with old | new
    · exact keeps.fits sent old
    · rw [List.mem_singleton.mp new]
      exact fits
  stopped := nofun
  finished gone := by
    have exited := (keeps.finished gone).1
    rw [atSend] at exited
    cases exited

theorem finish (keeps : view.Keeps accepts own received flight) (atCleanup : view.pc = .cleanup) :
    ({ view with pc := .exited, socket := view.socket ++ [endMessage] } : WorkerView).Keeps
      accepts own received flight where
  kept := by
    rw [← keeps.kept, atCleanup]
    rfl
  socket := by
    obtain ⟨tail, messages, none | ⟨_, exited⟩⟩ := keeps.socket
    · refine ⟨[endMessage], ?_, Or.inr ⟨rfl, rfl⟩⟩
      simp [messages, none]
    · rw [atCleanup] at exited
      cases exited
  fits := keeps.fits
  stopped _ := keeps.stopped (Or.inl atCleanup)
  finished gone := by
    have exited := (keeps.finished gone).1
    rw [atCleanup] at exited
    cases exited

/-- A record leaves the socket for the list. -/
theorem receive {region : Region} {messages : List Text}
    (keeps : view.Keeps accepts own received (region :: flight))
    (socket : view.socket = digestLine region :: messages) :
    ({ view with socket := messages } : WorkerView).Keeps accepts own (received ++ [region])
      flight where
  kept := by
    rw [← keeps.kept]
    simp
  socket := by
    obtain ⟨tail, line, ending⟩ := keeps.socket
    rw [socket, List.map_cons, List.cons_append] at line
    exact ⟨tail, (List.cons.inj line).2, ending⟩
  fits sent member := keeps.fits sent (List.mem_cons_of_mem region member)
  stopped := keeps.stopped
  finished gone := nomatch (keeps.finished gone).2

/-- The parent finds a worker that is gone. -/
theorem gone (keeps : view.Keeps accepts own received []) (exited : view.pc = .exited) :
    ({ view with socket := [], finished := true } : WorkerView).Keeps accepts own received [] where
  kept := keeps.kept
  socket := ⟨[], rfl, Or.inl rfl⟩
  fits := nofun
  stopped := keeps.stopped
  finished _ := ⟨exited, rfl⟩

/-- All records of a worker that is gone have been read. -/
theorem received_of_finished (keeps : view.Keeps accepts own received flight)
    (gone : view.finished = true) : received.map Region.pkg = own.filter accepts := by
  obtain ⟨exited, rfl⟩ := keeps.finished gone
  have kept := keeps.kept
  rw [keeps.stopped (Or.inr exited), exited] at kept
  simpa [WorkerPc.package] using kept

end WorkerView.Keeps

/-! ## The steps -/

/-- Elements added at one key are added once. -/
theorem flatMap_update_append {α β : Type} [DecidableEq α] {f : α → List β} {key : α}
    {added : List β} {keys : List α} (nodup : keys.Nodup) (member : key ∈ keys) :
    (keys.flatMap (Function.update f key (f key ++ added))).Perm (keys.flatMap f ++ added) := by
  induction keys with
  | nil => cases member
  | cons first rest ih =>
      obtain ⟨fresh, nodupRest⟩ := List.nodup_cons.mp nodup
      rw [List.flatMap_cons, List.flatMap_cons]
      by_cases same : key = first
      · subst same
        have others : rest.flatMap (Function.update f key (f key ++ added)) = rest.flatMap f := by
          apply List.flatMap_congr
          intro other inRest
          rw [Function.update_of_ne]
          rintro rfl
          exact fresh inRest
        rw [Function.update_self, others, List.append_assoc, List.append_assoc]
        exact List.perm_append_comm.append_left _
      · have inRest := (List.mem_cons.mp member).resolve_left same
        rw [Function.update_of_ne (Ne.symm same), List.append_assoc]
        exact (ih nodupRest inRest).append_left _

/-- A record more of one worker is one more in the list. -/
theorem flatMap_update_entry {count : Nat} (received : Fin count → List Region)
    (worker : Fin count) (region : Region) :
    ((List.finRange count).flatMap fun other =>
      (Function.update received worker (received worker ++ [region]) other).map
        Region.entry).Perm
      (((List.finRange count).flatMap fun other => (received other).map Region.entry) ++
        [region.entry]) := by
  have moved : (fun other =>
      (Function.update received worker (received worker ++ [region]) other).map
        Region.entry) =
      Function.update (fun other => (received other).map Region.entry) worker
        ((received worker).map Region.entry ++ [region.entry]) := by
    funext other
    by_cases same : other = worker
    · subst same
      simp
    · simp [same]
  rw [moved]
  exact flatMap_update_append (List.nodup_finRange count) (List.mem_finRange worker)

/-- `received` are the regions of each worker that the parent has records of, `flight`
those whose records are in the sockets. -/
structure CompleteInv {count : Nat} (accepts : RepoPackage → Bool)
    (split : Fin count → List RepoPackage) (state : CreateState (Fin count))
    (received flight : Fin count → List Region) : Prop where
  keeps : ∀ worker,
    (state.view worker).Keeps accepts (split worker) (received worker) (flight worker)
  dlist : state.dlist.Perm
    ((List.finRange count).flatMap fun worker => (received worker).map Region.entry)
  reader : ∀ worker pipe, state.parent = .reading worker pipe → pipe.field = .setOrigin

section Steps

variable {count : Nat} {accepts : RepoPackage → Bool} {split : Fin count → List RepoPackage}
  {state next : CreateState (Fin count)} {received flight : Fin count → List Region}
  {worker : Fin count}

theorem CompleteInv.start (split : Fin count → List RepoPackage) :
    CompleteInv accepts split (CreateState.start split) (fun _ => []) (fun _ => []) where
  keeps _ := ⟨rfl, ⟨[], rfl, Or.inl rfl⟩, nofun, nofun, nofun⟩
  dlist := by simp [CreateState.start]
  reader := nofun

/-- A step that concerns one worker. -/
theorem CompleteInv.change (inv : CompleteInv accepts split state received flight)
    (worker : Fin count) {sent pending : List Region}
    (others : ∀ other, other ≠ worker → next.view other = state.view other)
    (own : (next.view worker).Keeps accepts (split worker) sent pending)
    (dlist : next.dlist.Perm ((List.finRange count).flatMap fun other =>
      (Function.update received worker sent other).map Region.entry))
    (reader : ∀ other pipe, next.parent = .reading other pipe → pipe.field = .setOrigin) :
    CompleteInv accepts split next (Function.update received worker sent)
      (Function.update flight worker pending) where
  keeps other := by
    by_cases same : other = worker
    · subst same
      rw [Function.update_self, Function.update_self]
      exact own
    · rw [Function.update_of_ne same, Function.update_of_ne same, others other same]
      exact inv.keeps other
  dlist := dlist
  reader := reader

/-- A step of a worker. -/
theorem CompleteInv.work (inv : CompleteInv accepts split state received flight)
    {pending : List Region}
    (others : ∀ other, other ≠ worker → next.view other = state.view other)
    (own : (next.view worker).Keeps accepts (split worker) (received worker) pending)
    (dlist : next.dlist = state.dlist) (parent : next.parent = state.parent) :
    ∃ received flight, CompleteInv accepts split next received flight := by
  refine ⟨_, _, inv.change worker others own ?_ ?_⟩
  · rw [dlist, Function.update_eq_self]
    exact inv.dlist
  · intro other pipe reading
    rw [parent] at reading
    exact inv.reader other pipe reading

/-- A worker goes on with the package it has, or with none that is accepted. -/
theorem CompleteInv.goto (inv : CompleteInv accepts split state received flight) {pc : WorkerPc}
    {todo : List RepoPackage}
    (others : ∀ other, other ≠ worker → next.view other = state.view other)
    (view : next.view worker = { state.view worker with pc := pc, todo := todo })
    (dlist : next.dlist = state.dlist) (parent : next.parent = state.parent)
    (running : state.pc worker ≠ .exited)
    (same : pc.package.toList ++ todo.filter accepts =
      (state.pc worker).package.toList ++ (state.todo worker).filter accepts)
    (stops : pc = .cleanup ∨ pc = .exited → todo.filter accepts = []) :
    ∃ received flight, CompleteInv accepts split next received flight := by
  apply inv.work others _ dlist parent
  · exact flight worker
  · rw [view]
    exact (inv.keeps worker).goto running same stops

/-- A worker goes on with the package it has. -/
theorem CompleteInv.stay (inv : CompleteInv accepts split state received flight) {pc : WorkerPc}
    (others : ∀ other, other ≠ worker → next.view other = state.view other)
    (view : next.view worker = { state.view worker with pc := pc })
    (dlist : next.dlist = state.dlist) (parent : next.parent = state.parent)
    (running : state.pc worker ≠ .exited) (same : pc.package = (state.pc worker).package)
    (goes : pc ≠ .cleanup ∧ pc ≠ .exited) :
    ∃ received flight, CompleteInv accepts split next received flight := by
  apply inv.goto others view dlist parent running
  · rw [same]
    rfl
  · rintro (cleanup | exited)
    · exact absurd cleanup goes.1
    · exact absurd exited goes.2

theorem view_goto_of_ne {other : Fin count} {pc : WorkerPc} (apart : other ≠ worker) :
    (state.goto worker pc).view other = state.view other := by
  simp [CreateState.view, CreateState.goto, apart]

theorem view_push_of_ne {other : Fin count} {message : Text} (apart : other ≠ worker) :
    (state.push worker message).view other = state.view other := by
  simp [CreateState.view, CreateState.push, apart]

theorem view_goto {pc : WorkerPc} :
    (state.goto worker pc).view worker = { state.view worker with pc := pc } := by
  simp [CreateState.view, CreateState.goto]

theorem view_push {message : Text} : (state.push worker message).view worker =
    { state.view worker with socket := state.socket worker ++ [message] } := by
  simp [CreateState.view, CreateState.push]

theorem CompleteInv.workerStep (inv : CompleteInv accepts split state received flight)
    {readFiles : Bool} (opens : OpensAs accepts state (.step worker))
    (careful : LosesNothing accepts state (.step worker))
    (step : state.workerStep readFiles worker = some next) :
    ∃ received flight, CompleteInv accepts split next received flight := by
  unfold CreateState.workerStep at step
  cases pc : state.pc worker with
  | waiting =>
      simp only [pc] at step
      cases Option.some.inj step
      exact inv.stay (fun _ => view_goto_of_ne) view_goto rfl rfl (by simp [pc]) (by rw [pc]; rfl)
        (by simp)
  | next =>
      cases todo : state.todo worker with
      | nil =>
          simp only [pc, todo] at step
          cases Option.some.inj step
          apply inv.goto (fun _ => view_goto_of_ne) view_goto rfl rfl (by simp [pc])
          · rw [pc]
            rfl
          · rw [show (state.view worker).todo = [] from todo]
            exact fun _ => rfl
      | cons pkg rest =>
          simp only [pc, todo] at step
          cases Option.some.inj step
          have accepted := opens pc pkg (by rw [todo]; rfl)
          have view : (({ state with todo := Function.update state.todo worker rest }).goto worker
              (.opened pkg)).view worker =
                { state.view worker with pc := .opened pkg, todo := rest } := by
            simp [CreateState.view, CreateState.goto]
          refine inv.goto ?_ view rfl rfl (by simp [pc]) ?_ (by simp)
          · intro other differ
            simp [CreateState.view, CreateState.goto, differ]
          · simp [pc, todo, accepted, WorkerPc.package]
  | opened pkg =>
      simp only [pc, Option.ite_none_right_eq_some] at step
      cases Option.some.inj step.2
      exact inv.stay (fun _ => view_goto_of_ne) view_goto rfl rfl (by simp [pc]) (by rw [pc]; rfl)
        (by simp)
  | locked pkg =>
      simp only [pc] at step
      cases Option.some.inj step
      exact inv.stay (fun _ => view_goto_of_ne) view_goto rfl rfl (by simp [pc]) (by rw [pc]; rfl)
        (by simp)
  | sought pkg mpos =>
      simp only [pc] at step
      cases Option.some.inj step
      exact inv.stay (fun _ => view_goto_of_ne) view_goto rfl rfl (by simp [pc]) (by rw [pc]; rfl)
        (by simp)
  | written pkg mpos =>
      simp only [pc] at step
      cases Option.some.inj step
      refine inv.stay (fun _ => view_goto_of_ne) view_goto rfl rfl (by simp [pc]) ?_ ?_
      · rw [pc]
        cases readFiles <;> rfl
      · cases readFiles <;> simp
  | lockFiles pkg mpos =>
      simp only [pc, Option.ite_none_right_eq_some] at step
      cases Option.some.inj step.2
      exact inv.stay (fun _ => view_goto_of_ne) view_goto rfl rfl (by simp [pc]) (by rw [pc]; rfl)
        (by simp)
  | filesLocked pkg mpos =>
      simp only [pc] at step
      cases Option.some.inj step
      exact inv.stay (fun _ => view_goto_of_ne) view_goto rfl rfl (by simp [pc]) (by rw [pc]; rfl)
        (by simp)
  | filesSought pkg mpos fpos =>
      simp only [pc] at step
      cases Option.some.inj step
      exact inv.stay (fun _ => view_goto_of_ne) view_goto rfl rfl (by simp [pc]) (by rw [pc]; rfl)
        (by simp)
  | filesWritten pkg mpos fpos =>
      simp only [pc] at step
      cases Option.some.inj step
      exact inv.stay (fun _ => view_goto_of_ne) view_goto rfl rfl (by simp [pc]) (by rw [pc]; rfl)
        (by simp)
  | send region =>
      simp only [pc] at step
      cases Option.some.inj step
      have own : (((state.push worker (digestMessage (digestLine region))).goto worker
          .next).view worker).Keeps accepts (split worker) (received worker)
            (flight worker ++ [region]) := by
        rw [view_goto, view_push]
        exact (inv.keeps worker).send pc (careful region pc)
      exact inv.work (fun other differ => (view_goto_of_ne differ).trans (view_push_of_ne differ))
        own rfl rfl
  | cleanup =>
      simp only [pc] at step
      cases Option.some.inj step
      have own : (((state.push worker endMessage).goto worker .exited).view worker).Keeps accepts
          (split worker) (received worker) (flight worker) := by
        rw [view_goto, view_push]
        exact (inv.keeps worker).finish pc
      exact inv.work (fun other differ => (view_goto_of_ne differ).trans (view_push_of_ne differ))
        own rfl rfl
  | exited =>
      simp only [pc] at step
      cases step

theorem CompleteInv.workerFail (inv : CompleteInv accepts split state received flight)
    (opens : OpensAs accepts state (.fail worker))
    (careful : LosesNothing accepts state (.fail worker))
    (step : state.workerFail worker = some next) :
    ∃ received flight, CompleteInv accepts split next received flight := by
  unfold CreateState.workerFail at step
  cases pc : state.pc worker with
  | waiting =>
      simp only [LosesNothing, pc] at careful
      simp only [pc] at step
      cases Option.some.inj step
      refine inv.goto (fun _ => view_goto_of_ne) view_goto rfl rfl (by simp [pc]) ?_ ?_
      · rw [pc]
        rfl
      · intro _
        rw [List.filter_eq_nil_iff]
        intro pkg member
        simp [careful pkg member]
  | next =>
      simp only [pc] at step
      cases Option.some.inj step
      have view : (({ state with
          todo := Function.update state.todo worker (state.todo worker).tail } :
            CreateState (Fin count)).view worker) =
          { state.view worker with pc := .next, todo := (state.todo worker).tail } := by
        simp [CreateState.view, pc]
      refine inv.goto ?_ view rfl rfl (by simp [pc]) ?_ nofun
      · intro other differ
        simp [CreateState.view, differ]
      · rw [pc]
        cases todo : state.todo worker with
        | nil => rfl
        | cons pkg rest =>
            have rejected := opens pc pkg (by rw [todo]; rfl)
            simp [WorkerPc.package, rejected]
  | cleanup =>
      simp only [pc] at step
      cases Option.some.inj step
      refine inv.goto (fun _ => view_goto_of_ne) view_goto rfl rfl (by simp [pc]) ?_ ?_
      · rw [pc]
        rfl
      · exact fun _ => (inv.keeps worker).stopped (Or.inl pc)
  | opened pkg => simp [LosesNothing, pc] at careful
  | sought pkg mpos => simp [LosesNothing, pc] at careful
  | lockFiles pkg mpos => simp [LosesNothing, pc] at careful
  | send region => simp [LosesNothing, pc] at careful
  | _ => simp [pc] at step

theorem CompleteInv.parentRead (inv : CompleteInv accepts split state received flight)
    {pipe : PipeState} (reading : state.parent = .reading worker pipe) :
    ∃ received flight,
      CompleteInv accepts split (state.parentRead worker pipe) received flight := by
  have keeps := inv.keeps worker
  have field := inv.reader worker pipe reading
  have list : state.dlist.Perm ((List.finRange count).flatMap fun other =>
      (Function.update received worker (received worker) other).map Region.entry) := by
    rw [Function.update_eq_self]
    exact inv.dlist
  obtain ⟨tail, messages, ending⟩ := keeps.socket
  unfold CreateState.parentRead
  cases flying : flight worker with
  | nil =>
      rw [flying] at keeps messages
      have socket : state.socket worker = tail := messages
      rcases ending with rfl | ⟨rfl, exited⟩
      · rw [socket]
        refine ⟨_, _, inv.change worker (fun other differ => ?_) (?_ : WorkerView.Keeps _ _ _ _ []) list
          nofun⟩
        · simp [CreateState.view, differ]
        · by_cases exited : state.pc worker = .exited
          · have gone := keeps.gone exited
            simpa [CreateState.view, exited, socket] using gone
          · simpa [CreateState.view, exited] using keeps
      · have ended : readMessage pipe [] endMessage = .finished := rfl
        rw [socket]
        simp only [ended]
        refine ⟨_, _, inv.change worker (fun other differ => ?_) (?_ : WorkerView.Keeps _ _ _ _ []) list
          nofun⟩
        · simp [CreateState.view, differ]
        · simpa [CreateState.view] using keeps.gone exited
  | cons region rest =>
      rw [flying] at keeps messages
      rw [List.map_cons, List.cons_append] at messages
      have socket : state.socket worker = digestLine region :: (rest.map digestLine ++ tail) :=
        messages
      have fits := keeps.fits region List.mem_cons_self
      have record := readMessage_digestLine fits pipe.entry
      have fresh : pipe = { field := .setOrigin, entry := pipe.entry } := by
        rw [← field]
      rw [← fresh] at record
      rw [socket]
      simp only [record]
      refine ⟨_, _, inv.change worker (fun other differ => ?_)
        (?_ : WorkerView.Keeps _ _ _ (received worker ++ [region]) rest) ?_ ?_⟩
      · simp [CreateState.view, differ]
      · simpa [CreateState.view] using keeps.receive messages
      · exact (inv.dlist.append_right _).trans (flatMap_update_entry received worker region).symm
      · intro other pipe' same
        cases same
        rfl

end Steps

/-! ## Runs -/

/-- However the steps interleave: where no step loses a package, the parent returns
`EPKG_OK` with one record for each package file that `pkg_open` accepts. -/
theorem carefulCreation_recordsEach (accepts : RepoPackage → Bool) (readFiles : Bool)
    (numWorkers : Nat) (files : List RepoPackage) (tasks : List (List RepoPackage))
    (split : splitTasks numWorkers files = some tasks)
    (events : List (CreateEvent (Fin tasks.length))) (final : CreateState (Fin tasks.length))
    (run : runEvents (createStep readFiles) (CreateState.start tasks.get) events = some final)
    (opens : MeetsAlong (createStep readFiles) (OpensAs accepts) (CreateState.start tasks.get)
      events)
    (careful : MeetsAlong (createStep readFiles) (LosesNothing accepts)
      (CreateState.start tasks.get) events)
    (created : final.Created) : RecordsEach accepts files final := by
  have invariant : ∃ received flight, CompleteInv accepts tasks.get final received flight := by
    apply runEvents_invariant _ run (opens.and careful) ⟨_, _, CompleteInv.start tasks.get⟩
    rintro state event next ⟨received, flight, inv⟩ ⟨opens, careful⟩ step
    cases event with
    | step worker => exact inv.workerStep opens careful step
    | fail worker => exact inv.workerFail opens careful step
    | poll worker =>
        simp only [createStep, Option.ite_none_right_eq_some] at step
        cases Option.some.inj step.2
        refine ⟨received, flight, inv.keeps, inv.dlist, ?_⟩
        intro other pipe same
        cases same
        rfl
    | read =>
        simp only [createStep] at step
        split at step
        · next worker pipe reading =>
            cases Option.some.inj step
            exact inv.parentRead reading
        · cases step
  obtain ⟨received, flight, inv⟩ := invariant
  refine ⟨(List.finRange tasks.length).flatMap received, ?_, ?_⟩
  · rw [List.map_flatMap]
    exact inv.dlist
  · have each : ∀ worker, (received worker).map Region.pkg = (tasks.get worker).filter accepts :=
      fun worker => (inv.keeps worker).received_of_finished (created.2 worker)
    have handed := (splitTasks_spec split).1
    have all : (List.finRange tasks.length).flatMap tasks.get = files := by
      rw [← handed, List.flatMap_def, List.map_get_finRange]
    rw [List.map_flatMap]
    simp only [each]
    rw [← List.filter_flatMap, all]

/-- One worker, whose package is accepted, sends its record and the end marker. -/
def wholeRun : List (CreateEvent (Fin [[shortOrigin]].length)) :=
  List.replicate 9 (.step 0) ++ [.poll 0, .read, .read]

theorem wholeRun_recordsEach : ∃ final : CreateState (Fin [[shortOrigin]].length),
    runEvents (createStep false) (CreateState.start [[shortOrigin]].get) wholeRun = some final ∧
      final.Created ∧ RecordsEach (fun _ => true) [shortOrigin] final := by
  have created : ∃ final : CreateState (Fin [[shortOrigin]].length),
      runEvents (createStep false) (CreateState.start [[shortOrigin]].get) wholeRun =
        some final ∧ final.Created :=
    ⟨_, rfl, rfl, fun ⟨0, _⟩ => rfl⟩
  obtain ⟨final, run, created⟩ := created
  refine ⟨final, run, created, carefulCreation_recordsEach (fun _ => true) false 4 [shortOrigin]
    [[shortOrigin]] rfl wholeRun final run ?_ ?_ created⟩
  · iterate 9 refine meetsAlong_cons (fun _ _ _ => rfl) rfl ?_
    iterate 3 refine meetsAlong_cons trivial rfl ?_
    trivial
  · iterate 6 refine meetsAlong_cons nofun rfl ?_
    refine meetsAlong_cons ?_ rfl ?_
    · intro region send
      cases WorkerPc.send.inj send
      exact ⟨by decide, by decide, by decide, by decide⟩
    · iterate 2 refine meetsAlong_cons nofun rfl ?_
      iterate 3 refine meetsAlong_cons trivial rfl ?_
      trivial

/-- The worker does not get the lock of the manifests file, stops and sends the end
marker. -/
def stoppedRun : List (CreateEvent (Fin [[shortOrigin]].length)) :=
  [.step 0, .step 0, .fail 0, .step 0, .poll 0, .read]

theorem stoppedRun_not_recordsEach :
    ¬∀ (accepts : RepoPackage → Bool) (readFiles : Bool) (numWorkers : Nat)
      (files : List RepoPackage) (tasks : List (List RepoPackage)),
      splitTasks numWorkers files = some tasks →
      ∀ (events : List (CreateEvent (Fin tasks.length))) (final : CreateState (Fin tasks.length)),
        runEvents (createStep readFiles) (CreateState.start tasks.get) events = some final →
        MeetsAlong (createStep readFiles) (OpensAs accepts) (CreateState.start tasks.get) events →
        final.Created → RecordsEach accepts files final := by
  intro claim
  have stopped : ∃ final : CreateState (Fin [[shortOrigin]].length),
      runEvents (createStep false) (CreateState.start [[shortOrigin]].get) stoppedRun =
        some final ∧ final.Created ∧ final.dlist = [] :=
    ⟨_, rfl, ⟨rfl, fun ⟨0, _⟩ => rfl⟩, rfl⟩
  obtain ⟨final, run, created, nothing⟩ := stopped
  have opens : MeetsAlong (createStep false) (OpensAs fun _ => true)
      (CreateState.start [[shortOrigin]].get) stoppedRun := by
    iterate 2 refine meetsAlong_cons (fun _ _ _ => rfl) rfl ?_
    refine meetsAlong_cons nofun rfl ?_
    refine meetsAlong_cons nofun rfl ?_
    iterate 2 refine meetsAlong_cons trivial rfl ?_
    trivial
  obtain ⟨regions, recorded, each⟩ :=
    claim (fun _ => true) false 4 [shortOrigin] [[shortOrigin]] rfl stoppedRun final run opens
      created
  rw [nothing, List.nil_perm, List.map_eq_nil_iff] at recorded
  rw [recorded] at each
  cases each

end Pkgng
