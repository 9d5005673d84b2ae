import Mathlib.Data.Fintype.Fin
import Pkgng.Repo.CreateComplete

/-!
# Records on their way to the parent

The workers of `createStep` once more, for any records they may have to send: what is ahead of
the parent in each socket, and that it gets every record once.
-/

set_option autoImplicit false

namespace Pkgng

open Lib

/-- The records that the workers have yet to send. -/
structure RecordFlow (Worker : Type) where
  unsent : Worker → List Region
  state : CreateState Worker

namespace RecordFlow

variable {Worker : Type} [DecidableEq Worker]

def start (records : Worker → List Region) : RecordFlow Worker where
  unsent := records
  state := .start fun _ => []

def goesOn (flow : RecordFlow Worker) (event : CreateEvent Worker) :
    Option (RecordFlow Worker) :=
  (createStep false flow.state event).map fun state => { flow with state }

/-- A worker comes to `snprintf` with its next record; the rest is `createStep`. -/
def step (flow : RecordFlow Worker) : CreateEvent Worker → Option (RecordFlow Worker)
  | .step worker =>
      match flow.state.pc worker, flow.unsent worker with
      | .next, region :: rest =>
          some
            { unsent := Function.update flow.unsent worker rest
              state := flow.state.goto worker (.send region) }
      | _, _ => flow.goesOn (.step worker)
  | .fail _ => none
  | .poll worker => flow.goesOn (.poll worker)
  | .read => flow.goesOn .read

end RecordFlow

/-! ## A worker that sends its records -/

/-- The message of a record. -/
def Region.message (region : Region) : Text := digestMessage (digestLine region)

structure Sender where
  pc : WorkerPc
  unsent : List Region
  socket : List Text

def RecordFlow.sender {Worker : Type} (flow : RecordFlow Worker) (worker : Worker) : Sender where
  pc := flow.state.pc worker
  unsent := flow.unsent worker
  socket := flow.state.socket worker

namespace Sender

inductive Step : Sender → Sender → Prop
  | begin (unsent : List Region) (socket : List Text) :
      Step ⟨.waiting, unsent, socket⟩ ⟨.next, unsent, socket⟩
  | take (region : Region) (unsent : List Region) (socket : List Text) :
      Step ⟨.next, region :: unsent, socket⟩ ⟨.send region, unsent, socket⟩
  | send (region : Region) (unsent : List Region) (socket : List Text) :
      Step ⟨.send region, unsent, socket⟩ ⟨.next, unsent, socket ++ [region.message]⟩
  | stop (socket : List Text) : Step ⟨.next, [], socket⟩ ⟨.cleanup, [], socket⟩
  | finish (unsent : List Region) (socket : List Text) :
      Step ⟨.cleanup, unsent, socket⟩ ⟨.exited, unsent, socket ++ [endMessage]⟩

/-- Where a worker can stand that only sends. -/
inductive Plain : Sender → Prop
  | waiting (unsent : List Region) (socket : List Text) : Plain ⟨.waiting, unsent, socket⟩
  | next (unsent : List Region) (socket : List Text) : Plain ⟨.next, unsent, socket⟩
  | send (region : Region) (unsent : List Region) (socket : List Text) :
      Plain ⟨.send region, unsent, socket⟩
  | cleanup (socket : List Text) : Plain ⟨.cleanup, [], socket⟩
  | exited (socket : List Text) : Plain ⟨.exited, [], socket⟩

/-- The record in the hands of the worker. -/
def record (sender : Sender) : List Region :=
  match sender.pc with
  | .send region => [region]
  | _ => []

/-- The messages that the parent has not read, sent or not. -/
def ahead (sender : Sender) : List Text :=
  sender.socket ++ (sender.record ++ sender.unsent).map Region.message ++
    if sender.pc = .exited then [] else [endMessage]

/-- A bound on the steps left. -/
def work (sender : Sender) : Nat :=
  3 * sender.unsent.length + sender.socket.length +
    match sender.pc with
    | .waiting => 4
    | .next => 3
    | .send _ => 5
    | .cleanup => 2
    | _ => 0

theorem Step.plain {sender next : Sender} (step : sender.Step next) (plain : sender.Plain) :
    next.Plain := by
  cases step with
  | begin => exact .next _ _
  | take => exact .send _ _ _
  | send => exact .next _ _
  | stop => exact .cleanup _
  | finish =>
      cases plain
      exact .exited _

/-- A step of the worker changes nothing of what the parent will read. -/
theorem Step.ahead {sender next : Sender} (step : sender.Step next) (plain : sender.Plain) :
    next.ahead = sender.ahead := by
  cases step with
  | begin => rfl
  | take => rfl
  | send => simp [Sender.ahead, record]
  | stop => rfl
  | finish =>
      cases plain
      simp [Sender.ahead, record]

theorem Step.work_lt {sender next : Sender} (step : sender.Step next) :
    next.work < sender.work := by
  cases step <;> simp [work] <;> omega

end Sender

namespace RecordFlow

variable {Worker : Type} [DecidableEq Worker] {flow next : RecordFlow Worker} {worker : Worker}

/-- What a step of a worker leaves as it is. -/
structure OthersKept (flow next : RecordFlow Worker) (worker : Worker) : Prop where
  others : ∀ other, other ≠ worker → next.sender other = flow.sender other
  todo : next.state.todo = flow.state.todo
  finished : next.state.finished = flow.state.finished
  parent : next.state.parent = flow.state.parent
  dlist : next.state.dlist = flow.state.dlist

theorem goto_othersKept (pc : WorkerPc) (rest : List Region) :
    flow.OthersKept
      { unsent := Function.update flow.unsent worker rest, state := flow.state.goto worker pc }
      worker := by
  refine ⟨fun other apart => ?_, rfl, rfl, rfl, rfl⟩
  simp [sender, CreateState.goto, apart]

theorem push_othersKept (pc : WorkerPc) (message : Text) :
    flow.OthersKept { flow with state := (flow.state.push worker message).goto worker pc }
      worker := by
  refine ⟨fun other apart => ?_, rfl, rfl, rfl, rfl⟩
  simp [sender, CreateState.goto, CreateState.push, apart]

theorem step_eq_goesOn (noRecord : flow.state.pc worker = .next → flow.unsent worker = []) :
    flow.step (.step worker) = flow.goesOn (.step worker) := by
  simp only [step]
  split
  · next region rest atNext unsent =>
      rw [noRecord atNext] at unsent
      cases unsent
  · rfl

/-- What a worker that has not exited does next. -/
theorem exists_step (idle : flow.state.todo worker = []) (plain : (flow.sender worker).Plain)
    (running : flow.state.pc worker ≠ .exited) :
    ∃ next, flow.step (.step worker) = some next ∧
      (flow.sender worker).Step (next.sender worker) ∧ flow.OthersKept next worker := by
  cases isSender : flow.sender worker with
  | mk pc unsent socket =>
  obtain ⟨atPc, atUnsent, atSocket⟩ := Sender.mk.inj isSender
  have stay : Function.update flow.unsent worker unsent = flow.unsent := by
    rw [← atUnsent, Function.update_eq_self]
  rw [isSender] at plain
  cases plain with
  | waiting =>
      have kept := @goto_othersKept _ _ flow worker .next unsent
      rw [stay] at kept
      refine ⟨_, ?_, ?_, kept⟩
      · rw [step_eq_goesOn (by simp [atPc])]
        simp [goesOn, createStep, CreateState.workerStep, atPc]
      · simpa [sender, CreateState.goto, atUnsent, atSocket] using
          Sender.Step.begin unsent socket
  | next =>
      cases unsent with
      | nil =>
          have kept := @goto_othersKept _ _ flow worker .cleanup []
          rw [stay] at kept
          refine ⟨_, ?_, ?_, kept⟩
          · rw [step_eq_goesOn fun _ => atUnsent]
            simp [goesOn, createStep, CreateState.workerStep, atPc, idle]
          · simpa [sender, CreateState.goto, atUnsent, atSocket] using Sender.Step.stop socket
      | cons region rest =>
          refine ⟨_, ?_, ?_, goto_othersKept (.send region) rest⟩
          · simp [step, atPc, atUnsent]
          · simpa [sender, CreateState.goto, atSocket] using Sender.Step.take region rest socket
  | send region =>
      refine ⟨_, ?_, ?_, push_othersKept .next region.message⟩
      · rw [step_eq_goesOn (by simp [atPc])]
        simp [goesOn, createStep, CreateState.workerStep, atPc, Region.message]
      · simpa [sender, CreateState.goto, CreateState.push, atUnsent, atSocket] using
          Sender.Step.send region unsent socket
  | cleanup =>
      refine ⟨_, ?_, ?_, push_othersKept .exited endMessage⟩
      · rw [step_eq_goesOn (by simp [atPc])]
        simp [goesOn, createStep, CreateState.workerStep, atPc]
      · simpa [sender, CreateState.goto, CreateState.push, atUnsent, atSocket] using
          Sender.Step.finish [] socket
  | exited => exact absurd atPc running

/-- The inversion of a worker's step. -/
theorem of_step (idle : flow.state.todo worker = []) (plain : (flow.sender worker).Plain)
    (stepped : flow.step (.step worker) = some next) :
    (flow.sender worker).Step (next.sender worker) ∧ flow.OthersKept next worker := by
  have running : flow.state.pc worker ≠ .exited := by
    intro exited
    rw [step_eq_goesOn (by simp [exited])] at stepped
    simp [goesOn, createStep, CreateState.workerStep, exited] at stepped
  obtain ⟨other, otherStep, sends, kept⟩ := exists_step idle plain running
  rw [otherStep] at stepped
  cases Option.some.inj stepped
  exact ⟨sends, kept⟩

/-- The parent turns to a worker. -/
def polled (flow : RecordFlow Worker) (worker : Worker) : RecordFlow Worker :=
  { flow with state := { flow.state with parent := .reading worker {} } }

def afterRead (flow : RecordFlow Worker) (worker : Worker) (pipe : PipeState) :
    RecordFlow Worker :=
  { flow with state := flow.state.parentRead worker pipe }

theorem poll_eq (polling : flow.state.parent = .polling)
    (running : flow.state.finished worker = false) :
    flow.step (.poll worker) = some (flow.polled worker) := by
  simp [step, goesOn, createStep, polling, running, polled]

theorem read_eq {pipe : PipeState} (reading : flow.state.parent = .reading worker pipe) :
    flow.step .read = some (flow.afterRead worker pipe) := by
  simp [step, goesOn, createStep, reading, afterRead]

end RecordFlow

/-! ## The invariant -/

section Invariant

variable {count : Nat} {records : Fin count → List Region} {flow next : RecordFlow (Fin count)}
  {received : Fin count → List Region} {worker : Fin count}

/-- `received` are the records of each worker that the parent has in its list. -/
structure FlowInv (records : Fin count → List Region) (flow : RecordFlow (Fin count))
    (received : Fin count → List Region) : Prop where
  idle : ∀ worker, flow.state.todo worker = []
  plain : ∀ worker, (flow.sender worker).Plain
  ahead : ∀ worker, flow.state.finished worker = false →
    ∃ unread, received worker ++ unread = records worker ∧
      (flow.sender worker).ahead = unread.map Region.message ++ [endMessage]
  gone : ∀ worker, flow.state.finished worker = true → received worker = records worker
  dlist : flow.state.dlist.Perm
    ((List.finRange count).flatMap fun worker => (received worker).map Region.entry)
  reader : ∀ worker pipe, flow.state.parent = .reading worker pipe →
    pipe.field = .setOrigin ∧ flow.state.finished worker = false
  alive : flow.state.parent ≠ .aborted

theorem FlowInv.start (records : Fin count → List Region) :
    FlowInv records (.start records) fun _ => [] where
  idle _ := rfl
  plain worker := .waiting (records worker) []
  ahead worker _ := ⟨records worker, rfl, rfl⟩
  gone _ := nofun
  dlist := by simp [RecordFlow.start, CreateState.start]
  reader := nofun
  alive := nofun

theorem FlowInv.workerStep (inv : FlowInv records flow received)
    (stepped : flow.step (.step worker) = some next) : FlowInv records next received := by
  obtain ⟨sends, kept⟩ := RecordFlow.of_step (inv.idle worker) (inv.plain worker) stepped
  have plain := inv.plain worker
  refine
    { idle := fun other => kept.todo ▸ inv.idle other
      plain := ?_
      ahead := ?_
      gone := fun other => kept.finished ▸ inv.gone other
      dlist := kept.dlist ▸ inv.dlist
      reader := ?_
      alive := kept.parent ▸ inv.alive }
  · intro other
    by_cases same : other = worker
    · rw [same]
      exact sends.plain plain
    · rw [kept.others other same]
      exact inv.plain other
  · intro other running
    rw [kept.finished] at running
    by_cases same : other = worker
    · rw [same] at running ⊢
      rw [sends.ahead plain]
      exact inv.ahead worker running
    · rw [kept.others other same]
      exact inv.ahead other running
  · intro other pipe reading
    rw [kept.parent] at reading
    rw [kept.finished]
    exact inv.reader other pipe reading

/-- Another rest in a worker's socket. -/
def RecordFlow.popped (flow : RecordFlow (Fin count)) (worker : Fin count) (rest : List Text) :
    RecordFlow (Fin count) :=
  { flow with state :=
    { flow.state with socket := Function.update flow.state.socket worker rest } }

theorem RecordFlow.popped_sender (flow : RecordFlow (Fin count)) (worker : Fin count)
    (rest : List Text) :
    (flow.popped worker rest).sender =
      Function.update flow.sender worker { flow.sender worker with socket := rest } := by
  funext other
  by_cases same : other = worker
  · subst same
    simp [RecordFlow.sender, RecordFlow.popped]
  · simp [RecordFlow.sender, RecordFlow.popped, same]

theorem Sender.Plain.popped {sender : Sender} (plain : sender.Plain) (rest : List Text) :
    Sender.Plain { sender with socket := rest } := by
  cases plain with
  | waiting => exact .waiting _ _
  | next => exact .next _ _
  | send => exact .send _ _ _
  | cleanup => exact .cleanup _
  | exited => exact .exited _

/-- The parent takes a message from a socket. -/
theorem FlowInv.pop (inv : FlowInv records flow received) {message : Text} {rest : List Text}
    (socket : flow.state.socket worker = message :: rest)
    (running : flow.state.finished worker = false) :
    ∃ unread, received worker ++ unread = records worker ∧
      (∀ other, ((flow.popped worker rest).sender other).Plain) ∧
      message :: ((flow.popped worker rest).sender worker).ahead =
        unread.map Region.message ++ [endMessage] ∧
      ∀ other, other ≠ worker → (flow.popped worker rest).sender other = flow.sender other := by
  obtain ⟨unread, all, ahead⟩ := inv.ahead worker running
  rw [RecordFlow.popped_sender]
  refine ⟨unread, all, ?_, ?_, fun other apart => Function.update_of_ne apart _ _⟩
  · exact (Function.forall_update_iff flow.sender fun _ sender => sender.Plain).mpr
      ⟨(inv.plain worker).popped rest, fun other _ => inv.plain other⟩
  · have split : (flow.sender worker).socket = message :: rest := socket
    rw [Function.update_self, ← ahead]
    simp [Sender.ahead, split, Sender.record]

/-- The end marker of a worker that is gone is there until the parent knows. -/
theorem FlowInv.exited_socket (inv : FlowInv records flow received)
    (exited : flow.state.pc worker = .exited) (running : flow.state.finished worker = false) :
    ∃ message rest, flow.state.socket worker = message :: rest := by
  obtain ⟨unread, -, ahead⟩ := inv.ahead worker running
  have plain := inv.plain worker
  apply List.exists_cons_of_ne_nil
  cases isSender : flow.sender worker with
  | mk pc unsent sent =>
  obtain ⟨atPc, -, atSocket⟩ := Sender.mk.inj isSender
  rw [exited] at atPc
  subst atPc
  rw [isSender] at plain ahead
  cases plain
  rw [atSocket]
  rintro rfl
  simp [Sender.ahead, Sender.record] at ahead

/-- The parent finds no message. -/
theorem FlowInv.readNothing (inv : FlowInv records flow received) {pipe : PipeState}
    (reading : flow.state.parent = .reading worker pipe) (socket : flow.state.socket worker = []) :
    flow.state.parentRead worker pipe = { flow.state with parent := .polling } ∧
      FlowInv records (flow.afterRead worker pipe) received := by
  have running := (inv.reader worker pipe reading).2
  have notExited : flow.state.pc worker ≠ .exited := by
    intro exited
    obtain ⟨message, rest, some⟩ := inv.exited_socket exited running
    rw [socket] at some
    cases some
  have kept : flow.state.parentRead worker pipe = { flow.state with parent := .polling } := by
    unfold CreateState.parentRead
    rw [socket]
    have stay : Function.update flow.state.finished worker false = flow.state.finished := by
      rw [← running, Function.update_eq_self]
    simp only [running, notExited, decide_false, Bool.or_false, stay]
  refine ⟨kept, ?_⟩
  rw [RecordFlow.afterRead, kept]
  exact
    { idle := inv.idle
      plain := inv.plain
      ahead := inv.ahead
      gone := inv.gone
      dlist := inv.dlist
      reader := nofun
      alive := nofun }

/-- The parent takes a message. -/
theorem FlowInv.readMessage (inv : FlowInv records flow received)
    (fits : ∀ worker, ∀ region ∈ records worker, region.Fits) {pipe : PipeState}
    {message : Text} {rest : List Text} (reading : flow.state.parent = .reading worker pipe)
    (socket : flow.state.socket worker = message :: rest) :
    ∃ received, FlowInv records (flow.afterRead worker pipe) received := by
  obtain ⟨field, running⟩ := inv.reader worker pipe reading
  obtain ⟨unread, all, plains, ahead, others⟩ := inv.pop socket running
  unfold RecordFlow.afterRead CreateState.parentRead
  rw [socket]
  cases unread with
  | nil =>
      have isEnd : message = endMessage := (List.cons.inj ahead).1
      have ended : Pkgng.readMessage pipe [] endMessage = .finished := rfl
      simp only [isEnd, ended]
      refine ⟨received,
        { idle := inv.idle, plain := plains, ahead := ?_, gone := ?_, dlist := inv.dlist,
          reader := nofun, alive := nofun }⟩
      · intro other stillRunning
        by_cases same : other = worker
        · subst same
          simp at stillRunning
        · obtain ⟨unread, own, before⟩ := inv.ahead other (by simpa [same] using stillRunning)
          exact ⟨unread, own, (congrArg Sender.ahead (others other same)).trans before⟩
      · intro other finished
        by_cases same : other = worker
        · rw [same, ← all, List.append_nil]
        · exact inv.gone other (by simpa [same] using finished)
  | cons region unread =>
      have own := fits worker region (by rw [← all]; simp)
      have isLine : message = digestLine region :=
        (List.cons.inj ahead).1.trans (digestMessage_of_fits own)
      have record := readMessage_digestLine own pipe.entry
      have fresh : pipe = { field := .setOrigin, entry := pipe.entry } := by rw [← field]
      rw [← fresh, ← isLine] at record
      simp only [record]
      refine ⟨Function.update received worker (received worker ++ [region]),
        { idle := inv.idle, plain := plains, ahead := ?_, gone := ?_, dlist := ?_,
          reader := ?_, alive := nofun }⟩
      · intro other stillRunning
        by_cases same : other = worker
        · subst same
          refine ⟨unread, ?_, (List.cons.inj ahead).2⟩
          rw [Function.update_self, ← all, List.append_assoc, List.singleton_append]
        · obtain ⟨unread, own, before⟩ := inv.ahead other stillRunning
          rw [Function.update_of_ne same]
          exact ⟨unread, own, (congrArg Sender.ahead (others other same)).trans before⟩
      · intro other finished
        have same : other ≠ worker := by
          rintro rfl
          exact absurd (finished.symm.trans running) Bool.noConfusion
        rw [Function.update_of_ne same]
        exact inv.gone other finished
      · exact (inv.dlist.append_right _).trans (flatMap_update_entry received worker region).symm
      · intro other pipe' same
        cases same
        exact ⟨rfl, running⟩

theorem FlowInv.read (inv : FlowInv records flow received)
    (fits : ∀ worker, ∀ region ∈ records worker, region.Fits) {pipe : PipeState}
    (reading : flow.state.parent = .reading worker pipe) :
    ∃ received, FlowInv records (flow.afterRead worker pipe) received := by
  cases socket : flow.state.socket worker with
  | nil => exact ⟨received, (inv.readNothing reading socket).2⟩
  | cons message rest => exact inv.readMessage fits reading socket

theorem FlowInv.poll (inv : FlowInv records flow received)
    (running : flow.state.finished worker = false) :
    FlowInv records (flow.polled worker) received where
  idle := inv.idle
  plain := inv.plain
  ahead := inv.ahead
  gone := inv.gone
  dlist := inv.dlist
  reader other pipe same := by
    cases same
    exact ⟨rfl, running⟩
  alive := nofun

theorem FlowInv.step (inv : FlowInv records flow received)
    (fits : ∀ worker, ∀ region ∈ records worker, region.Fits)
    {event : CreateEvent (Fin count)} (stepped : flow.step event = some next) :
    ∃ received, FlowInv records next received := by
  cases event with
  | step worker => exact ⟨received, inv.workerStep stepped⟩
  | fail worker => cases stepped
  | poll worker =>
      obtain ⟨state, polled, isNext⟩ := Option.map_eq_some_iff.mp stepped
      simp only [createStep, Option.ite_none_right_eq_some] at polled
      obtain ⟨⟨-, running⟩, isState⟩ := polled
      rw [← isNext, ← Option.some.inj isState]
      exact ⟨received, inv.poll running⟩
  | read =>
      cases parent : flow.state.parent with
      | reading worker pipe =>
          rw [RecordFlow.read_eq parent] at stepped
          rw [← Option.some.inj stepped]
          exact inv.read fits parent
      | polling => simp [RecordFlow.step, RecordFlow.goesOn, createStep, parent] at stepped
      | aborted => exact absurd parent inv.alive

/-- Every state of a run has an invariant. -/
theorem FlowInv.run (fits : ∀ worker, ∀ region ∈ records worker, region.Fits)
    {events : List (CreateEvent (Fin count))}
    (run : runEvents RecordFlow.step (.start records) events = some flow) :
    ∃ received, FlowInv records flow received := by
  apply runEvents_preserves _ run ⟨_, FlowInv.start records⟩
  rintro flow event next ⟨received, inv⟩ stepped
  exact inv.step fits stepped

/-! ## The end of the loop -/

/-- A bound on what is left to do: the steps of the workers, and the way back to `poll`. -/
def RecordFlow.left (flow : RecordFlow (Fin count)) : Nat :=
  2 * ∑ worker, (flow.sender worker).work + if flow.state.parent = .polling then 0 else 1

theorem sum_work_of_step (sends : (flow.sender worker).Step (next.sender worker))
    (kept : flow.OthersKept next worker) :
    ∑ worker, (next.sender worker).work < ∑ worker, (flow.sender worker).work := by
  have changed : next.sender = Function.update flow.sender worker (next.sender worker) := by
    funext other
    by_cases same : other = worker
    · rw [same, Function.update_self]
    · rw [Function.update_of_ne same, kept.others other same]
  have total := sum_step Sender.work flow.sender worker (next.sender worker)
  have less := sends.work_lt
  rw [← changed] at total
  omega

theorem RecordFlow.afterRead_sender {pipe : PipeState} {message : Text} {rest : List Text}
    (socket : flow.state.socket worker = message :: rest) :
    (flow.afterRead worker pipe).sender = (flow.popped worker rest).sender := by
  unfold RecordFlow.afterRead CreateState.parentRead
  rw [socket]
  dsimp only
  cases readMessage pipe [] message <;> rfl

theorem sum_work_popped {message : Text} {rest : List Text}
    (socket : flow.state.socket worker = message :: rest) :
    ∑ other, ((flow.popped worker rest).sender other).work + 1 =
      ∑ other, (flow.sender other).work := by
  have total := sum_step Sender.work flow.sender worker { flow.sender worker with socket := rest }
  have one : (flow.sender worker).work =
      Sender.work { flow.sender worker with socket := rest } + 1 := by
    simp only [Sender.work, RecordFlow.sender, socket, List.length_cons]
    omega
  rw [← RecordFlow.popped_sender] at total
  omega

theorem RecordFlow.left_afterRead {pipe : PipeState} {message : Text} {rest : List Text}
    (socket : flow.state.socket worker = message :: rest) :
    (flow.afterRead worker pipe).left < 2 * ∑ worker, (flow.sender worker).work := by
  have total := sum_work_popped socket
  unfold RecordFlow.left
  rw [RecordFlow.afterRead_sender socket]
  split <;> omega

/-- As long as the parent waits for a worker, something can be done. -/
theorem FlowInv.goesOn (inv : FlowInv records flow received)
    (fits : ∀ worker, ∀ region ∈ records worker, region.Fits) (waits : ¬flow.state.Created) :
    ∃ events next, runEvents RecordFlow.step flow events = some next ∧
      (∃ received, FlowInv records next received) ∧ next.left < flow.left := by
  cases parent : flow.state.parent with
  | aborted => exact absurd parent inv.alive
  | reading worker pipe =>
      refine ⟨[.read], _, ?_, inv.read fits parent, ?_⟩
      · rw [runEvents, RecordFlow.read_eq parent, Option.bind_some, runEvents]
      · have atRead : flow.left = 2 * ∑ worker, (flow.sender worker).work + 1 := by
          rw [RecordFlow.left, parent, if_neg (by simp)]
        cases socket : flow.state.socket worker with
        | nil =>
            rw [RecordFlow.afterRead, (inv.readNothing parent socket).1, atRead]
            exact Nat.lt_succ_self _
        | cons message rest =>
            rw [atRead]
            exact Nat.lt_succ_of_lt (RecordFlow.left_afterRead socket)
  | polling =>
      have atPoll : flow.left = 2 * ∑ worker, (flow.sender worker).work := by
        rw [RecordFlow.left, parent, if_pos rfl, Nat.add_zero]
      obtain ⟨worker, running⟩ : ∃ worker, flow.state.finished worker = false := by
        by_contra none
        refine waits ⟨parent, fun worker => ?_⟩
        by_contra running
        exact none ⟨worker, Bool.eq_false_of_not_eq_true running⟩
      by_cases exited : flow.state.pc worker = .exited
      · obtain ⟨message, rest, socket⟩ := inv.exited_socket exited running
        refine ⟨[.poll worker, .read], _, ?_, (inv.poll running).read fits rfl, ?_⟩
        · rw [runEvents, RecordFlow.poll_eq parent running, Option.bind_some, runEvents,
            RecordFlow.read_eq rfl, Option.bind_some, runEvents]
        · rw [atPoll]
          exact @RecordFlow.left_afterRead _ (flow.polled worker) _ _ _ _ socket
      · obtain ⟨next, stepped, sends, kept⟩ :=
          RecordFlow.exists_step (inv.idle worker) (inv.plain worker) exited
        refine ⟨[.step worker], next, ?_, ⟨received, inv.workerStep stepped⟩, ?_⟩
        · rw [runEvents, stepped, Option.bind_some, runEvents]
        · have less := sum_work_of_step sends kept
          rw [atPoll, RecordFlow.left, kept.parent, parent, if_pos rfl]
          omega

/-- From every state of a run the parent can come to the end of its loop. -/
theorem RecordFlow.exists_created (fits : ∀ worker, ∀ region ∈ records worker, region.Fits)
    {events : List (CreateEvent (Fin count))}
    (run : runEvents RecordFlow.step (.start records) events = some flow) :
    ∃ rest final, runEvents RecordFlow.step flow rest = some final ∧ final.state.Created := by
  apply exists_run_of_measure (fun flow => ∃ received, FlowInv records flow received)
    (fun flow => flow.state.Created) RecordFlow.left _ (FlowInv.run fits run)
  rintro flow ⟨received, inv⟩ waits
  exact inv.goesOn fits waits

/-- At the end of its loop the parent has every record once. -/
theorem RecordFlow.dlist_perm (fits : ∀ worker, ∀ region ∈ records worker, region.Fits)
    {events : List (CreateEvent (Fin count))}
    (run : runEvents RecordFlow.step (.start records) events = some flow)
    (created : flow.state.Created) :
    flow.state.dlist.Perm (((List.finRange count).flatMap records).map Region.entry) := by
  obtain ⟨received, inv⟩ := FlowInv.run fits run
  have all : received = records := funext fun worker => inv.gone worker (created.2 worker)
  rw [List.map_flatMap, ← all]
  exact inv.dlist

end Invariant

end Pkgng
