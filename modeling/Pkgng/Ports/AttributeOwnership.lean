import Pkgng.Ports.KeywordScripts

/-!
# Who frees the attributes

Nearly every action frees the record that it is given, and `parse_actions` gives the same one to
all actions of a definition.  The events of a keyword are followed through its actions.
-/

set_option autoImplicit false

namespace Pkgng

open Lib

/-- Nothing is done with the record once it has been freed. -/
def OwnedOnce (events : List AttrEvent) : Prop := events.Pairwise fun event _ => event ≠ .free

instance (events : List AttrEvent) : Decidable (OwnedOnce events) :=
  inferInstanceAs (Decidable (events.Pairwise fun event _ => event ≠ .free))

section Ownership

variable (env : PortsEnv)

/-- What a keyword does with its record. -/
def keywordEvents (keyword : List Char) (p : Plist) (mem : LineMem) : List AttrEvent :=
  (parseKeywords env keyword ⟨p, mem, []⟩).work.events

/-- The action comes to its record: it does not end before, and is neither `setmode` of an empty
line nor `file` of a link that cannot be read. -/
def ComesToRecord (act : PlistAction) (w : Work) : Prop :=
  match act with
  | .dirrm | .dirrmtry => ∃ c ∈ w.line.text ++ w.line.before, isspace c = false
  | .file =>
      ∃ line, trimLine w.line = some line ∧
        ¬∃ st, env.lstat (w.plist.testpath ((w.plist.pathOf line.text).take (maxPathLen - 1))) =
            some st ∧ st.kind = .link ∧
          env.symlinkCksum (w.plist.testpath ((w.plist.pathOf line.text).take (maxPathLen - 1)))
            w.plist.stage = none
  | .setmod => w.line.text ≠ []
  | _ => ∃ code w', act.perform env w none = .returned code w'

/-- The actions of a definition that are performed, each with the state before it. -/
def performedActions :
    List PlistAction → Work → Option FileAttr → List (PlistAction × Work)
  | [], _, _ => []
  | act :: rest, w, a =>
      (act, w) ::
        match act.perform env w a with
        | .fault _ _ => []
        | .returned _ w => performedActions rest w a

/-- Of two actions that are performed at most one comes to the record. -/
def TouchedOnce (performed : List (PlistAction × Work)) : Prop :=
  performed.Pairwise fun first later =>
    ¬(ComesToRecord env first.1 first.2 ∧ ComesToRecord env later.1 later.2)

/-- The keyword is found in a file, with this definition. -/
structure DefinedAs (key : List Char) (d : KeywordDef) : Prop where
  named : key ≠ []
  notInTable : (keyacts.find? fun entry => entry.1.toList = key) = none
  defined : env.keywordFile key = .definition d

end Ownership

/-! ## One action -/

/-- The events that an action adds to those before it. -/
inductive EventsOf (touches : Prop) (before : List AttrEvent) : Performed → Prop
  | untouched (code : PlistCode) (w : Work) (no : ¬touches) (same : w.events = before) :
      EventsOf touches before (.returned code w)
  | ended (cause : PlistFault) (w : Work) (no : ¬touches) (same : w.events = before) :
      EventsOf touches before (.fault cause w)
  | freed (code : PlistCode) (w : Work) (yes : touches) (uses : List AttrEvent)
      (kinds : uses = [] ∨ uses = [.use]) (more : w.events = before ++ (uses ++ [.free])) :
      EventsOf touches before (.returned code w)
  | used (cause : PlistFault) (w : Work) (yes : touches) (more : w.events = before ++ [.use]) :
      EventsOf touches before (.fault cause w)

/-- `free` behind an action that returns. -/
def Performed.freeing (r : Performed) (a : Option FileAttr) : Performed :=
  match r with
  | .returned code w => .returned code (w.freeAttr a)
  | .fault cause w => .fault cause w

section Actions

variable {env : PortsEnv} {w : Work} {attr : FileAttr}

/-- The actions that do nothing with the record but free it where they return. -/
structure OnlyFrees (perform : Work → Option FileAttr → Performed) (w : Work) : Prop where
  frees : ∀ a, perform w a = (perform w none).freeing a
  keeps : (perform w none).work.events = w.events

theorem OnlyFrees.eventsOf {perform : Work → Option FileAttr → Performed}
    (only : OnlyFrees perform w) :
    EventsOf (∃ code w', perform w none = .returned code w') w.events
      (perform w (some attr)) := by
  have keeps := only.keeps
  rw [only.frees (some attr)]
  cases performed : perform w none with
  | fault cause w' =>
      rw [performed] at keeps
      exact .ended cause w' (by rintro ⟨_, _, ⟨⟩⟩) keeps
  | returned code w' =>
      rw [performed] at keeps
      refine .freed code _ ⟨code, w', rfl⟩ [] (.inl rfl) ?_
      exact congrArg (fun events => events ++ [AttrEvent.free]) keeps

theorem setPrefix_onlyFrees (w : Work) : OnlyFrees setPrefix w := by
  refine ⟨fun a => ?_, ?_⟩ <;> unfold setPrefix
  · split
    · rfl
    · dsimp only
      split <;> rfl
  · split
    · rfl
    · dsimp only
      split <;> rfl

theorem nameKey_onlyFrees (w : Work) : OnlyFrees nameKey w := by
  refine ⟨fun a => ?_, ?_⟩ <;> unfold nameKey
  · split
    · rfl
    · dsimp only
      split <;> rfl
  · split
    · rfl
    · dsimp only
      split <;> rfl

theorem pkgdep_onlyFrees (w : Work) : OnlyFrees pkgdep w := by
  refine ⟨fun a => ?_, ?_⟩ <;> unfold pkgdep <;> split <;> rfl

theorem commentKey_onlyFrees (env : PortsEnv) (w : Work) : OnlyFrees (commentKey env) w := by
  refine ⟨fun a => ?_, ?_⟩ <;> unfold commentKey <;> dsimp only
  · split
    · split
      · rfl
      · split
        · rfl
        · split <;> rfl
    · split
      · rfl
      · split
        · split <;> rfl
        · rfl
  · split
    · split
      · rfl
      · split
        · rfl
        · split <;> rfl
    · split
      · rfl
      · split
        · split <;> rfl
        · rfl

/-- What an entry of the package does with the record: it is used for the owner and so on, and
freed where the assertion holds. -/
theorem added_eventsOf {touches : Prop} {before : List AttrEvent} (yes : touches)
    (same : w.events = before) (r : Option (Epkg × PkgObject)) :
    EventsOf touches before ((w.useAttr (some attr)).added (some attr) r) := by
  cases r with
  | none => exact .used .assertion _ yes (congrArg (fun events => events ++ [AttrEvent.use]) same)
  | some r =>
      refine .freed _ _ yes [.use] (.inr rfl) ?_
      rw [← same]
      exact List.append_assoc _ _ _

theorem metaDirrm_eventsOf (try_ : Bool) :
    EventsOf (∃ c ∈ w.line.text ++ w.line.before, isspace c = false) w.events
      (metaDirrm env try_ w (some attr)) := by
  unfold metaDirrm
  cases trims : trimLine w.line with
  | none => exact .ended _ w ((trimLine_none_iff _).mp trims) rfl
  | some line =>
      have solid : ∃ c ∈ w.line.text ++ w.line.before, isspace c = false := by
        by_contra blank
        rw [(trimLine_none_iff _).mpr blank] at trims
        cases trims
      dsimp only
      split
      · exact .freed _ _ solid [] (.inl rfl) rfl
      · refine added_eventsOf solid ?_ _
        rfl

theorem addEntryFor_eventsOf {touches : Prop} {before : List AttrEvent} (yes : touches)
    (same : w.events = before) (path : List Char) (kind : PathKind) (sum : Option String) :
    EventsOf touches before (addEntryFor env path kind sum w (some attr)) := by
  unfold addEntryFor
  dsimp only
  split <;> exact added_eventsOf yes same _

theorem addRegular_eventsOf {touches : Prop} {before : List AttrEvent} (yes : touches)
    (same : w.events = before) (path testpath : List Char) (st : PathStat) :
    EventsOf touches before (addRegular env path testpath st w (some attr)) := by
  unfold addRegular
  generalize (if 1 < st.nlink then w.plist.checkForHardlink st.ino else (false, w.plist)) = met
  dsimp only
  split
  · refine addEntryFor_eventsOf yes ?_ _ _ _
    exact same
  · refine addEntryFor_eventsOf yes ?_ _ _ _
    exact same

theorem file_eventsOf : EventsOf (ComesToRecord env .file w) w.events (file env w (some attr)) := by
  unfold file ComesToRecord
  cases trims : trimLine w.line with
  | none => exact .ended _ w (by simp) rfl
  | some line =>
      simp only [Option.some.injEq, exists_eq_left']
      cases found : env.lstat (w.plist.testpath
          ((w.plist.pathOf line.text).take (maxPathLen - 1))) with
      | none => exact .freed _ _ (by simp) [] (.inl rfl) rfl
      | some st =>
          simp only [Option.some.injEq, exists_eq_left']
          cases isKind : st.kind with
          | regular =>
              refine addRegular_eventsOf ?_ ?_ _ _ _
              · simp
              · rfl
          | link =>
              simp only [true_and]
              cases sum : env.symlinkCksum (w.plist.testpath
                  ((w.plist.pathOf line.text).take (maxPathLen - 1))) w.plist.stage with
              | none => exact .untouched _ _ (fun no => no rfl) rfl
              | some sum =>
                  dsimp only
                  refine addEntryFor_eventsOf ?_ ?_ _ _ _
                  · simp
                  · rfl
          | directory =>
              refine addEntryFor_eventsOf ?_ ?_ _ _ _
              · simp
              · rfl
          | other =>
              refine addEntryFor_eventsOf ?_ ?_ _ _ _
              · simp
              · rfl

theorem setmod_eventsOf : EventsOf (w.line.text ≠ []) w.events (setmod env w (some attr)) := by
  unfold setmod
  dsimp only
  split
  · next empty => exact .untouched _ _ (fun nonempty => nonempty empty) rfl
  · next nonempty => split <;> exact .freed _ _ nonempty [] (.inl rfl) rfl

/-- Every action of a definition. -/
theorem perform_eventsOf (act : PlistAction) (notExec : act ≠ .exec) (notUnexec : act ≠ .unexec) :
    EventsOf (ComesToRecord env act w) w.events (act.perform env w (some attr)) := by
  cases act with
  | setPrefix => exact (setPrefix_onlyFrees w).eventsOf
  | dirrm => exact metaDirrm_eventsOf false
  | dirrmtry => exact metaDirrm_eventsOf true
  | file => exact file_eventsOf
  | setmod => exact setmod_eventsOf
  | setowner => exact OnlyFrees.eventsOf ⟨fun _ => rfl, rfl⟩
  | setgroup => exact OnlyFrees.eventsOf ⟨fun _ => rfl, rfl⟩
  | commentKey => exact (commentKey_onlyFrees env w).eventsOf
  | ignoreNext => exact OnlyFrees.eventsOf ⟨fun _ => rfl, rfl⟩
  | exec => exact absurd rfl notExec
  | unexec => exact absurd rfl notUnexec
  | nameKey => exact (nameKey_onlyFrees w).eventsOf
  | pkgdep => exact (pkgdep_onlyFrees w).eventsOf

/-- What one action may do. -/
def ownedTraces : List (List AttrEvent) := [[], [.free], [.use, .free], [.use]]

theorem ownedOnce_of_mem {t : List AttrEvent} (member : t ∈ ownedTraces) : OwnedOnce t := by
  have all : (ownedTraces.all fun t => decide (OwnedOnce t)) = true := by decide
  exact of_decide_eq_true (List.all_eq_true.mp all t member)

theorem EventsOf.trace {touches : Prop} {before : List AttrEvent} {r : Performed}
    (events : EventsOf touches before r) : ∃ t ∈ ownedTraces, r.work.events = before ++ t := by
  cases events with
  | untouched code w no same => exact ⟨[], by decide, same.trans (List.append_nil _).symm⟩
  | ended cause w no same => exact ⟨[], by decide, same.trans (List.append_nil _).symm⟩
  | freed code w yes uses kinds more =>
      refine ⟨uses ++ [AttrEvent.free], ?_, more⟩
      rcases kinds with rfl | rfl <;> decide
  | used cause w yes more => exact ⟨[.use], by decide, more⟩

/-! ## Without a record -/

theorem added_none_events (r : Option (Epkg × PkgObject)) :
    (w.added none r).work.events = w.events := by
  cases r <;> rfl

theorem metaDirrm_none_events (try_ : Bool) :
    (metaDirrm env try_ w none).work.events = w.events := by
  unfold metaDirrm
  split
  · rfl
  · dsimp only
    split
    · rfl
    · exact added_none_events _

theorem addEntryFor_none_events (path : List Char) (kind : PathKind) (sum : Option String) :
    (addEntryFor env path kind sum w none).work.events = w.events := by
  unfold addEntryFor
  dsimp only
  split <;> exact added_none_events _

theorem file_none_events : (file env w none).work.events = w.events := by
  unfold file
  split
  · rfl
  · dsimp only
    split
    · rfl
    · split
      · unfold addRegular
        generalize (if 1 < _ then w.plist.checkForHardlink _ else (false, w.plist)) = met
        dsimp only
        split <;> exact addEntryFor_none_events _ _ _
      · split
        · rfl
        · exact addEntryFor_none_events _ _ _
      · exact addEntryFor_none_events _ _ _

theorem dirrmPaths_none_events (paths : List (List Char)) :
    (dirrmPaths env paths w none).1.work.events = w.events ∧
      (dirrmPaths env paths w none).2 = none := by
  induction paths generalizing w with
  | nil => exact ⟨rfl, rfl⟩
  | cons path rest ih =>
      rw [dirrmPaths]
      split
      · exact ⟨rfl, rfl⟩
      · split
        · exact ih
        · have kept := @metaDirrm_none_events env { w with line := ⟨[], path⟩ } true
          cases performed : metaDirrm env true { w with line := ⟨[], path⟩ } none with
          | fault cause w' =>
              rw [performed] at kept
              exact ⟨kept, rfl⟩
          | returned code w' =>
              rw [performed] at kept
              obtain ⟨events, left⟩ := @ih { w' with line := w.line }
              exact ⟨events.trans kept, left⟩

/-- Only the first path is given the record. -/
theorem dirrmPaths_events (paths : List (List Char)) :
    ∃ t ∈ ownedTraces,
      (dirrmPaths env paths w (some attr)).1.work.events = w.events ++ t ∧
        ((dirrmPaths env paths w (some attr)).2 ≠ none → t = []) := by
  induction paths generalizing w with
  | nil => exact ⟨[], List.mem_cons_self, (List.append_nil _).symm, fun _ => rfl⟩
  | cons path rest ih =>
      rw [dirrmPaths]
      split
      · exact ⟨[], List.mem_cons_self, (List.append_nil _).symm, fun _ => rfl⟩
      · split
        · exact ih
        · have events := @metaDirrm_eventsOf env { w with line := ⟨[], path⟩ } attr true
          generalize metaDirrm env true { w with line := ⟨[], path⟩ } (some attr) = performed
            at events ⊢
          cases events with
          | untouched code w' no same =>
              obtain ⟨later, left⟩ := @dirrmPaths_none_events env { w' with line := w.line } rest
              refine ⟨[], List.mem_cons_self, ?_, fun _ => rfl⟩
              rw [List.append_nil]
              exact later.trans same
          | ended cause w' no same =>
              exact ⟨[], List.mem_cons_self, same.trans (List.append_nil _).symm, fun _ => rfl⟩
          | freed code w' yes uses kinds more =>
              obtain ⟨later, left⟩ := @dirrmPaths_none_events env { w' with line := w.line } rest
              refine ⟨uses ++ [.free], ?_, later.trans more, fun kept => absurd left kept⟩
              rcases kinds with rfl | rfl <;> decide
          | used cause w' yes more => exact ⟨[.use], by decide, more, fun kept => absurd rfl kept⟩

theorem metaExec_none_events (unexec : Bool) :
    (metaExec env unexec w none).work.events = w.events := by
  unfold metaExec
  dsimp only
  split
  · rfl
  · rfl
  · rfl
  · split
    · rfl
    · split
      · rfl
      · next cmd _ _ _ =>
          generalize (if shouldBePost env cmd = true then w.plist
            else w.plist.append .preDeinstall ('#' :: cmd ++ ['\n'])) = p
          obtain ⟨events, left⟩ := @dirrmPaths_none_events env { w with plist := p } (rmdirPaths cmd)
          split
          · next performed =>
              rw [performed] at events
              exact events
          · next performed =>
              rw [performed] at events left
              dsimp only at left
              rw [left]
              exact events

theorem metaExec_trace (unexec : Bool) :
    ∃ t ∈ ownedTraces, (metaExec env unexec w (some attr)).work.events = w.events ++ t := by
  unfold metaExec
  dsimp only
  split
  · exact ⟨[], by decide, (List.append_nil _).symm⟩
  · exact ⟨[], by decide, (List.append_nil _).symm⟩
  · exact ⟨[], by decide, (List.append_nil _).symm⟩
  · split
    · exact ⟨[.free], by decide, rfl⟩
    · split
      · exact ⟨[.free], by decide, rfl⟩
      · next cmd _ _ _ =>
          generalize (if shouldBePost env cmd = true then w.plist
            else w.plist.append .preDeinstall ('#' :: cmd ++ ['\n'])) = p
          obtain ⟨t, member, events, kept⟩ :=
            @dirrmPaths_events env { w with plist := p } attr (rmdirPaths cmd)
          split
          · next performed =>
              rw [performed] at events
              exact ⟨t, member, events⟩
          · next code w' left performed =>
              rw [performed] at events kept
              cases left with
              | none => exact ⟨t, member, events⟩
              | some attr' =>
                  rw [kept (Option.some_ne_none _), List.append_nil] at events
                  exact ⟨[.free], by decide,
                    congrArg (fun events => events ++ [AttrEvent.free]) events⟩

theorem perform_none_events (act : PlistAction) :
    (act.perform env w none).work.events = w.events := by
  cases act with
  | setPrefix => exact (setPrefix_onlyFrees w).keeps
  | dirrm => exact metaDirrm_none_events false
  | dirrmtry => exact metaDirrm_none_events true
  | file => exact file_none_events
  | setmod =>
      simp only [PlistAction.perform, setmod]
      split
      · rfl
      · split <;> rfl
  | setowner => rfl
  | setgroup => rfl
  | commentKey => exact (commentKey_onlyFrees env w).keeps
  | ignoreNext => rfl
  | exec => exact metaExec_none_events false
  | unexec => exact metaExec_none_events true
  | nameKey => exact (nameKey_onlyFrees w).keeps
  | pkgdep => exact (pkgdep_onlyFrees w).keeps

theorem perform_trace (act : PlistAction) (a : Option FileAttr) :
    ∃ t ∈ ownedTraces, (act.perform env w a).work.events = w.events ++ t := by
  cases a with
  | none => exact ⟨[], by decide, (perform_none_events act).trans (List.append_nil _).symm⟩
  | some attr =>
      by_cases isExec : act = .exec
      · rw [isExec]
        exact metaExec_trace false
      · by_cases isUnexec : act = .unexec
        · rw [isUnexec]
          exact metaExec_trace true
        · exact (perform_eventsOf act isExec isUnexec).trace

/-! ## The actions of a definition -/

theorem namedActions_ne {names : List (List Char)} {act : PlistAction}
    (member : act ∈ namedActions names) : act ≠ .exec ∧ act ≠ .unexec := by
  obtain ⟨name, _, found⟩ := List.mem_filterMap.mp member
  obtain ⟨entry, inTable, rfl⟩ := Option.map_eq_some_iff.mp found
  have all : (listActions.all fun entry => entry.2 ≠ .exec ∧ entry.2 ≠ .unexec) = true := by decide
  exact of_decide_eq_true (List.all_eq_true.mp all entry (List.mem_of_find?_eq_some inTable))

theorem parseActions_none_events (acts : List PlistAction) :
    (parseActions env acts w none).work.events = w.events := by
  induction acts generalizing w with
  | nil => rfl
  | cons act rest ih =>
      have kept := @perform_none_events env w act
      rw [parseActions]
      cases performed : act.perform env w none with
      | fault cause w' =>
          rw [performed] at kept
          exact kept
      | returned code w' =>
          rw [performed] at kept
          exact ih.trans kept

/-- Behind a free, nothing may come to the record any more. -/
theorem ownedOnce_behind_free {before t : List AttrEvent} (freed : .free ∈ before) :
    OwnedOnce (before ++ t) ↔ OwnedOnce before ∧ t = [] := by
  unfold OwnedOnce
  rw [List.pairwise_append]
  constructor
  · rintro ⟨first, -, apart⟩
    refine ⟨first, List.eq_nil_iff_forall_not_mem.mpr fun event member => ?_⟩
    exact apart .free freed event member rfl
  · rintro ⟨first, rfl⟩
    exact ⟨first, List.Pairwise.nil, nofun⟩

theorem parseActions_behind_free {acts : List PlistAction}
    (named : ∀ act ∈ acts, act ≠ .exec ∧ act ≠ .unexec) (freed : .free ∈ w.events) :
    OwnedOnce (parseActions env acts w (some attr)).work.events ↔ OwnedOnce w.events ∧
      ∀ performed ∈ performedActions env acts w (some attr),
        ¬ComesToRecord env performed.1 performed.2 := by
  induction acts generalizing w with
  | nil => simp [parseActions, performedActions, Performed.work]
  | cons act rest ih =>
      obtain ⟨own, others⟩ := List.forall_mem_cons.mp named
      have events := @perform_eventsOf env w attr act own.1 own.2
      rw [parseActions, performedActions]
      generalize act.perform env w (some attr) = performed at events ⊢
      cases events with
      | untouched code w' no same =>
          rw [List.forall_mem_cons, ih others (same ▸ freed), same]
          exact and_congr_right' (and_iff_right no).symm
      | ended cause w' no same =>
          rw [List.forall_mem_cons, Performed.work, same]
          exact (and_iff_left ⟨no, fun _ member => absurd member List.not_mem_nil⟩).symm
      | freed code w' yes uses kinds more =>
          rw [List.forall_mem_cons, ih others (by rw [more]; simp), more,
            ownedOnce_behind_free freed]
          exact iff_of_false (fun owned => by simp at owned) fun holds => holds.2.1 yes
      | used cause w' yes more =>
          rw [List.forall_mem_cons, Performed.work, more, ownedOnce_behind_free freed]
          exact iff_of_false (fun owned => by simp at owned) fun holds => holds.2.1 yes

/-- A fresh record stays owned exactly if at most one action comes to it. -/
theorem parseActions_owned_iff {acts : List PlistAction}
    (named : ∀ act ∈ acts, act ≠ .exec ∧ act ≠ .unexec) (fresh : w.events = []) :
    OwnedOnce (parseActions env acts w (some attr)).work.events ↔
      TouchedOnce env (performedActions env acts w (some attr)) := by
  unfold TouchedOnce
  induction acts generalizing w with
  | nil =>
      rw [parseActions, performedActions, Performed.work, fresh]
      exact iff_of_true List.Pairwise.nil List.Pairwise.nil
  | cons act rest ih =>
      obtain ⟨own, others⟩ := List.forall_mem_cons.mp named
      have events := @perform_eventsOf env w attr act own.1 own.2
      rw [parseActions, performedActions, List.pairwise_cons]
      rw [fresh] at events
      generalize act.perform env w (some attr) = performed at events ⊢
      cases events with
      | untouched code w' no same =>
          exact (ih others same).trans
            (and_iff_right fun later _ both => no both.1).symm
      | ended cause w' no same =>
          rw [Performed.work, same]
          exact iff_of_true List.Pairwise.nil
            ⟨fun _ member => absurd member List.not_mem_nil, List.Pairwise.nil⟩
      | freed code w' yes uses kinds more =>
          have owned : OwnedOnce w'.events := by
            rw [more]
            rcases kinds with rfl | rfl <;> decide
          dsimp only
          rw [parseActions_behind_free others (by rw [more]; simp), and_iff_right owned]
          constructor
          · intro untouched
            refine ⟨fun later member both => untouched later member both.2, ?_⟩
            exact List.pairwise_of_forall_mem_list fun first member _ _ both =>
              untouched first member both.1
          · exact fun holds later member touches => holds.1 later member ⟨yes, touches⟩
      | used cause w' yes more =>
          rw [Performed.work, more]
          exact iff_of_true (by decide)
            ⟨fun _ member => absurd member List.not_mem_nil, List.Pairwise.nil⟩

end Actions

/-! ## A keyword -/

section Keyword

variable {env : PortsEnv} {w : Work}

theorem runScriptBlocks_events (scripts : ScriptSection → Option (List Char)) (line : List Char) :
    ∀ blocks w, (runScriptBlocks scripts line blocks w).work.events = w.events := by
  intro blocks
  induction blocks with
  | nil => exact fun _ => rfl
  | cons block rest ih =>
      intro w
      rw [runScriptBlocks]
      split
      · exact ih w
      · next template _ =>
          rcases scriptBlock_cases template line block.2 w with
            ⟨cmd, _, performed⟩ | ⟨_, cause, _, performed⟩
          · rw [performed]
            exact ih _
          · rw [performed]
            rfl

theorem applyKeywordFile_owned_iff (d : KeywordDef) (a : Option FileAttr) (fresh : w.events = []) :
    OwnedOnce (applyKeywordFile env d w a).work.events ↔ ∀ names code w',
      d.actions = some names → attributesOf env d a ≠ none →
      runScriptBlocks d.scripts w.line.text scriptBlocks w = .returned code w' →
        TouchedOnce env (performedActions env (namedActions names) w' (attributesOf env d a)) := by
  have kept := runScriptBlocks_events d.scripts w.line.text scriptBlocks w
  unfold applyKeywordFile
  cases performed : runScriptBlocks d.scripts w.line.text scriptBlocks w with
  | fault cause w' =>
      rw [performed, fresh] at kept
      refine iff_of_true ?_ (by rintro _ _ _ _ _ ⟨⟩)
      exact (congrArg OwnedOnce kept).mpr List.Pairwise.nil
  | returned code w' =>
      rw [performed, fresh] at kept
      cases d.actions with
      | none =>
          refine iff_of_true ?_ (by rintro _ _ _ ⟨⟩)
          exact (congrArg OwnedOnce kept).mpr List.Pairwise.nil
      | some names =>
          dsimp only
          cases attributesOf env d a with
          | none =>
              refine iff_of_true ?_ fun _ _ _ _ record => absurd rfl record
              rw [parseActions_none_events]
              exact (congrArg OwnedOnce kept).mpr List.Pairwise.nil
          | some attr =>
              refine (parseActions_owned_iff (fun act member => namedActions_ne member) kept).trans
                ⟨?_, fun once => once names code w' rfl (Option.some_ne_none _) rfl⟩
              rintro once _ _ _ ⟨⟩ _ ⟨⟩
              exact once

theorem keywordActions_trace (act : PlistAction) (ret : PlistCode) (a : Option FileAttr)
    (fresh : w.events = []) :
    OwnedOnce (keywordActions env [act] ret w a).work.events := by
  obtain ⟨t, member, events⟩ := @perform_trace env w act a
  rw [fresh, List.nil_append] at events
  have same : (keywordActions env [act] ret w a).work.events = t := by
    rw [← events, keywordActions]
    cases act.perform env w a with
    | fault cause w' => rfl
    | returned code w' => cases code <;> rfl
  rw [same]
  exact ownedOnce_of_mem member

theorem file_owned (a : Option FileAttr) (fresh : w.events = []) :
    OwnedOnce (file env w a).work.events := by
  obtain ⟨t, member, events⟩ := @perform_trace env w .file a
  rw [fresh, List.nil_append] at events
  exact (congrArg OwnedOnce events).mpr (ownedOnce_of_mem member)

/-- The record of a keyword is freed at most once, and not used behind that, exactly if the
keyword is not defined in a file, or the definition has no record, or of its actions at most one
comes to the record. -/
theorem keywordEvents_owned_iff (env : PortsEnv) (keyword : List Char) (p : Plist)
    (mem : LineMem) :
    OwnedOnce (keywordEvents env keyword p mem) ↔ ∀ key a d names code w,
      keywordAttributes env keyword = .ok (key, a) → DefinedAs env key d →
      d.actions = some names → attributesOf env d a ≠ none →
      runScriptBlocks d.scripts mem.text scriptBlocks ⟨p, mem, []⟩ = .returned code w →
        TouchedOnce env (performedActions env (namedActions names) w (attributesOf env d a)) := by
  unfold keywordEvents parseKeywords
  cases keywordAttributes env keyword with
  | error message => exact iff_of_true List.Pairwise.nil (by rintro _ _ _ _ _ _ ⟨⟩)
  | ok parsed =>
      obtain ⟨key, a⟩ := parsed
      dsimp only
      unfold dispatchKeyword
      by_cases unnamed : key = []
      · rw [if_pos unnamed]
        refine iff_of_true (file_owned a rfl) ?_
        rintro _ _ _ _ _ _ ⟨⟩ isDefined
        exact absurd unnamed isDefined.named
      · rw [if_neg unnamed]
        cases inTable : keyacts.find? fun entry => entry.1.toList = key with
        | some entry =>
            refine iff_of_true (keywordActions_trace entry.2 .fatal a rfl) ?_
            rintro _ _ _ _ _ _ ⟨⟩ isDefined
            cases inTable.symm.trans isDefined.notInTable
        | none =>
            dsimp only
            unfold externalKeyword
            cases isFile : env.keywordFile key with
            | unparsed =>
                refine iff_of_true List.Pairwise.nil ?_
                rintro _ _ _ _ _ _ ⟨⟩ isDefined
                cases isFile.symm.trans isDefined.defined
            | invalid =>
                refine iff_of_true List.Pairwise.nil ?_
                rintro _ _ _ _ _ _ ⟨⟩ isDefined
                cases isFile.symm.trans isDefined.defined
            | definition d =>
                refine (applyKeywordFile_owned_iff d a rfl).trans ⟨?_, fun once names code w =>
                  once key a d names code w rfl ⟨unnamed, inTable, isFile⟩⟩
                rintro once _ _ d' names code w ⟨⟩ isDefined
                cases isFile.symm.trans isDefined.defined
                exact once names code w

end Keyword

/-- Two actions with an owner: both free it. -/
theorem twoActions_not_owned :
    ¬OwnedOnce (keywordEvents
      { bareSystem with keywordFile := fun _ => .definition {
          attributes := some [("owner", .string "root".toList)]
          actions := some ["setowner".toList, "setgroup".toList] } }
      "sample".toList { stage := none, pkg := pkgNew .file } ⟨['@'], "x".toList⟩) := by
  decide +kernel

end Pkgng
