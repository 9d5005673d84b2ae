import Pkgng.Jobs.Priorities

/-!
# What a priority update reaches

A call of `pkg_jobs_update_universe_item_priority` walks from an item to the end
of its chain, from each item to the chains its `deps_func` lists, and from a
remote item to the installed items it conflicts with.  It never lowers a
priority, and it changes no other items than these.
-/

set_option autoImplicit false

namespace Pkgng

open Lib

namespace JobsUniverse

variable {u : JobsUniverse}

theorem mem_chainOf (inv : u.Chained) {uid : Uid} {item : Addr} (inChain : item ∈ u.chainOf uid) :
    item ∈ u.units ∧ (u.pkg item).uid = uid ∧ (u.find uid).isSome = true := by
  rw [chainOf] at inChain
  cases found : u.find uid with
  | none =>
      rw [found] at inChain
      cases inChain
  | some head =>
      rw [found] at inChain
      exact ⟨mem_units.mpr ⟨_, (find_eq_some_iff inv).mp found, inChain⟩,
        pkg_uid_of_find inv found inChain, rfl⟩

theorem mem_chainOf_uid (inv : u.Chained) {item : Addr} (reachable : item ∈ u.units) :
    item ∈ u.chainOf (u.pkg item).uid := by
  obtain ⟨entry, member, inChain⟩ := mem_units.mp reachable
  have found := (find_eq_some_iff inv).mpr member
  rw [chainOf, inv.homogeneous entry member item inChain, found]
  exact inChain

/-- Each item of the list starts a walk over the rest of the list. -/
def Spells (u : JobsUniverse) : List Addr → Prop
  | [] => True
  | it :: rest => u.chain it = it :: rest ∧ u.Spells rest

theorem Spells.chain_subset {items : List Addr} (spells : u.Spells items) {it : Addr}
    (member : it ∈ items) : ∀ x ∈ u.chain it, x ∈ items := by
  induction items with
  | nil => cases member
  | cons first rest ih =>
      obtain ⟨spelled, spellsRest⟩ := spells
      rcases List.mem_cons.mp member with rfl | inRest
      · exact fun x later => spelled ▸ later
      · exact fun x later => List.mem_cons_of_mem _ (ih spellsRest inRest x later)

section Walk

variable (inv : u.Chained)

include inv

/-- `LL_FOREACH` from an item inside a chain visits the end of the chain. -/
theorem chain_at {entry : Uid × Addr} (member : entry ∈ u.items) {pre rest : List Addr} {it : Addr}
    (spelled : u.chain entry.2 = pre ++ it :: rest) : u.chain it = it :: rest := by
  have forward : Links.Forward u.links (it :: rest) :=
    Links.forward_suffix pre (spelled ▸ (inv.linked entry member).forward)
  have short := chain_length_le inv member
  rw [spelled, List.length_append] at short
  exact Links.walk_of_forward u.pkgs.length forward (Nat.le_of_add_left_le short)

theorem chain_suffix {item : Addr} (reachable : item ∈ u.units) :
    ∃ entry ∈ u.items, ∃ pre rest, u.chain entry.2 = pre ++ item :: rest ∧
      u.chain item = item :: rest := by
  obtain ⟨entry, member, inChain⟩ := mem_units.mp reachable
  obtain ⟨pre, rest, spelled⟩ := List.append_of_mem inChain
  exact ⟨entry, member, pre, rest, spelled, chain_at inv member spelled⟩

theorem exists_chain_cons {item : Addr} (reachable : item ∈ u.units) :
    ∃ rest, u.chain item = item :: rest ∧ item ∉ rest := by
  obtain ⟨entry, member, pre, rest, spelled, here⟩ := chain_suffix inv reachable
  have nodup := (inv.linked entry member).nodup
  rw [spelled, List.nodup_append] at nodup
  exact ⟨rest, here, (List.nodup_cons.mp nodup.2.1).1⟩

theorem spells_chain {item : Addr} (reachable : item ∈ u.units) : u.Spells (u.chain item) := by
  obtain ⟨entry, member, pre, rest, spelled, here⟩ := chain_suffix inv reachable
  have spells : ∀ list pre, u.chain entry.2 = pre ++ list → u.Spells list := by
    intro list
    induction list with
    | nil => exact fun _ _ => trivial
    | cons it rest ih =>
        intro pre spelled
        exact ⟨chain_at inv member spelled, ih (pre ++ [it]) (by rw [spelled]; simp)⟩
  rw [here]
  exact spells _ pre spelled

theorem mem_chain_self {item : Addr} (reachable : item ∈ u.units) : item ∈ u.chain item := by
  obtain ⟨rest, here, _⟩ := exists_chain_cons inv reachable
  exact here ▸ List.mem_cons_self ..

/-- What comes later in a chain. -/
theorem mem_chain {item other : Addr} (reachable : item ∈ u.units) (later : other ∈ u.chain item) :
    other ∈ u.units ∧ (u.pkg other).uid = (u.pkg item).uid := by
  obtain ⟨entry, member, pre, rest, spelled, here⟩ := chain_suffix inv reachable
  have inEntry : other ∈ u.chain entry.2 := by
    rw [spelled, ← here]
    exact List.mem_append_right _ later
  have itemIn : item ∈ u.chain entry.2 := by simp [spelled]
  refine ⟨mem_units.mpr ⟨entry, member, inEntry⟩, ?_⟩
  rw [inv.homogeneous entry member other inEntry, inv.homogeneous entry member item itemIn]

end Walk

variable (inv : u.Chained)

include inv

theorem mem_chainOf_of_mem_chain {uid : Uid} {item other : Addr} (inChain : item ∈ u.chainOf uid)
    (later : other ∈ u.chain item) : other ∈ u.chainOf uid := by
  obtain ⟨reachable, sameUid, _⟩ := mem_chainOf inv inChain
  obtain ⟨otherReachable, otherUid⟩ := mem_chain inv reachable later
  rw [← sameUid, ← otherUid]
  exact mem_chainOf_uid inv otherReachable

end JobsUniverse

/-- The items that an update started at an item may set, each with the type of
the update that does. -/
inductive Reaches (u : JobsUniverse) (type : PriorityUpdate) (item : Addr) :
    PriorityUpdate → Addr → Prop
  | here {it : Addr} (later : it ∈ u.chain item) (active : type.skips (u.pkg it) = false) :
      Reaches u type item type it
  | dep {kind : PriorityUpdate} {it other : Addr} {d : Dep} (reached : Reaches u type item kind it)
      (listed : d ∈ kind.depsFunc (u.pkg it)) (inChain : other ∈ u.chainOf d.uid)
      (active : kind.skips (u.pkg other) = false) : Reaches u type item kind other
  | conflict {kind : PriorityUpdate} {it cur other : Addr} {c : Conflict}
      (reached : Reaches u type item kind it) (remote : (u.pkg it).isInstalled = false)
      (listed : c ∈ (u.pkg it).conflicts) (inChain : cur ∈ u.chainOf c.uniqueid)
      (installed : (u.pkg cur).isInstalled = true) (later : other ∈ u.chain cur)
      (active : PriorityUpdate.conflict.skips (u.pkg other) = false) :
      Reaches u type item .conflict other

theorem active_of_remote {kind : PriorityUpdate} {pkg : Pkg} (remote : pkg.isInstalled = false)
    (active : kind.skips pkg = false) : kind = .request := by
  cases kind with
  | request => rfl
  | conflict => simp [PriorityUpdate.skips, remote] at active
  | delete => simp [PriorityUpdate.skips, remote] at active

namespace Reaches

variable {u : JobsUniverse} {type kind : PriorityUpdate} {item it other : Addr}

theorem active (reached : Reaches u type item kind it) : kind.skips (u.pkg it) = false := by
  cases reached with
  | here _ active => exact active
  | dep _ _ _ active => exact active
  | conflict _ _ _ _ _ _ active => exact active

theorem mem_units (inv : u.Chained) (reachable : item ∈ u.units)
    (reached : Reaches u type item kind it) : it ∈ u.units := by
  cases reached with
  | here later _ => exact (JobsUniverse.mem_chain inv reachable later).1
  | dep _ _ inChain _ => exact (JobsUniverse.mem_chainOf inv inChain).1
  | conflict _ _ _ inChain _ later _ =>
      exact (JobsUniverse.mem_chain inv (JobsUniverse.mem_chainOf inv inChain).1 later).1

/-- What is reached from an item further down the chain. -/
theorem of_later (sub : ∀ x ∈ u.chain other, x ∈ u.chain item)
    (reached : Reaches u type other kind it) : Reaches u type item kind it := by
  induction reached with
  | here later active => exact .here (sub _ later) active
  | dep _ listed inChain active ih => exact .dep ih listed inChain active
  | conflict _ remote listed inChain installed later active ih =>
      exact .conflict ih remote listed inChain installed later active

/-- What is reached through a dependency. -/
theorem of_dep (inv : u.Chained) {kind' : PriorityUpdate} {cur : Addr} {d : Dep}
    (reached : Reaches u type item kind it) (listed : d ∈ kind.depsFunc (u.pkg it))
    (inChain : cur ∈ u.chainOf d.uid) (further : Reaches u kind cur kind' other) :
    Reaches u type item kind' other := by
  induction further with
  | here later active =>
      exact .dep reached listed (JobsUniverse.mem_chainOf_of_mem_chain inv inChain later) active
  | dep _ listed inChain active ih => exact .dep ih listed inChain active
  | conflict _ remote listed inChain installed later active ih =>
      exact .conflict ih remote listed inChain installed later active

/-- What is reached through a conflict. -/
theorem of_conflict {kind' : PriorityUpdate} {cur : Addr} {c : Conflict}
    (reached : Reaches u type item kind it) (remote : (u.pkg it).isInstalled = false)
    (listed : c ∈ (u.pkg it).conflicts) (inChain : cur ∈ u.chainOf c.uniqueid)
    (installed : (u.pkg cur).isInstalled = true) (further : Reaches u .conflict cur kind' other) :
    Reaches u type item kind' other := by
  induction further with
  | here later active => exact .conflict reached remote listed inChain installed later active
  | dep _ listed inChain active ih => exact .dep ih listed inChain active
  | conflict _ remote listed inChain installed later active ih =>
      exact .conflict ih remote listed inChain installed later active

/-- What is reached further down the chain of a reached item. -/
theorem along (inv : u.Chained) (reachable : item ∈ u.units) (reached : Reaches u type item kind it)
    (later : other ∈ u.chain it) (active : kind.skips (u.pkg other) = false) :
    Reaches u type item kind other := by
  cases reached with
  | here inChain _ =>
      exact .here ((JobsUniverse.spells_chain inv reachable).chain_subset inChain _ later) active
  | dep before listed inChain _ =>
      exact .dep before listed (JobsUniverse.mem_chainOf_of_mem_chain inv inChain later) active
  | conflict before remote listed inChain installed inCur _ =>
      have curReachable := (JobsUniverse.mem_chainOf inv inChain).1
      exact .conflict before remote listed inChain installed
        ((JobsUniverse.spells_chain inv curReachable).chain_subset inCur _ later) active

/-- What is reached from a reached item. -/
theorem trans (inv : u.Chained) (reachable : item ∈ u.units) {kind' : PriorityUpdate}
    (reached : Reaches u type item kind it) (further : Reaches u kind it kind' other) :
    Reaches u type item kind' other := by
  induction further with
  | here later active => exact reached.along inv reachable later active
  | dep _ listed inChain active ih => exact .dep ih listed inChain active
  | conflict _ remote listed inChain installed later active ih =>
      exact .conflict ih remote listed inChain installed later active

end Reaches

/-! ## The frame -/

/-- No priority falls, and only those of some items change. -/
structure Touches (touched : Addr → Prop) (prio prio' : Priorities) : Prop where
  mono : ∀ it, prio.of it ≤ prio'.of it
  frame : ∀ it, prio'.of it ≠ prio.of it → touched it

namespace Touches

variable {touched touched' : Addr → Prop} {prio prio' prio'' : Priorities}

theorem refl (touched : Addr → Prop) (prio : Priorities) : Touches touched prio prio :=
  ⟨fun _ => Nat.le_refl _, fun _ changed => absurd rfl changed⟩

theorem trans (first : Touches touched prio prio') (second : Touches touched prio' prio'') :
    Touches touched prio prio'' := by
  refine ⟨fun it => Nat.le_trans (first.mono it) (second.mono it), fun it changed => ?_⟩
  by_cases same : prio''.of it = prio'.of it
  · exact first.frame it (same ▸ changed)
  · exact second.frame it same

theorem widen (touches : Touches touched prio prio') (sub : ∀ it, touched it → touched' it) :
    Touches touched' prio prio' :=
  ⟨touches.mono, fun it changed => sub it (touches.frame it changed)⟩

theorem unchanged (touches : Touches touched prio prio') {it : Addr} (apart : ¬ touched it) :
    prio'.of it = prio.of it := by
  by_contra changed
  exact apart (touches.frame it changed)

theorem set {item : Addr} {priority : Nat} (old : prio.of item ≤ priority)
    (here : touched item) : Touches touched prio (prio.set item priority) := by
  constructor
  · intro it
    by_cases same : it = item
    · rw [same, Priorities.set_self]
      exact old
    · rw [Priorities.set_other prio priority same]
  · intro it changed
    by_cases same : it = item
    · rw [same]
      exact here
    · exact absurd (Priorities.set_other prio priority same) changed

theorem foldl {β : Type} {step : Priorities → β → Priorities} {list : List β}
    (turn : ∀ x ∈ list, ∀ prio, Touches touched prio (step prio x)) :
    Touches touched prio (list.foldl step prio) :=
  List.foldlRecOn list step (.refl touched prio) fun after sofar x member =>
    sofar.trans (turn x member after)

end Touches

section Frame

variable {u : JobsUniverse} {self : UpdatePriority} {type : PriorityUpdate} {priority : Nat}
  {prio : Priorities}

/-- What a call touches. -/
def FrameSpec (u : JobsUniverse) (self : UpdatePriority) : Prop :=
  ∀ (prio : Priorities) (item : Addr) (priority : Nat) (type : PriorityUpdate), item ∈ u.units →
    Touches (fun it => ∃ kind, Reaches u type item kind it) prio (self prio item priority type)

variable (inv : u.Chained) (calls : FrameSpec u self)

include inv calls

theorem touches_raiseDeps (deps : List Dep) :
    Touches (fun it => ∃ d ∈ deps, ∃ cur ∈ u.chainOf d.uid, ∃ kind, Reaches u type cur kind it) prio
      (raiseDeps u self type priority deps prio) := by
  refine .foldl fun d member prio => .foldl fun cur inChain prio => ?_
  split
  · exact (calls prio cur (priority + 1) type (JobsUniverse.mem_chainOf inv inChain).1).widen
      fun it reached => ⟨d, member, cur, inChain, reached⟩
  · exact .refl _ _

theorem touches_raiseConflicts (it : Addr) (conflicts : List Conflict) :
    Touches (fun other => ∃ c ∈ conflicts, ∃ cur ∈ u.chainOf c.uniqueid,
        (u.pkg cur).isInstalled = true ∧ ∃ kind, Reaches u .conflict cur kind other) prio
      (raiseConflicts u self it conflicts prio) := by
  refine .foldl fun c member prio => .foldl fun cur inChain prio => ?_
  split
  · next installed =>
      split
      · exact (calls prio cur _ .conflict (JobsUniverse.mem_chainOf inv inChain).1).widen
          fun other reached => ⟨c, member, cur, inChain, installed, reached⟩
      · exact .refl _ _
  · exact .refl _ _

theorem touches_updateItems : ∀ {items : List Addr} {prio : Priorities}, u.Spells items →
    (∀ it ∈ items, it ∈ u.units) →
    Touches (fun other => ∃ it ∈ items, ∃ kind, Reaches u type it kind other) prio
      (updateItems u self priority type items prio) := by
  intro items
  induction items with
  | nil => exact fun _ _ => .refl _ _
  | cons it rest ih =>
      intro prio spells reachable
      obtain ⟨spelled, spellsRest⟩ := spells
      have itReachable := reachable it (List.mem_cons_self ..)
      have later : ∀ mid, Touches (fun other => ∃ x ∈ it :: rest, ∃ kind, Reaches u type x kind other)
          mid (updateItems u self priority type rest mid) := fun mid =>
        (ih spellsRest fun other member => reachable other (List.mem_cons_of_mem _ member)).widen
          fun other ⟨x, member, reached⟩ => ⟨x, List.mem_cons_of_mem _ member, reached⟩
      have within : ∀ {mid mid' : Priorities},
          Touches (fun other => ∃ kind, Reaches u type it kind other) mid mid' →
          Touches (fun other => ∃ x ∈ it :: rest, ∃ kind, Reaches u type x kind other) mid mid' :=
        fun touches => touches.widen fun other reached => ⟨it, List.mem_cons_self .., reached⟩
      rw [updateItems]
      split
      · exact later prio
      · next active =>
          have here : Reaches u type it type it :=
            .here (spelled ▸ List.mem_cons_self ..) (by simpa using active)
          split
          · exact later prio
          · next old =>
              dsimp only
              have raised : Touches (fun other => ∃ kind, Reaches u type it kind other) prio
                  (raiseDeps u self type priority (type.depsFunc (u.pkg it))
                    (prio.set it priority)) :=
                (Touches.set (Nat.le_of_not_lt old) ⟨type, here⟩).trans
                  ((touches_raiseDeps inv calls _).widen
                    fun other ⟨d, listed, cur, inChain, kind, reached⟩ =>
                      ⟨kind, .of_dep inv here listed inChain reached⟩)
              split
              · exact within (raised.trans (calls _ it _ type itReachable))
              · split
                · exact (within raised).trans (later _)
                · next remote =>
                    refine ((within raised).trans (within ?_)).trans (later _)
                    exact (touches_raiseConflicts inv calls it _).widen
                      fun other ⟨c, listed, cur, inChain, installed, kind, reached⟩ =>
                        ⟨kind, .of_conflict here (by simpa using remote) listed inChain installed
                          reached⟩

omit calls in
/-- `pkg_jobs_update_universe_item_priority`. -/
theorem touches_updateItemPriority : ∀ depth, FrameSpec u (updateItemPriority u depth) := by
  intro depth
  induction depth with
  | zero => exact fun prio item priority type _ => ⟨fun _ => Nat.le_refl _, fun _ changed =>
      absurd rfl changed⟩
  | succ depth ih =>
      intro prio item priority type reachable
      rw [updateItemPriority]
      split
      · exact ⟨fun _ => Nat.le_refl _, fun _ changed => absurd rfl changed⟩
      · have spells := JobsUniverse.spells_chain inv reachable
        refine (touches_updateItems inv ih spells
            fun it later => (JobsUniverse.mem_chain inv reachable later).1).widen
          fun other ⟨it, member, kind, reached⟩ => ⟨kind, reached.of_later (spells.chain_subset member)⟩

end Frame

end Pkgng
