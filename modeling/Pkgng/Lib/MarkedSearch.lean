import Mathlib.Data.List.Nodup
import Mathlib.Logic.Relation

/-!
# Depth-first searches that mark what they have found

A search follows the edges out of a node.  An edge is passed over if its mark has been seen or if
it leads nowhere; else the mark is noted and the search goes on below.  Cycles end at a mark, so
the recursion is no deeper than there are marks.
-/

set_option autoImplicit false

namespace Pkgng.Lib

open Relation

section Search

variable {Node Edge Mark : Type} [DecidableEq Mark] (out : Node → List Edge) (mark : Edge → Mark)
  (find : Edge → Option Node)

/-- The edges of a node, below each of them by the given search. -/
def markedEdges (self : Node → List Mark → Option (List Mark)) :
    List Edge → List Mark → Option (List Mark)
  | [], seen => some seen
  | edge :: rest, seen =>
      if mark edge ∈ seen then markedEdges self rest seen
      else
        match find edge with
        | none => markedEdges self rest seen
        | some node => (self node (seen ++ [mark edge])).bind (markedEdges self rest)

/-- The marks in the order in which they are found, with a bound on the depth. -/
def markedSearch : Nat → Node → List Mark → Option (List Mark)
  | 0, _, _ => none
  | depth + 1, node, seen => markedEdges mark find (markedSearch depth) (out node) seen

/-- An edge that leads from the one node to the other. -/
def Leads (a b : Node) : Prop := ∃ edge ∈ out a, find edge = some b

/-- The edge leads on from a node that can be reached. -/
def Found (start : Node) (edge : Edge) : Prop :=
  ∃ a, ReflTransGen (Leads out find) start a ∧ edge ∈ out a ∧ (find edge).isSome = true

variable {out mark find} {self : Node → List Mark → Option (List Mark)} {seen seen' : List Mark}
  {start node : Node} {edges : List Edge} {depth : Nat}

/-- An edge that leads somewhere has its mark among those seen. -/
def Covers (out : Node → List Edge) (mark : Edge → Mark) (find : Edge → Option Node)
    (seen : List Mark) (a : Node) : Prop :=
  ∀ edge ∈ out a, (find edge).isSome = true → mark edge ∈ seen

/-- What a search adds: new marks, each of an edge that was found and whose end is covered. -/
structure MarksAdded (out : Node → List Edge) (mark : Edge → Mark) (find : Edge → Option Node)
    (start : Node) (seen seen' : List Mark) : Prop where
  grows : ∃ new, seen' = seen ++ new
  nodup : seen.Nodup → seen'.Nodup
  found : ∀ m ∈ seen', m ∉ seen → ∃ edge b, Found out find start edge ∧ mark edge = m ∧
    find edge = some b ∧ Covers out mark find seen' b

omit [DecidableEq Mark] in
theorem MarksAdded.refl : MarksAdded out mark find start seen seen :=
  ⟨⟨[], (List.append_nil _).symm⟩, id, fun _ there absent => absurd there absent⟩

omit [DecidableEq Mark] in
theorem MarksAdded.mono (adds : MarksAdded out mark find start seen seen') {m : Mark}
    (there : m ∈ seen) : m ∈ seen' := by
  obtain ⟨new, rfl⟩ := adds.grows
  exact List.mem_append_left _ there

theorem MarksAdded.trans {seen'' : List Mark} (first : MarksAdded out mark find start seen seen')
    (second : MarksAdded out mark find start seen' seen'') :
    MarksAdded out mark find start seen seen'' where
  grows := by
    obtain ⟨new, rfl⟩ := first.grows
    obtain ⟨more, rfl⟩ := second.grows
    exact ⟨new ++ more, List.append_assoc ..⟩
  nodup := fun nodup => second.nodup (first.nodup nodup)
  found := by
    intro m there absent
    by_cases between : m ∈ seen'
    · obtain ⟨edge, b, found, isMark, leads, covers⟩ := first.found m between absent
      exact ⟨edge, b, found, isMark, leads,
        fun next inOut some => second.mono (covers next inOut some)⟩
    · exact second.found m there between

omit [DecidableEq Mark] in
/-- What is found below an edge is found from its start. -/
theorem MarksAdded.below (adds : MarksAdded out mark find node seen seen')
    (reached : ReflTransGen (Leads out find) start node) :
    MarksAdded out mark find start seen seen' where
  grows := adds.grows
  nodup := adds.nodup
  found := by
    intro m there absent
    obtain ⟨edge, b, ⟨a, path, rest⟩, isMark, leads, covers⟩ := adds.found m there absent
    exact ⟨edge, b, ⟨a, reached.trans path, rest⟩, isMark, leads, covers⟩

theorem markedEdges_adds
    (below : ∀ node seen seen', self node seen = some seen' →
      MarksAdded out mark find node seen seen' ∧ Covers out mark find seen' node)
    (inOut : ∀ edge ∈ edges, edge ∈ out start)
    (ran : markedEdges mark find self edges seen = some seen') :
    MarksAdded out mark find start seen seen' ∧
      ∀ edge ∈ edges, (find edge).isSome = true → mark edge ∈ seen' := by
  induction edges generalizing seen with
  | nil =>
      cases ran
      exact ⟨.refl, nofun⟩
  | cons edge rest ih =>
      have later := fun other (member : other ∈ rest) => inOut other (List.mem_cons_of_mem _ member)
      rw [markedEdges] at ran
      by_cases old : mark edge ∈ seen
      · rw [if_pos old] at ran
        obtain ⟨adds, covered⟩ := ih later ran
        refine ⟨adds, fun other member some => ?_⟩
        rcases List.mem_cons.mp member with rfl | inRest
        · exact adds.mono old
        · exact covered other inRest some
      · rw [if_neg old] at ran
        cases leads : find edge with
        | none =>
            rw [leads] at ran
            obtain ⟨adds, covered⟩ := ih later ran
            refine ⟨adds, fun other member some => ?_⟩
            rcases List.mem_cons.mp member with rfl | inRest
            · rw [leads] at some
              cases some
            · exact covered other inRest some
        | some node =>
            rw [leads] at ran
            obtain ⟨between, ranBelow, ranRest⟩ := Option.bind_eq_some_iff.mp ran
            obtain ⟨addsBelow, covers⟩ := below node _ between ranBelow
            obtain ⟨adds, covered⟩ := ih later ranRest
            have isOut := inOut edge (List.mem_cons_self ..)
            have noted : MarksAdded out mark find start seen between := by
              have step : ReflTransGen (Leads out find) start node :=
                .single ⟨edge, isOut, leads⟩
              have further := addsBelow.below step
              refine ⟨?_, fun nodup => ?_, fun m there absent => ?_⟩
              · obtain ⟨new, rfl⟩ := further.grows
                exact ⟨mark edge :: new, by rw [List.append_assoc]; rfl⟩
              · refine further.nodup (List.Nodup.append nodup (List.nodup_singleton _) ?_)
                exact List.disjoint_singleton.mpr old
              · by_cases isMark : m = mark edge
                · refine ⟨edge, node, ⟨start, .refl, isOut, ?_⟩, isMark.symm, leads, covers⟩
                  rw [leads]
                  rfl
                · refine further.found m there fun member => ?_
                  rcases List.mem_append.mp member with inSeen | isLast
                  · exact absent inSeen
                  · exact isMark (List.mem_singleton.mp isLast)
            refine ⟨noted.trans adds, fun other member some => ?_⟩
            rcases List.mem_cons.mp member with rfl | inRest
            · refine adds.mono (addsBelow.mono ?_)
              exact List.mem_append_right _ (List.mem_singleton_self _)
            · exact covered other inRest some

/-- A search that ends has marked new edges only, and has left none behind. -/
theorem markedSearch_adds (ran : markedSearch out mark find depth node seen = some seen') :
    MarksAdded out mark find node seen seen' ∧ Covers out mark find seen' node := by
  induction depth generalizing node seen seen' with
  | zero => cases ran
  | succ depth ih =>
      obtain ⟨adds, covered⟩ := markedEdges_adds (fun _ _ _ => ih) (fun _ => id) ran
      exact ⟨adds, covered⟩

/-- Where a mark stands for one end, everything that can be found is marked. -/
theorem markedSearch_complete (ran : markedSearch out mark find depth node [] = some seen')
    (unique : ∀ edge edge', Found out find node edge → Found out find node edge' →
      mark edge = mark edge' → find edge = find edge')
    {edge : Edge} (found : Found out find node edge) : mark edge ∈ seen' := by
  obtain ⟨adds, covers⟩ := markedSearch_adds ran
  have covered : ∀ a, ReflTransGen (Leads out find) node a → Covers out mark find seen' a := by
    intro a path
    induction path with
    | refl => exact covers
    | @tail b c path step ih =>
        obtain ⟨next, inOut, leads⟩ := step
        have goesOn : (find next).isSome = true := by rw [leads]; rfl
        obtain ⟨edge', b', found', isMark, leads', covers'⟩ :=
          adds.found (mark next) (ih next inOut goesOn) List.not_mem_nil
        have same := unique edge' next found' ⟨b, path, inOut, goesOn⟩ isMark
        rw [leads', leads] at same
        rwa [← Option.some.inj same]
  obtain ⟨a, path, inOut, goesOn⟩ := found
  exact covered a path edge inOut goesOn

/-! ## The depth -/

variable {marks : List Mark}

theorem unseen_le (sub : ∀ m ∈ seen, m ∈ seen') :
    (marks.filter (· ∉ seen')).Sublist (marks.filter (· ∉ seen)) := by
  refine List.monotone_filter_right marks fun m absent => ?_
  simp only [decide_eq_true_eq] at absent ⊢
  exact fun there => absent (sub m there)

theorem unseen_lt {m : Mark} (listed : m ∈ marks) (new : m ∉ seen) :
    (marks.filter (· ∉ seen ++ [m])).length < (marks.filter (· ∉ seen)).length := by
  have sub := @unseen_le _ _ seen (seen ++ [m]) marks fun _ => List.mem_append_left _
  refine Nat.lt_of_le_of_ne sub.length_le fun same => ?_
  have inBoth : m ∈ marks.filter (· ∉ seen ++ [m]) := by
    rw [sub.eq_of_length same]
    exact List.mem_filter.mpr ⟨listed, decide_eq_true new⟩
  have absent := of_decide_eq_true (List.mem_filter.mp inBoth).2
  exact absent (List.mem_append_right _ (List.mem_singleton_self m))

theorem markedEdges_ends {inside : Node → Prop}
    (closed : ∀ edge b, find edge = some b → inside b)
    (below : ∀ node seen seen', self node seen = some seen' → ∀ m ∈ seen, m ∈ seen')
    (ends : ∀ node seen, inside node → (marks.filter (· ∉ seen)).length < depth →
      ∃ seen', self node seen = some seen')
    (listed : ∀ edge ∈ edges, (find edge).isSome = true → mark edge ∈ marks)
    (deep : (marks.filter (· ∉ seen)).length < depth + 1) :
    ∃ seen', markedEdges mark find self edges seen = some seen' := by
  induction edges generalizing seen with
  | nil => exact ⟨seen, rfl⟩
  | cons edge rest ih =>
      have later := fun other (member : other ∈ rest) =>
        listed other (List.mem_cons_of_mem _ member)
      rw [markedEdges]
      by_cases old : mark edge ∈ seen
      · rw [if_pos old]
        exact ih later deep
      · rw [if_neg old]
        cases leads : find edge with
        | none => exact ih later deep
        | some node =>
            have isListed := listed edge (List.mem_cons_self ..) (by rw [leads]; rfl)
            have less := unseen_lt isListed old
            obtain ⟨between, ran⟩ := ends node (seen ++ [mark edge]) (closed edge node leads)
              (by omega)
            have sub : ∀ m ∈ seen, m ∈ between := fun m there =>
              below node _ between ran m (List.mem_append_left _ there)
            have shorter := (@unseen_le _ _ seen between marks sub).length_le
            dsimp only
            rw [ran, Option.bind_some]
            exact ih later (by omega)

/-- The marks of a set of nodes that no edge leaves bound the depth. -/
theorem markedSearch_ends {inside : Node → Prop} (closed : ∀ edge b, find edge = some b → inside b)
    (listed : ∀ a, inside a → ∀ edge ∈ out a, (find edge).isSome = true → mark edge ∈ marks)
    (here : inside node) (deep : (marks.filter (· ∉ seen)).length < depth) :
    ∃ seen', markedSearch out mark find depth node seen = some seen' := by
  induction depth generalizing node seen with
  | zero => exact absurd deep (Nat.not_lt_zero _)
  | succ depth ih =>
      have below : ∀ node seen seen', markedSearch out mark find depth node seen = some seen' →
          ∀ m ∈ seen, m ∈ seen' := fun _ _ _ ran _ there => (markedSearch_adds ran).1.mono there
      exact markedEdges_ends closed below (fun _ _ => ih) (listed node here) deep

end Search

end Pkgng.Lib
