import Pkgng.Lib.ListSort
import Pkgng.Universe.Items
import Pkgng.Version.Shortcut

/-!
# Conflicts between requests

`pkg_conflicts_request_resolve` looks for install requests that conflict with each other
and hands each such chain to `pkg_conflicts_request_resolve_chain`, which keeps one of them
and skips the others.  Requests are named by their items, the key of the request table.
-/

set_option autoImplicit false

namespace Pkgng

open Lib

/-- The skip marks of the requests. -/
abbrev Skips := Addr → Bool

section Chain

variable (u : JobsUniverse)

def pkgConflictsChainCmpCb (skip : Skips) (a b : Addr) : Int :=
  if skip a || skip b then ((skip a).toNat : Int) - (skip b).toNat
  else pkgVersionCmp (u.pkg a).version (u.pkg b).version

/-- The last component of the origin is the name. -/
def pureOrigin (name : String) (elt : Addr) : Bool :=
  (strrchr '/' (u.pkg elt).origin.toList).any fun slashPos => slashPos.tail = name.toList

/-- `elt->req->skip = true` for some elements. -/
def markSkipped (skip : Skips) (elts : List Addr) : Skips :=
  fun elt => skip elt || decide (elt ∈ elts)

/-- The element that `pkg_conflicts_request_resolve_chain` selects, and the elements it
skips; none for an empty chain. -/
def selectInChain (skip : Skips) (req : Pkg) (chain : List Addr) :
    Option (Addr × List Addr) :=
  match chain.findIdx? (pureOrigin u req.name) with
  | some i => chain[i]?.map fun selected => (selected, chain.eraseIdx i)
  | none =>
      match listSort (fun a b => pkgConflictsChainCmpCb u skip a b ≤ 0) chain with
      | [] => none
      | selected :: rest => some (selected, rest)

/-- `pkg_conflicts_request_resolve_chain`; an empty chain is dereferenced. -/
def pkgConflictsRequestResolveChain (skip : Skips) (req : Pkg) (chain : List Addr) :
    Option Skips :=
  (selectInChain u skip req chain).map fun selection => markSkipped skip selection.2

end Chain

/-! ## Which element is kept -/

section Kept

variable (u : JobsUniverse) (skip : Skips) (req : Pkg)

/-- One element of the chain is not marked; it has a pure origin if any element has one,
and else the greatest version of the elements that were not skipped before. -/
def KeepsBest (chain : List Addr) : Prop :=
  ∃ selected marked kept, selectInChain u skip req chain = some (selected, marked) ∧
    chain.filter (fun elt => elt ∉ marked) = [kept] ∧
    ((∃ elt ∈ chain, pureOrigin u req.name elt = true) → pureOrigin u req.name kept = true) ∧
    ((∀ elt ∈ chain, pureOrigin u req.name elt = false) →
      ∀ elt ∈ chain, skip elt = false →
        skip kept = false ∧ pkgVersionCmp (u.pkg elt).version (u.pkg kept).version ≤ 0)

/-- The first element with a pure origin, or else the first that is not skipped, or else the
first. -/
def firstChoice (chain : List Addr) : Option Addr :=
  (chain.find? (pureOrigin u req.name)).or
    ((chain.find? fun elt => !skip elt).or chain.head?)

/-- The versions of the elements that are not skipped are all equal. -/
def EqualVersions (chain : List Addr) : Prop :=
  ∀ a ∈ chain, ∀ b ∈ chain, skip a = false → skip b = false →
    pkgVersionCmp (u.pkg a).version (u.pkg b).version = 0

variable {u skip}

theorem chainCmp_skipped {a b : Addr} (skipped : skip a = true ∨ skip b = true) :
    pkgConflictsChainCmpCb u skip a b = ((skip a).toNat : Int) - (skip b).toNat := by
  rw [pkgConflictsChainCmpCb, if_pos (by simpa using skipped)]

theorem chainCmp_versions {a b : Addr} (first : skip a = false) (second : skip b = false) :
    pkgConflictsChainCmpCb u skip a b = pkgVersionCmp (u.pkg a).version (u.pkg b).version := by
  rw [pkgConflictsChainCmpCb, if_neg (by simp [first, second])]

/-- What is sorted before an element that is not skipped is not skipped, and no newer. -/
theorem chainCmp_nonpos {a b : Addr} (kept : skip b = false)
    (before : pkgConflictsChainCmpCb u skip a b ≤ 0) :
    skip a = false ∧ pkgVersionCmp (u.pkg a).version (u.pkg b).version ≤ 0 := by
  cases isSkipped : skip a with
  | true =>
      rw [chainCmp_skipped (Or.inl isSkipped), isSkipped, kept] at before
      simp at before
  | false =>
      rw [chainCmp_versions isSkipped kept] at before
      exact ⟨rfl, before⟩

theorem chainCmp_total (a b : Addr) : decide (pkgConflictsChainCmpCb u skip a b ≤ 0) = true ∨
    decide (pkgConflictsChainCmpCb u skip b a ≤ 0) = true := by
  simp only [decide_eq_true_eq]
  cases first : skip a with
  | true =>
      rw [chainCmp_skipped (Or.inl first), chainCmp_skipped (Or.inr first)]
      omega
  | false =>
      cases second : skip b with
      | true =>
          rw [chainCmp_skipped (Or.inr second), chainCmp_skipped (Or.inl second)]
          omega
      | false =>
          rw [chainCmp_versions first second, chainCmp_versions second first,
            versionCmp_lawful.swap (u.pkg b).version]
          omega

theorem chainCmp_trans (a b c : Addr)
    (first : decide (pkgConflictsChainCmpCb u skip a b ≤ 0) = true)
    (second : decide (pkgConflictsChainCmpCb u skip b c ≤ 0) = true) :
    decide (pkgConflictsChainCmpCb u skip a c ≤ 0) = true := by
  rw [decide_eq_true_eq] at *
  cases last : skip c with
  | true =>
      rw [chainCmp_skipped (Or.inr last), last]
      have small := Bool.toNat_le (skip a)
      simp only [Bool.toNat_true]
      omega
  | false =>
      obtain ⟨middle, upper⟩ := chainCmp_nonpos last second
      obtain ⟨start, lower⟩ := chainCmp_nonpos middle first
      rw [chainCmp_versions start last]
      exact versionCmp_lawful.trans _ _ _ lower upper

theorem filter_notMem_of_perm {chain marked : List Addr} {selected kept : Addr}
    (arranged : chain.Perm (selected :: marked)) :
    chain.filter (fun elt => elt ∉ marked) = [kept] ↔ selected ∉ marked ∧ kept = selected := by
  have filtered := arranged.filter fun elt => decide (elt ∉ marked)
  have rest : marked.filter (fun elt => decide (elt ∉ marked)) = [] := by
    rw [List.filter_eq_nil_iff]
    intro elt member
    simpa using member
  by_cases again : selected ∈ marked
  · rw [List.filter_cons_of_neg (by simpa using again), rest] at filtered
    rw [List.perm_nil.mp filtered]
    simp [again]
  · rw [List.filter_cons_of_pos (by simpa using again), rest] at filtered
    rw [List.perm_singleton.mp filtered]
    simp [again, eq_comm]

/-- What the selection does: the first element with a pure origin, or the first of the sorted
chain. -/
theorem selectInChain_spec (first : Addr) (rest : List Addr) :
    ∃ selected marked, selectInChain u skip req (first :: rest) = some (selected, marked) ∧
      (first :: rest).Perm (selected :: marked) ∧
      (((first :: rest).find? (pureOrigin u req.name) = some selected) ∨
        ((∀ elt ∈ first :: rest, pureOrigin u req.name elt = false) ∧
          listSort (fun a b => decide (pkgConflictsChainCmpCb u skip a b ≤ 0)) (first :: rest) =
            selected :: marked)) := by
  cases isPure : (first :: rest).findIdx? (pureOrigin u req.name) with
  | some i =>
      obtain ⟨inside, holds, _⟩ := List.findIdx?_eq_some_iff_getElem.mp isPure
      refine ⟨(first :: rest)[i], (first :: rest).eraseIdx i, ?_, ?_, Or.inl ?_⟩
      · simp only [selectInChain, isPure, List.getElem?_eq_getElem inside]
        rfl
      · exact (List.getElem_cons_eraseIdx_perm inside).symm
      · rw [List.find?_eq_bind_findIdx?_getElem?, isPure, Option.bind_some,
          List.getElem?_eq_getElem inside]
  | none =>
      have noPure : ∀ elt ∈ first :: rest, pureOrigin u req.name elt = false :=
        List.findIdx?_eq_none_iff.mp isPure
      have sameElements := listSort_perm
        (fun a b => decide (pkgConflictsChainCmpCb u skip a b ≤ 0)) (first :: rest)
      cases sorted : listSort (fun a b => decide (pkgConflictsChainCmpCb u skip a b ≤ 0))
          (first :: rest) with
      | nil =>
          rw [sorted] at sameElements
          cases List.nil_perm.mp sameElements
      | cons selected marked =>
          rw [sorted] at sameElements
          refine ⟨selected, marked, ?_, sameElements.symm, Or.inr ⟨noPure, rfl⟩⟩
          simp only [selectInChain, isPure, sorted]

/-- In a sorted chain the first element is skipped only if all are, and no version that is
not skipped is smaller than its own. -/
theorem sorted_first {chain marked : List Addr} {selected : Addr}
    (sorted : listSort (fun a b => decide (pkgConflictsChainCmpCb u skip a b ≤ 0)) chain =
      selected :: marked) :
    ∀ elt ∈ chain, skip elt = false → skip selected = false ∧
      pkgVersionCmp (u.pkg selected).version (u.pkg elt).version ≤ 0 := by
  intro elt member kept
  have ordered := listSort_sorted chainCmp_trans (@chainCmp_total u skip) chain
  have arranged := listSort_perm
    (fun a b => decide (pkgConflictsChainCmpCb u skip a b ≤ 0)) chain
  rw [sorted] at ordered arranged
  rcases List.mem_cons.mp (arranged.mem_iff.mpr member) with rfl | later
  · exact ⟨kept, (versionCmp_lawful.self _).le⟩
  · have before := (List.pairwise_cons.mp ordered).1 elt later
    exact chainCmp_nonpos kept (of_decide_eq_true before)

/-- Among equal versions the sort keeps the first element that is not skipped in front. -/
theorem sorted_firstChoice {chain marked : List Addr} {selected : Addr}
    (sorted : listSort (fun a b => decide (pkgConflictsChainCmpCb u skip a b ≤ 0)) chain =
      selected :: marked) (equal : EqualVersions u skip chain) :
    (chain.find? fun elt => !skip elt).or chain.head? = some selected := by
  have arranged := listSort_perm
    (fun a b => decide (pkgConflictsChainCmpCb u skip a b ≤ 0)) chain
  have least := sorted_first sorted
  by_cases allSkipped : ∀ elt ∈ chain, skip elt = true
  · have nothing : (chain.find? fun elt => !skip elt) = none := by
      rw [List.find?_eq_none]
      intro elt member
      rw [allSkipped elt member]
      exact Bool.false_ne_true
    -- All elements compare as equal, so that the sort changes nothing.
    have kept := filter_listSort (p := fun elt => skip elt) chainCmp_trans
      (fun a b aSkipped bSkipped => by
        rw [chainCmp_skipped (Or.inl aSkipped), aSkipped, bSkipped]
        rfl)
      (chainCmp_total (u := u)) chain
    rw [List.filter_eq_self.mpr allSkipped,
      List.filter_eq_self.mpr fun elt member => allSkipped elt (arranged.mem_iff.mp member)]
      at kept
    rw [nothing, Option.none_or, ← kept, sorted]
    rfl
  · obtain ⟨elt, member, isKept⟩ : ∃ elt ∈ chain, skip elt = false := by
      simpa using allSkipped
    have selectedKept := (least elt member isKept).1
    have selectedMember : selected ∈ chain := by
      rw [← arranged.mem_iff, sorted]
      exact List.mem_cons_self ..
    have kept := filter_listSort (p := fun elt => decide (elt ∈ chain) && !skip elt)
      chainCmp_trans
      (fun a b aKept bKept => by
        simp only [Bool.and_eq_true, decide_eq_true_eq, Bool.not_eq_true'] at aKept bKept
        rw [chainCmp_versions aKept.2 bKept.2, decide_eq_true_eq]
        exact (equal a aKept.1 b bKept.1 aKept.2 bKept.2).le)
      (chainCmp_total (u := u)) chain
    have inChain : chain.filter (fun elt => decide (elt ∈ chain) && !skip elt) =
        chain.filter fun elt => !skip elt := by
      refine List.filter_congr fun other isMember => ?_
      rw [decide_eq_true isMember, Bool.true_and]
    rw [sorted, inChain, List.filter_cons_of_pos (by simp [selectedMember, selectedKept])] at kept
    rw [← List.head?_filter, ← kept]
    rfl

/-- The chain is resolved as stated exactly when one element has a pure origin or all
versions are equal, and the request chosen is in the chain once. -/
theorem resolveChain_iff (first : Addr) (rest : List Addr) :
    KeepsBest u skip req (first :: rest) ↔
      ((∃ elt ∈ first :: rest, pureOrigin u req.name elt = true) ∨
        EqualVersions u skip (first :: rest)) ∧
      ∀ choice ∈ firstChoice u skip req (first :: rest), (first :: rest).count choice = 1 := by
  obtain ⟨selected, marked, run, arranged, how⟩ :=
    @selectInChain_spec u skip req first rest
  generalize first :: rest = chain at *
  have once : chain.count selected = 1 ↔ selected ∉ marked := by
    rw [arranged.count_eq, List.count_cons_self, ← List.count_eq_zero]
    omega
  have keeps : KeepsBest u skip req chain ↔ selected ∉ marked ∧
      ((∃ elt ∈ chain, pureOrigin u req.name elt = true) →
        pureOrigin u req.name selected = true) ∧
      ((∀ elt ∈ chain, pureOrigin u req.name elt = false) →
        ∀ elt ∈ chain, skip elt = false → skip selected = false ∧
          pkgVersionCmp (u.pkg elt).version (u.pkg selected).version ≤ 0) := by
    constructor
    · rintro ⟨selected', marked', kept, run', only, isPure, isBest⟩
      rw [run] at run'
      cases run'
      obtain ⟨alone, rfl⟩ := (filter_notMem_of_perm arranged).mp only
      exact ⟨alone, isPure, isBest⟩
    · rintro ⟨alone, isPure, isBest⟩
      exact ⟨selected, marked, selected, run,
        (filter_notMem_of_perm arranged).mpr ⟨alone, rfl⟩, isPure, isBest⟩
  rw [keeps]
  rcases how with found | ⟨noPure, sorted⟩
  · have isPure := List.find?_some found
    have member := List.mem_of_find?_eq_some found
    have choice : firstChoice u skip req chain = some selected := by
      rw [firstChoice, found, Option.some_or]
    rw [choice]
    constructor
    · rintro ⟨alone, _⟩
      refine ⟨Or.inl ⟨selected, member, isPure⟩, ?_⟩
      intro elt isChoice
      cases isChoice
      exact once.mpr alone
    · rintro ⟨_, single⟩
      refine ⟨once.mp (single selected rfl), fun _ => isPure, fun noPure => ?_⟩
      rw [noPure selected member] at isPure
      cases isPure
  · have none_ : chain.find? (pureOrigin u req.name) = none := by
      rw [List.find?_eq_none]
      intro elt member
      rw [noPure elt member]
      exact Bool.false_ne_true
    have notPure : ¬∃ elt ∈ chain, pureOrigin u req.name elt = true := by
      rintro ⟨elt, member, isPure⟩
      rw [noPure elt member] at isPure
      cases isPure
    have least := sorted_first sorted
    rw [firstChoice, none_, Option.none_or]
    constructor
    · rintro ⟨alone, _, isBest⟩
      have equal : EqualVersions u skip chain := by
        intro a aMember b bMember aKept bKept
        have aEqual := le_antisymm (isBest noPure a aMember aKept).2
          (by
            rw [versionCmp_lawful.swap]
            exact neg_nonneg.mpr (least a aMember aKept).2)
        have bEqual := le_antisymm (isBest noPure b bMember bKept).2
          (by
            rw [versionCmp_lawful.swap]
            exact neg_nonneg.mpr (least b bMember bKept).2)
        rw [versionCmp_lawful.congr _ _ _ aEqual, versionCmp_lawful.swap, bEqual,
          neg_zero]
      rw [sorted_firstChoice sorted equal]
      refine ⟨Or.inr equal, ?_⟩
      intro elt isChoice
      cases isChoice
      exact once.mpr alone
    · rintro ⟨equal, single⟩
      have equal := equal.resolve_left notPure
      rw [sorted_firstChoice sorted equal] at single
      refine ⟨once.mp (single selected rfl), fun isPure => absurd isPure notPure, ?_⟩
      intro _ elt member kept
      have selectedKept := (least elt member kept).1
      refine ⟨selectedKept, ?_⟩
      exact (equal elt member selected (arranged.mem_iff.mpr (by simp)) kept selectedKept).le

end Kept

/-- Two versions of a package without a pure origin. -/
def twoVersions : JobsUniverse :=
  JobsUniverse.ofPackages Pkg.digest
    [{ type := .remote, uid := "a", name := "a", origin := "x", version := "1",
       digest := some "1" },
     { type := .remote, uid := "b", name := "b", origin := "y", version := "2",
       digest := some "2" }]

theorem twoVersions_not_keepsBest :
    ¬ ∀ (u : JobsUniverse) (skip : Skips) (req : Pkg) (first : Addr) (rest : List Addr),
      KeepsBest u skip req (first :: rest) := by
  intro keeps
  have selection : selectInChain twoVersions (fun _ => false) (twoVersions.pkg 0) [0, 1] =
      some (0, [1]) := by
    have noPure : [0, 1].findIdx? (pureOrigin twoVersions (twoVersions.pkg 0).name) = none := by
      decide +kernel
    have ordered : pkgConflictsChainCmpCb twoVersions (fun _ => false) 0 1 = -1 := by
      decide +kernel
    have sorted : listSort (fun a b =>
        decide (pkgConflictsChainCmpCb twoVersions (fun _ => false) a b ≤ 0)) [0, 1] = [0, 1] := by
      simp [listSort, sortRuns, mergeRuns, ordered]
    rw [selectInChain, noPure]
    simp only [sorted]
  have newer : pkgVersionCmp (twoVersions.pkg 1).version (twoVersions.pkg 0).version = 1 := by
    decide +kernel
  obtain ⟨selected, marked, kept, run, only, _, isBest⟩ :=
    keeps twoVersions (fun _ => false) (twoVersions.pkg 0) 0 [1]
  rw [selection] at run
  cases run
  obtain rfl : 0 = kept := by simpa using only
  have best := (isBest (by decide +kernel) 1 (by simp) rfl).2
  rw [newer] at best
  omega

/-! ## The requests of a job -/

/-- An object that a pointer can point to. -/
inductive Pointer
  | item (item : Addr)
  | pkg (item : Addr)
deriving DecidableEq, Repr

/-- `HASH_FIND_PTR(request_add, findptr, out)`: the key is the pointer that `findptr` points
to.  The keys of the table are the addresses of the items. -/
def hashFindPtr (requestAdd : List Addr) (pointedTo : Pointer) : Option Addr :=
  requestAdd.find? fun req => Pointer.item req = pointedTo

/-- What `unit` points to: the first field of an item is the pointer to its package. -/
def firstField (unit : Addr) : Pointer := .pkg unit

section Resolve

variable (u : JobsUniverse) (requestAdd : List Addr)

/-- The requests that conflict with one, each prepended to the chain. -/
def conflictChain (skip : Skips) (req : Addr) : List Addr :=
  (u.pkg req).conflicts.foldl (fun chain c =>
    match u.find c.uniqueid with
    | none => chain
    | some unit =>
        match hashFindPtr requestAdd (firstField unit) with
        | some found => if skip found then chain else found :: chain
        | none => chain)
    []

/-- The body of the loop of `pkg_conflicts_request_resolve`. -/
def resolveRequest (skip : Skips) (req : Addr) : Option Skips :=
  if skip req then some skip
  else if conflictChain u requestAdd skip req = [] then some skip
  else
    pkgConflictsRequestResolveChain u skip (u.pkg req)
      (req :: conflictChain u requestAdd skip req)

/-- `pkg_conflicts_request_resolve`, where it returns `EPKG_OK`. -/
def pkgConflictsRequestResolve (skip : Skips) : Option Skips :=
  requestAdd.foldlM (resolveRequest u requestAdd) skip

/-- The packages of two requests conflict with each other. -/
def ConflictingRequests (a b : Addr) : Prop :=
  (u.pkg b).uid ∈ (u.pkg a).conflicts.map Conflict.uniqueid ∨
    (u.pkg a).uid ∈ (u.pkg b).conflicts.map Conflict.uniqueid

/-- A package that a requested one lists as a conflict lists it too, if it is requested. -/
def SymmetricConflicts : Prop :=
  ∀ a ∈ requestAdd, ∀ b ∈ requestAdd,
    (u.pkg b).uid ∈ (u.pkg a).conflicts.map Conflict.uniqueid →
      (u.pkg a).uid ∈ (u.pkg b).conflicts.map Conflict.uniqueid

/-- No two requests that are not skipped conflict. -/
def NoConflictLeft (skip : Skips) : Prop :=
  ∀ a ∈ requestAdd, ∀ b ∈ requestAdd, a ≠ b → skip a = false → skip b = false →
    ¬ConflictingRequests u a b

/-- A package is no item, so that no request is found. -/
theorem hashFindPtr_firstField (unit : Addr) :
    hashFindPtr requestAdd (firstField unit) = none := by
  rw [hashFindPtr, List.find?_eq_none]
  intro req _
  simp [firstField]

theorem conflictChain_nil (skip : Skips) (req : Addr) :
    conflictChain u requestAdd skip req = [] := by
  unfold conflictChain
  generalize (u.pkg req).conflicts = conflicts
  simp only [hashFindPtr_firstField]
  induction conflicts with
  | nil => rfl
  | cons c rest ih =>
      rw [List.foldl_cons]
      cases u.find c.uniqueid with
      | none => exact ih
      | some unit => exact ih

theorem resolveRequest_skips (skip : Skips) (req : Addr) :
    resolveRequest u requestAdd skip req = some skip := by
  rw [resolveRequest, conflictChain_nil]
  split
  · rfl
  · exact if_pos rfl

/-- No skip mark is ever set. -/
theorem requestResolve_skips (skip : Skips) :
    pkgConflictsRequestResolve u requestAdd skip = some skip := by
  have turns : ∀ requests : List Addr,
      requests.foldlM (resolveRequest u requestAdd) skip = some skip := by
    intro requests
    induction requests with
    | nil => rfl
    | cons req rest ih =>
        rw [List.foldlM_cons, resolveRequest_skips]
        exact ih
  exact turns requestAdd

/-- No conflict is left exactly when there was none. -/
theorem requestResolve_iff (skip : Skips) :
    (∃ after, pkgConflictsRequestResolve u requestAdd skip = some after ∧
      NoConflictLeft u requestAdd after) ↔ NoConflictLeft u requestAdd skip := by
  rw [requestResolve_skips]
  constructor
  · rintro ⟨after, same, left⟩
    cases same
    exact left
  · intro left
    exact ⟨skip, rfl, left⟩

/-- Two packages that list each other as conflicts. -/
def rivals : JobsUniverse :=
  JobsUniverse.ofPackages Pkg.digest
    [{ type := .remote, uid := "a", digest := some "1", conflicts := [{ uniqueid := "b" }] },
     { type := .remote, uid := "b", digest := some "2", conflicts := [{ uniqueid := "a" }] }]

theorem rivals_not_resolved :
    ¬ ∀ (u : JobsUniverse) (requestAdd : List Addr) (skip after : Skips),
      SymmetricConflicts u requestAdd →
        pkgConflictsRequestResolve u requestAdd skip = some after →
          NoConflictLeft u requestAdd after := by
  intro resolves
  have unchanged := requestResolve_skips rivals [0, 1] fun _ => false
  have symmetric : SymmetricConflicts rivals [0, 1] := by
    unfold SymmetricConflicts
    decide
  refine resolves rivals [0, 1] _ _ symmetric unchanged 0 (by simp) 1 (by simp) (by decide)
    rfl rfl ?_
  exact Or.inl (by decide)

end Resolve

end Pkgng
