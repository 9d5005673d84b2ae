import Pkgng.Jobs.Basic
import Pkgng.Universe.ChangeUid
import Mathlib.Data.List.Find

/-!
# Automatic flags

`pkg_jobs_propagate_automatic` decides which packages of an install job will count as
automatically installed.  An item that is alone in its chain is looked up in the requests; in a
longer chain the installed package passes its flag on.
-/

set_option autoImplicit false

namespace Pkgng

open Lib

/-- `pkg_set` of `PKG_AUTOMATIC`. -/
def Pkg.setAutomatic (automatic : Bool) (pkg : Pkg) : Pkg := { pkg with automatic := automatic }

@[simp] theorem Pkg.type_setAutomatic (automatic : Bool) (pkg : Pkg) :
    (pkg.setAutomatic automatic).type = pkg.type := rfl

@[simp] theorem Pkg.automatic_setAutomatic (automatic : Bool) (pkg : Pkg) :
    (pkg.setAutomatic automatic).automatic = automatic := rfl

namespace JobsUniverse

/-- The flag set for the items of a list one after the other. -/
def setAutomatic (u : JobsUniverse) (items : List Addr) (automatic : Bool) : JobsUniverse :=
  items.foldl (fun u cur => u.modifyPkg cur (Pkg.setAutomatic automatic)) u

/-- The first installed item of a chain. -/
def localOf (u : JobsUniverse) (chain : List Addr) : Option Addr :=
  chain.find? fun cur => (u.pkg cur).isInstalled

end JobsUniverse

/-- The body of the loop. -/
def propagateUnit (j : Jobs) (u : JobsUniverse) (unit : Addr) : JobsUniverse :=
  if u.links.next unit = none then
    if unit ∉ j.requestAdd ∧ (u.pkg unit).isInstalled = false then u.setAutomatic [unit] true
    else if j.type = .install then u.setAutomatic [unit] false
    else u
  else
    match u.localOf (u.chain unit) with
    | none => u
    | some loc =>
        u.setAutomatic ((u.chain unit).filter fun cur => !(u.pkg cur).isInstalled)
          (u.pkg loc).automatic

def pkgJobsPropagateAutomatic (j : Jobs) : Jobs :=
  { j with univ := j.univ.items.foldl (fun u entry => propagateUnit j u entry.2) j.univ }

/-- The flag of an item after the pass of an install job. -/
def chainFlag (j : Jobs) (u : JobsUniverse) (chain : List Addr) (item : Addr) : Bool :=
  if chain.length = 1 then decide (item ∉ j.requestAdd) && !(u.pkg item).isInstalled
  else if (u.pkg item).isInstalled then (u.pkg item).automatic
  else
    match u.localOf chain with
    | none => (u.pkg item).automatic
    | some loc => (u.pkg loc).automatic

/-- The remote packages without an installed item are automatic if none of their chain is
requested; those with one have its flag. -/
structure AutomaticFlags (j j' : Jobs) : Prop where
  alone : ∀ entry ∈ j.univ.items, ∀ item ∈ j.univ.chain entry.2,
    (j.univ.pkg item).type = .remote →
    (∀ other ∈ j.univ.chain entry.2, (j.univ.pkg other).isInstalled = false) →
    ((j'.univ.pkg item).automatic = true ↔
      ∀ other ∈ j.univ.chain entry.2, other ∉ j.requestAdd)
  inherited : ∀ entry ∈ j.univ.items, ∀ item ∈ j.univ.chain entry.2,
    (j.univ.pkg item).type = .remote →
    ∀ loc ∈ j.univ.chain entry.2, (j.univ.pkg loc).isInstalled = true →
    (j'.univ.pkg item).automatic = (j'.univ.pkg loc).automatic

/-- In the longer chains the flags are already right where no item is installed, and the installed
items have one flag. -/
structure FlagsDecided (j : Jobs) : Prop where
  alone : ∀ entry ∈ j.univ.items, ∀ item ∈ j.univ.chain entry.2,
    (j.univ.pkg item).type = .remote → (j.univ.chain entry.2).length ≠ 1 →
    (∀ other ∈ j.univ.chain entry.2, (j.univ.pkg other).isInstalled = false) →
    ((j.univ.pkg item).automatic = true ↔
      ∀ other ∈ j.univ.chain entry.2, other ∉ j.requestAdd)
  agree : ∀ entry ∈ j.univ.items, ∀ item ∈ j.univ.chain entry.2,
    (j.univ.pkg item).type = .remote → ∀ loc ∈ j.univ.chain entry.2,
    (j.univ.pkg loc).isInstalled = true → ∀ other ∈ j.univ.chain entry.2,
    (j.univ.pkg other).isInstalled = true →
    (j.univ.pkg loc).automatic = (j.univ.pkg other).automatic

section Step

variable {j : Jobs} {u : JobsUniverse}

/-- Setting flags leaves everything but the flags. -/
theorem setAutomatic_frame (u : JobsUniverse) (items : List Addr) (automatic : Bool) :
    (u.setAutomatic items automatic).links = u.links ∧
      (u.setAutomatic items automatic).items = u.items ∧
      (u.setAutomatic items automatic).pkgs.length = u.pkgs.length := by
  unfold JobsUniverse.setAutomatic
  induction items generalizing u with
  | nil => exact ⟨rfl, rfl, rfl⟩
  | cons first rest ih =>
      rw [List.foldl_cons]
      obtain ⟨links, entries, length⟩ := ih (u.modifyPkg first (Pkg.setAutomatic automatic))
      exact ⟨links, entries, length.trans (JobsUniverse.length_modifyPkg ..)⟩

theorem pkg_setAutomatic {items : List Addr} (inBounds : ∀ item ∈ items, item < u.pkgs.length)
    (automatic : Bool) (item : Addr) :
    (u.setAutomatic items automatic).pkg item =
      if item ∈ items then (u.pkg item).setAutomatic automatic else u.pkg item := by
  unfold JobsUniverse.setAutomatic
  induction items generalizing u with
  | nil => rfl
  | cons first rest ih =>
      have restBounds : ∀ item ∈ rest,
          item < (u.modifyPkg first (Pkg.setAutomatic automatic)).pkgs.length := by
        intro item member
        rw [JobsUniverse.length_modifyPkg]
        exact inBounds item (List.mem_cons_of_mem _ member)
      rw [List.foldl_cons, ih restBounds]
      by_cases same : item = first
      · subst same
        rw [JobsUniverse.pkg_modifyPkg_self _ (inBounds _ List.mem_cons_self),
          if_pos List.mem_cons_self]
        split <;> rfl
      · rw [JobsUniverse.pkg_modifyPkg_other _ same]
        simp only [List.mem_cons, same, false_or]

theorem mem_of_localOf {chain : List Addr} {loc : Addr} (found : u.localOf chain = some loc) :
    loc ∈ chain ∧ (u.pkg loc).isInstalled = true :=
  ⟨List.mem_of_find?_eq_some found, List.find?_some (p := fun cur => (u.pkg cur).isInstalled) found⟩

theorem localOf_eq_none_iff {chain : List Addr} :
    u.localOf chain = none ↔ ∀ other ∈ chain, (u.pkg other).isInstalled = false := by
  rw [JobsUniverse.localOf, List.find?_eq_none]
  simp only [Bool.not_eq_true]

/-- The head of a chain has no successor exactly if it is alone. -/
theorem next_eq_none_iff {unit : Addr} {tail : List Addr}
    (linked : Links.Represents u.links (unit :: tail)) :
    u.links.next unit = none ↔ (unit :: tail).length = 1 := by
  cases tail with
  | nil => exact iff_of_true linked.forward rfl
  | cons following rest =>
      have next : u.links.next unit = some following := linked.forward.1
      rw [next]
      exact iff_of_false nofun (by simp)

theorem propagateUnit_frame (u : JobsUniverse) (unit : Addr) :
    (propagateUnit j u unit).links = u.links ∧ (propagateUnit j u unit).items = u.items ∧
      (propagateUnit j u unit).pkgs.length = u.pkgs.length := by
  unfold propagateUnit
  split
  · split
    · exact setAutomatic_frame ..
    · split
      · exact setAutomatic_frame ..
      · exact ⟨rfl, rfl, rfl⟩
  · split
    · exact ⟨rfl, rfl, rfl⟩
    · exact setAutomatic_frame ..

/-- One chain of an install job. -/
theorem pkg_propagateUnit (install : j.type = .install) (inv : u.Chained) {entry : Uid × Addr}
    (member : entry ∈ u.items) (item : Addr) :
    (propagateUnit j u entry.2).pkg item =
      if item ∈ u.chain entry.2 then
        (u.pkg item).setAutomatic (chainFlag j u (u.chain entry.2) item)
      else u.pkg item := by
  have cons := JobsUniverse.chain_eq_cons inv member
  have inBounds : ∀ item ∈ u.chain entry.2, item < u.pkgs.length := fun item inChain =>
    inv.inBounds item (JobsUniverse.mem_units.mpr ⟨entry, member, inChain⟩)
  have next := next_eq_none_iff (cons ▸ inv.linked entry member)
  rw [← cons] at next
  have keeps : ∀ other, (u.pkg other).setAutomatic (u.pkg other).automatic = u.pkg other :=
    fun _ => rfl
  unfold propagateUnit
  by_cases single : (u.chain entry.2).length = 1
  · -- The item is alone, so it is the head.
    have isSingle : u.chain entry.2 = [entry.2] := by
      obtain ⟨only, eq⟩ := List.length_eq_one_iff.mp single
      rw [cons] at eq
      rw [cons, (List.cons.inj eq).2]
    rw [isSingle] at inBounds ⊢
    rw [if_pos (next.mpr single)]
    split
    · next unrequested =>
        rw [pkg_setAutomatic inBounds]
        split
        · next isHead =>
            rw [List.mem_singleton.mp isHead, chainFlag, if_pos List.length_singleton, unrequested.2,
              decide_eq_true unrequested.1]
            rfl
        · rfl
    · next requested =>
        rw [pkg_setAutomatic inBounds]
        split
        · next isHead =>
            rw [List.mem_singleton.mp isHead, chainFlag, if_pos List.length_singleton]
            congr 1
            simpa using requested
        · rfl
  · rw [if_neg (mt next.mp single)]
    cases found : u.localOf (u.chain entry.2) with
    | none =>
        dsimp only
        split
        · rw [chainFlag, if_neg single, found]
          dsimp only
          rw [ite_self, keeps]
        · rfl
    | some loc =>
        dsimp only
        rw [pkg_setAutomatic fun item chosen => inBounds item (List.mem_filter.mp chosen).1]
        simp only [List.mem_filter, Bool.not_eq_true']
        by_cases inChain : item ∈ u.chain entry.2
        · rw [if_pos inChain, chainFlag, if_neg single, found]
          cases installed : (u.pkg item).isInstalled with
          | true => rw [if_neg (fun both => Bool.noConfusion both.2), if_pos rfl, keeps]
          | false => rw [if_pos ⟨inChain, rfl⟩, if_neg Bool.false_ne_true]
        · rw [if_neg inChain, if_neg fun both => inChain both.1]

theorem chained_propagateUnit (install : j.type = .install) (inv : u.Chained)
    {entry : Uid × Addr} (member : entry ∈ u.items) : (propagateUnit j u entry.2).Chained := by
  obtain ⟨links, items, length⟩ := propagateUnit_frame (j := j) u entry.2
  refine inv.of_same links items length fun item => ?_
  rw [pkg_propagateUnit install inv member]
  split <;> rfl

/-- The flag of an item depends on the packages of its chain only. -/
theorem chainFlag_congr {v : JobsUniverse} {chain : List Addr}
    (same : ∀ item ∈ chain, v.pkg item = u.pkg item) {item : Addr} (member : item ∈ chain) :
    chainFlag j v chain item = chainFlag j u chain item := by
  have found : v.localOf chain = u.localOf chain :=
    List.find?_congr fun other inChain => congrArg Pkg.isInstalled (same other inChain)
  unfold chainFlag
  rw [found, same item member]
  cases isLocal : u.localOf chain with
  | none => rfl
  | some loc =>
      dsimp only
      rw [same loc (mem_of_localOf isLocal).1]

/-- The loop over some entries sets the flags of their chains. -/
theorem pkg_propagate_entries (install : j.type = .install) (inv : u.Chained)
    {entries : List (Uid × Addr)} (filed : ∀ entry ∈ entries, entry ∈ u.items)
    (nodup : entries.Nodup) :
    (∀ entry ∈ entries, ∀ item ∈ u.chain entry.2,
      (entries.foldl (fun u entry => propagateUnit j u entry.2) u).pkg item =
        (u.pkg item).setAutomatic (chainFlag j u (u.chain entry.2) item)) ∧
    (∀ item, (∀ entry ∈ entries, item ∉ u.chain entry.2) →
      (entries.foldl (fun u entry => propagateUnit j u entry.2) u).pkg item = u.pkg item) := by
  induction entries generalizing u with
  | nil => exact ⟨nofun, fun _ _ => rfl⟩
  | cons first rest ih =>
      obtain ⟨firstFiled, restFiled⟩ := List.forall_mem_cons.mp filed
      obtain ⟨firstNew, restNodup⟩ := List.nodup_cons.mp nodup
      obtain ⟨links, items, length⟩ := propagateUnit_frame (j := j) u first.2
      have step := pkg_propagateUnit install inv firstFiled
      have chainEq := JobsUniverse.chain_of_same links length
      obtain ⟨set, kept⟩ := ih (chained_propagateUnit install inv firstFiled)
        (by rwa [items]) restNodup
      simp only [chainEq] at set kept
      -- The chains of the other entries are disjoint from the first one.
      have apart : ∀ entry ∈ rest, ∀ item ∈ u.chain entry.2, item ∉ u.chain first.2 := by
        intro entry member item inChain inFirst
        have same := JobsUniverse.entry_unique inv (restFiled entry member) firstFiled inChain
          inFirst
        exact firstNew (same ▸ member)
      constructor
      · intro entry member item inChain
        rw [List.foldl_cons]
        rcases List.mem_cons.mp member with rfl | inRest
        · rw [kept item fun other inRest inOther => apart other inRest item inOther inChain, step,
            if_pos inChain]
        · have same : ∀ item ∈ u.chain entry.2,
              (propagateUnit j u first.2).pkg item = u.pkg item := fun item inChain => by
            rw [step, if_neg (apart entry inRest item inChain)]
          rw [set entry inRest item inChain, chainFlag_congr same inChain, same item inChain]
      · intro item notIn
        obtain ⟨notFirst, notRest⟩ := List.forall_mem_cons.mp notIn
        rw [List.foldl_cons, kept item notRest, step, if_neg notFirst]

/-- The pass sets every reachable item to the flag of its chain. -/
theorem pkg_pkgJobsPropagateAutomatic (install : j.type = .install) (inv : j.univ.Chained)
    {entry : Uid × Addr} (member : entry ∈ j.univ.items) {item : Addr}
    (inChain : item ∈ j.univ.chain entry.2) :
    (pkgJobsPropagateAutomatic j).univ.pkg item =
      (j.univ.pkg item).setAutomatic (chainFlag j j.univ (j.univ.chain entry.2) item) :=
  (pkg_propagate_entries install inv (fun _ filed => filed)
    (List.Nodup.of_map _ inv.keysNodup)).1 entry member item inChain

theorem type_ne_of_remote {item : Addr} (remote : (u.pkg item).type = .remote) :
    (u.pkg item).isInstalled = false := by
  rw [Pkg.isInstalled_eq_false, remote]
  exact nofun

/-- A remote and an installed item are two. -/
theorem length_ne_one {chain : List Addr} {item loc : Addr} (member : item ∈ chain)
    (remote : (u.pkg item).type = .remote) (locMember : loc ∈ chain)
    (installed : (u.pkg loc).isInstalled = true) : chain.length ≠ 1 := by
  intro single
  obtain ⟨only, rfl⟩ := List.length_eq_one_iff.mp single
  rw [List.mem_singleton.mp locMember, ← List.mem_singleton.mp member,
    type_ne_of_remote remote] at installed
  cases installed

theorem chainFlag_installed {chain : List Addr} (long : chain.length ≠ 1) {item : Addr}
    (installed : (u.pkg item).isInstalled = true) :
    chainFlag j u chain item = (u.pkg item).automatic := by
  rw [chainFlag, if_neg long, if_pos installed]

theorem chainFlag_remote {chain : List Addr} (long : chain.length ≠ 1) {item : Addr}
    (remote : (u.pkg item).type = .remote) :
    ((∀ other ∈ chain, (u.pkg other).isInstalled = false) ∧
        chainFlag j u chain item = (u.pkg item).automatic) ∨
      ∃ loc ∈ chain, (u.pkg loc).isInstalled = true ∧
        chainFlag j u chain item = (u.pkg loc).automatic := by
  rw [chainFlag, if_neg long, type_ne_of_remote remote, if_neg Bool.false_ne_true]
  cases found : u.localOf chain with
  | none => exact .inl ⟨localOf_eq_none_iff.mp found, rfl⟩
  | some loc => exact .inr ⟨loc, (mem_of_localOf found).1, (mem_of_localOf found).2, rfl⟩

/-- The flags of an install job are as they should be exactly if the chains that the pass leaves
alone have them already. -/
theorem automaticFlags_iff (install : j.type = .install) (inv : j.univ.Chained) :
    AutomaticFlags j (pkgJobsPropagateAutomatic j) ↔ FlagsDecided j := by
  have after {entry : Uid × Addr} (filed : entry ∈ j.univ.items) {item : Addr}
      (inChain : item ∈ j.univ.chain entry.2) :
      ((pkgJobsPropagateAutomatic j).univ.pkg item).automatic =
        chainFlag j j.univ (j.univ.chain entry.2) item := by
    rw [pkg_pkgJobsPropagateAutomatic install inv filed inChain, Pkg.automatic_setAutomatic]
  constructor
  · intro flags
    refine ⟨fun entry filed item inChain remote long none => ?_,
      fun entry filed item inChain remote loc locIn installed other otherIn otherInstalled => ?_⟩
    · rw [← flags.alone entry filed item inChain remote none, after filed inChain]
      rcases chainFlag_remote long remote with ⟨_, own⟩ | ⟨loc, locIn, installed, _⟩
      · rw [own]
      · rw [none loc locIn] at installed
        cases installed
    · have long := length_ne_one inChain remote locIn installed
      have first := flags.inherited entry filed item inChain remote loc locIn installed
      have second := flags.inherited entry filed item inChain remote other otherIn otherInstalled
      rw [after filed inChain, after filed locIn, chainFlag_installed long installed] at first
      rw [after filed inChain, after filed otherIn,
        chainFlag_installed long otherInstalled] at second
      exact first.symm.trans second
  · intro decided
    refine ⟨fun entry filed item inChain remote none => ?_,
      fun entry filed item inChain remote loc locIn installed => ?_⟩
    · rw [after filed inChain]
      by_cases single : (j.univ.chain entry.2).length = 1
      · rw [chainFlag, if_pos single, type_ne_of_remote remote]
        obtain ⟨only, isOnly⟩ := List.length_eq_one_iff.mp single
        rw [isOnly] at inChain ⊢
        rw [← List.mem_singleton.mp inChain]
        simp
      · rw [← decided.alone entry filed item inChain remote single none]
        rcases chainFlag_remote single remote with ⟨_, own⟩ | ⟨loc, locIn, installed, _⟩
        · rw [own]
        · rw [none loc locIn] at installed
          cases installed
    · have long := length_ne_one inChain remote locIn installed
      rw [after filed inChain, after filed locIn, chainFlag_installed long installed]
      rcases chainFlag_remote long remote with ⟨none, _⟩ | ⟨first, firstIn, firstInstalled, flag⟩
      · rw [none loc locIn] at installed
        cases installed
      · rw [flag]
        exact decided.agree entry filed item inChain remote first firstIn firstInstalled loc locIn
          installed

end Step

/-- An install job over the given packages, without requests. -/
def installJobs (pkgs : List Pkg) : Jobs := { univ := JobsUniverse.ofPackages (fun _ => none) pkgs }

/-- A package of one of two repositories, or installed. -/
def packageA (type : PkgType) (digest : Digest) (automatic : Bool) : Pkg :=
  { type := type, uid := "a~ports/a", digest := some digest, automatic := automatic }

/-- The installed package's flag is passed on. -/
theorem upgrade_automaticFlags :
    AutomaticFlags (installJobs [packageA .installed "l" true, packageA .remote "r" false])
      (pkgJobsPropagateAutomatic
        (installJobs [packageA .installed "l" true, packageA .remote "r" false])) := by
  refine (automaticFlags_iff rfl (JobsUniverse.repInv_ofPackages _ _).toChained).mpr ⟨?_, ?_⟩
  · rintro entry filed item - - - none
    obtain rfl := List.mem_singleton.mp filed
    exact absurd (none 0 (by decide)) (by decide)
  · rintro entry filed item - - loc locIn installed other otherIn otherInstalled
    obtain rfl := List.mem_singleton.mp filed
    have only : ∀ unit ∈ [0, 1],
        ((installJobs [packageA .installed "l" true, packageA .remote "r" false]).univ.pkg
          unit).isInstalled = true → unit = 0 := by decide
    rw [only loc locIn installed, only other otherIn otherInstalled]

/-- A dependency that two repositories have is not marked. -/
theorem twoRepositories_not_automaticFlags :
    ¬∀ j : Jobs, j.type = .install → j.univ.Chained →
      AutomaticFlags j (pkgJobsPropagateAutomatic j) := by
  intro all
  have decided := (automaticFlags_iff rfl (JobsUniverse.repInv_ofPackages _ _).toChained).mp
    (all (installJobs [packageA .remote "r" false, packageA .remote "s" false]) rfl
      (JobsUniverse.repInv_ofPackages _ _).toChained)
  have marked := (decided.alone ("a~ports/a", 0) (by decide) 0 (by decide) rfl (by decide)
    (by decide)).mpr (fun _ _ => List.not_mem_nil)
  exact absurd marked (by decide)

end Pkgng
