import Pkgng.Jobs.Resolve
import Pkgng.Version.Shortcut

/-!
# Upgrade chains

`pkg_jobs_universe_process_upgrade_chains` leaves one install request in a chain with several
candidates.  It selects the newest remote package of the chain, requested or not, and then
deletes all requests of the chain but the one for this package; so no request is left where
an older package was requested.
-/

set_option autoImplicit false

namespace Pkgng

open Lib

section Chain

variable (u : JobsUniverse) (chain : List Addr)

def Remote (item : Addr) : Prop := (u.pkg item).isInstalled = false

instance (item : Addr) : Decidable (Remote u item) :=
  inferInstanceAs (Decidable ((u.pkg item).isInstalled = false))

/-- The first of the remote items whose version is maximal. -/
def FirstNewest (item : Addr) : Prop :=
  ∃ front back, chain = front ++ item :: back ∧ Remote u item ∧
    (∀ other ∈ front, Remote u other →
      pkgVersionCmp (u.pkg other).version (u.pkg item).version < 0) ∧
    (∀ other ∈ back, Remote u other →
      pkgVersionCmp (u.pkg other).version (u.pkg item).version ≤ 0)

/-- The last installed item of the chain is a locked package. -/
def LastLocked : Prop :=
  ∃ local_, (chain.reverse.find? fun cur => (u.pkg cur).isInstalled) = some local_ ∧
    (u.pkg local_).locked = true

/-- Some installed item is a locked package. -/
def SomeLocked : Prop :=
  ∃ item ∈ chain, (u.pkg item).isInstalled = true ∧ (u.pkg item).locked = true

instance : Decidable (SomeLocked u chain) :=
  inferInstanceAs (Decidable (∃ item ∈ chain,
    (u.pkg item).isInstalled = true ∧ (u.pkg item).locked = true))

/-- The comment's "more than one upgrade candidate". -/
def Contested : Prop :=
  if ∃ item ∈ chain, (u.pkg item).isInstalled = true then 2 < chain.length else 1 < chain.length

instance : Decidable (Contested u chain) :=
  inferInstanceAs (Decidable (if ∃ item ∈ chain, (u.pkg item).isInstalled = true
    then 2 < chain.length else 1 < chain.length))

end Chain

/-- What the requests `after` the pass are to be, for the requests `before`. -/
structure ChainSettled (u : JobsUniverse) (before after chain : List Addr) : Prop where
  locked : SomeLocked u chain → ∀ item ∈ chain, item ∉ after
  newest : ¬SomeLocked u chain → (∃ item ∈ chain, Remote u item ∧ item ∈ before) →
    ∃ item ∈ chain, Remote u item ∧ item ∈ after ∧
      (∀ other ∈ chain, Remote u other → other ∈ after → other = item) ∧
      ∀ other ∈ chain, Remote u other →
        pkgVersionCmp (u.pkg other).version (u.pkg item).version ≤ 0

/-! ## The selection -/

section Select

variable {u : JobsUniverse}

theorem not_remote {item : Addr} : ¬Remote u item ↔ (u.pkg item).isInstalled = true := by
  simp [Remote]

theorem FirstNewest.remote {chain : List Addr} {item : Addr} (newest : FirstNewest u chain item) :
    item ∈ chain ∧ Remote u item := by
  obtain ⟨front, back, rfl, remote, -, -⟩ := newest
  exact ⟨by simp, remote⟩

theorem FirstNewest.max {chain : List Addr} {item other : Addr}
    (newest : FirstNewest u chain item) (member : other ∈ chain) (remote : Remote u other) :
    pkgVersionCmp (u.pkg other).version (u.pkg item).version ≤ 0 := by
  obtain ⟨front, back, rfl, -, older, notNewer⟩ := newest
  rcases List.mem_append.mp member with inFront | behind
  · exact (older other inFront remote).le
  · rcases List.mem_cons.mp behind with rfl | inBack
    · exact (versionCmp_lawful.self _).le
    · exact notNewer other inBack remote

/-- One more item at the end of the chain. -/
theorem FirstNewest.snoc {chain : List Addr} {best x : Addr} (newest : FirstNewest u chain best)
    (remote : Remote u x) :
    FirstNewest u (chain ++ [x])
      (if pkgVersionUpgrades pkgVersionCmp (u.pkg x) (u.pkg best) then x else best) := by
  have cmp := versionCmp_lawful
  have swapped := cmp.swap (u.pkg best).version (u.pkg x).version
  unfold pkgVersionUpgrades
  by_cases newer : pkgVersionCmp (u.pkg best).version (u.pkg x).version = -1
  · rw [decide_eq_true newer, if_pos rfl]
    refine ⟨chain, [], rfl, remote, fun other member isRemote => ?_, by simp⟩
    have below := newest.max member isRemote
    by_contra notBelow
    have opposite := cmp.swap (u.pkg other).version (u.pkg x).version
    have through := cmp.trans _ _ _ (show pkgVersionCmp (u.pkg x).version (u.pkg other).version ≤ 0
      by omega) below
    omega
  · rw [decide_eq_false newer, if_neg Bool.false_ne_true]
    obtain ⟨front, back, rfl, isRemote, older, notNewer⟩ := newest
    refine ⟨front, back ++ [x], by simp, isRemote, older, fun other member otherRemote => ?_⟩
    rcases List.mem_append.mp member with inBack | last
    · exact notNewer other inBack otherRemote
    · rw [List.mem_singleton.mp last]
      have sign := cmp.sign (u.pkg best).version (u.pkg x).version
      omega

theorem FirstNewest.skip {chain : List Addr} {best x : Addr} (newest : FirstNewest u chain best)
    (installed : (u.pkg x).isInstalled = true) : FirstNewest u (chain ++ [x]) best := by
  obtain ⟨front, back, rfl, remote, older, notNewer⟩ := newest
  refine ⟨front, back ++ [x], by simp, remote, older, fun other member isRemote => ?_⟩
  rcases List.mem_append.mp member with inBack | last
  · exact notNewer other inBack isRemote
  · rw [List.mem_singleton.mp last, Remote, installed] at isRemote
    cases isRemote

theorem selectNewest_snoc (chain : List Addr) (x : Addr) :
    selectNewest pkgVersionCmp u (chain ++ [x]) =
      if (u.pkg x).isInstalled then selectNewest pkgVersionCmp u chain
      else
        match selectNewest pkgVersionCmp u chain with
        | none => some x
        | some best =>
            some (if pkgVersionUpgrades pkgVersionCmp (u.pkg x) (u.pkg best) then x else best) := by
  rw [selectNewest, List.foldl_append, List.foldl_cons, List.foldl_nil, ← selectNewest]
  cases selectNewest pkgVersionCmp u chain with
  | none => rfl
  | some best =>
      split
      · rfl
      · dsimp only
        split <;> rfl

/-- Induction on the chain from its end, as the selection runs from its start. -/
theorem selectNewest_spec (chain : List Addr) :
    (selectNewest pkgVersionCmp u chain = none ∧ ∀ item ∈ chain, ¬Remote u item) ∨
      ∃ item, selectNewest pkgVersionCmp u chain = some item ∧ FirstNewest u chain item := by
  induction chain using List.reverseRecOn with
  | nil => exact .inl ⟨rfl, by simp⟩
  | append_singleton chain x ih =>
      rw [selectNewest_snoc]
      cases kind : (u.pkg x).isInstalled with
      | true =>
          rw [if_pos rfl]
          rcases ih with ⟨none, installed⟩ | ⟨best, selected, newest⟩
          · refine .inl ⟨none, fun item member => ?_⟩
            rcases List.mem_append.mp member with earlier | last
            · exact installed item earlier
            · rw [List.mem_singleton.mp last]
              exact not_remote.mpr kind
          · exact .inr ⟨best, selected, newest.skip kind⟩
      | false =>
          rw [if_neg Bool.false_ne_true]
          rcases ih with ⟨none, installed⟩ | ⟨best, selected, newest⟩
          · rw [none]
            refine .inr ⟨x, rfl, chain, [], rfl, kind, fun other member isRemote => ?_, by simp⟩
            exact absurd isRemote (installed other member)
          · rw [selected]
            exact .inr ⟨_, rfl, newest.snoc kind⟩

theorem FirstNewest.unique {chain : List Addr} {item other : Addr}
    (newest : FirstNewest u chain item) (alike : FirstNewest u chain other) : item = other := by
  have below := alike.max newest.remote.1 newest.remote.2
  have above := newest.max alike.remote.1 alike.remote.2
  have swapped := versionCmp_lawful.swap (u.pkg item).version (u.pkg other).version
  obtain ⟨front, back, rfl, remote, older, -⟩ := newest
  obtain ⟨front', back', same, remote', older', -⟩ := alike
  rcases List.append_eq_append_iff.mp same with ⟨between, rfl, rest⟩ | ⟨between, rfl, rest⟩
  · cases between with
    | nil => exact (List.cons.inj rest).1
    | cons x between =>
        obtain ⟨rfl, -⟩ := List.cons.inj rest
        have less := older' item (by simp) remote
        omega
  · cases between with
    | nil => exact (List.cons.inj rest).1.symm
    | cons x between =>
        obtain ⟨rfl, -⟩ := List.cons.inj rest
        have less := older other (by simp) remote'
        omega

end Select

/-! ## One turn -/

/-- The items whose requests one turn deletes. -/
def chainDrops (u : JobsUniverse) (chain : List Addr) : Option (List Addr) :=
  match chain.reverse.find? fun cur => (u.pkg cur).isInstalled with
  | some lastLocal =>
      if (u.pkg lastLocal).locked then some chain
      else if 2 < chain.length then
        (selectNewest pkgVersionCmp u chain).map fun selected =>
          chain.filter fun cur => cur ≠ selected
      else some []
  | none =>
      if 1 < chain.length then
        (selectNewest pkgVersionCmp u chain).map fun selected =>
          chain.filter fun cur => cur ≠ selected
      else some []

theorem processUpgradeChain_eq (j : Jobs) (head : Addr) :
    processUpgradeChain pkgVersionCmp j head =
      (chainDrops j.univ (j.univ.chain head)).map fun items =>
        { j with requestAdd := removeRequests items j.requestAdd } := by
  have none_dropped : removeRequests [] j.requestAdd = j.requestAdd := by
    simp [removeRequests]
  have same : j = { j with requestAdd := removeRequests [] j.requestAdd } := by
    rw [none_dropped]
  unfold processUpgradeChain chainDrops
  simp only [Jobs.pkg]
  cases (j.univ.chain head).reverse.find? fun cur => (j.univ.pkg cur).isInstalled with
  | none =>
      dsimp only
      split
      · rw [Option.map_map]
        rfl
      · exact congrArg some same
  | some lastLocal =>
      dsimp only
      split
      · rfl
      · split
        · rw [Option.map_map]
          rfl
        · exact congrArg some same

theorem find?_installed {u : JobsUniverse} {chain : List Addr} {item : Addr}
    (found : (chain.find? fun cur => (u.pkg cur).isInstalled) = some item) :
    (u.pkg item).isInstalled = true :=
  @List.find?_some _ (fun cur => (u.pkg cur).isInstalled) _ _ found

/-- The three kinds of turns. -/
theorem chainDrops_cases (u : JobsUniverse) (chain : List Addr) :
    (LastLocked u chain ∧ chainDrops u chain = some chain) ∨
    (¬LastLocked u chain ∧ Contested u chain ∧
      chainDrops u chain = (selectNewest pkgVersionCmp u chain).map fun selected =>
        chain.filter fun cur => cur ≠ selected) ∨
    (¬LastLocked u chain ∧ ¬Contested u chain ∧ chainDrops u chain = some []) := by
  unfold LastLocked Contested chainDrops
  cases found : chain.reverse.find? fun cur => (u.pkg cur).isInstalled with
  | none =>
      have noneInstalled : ¬∃ item ∈ chain, (u.pkg item).isInstalled = true := by
        simpa using List.find?_eq_none.mp found
      simp only [noneInstalled, if_false]
      by_cases several : 1 < chain.length
      · exact .inr (.inl ⟨by simp, several, if_pos several⟩)
      · exact .inr (.inr ⟨by simp, several, if_neg several⟩)
  | some lastLocal =>
      have isLocal : ∃ item ∈ chain, (u.pkg item).isInstalled = true :=
        ⟨lastLocal, List.mem_reverse.mp (List.mem_of_find?_eq_some found), find?_installed found⟩
      simp only [isLocal, if_true, Option.some.injEq, exists_eq_left']
      by_cases locked : (u.pkg lastLocal).locked = true
      · exact .inl ⟨locked, if_pos locked⟩
      · rw [if_neg locked]
        by_cases several : 2 < chain.length
        · exact .inr (.inl ⟨locked, several, if_pos several⟩)
        · exact .inr (.inr ⟨locked, several, if_neg several⟩)

theorem LastLocked.someLocked {u : JobsUniverse} {chain : List Addr}
    (locked : LastLocked u chain) : SomeLocked u chain := by
  obtain ⟨item, found, isLocked⟩ := locked
  exact ⟨item, List.mem_reverse.mp (List.mem_of_find?_eq_some found), find?_installed found,
    isLocked⟩

theorem chainDrops_subset {u : JobsUniverse} {chain items : List Addr}
    (drops : chainDrops u chain = some items) : items ⊆ chain := by
  unfold chainDrops at drops
  split at drops
  · split at drops
    · cases drops
      exact List.Subset.refl _
    · split at drops
      · obtain ⟨selected, _, rfl⟩ := Option.map_eq_some_iff.mp drops
        exact List.filter_subset_self _
      · cases drops
        exact List.nil_subset _
  · split at drops
    · obtain ⟨selected, _, rfl⟩ := Option.map_eq_some_iff.mp drops
      exact List.filter_subset_self _
    · cases drops
      exact List.nil_subset _

/-! ## What the requests of a chain are to be -/

/-- The requests of a chain before the pass come out as they are to be: its last installed
item is locked; or one candidate is selected and requested, if any is (but not in a chain with
a locked item); or there is nothing to select (and nothing requested with a locked item). -/
def RequestsKept (u : JobsUniverse) (before chain : List Addr) : Prop :=
  LastLocked u chain ∨
  (Contested u chain ∧ ∃ newest, FirstNewest u chain newest ∧
    (SomeLocked u chain → newest ∉ before) ∧
    (¬SomeLocked u chain → (∃ item ∈ chain, Remote u item ∧ item ∈ before) → newest ∈ before)) ∨
  (¬Contested u chain ∧ (SomeLocked u chain → ∀ item ∈ chain, item ∉ before))

theorem one_remote {u : JobsUniverse} {chain : List Addr} (alone : ¬Contested u chain)
    {a b : Addr} (aIn : a ∈ chain) (bIn : b ∈ chain) (aRemote : Remote u a) (bRemote : Remote u b) :
    a = b := by
  unfold Contested at alone
  match chain with
  | [] => cases aIn
  | [x] => rw [List.mem_singleton.mp aIn, List.mem_singleton.mp bIn]
  | [x, y] =>
      split at alone
      · rename_i isLocal
        obtain ⟨item, member, installed⟩ := isLocal
        have other : ∀ z, Remote u z → z ≠ item := by
          intro z remote same
          rw [same, Remote, installed] at remote
          cases remote
        have aOther := other a aRemote
        have bOther := other b bRemote
        simp only [List.mem_cons, List.not_mem_nil, or_false] at aIn bIn member
        grind
      · exact absurd (Nat.lt_succ_self 1) alone
  | x :: y :: z :: rest =>
      split at alone <;> exact absurd (by simp) alone

theorem chainSettled_iff {u : JobsUniverse} {before after chain items : List Addr}
    (drops : chainDrops u chain = some items)
    (kept : ∀ item ∈ chain, item ∈ after ↔ item ∈ before ∧ item ∉ items) :
    ChainSettled u before after chain ↔ RequestsKept u before chain := by
  rcases chainDrops_cases u chain with ⟨locked, all⟩ | ⟨unlocked, contested, one⟩ |
    ⟨unlocked, alone, nothing⟩
  · rw [all] at drops
    cases drops
    refine ⟨fun _ => .inl locked, fun _ => ⟨fun _ item member => ?_, fun none => ?_⟩⟩
    · exact fun requested => ((kept item member).mp requested).2 member
    · exact absurd locked.someLocked none
  · rw [one] at drops
    obtain ⟨selected, isSelected, rfl⟩ := Option.map_eq_some_iff.mp drops
    have newest : FirstNewest u chain selected := by
      rcases selectNewest_spec chain with ⟨none, _⟩ | ⟨item, some, newest⟩
      · rw [none] at isSelected
        cases isSelected
      · rw [some] at isSelected
        cases isSelected
        exact newest
    have keptOne : ∀ item ∈ chain, item ∈ after ↔ item ∈ before ∧ item = selected := by
      intro item member
      rw [kept item member]
      simp [member]
    obtain ⟨selectedIn, selectedRemote⟩ := newest.remote
    constructor
    · intro settled
      refine .inr (.inl ⟨contested, selected, newest, fun locked requested => ?_,
        fun none requested => ?_⟩)
      · exact settled.locked locked selected selectedIn
          ((keptOne selected selectedIn).mpr ⟨requested, rfl⟩)
      · obtain ⟨item, member, _, inAfter, _⟩ := settled.newest none requested
        obtain ⟨inBefore, rfl⟩ := (keptOne item member).mp inAfter
        exact inBefore
    · rintro (last | ⟨_, item, isNewest, unrequested, requested⟩ | ⟨alone, _⟩)
      · exact absurd last unlocked
      · obtain rfl := newest.unique isNewest
        refine ⟨fun locked other member inAfter => ?_, fun none some => ?_⟩
        · obtain ⟨inBefore, rfl⟩ := (keptOne other member).mp inAfter
          exact unrequested locked inBefore
        · refine ⟨selected, selectedIn, selectedRemote,
            (keptOne selected selectedIn).mpr ⟨requested none some, rfl⟩, ?_, ?_⟩
          · exact fun other member _ inAfter => ((keptOne other member).mp inAfter).2
          · exact fun other member remote => newest.max member remote
      · exact absurd contested alone
  · rw [nothing] at drops
    cases drops
    have same : ∀ item ∈ chain, item ∈ after ↔ item ∈ before := by
      intro item member
      rw [kept item member]
      simp
    constructor
    · intro settled
      refine .inr (.inr ⟨alone, fun locked item member inBefore => ?_⟩)
      exact settled.locked locked item member ((same item member).mpr inBefore)
    · rintro (last | ⟨contested, _⟩ | ⟨_, unrequested⟩)
      · exact absurd last unlocked
      · exact absurd contested alone
      · refine ⟨fun locked item member inAfter => ?_, fun _ requested => ?_⟩
        · exact unrequested locked item member ((same item member).mp inAfter)
        · obtain ⟨item, member, remote, inBefore⟩ := requested
          refine ⟨item, member, remote, (same item member).mpr inBefore, ?_, ?_⟩
          · exact fun other otherIn otherRemote _ =>
              one_remote alone otherIn member otherRemote remote
          · intro other otherIn otherRemote
            rw [one_remote alone otherIn member otherRemote remote]
            exact (versionCmp_lawful.self _).le

/-! ## The pass -/

/-- What the turns for some entries leave of the requests. -/
theorem upgradeChains_run {entries : List (Uid × Addr)} {j j' : Jobs}
    (ran : entries.foldlM (fun j entry => processUpgradeChain pkgVersionCmp j entry.2) j =
      some j') :
    ∀ item, item ∈ j'.requestAdd ↔ item ∈ j.requestAdd ∧
      ∀ entry ∈ entries, ∃ items, chainDrops j.univ (j.univ.chain entry.2) = some items ∧
        item ∉ items := by
  induction entries generalizing j with
  | nil =>
      cases ran
      simp
  | cons entry rest ih =>
      rw [List.foldlM_cons, Option.bind_eq_bind, Option.bind_eq_some_iff] at ran
      obtain ⟨mid, first, later⟩ := ran
      rw [processUpgradeChain_eq] at first
      obtain ⟨items, drops, rfl⟩ := Option.map_eq_some_iff.mp first
      intro item
      rw [ih later item]
      simp only [removeRequests, List.mem_filter, decide_eq_true_eq, List.mem_cons,
        forall_eq_or_imp, drops, Option.some.injEq, exists_eq_left']
      exact and_assoc

/-- The assertion holds in every turn. -/
theorem upgradeChains_ran {entries : List (Uid × Addr)} {j j' : Jobs}
    (ran : entries.foldlM (fun j entry => processUpgradeChain pkgVersionCmp j entry.2) j =
      some j') :
    ∀ entry ∈ entries, ∃ items, chainDrops j.univ (j.univ.chain entry.2) = some items := by
  induction entries generalizing j with
  | nil => simp
  | cons entry rest ih =>
      rw [List.foldlM_cons, Option.bind_eq_bind, Option.bind_eq_some_iff] at ran
      obtain ⟨mid, first, later⟩ := ran
      rw [processUpgradeChain_eq] at first
      obtain ⟨items, drops, rfl⟩ := Option.map_eq_some_iff.mp first
      intro other member
      rcases List.mem_cons.mp member with rfl | inRest
      · exact ⟨items, drops⟩
      · exact ih later other inRest

theorem upgradeChains_runs {entries : List (Uid × Addr)} {j : Jobs}
    (drops : ∀ entry ∈ entries, ∃ items, chainDrops j.univ (j.univ.chain entry.2) = some items) :
    ∃ j', entries.foldlM (fun j entry => processUpgradeChain pkgVersionCmp j entry.2) j =
      some j' := by
  induction entries generalizing j with
  | nil => exact ⟨j, rfl⟩
  | cons entry rest ih =>
      obtain ⟨items, here⟩ := drops entry (by simp)
      rw [List.foldlM_cons, Option.bind_eq_bind, processUpgradeChain_eq, here]
      exact ih fun other member => drops other (by simp [member])

/-- The pass runs to its end and settles every chain. -/
def UpgradeChainsSettled (j : Jobs) : Prop :=
  ∃ j', pkgJobsUniverseProcessUpgradeChains pkgVersionCmp j = some j' ∧
    ∀ entry ∈ j.univ.items,
      ChainSettled j.univ j.requestAdd j'.requestAdd (j.univ.chain entry.2)

theorem RequestsKept.drops {u : JobsUniverse} {before chain : List Addr}
    (kept : RequestsKept u before chain) : ∃ items, chainDrops u chain = some items := by
  rcases chainDrops_cases u chain with ⟨_, all⟩ | ⟨unlocked, contested, one⟩ | ⟨_, _, nothing⟩
  · exact ⟨_, all⟩
  · rcases kept with last | ⟨_, newest, isNewest, _⟩ | ⟨alone, _⟩
    · exact absurd last unlocked
    · rcases selectNewest_spec chain with ⟨_, none⟩ | ⟨item, selected, _⟩
      · exact absurd isNewest.remote.2 (none newest isNewest.remote.1)
      · exact ⟨_, by rw [one, selected]; rfl⟩
    · exact absurd contested alone
  · exact ⟨_, nothing⟩

theorem upgradeChainsSettled_iff {j : Jobs} (chained : j.univ.Chained) :
    UpgradeChainsSettled j ↔
      ∀ entry ∈ j.univ.items, RequestsKept j.univ j.requestAdd (j.univ.chain entry.2) := by
  -- the turns for the other entries do not touch the requests of a chain
  have settles : ∀ {j'}, pkgJobsUniverseProcessUpgradeChains pkgVersionCmp j = some j' →
      ∀ entry ∈ j.univ.items,
        (ChainSettled j.univ j.requestAdd j'.requestAdd (j.univ.chain entry.2) ↔
          RequestsKept j.univ j.requestAdd (j.univ.chain entry.2)) := by
    intro j' ran entry member
    obtain ⟨items, drops⟩ := upgradeChains_ran ran entry member
    refine chainSettled_iff drops fun item inChain => ?_
    rw [upgradeChains_run ran item]
    refine and_congr_right fun _ => ⟨fun all => ?_, fun notHere other otherIn => ?_⟩
    · obtain ⟨same, isDrops, notIn⟩ := all entry member
      rw [drops] at isDrops
      cases isDrops
      exact notIn
    · obtain ⟨others, otherDrops⟩ := upgradeChains_ran ran other otherIn
      refine ⟨others, otherDrops, fun dropped => ?_⟩
      have inOther := chainDrops_subset otherDrops dropped
      have sameKey : other.1 = entry.1 :=
        (chained.homogeneous other otherIn item inOther).symm.trans
          (chained.homogeneous entry member item inChain)
      obtain rfl := List.inj_on_of_nodup_map chained.keysNodup otherIn member sameKey
      rw [drops] at otherDrops
      cases otherDrops
      exact notHere dropped
  constructor
  · rintro ⟨j', ran, settled⟩ entry member
    exact (settles ran entry member).mp (settled entry member)
  · intro kept
    obtain ⟨j', ran⟩ := upgradeChains_runs fun entry member => (kept entry member).drops
    exact ⟨j', ran, fun entry member => (settles ran entry member).mpr (kept entry member)⟩

def twoVersionPkgs : List Pkg :=
  [{ type := .remote, uid := "app", version := "1", digest := some "d1" },
   { type := .remote, uid := "app", version := "2", digest := some "d2" }]

/-- Two remote packages in one chain, and install requests for some of them. -/
def twoVersionJobs (requests : List Addr) : Jobs where
  univ := JobsUniverse.ofPackages Pkg.digest twoVersionPkgs
  requestAdd := requests

theorem bothRequested_settled : UpgradeChainsSettled (twoVersionJobs [0, 1]) := by
  have chained := (JobsUniverse.repInv_ofPackages Pkg.digest twoVersionPkgs).toChained
  refine (@upgradeChainsSettled_iff (twoVersionJobs [0, 1]) chained).mpr fun entry member => ?_
  have only : entry = ("app", 0) := by simpa using (show entry ∈ [("app", 0)] from member)
  rw [only]
  have newest : FirstNewest (twoVersionJobs [0, 1]).univ [0, 1] 1 := by
    refine ⟨[0], [], rfl, by decide, fun other older _ => ?_, by simp⟩
    rw [List.mem_singleton.mp older]
    decide +kernel
  exact .inr (.inl ⟨by decide, 1, newest, fun locked => absurd locked (by decide),
    fun _ _ => by decide⟩)

/-- Only the older package is requested: its request is deleted, and none is left. -/
theorem olderRequested_not_settled : ¬UpgradeChainsSettled (twoVersionJobs [0]) := by
  rintro ⟨j', ran, settled⟩
  have left : (pkgJobsUniverseProcessUpgradeChains pkgVersionCmp (twoVersionJobs [0])).map
      (·.requestAdd) = some [] := by decide +kernel
  rw [ran, Option.map_some, Option.some.injEq] at left
  have chain := settled ("app", 0) (by decide)
  obtain ⟨item, _, _, requested, _⟩ := chain.newest (by decide) ⟨0, by decide, by decide, by decide⟩
  rw [left] at requested
  cases requested

end Pkgng
