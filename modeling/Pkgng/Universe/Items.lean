import Pkgng.Lib.DoublyLinked
import Pkgng.Lib.HashTable
import Pkgng.Package
import Mathlib.Data.List.Perm.Subperm
import Mathlib.Data.List.Flatten

/-!
# The jobs universe

`struct pkg_jobs_universe` keeps its items in chains: one doubly linked chain
for each uid, its head filed in a hash table under that uid.  Items are named
by the order of their allocation, and an item's `pkg`, `next` and `prev` fields
are three maps over these names.  This module has the representation, the
insertion of a package and the invariant that insertions keep.
-/

set_option autoImplicit false

namespace Pkgng

open Lib

/-- The name of a `struct pkg_job_universe_item`: its allocation number. -/
abbrev Addr := Nat

instance : Inhabited Pkg := ⟨{ type := .none, uid := "" }⟩

structure JobsUniverse where
  pkgs : List Pkg := []
  links : Links := Links.empty
  items : HashTable Uid Addr := []
  seen : HashTable Digest Addr := []
  /-- The providers recorded for a shared library; a recorded item may be null. -/
  provides : HashTable String (List (Option Addr)) := []
  /-- `(old_uid, new_uid)` pairs, the youngest first. -/
  uidReplaces : List (Uid × Uid) := []
  nitems : Nat := 0
  /-- The messages handed to `pkg_emit_error`. -/
  errors : List String := []
  /-- Ghost: the items whose package a row iterator has overwritten in place. -/
  refilled : List Addr := []

namespace JobsUniverse

def pkg (u : JobsUniverse) (item : Addr) : Pkg := u.pkgs.getD item default

/-- `pkg_jobs_universe_find`. -/
def find (u : JobsUniverse) (uid : Uid) : Option Addr := HashTable.find uid u.items

/-- `LL_FOREACH` from an item; no chain is longer than the number of items. -/
def chain (u : JobsUniverse) (head : Addr) : List Addr :=
  u.links.walk u.pkgs.length (some head)

/-- `LL_FOREACH` from what `pkg_jobs_universe_find` returns. -/
def chainOf (u : JobsUniverse) (uid : Uid) : List Addr :=
  match u.find uid with
  | some head => u.chain head
  | none => []

/-- The chains in the order in which `HASH_ITER` meets their heads. -/
def chains (u : JobsUniverse) : List (List Addr) := u.items.map fun entry => u.chain entry.2

/-- The items reachable through the chains. -/
def units (u : JobsUniverse) : List Addr := u.chains.flatten

/-- Some reachable item has the uid. -/
def Present (u : JobsUniverse) (uid : Uid) : Prop := ∃ item ∈ u.units, (u.pkg item).uid = uid

/-- Storing a package in a fresh item at the end of its uid's chain. -/
def insert (u : JobsUniverse) (pkg : Pkg) (digest : Digest) : JobsUniverse :=
  { u with
    pkgs := u.pkgs ++ [{ pkg with digest := some digest }]
    links := u.links.append (u.find pkg.uid) u.pkgs.length
    items :=
      match u.find pkg.uid with
      | none => HashTable.add pkg.uid u.pkgs.length u.items
      | some _ => u.items
    seen :=
      match HashTable.find digest u.seen with
      | none => HashTable.add digest u.pkgs.length u.seen
      | some _ => u.seen
    nitems := u.nitems + 1 }

end JobsUniverse

/-- The digest a package is filed under: its own, or the one that
`pkg_checksum_calculate` computes for it. -/
def digestOf (checksum : Pkg → Option Digest) (pkg : Pkg) : Option Digest :=
  match pkg.digest with
  | some digest => some digest
  | none => checksum pkg

/-- `pkg_jobs_universe_add_pkg`: the return code, what `*found` is left at, and
the universe. -/
def pkgJobsUniverseAddPkg (checksum : Pkg → Option Digest) (u : JobsUniverse) (pkg : Pkg)
    (force : Bool) : Epkg × Option Addr × JobsUniverse :=
  match digestOf checksum pkg with
  | none => (.fatal, none, u)
  | some digest =>
      match HashTable.find digest u.seen with
      | some un =>
          if force then (.ok, some u.pkgs.length, u.insert pkg digest)
          else (.finished, some un, u)
      | none => (.ok, some u.pkgs.length, u.insert pkg digest)

/-- Everything one insertion can do. -/
theorem pkgJobsUniverseAddPkg_cases (checksum : Pkg → Option Digest) (u : JobsUniverse)
    (pkg : Pkg) (force : Bool) :
    (digestOf checksum pkg = none ∧
      pkgJobsUniverseAddPkg checksum u pkg force = (.fatal, none, u)) ∨
    (∃ digest un, digestOf checksum pkg = some digest ∧ force = false ∧
      HashTable.find digest u.seen = some un ∧
      pkgJobsUniverseAddPkg checksum u pkg force = (.finished, some un, u)) ∨
    (∃ digest, digestOf checksum pkg = some digest ∧
      (force = true ∨ HashTable.find digest u.seen = none) ∧
      pkgJobsUniverseAddPkg checksum u pkg force =
        (.ok, some u.pkgs.length, u.insert pkg digest)) := by
  unfold pkgJobsUniverseAddPkg
  cases digestEq : digestOf checksum pkg with
  | none => exact Or.inl ⟨rfl, rfl⟩
  | some digest =>
      right
      cases seenEq : HashTable.find digest u.seen with
      | none => exact Or.inr ⟨digest, rfl, Or.inr seenEq, by simp [seenEq]⟩
      | some un =>
          cases force with
          | false => exact Or.inl ⟨digest, un, rfl, rfl, seenEq, by simp [seenEq]⟩
          | true => exact Or.inr ⟨digest, rfl, Or.inl rfl, by simp [seenEq]⟩

/-- The table entries are the heads of well linked chains, one for each uid,
that have no item in common, whatever uids their items carry. -/
structure JobsUniverse.Threaded (u : JobsUniverse) : Prop where
  linked : ∀ entry ∈ u.items, Links.Represents u.links (u.chain entry.2)
  headed : ∀ entry ∈ u.items, (u.chain entry.2).head? = some entry.2
  keysNodup : (u.items.map Prod.fst).Nodup
  unitsNodup : u.units.Nodup
  inBounds : ∀ item ∈ u.units, item < u.pkgs.length

/-- The table entries are the heads of well linked chains, one for each uid,
and all items of a chain carry its uid. -/
structure JobsUniverse.Chained (u : JobsUniverse) : Prop where
  linked : ∀ entry ∈ u.items, Links.Represents u.links (u.chain entry.2)
  headed : ∀ entry ∈ u.items, (u.chain entry.2).head? = some entry.2
  keysNodup : (u.items.map Prod.fst).Nodup
  unitsNodup : u.units.Nodup
  inBounds : ∀ item ∈ u.units, item < u.pkgs.length
  homogeneous : ∀ entry ∈ u.items, ∀ item ∈ u.chain entry.2, (u.pkg item).uid = entry.1

/-- The representation invariant: on top of the chains, every item ever added
is still reachable, the seen table holds reachable items only, and `nitems`
counts the reachable items. -/
structure JobsUniverse.RepInv (u : JobsUniverse) : Prop extends u.Chained where
  keepsAll : ∀ item, item < u.pkgs.length → item ∈ u.units
  seenReachable : ∀ entry ∈ u.seen, entry.2 ∈ u.units
  counted : u.nitems = u.units.length

namespace JobsUniverse

section Same

variable {u u' : JobsUniverse}

theorem chain_of_same (links : u'.links = u.links) (length : u'.pkgs.length = u.pkgs.length)
    (head : Addr) : u'.chain head = u.chain head := by
  rw [chain, chain, links, length]

theorem units_of_same (links : u'.links = u.links) (items : u'.items = u.items)
    (length : u'.pkgs.length = u.pkgs.length) : u'.units = u.units := by
  simp only [units, chains, items, chain_of_same links length]

theorem Threaded.of_same (inv : u.Threaded) (links : u'.links = u.links)
    (items : u'.items = u.items) (length : u'.pkgs.length = u.pkgs.length) : u'.Threaded := by
  have chainEq := chain_of_same links length
  have unitsEq := units_of_same links items length
  refine ⟨?_, ?_, ?_, ?_, ?_⟩
  · simpa only [items, chainEq, links] using inv.linked
  · simpa only [items, chainEq] using inv.headed
  · simpa only [items] using inv.keysNodup
  · simpa only [unitsEq] using inv.unitsNodup
  · simpa only [unitsEq, length] using inv.inBounds

theorem Chained.threaded (inv : u.Chained) : u.Threaded :=
  ⟨inv.linked, inv.headed, inv.keysNodup, inv.unitsNodup, inv.inBounds⟩

/-- The invariant reads the uids of the packages and nothing else of them. -/
theorem Chained.of_same (inv : u.Chained) (links : u'.links = u.links)
    (items : u'.items = u.items) (length : u'.pkgs.length = u.pkgs.length)
    (uids : ∀ item, (u'.pkg item).uid = (u.pkg item).uid) : u'.Chained := by
  have threaded := inv.threaded.of_same links items length
  refine ⟨threaded.linked, threaded.headed, threaded.keysNodup, threaded.unitsNodup,
    threaded.inBounds, ?_⟩
  simpa only [items, chain_of_same links length, uids] using inv.homogeneous

theorem RepInv.of_same (inv : u.RepInv) (links : u'.links = u.links)
    (items : u'.items = u.items) (seen : u'.seen = u.seen) (nitems : u'.nitems = u.nitems)
    (length : u'.pkgs.length = u.pkgs.length)
    (uids : ∀ item, (u'.pkg item).uid = (u.pkg item).uid) : u'.RepInv := by
  have unitsEq := units_of_same links items length
  refine ⟨inv.toChained.of_same links items length uids, ?_, ?_, ?_⟩
  · simpa only [unitsEq, length] using inv.keepsAll
  · simpa only [unitsEq, seen] using inv.seenReachable
  · rw [nitems, unitsEq, inv.counted]

end Same

theorem repInv_empty : RepInv {} where
  linked := by simp
  headed := by simp
  keysNodup := List.nodup_nil
  unitsNodup := by simp [units, chains]
  inBounds := by simp [units, chains]
  homogeneous := by simp
  keepsAll := by simp
  seenReachable := by simp
  counted := by simp [units, chains]

section Chains

variable {u : JobsUniverse}

theorem mem_units {item : Addr} :
    item ∈ u.units ↔ ∃ entry ∈ u.items, item ∈ u.chain entry.2 := by
  simp [units, chains, List.mem_flatten]

theorem chain_sublist_units {entry : Uid × Addr} (member : entry ∈ u.items) :
    (u.chain entry.2).Sublist u.units := by
  have inChains : u.chain entry.2 ∈ u.chains :=
    List.mem_map_of_mem member
  exact List.sublist_flatten_of_mem inChains

/-- One chain of the table gets an item more. -/
theorem perm_flatten_append {entries : List (Uid × Addr)} {before after : Addr → List Addr}
    {uid : Uid} {head item : Addr} (keys : (entries.map Prod.fst).Nodup)
    (member : (uid, head) ∈ entries)
    (others : ∀ entry ∈ entries, entry.1 ≠ uid → after entry.2 = before entry.2)
    (here : after head = before head ++ [item]) :
    ((entries.map fun entry => after entry.2).flatten).Perm
      ((entries.map fun entry => before entry.2).flatten ++ [item]) := by
  induction entries with
  | nil => cases member
  | cons entry rest ih =>
      rw [List.map_cons, List.nodup_cons] at keys
      simp only [List.map_cons, List.flatten_cons, List.append_assoc]
      rcases List.mem_cons.mp member with same | inRest
      · subst same
        have restSame : rest.map (fun entry => after entry.2) =
            rest.map fun entry => before entry.2 :=
          List.map_congr_left fun other inRest => by
            refine others other (List.mem_cons_of_mem _ inRest) fun sameUid => keys.1 ?_
            have filed : other.1 ∈ rest.map Prod.fst := List.mem_map_of_mem inRest
            rwa [sameUid] at filed
        rw [restSame, here, List.append_assoc]
        exact List.Perm.append_left _ List.perm_append_comm
      · have filed : uid ∈ rest.map Prod.fst := List.mem_map_of_mem inRest
        have apart : entry.1 ≠ uid := fun sameUid => keys.1 (sameUid ▸ filed)
        rw [others entry (List.mem_cons_self ..) apart]
        exact List.Perm.append_left _ (ih keys.2 inRest fun other inOther =>
          others other (List.mem_cons_of_mem _ inOther))

theorem pkg_append_old {pkgs : List Pkg} {new : Pkg} {item : Addr} (old : item < pkgs.length) :
    (pkgs ++ [new]).getD item default = pkgs.getD item default := by
  simp [List.getD_eq_getElem?_getD, List.getElem?_append_left old]

theorem pkg_append_new {pkgs : List Pkg} {new : Pkg} :
    (pkgs ++ [new]).getD pkgs.length default = new := by
  simp [List.getD_eq_getElem?_getD]

/-- A list of distinct items is no longer than the number of items. -/
theorem length_le_of_nodup {chain : List Addr} {bound : Nat} (nodup : chain.Nodup)
    (below : ∀ item ∈ chain, item < bound) : chain.length ≤ bound := by
  have sub : chain ⊆ List.range bound := fun item member => List.mem_range.mpr (below item member)
  simpa using (nodup.subperm sub).length_le

/-- Links that spell a chain make `LL_FOREACH` visit it. -/
theorem chain_of_represents {chain : List Addr} {head : Addr}
    (chained : Links.Represents u.links chain) (isHead : chain.head? = some head)
    (enough : chain.length ≤ u.pkgs.length) : u.chain head = chain := by
  rw [JobsUniverse.chain, ← isHead]
  exact Links.walk_of_forward _ chained.forward enough

/-- Links that spell a chain are rewound, from any of its items, to the item from which
`LL_FOREACH` visits it. -/
theorem rewinds_of_represents {chain : List Addr} {item : Addr}
    (chained : Links.Represents u.links chain) (inChain : item ∈ chain)
    (enough : chain.length ≤ u.pkgs.length) :
    ∃ head, chain.head? = some head ∧ u.links.rewind (u.pkgs.length + 1) item = some head ∧
      u.chain head = chain := by
  obtain ⟨head, isHead, rewinds⟩ := Links.rewind_of_mem chained inChain enough
  exact ⟨head, isHead, rewinds, chain_of_represents chained isHead enough⟩

theorem head_mem {entry : Uid × Addr} (inv : u.Chained) (member : entry ∈ u.items) :
    entry.2 ∈ u.chain entry.2 :=
  List.mem_of_mem_head? (inv.headed entry member)

theorem chain_eq_cons {entry : Uid × Addr} (inv : u.Chained) (member : entry ∈ u.items) :
    u.chain entry.2 = entry.2 :: (u.chain entry.2).tail :=
  List.eq_cons_of_mem_head? (inv.headed entry member)

theorem head_notMem_tail {entry : Uid × Addr} (inv : u.Chained) (member : entry ∈ u.items) :
    entry.2 ∉ (u.chain entry.2).tail := by
  have nodup := (inv.linked entry member).nodup
  rw [chain_eq_cons inv member, List.nodup_cons] at nodup
  exact nodup.1

/-- The chain of an entry, and the entry, are determined by any of its items. -/
theorem entry_unique (inv : u.Chained) {entry other : Uid × Addr} {item : Addr}
    (member : entry ∈ u.items) (otherMember : other ∈ u.items)
    (inChain : item ∈ u.chain entry.2) (inOther : item ∈ u.chain other.2) : entry = other := by
  have sameUid : entry.1 = other.1 :=
    (inv.homogeneous entry member item inChain).symm.trans
      (inv.homogeneous other otherMember item inOther)
  have first := (HashTable.find_eq_some_iff inv.keysNodup).mpr member
  have second := (HashTable.find_eq_some_iff inv.keysNodup).mpr otherMember
  rw [sameUid, second] at first
  exact Prod.ext sameUid (Option.some.inj first).symm

/-- A list of reachable items without repetition fits into the walk. -/
theorem Threaded.chain_length_le (inv : u.Threaded) {entry : Uid × Addr}
    (member : entry ∈ u.items) : (u.chain entry.2).length ≤ u.pkgs.length :=
  length_le_of_nodup (inv.linked entry member).nodup fun item inChain =>
    inv.inBounds item (mem_units.mpr ⟨entry, member, inChain⟩)

theorem chain_length_le (inv : u.Chained) {entry : Uid × Addr} (member : entry ∈ u.items) :
    (u.chain entry.2).length ≤ u.pkgs.length := inv.threaded.chain_length_le member

/-- No two entries share an item. -/
theorem Threaded.apart (inv : u.Threaded) :
    u.items.Pairwise fun entry other => (u.chain entry.2).Disjoint (u.chain other.2) := by
  have flat := (List.nodup_flatten.mp inv.unitsNodup).2
  rwa [chains, List.pairwise_map] at flat

/-- A chain that an append elsewhere leaves alone. -/
theorem chain_append_other (inv : u.Chained) {v : JobsUniverse} {first : Option Addr}
    {item : Addr} (linksEq : v.links = u.links.append first item)
    (longer : u.pkgs.length ≤ v.pkgs.length) {entry : Uid × Addr} (member : entry ∈ u.items)
    (notIn : item ∉ u.chain entry.2)
    (apart : ∀ head, first = some head → ∃ uid, (uid, head) ∈ u.items ∧ uid ≠ entry.1) :
    Links.Represents v.links (u.chain entry.2) ∧ v.chain entry.2 = u.chain entry.2 := by
  have chained : Links.Represents v.links (u.chain entry.2) := by
    rw [linksEq]
    refine (inv.linked entry member).append_other notIn fun head isFirst => ?_
    obtain ⟨uid, headMember, otherUid⟩ := apart head isFirst
    have disjoint : ∀ other ∈ u.chain head, other ∉ u.chain entry.2 := by
      intro other inHead inChain
      have same := entry_unique inv member headMember inChain inHead
      exact otherUid (congrArg Prod.fst same).symm
    have headIn : head ∈ u.chain head := head_mem inv headMember
    have lastIn : u.links.prev head ∈ u.chain head :=
      List.mem_of_getLast? ((inv.linked _ headMember).tail head (inv.headed _ headMember))
    exact ⟨disjoint head headIn, disjoint _ lastIn⟩
  exact ⟨chained, chain_of_represents chained (inv.headed entry member)
    (Nat.le_trans (chain_length_le inv member) longer)⟩

/-- The chain that an append extends. -/
theorem chain_append_same (inv : u.Chained) {v : JobsUniverse} {uid : Uid} {head item : Addr}
    (linksEq : v.links = u.links.append (some head) item) (member : (uid, head) ∈ u.items)
    (room : (u.chain head).length < v.pkgs.length) (notIn : item ∉ u.chain head) :
    Links.Represents v.links (u.chain head ++ [item]) ∧
      v.chain head = u.chain head ++ [item] := by
  have chained : Links.Represents v.links (u.chain head ++ [item]) := by
    have old := inv.linked _ member
    have spelled := chain_eq_cons inv member
    rw [linksEq]
    dsimp only at old spelled
    rw [spelled] at old notIn ⊢
    exact Links.represents_append_some old notIn
  refine ⟨chained, chain_of_represents chained ?_ ?_⟩
  · rw [List.head?_append, inv.headed _ member]
    rfl
  · rw [List.length_append, List.length_singleton]
    exact room

theorem find_eq_some_iff (inv : u.Chained) {uid : Uid} {head : Addr} :
    u.find uid = some head ↔ (uid, head) ∈ u.items :=
  HashTable.find_eq_some_iff inv.keysNodup

/-- A uid has a chain exactly when some reachable item carries it. -/
theorem present_iff_find (inv : u.Chained) {uid : Uid} :
    u.Present uid ↔ ∃ head, u.find uid = some head := by
  constructor
  · rintro ⟨item, reachable, sameUid⟩
    obtain ⟨entry, member, inChain⟩ := mem_units.mp reachable
    have entryUid := inv.homogeneous entry member item inChain
    refine ⟨entry.2, (find_eq_some_iff inv).mpr ?_⟩
    rw [← sameUid, entryUid]
    exact member
  · rintro ⟨head, found⟩
    have member := (find_eq_some_iff inv).mp found
    have inChain := head_mem inv member
    exact ⟨head, mem_units.mpr ⟨_, member, inChain⟩, inv.homogeneous _ member head inChain⟩

theorem pkg_uid_of_find (inv : u.Chained) {uid : Uid} {head item : Addr}
    (found : u.find uid = some head) (inChain : item ∈ u.chain head) :
    (u.pkg item).uid = uid :=
  inv.homogeneous _ ((find_eq_some_iff inv).mp found) item inChain

end Chains

/-! ## Insertion keeps the invariant -/

section Insert

variable {u : JobsUniverse} (pkg : Pkg) (digest : Digest)

@[simp] theorem insert_pkgs :
    (u.insert pkg digest).pkgs = u.pkgs ++ [{ pkg with digest := some digest }] := rfl

@[simp] theorem insert_provides : (u.insert pkg digest).provides = u.provides := rfl

@[simp] theorem insert_nitems : (u.insert pkg digest).nitems = u.nitems + 1 := rfl

theorem insert_pkg_old {item : Addr} (old : item < u.pkgs.length) :
    (u.insert pkg digest).pkg item = u.pkg item := pkg_append_old old

theorem insert_pkg_new :
    (u.insert pkg digest).pkg u.pkgs.length = { pkg with digest := some digest } := pkg_append_new

/-- A fresh item is in no chain. -/
theorem fresh_notMem (inv : u.Chained) {entry : Uid × Addr} (member : entry ∈ u.items) :
    u.pkgs.length ∉ u.chain entry.2 := fun inChain =>
  Nat.lt_irrefl _ (inv.inBounds _ (mem_units.mpr ⟨entry, member, inChain⟩))

theorem insert_chain_other (inv : u.Chained) {entry : Uid × Addr} (member : entry ∈ u.items)
    (otherUid : entry.1 ≠ pkg.uid) :
    Links.Represents (u.insert pkg digest).links (u.chain entry.2) ∧
      (u.insert pkg digest).chain entry.2 = u.chain entry.2 :=
  chain_append_other inv rfl (by simp) member (fresh_notMem inv member) fun _ found =>
    ⟨pkg.uid, (find_eq_some_iff inv).mp found, otherUid.symm⟩

theorem insert_chain_same (inv : u.Chained) {head : Addr} (found : u.find pkg.uid = some head) :
    Links.Represents (u.insert pkg digest).links (u.chain head ++ [u.pkgs.length]) ∧
      (u.insert pkg digest).chain head = u.chain head ++ [u.pkgs.length] := by
  have member := (find_eq_some_iff inv).mp found
  have linksEq : (u.insert pkg digest).links = u.links.append (some head) u.pkgs.length := by
    simp [insert, found]
  refine chain_append_same inv linksEq member ?_ (fresh_notMem inv member)
  rw [insert_pkgs, List.length_append, List.length_singleton]
  exact Nat.lt_succ_of_le (chain_length_le inv member)

/-- A first item of its uid starts a chain of its own. -/
theorem insert_chain_fresh (absent : u.find pkg.uid = none) :
    Links.Represents (u.insert pkg digest).links [u.pkgs.length] ∧
      (u.insert pkg digest).chain u.pkgs.length = [u.pkgs.length] := by
  have linksEq : (u.insert pkg digest).links = u.links.append none u.pkgs.length := by
    simp [insert, absent]
  have chained : Links.Represents (u.insert pkg digest).links [u.pkgs.length] := by
    rw [linksEq]
    exact Links.represents_append_none _
  exact ⟨chained, chain_of_represents chained rfl (by simp)⟩

/-- The entries and chains after an insertion. -/
theorem insert_entry_cases (inv : u.Chained) {entry : Uid × Addr}
    (member : entry ∈ (u.insert pkg digest).items) :
    (entry ∈ u.items ∧ entry.1 ≠ pkg.uid ∧
      Links.Represents (u.insert pkg digest).links (u.chain entry.2) ∧
      (u.insert pkg digest).chain entry.2 = u.chain entry.2) ∨
    (entry ∈ u.items ∧ entry.1 = pkg.uid ∧ u.find pkg.uid = some entry.2 ∧
      Links.Represents (u.insert pkg digest).links (u.chain entry.2 ++ [u.pkgs.length]) ∧
      (u.insert pkg digest).chain entry.2 = u.chain entry.2 ++ [u.pkgs.length]) ∨
    (entry = (pkg.uid, u.pkgs.length) ∧ u.find pkg.uid = none ∧
      Links.Represents (u.insert pkg digest).links [u.pkgs.length] ∧
      (u.insert pkg digest).chain u.pkgs.length = [u.pkgs.length]) := by
  have split : entry ∈ u.items ∨
      (entry = (pkg.uid, u.pkgs.length) ∧ u.find pkg.uid = none) := by
    cases found : u.find pkg.uid with
    | some head => exact Or.inl (by simpa [insert, found] using member)
    | none =>
        have added : entry ∈ u.items ∨ entry = (pkg.uid, u.pkgs.length) := by
          simpa [insert, found, HashTable.mem_add] using member
        exact added.imp_right fun fresh => ⟨fresh, rfl⟩
  rcases split with old | ⟨fresh, absent⟩
  · by_cases sameUid : entry.1 = pkg.uid
    · have found : u.find pkg.uid = some entry.2 := by
        rw [find_eq_some_iff inv, ← sameUid]
        exact old
      exact Or.inr (Or.inl ⟨old, sameUid, found, insert_chain_same pkg digest inv found⟩)
    · exact Or.inl ⟨old, sameUid, insert_chain_other pkg digest inv old sameUid⟩
  · exact Or.inr (Or.inr ⟨fresh, absent, insert_chain_fresh pkg digest absent⟩)

/-- An insertion adds exactly the fresh item to the reachable ones. -/
theorem insert_units (inv : u.Chained) :
    ((u.insert pkg digest).units).Perm (u.units ++ [u.pkgs.length]) := by
  cases found : u.find pkg.uid with
  | none =>
      have others : ∀ entry ∈ u.items,
          (u.insert pkg digest).chain entry.2 = u.chain entry.2 := fun entry member => by
        refine (insert_chain_other pkg digest inv member fun same => ?_).2
        have filed := (find_eq_some_iff inv).mpr member
        rw [same, found] at filed
        cases filed
      have itemsEq : (u.insert pkg digest).items = u.items ++ [(pkg.uid, u.pkgs.length)] := by
        simp [insert, found, HashTable.add]
      rw [units, chains, itemsEq, List.map_append, List.map_congr_left others]
      simp [units, chains, (insert_chain_fresh pkg digest found).2]
  | some head =>
      have member := (find_eq_some_iff inv).mp found
      have itemsEq : (u.insert pkg digest).items = u.items := by simp [insert, found]
      rw [units, chains, itemsEq, units, chains]
      exact perm_flatten_append inv.keysNodup member
        (fun entry other apart => (insert_chain_other pkg digest inv other apart).2)
        (insert_chain_same pkg digest inv found).2

theorem mem_insert_units (inv : u.Chained) {item : Addr} :
    item ∈ (u.insert pkg digest).units ↔ item ∈ u.units ∨ item = u.pkgs.length := by
  rw [(insert_units pkg digest inv).mem_iff]
  simp

theorem chained_insert (inv : u.Chained) : (u.insert pkg digest).Chained where
  linked := by
    intro entry member
    rcases insert_entry_cases pkg digest inv member with
      ⟨_, _, chained, same⟩ | ⟨_, _, _, chained, same⟩ | ⟨rfl, _, chained, same⟩
    · rw [same]; exact chained
    · rw [same]; exact chained
    · rw [same]; exact chained
  headed := by
    intro entry member
    rcases insert_entry_cases pkg digest inv member with
      ⟨old, _, _, same⟩ | ⟨old, _, _, _, same⟩ | ⟨rfl, _, _, same⟩
    · rw [same]; exact inv.headed entry old
    · rw [same, List.head?_append, inv.headed entry old]; rfl
    · rw [same]; rfl
  keysNodup := by
    cases found : u.find pkg.uid with
    | none =>
        have added : ((HashTable.add pkg.uid u.pkgs.length u.items).map Prod.fst).Nodup :=
          HashTable.keys_nodup_add inv.keysNodup found
        simpa only [insert, found] using added
    | some head => simpa [insert, found] using inv.keysNodup
  unitsNodup := by
    rw [(insert_units pkg digest inv).nodup_iff, List.nodup_append]
    refine ⟨inv.unitsNodup, List.nodup_singleton _, ?_⟩
    intro item reachable other inSingleton
    have below := inv.inBounds item reachable
    rw [List.mem_singleton.mp inSingleton]
    exact Nat.ne_of_lt below
  inBounds := by
    intro item reachable
    rw [insert_pkgs, List.length_append, List.length_singleton]
    rcases (mem_insert_units pkg digest inv).mp reachable with old | rfl
    · exact Nat.lt_succ_of_lt (inv.inBounds item old)
    · exact Nat.lt_succ_self _
  homogeneous := by
    intro entry member item inChain
    have oldUid : entry ∈ u.items → item ∈ u.chain entry.2 →
        ((u.insert pkg digest).pkg item).uid = entry.1 := fun old inOld => by
      rw [insert_pkg_old pkg digest (inv.inBounds item (mem_units.mpr ⟨entry, old, inOld⟩))]
      exact inv.homogeneous entry old item inOld
    rcases insert_entry_cases pkg digest inv member with
      ⟨old, _, _, same⟩ | ⟨old, sameUid, _, _, same⟩ | ⟨rfl, _, _, same⟩
    · rw [same] at inChain
      exact oldUid old inChain
    · rw [same, List.mem_append, List.mem_singleton] at inChain
      rcases inChain with inOld | rfl
      · exact oldUid old inOld
      · rw [insert_pkg_new]; exact sameUid.symm
    · rw [same, List.mem_singleton] at inChain
      rw [inChain, insert_pkg_new]

theorem repInv_insert (inv : u.RepInv) : (u.insert pkg digest).RepInv where
  toChained := chained_insert pkg digest inv.toChained
  keepsAll := by
    intro item below
    rw [mem_insert_units pkg digest inv.toChained]
    rw [insert_pkgs, List.length_append, List.length_singleton] at below
    rcases Nat.lt_succ_iff_lt_or_eq.mp below with old | fresh
    · exact Or.inl (inv.keepsAll item old)
    · exact Or.inr fresh
  seenReachable := by
    intro entry member
    rw [mem_insert_units pkg digest inv.toChained]
    cases found : HashTable.find digest u.seen with
    | some un => exact Or.inl (inv.seenReachable entry (by simpa [insert, found] using member))
    | none =>
        have split : entry ∈ u.seen ∨ entry = (digest, u.pkgs.length) := by
          simpa [insert, found, HashTable.mem_add] using member
        rcases split with old | rfl
        · exact Or.inl (inv.seenReachable entry old)
        · exact Or.inr rfl
  counted := by
    rw [(insert_units pkg digest inv.toChained).length_eq, insert_nitems, inv.counted]
    simp

end Insert

theorem repInv_addPkg {u : JobsUniverse} (checksum : Pkg → Option Digest) (pkg : Pkg)
    (force : Bool) (inv : u.RepInv) : (pkgJobsUniverseAddPkg checksum u pkg force).2.2.RepInv := by
  rcases pkgJobsUniverseAddPkg_cases checksum u pkg force with
    ⟨_, result⟩ | ⟨_, _, _, _, _, result⟩ | ⟨digest, _, _, result⟩
  · rw [result]; exact inv
  · rw [result]; exact inv
  · rw [result]; exact repInv_insert pkg digest inv

/-- The universe of packages added one after the other. -/
def ofPackages (checksum : Pkg → Option Digest) (pkgs : List Pkg) : JobsUniverse :=
  pkgs.foldl (fun u pkg => (pkgJobsUniverseAddPkg checksum u pkg true).2.2) {}

theorem repInv_ofPackages (checksum : Pkg → Option Digest) (pkgs : List Pkg) :
    (ofPackages checksum pkgs).RepInv :=
  List.foldlRecOn pkgs _ repInv_empty fun _ inv pkg _ => repInv_addPkg checksum pkg true inv

end JobsUniverse

end Pkgng
