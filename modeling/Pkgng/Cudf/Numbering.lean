import Pkgng.Cudf.OutputSafety
import Pkgng.Cudf.WellFormed

/-!
# Version numbers of a CUDF document

The numbers that `pkg_jobs_cudf_emit_file` prints count the items of a sorted chain that
are not dropped.  The reader counts all items of the chain, and so do the conflicts lines;
a number that is read leads back to the item it was printed for as long as no item that is
dropped stands before one that is not.
-/

set_option autoImplicit false

namespace Pkgng

open Lib

/-! ## The universe after emission -/

/-- `DL_SORT` of the chain of a table entry: its items are linked anew, and the entry stays
at the item it was at. -/
def sortChain (s : JobsUniverse × Dropped) (entry : Uid × Addr) : JobsUniverse × Dropped :=
  let (chain, dropped) := listSortWith (pkgCudfVersionCmp s.1) s.2 (s.1.chain entry.2)
  ({ s.1 with links := s.1.links.relink chain }, dropped)

/-- No priority of a universe is `INT_MIN` before its chains are sorted. -/
def nothingDropped : Dropped := fun _ => false

/-- The universe that `pkg_jobs_cudf_emit_file` leaves behind. -/
def sortedUniverse (u : JobsUniverse) : JobsUniverse :=
  (u.items.foldl sortChain (u, nothingDropped)).1

/-- The item that `pkg_jobs_cudf_add_package` selects. -/
def JobsUniverse.selection (u : JobsUniverse) (uid version : List Char) : Option Addr := do
  let it ← u.find (String.ofList uid)
  let head ← u.links.rewind (u.pkgs.length + 1) it
  (CudfJobs.selectVersion (toCInt (strtoul version)) 1 (u.chain head)).2

/-- What is selected is what a job is made for. -/
theorem addPackage_selection {j : CudfJobs} {entry : CudfEntry} {uid version : List Char}
    {selected : Addr} (named : entry.uid = some uid) (versioned : entry.version = some version)
    (selects : j.univ.selection uid version = some selected) :
    ∃ chain n, j.addPackage entry = j.addSelected entry chain n selected := by
  simp only [JobsUniverse.selection, Option.bind_eq_bind, Option.bind_eq_some_iff] at selects
  obtain ⟨it, found, head, rewinds, chosen⟩ := selects
  refine ⟨j.univ.chain head,
    (CudfJobs.selectVersion (toCInt (strtoul version)) 1 (j.univ.chain head)).1, ?_⟩
  simp only [CudfJobs.addPackage, named, versioned, found, rewinds]
  rw [← Prod.eta (CudfJobs.selectVersion _ _ _), chosen]

/-! ## Which items are dropped -/

section Ignored

variable (u : JobsUniverse)

def SameVersion (a b : Addr) : Bool := pkgVersionCmp (u.pkg a).version (u.pkg b).version = 0

/-- A remote item is ignored if a later item of its chain has the same version, or if it is
the first of its version in the second block of a join whose first block has an installed
item of the version. -/
def Ignored (chain : List Addr) (item : Addr) : Prop :=
  (u.pkg item).type ≠ .installed ∧
    ((∃ later, [item, later].Sublist chain ∧ SameVersion u item later = true) ∨
      ∃ pair ∈ joins (chain.map fun x => [x]), pair.2.find? (SameVersion u item) = some item ∧
        ∃ local' ∈ pair.1, (u.pkg local').type = .installed ∧ SameVersion u item local' = true)

/-- The outcome of the comparison. -/
def notNewer (a b : Addr) : Bool := pkgVersionCmp (u.pkg a).version (u.pkg b).version ≤ 0

/-- The effect of the comparison. -/
def markIgnored (dropped : Dropped) (a b : Addr) : Dropped := (pkgCudfVersionCmp u dropped a b).2

variable {u}

theorem notNewer_trans (a b c : Addr) (first : notNewer u a b = true)
    (second : notNewer u b c = true) : notNewer u a c = true := by
  simp only [notNewer, decide_eq_true_eq] at *
  exact versionCmp_lawful.trans _ _ _ first second

theorem notNewer_total (a b : Addr) : notNewer u a b = true ∨ notNewer u b a = true := by
  simp only [notNewer, decide_eq_true_eq]
  rw [versionCmp_lawful.swap (u.pkg b).version]
  omega

theorem tied_notNewer : tied (notNewer u) = SameVersion u := by
  funext a b
  simp only [tied, notNewer, SameVersion]
  rw [versionCmp_lawful.swap (u.pkg b).version, Bool.eq_iff_iff]
  simp only [Bool.and_eq_true, decide_eq_true_eq]
  omega

theorem sameVersion_congr {a b : Addr} (same : SameVersion u a b = true) :
    SameVersion u a = SameVersion u b := by
  funext c
  simp only [SameVersion, decide_eq_true_eq] at same ⊢
  rw [versionCmp_lawful.congr _ _ _ same]

theorem sameVersion_symm {a b : Addr} (same : SameVersion u a b = true) :
    SameVersion u b a = true := by
  rw [← sameVersion_congr same]
  simp [SameVersion, versionCmp_lawful.self]

/-- One comparison drops the first item if it is remote, else the second. -/
theorem markIgnored_iff (dropped : Dropped) (a b item : Addr) :
    markIgnored u dropped a b item = true ↔ dropped item = true ∨ SameVersion u a b = true ∧
      ((u.pkg a).type ≠ .installed ∧ item = a ∨
        (u.pkg a).type = .installed ∧ (u.pkg b).type ≠ .installed ∧ item = b) := by
  simp only [markIgnored, pkgCudfVersionCmp, SameVersion, decide_eq_true_eq]
  by_cases same : pkgVersionCmp (u.pkg a).version (u.pkg b).version = 0
  · by_cases isLocal : (u.pkg a).type = .installed
    · by_cases both : (u.pkg b).type = .installed
      · simp [same, isLocal, both]
      · by_cases here : item = b <;> simp [same, isLocal, both, here, Function.update]
    · by_cases here : item = a <;> simp [same, isLocal, here, Function.update]
  · simp [same]

theorem foldl_markIgnored (pairs : List (Addr × Addr)) (dropped : Dropped) (item : Addr) :
    pairs.foldl (fun dropped pair => markIgnored u dropped pair.1 pair.2) dropped item = true ↔
      dropped item = true ∨ ∃ pair ∈ pairs, SameVersion u pair.1 pair.2 = true ∧
        ((u.pkg pair.1).type ≠ .installed ∧ item = pair.1 ∨
          (u.pkg pair.1).type = .installed ∧ (u.pkg pair.2).type ≠ .installed ∧
            item = pair.2) := by
  induction pairs generalizing dropped with
  | nil => simp
  | cons pair rest ih =>
      rw [List.foldl_cons, ih, markIgnored_iff, List.exists_mem_cons_iff, or_assoc]

/-- After the sort of a chain exactly the ignored ones of its items are dropped. -/
theorem ignored_iff (chain : List Addr) (item : Addr) :
    Ignored u chain item ↔ ∃ pair ∈ sortComparisons (notNewer u) (chain.map fun x => [x]),
      SameVersion u pair.1 pair.2 = true ∧
        ((u.pkg pair.1).type ≠ .installed ∧ item = pair.1 ∨
          (u.pkg pair.1).type = .installed ∧ (u.pkg pair.2).type ≠ .installed ∧
            item = pair.2) := by
  have compared := mem_sortComparisons_iff notNewer_trans (@notNewer_total u) chain
  simp only [tied_notNewer] at compared
  constructor
  · rintro ⟨remote, ⟨later, before, same⟩ | ⟨pair, joined, first, other, inFirst, isLocal, same⟩⟩
    · have brought : chain.Pairwise fun a b =>
          ∃ pair ∈ joins (chain.map fun x => [x]), a ∈ pair.1 ∧ b ∈ pair.2 :=
        pairwise_of_joins fun pair joined a aIn b bIn => ⟨pair, joined, aIn, bIn⟩
      obtain ⟨pair, joined, itemIn, laterIn⟩ :=
        List.pairwise_iff_forall_sublist.mp brought before
      obtain ⟨b, found⟩ : ∃ b, pair.2.find? (SameVersion u item) = some b :=
        Option.isSome_iff_exists.mp (List.find?_isSome.mpr ⟨later, laterIn, same⟩)
      obtain ⟨member, same⟩ := (compared item b).mpr ⟨pair, joined, itemIn, found⟩
      exact ⟨_, member, same, Or.inl ⟨remote, rfl⟩⟩
    · rw [sameVersion_congr same] at first
      obtain ⟨member, same⟩ := (compared other item).mpr ⟨pair, joined, inFirst, first⟩
      exact ⟨_, member, same, Or.inr ⟨isLocal, remote, rfl⟩⟩
  · rintro ⟨⟨a, b⟩, member, same, which⟩
    obtain ⟨pair, joined, aIn, found⟩ := (compared a b).mp ⟨member, same⟩
    rcases which with ⟨remote, rfl⟩ | ⟨isLocal, remote, rfl⟩
    · refine ⟨remote, Or.inl ⟨b, ?_, same⟩⟩
      have apart := sublist_of_mem_joins joined
      rw [flatten_singles] at apart
      have bIn := List.mem_of_find?_eq_some found
      exact ((List.singleton_sublist.mpr aIn).append (List.singleton_sublist.mpr bIn)).trans apart
    · refine ⟨remote, Or.inr ⟨pair, joined, ?_, a, aIn, isLocal, sameVersion_symm same⟩⟩
      rwa [← sameVersion_congr same]

theorem listSortWith_cudf (dropped : Dropped) (chain : List Addr) :
    listSortWith (pkgCudfVersionCmp u) dropped chain =
      (listSort (notNewer u) chain, (sortComparisons (notNewer u) (chain.map fun x => [x])).foldl
        (fun dropped pair => markIgnored u dropped pair.1 pair.2) dropped) :=
  listSortWith_eq (notNewer u) (markIgnored u) dropped chain

theorem listSortWith_dropped (dropped : Dropped) (chain : List Addr) (item : Addr) :
    (listSortWith (pkgCudfVersionCmp u) dropped chain).2 item = true ↔
      dropped item = true ∨ Ignored u chain item := by
  rw [listSortWith_cudf, ignored_iff]
  exact foldl_markIgnored _ dropped item

end Ignored

/-! ## The sorted chains -/

section Sorted

variable {u : JobsUniverse}

theorem Ignored.mem {chain : List Addr} {item : Addr} (ignored : Ignored u chain item) :
    item ∈ chain := by
  obtain ⟨_, ⟨later, before, _⟩ | ⟨pair, joined, found, _⟩⟩ := ignored
  · exact before.subset (List.mem_cons_self ..)
  · have inBlocks := (sublist_of_mem_joins joined).subset
      (List.mem_append_right _ (List.mem_of_find?_eq_some found))
    rwa [flatten_singles] at inBlocks

/-- A chain as emission sees it: in order, with the ignored items dropped. -/
structure SortedAs (u : JobsUniverse) (chain : List Addr) (sorted : List Addr × Dropped) :
    Prop where
  order : sorted.1 = listSort (notNewer u) chain
  dropped : ∀ item ∈ chain, sorted.2 item = true ↔ Ignored u chain item

theorem sortChains_sorted (u : JobsUniverse) : ∀ (entries : List (Uid × Addr)) (dropped : Dropped),
    (∀ entry ∈ entries, ∀ item ∈ u.chain entry.2, dropped item = false) →
      (entries.Pairwise fun entry other => (u.chain entry.2).Disjoint (u.chain other.2)) →
        List.Forall₂ (fun entry sorted => SortedAs u (u.chain entry.2) sorted) entries
          (sortChains u dropped entries) := by
  intro entries
  induction entries with
  | nil => intro dropped _ _; exact .nil
  | cons entry rest ih =>
      intro dropped fresh apart
      obtain ⟨apartHere, apartLater⟩ := List.pairwise_cons.mp apart
      have marks := @listSortWith_dropped u dropped (u.chain entry.2)
      refine .cons ⟨?_, ?_⟩ (ih _ ?_ apartLater)
      · exact congrArg Prod.fst (listSortWith_cudf dropped (u.chain entry.2))
      · intro item member
        have here := marks item
        rw [fresh entry (List.mem_cons_self ..) item member] at here
        exact here.trans (or_iff_right Bool.false_ne_true)
      · intro other inRest item member
        rw [Bool.eq_false_iff]
        intro isDropped
        rcases (marks item).mp isDropped with before | ignored
        · rw [fresh other (List.mem_cons_of_mem _ inRest) item member] at before
          cases before
        · exact apartHere other inRest ignored.mem member

theorem sortChain_eq (s : JobsUniverse × Dropped) (entry : Uid × Addr) :
    (sortChain s entry).1 = { s.1 with
      links := s.1.links.relink (listSort (notNewer s.1) (s.1.chain entry.2)) } := by
  simp only [sortChain, listSortWith_cudf]

/-- Sorting chains that have no item in common links each of them in order and leaves every
other chain alone. -/
theorem sortChain_foldl (inv : u.Threaded) (entries : List (Uid × Addr))
    (s : JobsUniverse × Dropped) (filed : ∀ entry ∈ entries, entry ∈ u.items)
    (apart : entries.Pairwise fun entry other => (u.chain entry.2).Disjoint (u.chain other.2))
    (pkgs : s.1.pkgs = u.pkgs)
    (chained : ∀ entry ∈ entries, Links.Represents s.1.links (u.chain entry.2)) :
    (entries.foldl sortChain s).1.pkgs = u.pkgs ∧
      (entries.foldl sortChain s).1.items = s.1.items ∧
      (∀ chain, Links.Represents s.1.links chain →
        (∀ entry ∈ entries, chain.Disjoint (u.chain entry.2)) →
          Links.Represents (entries.foldl sortChain s).1.links chain) ∧
      ∀ entry ∈ entries, Links.Represents (entries.foldl sortChain s).1.links
        (listSort (notNewer u) (u.chain entry.2)) := by
  induction entries generalizing s with
  | nil => exact ⟨pkgs, rfl, fun _ represented _ => represented, by simp⟩
  | cons entry rest ih =>
      obtain ⟨apartHere, apartLater⟩ := List.pairwise_cons.mp apart
      have isFiled := filed entry (List.mem_cons_self ..)
      have represented := chained entry (List.mem_cons_self ..)
      have walked : s.1.chain entry.2 = u.chain entry.2 :=
        JobsUniverse.chain_of_represents represented (inv.headed entry isFiled)
          (by rw [pkgs]; exact inv.chain_length_le isFiled)
      have order : notNewer s.1 = notNewer u := by
        unfold notNewer JobsUniverse.pkg
        rw [pkgs]
      have perm := listSort_perm (notNewer u) (u.chain entry.2)
      -- What the first sort does to the links.
      have stepped := sortChain_eq s entry
      rw [walked, order] at stepped
      have others : ∀ chain, Links.Represents s.1.links chain →
          chain.Disjoint (u.chain entry.2) →
            Links.Represents (sortChain s entry).1.links chain := by
        intro chain isChain disjoint
        rw [stepped]
        exact isChain.relink_other fun cell inChain inSorted =>
          disjoint inChain (perm.mem_iff.mp inSorted)
      have here : Links.Represents (sortChain s entry).1.links
          (listSort (notNewer u) (u.chain entry.2)) := by
        rw [stepped]
        exact Links.represents_relink (perm.nodup_iff.mpr represented.nodup)
      obtain ⟨laterPkgs, laterItems, laterOthers, laterHere⟩ := ih (sortChain s entry)
        (fun other inRest => filed other (List.mem_cons_of_mem _ inRest)) apartLater
        (by rw [stepped]; exact pkgs)
        fun other inRest => others _ (chained other (List.mem_cons_of_mem _ inRest))
          (apartHere other inRest).symm
      refine ⟨laterPkgs, ?_, ?_, ?_⟩
      · rw [List.foldl_cons, laterItems, stepped]
      · intro chain isChain disjoint
        exact laterOthers chain (others chain isChain (disjoint entry (List.mem_cons_self ..)))
          fun other inRest => disjoint other (List.mem_cons_of_mem _ inRest)
      · intro other member
        rcases List.mem_cons.mp member with rfl | inRest
        · refine laterOthers _ here fun later inRest => ?_
          exact fun cell inSorted => @apartHere later inRest cell (perm.mem_iff.mp inSorted)
        · exact laterHere other inRest

/-- In the universe that emission leaves, every chain is linked in order. -/
theorem sortedUniverse_spec (inv : u.Threaded) :
    (sortedUniverse u).pkgs = u.pkgs ∧ (sortedUniverse u).items = u.items ∧
      ∀ entry ∈ u.items, Links.Represents (sortedUniverse u).links
        (listSort (notNewer u) (u.chain entry.2)) := by
  obtain ⟨pkgs, items, _, sorted⟩ := sortChain_foldl inv u.items (u, nothingDropped)
    (fun _ member => member) inv.apart rfl inv.linked
  exact ⟨pkgs, items, sorted⟩

theorem sortedUniverse_linked (inv : u.Chained) : (sortedUniverse u).Linked := by
  intro entry member
  obtain ⟨pkgs, items, sorted⟩ := sortedUniverse_spec inv.threaded
  rw [items] at member
  have perm := listSort_perm (notNewer u) (u.chain entry.2)
  refine ⟨_, sorted entry member, perm.mem_iff.mpr (JobsUniverse.head_mem inv member), ?_⟩
  rw [perm.length_eq, pkgs]
  exact JobsUniverse.chain_length_le inv member

theorem selectVersion_eq_some_iff (ver : Int) (chain : List Addr) (selected : Addr) :
    (CudfJobs.selectVersion ver 1 chain).2 = some selected ↔
      ∃ k, chain[k]? = some selected ∧ ver = ((k + 1 : Nat) : Int) := by
  rcases CudfJobs.selectVersion_cases ver chain 1 with
    ⟨k, item, at_k, place, run⟩ | ⟨outside, last, run⟩
  · rw [run]
    constructor
    · intro same
      cases same
      exact ⟨k, at_k, by omega⟩
    · rintro ⟨other, at_other, place'⟩
      obtain rfl : other = k := by omega
      exact at_k.symm.trans at_other
  · rw [run]
    refine ⟨by simp, ?_⟩
    rintro ⟨k, at_k, place⟩
    have inside := (List.getElem?_eq_some_iff.mp at_k).1
    omega

/-- Rewinding leads from a table entry to the new head of its chain. -/
theorem sorted_rewinds (inv : u.Chained) {entry : Uid × Addr} (member : entry ∈ u.items) :
    ∃ head, (sortedUniverse u).links.rewind ((sortedUniverse u).pkgs.length + 1) entry.2 =
        some head ∧
      (sortedUniverse u).chain head = listSort (notNewer u) (u.chain entry.2) := by
  obtain ⟨pkgs, _, sorted⟩ := sortedUniverse_spec inv.threaded
  have perm := listSort_perm (notNewer u) (u.chain entry.2)
  have bounded : (listSort (notNewer u) (u.chain entry.2)).length ≤
      (sortedUniverse u).pkgs.length := by
    rw [perm.length_eq, pkgs]
    exact JobsUniverse.chain_length_le inv member
  obtain ⟨head, _, rewinds, walked⟩ := JobsUniverse.rewinds_of_represents (sorted entry member)
    (perm.mem_iff.mpr (JobsUniverse.head_mem inv member)) bounded
  exact ⟨head, rewinds, walked⟩

theorem sorted_find (inv : u.Chained) {entry : Uid × Addr} (member : entry ∈ u.items) :
    (sortedUniverse u).find entry.1 = some entry.2 := by
  obtain ⟨_, items, _⟩ := sortedUniverse_spec inv.threaded
  rw [JobsUniverse.find, items]
  exact (HashTable.find_eq_some_iff inv.keysNodup).mpr member

/-- The reader rewinds to the new head and counts from there. -/
theorem selection_sorted (inv : u.Chained) {entry : Uid × Addr} (member : entry ∈ u.items)
    (version : List Char) (selected : Addr) :
    (sortedUniverse u).selection entry.1.toList version = some selected ↔
      ∃ k, (listSort (notNewer u) (u.chain entry.2))[k]? = some selected ∧
        toCInt (strtoul version) = ((k + 1 : Nat) : Int) := by
  obtain ⟨head, rewinds, walked⟩ := sorted_rewinds inv member
  simp only [JobsUniverse.selection, String.ofList_toList, sorted_find inv member,
    Option.bind_eq_bind, Option.bind_some, rewinds, walked]
  exact selectVersion_eq_some_iff _ _ _

end Sorted

/-! ## What is printed -/

/-- The version line of a stanza. -/
def EmittedStanza.PrintsVersion (stanza : EmittedStanza) (version : List Char) : Prop :=
  ⟨"version", [.entry version, .newline]⟩ ∈ stanza.properties

/-- The calls of `cudf_print_conflict` for the chain of `self`: the item of each, and the
number it is printed with. -/
def chainReferences (dropped : Dropped) (self : Addr) : Nat → List Addr → List (Addr × Nat)
  | _, [] => []
  | ver, item :: rest =>
      if item ≠ self ∧ dropped item = false then
        (item, ver) :: chainReferences dropped self (ver + 1) rest
      else chainReferences dropped self (ver + 1) rest

section Printed

variable {u : JobsUniverse} {dropped : Dropped} {self : Addr}

theorem chainElements_references (ver : Nat) (chain : List Addr) :
    (chainElements u dropped self ver chain).map Prod.fst =
      (chainReferences dropped self ver chain).map fun ref =>
        cudfPackageName (u.pkg self).uid ++ '=' :: (toString ref.2).toList := by
  induction chain generalizing ver with
  | nil => rfl
  | cons item rest ih =>
      rw [chainElements, chainReferences]
      split
      · rw [List.map_cons, List.map_cons, ih]
      · exact ih (ver + 1)

theorem mem_chainReferences {item : Addr} {number : Nat} {ver : Nat} {chain : List Addr}
    (member : (item, number) ∈ chainReferences dropped self ver chain) :
    dropped item = false ∧ ∃ k, chain[k]? = some item ∧ number = ver + k := by
  induction chain generalizing ver with
  | nil => cases member
  | cons first rest ih =>
      have later : (item, number) ∈ chainReferences dropped self (ver + 1) rest →
          dropped item = false ∧ ∃ k, (first :: rest)[k]? = some item ∧ number = ver + k := by
        intro inRest
        obtain ⟨kept, k, at_k, place⟩ := ih inRest
        exact ⟨kept, k + 1, at_k, by omega⟩
      rw [chainReferences] at member
      split at member
      · next printed =>
          rcases List.mem_cons.mp member with here | inRest
          · cases here
            exact ⟨printed.2, 0, rfl, rfl⟩
          · exact later inRest
      · exact later member

theorem printsVersion_iff (item : Addr) (version : Nat) (chain : List Addr) (text : List Char) :
    EmittedStanza.PrintsVersion ⟨item, cudfEmitPkg u dropped item version chain⟩ text ↔
      text = (toString version).toList := by
  simp only [EmittedStanza.PrintsVersion, cudfEmitPkg]
  constructor
  · intro member
    simp only [List.mem_append] at member
    split_ifs at member <;> simpa using member
  · rintro rfl
    simp

/-- The stanzas of a chain number the items that are not dropped. -/
theorem mem_emitChain_iff {stanza : EmittedStanza} {chain : List Addr} {version : Nat}
    {items : List Addr} : stanza ∈ emitChain u dropped chain version items ↔
      ∃ k item, (items.filter fun item => !dropped item)[k]? = some item ∧
        stanza = ⟨item, cudfEmitPkg u dropped item (version + k) chain⟩ := by
  induction items generalizing version with
  | nil => simp [emitChain]
  | cons first rest ih =>
      rw [emitChain]
      cases isDropped : dropped first with
      | true =>
          rw [List.filter_cons_of_neg (by simp [isDropped])]
          exact ih
      | false =>
          rw [List.filter_cons_of_pos (by simp [isDropped])]
          simp only [Bool.false_eq_true, if_false, List.mem_cons, ih]
          constructor
          · rintro (rfl | ⟨k, item, at_k, rfl⟩)
            · exact ⟨0, first, rfl, rfl⟩
            · exact ⟨k + 1, item, at_k, by rw [Nat.add_right_comm, Nat.add_assoc]⟩
          · rintro ⟨k, item, at_k, rfl⟩
            cases k with
            | zero =>
                cases at_k
                exact Or.inl rfl
            | succ k =>
                exact Or.inr ⟨k, item, at_k, by rw [Nat.add_right_comm, Nat.add_assoc]⟩

end Printed

/-! ## Agreement -/

/-- The item of a stanza is selected by its uid and version, and the number that is printed
for a conflicting version is the one of its stanza. -/
structure NumbersAgree (u : JobsUniverse) (type : JobsType) (add delete : CudfRequests) :
    Prop where
  selects : ∀ stanza ∈ (pkgJobsCudfEmitFile u nothingDropped type add delete).stanzas,
    ∀ version, stanza.PrintsVersion version →
      (sortedUniverse u).selection (u.pkg stanza.item).uid.toList version = some stanza.item
  refers : ∀ sorted ∈ sortChains u nothingDropped u.items, ∀ self ∈ sorted.1,
    sorted.2 self = false → hasConflicts u sorted.2 self sorted.1 = true →
      ∀ ref ∈ chainReferences sorted.2 self 1 sorted.1,
        ∃ stanza ∈ (pkgJobsCudfEmitFile u nothingDropped type add delete).stanzas,
          stanza.item = ref.1 ∧ stanza.PrintsVersion (toString ref.2).toList

/-- No ignored item comes before another one: it is newer, or of the same version and later
in the chain.  And the numbers fit into an `int`. -/
structure ChainNumbers (u : JobsUniverse) (chain : List Addr) : Prop where
  keptFirst : ∀ item ∈ chain, ∀ kept ∈ chain, Ignored u chain item → ¬Ignored u chain kept →
    notNewer u kept item = true ∧
      (SameVersion u kept item = true → [kept, item].Sublist chain)
  fits : ∀ kept : List Addr, kept.Sublist chain → (∀ item ∈ kept, ¬Ignored u chain item) →
    kept.length < 2147483648

section Agreement

/-- The elements that pass a test come first if they are what a list starts with. -/
theorem filter_prefix_iff {α : Type} (q : α → Bool) (list : List α) :
    list.filter q <+: list ↔ list.Pairwise fun a b => q b = true → q a = true := by
  induction list with
  | nil => simp
  | cons a rest ih =>
      rw [List.pairwise_cons]
      by_cases here : q a = true
      · rw [List.filter_cons_of_pos here, List.prefix_cons_inj, ih]
        exact (and_iff_right fun b _ _ => here).symm
      · rw [List.filter_cons_of_neg here]
        constructor
        · intro isPrefix
          have none : rest.filter q = [] := by
            cases found : rest.filter q with
            | nil => rfl
            | cons b later =>
                rw [found] at isPrefix
                obtain rfl := (List.cons_prefix_cons.mp isPrefix).1
                have passes := (List.mem_filter.mp (found ▸ List.mem_cons_self ..)).2
                exact absurd passes here
          rw [List.filter_eq_nil_iff] at none
          refine ⟨fun b inRest passes => absurd passes (none b inRest), ?_⟩
          exact List.Pairwise.imp_of_mem
            (fun _ inRest _ passes => absurd passes (none _ inRest))
            (List.pairwise_of_forall (R := fun _ _ => True) fun _ _ => trivial)
        · rintro ⟨first, _⟩
          have none : rest.filter q = [] :=
            List.filter_eq_nil_iff.mpr fun b inRest passes => here (first b inRest passes)
          rw [none]
          exact List.nil_prefix

/-- The place of an element among the kept ones is not behind its place in the list. -/
theorem place_le_of_sublist {α : Type} {kept list : List α} (sub : kept.Sublist list)
    (nodup : list.Nodup) {x : α} {k p : Nat} (at_k : kept[k]? = some x)
    (at_p : list[p]? = some x) : k ≤ p := by
  obtain ⟨f, places⟩ := List.sublist_iff_exists_orderEmbedding_getElem?_eq.mp sub
  have moved : list[f k]? = some x := by rw [← places k, at_k]
  have same : f k = p := by
    have inside := (List.getElem?_eq_some_iff.mp moved).1
    exact (List.getElem?_inj inside nodup).mp (moved.trans at_p.symm)
  rw [← same]
  exact f.strictMono.le_apply

variable {u : JobsUniverse}

/-- Reading the numbers of the kept items back leads to the items, exactly if they come
first and their number fits. -/
theorem numbers_readBack_iff {kept list : List Addr} (sub : kept.Sublist list)
    (nodup : list.Nodup) :
    (∀ k item, kept[k]? = some item → ∃ p, list[p]? = some item ∧
      toCInt (strtoul (toString (1 + k)).toList) = ((p + 1 : Nat) : Int)) ↔
      kept <+: list ∧ kept.length < 2147483648 := by
  constructor
  · intro readBack
    have exactly : ∀ k item, kept[k]? = some item → list[k]? = some item ∧ 1 + k < 2147483648 := by
      intro k item at_k
      obtain ⟨p, at_p, number⟩ := readBack k item at_k
      have notBehind := place_le_of_sublist sub nodup at_k at_p
      by_cases small : 1 + k < 2147483648
      · rw [toCInt_strtoul_toString small] at number
        obtain rfl : k = p := by omega
        exact ⟨at_p, small⟩
      · have bounded := toCInt_lt (strtoul (toString (1 + k)).toList)
        omega
    constructor
    · rw [List.prefix_iff_getElem?]
      intro k inside
      exact (exactly k _ (List.getElem?_eq_getElem inside)).1
    · by_contra large
      have inside : 2147483647 < kept.length := by omega
      have small := (exactly _ _ (List.getElem?_eq_getElem inside)).2
      omega
  · rintro ⟨isPrefix, small⟩ k item at_k
    have inside := (List.getElem?_eq_some_iff.mp at_k).1
    refine ⟨k, ?_, ?_⟩
    · rw [← at_k, List.prefix_iff_getElem?.mp isPrefix k inside, List.getElem?_eq_getElem inside]
    · rw [toCInt_strtoul_toString (by omega)]
      omega

section Chain

variable {chain : List Addr} {sorted : List Addr × Dropped} {type : JobsType}
  {add delete : CudfRequests}

/-- Who stands before whom in the order of versions. -/
theorem sublist_sorted_iff (nodup : chain.Nodup) {item other : Addr} (inChain : item ∈ chain)
    (otherInChain : other ∈ chain) (apart : other ≠ item) :
    [other, item].Sublist (listSort (notNewer u) chain) ↔ notNewer u other item = true ∧
      (SameVersion u other item = true → [other, item].Sublist chain) := by
  rw [sublist_listSort_iff notNewer_trans (@notNewer_total u) nodup otherInChain inChain apart]
  refine and_congr_right fun upward => ?_
  rw [← tied_notNewer, tied, upward, Bool.true_and]

/-- In a sorted chain the kept items come first, and can be counted, exactly if the numbers
of the chain agree. -/
theorem chainNumbers_iff (nodup : chain.Nodup) (isSorted : SortedAs u chain sorted) :
    (sorted.1.filter fun item => !sorted.2 item) <+: sorted.1 ∧
        (sorted.1.filter fun item => !sorted.2 item).length < 2147483648 ↔
      ChainNumbers u chain := by
  have perm : sorted.1.Perm chain := isSorted.order ▸ listSort_perm (notNewer u) chain
  have sortedNodup : sorted.1.Nodup := perm.nodup_iff.mpr nodup
  have kept_iff : ∀ item ∈ chain, sorted.2 item = false ↔ ¬Ignored u chain item := by
    intro item member
    rw [← isSorted.dropped item member, Bool.not_eq_true]
  have order : ∀ item ∈ chain, ∀ kept ∈ chain, kept ≠ item →
      ([kept, item].Sublist sorted.1 ↔ notNewer u kept item = true ∧
        (SameVersion u kept item = true → [kept, item].Sublist chain)) := by
    intro item member kept keptMember apart
    rw [isSorted.order]
    exact sublist_sorted_iff nodup member keptMember apart
  rw [filter_prefix_iff]
  constructor
  · rintro ⟨keptFirst, small⟩
    refine ⟨?_, ?_⟩
    · intro item member kept keptMember ignored notIgnored
      have apart : kept ≠ item := fun same => notIgnored (same ▸ ignored)
      have placed : sorted.1.Pairwise fun a b =>
          [a, b].Sublist sorted.1 ∨ [b, a].Sublist sorted.1 :=
        List.pairwise_iff_forall_sublist.mpr Or.inl
      have symm : Std.Symm fun a b => [a, b].Sublist sorted.1 ∨ [b, a].Sublist sorted.1 :=
        ⟨fun _ _ => Or.symm⟩
      rcases placed.forall (perm.mem_iff.mpr keptMember) (perm.mem_iff.mpr member) apart
        with before | behind
      · exact (order item member kept keptMember apart).mp before
      · have first := List.pairwise_iff_forall_sublist.mp keptFirst behind
        have isKept := (kept_iff kept keptMember).mpr notIgnored
        have isDropped := (isSorted.dropped item member).mpr ignored
        simp [isKept, isDropped] at first
    · intro kept sub notIgnored
      refine lt_of_le_of_lt ?_ small
      refine ((sub.nodup nodup).subperm fun item member => ?_).length_le
      have inChain := sub.subset member
      rw [List.mem_filter, perm.mem_iff, (kept_iff item inChain).mpr (notIgnored item member)]
      exact ⟨inChain, rfl⟩
  · rintro ⟨keptFirst, fits⟩
    constructor
    · refine List.pairwise_iff_forall_sublist.mpr ?_
      intro item kept behind passes
      have member := perm.mem_iff.mp (behind.subset (List.mem_cons_self ..))
      have keptMember := perm.mem_iff.mp
        (behind.subset (List.mem_cons_of_mem _ (List.mem_singleton_self kept)))
      have notIgnored := (kept_iff kept keptMember).mp (by simpa using passes)
      by_contra dropped
      have ignored := (isSorted.dropped item member).mp (by simpa using dropped)
      have apart : kept ≠ item := fun same => notIgnored (same ▸ ignored)
      exact not_sublist_swap sortedNodup behind
        ((order item member kept keptMember apart).mpr
          (keptFirst item member kept keptMember ignored notIgnored))
    · rw [(perm.filter _).length_eq]
      refine fits _ List.filter_sublist fun item member => ?_
      obtain ⟨inChain, passes⟩ := List.mem_filter.mp member
      exact (kept_iff item inChain).mp (by simpa using passes)

end Chain

/-- The stanzas of a chain lead the reader back to their items exactly if their numbers are
the places in the sorted chain. -/
theorem emitChain_selects_iff (inv : u.Chained) {entry : Uid × Addr} (member : entry ∈ u.items)
    {sorted : List Addr × Dropped} (isSorted : SortedAs u (u.chain entry.2) sorted) :
    (∀ stanza ∈ emitChain u sorted.2 sorted.1 1 sorted.1, ∀ version,
      stanza.PrintsVersion version → (sortedUniverse u).selection
        (u.pkg stanza.item).uid.toList version = some stanza.item) ↔
      ∀ k item, (sorted.1.filter fun item => !sorted.2 item)[k]? = some item →
        ∃ p, sorted.1[p]? = some item ∧
          toCInt (strtoul (toString (1 + k)).toList) = ((p + 1 : Nat) : Int) := by
  have perm : sorted.1.Perm (u.chain entry.2) :=
    isSorted.order ▸ listSort_perm (notNewer u) (u.chain entry.2)
  have selects_iff : ∀ k item, (sorted.1.filter fun item => !sorted.2 item)[k]? = some item →
      ((sortedUniverse u).selection (u.pkg item).uid.toList (toString (1 + k)).toList =
        some item ↔ ∃ p, sorted.1[p]? = some item ∧
          toCInt (strtoul (toString (1 + k)).toList) = ((p + 1 : Nat) : Int)) := by
    intro k item at_k
    have inSorted := (List.mem_filter.mp (List.mem_of_getElem? at_k)).1
    rw [inv.homogeneous entry member item (perm.mem_iff.mp inSorted), isSorted.order]
    exact selection_sorted inv member _ item
  constructor
  · intro selects k item at_k
    refine (selects_iff k item at_k).mp ?_
    exact selects ⟨item, cudfEmitPkg u sorted.2 item (1 + k) sorted.1⟩
      (mem_emitChain_iff.mpr ⟨k, item, at_k, rfl⟩) _ ((printsVersion_iff _ _ _ _).mpr rfl)
  · intro places stanza isStanza version prints
    obtain ⟨k, item, at_k, rfl⟩ := mem_emitChain_iff.mp isStanza
    rw [(printsVersion_iff _ _ _ _).mp prints]
    exact (selects_iff k item at_k).mpr (places k item at_k)

/-- Where the kept items come first, a conflict is printed with the number of its stanza. -/
theorem chainReferences_printed {chain : List Addr} {dropped : Dropped} (nodup : chain.Nodup)
    (keptFirst : (chain.filter fun item => !dropped item) <+: chain) {self : Addr}
    {ref : Addr × Nat} (refers : ref ∈ chainReferences dropped self 1 chain) :
    ∃ stanza ∈ emitChain u dropped chain 1 chain,
      stanza.item = ref.1 ∧ stanza.PrintsVersion (toString ref.2).toList := by
  obtain ⟨item, number⟩ := ref
  obtain ⟨isKept, k, at_k, rfl⟩ := mem_chainReferences refers
  have member : item ∈ chain.filter fun item => !dropped item :=
    List.mem_filter.mpr ⟨List.mem_of_getElem? at_k, by rw [isKept]; rfl⟩
  obtain ⟨place, inside, isItem⟩ := List.getElem_of_mem member
  have at_place : chain[place]? = some item := by
    rw [List.prefix_iff_getElem?.mp keptFirst place inside, isItem]
  have within := (List.getElem?_eq_some_iff.mp at_place).1
  obtain rfl : place = k := (List.getElem?_inj within nodup).mp (at_place.trans at_k.symm)
  refine ⟨⟨item, cudfEmitPkg u dropped item (1 + place) chain⟩, ?_, rfl, ?_⟩
  · exact mem_emitChain_iff.mpr
      ⟨place, item, by rw [List.getElem?_eq_getElem inside, isItem], rfl⟩
  · exact (printsVersion_iff _ _ _ _).mpr rfl

theorem forall₂_mem {α β : Type} {R : α → β → Prop} {as : List α} {bs : List β}
    (related : List.Forall₂ R as bs) :
    (∀ a ∈ as, ∃ b ∈ bs, R a b) ∧ ∀ b ∈ bs, ∃ a ∈ as, R a b := by
  induction related with
  | nil => simp
  | cons here _ ih =>
      obtain ⟨left, right⟩ := ih
      constructor
      · intro a member
        rcases List.mem_cons.mp member with rfl | inRest
        · exact ⟨_, List.mem_cons_self .., here⟩
        · obtain ⟨b, inBs, isRelated⟩ := left a inRest
          exact ⟨b, List.mem_cons_of_mem _ inBs, isRelated⟩
      · intro b member
        rcases List.mem_cons.mp member with rfl | inRest
        · exact ⟨_, List.mem_cons_self .., here⟩
        · obtain ⟨a, inAs, isRelated⟩ := right b inRest
          exact ⟨a, List.mem_cons_of_mem _ inAs, isRelated⟩

end Agreement

/-- Emission, the reader and the conflicts lines number the items alike exactly if in each
chain no ignored item comes before another one in the order of versions. -/
theorem numbersAgree_iff (u : JobsUniverse) (inv : u.Chained) (type : JobsType)
    (add delete : CudfRequests) :
    NumbersAgree u type add delete ↔ ∀ entry ∈ u.items, ChainNumbers u (u.chain entry.2) := by
  obtain ⟨ofEntry, ofSorted⟩ := forall₂_mem
    (sortChains_sorted u u.items nothingDropped (fun _ _ _ _ => rfl) inv.threaded.apart)
  have chain_iff : ∀ entry ∈ u.items, ∀ sorted, SortedAs u (u.chain entry.2) sorted →
      ((∀ stanza ∈ emitChain u sorted.2 sorted.1 1 sorted.1, ∀ version,
        stanza.PrintsVersion version → (sortedUniverse u).selection
          (u.pkg stanza.item).uid.toList version = some stanza.item) ↔
        ChainNumbers u (u.chain entry.2)) := by
    intro entry member sorted isSorted
    have nodup := (inv.linked entry member).nodup
    have perm : sorted.1.Perm (u.chain entry.2) :=
      isSorted.order ▸ listSort_perm (notNewer u) (u.chain entry.2)
    rw [emitChain_selects_iff inv member isSorted,
      numbers_readBack_iff List.filter_sublist (perm.nodup_iff.mpr nodup),
      chainNumbers_iff nodup isSorted]
  have stanza_iff : ∀ stanza,
      stanza ∈ (pkgJobsCudfEmitFile u nothingDropped type add delete).stanzas ↔
        ∃ sorted ∈ sortChains u nothingDropped u.items,
          stanza ∈ emitChain u sorted.2 sorted.1 1 sorted.1 := by
    intro stanza
    simp only [pkgJobsCudfEmitFile, List.mem_flatMap]
  constructor
  · intro agree entry member
    obtain ⟨sorted, inChains, isSorted⟩ := ofEntry entry member
    refine (chain_iff entry member sorted isSorted).mp fun stanza isStanza => ?_
    exact agree.selects stanza ((stanza_iff stanza).mpr ⟨sorted, inChains, isStanza⟩)
  · intro numbers
    constructor
    · intro stanza isStanza
      obtain ⟨sorted, inChains, inChain⟩ := (stanza_iff stanza).mp isStanza
      obtain ⟨entry, member, isSorted⟩ := ofSorted sorted inChains
      exact (chain_iff entry member sorted isSorted).mpr (numbers entry member) stanza inChain
    · intro sorted inChains self _ _ _ ref isRef
      obtain ⟨entry, member, isSorted⟩ := ofSorted sorted inChains
      have nodup := (inv.linked entry member).nodup
      have perm : sorted.1.Perm (u.chain entry.2) :=
        isSorted.order ▸ listSort_perm (notNewer u) (u.chain entry.2)
      obtain ⟨keptFirst, _⟩ := (chainNumbers_iff nodup isSorted).mpr (numbers entry member)
      obtain ⟨stanza, isStanza, isItem, prints⟩ :=
        chainReferences_printed (perm.nodup_iff.mpr nodup) keptFirst isRef
      exact ⟨stanza, (stanza_iff stanza).mpr ⟨sorted, inChains, isStanza⟩, isItem, prints⟩

/-- Packages of different versions are never ignored. -/
theorem not_ignored_of_versions {u : JobsUniverse} {chain : List Addr}
    (versions : chain.Pairwise fun a b => SameVersion u a b = false) (item : Addr) :
    ¬Ignored u chain item := by
  have differ : ∀ a b, [a, b].Sublist chain → SameVersion u a b = false := fun a b before =>
    List.pairwise_iff_forall_sublist.mp versions before
  intro ignored
  obtain ⟨_, ⟨later, before, same⟩ | ⟨pair, joined, found, other, inFirst, _, same⟩⟩ := ignored
  · rw [differ item later before] at same
    cases same
  · have apart := sublist_of_mem_joins joined
    rw [flatten_singles] at apart
    have inSecond := List.mem_of_find?_eq_some found
    have before : [other, item].Sublist chain :=
      ((List.singleton_sublist.mpr inFirst).append
        (List.singleton_sublist.mpr inSecond)).trans apart
    have same' := sameVersion_symm same
    rw [differ other item before] at same'
    cases same'

theorem chainNumbers_of_versions {u : JobsUniverse} {chain : List Addr}
    (versions : chain.Pairwise fun a b => SameVersion u a b = false)
    (fits : chain.length < 2147483648) : ChainNumbers u chain where
  keptFirst item _ _ _ ignored _ := absurd ignored (not_ignored_of_versions versions item)
  fits _ sub _ := lt_of_le_of_lt sub.length_le fits

/-- An installed package and a newer one. -/
def olderAndNewer : JobsUniverse :=
  JobsUniverse.ofPackages Pkg.digest
    [{ type := .installed, uid := "app", version := "1", digest := some "d1" },
     { type := .remote, uid := "app", version := "2", digest := some "d2" }]

theorem olderAndNewer_numbersAgree :
    NumbersAgree olderAndNewer .upgrade ⟨[], fun _ => false⟩ ⟨[], fun _ => false⟩ := by
  have chained := (JobsUniverse.repInv_ofPackages Pkg.digest
    [{ type := .installed, uid := "app", version := "1", digest := some "d1" },
     { type := .remote, uid := "app", version := "2", digest := some "d2" }]).toChained
  refine (numbersAgree_iff olderAndNewer chained .upgrade _ _).mpr fun entry member => ?_
  have only : entry = ("app", 0) := by simpa using (show entry ∈ [("app", 0)] from member)
  rw [only]
  exact chainNumbers_of_versions (by decide +kernel) (by decide +kernel)

/-- An installed package, the same version from a repository, and a newer one. -/
def rebuiltAndNewer : JobsUniverse :=
  JobsUniverse.ofPackages Pkg.digest
    [{ type := .installed, uid := "app", version := "1", digest := some "d1" },
     { type := .remote, uid := "app", version := "1", digest := some "d2" },
     { type := .remote, uid := "app", version := "2", digest := some "d3" }]

/-- The newer package is printed as version 2, and read back as the other of version 1. -/
theorem rebuiltAndNewer_misread :
    ¬NumbersAgree rebuiltAndNewer .upgrade ⟨[], fun _ => false⟩ ⟨[], fun _ => false⟩ := by
  intro agree
  have read := agree.selects
    ⟨2, cudfEmitPkg rebuiltAndNewer (fun item => item = 1) 2 2 [0, 1, 2]⟩ (by decide +kernel)
    ['2'] ((printsVersion_iff 2 2 [0, 1, 2] _).mpr (by decide))
  revert read
  decide +kernel

end Pkgng
