import Pkgng.Cudf.Numbering

/-!
# Jobs from a solver's answer

An answer lists packages by the uid and the version of their stanzas, each as installed or
not.  `pkg_jobs_cudf_add_package` makes a job for each of them alone: the first package of
its chain is installed or removed, any other one replaces the first.
-/

set_option autoImplicit false

namespace Pkgng

open Lib

/-! ## Answers -/

/-- The item whose stanza was printed with a uid and a version. -/
def CudfDocument.Prints (doc : CudfDocument) (u : JobsUniverse) (uid : Uid) (n : Nat)
    (item : Addr) : Prop :=
  ∃ stanza ∈ doc.stanzas, stanza.item = item ∧ (u.pkg item).uid = uid ∧
    stanza.PrintsVersion (toString n).toList

/-- The uid and the version of an entry, as they are read. -/
def CudfEntry.Lists (entry : CudfEntry) (uid : Uid) (n : Nat) : Prop :=
  entry.uid.map String.ofList = some uid ∧
    entry.version.map (fun version => toCInt (strtoul version)) = some (n : Int)

instance (entry : CudfEntry) (uid : Uid) (n : Nat) : Decidable (entry.Lists uid n) :=
  inferInstanceAs (Decidable (_ ∧ _))

def answerStanzas (file : List Char) : List CudfStanza := stanzas ((getlines file).map uptoNul)

/-- The text of an answer: each stanza lists a package of the document, and no package is
listed twice. -/
structure CudfAnswer (u : JobsUniverse) (doc : CudfDocument) (file : List Char) : Prop where
  plain : ∀ line ∈ preamble ((getlines file).map uptoNul), isFieldLine line = false
  values : ∀ stanza ∈ answerStanzas file, stanza.HasValues
  listed : ∀ stanza ∈ answerStanzas file, ∃ uid n item,
    stanza.entry.Lists uid n ∧ doc.Prints u uid n item
  once : (answerStanzas file).Pairwise fun stanza other =>
    ∀ uid n, stanza.entry.Lists uid n → ¬other.entry.Lists uid n

section Realised

variable (u : JobsUniverse) (doc : CudfDocument) (file : List Char)

/-- The answer lists the package as installed, or as not installed. -/
def MarksAs (installed : Bool) (item : Addr) : Prop :=
  ∃ stanza ∈ answerStanzas file, ∃ uid n, stanza.entry.Lists uid n ∧
    doc.Prints u uid n item ∧ stanza.entry.installed = installed

/-- What the answer lists for a uid is as it was. -/
def UnchangedUid (uid : Uid) : Prop :=
  ∀ item installed, (u.pkg item).uid = uid → MarksAs u doc file installed item →
    (installed = true ↔ (u.pkg item).type = .installed)

def Solved.Installs (job : Solved) (item : Addr) : Prop :=
  job.items0 = item ∧ (job.type = .install ∨ job.type = .upgrade)

def Solved.Removes (job : Solved) (item : Addr) : Prop :=
  job.items0 = item ∧ job.type = .delete ∨ job.items1 = some item ∧ job.type = .upgrade

/-- The jobs do what the answer says. -/
structure Realises (jobs : List Solved) : Prop where
  installs : ∀ item, (∃ job ∈ jobs, job.Installs item) ↔
    (u.pkg item).type ≠ .installed ∧ MarksAs u doc file true item
  removes : ∀ item, (∃ job ∈ jobs, job.Removes item) ↔
    (u.pkg item).type = .installed ∧ MarksAs u doc file false item
  unchanged : ∀ uid, UnchangedUid u doc file uid → ∀ job ∈ jobs, ∀ item ∈ job.units,
    (u.pkg item).uid ≠ uid

/-- The call reads the answer to its end and appends jobs that realise it. -/
def AnswerRealised (j : CudfJobs) : Prop :=
  ∃ after jobs, pkgJobsCudfParseOutput j file = .returned .ok after ∧
    after.jobs = j.jobs ++ jobs ∧ Realises u doc file jobs

/-- No ignored item of the chain stands before the item in the order of versions. -/
def NothingIgnoredBefore (chain : List Addr) (item : Addr) : Prop :=
  ∀ other ∈ chain, other ≠ item → Ignored u chain other →
    ¬(notNewer u other item = true ∧ (SameVersion u other item = true →
      [other, item].Sublist chain))

/-- A listed version above the first is a remote package that is to be installed, in the
place that its number says, and the first one is installed and listed as not installed.  A
first version is in its place, or it is remote and not to be installed. -/
structure AnswerFits : Prop where
  upgrades : ∀ stanza ∈ answerStanzas file, ∀ entry ∈ u.items, ∀ n item,
    stanza.entry.Lists entry.1 n → doc.Prints u entry.1 n item → 2 ≤ n →
      stanza.entry.installed = true ∧ (u.pkg item).type ≠ .installed ∧
        NothingIgnoredBefore u (u.chain entry.2) item ∧
          ∃ old, doc.Prints u entry.1 1 old ∧ (u.pkg old).type = .installed ∧
            MarksAs u doc file false old
  first : ∀ stanza ∈ answerStanzas file, ∀ entry ∈ u.items, ∀ item,
    stanza.entry.Lists entry.1 1 → doc.Prints u entry.1 1 item →
      NothingIgnoredBefore u (u.chain entry.2) item ∨
        stanza.entry.installed = false ∧ (u.pkg item).type ≠ .installed

end Realised

/-! ## The printed items of a chain -/

section Printed

variable {u : JobsUniverse}

/-- The items of a chain that are printed, in the order of their versions. -/
def printedItems (u : JobsUniverse) (chain : List Addr) : List Addr :=
  let sorted := listSortWith (pkgCudfVersionCmp u) nothingDropped chain
  sorted.1.filter fun item => !sorted.2 item

theorem printedItems_eq (chain : List Addr) {sorted : List Addr × Dropped}
    (isSorted : SortedAs u chain sorted) :
    printedItems u chain = sorted.1.filter fun item => !sorted.2 item := by
  have order : (listSortWith (pkgCudfVersionCmp u) nothingDropped chain).1 = sorted.1 := by
    rw [isSorted.order, listSortWith_cudf]
  rw [printedItems, order]
  refine List.filter_congr fun item member => ?_
  have inChain : item ∈ chain := by
    rw [isSorted.order] at member
    exact (listSort_perm _ _).mem_iff.mp member
  have marks := listSortWith_dropped (u := u) nothingDropped chain item
  rw [← isSorted.dropped item inChain] at marks
  simp only [nothingDropped, Bool.false_eq_true, false_or] at marks
  rw [Bool.eq_iff_iff.mpr marks]

theorem printedItems_filter (chain : List Addr) : ∃ kept : Addr → Bool,
    (∀ item, kept item = true ↔ ¬Ignored u chain item) ∧
      printedItems u chain = (listSort (notNewer u) chain).filter kept := by
  refine ⟨fun item => !(listSortWith (pkgCudfVersionCmp u) nothingDropped chain).2 item, ?_, ?_⟩
  · intro item
    have marks := listSortWith_dropped (u := u) nothingDropped chain item
    simp only [nothingDropped, Bool.false_eq_true, false_or] at marks
    rw [← marks, Bool.not_eq_true', Bool.not_eq_true]
  · rw [printedItems, listSortWith_cudf]

theorem mem_printedItems {chain : List Addr} {item : Addr} :
    item ∈ printedItems u chain ↔ item ∈ chain ∧ ¬Ignored u chain item := by
  obtain ⟨kept, isKept, filtered⟩ := @printedItems_filter u chain
  rw [filtered, List.mem_filter, isKept, (listSort_perm _ _).mem_iff]

theorem toString_inj {m n : Nat} (same : (toString m).toList = (toString n).toList) : m = n := by
  have digits : ∀ k : Nat, (toString k).toList = Nat.toDigits 10 k := fun k => by simp
  rw [digits, digits] at same
  rw [← decimal_toDigits m, same, decimal_toDigits]

theorem prints_iff (inv : u.Chained) {entry : Uid × Addr} (member : entry ∈ u.items)
    (type : JobsType) (add delete : CudfRequests) (n : Nat) (item : Addr) :
    (pkgJobsCudfEmitFile u nothingDropped type add delete).Prints u entry.1 n item ↔
      ∃ k, (printedItems u (u.chain entry.2))[k]? = some item ∧ n = k + 1 := by
  obtain ⟨ofEntry, ofSorted⟩ := forall₂_mem
    (sortChains_sorted u u.items nothingDropped (fun _ _ _ _ => rfl) inv.threaded.apart)
  constructor
  · rintro ⟨stanza, isStanza, rfl, isUid, prints⟩
    simp only [pkgJobsCudfEmitFile, List.mem_flatMap] at isStanza
    obtain ⟨sorted, inChains, inChain⟩ := isStanza
    obtain ⟨other, otherMember, isSorted⟩ := ofSorted sorted inChains
    obtain ⟨k, item, at_k, rfl⟩ := mem_emitChain_iff.mp inChain
    rw [← printedItems_eq _ isSorted] at at_k
    have inOther := (mem_printedItems.mp (List.mem_of_getElem? at_k)).1
    have sameUid : other.1 = entry.1 :=
      (inv.homogeneous other otherMember item inOther).symm.trans isUid
    have same : other = entry := by
      have first := (HashTable.find_eq_some_iff inv.keysNodup).mpr otherMember
      have second := (HashTable.find_eq_some_iff inv.keysNodup).mpr member
      rw [sameUid, second] at first
      exact Prod.ext sameUid (Option.some.inj first).symm
    rw [same] at at_k
    have number := toString_inj ((printsVersion_iff _ _ _ _).mp prints)
    exact ⟨k, at_k, by omega⟩
  · rintro ⟨k, at_k, rfl⟩
    obtain ⟨sorted, inChains, isSorted⟩ := ofEntry entry member
    have inChain := (mem_printedItems.mp (List.mem_of_getElem? at_k)).1
    rw [printedItems_eq _ isSorted] at at_k
    refine ⟨⟨item, cudfEmitPkg u sorted.2 item (1 + k) sorted.1⟩, ?_, rfl,
      inv.homogeneous entry member item inChain, ?_⟩
    · simp only [pkgJobsCudfEmitFile, List.mem_flatMap]
      exact ⟨sorted, inChains, mem_emitChain_iff.mpr ⟨k, item, at_k, rfl⟩⟩
    · rw [printsVersion_iff, Nat.add_comm]

/-- A printed item belongs to a chain of the universe. -/
theorem prints_entry (inv : u.Chained) {type : JobsType} {add delete : CudfRequests} {uid : Uid}
    {n : Nat} {item : Addr}
    (prints : (pkgJobsCudfEmitFile u nothingDropped type add delete).Prints u uid n item) :
    ∃ entry ∈ u.items, entry.1 = uid := by
  obtain ⟨_, ofSorted⟩ := forall₂_mem
    (sortChains_sorted u u.items nothingDropped (fun _ _ _ _ => rfl) inv.threaded.apart)
  obtain ⟨stanza, isStanza, rfl, isUid, _⟩ := prints
  simp only [pkgJobsCudfEmitFile, List.mem_flatMap] at isStanza
  obtain ⟨sorted, inChains, inChain⟩ := isStanza
  obtain ⟨entry, member, isSorted⟩ := ofSorted sorted inChains
  obtain ⟨k, item, at_k, rfl⟩ := mem_emitChain_iff.mp inChain
  rw [← printedItems_eq _ isSorted] at at_k
  have inEntry := (mem_printedItems.mp (List.mem_of_getElem? at_k)).1
  exact ⟨entry, member, (inv.homogeneous entry member item inEntry).symm.trans isUid⟩

end Printed

/-! ## The jobs of a text -/

/-- What a stanza of an answer lists: a place among the printed items of a chain. -/
structure Mark where
  entry : Uid × Addr
  place : Nat
  installed : Bool

namespace Mark

variable (u : JobsUniverse)

/-- The chain as the reader finds it. -/
def sortedItems (m : Mark) : List Addr := listSort (notNewer u) (u.chain m.entry.2)

def printed (m : Mark) : List Addr := printedItems u (u.chain m.entry.2)

/-- The stanza says what the mark says. -/
structure Of (stanza : CudfStanza) (m : Mark) : Prop where
  filed : m.entry ∈ u.items
  lists : stanza.entry.Lists m.entry.1 (m.place + 1)
  isInstalled : stanza.entry.installed = m.installed
  known : m.place < (m.printed u).length

/-- The job for an item selected in its place. -/
def job (m : Mark) (selected : Addr) : Option Solved :=
  if m.place = 0 then
    if m.installed ∧ (u.pkg selected).type ≠ .installed then
      some { items0 := selected, type := .install }
    else if ¬m.installed ∧ (u.pkg selected).type = .installed then
      some { items0 := selected, type := .delete }
    else none
  else
    ((m.sortedItems u).find? (· ≠ selected)).map fun old =>
      { items0 := selected, items1 := some old, type := .upgrade }

def jobs (m : Mark) : List Solved := ((m.sortedItems u)[m.place]?.bind (m.job u)).toList

end Mark

section Reading

variable {u : JobsUniverse}

theorem addPackage_listed (inv : u.Chained) {j : CudfJobs} (univ : j.univ = sortedUniverse u)
    {e : CudfEntry} {entry : Uid × Addr} (member : entry ∈ u.items) {k : Nat} {selected : Addr}
    (lists : e.Lists entry.1 (k + 1))
    (at_k : (listSort (notNewer u) (u.chain entry.2))[k]? = some selected) :
    j.addPackage e =
      j.addSelected e (listSort (notNewer u) (u.chain entry.2)) (1 + k) selected := by
  obtain ⟨isUid, isVersion⟩ := lists
  obtain ⟨uid, uidEq, name⟩ := Option.map_eq_some_iff.mp isUid
  obtain ⟨version, versionEq, number⟩ := Option.map_eq_some_iff.mp isVersion
  obtain ⟨head, rewinds, walked⟩ := sorted_rewinds inv member
  have chosen : CudfJobs.selectVersion (toCInt (strtoul version)) 1
      (listSort (notNewer u) (u.chain entry.2)) = (1 + k, some selected) := by
    rcases CudfJobs.selectVersion_cases (toCInt (strtoul version))
      (listSort (notNewer u) (u.chain entry.2)) 1 with
      ⟨other, item, at_other, place, run⟩ | ⟨outside, last, run⟩
    · obtain rfl : other = k := by omega
      rw [at_k] at at_other
      cases at_other
      exact run
    · have inside := (List.getElem?_eq_some_iff.mp at_k).1
      omega
  simp only [CudfJobs.addPackage, uidEq, versionEq, univ, name, sorted_find inv member, rewinds,
    walked, chosen]

theorem printed_sublist (m : Mark) : (m.printed u).Sublist (m.sortedItems u) := by
  obtain ⟨_, _, filtered⟩ := @printedItems_filter u (u.chain m.entry.2)
  rw [Mark.printed, Mark.sortedItems, filtered]
  exact List.filter_sublist

/-- The call for a stanza appends its job. -/
theorem addPackage_mark (inv : u.Chained) {j : CudfJobs} (univ : j.univ = sortedUniverse u)
    {stanza : CudfStanza} {m : Mark} (isMark : m.Of u stanza) :
    ∃ after, j.addPackage stanza.entry = .returned .ok after ∧ after.univ = j.univ ∧
      after.jobs = j.jobs ++ m.jobs u := by
  have inside : m.place < (m.sortedItems u).length :=
    Nat.lt_of_lt_of_le isMark.known (printed_sublist m).length_le
  obtain ⟨selected, at_place⟩ : ∃ selected, (m.sortedItems u)[m.place]? = some selected :=
    ⟨_, List.getElem?_eq_getElem inside⟩
  have pkgs : ∀ item, j.pkg item = u.pkg item := by
    intro item
    rw [Jobs.pkg, univ, JobsUniverse.pkg, (sortedUniverse_spec inv.threaded).1]
    rfl
  have perm := listSort_perm (notNewer u) (u.chain m.entry.2)
  have nodup : (m.sortedItems u).Nodup :=
    perm.nodup_iff.mpr (inv.linked m.entry isMark.filed).nodup
  rw [addPackage_listed inv univ isMark.filed isMark.lists at_place, Mark.jobs, at_place]
  simp only [Option.bind_some, Mark.job]
  unfold CudfJobs.addSelected
  rw [pkgs, isMark.isInstalled]
  by_cases first : m.place = 0
  · rw [if_pos (by omega), if_pos first]
    split_ifs
    · exact ⟨_, rfl, rfl, rfl⟩
    · exact ⟨_, rfl, rfl, rfl⟩
    · exact ⟨j, rfl, rfl, by simp⟩
  · rw [if_neg (by omega), if_neg first]
    have others : ∃ old, (m.sortedItems u).find? (· ≠ selected) = some old := by
      refine Option.isSome_iff_exists.mp (List.find?_isSome.mpr ?_)
      refine ⟨(m.sortedItems u)[0], List.getElem_mem _, ?_⟩
      obtain ⟨_, isSelected⟩ := List.getElem?_eq_some_iff.mp at_place
      rw [← isSelected, decide_eq_true_eq, Ne, nodup.getElem_inj_iff]
      omega
    obtain ⟨old, found⟩ := others
    rw [Mark.sortedItems] at found
    rw [found, Mark.sortedItems, found]
    exact ⟨_, rfl, rfl, rfl⟩

/-- Reading an answer appends the jobs of its marks. -/
theorem processStanzas_marks (inv : u.Chained) {list : List CudfStanza} {marks : List Mark}
    (areMarks : List.Forall₂ (fun stanza m => Mark.Of u stanza m) list marks) {j : CudfJobs}
    (univ : j.univ = sortedUniverse u) (values : ∀ stanza ∈ list, stanza.HasValues) :
    ∃ after, j.processStanzas list = .returned .ok after ∧
      after.jobs = j.jobs ++ marks.flatMap (Mark.jobs u) := by
  induction areMarks generalizing j with
  | nil => exact ⟨j, rfl, by simp⟩
  | cons isMark rest ih =>
      obtain ⟨next, run, sameUniv, jobsEq⟩ := addPackage_mark inv univ isMark
      obtain ⟨after, runs, laterJobs⟩ := ih (sameUniv.trans univ)
        fun other member => values other (List.mem_cons_of_mem _ member)
      refine ⟨after, ?_, ?_⟩
      · rw [CudfJobs.processStanzas, if_pos (values _ (List.mem_cons_self ..)), run]
        exact runs
      · rw [laterJobs, jobsEq, List.flatMap_cons, List.append_assoc]

theorem parse_marks (inv : u.Chained) {file : List Char} {marks : List Mark} {j : CudfJobs}
    (areMarks : List.Forall₂ (fun stanza m => Mark.Of u stanza m) (answerStanzas file) marks)
    (univ : j.univ = sortedUniverse u)
    (plain : ∀ line ∈ preamble ((getlines file).map uptoNul), isFieldLine line = false)
    (values : ∀ stanza ∈ answerStanzas file, stanza.HasValues) :
    ∃ after, pkgJobsCudfParseOutput j file = .returned .ok after ∧
      after.jobs = j.jobs ++ marks.flatMap (Mark.jobs u) := by
  have linked : j.univ.Linked := univ ▸ sortedUniverse_linked inv
  rw [pkgJobsCudfParseOutput_eq, finish_eq_processStanzas linked plain]
  exact processStanzas_marks inv areMarks univ values

end Reading

/-! ## Marks and places -/

section Places

variable {u : JobsUniverse}

theorem sortedItems_nodup (inv : u.Chained) {m : Mark} (filed : m.entry ∈ u.items) :
    (m.sortedItems u).Nodup :=
  (listSort_perm (notNewer u) (u.chain m.entry.2)).nodup_iff.mpr
    (inv.linked m.entry filed).nodup

theorem mem_sortedItems {m : Mark} {item : Addr} :
    item ∈ m.sortedItems u ↔ item ∈ u.chain m.entry.2 :=
  (listSort_perm (notNewer u) (u.chain m.entry.2)).mem_iff

theorem entry_of_item (inv : u.Chained) {m other : Mark} (filed : m.entry ∈ u.items)
    (otherFiled : other.entry ∈ u.items) {item : Addr} (inChain : item ∈ m.sortedItems u)
    (inOther : item ∈ other.sortedItems u) : m.entry = other.entry :=
  JobsUniverse.entry_unique inv filed otherFiled (mem_sortedItems.mp inChain)
    (mem_sortedItems.mp inOther)

theorem mem_sorted_of_printed {m : Mark} {k : Nat} {item : Addr}
    (at_k : (m.printed u)[k]? = some item) : item ∈ m.sortedItems u :=
  (printed_sublist m).subset (List.mem_of_getElem? at_k)

/-- A package is not printed with a number above its place. -/
theorem place_le (inv : u.Chained) {m : Mark} (filed : m.entry ∈ u.items) {k p : Nat}
    {item : Addr} (at_k : (m.printed u)[k]? = some item)
    (at_p : (m.sortedItems u)[p]? = some item) : k ≤ p :=
  place_le_of_sublist (printed_sublist m) (sortedItems_nodup inv filed) at_k at_p

/-- An installed package at the head of its chain is printed as version 1. -/
theorem head_installed (inv : u.Chained) {m : Mark} (filed : m.entry ∈ u.items) {item : Addr}
    (atHead : (m.sortedItems u)[0]? = some item) (isLocal : (u.pkg item).type = .installed) :
    (m.printed u)[0]? = some item := by
  have inChain := mem_sortedItems.mp (List.mem_of_getElem? atHead)
  have isPrinted : item ∈ m.printed u :=
    mem_printedItems.mpr ⟨inChain, fun ignored => ignored.1 isLocal⟩
  obtain ⟨k, at_k⟩ := List.mem_iff_getElem?.mp isPrinted
  obtain rfl : k = 0 := Nat.le_zero.mp (place_le inv filed at_k atHead)
  exact at_k

/-- A printed item stands in the place its number says if no ignored item stands before it. -/
theorem place_iff (inv : u.Chained) {m : Mark} (filed : m.entry ∈ u.items) {k : Nat}
    {item : Addr} (at_k : (m.printed u)[k]? = some item) :
    (m.sortedItems u)[k]? = some item ↔ NothingIgnoredBefore u (u.chain m.entry.2) item := by
  obtain ⟨kept, isKept, filtered⟩ := @printedItems_filter u (u.chain m.entry.2)
  have nodup := sortedItems_nodup inv filed
  have inSorted := mem_sorted_of_printed at_k
  have itemKept : kept item = true :=
    (isKept item).mpr (mem_printedItems.mp (List.mem_of_getElem? at_k)).2
  obtain ⟨pre, post, split⟩ := List.append_of_mem inSorted
  -- The number of an item is the number of kept items before it.
  have atLength : (m.sortedItems u)[pre.length]? = some item := by simp [split]
  have atKept : (m.printed u)[(pre.filter kept).length]? = some item := by
    rw [Mark.printed, filtered, ← Mark.sortedItems, split, List.filter_append,
      List.filter_cons_of_pos itemKept]
    simp
  have printedNodup := (printed_sublist m).nodup nodup
  have number : (pre.filter kept).length = k :=
    (List.getElem?_inj (List.getElem?_eq_some_iff.mp atKept).1 printedNodup).mp
      (atKept.trans at_k.symm)
  have before : ∀ other ∈ pre, other ≠ item ∧
      [other, item].Sublist (m.sortedItems u) := by
    intro other inPre
    rw [split] at nodup ⊢
    refine ⟨(List.nodup_append.mp nodup).2.2 other inPre item (List.mem_cons_self ..), ?_⟩
    exact (List.singleton_sublist.mpr inPre).append
      (List.singleton_sublist.mpr (List.mem_cons_self ..))
  have inPre_of : ∀ other, other ≠ item → [other, item].Sublist (m.sortedItems u) →
      other ∈ pre := by
    intro other apart behind
    rw [split] at nodup behind
    rcases List.mem_append.mp (behind.subset (List.mem_cons_self ..)) with inPre | inRest
    · exact inPre
    · rcases List.mem_cons.mp inRest with same | inPost
      · exact absurd same apart
      · have swapped : [item, other].Sublist (pre ++ item :: post) :=
          ((List.singleton_sublist.mpr inPost).cons_cons item).trans
            (List.sublist_append_right _ _)
        exact absurd behind (not_sublist_swap nodup swapped)
  have chainNodup := (inv.linked m.entry filed).nodup
  have itemInChain := mem_sortedItems.mp inSorted
  constructor
  · intro inPlace other inChain apart ignored order
    have length : pre.length = k :=
      (List.getElem?_inj (List.getElem?_eq_some_iff.mp atLength).1 nodup).mp
        (atLength.trans inPlace.symm)
    have allKept := List.length_filter_eq_length_iff.mp (number.trans length.symm)
    have inPre := inPre_of other apart
      ((sublist_sorted_iff chainNodup itemInChain inChain apart).mpr order)
    exact (isKept other).mp (allKept other inPre) ignored
  · intro nothing
    have allKept : ∀ other ∈ pre, kept other = true := by
      intro other inPre
      obtain ⟨apart, order⟩ := before other inPre
      have inChain := mem_sortedItems.mp (order.subset (List.mem_cons_self ..))
      refine (isKept other).mpr fun ignored => ?_
      exact nothing other inChain apart ignored
        ((sublist_sorted_iff chainNodup itemInChain inChain apart).mp order)
    rw [← number, List.length_filter_eq_length_iff.mpr allKept]
    exact atLength

end Places

/-! ## Marks and their jobs -/

section MarkJobs

variable {u : JobsUniverse}

/-- What replaces an item behind the head replaces the head. -/
theorem find?_ne_head {list : List Addr} (nodup : list.Nodup) {k : Nat} {selected : Addr}
    (at_k : list[k]? = some selected) (behind : k ≠ 0) :
    list.find? (· ≠ selected) = list[0]? := by
  cases list with
  | nil => rfl
  | cons head rest =>
      obtain ⟨before, rfl⟩ := Nat.exists_eq_succ_of_ne_zero behind
      have later : selected ∈ rest := List.mem_of_getElem? (by simpa using at_k)
      have differs : head ≠ selected := fun same =>
        (List.nodup_cons.mp nodup).1 (same ▸ later)
      simp [differs]

/-- The job of a mark and what it does. -/
theorem mem_jobs_iff (inv : u.Chained) {m : Mark} (filed : m.entry ∈ u.items) (job : Solved) :
    job ∈ m.jobs u ↔ ∃ selected, (m.sortedItems u)[m.place]? = some selected ∧
      (m.place = 0 ∧ m.installed = true ∧ (u.pkg selected).type ≠ .installed ∧
          job = { items0 := selected, type := .install } ∨
        m.place = 0 ∧ m.installed = false ∧ (u.pkg selected).type = .installed ∧
          job = { items0 := selected, type := .delete } ∨
        m.place ≠ 0 ∧ ∃ old, (m.sortedItems u)[0]? = some old ∧
          job = { items0 := selected, items1 := some old, type := .upgrade }) := by
  cases chosen : (m.sortedItems u)[m.place]? with
  | none => simp [Mark.jobs, chosen]
  | some selected =>
      simp only [Mark.jobs, chosen, Option.bind_some, Option.mem_toList, Mark.job,
        Option.some.injEq, exists_eq_left']
      by_cases first : m.place = 0
      · simp only [first, if_true]
        cases m.installed with
        | true =>
            by_cases isLocal : (u.pkg selected).type = .installed <;> simp [isLocal, eq_comm]
        | false =>
            by_cases isLocal : (u.pkg selected).type = .installed <;> simp [isLocal, eq_comm]
      · rw [find?_ne_head (sortedItems_nodup inv filed) chosen first]
        simp only [first, if_false, false_and, false_or, ne_eq, not_false_eq_true, true_and,
          Option.map_eq_some_iff]
        exact exists_congr fun old => and_congr_right fun _ => eq_comm

theorem mark_installs_iff (inv : u.Chained) {m : Mark} (filed : m.entry ∈ u.items)
    (item : Addr) : (∃ job ∈ m.jobs u, job.Installs item) ↔
      (m.sortedItems u)[m.place]? = some item ∧
        (m.place = 0 → m.installed = true ∧ (u.pkg item).type ≠ .installed) := by
  constructor
  · rintro ⟨job, isJob, rfl, isInstall⟩
    obtain ⟨selected, chosen, ⟨_, flag, remote, rfl⟩ | ⟨_, _, _, rfl⟩ | ⟨behind, old, _, rfl⟩⟩ :=
      (mem_jobs_iff inv filed job).mp isJob
    · exact ⟨chosen, fun _ => ⟨flag, remote⟩⟩
    · simp at isInstall
    · exact ⟨chosen, fun first => absurd first behind⟩
  · rintro ⟨chosen, condition⟩
    by_cases first : m.place = 0
    · obtain ⟨flag, remote⟩ := condition first
      exact ⟨_, (mem_jobs_iff inv filed _).mpr
        ⟨item, chosen, Or.inl ⟨first, flag, remote, rfl⟩⟩, rfl, Or.inl rfl⟩
    · have nonempty : 0 < (m.sortedItems u).length := by
        have inside := (List.getElem?_eq_some_iff.mp chosen).1
        omega
      exact ⟨_, (mem_jobs_iff inv filed _).mpr ⟨item, chosen,
        Or.inr (Or.inr ⟨first, _, List.getElem?_eq_getElem nonempty, rfl⟩)⟩, rfl, Or.inr rfl⟩

theorem mark_removes_iff (inv : u.Chained) {m : Mark} (filed : m.entry ∈ u.items)
    (known : m.place < (m.printed u).length) (item : Addr) :
    (∃ job ∈ m.jobs u, job.Removes item) ↔ (m.sortedItems u)[0]? = some item ∧
      (m.place = 0 → m.installed = false ∧ (u.pkg item).type = .installed) := by
  constructor
  · rintro ⟨job, isJob, removes⟩
    obtain ⟨selected, chosen, ⟨first, flag, remote, rfl⟩ | ⟨first, flag, isLocal, rfl⟩ |
      ⟨behind, old, atHead, rfl⟩⟩ := (mem_jobs_iff inv filed job).mp isJob
    · simp [Solved.Removes] at removes
    · rcases removes with ⟨rfl, _⟩ | ⟨_, impossible⟩
      · rw [first] at chosen
        exact ⟨chosen, fun _ => ⟨flag, isLocal⟩⟩
      · cases impossible
    · rcases removes with ⟨_, impossible⟩ | ⟨isOld, _⟩
      · cases impossible
      · cases isOld
        exact ⟨atHead, fun first => absurd first behind⟩
  · rintro ⟨atHead, condition⟩
    by_cases first : m.place = 0
    · obtain ⟨flag, isLocal⟩ := condition first
      exact ⟨_, (mem_jobs_iff inv filed _).mpr
        ⟨item, by rw [first, atHead], Or.inr (Or.inl ⟨first, flag, isLocal, rfl⟩)⟩,
        Or.inl ⟨rfl, rfl⟩⟩
    · have inside : m.place < (m.sortedItems u).length :=
        Nat.lt_of_lt_of_le known (printed_sublist m).length_le
      exact ⟨_, (mem_jobs_iff inv filed _).mpr ⟨_, List.getElem?_eq_getElem inside,
        Or.inr (Or.inr ⟨first, item, atHead, rfl⟩)⟩, Or.inr ⟨rfl, rfl⟩⟩

theorem mark_units (inv : u.Chained) {m : Mark} (filed : m.entry ∈ u.items) {job : Solved}
    (isJob : job ∈ m.jobs u) {item : Addr} (inJob : item ∈ job.units) :
    item ∈ m.sortedItems u := by
  obtain ⟨selected, chosen, ⟨_, _, _, rfl⟩ | ⟨_, _, _, rfl⟩ | ⟨_, old, atHead, rfl⟩⟩ :=
    (mem_jobs_iff inv filed job).mp isJob
  · obtain rfl : item = selected := by simpa [Solved.units] using inJob
    exact List.mem_of_getElem? chosen
  · obtain rfl : item = selected := by simpa [Solved.units] using inJob
    exact List.mem_of_getElem? chosen
  · rcases (by simpa [Solved.units] using inJob : item = selected ∨ item = old) with rfl | rfl
    · exact List.mem_of_getElem? chosen
    · exact List.mem_of_getElem? atHead

end MarkJobs

/-! ## When the jobs of the marks realise them -/

/-- The marks of an answer: of chains of the universe, and no two for one printed item that
differ. -/
structure MarksOf (u : JobsUniverse) (marks : List Mark) : Prop where
  filed : ∀ m ∈ marks, m.entry ∈ u.items
  known : ∀ m ∈ marks, m.place < (m.printed u).length
  once : ∀ m ∈ marks, ∀ other ∈ marks, m.entry = other.entry → m.place = other.place →
    m.installed = other.installed

section Marks

variable (u : JobsUniverse) (marks : List Mark)

def MarkedAs (installed : Bool) (item : Addr) : Prop :=
  ∃ m ∈ marks, (m.printed u)[m.place]? = some item ∧ m.installed = installed

structure MarksFit : Prop where
  upgrades : ∀ m ∈ marks, m.place ≠ 0 → ∀ item, (m.printed u)[m.place]? = some item →
    m.installed = true ∧ (u.pkg item).type ≠ .installed ∧
      (m.sortedItems u)[m.place]? = some item ∧ ∃ old, (m.printed u)[0]? = some old ∧
        (u.pkg old).type = .installed ∧ MarkedAs u marks false old
  first : ∀ m ∈ marks, m.place = 0 → ∀ item, (m.printed u)[0]? = some item →
    (m.sortedItems u)[0]? = some item ∨
      m.installed = false ∧ (u.pkg item).type ≠ .installed

variable {u marks}

/-- A mark for an item of a chain is a mark of the chain, with a number not above the
item's place. -/
theorem marked_here (inv : u.Chained) (ofAnswer : MarksOf u marks) {m : Mark} (member : m ∈ marks)
    {p : Nat} {item : Addr} (at_p : (m.sortedItems u)[p]? = some item) {installed : Bool}
    (marked : MarkedAs u marks installed item) : ∃ other ∈ marks, other.entry = m.entry ∧
      other.place ≤ p ∧ (m.printed u)[other.place]? = some item ∧
        other.installed = installed := by
  obtain ⟨other, otherMember, at_place, flag⟩ := marked
  have filed := ofAnswer.filed m member
  have same : other.entry = m.entry := entry_of_item inv (ofAnswer.filed other otherMember) filed
    (mem_sorted_of_printed at_place) (List.mem_of_getElem? at_p)
  have here : (m.printed u)[other.place]? = some item := by
    rw [Mark.printed, ← same]
    exact at_place
  exact ⟨other, otherMember, same, place_le inv filed here at_p, here, flag⟩

/-- If the jobs realise the marks, an upgrade is of the head, which is marked so. -/
theorem upgrade_head (inv : u.Chained) (ofAnswer : MarksOf u marks)
    (removes : ∀ item, (∃ job ∈ marks.flatMap (Mark.jobs u), job.Removes item) →
      (u.pkg item).type = .installed ∧ MarkedAs u marks false item)
    {m : Mark} (member : m ∈ marks) (behind : m.place ≠ 0) :
    ∃ old, (m.sortedItems u)[0]? = some old ∧ (m.printed u)[0]? = some old ∧
      (u.pkg old).type = .installed ∧ MarkedAs u marks false old := by
  have filed := ofAnswer.filed m member
  have known := ofAnswer.known m member
  have nonempty : 0 < (m.sortedItems u).length := by
    have longer := (printed_sublist m (u := u)).length_le
    omega
  obtain ⟨old, atHead⟩ : ∃ old, (m.sortedItems u)[0]? = some old :=
    ⟨_, List.getElem?_eq_getElem nonempty⟩
  obtain ⟨job, isJob, removesOld⟩ := (mark_removes_iff inv filed known old).mpr
    ⟨atHead, fun first => absurd first behind⟩
  obtain ⟨isLocal, marked⟩ := removes old ⟨job, List.mem_flatMap.mpr ⟨m, member, isJob⟩, removesOld⟩
  exact ⟨old, atHead, head_installed inv filed atHead isLocal, isLocal, marked⟩

/-- If the jobs realise the marks, every item behind the head that is listed is a remote one
to be installed, in its place.  The induction is on the place: what stands in the place of
an item is listed with a number not above it, and smaller numbers are taken. -/
theorem upgrade_place (inv : u.Chained) (ofAnswer : MarksOf u marks)
    (installs : ∀ item, (∃ job ∈ marks.flatMap (Mark.jobs u), job.Installs item) →
      (u.pkg item).type ≠ .installed ∧ MarkedAs u marks true item)
    (removes : ∀ item, (∃ job ∈ marks.flatMap (Mark.jobs u), job.Removes item) →
      (u.pkg item).type = .installed ∧ MarkedAs u marks false item) (place : Nat) :
    ∀ m ∈ marks, m.place = place → m.place ≠ 0 → ∃ item,
      (m.sortedItems u)[m.place]? = some item ∧ (m.printed u)[m.place]? = some item ∧
        m.installed = true ∧ (u.pkg item).type ≠ .installed := by
  induction place using Nat.strong_induction_on with
  | _ place ih =>
      intro m member isPlace behind
      have filed := ofAnswer.filed m member
      have known := ofAnswer.known m member
      have nodup := sortedItems_nodup inv filed
      have inside : m.place < (m.sortedItems u).length :=
        Nat.lt_of_lt_of_le known (printed_sublist m).length_le
      obtain ⟨item, chosen⟩ : ∃ item, (m.sortedItems u)[m.place]? = some item :=
        ⟨_, List.getElem?_eq_getElem inside⟩
      obtain ⟨job, isJob, installsItem⟩ := (mark_installs_iff inv filed item).mpr
        ⟨chosen, fun first => absurd first behind⟩
      obtain ⟨remote, marked⟩ := installs item
        ⟨job, List.mem_flatMap.mpr ⟨m, member, isJob⟩, installsItem⟩
      obtain ⟨other, otherMember, sameEntry, below, at_other, flag⟩ :=
        marked_here inv ofAnswer member chosen marked
      -- The head is marked as dropped, so the mark for `item` is not that of the head.
      have otherBehind : other.place ≠ 0 := by
        intro first
        obtain ⟨old, atHead, _, _, oldMarked⟩ := upgrade_head inv ofAnswer removes member behind
        obtain ⟨head, headMember, headEntry, headPlace, _, headFlag⟩ :=
          marked_here inv ofAnswer member atHead oldMarked
        have same := ofAnswer.once other otherMember head headMember
          (sameEntry.trans headEntry.symm) (by omega)
        rw [flag, headFlag] at same
        cases same
      have samePlace : other.place = m.place := by
        by_contra differs
        obtain ⟨there, thereChosen, thereAt, _, _⟩ :=
          ih other.place (by omega) other otherMember rfl otherBehind
        have here : (m.sortedItems u)[other.place]? = some there := by
          rw [Mark.sortedItems, ← sameEntry]
          exact thereChosen
        have printedHere : (m.printed u)[other.place]? = some there := by
          rw [Mark.printed, ← sameEntry]
          exact thereAt
        rw [at_other] at printedHere
        cases printedHere
        have within := (List.getElem?_eq_some_iff.mp here).1
        exact differs ((List.getElem?_inj within nodup).mp (here.trans chosen.symm))
      have sameFlag := ofAnswer.once other otherMember m member sameEntry samePlace
      rw [samePlace] at at_other
      exact ⟨item, chosen, at_other, sameFlag.symm.trans flag, remote⟩

theorem marksFit_of_realised (inv : u.Chained) (ofAnswer : MarksOf u marks)
    (installs : ∀ item, (∃ job ∈ marks.flatMap (Mark.jobs u), job.Installs item) ↔
      (u.pkg item).type ≠ .installed ∧ MarkedAs u marks true item)
    (removes : ∀ item, (∃ job ∈ marks.flatMap (Mark.jobs u), job.Removes item) ↔
      (u.pkg item).type = .installed ∧ MarkedAs u marks false item) : MarksFit u marks := by
  have installs' := fun item => (installs item).mp
  have removes' := fun item => (removes item).mp
  constructor
  · intro m member behind item at_place
    obtain ⟨old, _, isPrinted, isLocal, marked⟩ := upgrade_head inv ofAnswer removes' member behind
    obtain ⟨there, chosen, at_there, flag, remote⟩ :=
      upgrade_place inv ofAnswer installs' removes' m.place m member rfl behind
    rw [at_place] at at_there
    cases at_there
    exact ⟨flag, remote, chosen, old, isPrinted, isLocal, marked⟩
  · intro m member first item at_head
    have filed := ofAnswer.filed m member
    have known := ofAnswer.known m member
    have nonempty : 0 < (m.sortedItems u).length := by
      have longer := (printed_sublist m (u := u)).length_le
      omega
    obtain ⟨head, isHead⟩ : ∃ head, (m.sortedItems u)[0]? = some head :=
      ⟨_, List.getElem?_eq_getElem nonempty⟩
    cases flag : m.installed with
    | true =>
        left
        by_cases headLocal : (u.pkg head).type = .installed
        · have printedHead := head_installed inv filed isHead headLocal
          rw [at_head] at printedHead
          cases printedHead
          exact isHead
        · -- The head would be installed, so it is listed, and it is the item.
          obtain ⟨job, isJob, installsHead⟩ := (mark_installs_iff inv filed head).mpr
            ⟨by rw [first, isHead], fun _ => ⟨flag, headLocal⟩⟩
          obtain ⟨_, marked⟩ := installs' head
            ⟨job, List.mem_flatMap.mpr ⟨m, member, isJob⟩, installsHead⟩
          obtain ⟨other, _, _, below, at_other, _⟩ := marked_here inv ofAnswer member isHead marked
          rw [Nat.le_zero.mp below, at_head] at at_other
          cases at_other
          exact isHead
    | false =>
        by_cases isLocal : (u.pkg item).type = .installed
        · -- Something removes the item, and only the head is removed.
          obtain ⟨job, isJob, removesItem⟩ := (removes item).mpr
            ⟨isLocal, m, member, by rw [first, at_head], flag⟩
          obtain ⟨other, otherMember, isOther⟩ := List.mem_flatMap.mp isJob
          have otherFiled := ofAnswer.filed other otherMember
          obtain ⟨otherHead, _⟩ := (mark_removes_iff inv otherFiled
            (ofAnswer.known other otherMember) item).mp ⟨job, isOther, removesItem⟩
          have same := entry_of_item inv otherFiled filed (List.mem_of_getElem? otherHead)
            (mem_sorted_of_printed at_head)
          left
          rw [Mark.sortedItems, ← same]
          exact otherHead
        · exact Or.inr ⟨rfl, isLocal⟩

/-- The item of a mark, and whether it stands in its place. -/
theorem MarksFit.place (fits : MarksFit u marks) (ofAnswer : MarksOf u marks) {m : Mark}
    (member : m ∈ marks) : ∃ item, (m.printed u)[m.place]? = some item ∧
      ((m.sortedItems u)[m.place]? = some item ∨
        m.place = 0 ∧ m.installed = false ∧ (u.pkg item).type ≠ .installed) := by
  obtain ⟨item, at_place⟩ : ∃ item, (m.printed u)[m.place]? = some item :=
    ⟨_, List.getElem?_eq_getElem (ofAnswer.known m member)⟩
  refine ⟨item, at_place, ?_⟩
  by_cases behind : m.place = 0
  · rw [behind] at at_place ⊢
    rcases fits.first m member behind item at_place with inPlace | ⟨flag, remote⟩
    · exact Or.inl inPlace
    · exact Or.inr ⟨rfl, flag, remote⟩
  · exact Or.inl (fits.upgrades m member behind item at_place).2.2.1

theorem installs_of_fit (inv : u.Chained) (ofAnswer : MarksOf u marks) (fits : MarksFit u marks)
    (item : Addr) : (∃ job ∈ marks.flatMap (Mark.jobs u), job.Installs item) ↔
      (u.pkg item).type ≠ .installed ∧ MarkedAs u marks true item := by
  constructor
  · rintro ⟨job, isJob, installsItem⟩
    obtain ⟨m, member, isOfMark⟩ := List.mem_flatMap.mp isJob
    obtain ⟨chosen, condition⟩ := (mark_installs_iff inv (ofAnswer.filed m member) item).mp
      ⟨job, isOfMark, installsItem⟩
    obtain ⟨other, at_place, inPlace | ⟨first, flag, _⟩⟩ := fits.place ofAnswer member
    · rw [chosen] at inPlace
      cases inPlace
      by_cases behind : m.place = 0
      · obtain ⟨flag, remote⟩ := condition behind
        exact ⟨remote, m, member, at_place, flag⟩
      · obtain ⟨flag, remote, _⟩ := fits.upgrades m member behind item at_place
        exact ⟨remote, m, member, at_place, flag⟩
    · rw [(condition first).1] at flag
      cases flag
  · rintro ⟨remote, m, member, at_place, flag⟩
    obtain ⟨other, at_other, inPlace | ⟨_, notFlag, _⟩⟩ := fits.place ofAnswer member
    · rw [at_place] at at_other
      cases at_other
      obtain ⟨job, isJob, installsItem⟩ :=
        (mark_installs_iff inv (ofAnswer.filed m member) item).mpr
          ⟨inPlace, fun _ => ⟨flag, remote⟩⟩
      exact ⟨job, List.mem_flatMap.mpr ⟨m, member, isJob⟩, installsItem⟩
    · rw [flag] at notFlag
      cases notFlag

theorem removes_of_fit (inv : u.Chained) (ofAnswer : MarksOf u marks) (fits : MarksFit u marks)
    (item : Addr) : (∃ job ∈ marks.flatMap (Mark.jobs u), job.Removes item) ↔
      (u.pkg item).type = .installed ∧ MarkedAs u marks false item := by
  constructor
  · rintro ⟨job, isJob, removesItem⟩
    obtain ⟨m, member, isOfMark⟩ := List.mem_flatMap.mp isJob
    have filed := ofAnswer.filed m member
    obtain ⟨atHead, condition⟩ := (mark_removes_iff inv filed (ofAnswer.known m member) item).mp
      ⟨job, isOfMark, removesItem⟩
    by_cases first : m.place = 0
    · obtain ⟨flag, isLocal⟩ := condition first
      exact ⟨isLocal, m, member, by rw [first]; exact head_installed inv filed atHead isLocal, flag⟩
    · obtain ⟨other, at_place⟩ : ∃ item, (m.printed u)[m.place]? = some item :=
        ⟨_, List.getElem?_eq_getElem (ofAnswer.known m member)⟩
      obtain ⟨_, _, inPlace, old, isPrinted, isLocal, marked⟩ :=
        fits.upgrades m member first other at_place
      -- The mark of `old` is for version 1, so `old` is the head.
      have isHead : (m.sortedItems u)[0]? = some old := by
        obtain ⟨k, at_k⟩ := List.mem_iff_getElem?.mp (mem_sorted_of_printed isPrinted)
        obtain ⟨headMark, headMember, sameEntry, _, at_head, _⟩ :=
          marked_here inv ofAnswer member at_k marked
        have printedNodup := (printed_sublist m).nodup (sortedItems_nodup inv filed)
        have isFirst : headMark.place = 0 :=
          (List.getElem?_inj (List.getElem?_eq_some_iff.mp at_head).1 printedNodup).mp
            (at_head.trans isPrinted.symm)
        rw [Mark.printed, ← sameEntry] at isPrinted
        rw [Mark.sortedItems, ← sameEntry]
        rcases fits.first headMark headMember isFirst old isPrinted with inPlace | ⟨_, remote⟩
        · exact inPlace
        · exact absurd isLocal remote
      rw [atHead] at isHead
      cases isHead
      exact ⟨isLocal, marked⟩
  · rintro ⟨isLocal, m, member, at_place, flag⟩
    obtain ⟨other, at_other, inPlace | ⟨_, _, remote⟩⟩ := fits.place ofAnswer member
    · rw [at_place] at at_other
      cases at_other
      have first : m.place = 0 := by
        by_contra behind
        obtain ⟨isTrue, _⟩ := fits.upgrades m member behind item at_place
        rw [flag] at isTrue
        cases isTrue
      obtain ⟨job, isJob, removesItem⟩ := (mark_removes_iff inv (ofAnswer.filed m member)
        (ofAnswer.known m member) item).mpr ⟨by rw [← first]; exact inPlace, fun _ => ⟨flag, isLocal⟩⟩
      exact ⟨job, List.mem_flatMap.mpr ⟨m, member, isJob⟩, removesItem⟩
    · rw [at_place] at at_other
      cases at_other
      exact absurd isLocal remote

/-- A chain whose marks are as the items are gets no job. -/
theorem unchanged_of_fit (inv : u.Chained) (ofAnswer : MarksOf u marks) (fits : MarksFit u marks)
    {m : Mark} (member : m ∈ marks) (unchanged : ∀ item, (m.printed u)[m.place]? = some item →
      (m.installed = true ↔ (u.pkg item).type = .installed)) : m.jobs u = [] := by
  have filed := ofAnswer.filed m member
  rw [List.eq_nil_iff_forall_not_mem]
  intro job isJob
  obtain ⟨item, at_place, inPlace | ⟨first, flag, remote⟩⟩ := fits.place ofAnswer member
  · have same := unchanged item at_place
    obtain ⟨selected, chosen, ⟨_, flag, remote, _⟩ | ⟨_, flag, isLocal, _⟩ | ⟨behind, _⟩⟩ :=
      (mem_jobs_iff inv filed job).mp isJob
    · rw [inPlace] at chosen
      cases chosen
      exact remote (same.mp flag)
    · rw [inPlace] at chosen
      cases chosen
      rw [same.mpr isLocal] at flag
      cases flag
    · obtain ⟨flag, remote, _⟩ := fits.upgrades m member behind item at_place
      exact remote (same.mp flag)
  · obtain ⟨selected, chosen, ⟨_, isTrue, _⟩ | ⟨_, _, isLocal, _⟩ | ⟨behind, _⟩⟩ :=
      (mem_jobs_iff inv filed job).mp isJob
    · rw [flag] at isTrue
      cases isTrue
    · rw [first] at chosen at_place
      have printedHead := head_installed inv filed chosen isLocal
      rw [at_place] at printedHead
      cases printedHead
      exact remote isLocal
    · exact behind first

end Marks

/-! ## From the text to its marks -/

section Text

variable {u : JobsUniverse} {type : JobsType} {add delete : CudfRequests} {file : List Char}

theorem lists_unique {e : CudfEntry} {uid other : Uid} {n k : Nat} (first : e.Lists uid n)
    (second : e.Lists other k) : uid = other ∧ n = k := by
  obtain ⟨firstUid, firstNumber⟩ := first
  obtain ⟨secondUid, secondNumber⟩ := second
  rw [firstUid, Option.some.injEq] at secondUid
  rw [firstNumber, Option.some.injEq] at secondNumber
  exact ⟨secondUid, by omega⟩

theorem exists_forall₂ {α β : Type} {R : α → β → Prop} : ∀ {as : List α},
    (∀ a ∈ as, ∃ b, R a b) → ∃ bs, List.Forall₂ R as bs
  | [], _ => ⟨[], .nil⟩
  | a :: as, each => by
      obtain ⟨b, related⟩ := each a (List.mem_cons_self ..)
      obtain ⟨bs, rest⟩ := exists_forall₂ fun other member =>
        each other (List.mem_cons_of_mem _ member)
      exact ⟨b :: bs, .cons related rest⟩

theorem pairwise_of_forall₂ {α β : Type} {R : α → β → Prop} {P : α → α → Prop}
    {Q : β → β → Prop} {as : List α} {bs : List β} (related : List.Forall₂ R as bs)
    (carries : ∀ a b c d, R a b → R c d → P a c → Q b d) (pairwise : as.Pairwise P) :
    bs.Pairwise Q := by
  induction related with
  | nil => exact .nil
  | cons here rest ih =>
      obtain ⟨first, later⟩ := List.pairwise_cons.mp pairwise
      refine List.pairwise_cons.mpr ⟨fun d member => ?_, ih later⟩
      obtain ⟨c, inAs, isRelated⟩ := (forall₂_mem rest).2 d member
      exact carries _ _ _ _ here isRelated (first c inAs)

theorem entry_of_uid (inv : u.Chained) {entry other : Uid × Addr} (member : entry ∈ u.items)
    (otherMember : other ∈ u.items) (same : entry.1 = other.1) : entry = other := by
  have first := (HashTable.find_eq_some_iff inv.keysNodup).mpr member
  have second := (HashTable.find_eq_some_iff inv.keysNodup).mpr otherMember
  rw [same, second] at first
  exact Prod.ext same (Option.some.inj first).symm

variable (inv : u.Chained)
  (answer : CudfAnswer u (pkgJobsCudfEmitFile u nothingDropped type add delete) file)

include inv answer

/-- Every stanza of an answer has its mark. -/
theorem marks_of_answer : ∃ marks, List.Forall₂ (fun stanza m => Mark.Of u stanza m)
    (answerStanzas file) marks ∧ MarksOf u marks := by
  have hasMark : ∀ stanza ∈ answerStanzas file, ∃ m, Mark.Of u stanza m := by
    intro stanza member
    obtain ⟨uid, n, item, lists, prints⟩ := answer.listed stanza member
    obtain ⟨entry, entryMember, rfl⟩ := prints_entry inv prints
    obtain ⟨k, at_k, rfl⟩ := (prints_iff inv entryMember type add delete n item).mp prints
    exact ⟨⟨entry, k, stanza.entry.installed⟩, entryMember, lists, rfl,
      (List.getElem?_eq_some_iff.mp at_k).1⟩
  obtain ⟨marks, areMarks⟩ := exists_forall₂ hasMark
  have ofStanza := (forall₂_mem areMarks).2
  refine ⟨marks, areMarks, ?_, ?_, ?_⟩
  · intro m member
    obtain ⟨_, _, isMark⟩ := ofStanza m member
    exact isMark.filed
  · intro m member
    obtain ⟨_, _, isMark⟩ := ofStanza m member
    exact isMark.known
  · have apart : marks.Pairwise fun m other => ¬(m.entry = other.entry ∧ m.place = other.place) := by
      refine pairwise_of_forall₂ areMarks ?_ answer.once
      intro stanza m other k isMark isOther once same
      refine once _ _ isMark.lists ?_
      rw [same.1, same.2]
      exact isOther.lists
    have symm : Std.Symm fun m other : Mark =>
        ¬(m.entry = other.entry ∧ m.place = other.place) :=
      ⟨fun _ _ differ same => differ ⟨same.1.symm, same.2.symm⟩⟩
    intro m member other otherMember sameEntry samePlace
    by_cases same : m = other
    · rw [same]
    · exact absurd ⟨sameEntry, samePlace⟩ (apart.forall member otherMember same)

omit answer in
theorem markedAs_iff {marks : List Mark}
    (areMarks : List.Forall₂ (fun stanza m => Mark.Of u stanza m) (answerStanzas file) marks)
    (installed : Bool) (item : Addr) :
    MarksAs u (pkgJobsCudfEmitFile u nothingDropped type add delete) file installed item ↔
      MarkedAs u marks installed item := by
  obtain ⟨hasMark, hasStanza⟩ := forall₂_mem areMarks
  constructor
  · rintro ⟨stanza, isStanza, uid, n, lists, prints, flag⟩
    obtain ⟨m, member, isMark⟩ := hasMark stanza isStanza
    obtain ⟨rfl, rfl⟩ := lists_unique lists isMark.lists
    obtain ⟨k, at_k, number⟩ := (prints_iff inv isMark.filed type add delete _ item).mp prints
    obtain rfl : m.place = k := by omega
    exact ⟨m, member, at_k, isMark.isInstalled.symm.trans flag⟩
  · rintro ⟨m, member, at_place, flag⟩
    obtain ⟨stanza, isStanza, isMark⟩ := hasStanza m member
    exact ⟨stanza, isStanza, m.entry.1, m.place + 1, isMark.lists,
      (prints_iff inv isMark.filed type add delete _ item).mpr ⟨m.place, at_place, rfl⟩,
      isMark.isInstalled.trans flag⟩

omit answer in
theorem answerFits_iff {marks : List Mark}
    (areMarks : List.Forall₂ (fun stanza m => Mark.Of u stanza m) (answerStanzas file) marks) :
    AnswerFits u (pkgJobsCudfEmitFile u nothingDropped type add delete) file ↔
      MarksFit u marks := by
  obtain ⟨hasMark, hasStanza⟩ := forall₂_mem areMarks
  have marked := @markedAs_iff u type add delete file inv marks areMarks
  constructor
  · intro fits
    constructor
    · intro m member behind item at_place
      obtain ⟨stanza, isStanza, isMark⟩ := hasStanza m member
      obtain ⟨flag, remote, nothing, old, isPrinted, isLocal, oldMarked⟩ :=
        fits.upgrades stanza isStanza m.entry isMark.filed _ item isMark.lists
          ((prints_iff inv isMark.filed type add delete _ item).mpr ⟨m.place, at_place, rfl⟩)
          (by omega)
      obtain ⟨k, at_k, number⟩ := (prints_iff inv isMark.filed type add delete 1 old).mp isPrinted
      obtain rfl : k = 0 := by omega
      exact ⟨isMark.isInstalled.symm.trans flag, remote,
        (place_iff inv isMark.filed at_place).mpr nothing, old, at_k, isLocal,
        (marked false old).mp oldMarked⟩
    · intro m member first item at_head
      obtain ⟨stanza, isStanza, isMark⟩ := hasStanza m member
      have lists := isMark.lists
      rw [first] at lists
      rcases fits.first stanza isStanza m.entry isMark.filed item lists
        ((prints_iff inv isMark.filed type add delete 1 item).mpr ⟨0, at_head, rfl⟩) with
        nothing | ⟨flag, remote⟩
      · exact Or.inl ((place_iff inv isMark.filed at_head).mpr nothing)
      · exact Or.inr ⟨isMark.isInstalled.symm.trans flag, remote⟩
  · intro fits
    constructor
    · intro stanza isStanza entry entryMember n item lists prints large
      obtain ⟨m, member, isMark⟩ := hasMark stanza isStanza
      obtain ⟨sameUid, rfl⟩ := lists_unique lists isMark.lists
      obtain rfl := entry_of_uid inv entryMember isMark.filed sameUid
      obtain ⟨k, at_k, number⟩ := (prints_iff inv isMark.filed type add delete _ item).mp prints
      obtain rfl : m.place = k := by omega
      obtain ⟨flag, remote, inPlace, old, at_head, isLocal, oldMarked⟩ :=
        fits.upgrades m member (by omega) item at_k
      exact ⟨isMark.isInstalled.trans flag, remote,
        (place_iff inv isMark.filed at_k).mp inPlace, old,
        (prints_iff inv isMark.filed type add delete 1 old).mpr ⟨0, at_head, rfl⟩, isLocal,
        (marked false old).mpr oldMarked⟩
    · intro stanza isStanza entry entryMember item lists prints
      obtain ⟨m, member, isMark⟩ := hasMark stanza isStanza
      obtain ⟨sameUid, number⟩ := lists_unique lists isMark.lists
      obtain rfl := entry_of_uid inv entryMember isMark.filed sameUid
      obtain ⟨k, at_k, place⟩ := (prints_iff inv isMark.filed type add delete 1 item).mp prints
      obtain rfl : k = 0 := by omega
      rcases fits.first m member (by omega) item at_k with inPlace | ⟨flag, remote⟩
      · exact Or.inl ((place_iff inv isMark.filed at_k).mp inPlace)
      · exact Or.inr ⟨isMark.isInstalled.trans flag, remote⟩

end Text

/-- The jobs made from an answer realise it exactly if the answer fits the chains. -/
theorem answerRealised_iff (u : JobsUniverse) (inv : u.Chained) (type : JobsType)
    (add delete : CudfRequests) (j : CudfJobs) (univ : j.univ = sortedUniverse u)
    (file : List Char)
    (answer : CudfAnswer u (pkgJobsCudfEmitFile u nothingDropped type add delete) file) :
    AnswerRealised u (pkgJobsCudfEmitFile u nothingDropped type add delete) file j ↔
      AnswerFits u (pkgJobsCudfEmitFile u nothingDropped type add delete) file := by
  obtain ⟨marks, areMarks, ofAnswer⟩ := marks_of_answer inv answer
  obtain ⟨after, run, jobsEq⟩ := parse_marks inv areMarks univ answer.plain answer.values
  have marked := @markedAs_iff u type add delete file inv marks areMarks
  rw [answerFits_iff inv areMarks]
  constructor
  · rintro ⟨other, jobs, sameRun, sameJobs, realises⟩
    rw [run] at sameRun
    cases sameRun
    obtain rfl := List.append_cancel_left (sameJobs.symm.trans jobsEq)
    refine marksFit_of_realised inv ofAnswer ?_ ?_
    · intro item
      rw [← marked true item]
      exact realises.installs item
    · intro item
      rw [← marked false item]
      exact realises.removes item
  · intro fits
    refine ⟨after, _, run, jobsEq, ?_, ?_, ?_⟩
    · intro item
      rw [marked true item]
      exact installs_of_fit inv ofAnswer fits item
    · intro item
      rw [marked false item]
      exact removes_of_fit inv ofAnswer fits item
    · intro uid unchanged job isJob item inJob isUid
      obtain ⟨m, member, isOfMark⟩ := List.mem_flatMap.mp isJob
      have filed := ofAnswer.filed m member
      have entryUid : m.entry.1 = uid :=
        (inv.homogeneous m.entry filed item (mem_sortedItems.mp (mark_units inv filed isOfMark
          inJob))).symm.trans isUid
      have none := unchanged_of_fit inv ofAnswer fits member fun other at_place => by
        refine unchanged other m.installed ?_ ((marked _ other).mpr ⟨m, member, at_place, rfl⟩)
        exact (inv.homogeneous m.entry filed other
          (mem_sortedItems.mp (mem_sorted_of_printed at_place))).trans entryUid
      rw [none] at isOfMark
      cases isOfMark

section Samples

def plainRequests : CudfRequests := ⟨[], fun _ => false⟩

def olderAndNewerDocument : CudfDocument :=
  pkgJobsCudfEmitFile olderAndNewer nothingDropped .upgrade plainRequests plainRequests

/-- The two packages of `olderAndNewer`, each listed as installed or not. -/
def answerText (older newer : String) : List Char :=
  ("package: app\nversion: 1\ninstalled: " ++ older ++
    "\n\npackage: app\nversion: 2\ninstalled: " ++ newer ++ "\n\n").toList

theorem olderAndNewer_chained : olderAndNewer.Chained :=
  (JobsUniverse.repInv_ofPackages Pkg.digest _).toChained

def answerStanza (version installed : String) : CudfStanza where
  head := "package: app\n".toList
  body := [("version: " ++ version ++ "\n").toList, ("installed: " ++ installed ++ "\n").toList,
    ['\n']]

theorem olderAndNewer_prints (n : Nat) (item : Addr) :
    olderAndNewerDocument.Prints olderAndNewer "app" n item ↔
      n = 1 ∧ item = 0 ∨ n = 2 ∧ item = 1 := by
  have member : ("app", 0) ∈ olderAndNewer.items := by decide +kernel
  have items : printedItems olderAndNewer (olderAndNewer.chain 0) = [0, 1] := by decide +kernel
  rw [olderAndNewerDocument, prints_iff olderAndNewer_chained member, items]
  constructor
  · rintro ⟨k, at_k, rfl⟩
    match k with
    | 0 => simpa using at_k.symm
    | 1 => simpa using at_k.symm
    | k + 2 => simp at at_k
  · rintro (⟨rfl, rfl⟩ | ⟨rfl, rfl⟩)
    · exact ⟨0, rfl, rfl⟩
    · exact ⟨1, rfl, rfl⟩

theorem answerText_answer {older newer : String} (plain : ∀ line ∈ preamble
      ((getlines (answerText older newer)).map uptoNul), isFieldLine line = false)
    (areStanzas : answerStanzas (answerText older newer) =
      [answerStanza "1" older, answerStanza "2" newer])
    (values : ∀ stanza ∈ [answerStanza "1" older, answerStanza "2" newer], stanza.HasValues)
    (first : (answerStanza "1" older).entry.Lists "app" 1)
    (second : (answerStanza "2" newer).entry.Lists "app" 2) :
    CudfAnswer olderAndNewer olderAndNewerDocument (answerText older newer) where
  plain := plain
  values := by rwa [areStanzas]
  listed := by
    rw [areStanzas]
    intro stanza member
    rcases List.mem_pair.mp member with rfl | rfl
    · exact ⟨"app", 1, 0, first, (olderAndNewer_prints 1 0).mpr (Or.inl ⟨rfl, rfl⟩)⟩
    · exact ⟨"app", 2, 1, second, (olderAndNewer_prints 2 1).mpr (Or.inr ⟨rfl, rfl⟩)⟩
  once := by
    rw [areStanzas, List.pairwise_pair]
    intro uid n lists other
    have one := (lists_unique lists first).2
    have two := (lists_unique other second).2
    omega

theorem upgradeAnswer_answer :
    CudfAnswer olderAndNewer olderAndNewerDocument (answerText "false" "true") :=
  answerText_answer (by decide +kernel) (by decide +kernel) (by decide +kernel)
    (by decide +kernel) (by decide +kernel)

/-- The older package is listed as not installed, the newer one as installed. -/
theorem upgradeAnswer_realised : AnswerRealised olderAndNewer olderAndNewerDocument
    (answerText "false" "true") { univ := sortedUniverse olderAndNewer } := by
  refine (answerRealised_iff olderAndNewer olderAndNewer_chained .upgrade plainRequests
    plainRequests _ rfl _ upgradeAnswer_answer).mpr ?_
  have areStanzas : answerStanzas (answerText "false" "true") =
      [answerStanza "1" "false", answerStanza "2" "true"] := by decide +kernel
  have first : (answerStanza "1" "false").entry.Lists "app" 1 := by decide +kernel
  have second : (answerStanza "2" "true").entry.Lists "app" 2 := by decide +kernel
  have only : ∀ entry ∈ olderAndNewer.items, entry = ("app", 0) := by decide +kernel
  have nothing : ∀ entry ∈ olderAndNewer.items, ∀ item,
      NothingIgnoredBefore olderAndNewer (olderAndNewer.chain entry.2) item := by
    intro entry member item other _ _ ignored
    rw [only entry member] at ignored
    exact absurd ignored (not_ignored_of_versions (by decide +kernel) other)
  constructor
  · rw [areStanzas]
    intro stanza member entry entryMember n item lists prints large
    rw [only entry entryMember] at lists prints
    rcases List.mem_pair.mp member with rfl | rfl
    · have one := (lists_unique lists first).2
      omega
    · obtain rfl := (lists_unique lists second).2
      rcases (olderAndNewer_prints 2 item).mp prints with ⟨impossible, _⟩ | ⟨_, rfl⟩
      · cases impossible
      · have old : olderAndNewerDocument.Prints olderAndNewer "app" 1 0 :=
          (olderAndNewer_prints 1 0).mpr (Or.inl ⟨rfl, rfl⟩)
        refine ⟨by decide +kernel, by decide +kernel, nothing entry entryMember 1, 0, ?_,
          by decide +kernel, answerStanza "1" "false", ?_, "app", 1, first, old,
          by decide +kernel⟩
        · rw [only entry entryMember]
          exact old
        · rw [areStanzas]
          exact List.mem_cons_self ..
  · intro stanza _ entry entryMember item _ _
    exact Or.inl (nothing entry entryMember item)

/-- The older package is listed as installed, the newer one as not installed; the job is an
upgrade all the same. -/
theorem keepAnswer_upgrades :
    CudfAnswer olderAndNewer olderAndNewerDocument (answerText "true" "false") ∧
      ¬AnswerRealised olderAndNewer olderAndNewerDocument (answerText "true" "false")
        { univ := sortedUniverse olderAndNewer } := by
  refine ⟨answerText_answer (by decide +kernel) (by decide +kernel) (by decide +kernel)
    (by decide +kernel) (by decide +kernel), ?_⟩
  rintro ⟨after, jobs, run, jobsEq, realises⟩
  have added : (match pkgJobsCudfParseOutput { univ := sortedUniverse olderAndNewer }
      (answerText "true" "false") with
      | .returned _ after => after.jobs
      | .fault => []) = [⟨1, some 0, .upgrade, false⟩] := by decide +kernel
  rw [run] at added
  have upgrades : (⟨1, some 0, .upgrade, false⟩ : Solved) ∈ jobs := by
    have onlyJob : jobs = [⟨1, some 0, .upgrade, false⟩] := jobsEq.symm.trans added
    rw [onlyJob]
    exact List.mem_cons_self ..
  obtain ⟨_, stanza, member, uid, n, lists, prints, flag⟩ :=
    (realises.installs 1).mp ⟨_, upgrades, rfl, Or.inr rfl⟩
  have areStanzas : answerStanzas (answerText "true" "false") =
      [answerStanza "1" "true", answerStanza "2" "false"] := by decide +kernel
  rw [areStanzas] at member
  rcases List.mem_pair.mp member with rfl | rfl
  · -- The stanza that lists something as installed lists version 1.
    obtain ⟨rfl, rfl⟩ := lists_unique lists
      (show (answerStanza "1" "true").entry.Lists "app" 1 by decide +kernel)
    rcases (olderAndNewer_prints 1 1).mp prints with ⟨_, impossible⟩ | ⟨impossible, _⟩ <;>
      cases impossible
  · have notFlag : (answerStanza "2" "false").entry.installed = false := by decide +kernel
    rw [notFlag] at flag
    cases flag

end Samples

end Pkgng
