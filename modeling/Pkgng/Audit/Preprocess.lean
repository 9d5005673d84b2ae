import Pkgng.Audit.Search

/-!
# The array of the vulnerability search

`pkg_audit_preprocess` allocates a zeroed place more than there are entries, and its loops stop
at the first place without an entry.  Every place that they look at is in the array, but for the
loop that starts at the second place of an array that has one.
-/

set_option autoImplicit false

namespace Pkgng

open Lib

/-- The places of `ret`; one without an entry is zeroed. -/
abbrev AuditArray := List (Option AuditItem)

namespace AuditArray

/-- The loop that stores the entries with a name. -/
def store : List AuditEntry → Nat → AuditArray → Option (AuditArray × Nat)
  | [], n, ret => some (ret, n)
  | e :: rest, n, ret =>
      match e.pkgname with
      | none => store rest n ret
      | some name =>
          if n < ret.length then
            store rest (n + 1) (ret.set n
              (some { e := e, pkgname := name, noglobLen := pkgAuditStrNoglobLen name }))
          else none

/-- `qsort(ret, n, sizeof(*ret), pkg_audit_entry_cmp)`. -/
def sortFirst (qsort : List AuditItem → List AuditItem) (n : Nat) (ret : AuditArray) :
    AuditArray :=
  (qsort ((ret.take n).filterMap id)).map some ++ ret.drop n

/-- The loop `for (i = 0; tofill > 1; i++, tofill--)`, with `base + i` for `place`. -/
def fill (place : Nat) : Nat → AuditArray → Option AuditArray
  | tofill + 2, ret =>
      match ret[place]? with
      | some (some item) =>
          fill (place + 1) (tofill + 1)
            (ret.set place (some { item with nextPfxIncr := tofill + 2 }))
      | _ => none
  | _, ret => some ret

/-- The loop `for (n = 1, tofill = 0; ret[n].e; n++)`. -/
def jumpIndexes : Nat → Nat → Nat → AuditArray → Option AuditArray
  | 0, _, _, _ => none
  | fuel + 1, n, tofill, ret =>
      match ret[n]? with
      | none => none
      | some none => some ret
      | some (some cur) =>
          match ret[n - 1]? with
          | some (some prev) =>
              if prev.noglobLen ≠ cur.noglobLen then
                -- `base` points into the array.
                if n < tofill then none
                else
                  match fill (n - tofill) tofill ret with
                  | none => none
                  | some ret => jumpIndexes fuel (n + 1) 1 ret
              else if strcmp prev.pkgname cur.pkgname = 0 then
                jumpIndexes fuel (n + 1) (tofill + 1) ret
              else jumpIndexes fuel (n + 1) 1 ret
          | _ => none

/-- The inner loop of the last one, which moves `i` on. -/
def skip (ret : AuditArray) (n : Nat) : Nat → Nat → Option Nat
  | 0, _ => none
  | fuel + 1, i =>
      match ret[i]? with
      | none => none
      | some none => some i
      | some (some item) =>
          if firstByte item.pkgname < n then skip ret n fuel (i + 1) else some i

/-- `audit_entry_first_byte_idx` from `n` on, with the turns left. -/
def firstByteIdx (ret : AuditArray) : Nat → Nat → Nat → Option (List Nat)
  | 0, _, _ => some []
  | left + 1, n, i =>
      match skip ret n (ret.length + 1) i with
      | none => none
      | some i => (firstByteIdx ret left (n + 1) i).map (i :: ·)

end AuditArray

/-- `pkg_audit_preprocess`, with `audit_entry_first_byte_idx`; no result where a place outside of
the array is read or written. -/
def pkgAuditPreprocessIn (qsort : List AuditItem → List AuditItem) (h : List AuditEntry) :
    Option (AuditArray × List Nat) := do
  let ret : AuditArray := List.replicate (h.length + 1) none
  let (ret, n) ← ret.store h 0
  let ret ← (ret.sortFirst qsort n).jumpIndexes (h.length + 1) 1 0
  let idx ← ret.firstByteIdx 255 1 0
  pure (ret, 0 :: idx)

/-! ## The loops over the places in use -/

/-- An array whose places in use are the items. -/
def arrayOf (items : List AuditItem) (free : Nat) : AuditArray :=
  items.map some ++ List.replicate free none

section Loops

variable {items : List AuditItem} {free : Nat}

@[simp] theorem length_arrayOf : (arrayOf items free).length = items.length + free := by
  simp [arrayOf]

theorem getElem?_arrayOf {i : Nat} {a : AuditItem} (here : items[i]? = some a) :
    (arrayOf items free)[i]? = some (some a) := by
  have inside := (List.getElem?_eq_some_iff.mp here).1
  rw [arrayOf, List.getElem?_append_left (by simpa using inside), List.getElem?_map, here]
  rfl

theorem getElem?_arrayOf_end {n : Nat} (behind : items.length ≤ n)
    (inside : n < items.length + free) : (arrayOf items free)[n]? = some none := by
  rw [arrayOf, List.getElem?_append_right (by simpa using behind), List.getElem?_replicate]
  rw [if_pos (by rw [List.length_map]; omega)]

theorem set_arrayOf {i : Nat} {a : AuditItem} (f : AuditItem → AuditItem)
    (here : items[i]? = some a) :
    (arrayOf items free).set i (some (f a)) = arrayOf (items.modify i f) free := by
  have inside := (List.getElem?_eq_some_iff.mp here).1
  rw [arrayOf, arrayOf, List.set_append_left _ _ (by simpa using inside)]
  congr 1
  refine List.ext_getElem? fun j => ?_
  rw [List.getElem?_set, List.getElem?_map, List.getElem?_map, List.getElem?_modify]
  by_cases same : i = j
  · subst same
    rw [here]
    simp [inside]
  · simp [same]

/-- The last item of a run is not filled, and none behind it. -/
theorem drop_fillIncrs {base tofill n : Nat} {ret : List AuditItem} (behind : base + tofill ≤ n) :
    (fillIncrs base tofill ret).drop n = ret.drop n := by
  fun_induction fillIncrs base tofill ret with
  | case1 base tofill ret ih =>
      rw [ih (by omega)]
      refine List.ext_getElem? fun j => ?_
      have before : ¬ base = n + j := by omega
      rw [List.getElem?_drop, List.getElem?_drop, List.getElem?_modify]
      simp [before]
  | case2 => rfl

theorem fill_arrayOf {base tofill : Nat} (inside : base + tofill ≤ items.length) :
    AuditArray.fill base tofill (arrayOf items free) =
      some (arrayOf (fillIncrs base tofill items) free) := by
  fun_induction fillIncrs base tofill items with
  | case1 base tofill items ih =>
      obtain ⟨item, here⟩ : ∃ item, items[base]? = some item :=
        ⟨_, List.getElem?_eq_getElem (by omega)⟩
      rw [AuditArray.fill, getElem?_arrayOf here]
      dsimp only
      rw [set_arrayOf (fun item => { item with nextPfxIncr := tofill + 2 }) here]
      exact ih (by rw [List.length_modify]; omega)
  | case2 tofill base items small =>
      cases tofill with
      | zero => rfl
      | succ tofill =>
          cases tofill with
          | zero => rfl
          | succ tofill => exact (small tofill rfl).elim

/-- From the second place on, the loop does with the array what `nextPfxIncrs` does with the
items.  The induction is on the items left. -/
theorem jumpIndexes_arrayOf (room : 0 < free) {fuel n tofill : Nat} {prev : AuditItem}
    {rest : List AuditItem} (left : items.drop n = prev :: rest) (within : tofill ≤ n + 1)
    (enough : rest.length < fuel) :
    AuditArray.jumpIndexes fuel (n + 1) tofill (arrayOf items free) =
      some (arrayOf (nextPfxIncrs items (n + 1) tofill prev rest) free) := by
  induction rest generalizing items fuel n tofill prev with
  | nil =>
      obtain ⟨fuel, rfl⟩ : ∃ later, fuel = later + 1 := ⟨fuel - 1, by simp at enough; omega⟩
      have count := congrArg List.length left
      simp only [List.length_drop, List.length_singleton] at count
      rw [AuditArray.jumpIndexes, getElem?_arrayOf_end (by omega) (by omega)]
      rfl
  | cons cur rest ih =>
      rw [List.length_cons] at enough
      obtain ⟨fuel, rfl⟩ : ∃ later, fuel = later + 1 := ⟨fuel - 1, by omega⟩
      have isPrev : items[n]? = some prev := by
        rw [← List.head?_drop, left]
        rfl
      have later : items.drop (n + 1) = cur :: rest := by
        rw [← List.tail_drop, left]
        rfl
      have isCur : items[n + 1]? = some cur := by
        rw [← List.head?_drop, later]
        rfl
      have inside := (List.getElem?_eq_some_iff.mp isCur).1
      rw [AuditArray.jumpIndexes, getElem?_arrayOf isCur, Nat.add_sub_cancel,
        getElem?_arrayOf isPrev, nextPfxIncrs]
      dsimp only
      by_cases differs : prev.noglobLen ≠ cur.noglobLen
      · have filled := @drop_fillIncrs (n + 1 - tofill) tofill (n + 1) items (by omega)
        rw [if_pos differs, if_pos differs, if_neg (by omega), fill_arrayOf (by omega)]
        exact ih (filled.trans later) (by omega) (by omega)
      · rw [if_neg differs, if_neg differs]
        by_cases same : strcmp prev.pkgname cur.pkgname = 0
        · rw [if_pos same, if_pos same]
          exact ih later (by omega) (by omega)
        · rw [if_neg same, if_neg same]
          exact ih later (by omega) (by omega)

theorem skip_arrayOf (room : 0 < free) {n i : Nat} {fuel : Nat} (reached : i ≤ items.length)
    (enough : items.length - i < fuel) :
    AuditArray.skip (arrayOf items free) n fuel i = some (skipBelow n (items.drop i) i) ∧
      skipBelow n (items.drop i) i ≤ items.length := by
  induction fuel generalizing i with
  | zero => omega
  | succ fuel ih =>
      rw [AuditArray.skip]
      rcases Nat.lt_or_eq_of_le reached with inside | rfl
      · rw [getElem?_arrayOf (List.getElem?_eq_getElem inside), List.drop_eq_getElem_cons inside,
          skipBelow]
        dsimp only
        by_cases below : firstByte items[i].pkgname < n
        · rw [if_pos below, if_pos below]
          exact ih inside (by omega)
        · rw [if_neg below, if_neg below]
          exact ⟨rfl, reached⟩
      · rw [getElem?_arrayOf_end (Nat.le_refl _) (by omega), List.drop_length]
        exact ⟨rfl, Nat.le_refl _⟩

/-- The table has the indices of `auditEntryFirstByteIdx`. -/
theorem firstByteIdx_arrayOf (room : 0 < free) (left n : Nat)
    (reached : auditEntryFirstByteIdx items n ≤ items.length) :
    AuditArray.firstByteIdx (arrayOf items free) left (n + 1) (auditEntryFirstByteIdx items n) =
      some ((List.range' (n + 1) left).map (auditEntryFirstByteIdx items)) := by
  induction left generalizing n with
  | zero => rfl
  | succ left ih =>
      obtain ⟨skips, inside⟩ := @skip_arrayOf items free room (n + 1) _
        ((arrayOf items free).length + 1) reached (by rw [length_arrayOf]; omega)
      rw [AuditArray.firstByteIdx, skips]
      dsimp only
      rw [← auditEntryFirstByteIdx] at inside ⊢
      rw [ih (n + 1) inside, List.range'_succ]
      rfl

end Loops

/-! ## The whole function -/

/-- The first free place is taken. -/
theorem set_arrayOf_free (items : List AuditItem) (free : Nat) (item : AuditItem) :
    (arrayOf items (free + 1)).set items.length (some item) = arrayOf (items ++ [item]) free := by
  rw [arrayOf, List.set_append_right _ _ (by simp)]
  simp [arrayOf, List.replicate_succ]

/-- The loop fills the places in the order of the entries. -/
theorem store_arrayOf (h : List AuditEntry) (items : List AuditItem) (free : Nat) :
    (auditItems h).length ≤ h.length ∧
      AuditArray.store h items.length (arrayOf items (h.length + free)) =
        some (arrayOf (items ++ auditItems h) (h.length - (auditItems h).length + free),
          (items ++ auditItems h).length) := by
  induction h generalizing items free with
  | nil => simp [AuditArray.store, auditItems]
  | cons e rest ih =>
      rw [AuditArray.store]
      cases named : e.pkgname with
      | none =>
          have skipped : auditItems (e :: rest) = auditItems rest := by
            simp [auditItems, named]
          obtain ⟨short, stored⟩ := ih items (free + 1)
          have room : (e :: rest).length + free = rest.length + (free + 1) := by
            rw [List.length_cons]
            omega
          have left : (e :: rest).length - (auditItems rest).length + free =
              rest.length - (auditItems rest).length + (free + 1) := by
            rw [List.length_cons]
            omega
          rw [skipped, room, left]
          exact ⟨Nat.le_succ_of_le short, stored⟩
      | some name =>
          let item : AuditItem :=
            { e := e, pkgname := name, noglobLen := pkgAuditStrNoglobLen name }
          have taken : auditItems (e :: rest) = item :: auditItems rest := by
            simp [auditItems, named, item]
          obtain ⟨short, stored⟩ := ih (items ++ [item]) free
          have room : (e :: rest).length + free = rest.length + free + 1 := by
            rw [List.length_cons]
            omega
          have inside : items.length < (arrayOf items (rest.length + free + 1)).length := by
            rw [length_arrayOf]
            omega
          rw [List.length_append, List.length_singleton, List.append_assoc, List.singleton_append]
            at stored
          rw [taken, room]
          dsimp only
          rw [if_pos inside, set_arrayOf_free, stored, List.length_cons, List.length_cons,
            Nat.succ_sub_succ]
          exact ⟨Nat.succ_le_succ short, rfl⟩

theorem sortFirst_arrayOf (qsort : List AuditItem → List AuditItem) (items : List AuditItem)
    (free : Nat) :
    AuditArray.sortFirst qsort items.length (arrayOf items free) = arrayOf (qsort items) free := by
  have first : (arrayOf items free).take items.length = items.map some := by
    rw [arrayOf, List.take_left' (by simp)]
  have behind : (arrayOf items free).drop items.length = List.replicate free none := by
    rw [arrayOf, List.drop_left' (by simp)]
  rw [AuditArray.sortFirst, first, behind, List.filterMap_map]
  simp [arrayOf]

/-- With an entry, the second place is in the array. -/
theorem jumpIndexes_sorted {h : List AuditEntry} {sorted : List AuditItem} {free : Nat}
    (nonempty : h ≠ []) (ones : ∀ item ∈ sorted, item.nextPfxIncr = 1)
    (whole : sorted.length + free = h.length + 1) (room : 0 < free) :
    ∃ items, pkgAuditPreprocess h sorted = some items ∧ items.length = sorted.length ∧
      AuditArray.jumpIndexes (h.length + 1) 1 0 (arrayOf sorted free) =
        some (arrayOf items free) := by
  have positive := List.length_pos_of_ne_nil nonempty
  cases sorted with
  | nil =>
      refine ⟨[], by rw [pkgAuditPreprocess, if_neg nonempty], rfl, ?_⟩
      rw [List.length_nil, Nat.zero_add] at whole
      rw [AuditArray.jumpIndexes, getElem?_arrayOf_end (Nat.zero_le 1) (by simp; omega)]
  | cons first rest =>
      have result : pkgAuditPreprocess h (first :: rest) =
          some (nextPfxIncrs (first :: rest) 1 0 first rest) := by
        rw [pkgAuditPreprocess, if_neg nonempty]
      have core := congrArg List.length (jumps_of_preprocess ones result).2
      rw [List.length_map, List.length_map] at core
      rw [List.length_cons] at whole
      exact ⟨_, result, core, @jumpIndexes_arrayOf (first :: rest) free room _ 0 0 first rest rfl
        (Nat.zero_le _) (by omega)⟩

/-- With an entry, the array holds the items of the search, and the table their indices. -/
theorem pkgAuditPreprocessIn_eq {qsort : List AuditItem → List AuditItem} {h : List AuditEntry}
    (nonempty : h ≠ [])
    (sorts : IsQsort pkgAuditEntryCmp (auditItems h) (qsort (auditItems h))) :
    ∃ items free, pkgAuditPreprocess h (qsort (auditItems h)) = some items ∧
      items.length + free = h.length + 1 ∧
      pkgAuditPreprocessIn qsort h =
        some (arrayOf items free, (List.range 256).map (auditEntryFirstByteIdx items)) := by
  obtain ⟨short, stored⟩ := store_arrayOf h [] 1
  have count : (qsort (auditItems h)).length = (auditItems h).length := sorts.perm.length_eq
  have ones : ∀ item ∈ qsort (auditItems h), item.nextPfxIncr = 1 := fun item member =>
    (auditItems_fits (sorts.perm.mem_iff.mp member)).2.2
  obtain ⟨items, result, sameLength, jumped⟩ := @jumpIndexes_sorted h _
    (h.length - (auditItems h).length + 1) nonempty ones (by omega) (Nat.succ_pos _)
  have indexed := @firstByteIdx_arrayOf items _ (Nat.succ_pos (h.length - (auditItems h).length))
    255 0 (Nat.zero_le _)
  have start : (List.replicate (h.length + 1) none : AuditArray) = arrayOf [] (h.length + 1) := rfl
  refine ⟨items, h.length - (auditItems h).length + 1, result, by omega, ?_⟩
  rw [List.nil_append, List.length_nil] at stored
  rw [auditEntryFirstByteIdx] at indexed
  rw [pkgAuditPreprocessIn, start, stored, Option.bind_eq_bind, Option.bind_some]
  dsimp only
  rw [sortFirst_arrayOf, jumped, Option.bind_eq_bind, Option.bind_some, indexed,
    List.range_eq_range', List.range'_succ]
  rfl

/-! ## What is prepared -/

/-- The items of the entries, sorted by what stands in front of the first glob character; from
each item its increment leads to an item, or to the end, and over items of its pattern only. -/
structure Prepared (h : List AuditEntry) (items : List AuditItem) : Prop where
  perm : (items.map AuditItem.core).Perm (auditItems h)
  ordered : items.Pairwise fun a b => strcmp a.noglob b.noglob ≤ 0
  incrs : ∀ (i : Nat) (a : AuditItem), items[i]? = some a →
    1 ≤ a.nextPfxIncr ∧ i + a.nextPfxIncr ≤ items.length ∧
      ∀ (j : Nat) (b : AuditItem), i ≤ j → j < i + a.nextPfxIncr → items[j]? = some b →
        b.pkgname = a.pkgname

/-- Whatever `qsort` makes of the items, the reads and writes stay in the array, and what it
holds is prepared for the search. -/
def PreprocessesSafely (h : List AuditEntry) : Prop :=
  ∀ qsort : List AuditItem → List AuditItem,
    IsQsort pkgAuditEntryCmp (auditItems h) (qsort (auditItems h)) →
      ∃ items free idx, items.length + free = h.length + 1 ∧
        pkgAuditPreprocessIn qsort h = some (arrayOf items free, idx) ∧ Prepared h items

theorem Jumps.incrs {items : List AuditItem} (jumps : Jumps items) {i : Nat} {a : AuditItem}
    (here : items[i]? = some a) :
    1 ≤ a.nextPfxIncr ∧ i + a.nextPfxIncr ≤ items.length ∧
      ∀ (j : Nat) (b : AuditItem), i ≤ j → j < i + a.nextPfxIncr → items[j]? = some b →
        b.pkgname = a.pkgname := by
  obtain ⟨positive, same⟩ := jumps i a here
  refine ⟨positive, ?_, fun j b behind inside isB => ?_⟩
  · have last := same (a.nextPfxIncr - 1) (by omega)
    have within := (List.getElem?_eq_some_iff.mp last).1
    rw [List.length_map] at within
    omega
  · have named := same (j - i) (by omega)
    rw [Nat.add_sub_of_le behind, List.getElem?_map, isB] at named
    exact Option.some.inj named

theorem prepared_of_preprocess {h : List AuditEntry} {sorted items : List AuditItem}
    (sorts : IsQsort pkgAuditEntryCmp (auditItems h) sorted)
    (result : pkgAuditPreprocess h sorted = some items) : Prepared h items := by
  obtain ⟨ready, core⟩ := searchReady_of_preprocess sorts result
  have fresh : (auditItems h).map AuditItem.core = auditItems h := by
    refine (List.map_congr_left fun item member => ?_).trans (List.map_id _)
    have one := (auditItems_fits member).2.2
    rw [AuditItem.core, ← one]
    rfl
  refine ⟨?_, ready.ordered, fun i a here => ready.jumps.incrs here⟩
  rw [core, ← fresh]
  exact sorts.perm.map _

/-- The array is read and filled as it should be exactly if there is an entry. -/
theorem preprocessesSafely_iff (h : List AuditEntry) : PreprocessesSafely h ↔ h ≠ [] := by
  constructor
  · rintro safe rfl
    obtain ⟨items, free, idx, _, ran, _⟩ := safe id ⟨List.Perm.refl _, List.Pairwise.nil⟩
    cases ran
  · intro nonempty qsort sorts
    obtain ⟨items, free, result, whole, ran⟩ := pkgAuditPreprocessIn_eq nonempty sorts
    exact ⟨items, free, _, whole, ran, prepared_of_preprocess sorts result⟩

/-- Without entries the second place of an array of one is read. -/
theorem noEntries_not_preprocessesSafely :
    pkgAuditPreprocessIn id [] = none ∧ ¬ ∀ h, PreprocessesSafely h := by
  refine ⟨rfl, fun safe => ?_⟩
  obtain ⟨items, free, idx, _, ran, _⟩ := safe [] id ⟨List.Perm.refl _, List.Pairwise.nil⟩
  cases ran

end Pkgng
