import Mathlib.Data.List.TakeWhile
import Pkgng.Audit.Vulnxml
import Pkgng.Lib.Comparator
import Pkgng.Lib.Glob
import Pkgng.Version.Compare

/-!
# Searching the vulnerability database

`pkg_audit_preprocess` sorts the entries by what stands in front of the first glob character of
their patterns, and notes how far to skip.  `pkg_audit_is_vulnerable` starts at the index of the
first byte of a name, and stops behind the last prefix that the name can have.  A pattern that
starts with a glob character is sorted first, but the index is made from its first byte.
-/

set_option autoImplicit false

namespace Pkgng

open Lib

/-- `struct pkg_audit_item`, with the name of its entry. -/
structure AuditItem where
  e : AuditEntry
  pkgname : AuditText
  noglobLen : Nat
  nextPfxIncr : Nat := 1
deriving DecidableEq, Repr

def globChars : List Char := ['*', '?', '[', '{', '\\']

def pkgAuditStrNoglobLen : AuditText → Nat
  | [] => 0
  | c :: s => if globChars.contains c then 0 else pkgAuditStrNoglobLen s + 1

def pkgAuditEntryCmp (e1 e2 : AuditItem) : Int :=
  let minLen := if e1.noglobLen < e2.noglobLen then e1.noglobLen else e2.noglobLen
  let result := strncmp e1.pkgname e2.pkgname minLen
  if result = 0 then
    if e1.noglobLen < e2.noglobLen then -1 else if e1.noglobLen > e2.noglobLen then 1 else result
  else result

/-! ## `pkg_audit_preprocess` -/

/-- The entries with a name, before they are sorted. -/
def auditItems (entries : List AuditEntry) : List AuditItem :=
  entries.filterMap fun e => e.pkgname.map fun name =>
    { e := e, pkgname := name, noglobLen := pkgAuditStrNoglobLen name }

/-- The loop from `base` on, as long as more than one item is to be filled. -/
def fillIncrs (base : Nat) : Nat → List AuditItem → List AuditItem
  | tofill + 2, ret =>
      fillIncrs (base + 1) (tofill + 1)
        (ret.modify base fun item => { item with nextPfxIncr := tofill + 2 })
  | _, ret => ret

/-- The loop over the items; those from `n` on are left, and `prev` is in front of them. -/
def nextPfxIncrs (ret : List AuditItem) (n tofill : Nat) (prev : AuditItem) :
    List AuditItem → List AuditItem
  | [] => ret
  | cur :: rest =>
      if prev.noglobLen ≠ cur.noglobLen then
        nextPfxIncrs (fillIncrs (n - tofill) tofill ret) (n + 1) 1 cur rest
      else if strcmp prev.pkgname cur.pkgname = 0 then
        nextPfxIncrs ret (n + 1) (tofill + 1) cur rest
      else nextPfxIncrs ret (n + 1) 1 cur rest

/-- `pkg_audit_preprocess` with what `qsort` makes of the items.  The loop starts at the second
item, which without entries lies behind the memory. -/
def pkgAuditPreprocess (entries : List AuditEntry) (sorted : List AuditItem) :
    Option (List AuditItem) :=
  if entries = [] then none
  else
    match sorted with
    | [] => some []
    | first :: rest => some (nextPfxIncrs (first :: rest) 1 0 first rest)

/-- A `char` as a `size_t`; from 128 on it is negative. -/
def charIndex (c : Char) : Nat := if c.toNat < 128 then c.toNat else UInt64.size - 256 + c.toNat

/-- `(size_t)name[0]`. -/
def firstByte (name : AuditText) : Nat := name.head?.elim 0 charIndex

/-- The loop that moves `i` on to the first item that does not start below `n`. -/
def skipBelow (n : Nat) : List AuditItem → Nat → Nat
  | [], i => i
  | item :: rest, i => if firstByte item.pkgname < n then skipBelow n rest (i + 1) else i

def auditEntryFirstByteIdx (ret : List AuditItem) : Nat → Nat
  | 0 => 0
  | n + 1 =>
      skipBelow (n + 1) (ret.drop (auditEntryFirstByteIdx ret n)) (auditEntryFirstByteIdx ret n)

/-! ## `pkg_audit_is_vulnerable` -/

def pkgAuditVersionMatch (pkgversion : AuditText) (v : AuditVersion) : Bool :=
  match v.version with
  | none => true
  | some version =>
      let cmp := versionCmpChars pkgversion version
      if cmp = -1 then v.type = some .lt ∨ v.type = some .lte
      else if cmp = 0 then v.type = some .eq ∨ v.type = some .lte ∨ v.type = some .gte
      else if cmp = 1 then v.type = some .gt ∨ v.type = some .gte
      else false

def versionsMatch (pkgversion : AuditText) (vers : VersionsRange) : Bool :=
  pkgAuditVersionMatch pkgversion vers.v1 && pkgAuditVersionMatch pkgversion vers.v2

/-- `vop_names`. -/
def vopName : Option VersionOp → AuditText
  | none => []
  | some .eq => "=".toList
  | some .lt => "<".toList
  | some .lte => "<=".toList
  | some .gt => ">".toList
  | some .gte => ">=".toList

/-- A text printed with `%s`. -/
def printedText (text : Option AuditText) : AuditText := text.getD "(null)".toList

def printedVersion (v : AuditVersion) : AuditText :=
  vopName v.type ++ " ".toList ++ printedText v.version

def pkgAuditPrintVersions (e : AuditEntry) : AuditText :=
  "Affected versions:\n".toList ++ e.versions.flatMap fun vers =>
    if vers.v1.type.isSome ∧ vers.v2.type.isSome then
      printedVersion vers.v1 ++ " : ".toList ++ printedVersion vers.v2 ++ "\n".toList
    else if vers.v1.type.isSome then printedVersion vers.v1 ++ "\n".toList
    else printedVersion vers.v2 ++ "\n".toList

def pkgAuditPrintEntry (e : AuditEntry) (pkgname : AuditText) (pkgversion : Option AuditText)
    (quiet : Bool) : AuditText :=
  let name := pkgname ++ pkgversion.elim [] fun version => "-".toList ++ version
  if quiet then name ++ "\n".toList
  else
    name ++ " is vulnerable:\n".toList ++
      (if pkgversion.isSome then [] else pkgAuditPrintVersions e) ++
      printedText e.desc ++ "\n".toList ++
      (e.cve.flatMap fun cve => "CVE: ".toList ++ cve ++ "\n".toList) ++
      e.id.elim [] fun id => "WWW: http://portaudit.FreeBSD.org/".toList ++ id ++ ".html\n\n".toList

/-- `res` and `sb`. -/
structure AuditReport where
  res : Bool := false
  sb : AuditText := []
deriving DecidableEq, Repr

section Search

variable (pkgname : AuditText) (pkgversion : Option AuditText) (quiet : Bool)

/-- An entry whose pattern matches. -/
def auditEntryFound (e : AuditEntry) (report : AuditReport) : AuditReport :=
  let found : AuditReport :=
    { res := true, sb := report.sb ++ pkgAuditPrintEntry e pkgname pkgversion quiet }
  match pkgversion with
  | none => found
  | some version => if e.versions.any (versionsMatch version) then found else report

/-- The loop over the items with the prefix; whether the search is left. -/
def auditSearchGroup : Nat → List AuditItem → AuditReport → Option (AuditReport × Bool)
  | 0, _, report => some (report, false)
  | _ + 1, [], _ => none
  | i + 1, item :: rest, report =>
      if fnmatch item.pkgname pkgname = false then auditSearchGroup i rest report
      else
        let report := auditEntryFound pkgname pkgversion quiet item.e report
        if report.res ∧ quiet then some (report, true) else auditSearchGroup i rest report

/-- The loop over the prefixes. -/
def auditSearch : Nat → List AuditItem → AuditReport → Option AuditReport
  | 0, _, _ => none
  | _ + 1, [], report => some report
  | fuel + 1, a :: rest, report =>
      let cmp := strncmp pkgname a.pkgname a.noglobLen
      if cmp < 0 then some report
      else do
        let (report, out) ←
          if cmp > 0 then some (report, false)
          else auditSearchGroup pkgname pkgversion quiet a.nextPfxIncr (a :: rest) report
        if out then some report
        else if a.nextPfxIncr ≤ (a :: rest).length then
          auditSearch fuel ((a :: rest).drop a.nextPfxIncr) report
        else none

/-- `pkg_audit_is_vulnerable`, with the items of `pkg_audit_preprocess`.  The index has 256
places. -/
def pkgAuditIsVulnerable (items : List AuditItem) : Option AuditReport :=
  if firstByte pkgname < 256 then
    auditSearch pkgname pkgversion quiet (items.length + 1)
      (items.drop (auditEntryFirstByteIdx items (firstByte pkgname))) {}
  else none

/-- The entry's pattern matches, and one of its ranges if a version is given. -/
def entryVulnerable (e : AuditEntry) : Bool :=
  e.pkgname.any (fun pattern => fnmatch pattern pkgname) &&
    pkgversion.all fun version => e.versions.any (versionsMatch version)

end Search

/-! ## The prefixes -/

namespace AuditItem

/-- What stands in front of the first glob character. -/
def noglob (item : AuditItem) : AuditText := item.pkgname.take item.noglobLen

/-- The item is one of an entry. -/
structure Fits (item : AuditItem) : Prop where
  named : item.e.pkgname = some item.pkgname
  noglobLen : item.noglobLen = pkgAuditStrNoglobLen item.pkgname

end AuditItem

theorem pkgAuditStrNoglobLen_le (s : AuditText) : pkgAuditStrNoglobLen s ≤ s.length := by
  induction s with
  | nil => exact Nat.le_refl 0
  | cons c s ih =>
      rw [pkgAuditStrNoglobLen]
      split
      · exact Nat.zero_le _
      · exact Nat.succ_le_succ ih

theorem take_noglobLen_literal (s : AuditText) :
    ∀ c ∈ s.take (pkgAuditStrNoglobLen s), IsLiteral c := by
  induction s with
  | nil => exact fun _ => List.not_mem_nil.elim
  | cons c s ih =>
      rw [pkgAuditStrNoglobLen]
      split
      · exact fun _ => List.not_mem_nil.elim
      · next literal =>
          rw [List.take_succ_cons]
          refine List.forall_mem_cons.mpr ⟨?_, ih⟩
          simp only [globChars, List.contains_iff_mem, List.mem_cons, List.not_mem_nil, or_false,
            not_or] at literal
          exact ⟨literal.1, literal.2.1, literal.2.2.1, literal.2.2.2.2⟩

namespace AuditItem.Fits

variable {a b : AuditItem}

theorem length_noglob (fits : a.Fits) : a.noglob.length = a.noglobLen := by
  rw [noglob, List.length_take, fits.noglobLen]
  exact Nat.min_eq_left (pkgAuditStrNoglobLen_le _)

/-- A name that the pattern matches starts with the prefix. -/
theorem noglob_prefix (fits : a.Fits) {name : AuditText}
    (matched : fnmatch a.pkgname name = true) : a.noglob <+: name := by
  rw [← List.take_append_drop a.noglobLen a.pkgname] at matched
  refine prefix_of_fnmatch ?_ matched
  rw [noglob, fits.noglobLen]
  exact take_noglobLen_literal _

/-- The comparison is that of the prefixes. -/
theorem cmp_eq (first : a.Fits) (second : b.Fits) :
    pkgAuditEntryCmp a b = strcmp a.noglob b.noglob := by
  have minLen : (if a.noglobLen < b.noglobLen then a.noglobLen else b.noglobLen) =
      min a.noglobLen b.noglobLen := by
    rcases Nat.lt_or_ge a.noglobLen b.noglobLen with less | notLess
    · rw [if_pos less, Nat.min_eq_left (Nat.le_of_lt less)]
    · rw [if_neg (Nat.not_lt.mpr notLess), Nat.min_eq_right notLess]
  have cut : strncmp a.noglob b.noglob (min a.noglobLen b.noglobLen) =
      strncmp a.pkgname b.pkgname (min a.noglobLen b.noglobLen) := by
    rw [strncmp, strncmp, noglob, noglob, List.take_take, List.take_take,
      Nat.min_eq_left (Nat.min_le_left ..), Nat.min_eq_left (Nat.min_le_right ..)]
  rw [strcmp_eq_strncmp, first.length_noglob, second.length_noglob, cut]
  simp only [pkgAuditEntryCmp, minLen]
  by_cases same : strncmp a.pkgname b.pkgname (min a.noglobLen b.noglobLen) = 0
  · rw [if_pos same, if_pos same, same]
  · rw [if_neg same, if_neg same]

/-- A name is compared with the prefix. -/
theorem strncmp_eq (name : AuditText) (fits : a.Fits) :
    strncmp name a.pkgname a.noglobLen = strcmp (name.take a.noglob.length) a.noglob := by
  rw [fits.length_noglob]
  rfl

theorem strncmp_of_fnmatch (fits : a.Fits) {name : AuditText}
    (matched : fnmatch a.pkgname name = true) : strncmp name a.pkgname a.noglobLen = 0 := by
  rw [fits.strncmp_eq, strcmp_zero]
  exact (List.prefix_iff_eq_take.mp (fits.noglob_prefix matched)).symm

/-- Behind a prefix that is greater than the name no pattern matches it. -/
theorem not_fnmatch_of_less (first : a.Fits) (second : b.Fits) {name : AuditText}
    (less : strncmp name a.pkgname a.noglobLen < 0) (ordered : strcmp a.noglob b.noglob ≤ 0) :
    fnmatch b.pkgname name = false := by
  rw [← Bool.not_eq_true]
  intro matched
  have nameLess : strcmp name a.noglob < 0 := by
    rw [first.strncmp_eq] at less
    exact strcmp_of_strncmp less
  have starts := strcmp_of_prefix (second.noglob_prefix matched)
  have back := comparator_strcmp.trans _ _ _ ordered starts
  have swap := comparator_strcmp.swap a.noglob name
  omega

end AuditItem.Fits

/-! ## The increments -/

/-- Each increment stays within the items that have the same pattern. -/
def Jumps (items : List AuditItem) : Prop :=
  ∀ (i : Nat) (a : AuditItem), items[i]? = some a → 0 < a.nextPfxIncr ∧
    ∀ k < a.nextPfxIncr, (items.map AuditItem.pkgname)[i + k]? = some a.pkgname

theorem Jumps.drop {items : List AuditItem} (jumps : Jumps items) (m : Nat) :
    Jumps (items.drop m) := by
  intro i a here
  rw [List.getElem?_drop] at here
  refine ⟨(jumps _ a here).1, fun k less => ?_⟩
  rw [List.map_drop, List.getElem?_drop, ← Nat.add_assoc]
  exact (jumps _ a here).2 k less

theorem Jumps.head {a : AuditItem} {rest : List AuditItem} (jumps : Jumps (a :: rest)) :
    0 < a.nextPfxIncr ∧ a.nextPfxIncr ≤ (a :: rest).length ∧
      ∀ b ∈ (a :: rest).take a.nextPfxIncr, b.pkgname = a.pkgname := by
  obtain ⟨positive, same⟩ := jumps 0 a rfl
  refine ⟨positive, ?_, fun b member => ?_⟩
  · have last := same (a.nextPfxIncr - 1) (Nat.sub_one_lt (Nat.ne_of_gt positive))
    have within := (List.getElem?_eq_some_iff.mp last).choose
    rw [List.length_map] at within
    omega
  · obtain ⟨k, isB⟩ := List.mem_iff_getElem?.mp member
    rw [List.getElem?_take] at isB
    split at isB
    · next less =>
        have named := same k less
        rw [Nat.zero_add, List.getElem?_map, isB] at named
        exact Option.some.inj named
    · cases isB

/-- The item without its increment. -/
def AuditItem.core (item : AuditItem) : AuditItem := { item with nextPfxIncr := 1 }

theorem names_of_core {items others : List AuditItem}
    (same : items.map AuditItem.core = others.map AuditItem.core) :
    items.map AuditItem.pkgname = others.map AuditItem.pkgname := by
  have names := congrArg (List.map AuditItem.pkgname) same
  rw [List.map_map, List.map_map] at names
  exact names

theorem Jumps.fill {ret : List AuditItem} (jumps : Jumps ret) {base tofill : Nat}
    {name : AuditText}
    (run : ∀ k < tofill, (ret.map AuditItem.pkgname)[base + k]? = some name) :
    Jumps (fillIncrs base tofill ret) ∧
      (fillIncrs base tofill ret).map AuditItem.core = ret.map AuditItem.core := by
  fun_induction fillIncrs base tofill ret with
  | case1 base tofill ret ih =>
      have same : (ret.modify base fun item => { item with nextPfxIncr := tofill + 2 }).map
          AuditItem.core = ret.map AuditItem.core := by
        refine List.ext_getElem? fun i => ?_
        rw [List.getElem?_map, List.getElem?_map, List.getElem?_modify]
        cases ret[i]? with
        | none => rfl
        | some item =>
            simp only [Option.map_some]
            split <;> rfl
      have names := names_of_core same
      have jumps' : Jumps (ret.modify base fun item => { item with nextPfxIncr := tofill + 2 }) := by
        intro i a here
        rw [List.getElem?_modify] at here
        obtain ⟨old, was, rfl⟩ := Option.map_eq_some_iff.mp here
        rw [names]
        split
        · next isBase =>
            subst isBase
            refine ⟨Nat.succ_pos _, fun k less => ?_⟩
            have named := run 0 (Nat.succ_pos _)
            rw [Nat.add_zero, List.getElem?_map, was, Option.map_some, Option.some.injEq] at named
            rw [run k less]
            exact congrArg some named.symm
        · exact jumps i old was
      have later := ih jumps' fun k less => by
        rw [names, Nat.add_right_comm]
        exact run (k + 1) (Nat.succ_lt_succ less)
      exact ⟨later.1, later.2.trans same⟩
  | case2 => exact ⟨jumps, rfl⟩

/-- The last `tofill` items have the pattern of `prev`. -/
theorem Jumps.increments {ret : List AuditItem} (jumps : Jumps ret) {n tofill : Nat}
    {prev : AuditItem} {rest : List AuditItem} (within : tofill ≤ n)
    (run : ∀ k < tofill, (ret.map AuditItem.pkgname)[n - tofill + k]? = some prev.pkgname)
    (left : (ret.map AuditItem.pkgname).drop n = rest.map AuditItem.pkgname) :
    Jumps (nextPfxIncrs ret n tofill prev rest) ∧
      (nextPfxIncrs ret n tofill prev rest).map AuditItem.core = ret.map AuditItem.core := by
  induction rest generalizing ret n tofill prev with
  | nil => exact ⟨jumps, rfl⟩
  | cons cur rest ih =>
      have here : (ret.map AuditItem.pkgname)[n]? = some cur.pkgname := by
        rw [← Nat.add_zero n, ← List.getElem?_drop, left]
        rfl
      have later : (ret.map AuditItem.pkgname).drop (n + 1) = rest.map AuditItem.pkgname := by
        rw [← List.tail_drop, left]
        rfl
      have single : ∀ k < 1, (ret.map AuditItem.pkgname)[n + 1 - 1 + k]? = some cur.pkgname := by
        intro k less
        rw [Nat.lt_one_iff.mp less]
        exact here
      rw [nextPfxIncrs]
      split
      · obtain ⟨filled, same⟩ := jumps.fill run
        have names := names_of_core same
        rw [← names] at later single
        obtain ⟨result, core⟩ := ih filled (Nat.succ_le_succ (Nat.zero_le n)) single later
        exact ⟨result, core.trans same⟩
      · split
        · next equal =>
            have name := strcmp_zero.mp equal
            refine ih jumps (Nat.succ_le_succ within) (fun k less => ?_) later
            rw [Nat.succ_sub_succ]
            rcases Nat.lt_succ_iff_lt_or_eq.mp less with before | rfl
            · rw [← name]
              exact run k before
            · rw [Nat.sub_add_cancel within]
              exact here
        · exact ih jumps (Nat.succ_le_succ (Nat.zero_le n)) single later

theorem jumps_of_preprocess {entries : List AuditEntry} {sorted items : List AuditItem}
    (ones : ∀ item ∈ sorted, item.nextPfxIncr = 1)
    (result : pkgAuditPreprocess entries sorted = some items) :
    Jumps items ∧ items.map AuditItem.core = sorted.map AuditItem.core := by
  unfold pkgAuditPreprocess at result
  split at result
  · cases result
  · split at result
    · cases result
      refine ⟨fun i a here => ?_, rfl⟩
      cases here
    · next first rest =>
        cases result
        have start : Jumps (first :: rest) := by
          intro i a here
          rw [ones a (List.mem_of_getElem? here)]
          refine ⟨Nat.one_pos, fun k less => ?_⟩
          rw [Nat.lt_one_iff.mp less, Nat.add_zero, List.getElem?_map, here]
          rfl
        exact start.increments (Nat.zero_le 1) (fun k none => absurd none (Nat.not_lt_zero k)) rfl

/-! ## The search -/

section Found

variable {pkgname : AuditText} {pkgversion : Option AuditText} {quiet : Bool}

theorem AuditItem.Fits.entryVulnerable {a : AuditItem} (fits : a.Fits) :
    entryVulnerable pkgname pkgversion a.e = (fnmatch a.pkgname pkgname &&
      pkgversion.all fun version => a.e.versions.any (versionsMatch version)) := by
  rw [Pkgng.entryVulnerable, fits.named]
  rfl

theorem res_auditEntryFound (e : AuditEntry) (report : AuditReport) :
    (auditEntryFound pkgname pkgversion quiet e report).res = (report.res ||
      pkgversion.all fun version => e.versions.any (versionsMatch version)) := by
  unfold auditEntryFound
  cases pkgversion with
  | none => exact (Bool.or_true _).symm
  | some version =>
      dsimp only [Option.all_some]
      cases e.versions.any (versionsMatch version) with
      | true => exact (Bool.or_true _).symm
      | false => exact (Bool.or_false _).symm

/-- The loop over a prefix finds what it reads; it is left early only with a result. -/
theorem auditSearchGroup_spec {i : Nat} {items : List AuditItem} {report : AuditReport}
    (fits : ∀ a ∈ items, a.Fits) (within : i ≤ items.length) :
    ∃ after out, auditSearchGroup pkgname pkgversion quiet i items report = some (after, out) ∧
      after.res = (report.res || (items.take i).any fun a =>
        entryVulnerable pkgname pkgversion a.e) ∧
      (out = true → after.res = true) := by
  induction items generalizing i report with
  | nil =>
      cases Nat.le_zero.mp within
      exact ⟨report, false, rfl, (Bool.or_false _).symm, nofun⟩
  | cons a items ih =>
      cases i with
      | zero => exact ⟨report, false, rfl, (Bool.or_false _).symm, nofun⟩
      | succ i =>
          have later := fun report => @ih i report
            (fun b member => fits b (List.mem_cons_of_mem _ member)) (Nat.le_of_succ_le_succ within)
          rw [auditSearchGroup, List.take_succ_cons, List.any_cons,
            (fits a List.mem_cons_self).entryVulnerable]
          cases matched : fnmatch a.pkgname pkgname with
          | false => simpa only [Bool.false_and, Bool.false_or, if_true] using later report
          | true =>
              have res := @res_auditEntryFound pkgname pkgversion quiet a.e report
              rw [if_neg (by decide)]
              dsimp only
              rw [Bool.true_and, ← Bool.or_assoc, ← res]
              split
              · next left =>
                  exact ⟨_, true, rfl, by rw [left.1, Bool.true_or], fun _ => left.1⟩
              · exact later _

/-- What the search relies on. -/
structure SearchReady (items : List AuditItem) : Prop where
  fits : ∀ a ∈ items, a.Fits
  ordered : items.Pairwise fun a b => strcmp a.noglob b.noglob ≤ 0
  jumps : Jumps items

theorem SearchReady.drop {items : List AuditItem} (ready : SearchReady items) (m : Nat) :
    SearchReady (items.drop m) where
  fits a member := ready.fits a (List.mem_of_mem_drop member)
  ordered := ready.ordered.sublist (List.drop_sublist m items)
  jumps := ready.jumps.drop m

theorem SearchReady.group_none {a : AuditItem} {rest : List AuditItem}
    (ready : SearchReady (a :: rest)) (differs : strncmp pkgname a.pkgname a.noglobLen ≠ 0) :
    ((a :: rest).take a.nextPfxIncr).any (fun b => entryVulnerable pkgname pkgversion b.e) =
      false := by
  rw [List.any_eq_false]
  intro b member vulnerable
  have fits := ready.fits b (List.mem_of_mem_take member)
  rw [fits.entryVulnerable, Bool.and_eq_true] at vulnerable
  have first := ready.fits a List.mem_cons_self
  have matched := vulnerable.1
  rw [ready.jumps.head.2.2 b member] at matched
  exact differs (first.strncmp_of_fnmatch matched)

theorem SearchReady.rest_none {a : AuditItem} {rest : List AuditItem}
    (ready : SearchReady (a :: rest)) (less : strncmp pkgname a.pkgname a.noglobLen < 0) :
    (a :: rest).any (fun b => entryVulnerable pkgname pkgversion b.e) = false := by
  rw [List.any_eq_false]
  intro b member vulnerable
  have fits := ready.fits b member
  have first := ready.fits a List.mem_cons_self
  rw [fits.entryVulnerable, Bool.and_eq_true] at vulnerable
  have ordered : strcmp a.noglob b.noglob ≤ 0 := by
    rcases List.mem_cons.mp member with rfl | later
    · exact Int.le_of_eq (strcmp_zero.mpr rfl)
    · exact (List.pairwise_cons.mp ready.ordered).1 b later
  rw [first.not_fnmatch_of_less fits less ordered] at vulnerable
  exact Bool.false_ne_true vulnerable.1

/-- From a prefix on, the search finds every entry that is vulnerable. -/
theorem auditSearch_spec {fuel : Nat} {items : List AuditItem} (ready : SearchReady items)
    {report : AuditReport} (enough : items.length < fuel) :
    ∃ after, auditSearch pkgname pkgversion quiet fuel items report = some after ∧
      after.res = (report.res || items.any fun a => entryVulnerable pkgname pkgversion a.e) := by
  induction fuel generalizing items report with
  | zero => exact absurd enough (Nat.not_lt_zero _)
  | succ fuel ih =>
      cases items with
      | nil => exact ⟨report, rfl, (Bool.or_false _).symm⟩
      | cons a rest =>
          obtain ⟨positive, within, _⟩ := ready.jumps.head
          have shorter : ((a :: rest).drop a.nextPfxIncr).length < fuel := by
            rw [List.length_drop]
            omega
          have later := fun report => @ih _ (ready.drop a.nextPfxIncr) report shorter
          have split : (a :: rest).any (fun b => entryVulnerable pkgname pkgversion b.e) =
              (((a :: rest).take a.nextPfxIncr).any
                  (fun b => entryVulnerable pkgname pkgversion b.e) ||
                ((a :: rest).drop a.nextPfxIncr).any
                  fun b => entryVulnerable pkgname pkgversion b.e) := by
            rw [← List.any_append, List.take_append_drop]
          rw [auditSearch]
          dsimp only
          by_cases less : strncmp pkgname a.pkgname a.noglobLen < 0
          · rw [if_pos less, ready.rest_none less]
            exact ⟨report, rfl, (Bool.or_false _).symm⟩
          rw [if_neg less, split]
          by_cases greater : strncmp pkgname a.pkgname a.noglobLen > 0
          · rw [if_pos greater, ready.group_none (Int.ne_of_gt greater), Bool.false_or]
            rw [Option.bind_eq_bind, Option.bind_some]
            dsimp only
            rw [if_neg Bool.false_ne_true, if_pos within]
            exact later report
          · obtain ⟨middle, out, searched, res, early⟩ := @auditSearchGroup_spec pkgname pkgversion
              quiet a.nextPfxIncr (a :: rest) report ready.fits within
            rw [if_neg greater, searched, ← Bool.or_assoc, ← res, Option.bind_eq_bind,
              Option.bind_some]
            dsimp only
            cases out with
            | true => exact ⟨middle, rfl, by rw [early rfl, Bool.true_or]⟩
            | false =>
                rw [if_neg Bool.false_ne_true, if_pos within]
                exact later middle

end Found

/-! ## The first byte -/

theorem skipBelow_eq (n : Nat) (items : List AuditItem) (i : Nat) :
    skipBelow n items i = i + (items.takeWhile fun a => firstByte a.pkgname < n).length := by
  induction items generalizing i with
  | nil => rfl
  | cons a rest ih =>
      rw [skipBelow]
      by_cases below : firstByte a.pkgname < n
      · rw [if_pos below, ih, List.takeWhile_cons_of_pos (by simpa using below), List.length_cons]
        omega
      · rw [if_neg below, List.takeWhile_cons_of_neg (by simpa using below)]
        rfl

theorem drop_length_takeWhile {α : Type} (p : α → Bool) (list : List α) :
    list.drop (list.takeWhile p).length = list.dropWhile p := by
  have parted : list.drop (list.takeWhile p).length =
      (list.takeWhile p ++ list.dropWhile p).drop (list.takeWhile p).length := by
    rw [List.takeWhile_append_dropWhile]
  rw [parted, List.drop_left]

/-- The index of a byte is that of the first item that does not start below it. -/
theorem auditEntryFirstByteIdx_eq (items : List AuditItem) (n : Nat) :
    auditEntryFirstByteIdx items n =
      (items.takeWhile fun a => firstByte a.pkgname < n).length := by
  induction n with
  | zero => cases items <;> rfl
  | succ n ih =>
      have mono : ∀ a ∈ items.takeWhile (fun a => firstByte a.pkgname < n),
          decide (firstByte a.pkgname < n + 1) = true := fun a member => by
        have below := List.mem_takeWhile_imp member
        rw [decide_eq_true_eq] at below ⊢
        exact Nat.lt_succ_of_lt below
      have parted : items.takeWhile (fun a => firstByte a.pkgname < n + 1) =
          items.takeWhile (fun a => firstByte a.pkgname < n) ++
            (items.dropWhile fun a => firstByte a.pkgname < n).takeWhile
              fun a => firstByte a.pkgname < n + 1 := by
        rw [← List.takeWhile_append_of_pos mono, List.takeWhile_append_dropWhile]
      rw [auditEntryFirstByteIdx, skipBelow_eq, ih, drop_length_takeWhile, parted,
        List.length_append]

/-- The search starts behind the items that start below the name's first byte. -/
theorem pkgAuditIsVulnerable_spec {pkgname : AuditText} {pkgversion : Option AuditText}
    {quiet : Bool} {items : List AuditItem} (ready : SearchReady items)
    (inIndex : firstByte pkgname < 256) :
    ∃ report, pkgAuditIsVulnerable pkgname pkgversion quiet items = some report ∧
      report.res = (items.dropWhile fun a => firstByte a.pkgname < firstByte pkgname).any
        fun a => entryVulnerable pkgname pkgversion a.e := by
  have shorter : (items.drop (auditEntryFirstByteIdx items (firstByte pkgname))).length <
      items.length + 1 := by
    rw [List.length_drop]
    omega
  obtain ⟨report, searched, res⟩ := @auditSearch_spec pkgname pkgversion quiet _ _
    (ready.drop (auditEntryFirstByteIdx items (firstByte pkgname))) {} shorter
  rw [auditEntryFirstByteIdx_eq, drop_length_takeWhile, Bool.false_or] at res
  exact ⟨report, by rw [pkgAuditIsVulnerable, if_pos inIndex, searched], res⟩

/-! ## The plain search -/

theorem auditItems_fits {entries : List AuditEntry} {item : AuditItem}
    (member : item ∈ auditItems entries) : item.Fits ∧ item.e ∈ entries ∧ item.nextPfxIncr = 1 := by
  obtain ⟨e, inEntries, isItem⟩ := List.mem_filterMap.mp member
  obtain ⟨name, named, rfl⟩ := Option.map_eq_some_iff.mp isItem
  exact ⟨⟨named, rfl⟩, inEntries, rfl⟩

theorem any_auditItems {entries : List AuditEntry} {pkgname : AuditText}
    {pkgversion : Option AuditText} :
    (auditItems entries).any (fun a => entryVulnerable pkgname pkgversion a.e) =
      entries.any (entryVulnerable pkgname pkgversion) := by
  rw [auditItems, List.any_filterMap]
  congr 1
  funext e
  cases named : e.pkgname with
  | none => rw [entryVulnerable, named]; rfl
  | some name => rfl

/-- What `pkg_audit_preprocess` makes of the entries can be searched. -/
theorem searchReady_of_preprocess {entries : List AuditEntry} {sorted items : List AuditItem}
    (isSorted : IsQsort pkgAuditEntryCmp (auditItems entries) sorted)
    (result : pkgAuditPreprocess entries sorted = some items) :
    SearchReady items ∧ items.map AuditItem.core = sorted.map AuditItem.core := by
  have fits := fun a (member : a ∈ sorted) => auditItems_fits (isSorted.perm.mem_iff.mp member)
  obtain ⟨jumps, core⟩ := jumps_of_preprocess (fun a member => (fits a member).2.2) result
  have both : (∀ a ∈ items.map AuditItem.core, a.Fits) ∧
      (items.map AuditItem.core).Pairwise fun a b => strcmp a.noglob b.noglob ≤ 0 := by
    rw [core]
    constructor
    · intro a member
      obtain ⟨b, inSorted, rfl⟩ := List.mem_map.mp member
      exact ⟨(fits b inSorted).1.named, (fits b inSorted).1.noglobLen⟩
    · rw [List.pairwise_map]
      refine isSorted.ordered.imp_of_mem fun {a b} first second ordered => ?_
      rw [(fits a first).1.cmp_eq (fits b second).1] at ordered
      exact ordered
  refine ⟨⟨fun a member => ?_, ?_, jumps⟩, core⟩
  · have fitsCore := both.1 a.core (List.mem_map_of_mem member)
    exact ⟨fitsCore.named, fitsCore.noglobLen⟩
  · exact List.pairwise_map.mp both.2

/-- Whatever `qsort` makes of the items, the search reports what a look at every entry does. -/
def SearchesPlainly (entries : List AuditEntry) (pkgname : AuditText)
    (pkgversion : Option AuditText) (quiet : Bool) : Prop :=
  ∀ sorted, IsQsort pkgAuditEntryCmp (auditItems entries) sorted →
    ∃ report, (pkgAuditPreprocess entries sorted).bind
        (pkgAuditIsVulnerable pkgname pkgversion quiet) = some report ∧
      report.res = entries.any (entryVulnerable pkgname pkgversion)

section Plain

variable {entries : List AuditEntry} {pkgname : AuditText} {pkgversion : Option AuditText}
  {quiet : Bool}

/-- What is reported is read off the sorted items. -/
theorem searched_sorted (nonempty : entries ≠ []) (inIndex : firstByte pkgname < 256)
    {sorted : List AuditItem} (isSorted : IsQsort pkgAuditEntryCmp (auditItems entries) sorted) :
    ∃ report, (pkgAuditPreprocess entries sorted).bind
        (pkgAuditIsVulnerable pkgname pkgversion quiet) = some report ∧
      report.res = (sorted.dropWhile fun a => firstByte a.pkgname < firstByte pkgname).any
        fun a => entryVulnerable pkgname pkgversion a.e := by
  have ran : ∃ items, pkgAuditPreprocess entries sorted = some items := by
    unfold pkgAuditPreprocess
    rw [if_neg nonempty]
    split
    · exact ⟨_, rfl⟩
    · exact ⟨_, rfl⟩
  obtain ⟨items, result⟩ := ran
  obtain ⟨ready, core⟩ := searchReady_of_preprocess isSorted result
  obtain ⟨report, searched, res⟩ := @pkgAuditIsVulnerable_spec pkgname pkgversion quiet _ ready
    inIndex
  have read (list : List AuditItem) :
      (list.dropWhile fun a => firstByte a.pkgname < firstByte pkgname).any
          (fun a => entryVulnerable pkgname pkgversion a.e) =
        ((list.map AuditItem.core).dropWhile
          fun a => firstByte a.pkgname < firstByte pkgname).any
            fun a => entryVulnerable pkgname pkgversion a.e := by
    rw [List.dropWhile_map, List.any_map]
    rfl
  refine ⟨report, by rw [result, Option.bind_some, searched], ?_⟩
  rw [res, read, core, ← read]

/-- `qsort` may leave the items without a prefix in front in the order in which it finds them. -/
theorem exists_qsort_first {items : List AuditItem} (fits : ∀ a ∈ items, a.Fits)
    {first : AuditItem → Bool} (without : ∀ a ∈ items, first a = true → a.noglob = []) :
    ∃ others, IsQsort pkgAuditEntryCmp items (items.filter first ++ others) ∧
      ∀ a ∈ others, first a = false := by
  have order : Comparator fun a b : AuditItem => strcmp a.noglob b.noglob :=
    ⟨fun a b => comparator_strcmp.sign _ _, fun a => comparator_strcmp.self _,
      fun a b => comparator_strcmp.swap _ _, fun a b c => comparator_strcmp.trans _ _ _,
      fun a b c => comparator_strcmp.congr _ _ _⟩
  obtain ⟨others, perm, ordered⟩ := order.exists_qsort (items.filter fun a => !first a)
  have isOther : ∀ a ∈ others, a ∈ items ∧ first a = false := fun a member => by
    have filtered := List.mem_filter.mp (perm.mem_iff.mp member)
    exact ⟨filtered.1, by simpa using filtered.2⟩
  refine ⟨others, ⟨?_, List.pairwise_append.mpr ⟨?_, ?_, ?_⟩⟩, fun a member =>
    (isOther a member).2⟩
  · exact (perm.append_left _).trans (List.filter_append_perm first items)
  · refine List.pairwise_of_forall_mem_list fun a inFirst b inFirst' => ?_
    obtain ⟨member, isFirst⟩ := List.mem_filter.mp inFirst
    obtain ⟨member', isFirst'⟩ := List.mem_filter.mp inFirst'
    rw [(fits a member).cmp_eq (fits b member'), without a member isFirst,
      without b member' isFirst']
    exact Int.le_refl 0
  · refine ordered.imp_of_mem fun {a b} inA inB less => ?_
    rwa [(fits a (isOther a inA).1).cmp_eq (fits b (isOther b inB).1)]
  · intro a inFirst b inOthers
    obtain ⟨member, isFirst⟩ := List.mem_filter.mp inFirst
    rw [(fits a member).cmp_eq (fits b (isOther b inOthers).1), without a member isFirst]
    exact strcmp_of_prefix List.nil_prefix

/-- A pattern with a prefix starts with the first byte of the names that it matches. -/
theorem AuditItem.Fits.noglob_eq_nil {a : AuditItem} (fits : a.Fits)
    (matched : fnmatch a.pkgname pkgname = true)
    (below : firstByte a.pkgname < firstByte pkgname) : a.noglob = [] := by
  cases starts : a.noglob with
  | nil => rfl
  | cons c later =>
      have inName := fits.noglob_prefix matched
      have inPattern : a.noglob <+: a.pkgname := List.take_prefix ..
      rw [starts] at inName inPattern
      obtain ⟨rest, isName⟩ := inName
      obtain ⟨rest', isPattern⟩ := inPattern
      rw [← isName, ← isPattern] at below
      exact absurd below (Nat.lt_irrefl _)

end Plain

/-- The search is the plain one exactly if there are entries, the name's first byte is in the
index, and the pattern of some entry that is vulnerable, if there is one, does not start below it. -/
theorem searchesPlainly_iff (entries : List AuditEntry) (pkgname : AuditText)
    (pkgversion : Option AuditText) (quiet : Bool) :
    SearchesPlainly entries pkgname pkgversion quiet ↔
      entries ≠ [] ∧ firstByte pkgname < 256 ∧
        (entries.any (entryVulnerable pkgname pkgversion) = true →
          ∃ e ∈ entries, entryVulnerable pkgname pkgversion e = true ∧
            firstByte pkgname ≤ firstByte (e.pkgname.getD [])) := by
  have fits := fun a (member : a ∈ auditItems entries) => auditItems_fits member
  constructor
  · intro plain
    obtain ⟨others, isSorted, _⟩ := @exists_qsort_first (auditItems entries)
      (fun a member => (fits a member).1) (fun _ => false) (fun _ _ none => by cases none)
    obtain ⟨report, ran, _⟩ := plain _ isSorted
    obtain ⟨items, result, searched⟩ := Option.bind_eq_some_iff.mp ran
    have nonempty : entries ≠ [] := by
      intro empty
      unfold pkgAuditPreprocess at result
      rw [if_pos empty] at result
      cases result
    have inIndex : firstByte pkgname < 256 := by
      by_contra outside
      rw [pkgAuditIsVulnerable, if_neg outside] at searched
      cases searched
    refine ⟨nonempty, inIndex, fun vulnerable => ?_⟩
    by_contra unreached
    have below : ∀ a ∈ auditItems entries, entryVulnerable pkgname pkgversion a.e = true →
        firstByte a.pkgname < firstByte pkgname := by
      intro a member isVulnerable
      by_contra notBelow
      refine unreached ⟨a.e, (fits a member).2.1, isVulnerable, ?_⟩
      rw [(fits a member).1.named]
      exact Nat.le_of_not_lt notBelow
    -- The vulnerable ones come first, and the index is behind them.
    obtain ⟨others, isSorted, isOther⟩ := @exists_qsort_first (auditItems entries)
      (fun a member => (fits a member).1) (fun a => entryVulnerable pkgname pkgversion a.e)
      fun a member isVulnerable => by
        have matched := isVulnerable
        rw [(fits a member).1.entryVulnerable, Bool.and_eq_true] at matched
        exact (fits a member).1.noglob_eq_nil matched.1 (below a member isVulnerable)
    obtain ⟨report, ran, res⟩ := plain _ isSorted
    obtain ⟨report', ran', res'⟩ := @searched_sorted _ _ pkgversion quiet nonempty inIndex _ isSorted
    have skipped : ∀ a ∈ (auditItems entries).filter
        (fun a => entryVulnerable pkgname pkgversion a.e),
        decide (firstByte a.pkgname < firstByte pkgname) = true := fun a member => by
      obtain ⟨inItems, isVulnerable⟩ := List.mem_filter.mp member
      exact decide_eq_true (below a inItems isVulnerable)
    rw [List.dropWhile_append_of_pos skipped] at res'
    rw [ran] at ran'
    cases ran'
    rw [res, vulnerable] at res'
    obtain ⟨a, member, isVulnerable⟩ := List.any_eq_true.mp res'.symm
    rw [isOther a (List.dropWhile_subset _ member)] at isVulnerable
    cases isVulnerable
  · rintro ⟨nonempty, inIndex, reached⟩ sorted isSorted
    obtain ⟨report, ran, res⟩ := @searched_sorted _ _ pkgversion quiet nonempty inIndex _ isSorted
    refine ⟨report, ran, ?_⟩
    rw [res]
    cases vulnerable : entries.any (entryVulnerable pkgname pkgversion) with
    | false =>
        rw [← any_auditItems, List.any_eq_false] at vulnerable
        refine List.any_eq_false.mpr fun a member => vulnerable a ?_
        exact isSorted.perm.mem_iff.mp (List.dropWhile_subset _ member)
    | true =>
        obtain ⟨e, inEntries, isVulnerable, notBelow⟩ := reached vulnerable
        obtain ⟨pattern, named, _⟩ : ∃ pattern, e.pkgname = some pattern ∧
            fnmatch pattern pkgname = true := by
          rw [entryVulnerable, Bool.and_eq_true, Option.any_eq_true] at isVulnerable
          exact isVulnerable.1
        have inItems : (⟨e, pattern, pkgAuditStrNoglobLen pattern, 1⟩ : AuditItem) ∈ sorted := by
          refine isSorted.perm.mem_iff.mpr (List.mem_filterMap.mpr ⟨e, inEntries, ?_⟩)
          rw [named]
          rfl
        rw [← @List.takeWhile_append_dropWhile _ (fun a : AuditItem =>
          firstByte a.pkgname < firstByte pkgname) sorted, List.mem_append] at inItems
        rcases inItems with before | behind
        · have below := List.mem_takeWhile_imp before
          rw [decide_eq_true_eq] at below
          rw [named] at notBelow
          exact absurd below (Nat.not_lt.mpr notBelow)
        · exact List.any_eq_true.mpr ⟨_, behind, isVulnerable⟩

/-- An entry for every server below a version. -/
def serverEntry : AuditEntry where
  pkgname := some "*-server".toList
  versions := [{ v1 := { version := some "5.5.40".toList, type := some .lt } }]

/-- A pattern that starts with a star is not found for a name that starts with a letter. -/
theorem starPattern_not_searchesPlainly :
    ¬SearchesPlainly [serverEntry] "mysql-server".toList (some "5.5.30".toList) false := by
  rw [searchesPlainly_iff]
  rintro ⟨_, _, reached⟩
  obtain ⟨e, member, _, notBelow⟩ := reached (by decide +kernel)
  rw [List.mem_singleton.mp member] at notBelow
  exact absurd notBelow (by decide +kernel)

end Pkgng
