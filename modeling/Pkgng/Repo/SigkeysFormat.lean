import Mathlib.Data.List.Induction
import Mathlib.Data.List.TakeWhile
import Pkgng.Lib.SelfDelimiting
import Pkgng.Repo.Sigkeys

/-!
# The format of signatures and certificates

What `pkg_repo_parse_sigkeys` accepts, what the table holds then, and what becomes of the entry
it frees when it fails.
-/

set_option autoImplicit false

namespace Pkgng

/-! ## The records -/

structure SigRecord where
  type : UInt8
  name : Bytes
  data : Bytes
deriving DecidableEq, Repr

namespace SigRecord

/-- `<type(0|1)><namelen(int)><name><datalen(int)><data>` -/
def bytes (record : SigRecord) : Bytes := sigRecord record.type record.name record.data

/-- The lengths are positive and those of an `int`, the name has room in a `struct sig_cert`. -/
structure Complete (record : SigRecord) : Prop where
  type : record.type = 0 ∨ record.type = 1
  name : record.name ≠ []
  nameBound : record.name.length < maxPathLen
  data : record.data ≠ []
  dataBound : record.data.length < 2147483648

end SigRecord

theorem length_intBytes (value : Nat) : (intBytes value).length = 4 := rfl

theorem intBytes_append_inj {n m : Nat} {rest other : Bytes} (bound : n < 2147483648)
    (otherBound : m < 2147483648) (same : intBytes n ++ rest = intBytes m ++ other) :
    n = m ∧ rest = other := by
  refine ⟨?_, (List.append_inj same rfl).2⟩
  have read := readInt_intBytes bound rest
  rw [same, readInt_intBytes otherBound] at read
  exact (Int.ofNat.inj (Option.some.inj read)).symm

theorem SigRecord.Complete.nameInt {record : SigRecord} (complete : record.Complete) :
    record.name.length < 2147483648 :=
  Nat.lt_trans complete.nameBound (by decide)

/-- A complete record shows where it ends. -/
theorem selfDelimiting_bytes : Lib.SelfDelimiting SigRecord.Complete SigRecord.bytes where
  ne_nil := fun _ _ => List.cons_ne_nil _ _
  unique := by
    rintro ⟨type, name, data⟩ ⟨otherType, otherName, otherData⟩ rest otherRest complete other same
    simp only [SigRecord.bytes, sigRecord, List.cons_append, List.append_assoc,
      List.cons.injEq] at same
    obtain ⟨rfl, afterType⟩ := same
    obtain ⟨nameLength, afterLength⟩ :=
      intBytes_append_inj complete.nameInt other.nameInt afterType
    obtain ⟨rfl, afterName⟩ := List.append_inj afterLength nameLength
    obtain ⟨dataLength, afterDataLength⟩ :=
      intBytes_append_inj complete.dataBound other.dataBound afterName
    obtain ⟨rfl, rfl⟩ := List.append_inj afterDataLength dataLength
    exact ⟨rfl, rfl⟩

/-! ## The reader with its table -/

/-- What `pkg_repo_parse_sigkeys` ends with: `EPKG_OK` or not, the table, and the entry that
`free` was called for. -/
structure SigkeysEnd where
  ok : Bool
  certs : List SigCert
  freed : Option SigTarget := none
deriving DecidableEq, Repr

/-- The state that frees its entry where it fails. -/
def SigkeysState.frees : SigkeysState → Option SigTarget
  | .sig _ target _ => some target
  | _ => none

/-- `sigkeysFrom` with what it leaves when it fails. -/
def sigkeysRun : Nat → SigkeysState → List SigCert → Bytes → SigkeysEnd
  | _, _, certs, [] => ⟨true, certs, none⟩
  | skip + 1, state, certs, _ :: rest => sigkeysRun skip state certs rest
  | 0, state, certs, byte :: rest =>
      match sigkeysStep state certs (byte :: rest) with
      | none => ⟨false, certs, state.frees⟩
      | some (moved, state, certs) => sigkeysRun (moved - 1) state certs rest

/-- The run of `pkg_repo_parse_sigkeys` on an empty table. -/
def parseSigkeys (input : Bytes) : SigkeysEnd := sigkeysRun 0 .type [] input

theorem sigkeysFrom_eq (skip : Nat) (state : SigkeysState) (certs : List SigCert)
    (input : Bytes) :
    sigkeysFrom skip state certs input =
      if (sigkeysRun skip state certs input).ok then
        some (sigkeysRun skip state certs input).certs
      else none := by
  induction input generalizing skip state certs with
  | nil => rfl
  | cons byte rest ih =>
      cases skip with
      | succ skip => exact ih skip state certs
      | zero =>
          unfold sigkeysFrom sigkeysRun
          cases sigkeysStep state certs (byte :: rest) with
          | none => rfl
          | some turn => exact ih (turn.1 - 1) turn.2.1 turn.2.2

theorem pkgRepoParseSigkeys_eq (input : Bytes) :
    pkgRepoParseSigkeys input =
      if (parseSigkeys input).ok then some (parseSigkeys input).certs else none :=
  sigkeysFrom_eq 0 .type [] input

/-! ## Its turns -/

section Turns

variable {certs : List SigCert} {type : UInt8} {target : SigTarget} {len : Int} {rest : Bytes}

theorem sigkeysRun_append (state : SigkeysState) (certs : List SigCert) (passed rest : Bytes) :
    sigkeysRun passed.length state certs (passed ++ rest) = sigkeysRun 0 state certs rest := by
  induction passed with
  | nil => rfl
  | cons byte passed ih => exact ih

theorem sigkeysRun_turn {state next : SigkeysState} {after : List SigCert} {turn : Bytes}
    (moves : turn ≠ [])
    (step : sigkeysStep state certs (turn ++ rest) = some (turn.length, next, after)) :
    sigkeysRun 0 state certs (turn ++ rest) = sigkeysRun 0 next after rest := by
  cases turn with
  | nil => exact absurd rfl moves
  | cons byte turn =>
      rw [List.cons_append] at step
      rw [List.cons_append, sigkeysRun, step]
      exact sigkeysRun_append next after turn rest

theorem sigkeysRun_fails {state : SigkeysState} {input : Bytes} (left : input ≠ [])
    (step : sigkeysStep state certs input = none) :
    sigkeysRun 0 state certs input = ⟨false, certs, state.frees⟩ := by
  cases input with
  | nil => exact absurd rfl left
  | cons byte input => rw [sigkeysRun, step]

theorem sigkeysRun_type (isType : type = 0 ∨ type = 1) :
    sigkeysRun 0 .type certs (type :: rest) = sigkeysRun 0 (.flen type) certs rest :=
  sigkeysRun_turn (List.cons_ne_nil type []) (if_pos isType)

/-- Four bytes are an `int`, whatever follows. -/
theorem readInt_append {four : Bytes} (isFour : four.length = 4) :
    ∃ len, ∀ rest, readInt (four ++ rest) = some len := by
  match four, isFour with
  | [b0, b1, b2, b3], _ => exact ⟨_, fun _ => rfl⟩

theorem sigkeysRun_flen {four : Bytes} (isFour : four.length = 4)
    (read : readInt (four ++ rest) = some len) :
    sigkeysRun 0 (.flen type) certs (four ++ rest) =
      sigkeysRun 0 (.file type len) certs rest := by
  refine sigkeysRun_turn (List.ne_nil_of_length_eq_add_one isFour) ?_
  rw [sigkeysStep, read, isFour]
  rfl

theorem sigkeysRun_siglen {four : Bytes} (isFour : four.length = 4)
    (read : readInt (four ++ rest) = some len) :
    sigkeysRun 0 (.siglen type target) certs (four ++ rest) =
      sigkeysRun 0 (.sig type target len) certs rest := by
  refine sigkeysRun_turn (List.ne_nil_of_length_eq_add_one isFour) ?_
  rw [sigkeysStep, read, isFour]
  rfl

theorem sigkeysRun_file {name : Bytes} (notEmpty : name ≠ [])
    (bound : name.length < maxPathLen) :
    sigkeysRun 0 (.file type name.length) certs (name ++ rest) =
      sigkeysRun 0 (.siglen type (sigTarget certs name)) certs rest := by
  refine sigkeysRun_turn notEmpty ?_
  have positive := List.length_pos_of_ne_nil notEmpty
  have fits : ¬(((name ++ rest).length : Int) < name.length ∨ (name.length : Int) ≤ 0) := by
    rw [List.length_append]
    omega
  have short : ¬((maxPathLen : Int) ≤ name.length) := by omega
  rw [sigkeysStep, if_neg fits, if_neg short, Int.toNat_natCast, List.take_left]

theorem sigkeysRun_sig {data : Bytes} (notEmpty : data ≠ []) :
    sigkeysRun 0 (.sig type target data.length) certs (data ++ rest) =
      sigkeysRun 0 .type (storeSigData certs type data target) rest := by
  refine sigkeysRun_turn notEmpty ?_
  have positive := List.length_pos_of_ne_nil notEmpty
  have fits : ¬(((data ++ rest).length : Int) < data.length ∨ (data.length : Int) ≤ 0) := by
    rw [List.length_append]
    omega
  rw [sigkeysStep, if_neg fits, Int.toNat_natCast, List.take_left]

end Turns

/-- The table after the data of a record is stored. -/
def SigRecord.store (certs : List SigCert) (record : SigRecord) : List SigCert :=
  storeSigData certs record.type record.data (sigTarget certs record.name)

theorem sigkeysRun_record {record : SigRecord} (complete : record.Complete)
    (certs : List SigCert) (rest : Bytes) :
    sigkeysRun 0 .type certs (record.bytes ++ rest) =
      sigkeysRun 0 .type (record.store certs) rest := by
  simp only [SigRecord.bytes, sigRecord, List.cons_append, List.append_assoc]
  rw [sigkeysRun_type complete.type, sigkeysRun_flen rfl (readInt_intBytes complete.nameInt _),
    sigkeysRun_file complete.name complete.nameBound,
    sigkeysRun_siglen rfl (readInt_intBytes complete.dataBound _), sigkeysRun_sig complete.data]
  rfl

theorem sigkeysRun_records {records : List SigRecord}
    (complete : ∀ record ∈ records, record.Complete) (certs : List SigCert) (rest : Bytes) :
    sigkeysRun 0 .type certs (records.flatMap SigRecord.bytes ++ rest) =
      sigkeysRun 0 .type (records.foldl (fun certs record => record.store certs) certs) rest := by
  induction records generalizing certs with
  | nil => rfl
  | cons record records ih =>
      obtain ⟨first, others⟩ := List.forall_mem_cons.mp complete
      rw [List.flatMap_cons, List.append_assoc, sigkeysRun_record first, ih others]
      rfl

/-! ## The table -/

section Table

variable {certs : List SigCert} {name key : Bytes}

/-- The entry that `HASH_FIND` meets. -/
def lookupSigCert (certs : List SigCert) (key : Bytes) : Option SigCert :=
  (findSigCert certs key).bind fun index => certs[index]?

theorem findSigCert_append (certs : List SigCert) (cert : SigCert) (key : Bytes) :
    findSigCert (certs ++ [cert]) key =
      if cert.name = key then some certs.length else findSigCert certs key := by
  unfold findSigCert
  rw [List.reverse_append, List.reverse_singleton, List.singleton_append, List.findIdx?_cons,
    List.length_append, List.length_singleton]
  by_cases same : cert.name = key
  · rw [if_pos same, decide_eq_true same]
    rfl
  · rw [if_neg same, decide_eq_false same]
    simp only [Bool.false_eq_true, if_false, Option.map_map]
    congr 1
    funext back
    simp only [Function.comp_apply]
    omega

theorem lt_of_findSigCert {index : Nat} (found : findSigCert certs key = some index) :
    index < certs.length := by
  induction certs using List.reverseRecOn with
  | nil => cases found
  | append_singleton certs cert ih =>
      rw [findSigCert_append] at found
      rw [List.length_append, List.length_singleton]
      split at found
      · obtain rfl := Option.some.inj found
        exact Nat.lt_succ_self _
      · exact Nat.lt_succ_of_lt (ih found)

theorem lookupSigCert_append (certs : List SigCert) (cert : SigCert) (key : Bytes) :
    lookupSigCert (certs ++ [cert]) key =
      if cert.name = key then some cert else lookupSigCert certs key := by
  unfold lookupSigCert
  rw [findSigCert_append]
  split
  · exact List.getElem?_concat_length
  · cases found : findSigCert certs key with
    | none => rfl
    | some index => exact List.getElem?_append_left (lt_of_findSigCert found)

theorem modify_append {index : Nat} (inside : index < certs.length) (cert : SigCert)
    (change : SigCert → SigCert) :
    (certs ++ [cert]).modify index change = certs.modify index change ++ [cert] := by
  induction certs generalizing index with
  | nil => cases inside
  | cons first certs ih =>
      cases index with
      | zero => rfl
      | succ index => exact congrArg (first :: ·) (ih (Nat.lt_of_succ_lt_succ inside))

theorem modify_last (certs : List SigCert) (cert : SigCert) (change : SigCert → SigCert) :
    (certs ++ [cert]).modify certs.length change = certs ++ [change cert] := by
  induction certs with
  | nil => rfl
  | cons first certs ih => exact congrArg (first :: ·) ih

/-- Data that goes to the entry of a name. -/
theorem lookupSigCert_modify {index : Nat} {change : SigCert → SigCert}
    (found : findSigCert certs name = some index) (keeps : ∀ cert, (change cert).name = cert.name)
    (key : Bytes) :
    lookupSigCert (certs.modify index change) key =
      if key = name then (lookupSigCert certs name).map change else lookupSigCert certs key := by
  induction certs using List.reverseRecOn with
  | nil => cases found
  | append_singleton certs cert ih =>
      rw [findSigCert_append] at found
      rw [lookupSigCert_append certs cert name, lookupSigCert_append certs cert key]
      by_cases last : cert.name = name
      · rw [if_pos last] at found
        obtain rfl := Option.some.inj found
        rw [modify_last, lookupSigCert_append, keeps, last]
        by_cases same : key = name
        · rw [if_pos same, if_pos same.symm, if_pos rfl]
          rfl
        · rw [if_neg same, if_neg (Ne.symm same), if_neg (Ne.symm same)]
      · rw [if_neg last] at found
        rw [modify_append (lt_of_findSigCert found), lookupSigCert_append, ih found, if_neg last]
        by_cases same : key = name
        · rw [if_pos same, if_pos same, if_neg (fun isKey => last (isKey.trans same))]
        · rw [if_neg same, if_neg same]

theorem findSigCert_eq_none :
    findSigCert certs key = none ↔ ∀ cert ∈ certs, cert.name ≠ key := by
  induction certs using List.reverseRecOn with
  | nil => exact iff_of_true rfl (List.forall_mem_nil _)
  | append_singleton certs cert ih =>
      rw [findSigCert_append, List.forall_mem_append, List.forall_mem_singleton, ← ih]
      by_cases same : cert.name = key
      · rw [if_pos same]
        exact iff_of_false (Option.some_ne_none _) fun both => both.2 same
      · rw [if_neg same]
        exact (and_iff_left same).symm

end Table

theorem zero_notMem_cString (name : Bytes) : 0 ∉ cString name := by
  intro member
  have nonzero := List.mem_takeWhile_imp member
  exact of_decide_eq_true nonzero rfl

theorem cString_eq_self {name : Bytes} (plain : 0 ∉ name) : cString name = name := by
  refine List.takeWhile_eq_self_iff.mpr fun byte member => decide_eq_true ?_
  rintro rfl
  exact plain member

/-- The table after complete records. -/
def sigTable (records : List SigRecord) : List SigCert :=
  records.foldl (fun certs record => record.store certs) []

theorem sigTable_append (records : List SigRecord) (record : SigRecord) :
    sigTable (records ++ [record]) = record.store (sigTable records) :=
  List.foldl_concat ..

section Store

variable {certs : List SigCert} {record : SigRecord}

theorem store_known {index : Nat} (found : findSigCert certs record.name = some index) :
    record.store certs =
      certs.modify index fun cert => cert.withData record.type record.data := by
  rw [SigRecord.store, sigTarget, found]
  rfl

theorem store_new (missing : findSigCert certs record.name = none) :
    record.store certs =
      certs ++ [SigCert.withData { name := cString record.name } record.type record.data] := by
  rw [SigRecord.store, sigTarget, missing]
  rfl

theorem withData_name (cert : SigCert) (type : UInt8) (data : Bytes) :
    (cert.withData type data).name = cert.name := by
  unfold SigCert.withData
  split <;> rfl

end Store

theorem map_name_modify (certs : List SigCert) (index : Nat) {change : SigCert → SigCert}
    (keeps : ∀ cert, (change cert).name = cert.name) :
    (certs.modify index change).map SigCert.name = certs.map SigCert.name := by
  induction certs generalizing index with
  | nil => cases index <;> rfl
  | cons cert certs ih =>
      cases index with
      | zero => exact congrArg (· :: certs.map SigCert.name) (keeps cert)
      | succ index => exact congrArg (cert.name :: ·) (ih index)

/-- The names of the entries are those of the records, up to a zero in them. -/
theorem mem_names_sigTable (records : List SigRecord) (name : Bytes) :
    name ∈ (sigTable records).map SigCert.name ↔
      name ∈ records.map fun record => cString record.name := by
  induction records using List.reverseRecOn generalizing name with
  | nil => exact Iff.rfl
  | append_singleton records record ih =>
      rw [sigTable_append, List.map_append, List.mem_append, List.map_singleton,
        List.mem_singleton]
      cases found : findSigCert (sigTable records) record.name with
      | none =>
          rw [store_new found, List.map_append, List.mem_append, List.map_singleton,
            List.mem_singleton, withData_name, ih]
      | some index =>
          rw [store_known found, map_name_modify _ _ fun cert => withData_name cert _ _, ih]
          have known : record.name ∈ (sigTable records).map SigCert.name := by
            by_contra missing
            have notFound := findSigCert_eq_none.mpr fun cert member same =>
              missing (List.mem_map.mpr ⟨cert, member, same⟩)
            exact Option.some_ne_none index (found.symm.trans notFound)
          have listed := (ih record.name).mp known
          obtain ⟨earlier, member, same⟩ := List.mem_map.mp listed
          have plain : cString record.name = record.name :=
            cString_eq_self (same ▸ zero_notMem_cString earlier.name)
          refine (or_iff_left_of_imp ?_).symm
          rintro rfl
          rw [plain]
          exact listed

theorem findSigCert_sigTable (records : List SigRecord) (name : Bytes) :
    findSigCert (sigTable records) name = none ↔
      ∀ record ∈ records, cString record.name ≠ name := by
  have names := not_congr (mem_names_sigTable records name)
  simp only [List.mem_map, not_exists, not_and] at names
  exact findSigCert_eq_none.trans names

/-! ## What the table says about a name -/

/-- The signature of an entry for the type 0, its certificate for the type 1. -/
def SigCert.data (type : UInt8) (cert : SigCert) : Option Bytes :=
  if type = 0 then cert.sig else cert.cert

/-- The last data of the type given for the name. -/
def lastData (type : UInt8) (records : List SigRecord) (name : Bytes) : Option Bytes :=
  ((records.filter fun record => record.type = type ∧ record.name = name).getLast?).map
    SigRecord.data

/-- For every name the last signature and the last certificate. -/
def TableHolds (certs : List SigCert) (records : List SigRecord) : Prop :=
  ∀ type, type = 0 ∨ type = 1 → ∀ name,
    (lookupSigCert certs name).bind (SigCert.data type) = lastData type records name

theorem lastData_append (type : UInt8) (records : List SigRecord) (record : SigRecord)
    (name : Bytes) :
    lastData type (records ++ [record]) name =
      if record.type = type ∧ record.name = name then some record.data
      else lastData type records name := by
  unfold lastData
  rw [List.filter_append]
  by_cases given : record.type = type ∧ record.name = name
  · rw [if_pos given, List.filter_singleton, decide_eq_true given]
    simp
  · rw [if_neg given, List.filter_singleton, decide_eq_false given]
    simp

theorem data_withData {type given : UInt8} (isType : type = 0 ∨ type = 1)
    (isGiven : given = 0 ∨ given = 1) (cert : SigCert) (data : Bytes) :
    (cert.withData given data).data type = if given = type then some data else cert.data type := by
  obtain rfl | rfl := isType <;> obtain rfl | rfl := isGiven <;> rfl

/-- Names without a zero. -/
theorem tableHolds_sigTable {records : List SigRecord}
    (complete : ∀ record ∈ records, record.Complete) (plain : ∀ record ∈ records, 0 ∉ record.name) :
    TableHolds (sigTable records) records := by
  intro type isType name
  induction records using List.reverseRecOn generalizing name with
  | nil => rfl
  | append_singleton records record ih =>
      rw [List.forall_mem_append, List.forall_mem_singleton] at complete plain
      have before := ih complete.1 plain.1
      have isGiven := complete.2.type
      rw [sigTable_append, lastData_append]
      cases found : findSigCert (sigTable records) record.name with
      | none =>
          have nothing : lookupSigCert (sigTable records) record.name = none := by
            rw [lookupSigCert, found]
            rfl
          rw [store_new found, lookupSigCert_append, withData_name]
          dsimp only
          rw [cString_eq_self plain.2]
          by_cases same : record.name = name
          · rw [if_pos same, Option.bind_some, data_withData isType isGiven, ← before, ← same, nothing]
            have unset : SigCert.data type { name := record.name } = none := by
              unfold SigCert.data
              split <;> rfl
            simp only [and_true, unset, Option.bind_none]
          · rw [if_neg same, if_neg (fun both => same both.2), before]
      | some index =>
          rw [store_known found, lookupSigCert_modify found fun cert => withData_name cert _ _,
            ← before]
          by_cases same : name = record.name
          · have known : lookupSigCert (sigTable records) record.name =
                some ((sigTable records).get ⟨index, lt_of_findSigCert found⟩) := by
              rw [lookupSigCert, found]
              exact List.getElem?_eq_getElem (lt_of_findSigCert found)
            rw [if_pos same, same, known, Option.map_some, Option.bind_some, Option.bind_some,
              data_withData isType isGiven]
            simp only [and_true]
          · rw [if_neg same, if_neg (fun both => same both.2.symm)]

theorem lastData_ne_none {records : List SigRecord} {record : SigRecord}
    (member : record ∈ records) : lastData record.type records record.name ≠ none := by
  intro nothing
  have empty := List.getLast?_eq_none_iff.mp (Option.map_eq_none_iff.mp nothing)
  exact List.filter_eq_nil_iff.mp empty record member (decide_eq_true ⟨rfl, rfl⟩)

/-- A zero in a name: `HASH_FIND` takes the whole of it, `HASH_ADD_STR` what is in front. -/
theorem not_tableHolds_sigTable {records : List SigRecord} {record : SigRecord}
    (complete : record.Complete) (member : record ∈ records) (zero : 0 ∈ record.name) :
    ¬TableHolds (sigTable records) records := by
  intro holds
  have missing : findSigCert (sigTable records) record.name = none := by
    refine (findSigCert_sigTable records record.name).mpr fun other _ same => ?_
    exact zero_notMem_cString other.name (same ▸ zero)
  have nothing : lookupSigCert (sigTable records) record.name = none := by
    rw [lookupSigCert, missing]
    rfl
  refine lastData_ne_none member ?_
  rw [← holds record.type complete.type record.name, nothing]
  rfl

/-! ## What is left behind the records -/

/-- A record that ends with one of its fields. -/
inductive BrokenOff : Bytes → Prop
  | type {type : UInt8} (isType : type = 0 ∨ type = 1) : BrokenOff [type]
  | flen {type : UInt8} {four : Bytes} (isType : type = 0 ∨ type = 1)
      (isFour : four.length = 4) : BrokenOff (type :: four)
  | file {type : UInt8} {name : Bytes} (isType : type = 0 ∨ type = 1) (notEmpty : name ≠ [])
      (bound : name.length < maxPathLen) : BrokenOff (type :: (intBytes name.length ++ name))
  | siglen {type : UInt8} {name four : Bytes} (isType : type = 0 ∨ type = 1)
      (notEmpty : name ≠ []) (bound : name.length < maxPathLen) (isFour : four.length = 4) :
      BrokenOff (type :: (intBytes name.length ++ (name ++ four)))

/-- A record that is not complete has some of its data. -/
structure DataBegun (rest name : Bytes) : Prop where
  notEmpty : name ≠ []
  bound : name.length < maxPathLen
  begins : ∃ type four data, (type = 0 ∨ type = 1) ∧ four.length = 4 ∧ data ≠ [] ∧
    rest = type :: (intBytes name.length ++ (name ++ (four ++ data)))

theorem name_int {name : Bytes} (bound : name.length < maxPathLen) (rest : Bytes) :
    readInt (intBytes name.length ++ rest) = some (name.length : Int) :=
  readInt_intBytes (Nat.lt_trans bound (by decide)) rest

theorem brokenOff_ok {rest : Bytes} (broken : BrokenOff rest) (certs : List SigCert) :
    (sigkeysRun 0 .type certs rest).ok = true := by
  have ended (state : SigkeysState) : (sigkeysRun 0 state certs []).ok = true := rfl
  cases broken with
  | type isType =>
      rw [sigkeysRun_type isType]
      exact ended _
  | @flen _ four isType isFour =>
      obtain ⟨len, read⟩ := readInt_append isFour
      rw [sigkeysRun_type isType, ← List.append_nil four, sigkeysRun_flen isFour (read [])]
      exact ended _
  | @file type name isType notEmpty bound =>
      have passed := @sigkeysRun_file certs type [] name notEmpty bound
      rw [List.append_nil] at passed
      rw [sigkeysRun_type isType, sigkeysRun_flen rfl (name_int bound _), passed]
      exact ended _
  | @siglen _ name four isType notEmpty bound isFour =>
      obtain ⟨len, read⟩ := readInt_append isFour
      rw [sigkeysRun_type isType, sigkeysRun_flen rfl (name_int bound _),
        sigkeysRun_file notEmpty bound, ← List.append_nil four,
        sigkeysRun_siglen isFour (read [])]
      exact ended _

theorem exists_four (rest : Bytes) :
    readInt rest = none ∨ ∃ four tail len, four.length = 4 ∧ rest = four ++ tail ∧
      ∀ other, readInt (four ++ other) = some len := by
  match rest with
  | [] => exact .inl rfl
  | [_] => exact .inl rfl
  | [_, _] => exact .inl rfl
  | [_, _, _] => exact .inl rfl
  | b0 :: b1 :: b2 :: b3 :: tail => exact .inr ⟨[b0, b1, b2, b3], tail, _, rfl, rfl, fun _ => rfl⟩

/-- The four bytes of a positive `int`. -/
theorem eq_intBytes {four rest : Bytes} {len : Int} (isFour : four.length = 4)
    (read : readInt (four ++ rest) = some len) (positive : 0 < len) :
    four = intBytes len.toNat ∧ len < 2147483648 := by
  match four, isFour with
  | [b0, b1, b2, b3], _ =>
      have value := Option.some.inj read
      have lt0 := b0.toNat_lt
      have lt1 := b1.toNat_lt
      have lt2 := b2.toNat_lt
      have lt3 := b3.toNat_lt
      rw [Int.bmod_def] at value
      have isLen : len.toNat =
          b0.toNat + 256 * b1.toNat + 65536 * b2.toNat + 16777216 * b3.toNat := by
        split at value <;> omega
      have small : len < 2147483648 := by
        split at value <;> omega
      have byte (b : UInt8) (n : Nat) (same : n % 256 = b.toNat) : b = UInt8.ofNat n := by
        rw [← UInt8.toNat_inj, UInt8.toNat_ofNat']
        exact same.symm
      have byte0 : len.toNat % 256 = b0.toNat := by omega
      have byte1 : len.toNat / 256 % 256 = b1.toNat := by omega
      have byte2 : len.toNat / 65536 % 256 = b2.toNat := by omega
      have byte3 : len.toNat / 16777216 % 256 = b3.toNat := by omega
      refine ⟨?_, small⟩
      rw [byte b0 _ byte0, byte b1 _ byte1, byte b2 _ byte2, byte b3 _ byte3]
      rfl

/-- How a run over what is left may end. -/
structure RestEnds (certs : List SigCert) (rest : Bytes) (run : SigkeysEnd) : Prop where
  ok : run.ok = true → BrokenOff rest
  freed : ∀ index, run.freed = some (.known index) →
    ∃ name, DataBegun rest name ∧ findSigCert certs name ≠ none

theorem restEnds_ok {certs : List SigCert} {rest : Bytes} (broken : BrokenOff rest) :
    RestEnds certs rest ⟨true, certs, none⟩ :=
  ⟨fun _ => broken, nofun⟩

theorem restEnds_fails {certs : List SigCert} {rest : Bytes} :
    RestEnds certs rest ⟨false, certs, none⟩ :=
  ⟨nofun, nofun⟩

/-- The data of a record that is not complete. -/
theorem short_of_ended {type : UInt8} {name four tail : Bytes} {len : Int}
    (isType : type = 0 ∨ type = 1) (notEmpty : name ≠ []) (bound : name.length < maxPathLen)
    (isFour : four.length = 4) (read : ∀ other, readInt (four ++ other) = some len)
    (ended : ∀ record : SigRecord, record.Complete →
      ¬record.bytes <+: type :: (intBytes name.length ++ (name ++ (four ++ tail)))) :
    (tail.length : Int) < len ∨ len ≤ 0 := by
  by_contra short
  rw [not_or, Int.not_lt, Int.not_le] at short
  obtain ⟨isInt, small⟩ := eq_intBytes isFour (read []) short.2
  have dataLength : (tail.take len.toNat).length = len.toNat := by
    rw [List.length_take]
    omega
  refine ended ⟨type, name, tail.take len.toNat⟩ ⟨isType, notEmpty, bound, ?_, ?_⟩
    ⟨tail.drop len.toNat, ?_⟩
  · refine List.ne_nil_of_length_pos ?_
    rw [dataLength]
    omega
  · rw [dataLength]
    omega
  · simp only [SigRecord.bytes, sigRecord, List.cons_append, List.append_assoc,
      List.take_append_drop, dataLength, ← isInt]

theorem restEnds_sig {certs : List SigCert} {type : UInt8} {name four tail : Bytes} {len : Int}
    (isType : type = 0 ∨ type = 1) (notEmpty : name ≠ []) (bound : name.length < maxPathLen)
    (isFour : four.length = 4) (read : ∀ other, readInt (four ++ other) = some len)
    (ended : ∀ record : SigRecord, record.Complete →
      ¬record.bytes <+: type :: (intBytes name.length ++ (name ++ (four ++ tail)))) :
    RestEnds certs (type :: (intBytes name.length ++ (name ++ (four ++ tail))))
      (sigkeysRun 0 (.sig type (sigTarget certs name) len) certs tail) := by
  by_cases nothing : tail = []
  · rw [nothing, List.append_nil]
    exact restEnds_ok (.siglen isType notEmpty bound isFour)
  · have short := short_of_ended isType notEmpty bound isFour read ended
    rw [sigkeysRun_fails nothing (by rw [sigkeysStep, if_pos short])]
    refine ⟨nofun, fun index freed => ⟨name, ⟨notEmpty, bound, type, four, tail,
      isType, isFour, nothing, rfl⟩, fun missing => ?_⟩⟩
    have target : sigTarget certs name = .known index := Option.some.inj freed
    rw [sigTarget, missing] at target
    cases target

/-- The name of a record and what follows. -/
theorem restEnds_file {certs : List SigCert} {type : UInt8} {four tail : Bytes} {len : Int}
    (isType : type = 0 ∨ type = 1) (isFour : four.length = 4)
    (read : ∀ other, readInt (four ++ other) = some len)
    (ended : ∀ record : SigRecord, record.Complete → ¬record.bytes <+: type :: (four ++ tail)) :
    RestEnds certs (type :: (four ++ tail)) (sigkeysRun 0 (.file type len) certs tail) := by
  by_cases nothing : tail = []
  · rw [nothing, List.append_nil]
    exact restEnds_ok (.flen isType isFour)
  by_cases short : (tail.length : Int) < len ∨ len ≤ 0
  · rw [sigkeysRun_fails nothing (by rw [sigkeysStep, if_pos short])]
    exact restEnds_fails
  by_cases long : (maxPathLen : Int) ≤ len
  · rw [sigkeysRun_fails nothing (by rw [sigkeysStep, if_neg short, if_pos long])]
    exact restEnds_fails
  rw [not_or, Int.not_lt, Int.not_le] at short
  obtain ⟨isInt, -⟩ := eq_intBytes isFour (read []) short.2
  obtain ⟨name, rest, rfl, nameLength⟩ : ∃ name rest, tail = name ++ rest ∧
      (name.length : Int) = len := by
    refine ⟨tail.take len.toNat, tail.drop len.toNat, (List.take_append_drop _ _).symm, ?_⟩
    rw [List.length_take]
    omega
  obtain rfl : four = intBytes name.length := by rw [isInt, ← nameLength, Int.toNat_natCast]
  have notEmpty : name ≠ [] := by
    refine List.ne_nil_of_length_pos ?_
    omega
  have bound : name.length < maxPathLen := by omega
  rw [← nameLength, sigkeysRun_file notEmpty bound]
  obtain nothing | ⟨four, tail, dataLen, isFour, rfl, readData⟩ := exists_four rest
  · by_cases atEnd : rest = []
    · rw [atEnd, List.append_nil]
      exact restEnds_ok (.file isType notEmpty bound)
    · rw [sigkeysRun_fails atEnd (by rw [sigkeysStep, nothing]; rfl)]
      exact restEnds_fails
  · rw [sigkeysRun_siglen isFour (readData tail)]
    exact restEnds_sig isType notEmpty bound isFour readData ended

theorem restEnds_type {certs : List SigCert} {rest : Bytes} (left : rest ≠ [])
    (ended : ∀ record : SigRecord, record.Complete → ¬record.bytes <+: rest) :
    RestEnds certs rest (sigkeysRun 0 .type certs rest) := by
  cases rest with
  | nil => exact absurd rfl left
  | cons type rest =>
      by_cases isType : type = 0 ∨ type = 1
      · rw [sigkeysRun_type isType]
        obtain nothing | ⟨four, tail, len, isFour, rfl, read⟩ := exists_four rest
        · by_cases atEnd : rest = []
          · rw [atEnd]
            exact restEnds_ok (.type isType)
          · rw [sigkeysRun_fails atEnd (by rw [sigkeysStep, nothing]; rfl)]
            exact restEnds_fails
        · rw [sigkeysRun_flen isFour (read tail)]
          exact restEnds_file isType isFour read ended
      · rw [sigkeysRun_fails left (by rw [sigkeysStep, if_neg isType])]
        exact restEnds_fails

/-- The entry of a name that the table has, and data that are not all there. -/
theorem freed_of_dataBegun {certs : List SigCert} {rest name : Bytes} (begun : DataBegun rest name)
    (known : findSigCert certs name ≠ none)
    (ended : ∀ record : SigRecord, record.Complete → ¬record.bytes <+: rest) :
    ∃ index, (sigkeysRun 0 .type certs rest).freed = some (.known index) := by
  obtain ⟨notEmpty, bound, type, four, data, isType, isFour, someData, rfl⟩ := begun
  obtain ⟨len, read⟩ := readInt_append isFour
  obtain ⟨index, found⟩ := Option.ne_none_iff_exists'.mp known
  rw [sigkeysRun_type isType, sigkeysRun_flen rfl (name_int bound _),
    sigkeysRun_file notEmpty bound, sigkeysRun_siglen isFour (read data)]
  have short := short_of_ended isType notEmpty bound isFour read ended
  rw [sigkeysRun_fails someData (by rw [sigkeysStep, if_pos short]), sigTarget, found]
  exact ⟨index, rfl⟩

/-! ## Exactly the format -/

/-- What is promised for an input. -/
structure ParsesExactly (input : Bytes) : Prop where
  accepts : (parseSigkeys input).ok = true ↔
    ∃ records : List SigRecord, (∀ record ∈ records, record.Complete) ∧
      input = records.flatMap SigRecord.bytes
  holds : ∀ records : List SigRecord, (∀ record ∈ records, record.Complete) →
    input = records.flatMap SigRecord.bytes → TableHolds (parseSigkeys input).certs records
  intact : (parseSigkeys input).ok = false →
    ∀ index, (parseSigkeys input).freed ≠ some (.known index)

/-- The complete records of an input and what is left of it. -/
abbrev SigSplit (input : Bytes) (records : List SigRecord) (rest : Bytes) : Prop :=
  Lib.SplitsInto SigRecord.Complete SigRecord.bytes input records rest

theorem parseSigkeys_split {input rest : Bytes} {records : List SigRecord}
    (splits : SigSplit input records rest) :
    parseSigkeys input = sigkeysRun 0 .type (sigTable records) rest := by
  unfold parseSigkeys
  rw [splits.joined]
  exact sigkeysRun_records splits.areWords [] rest

/-- A row of complete records leaves nothing. -/
theorem eq_of_split {input rest : Bytes} {records others : List SigRecord}
    (splits : SigSplit input records rest) (complete : ∀ record ∈ others, record.Complete)
    (input_eq : input = others.flatMap SigRecord.bytes) : records = others ∧ rest = [] := by
  have whole := selfDelimiting_bytes.splitsInto_flatMap complete
  rw [← input_eq] at whole
  exact selfDelimiting_bytes.splitsInto_unique splits whole

theorem parsesExactly_nil {input : Bytes} {records : List SigRecord}
    (splits : SigSplit input records []) :
    ParsesExactly input ↔ ∀ record ∈ records, 0 ∉ record.name := by
  have run := parseSigkeys_split splits
  have joined : input = records.flatMap SigRecord.bytes :=
    splits.joined.trans (List.append_nil _)
  constructor
  · intro exactly record member zero
    have holds := exactly.holds records splits.areWords joined
    rw [run] at holds
    exact not_tableHolds_sigTable (splits.areWords record member) member zero holds
  · intro plain
    refine ⟨iff_of_true (by rw [run]; rfl) ⟨records, splits.areWords, joined⟩, ?_, ?_⟩
    · intro others complete input_eq
      obtain ⟨rfl, -⟩ := eq_of_split splits complete input_eq
      rw [run]
      exact tableHolds_sigTable complete plain
    · intro fails
      rw [run] at fails
      cases fails

theorem parsesExactly_rest {input rest : Bytes} {records : List SigRecord}
    (splits : SigSplit input records rest) (left : rest ≠ []) :
    ParsesExactly input ↔ ¬BrokenOff rest ∧
      ∀ record ∈ records, ¬DataBegun rest (cString record.name) := by
  have run := parseSigkeys_split splits
  have ends := @restEnds_type (sigTable records) rest left splits.ended
  rw [← run] at ends
  have noRow (others : List SigRecord) (complete : ∀ record ∈ others, record.Complete) :
      input ≠ others.flatMap SigRecord.bytes := fun input_eq =>
    left (eq_of_split splits complete input_eq).2
  have known (name : Bytes) : findSigCert (sigTable records) name ≠ none ↔
      ∃ record ∈ records, cString record.name = name := by
    rw [Ne, findSigCert_sigTable]
    simp only [not_forall, not_not, exists_prop]
  constructor
  · intro exactly
    have fails : (parseSigkeys input).ok = false := by
      rw [← Bool.not_eq_true, exactly.accepts]
      rintro ⟨others, complete, input_eq⟩
      exact noRow others complete input_eq
    refine ⟨fun broken => ?_, fun record member begun => ?_⟩
    · have ok := brokenOff_ok broken (sigTable records)
      rw [← run, fails] at ok
      cases ok
    · obtain ⟨index, freed⟩ := freed_of_dataBegun begun ((known _).mpr ⟨record, member, rfl⟩)
        splits.ended
      rw [← run] at freed
      exact exactly.intact fails index freed
  · rintro ⟨whole, apart⟩
    refine ⟨iff_of_false (fun ok => whole (ends.ok ok)) ?_, ?_, ?_⟩
    · rintro ⟨others, complete, input_eq⟩
      exact noRow others complete input_eq
    · intro others complete input_eq
      exact absurd input_eq (noRow others complete)
    · intro _ index freed
      obtain ⟨name, begun, isKnown⟩ := ends.freed index freed
      obtain ⟨record, member, rfl⟩ := (known name).mp isKnown
      exact apart record member begun

/-- Exactly the format is read, where the input is complete records whose names have no zero, or
where what is left behind them neither ends with a field nor begins the data of a name that they
have. -/
theorem parsesExactly_iff (input : Bytes) :
    ParsesExactly input ↔ ∃ records rest, SigSplit input records rest ∧
      (rest = [] → ∀ record ∈ records, 0 ∉ record.name) ∧
      (rest ≠ [] → ¬BrokenOff rest ∧
        ∀ record ∈ records, ¬DataBegun rest (cString record.name)) := by
  have exact_of_split (records : List SigRecord) (rest : Bytes)
      (splits : SigSplit input records rest) :
      ParsesExactly input ↔ (rest = [] → ∀ record ∈ records, 0 ∉ record.name) ∧
        (rest ≠ [] → ¬BrokenOff rest ∧
          ∀ record ∈ records, ¬DataBegun rest (cString record.name)) := by
    by_cases left : rest = []
    · subst left
      rw [parsesExactly_nil splits]
      simp
    · rw [parsesExactly_rest splits left]
      simp [left]
  constructor
  · intro exactly
    obtain ⟨records, rest, splits⟩ := selfDelimiting_bytes.exists_splitsInto input
    exact ⟨records, rest, splits, (exact_of_split records rest splits).mp exactly⟩
  · rintro ⟨records, rest, splits, condition⟩
    exact (exact_of_split records rest splits).mpr condition

/-- A reply that ends behind a type is accepted. -/
theorem typeOnly_not_parsesExactly : ¬ParsesExactly [0] := by
  intro exactly
  obtain ⟨records, complete, input⟩ := exactly.accepts.mp rfl
  cases records with
  | nil => cases input
  | cons record records =>
      rw [List.flatMap_cons] at input
      have lengths := congrArg List.length input
      simp only [SigRecord.bytes, sigRecord, List.length_append, List.length_cons,
        length_intBytes, List.length_nil] at lengths
      omega

end Pkgng
