import Mathlib.Logic.Relation
import Pkgng.Net.SrvWeights

/-!
# Reading the answer to a query for SRV records

`dns_getsrvinfo` compares its position with the end of the message at the head of its loops
only; behind a name it reads the fixed fields of a record without looking at the end again.
-/

set_option autoImplicit false

namespace Pkgng

/-- What the parser may do that it must not. -/
inductive SrvFault
  | readPastEnd (position : Nat)
  | noRecord
deriving DecidableEq

/-- The resolver and the C library: the length of the name at a position with its text, and
whether an allocation succeeds. -/
structure SrvEnv where
  dnExpand : List UInt8 → Nat → Option (Nat × List Char)
  qsort : (SrvInfo → SrvInfo → Int) → List SrvInfo → List SrvInfo
  qsort_perm : ∀ cmp res, (qsort cmp res).Perm res
  calloc : Nat → Bool
  malloc : Nat → Bool

/-! ## The fields -/

/-- A byte of the message; the end is an exclusive bound. -/
def byteAt (msg : List UInt8) (p : Nat) : Except SrvFault UInt8 :=
  match msg[p]? with
  | some byte => .ok byte
  | none => .error (.readPastEnd p)

def short (high low : UInt8) : Fin 65536 :=
  ⟨high.toNat * 256 + low.toNat, by have := high.toNat_lt; have := low.toNat_lt; omega⟩

/-- The 16 bits at a position inside the message. -/
def shortAt (msg : List UInt8) (p : Nat) : Fin 65536 := short (msg.getD p 0) (msg.getD (p + 1) 0)

/-- `NS_GET16`. -/
def get16 (msg : List UInt8) (p : Nat) : Except SrvFault (Fin 65536) := do
  let high ← byteAt msg p
  let low ← byteAt msg (p + 1)
  return short high low

/-- `NS_GET32`. -/
def get32 (msg : List UInt8) (p : Nat) : Except SrvFault Nat := do
  let high ← get16 msg p
  let low ← get16 msg (p + 2)
  return high.val * 65536 + low.val

structure RecordFields where
  type : Nat
  rrClass : Nat
  ttl : Nat
  len : Nat

/-- The fields behind the name of a record. -/
def recordFields (msg : List UInt8) (p : Nat) : Except SrvFault RecordFields := do
  let type ← get16 msg p
  let rrClass ← get16 msg (p + 2)
  let ttl ← get32 msg (p + 4)
  let len ← get16 msg (p + 8)
  return ⟨type, rrClass, ttl, len⟩

structure SrvFields where
  priority : Nat
  weight : Fin 65536
  port : Nat

/-- The fields in front of the target of an SRV record. -/
def srvFields (msg : List UInt8) (p : Nat) : Except SrvFault SrvFields := do
  let priority ← get16 msg p
  let weight ← get16 msg (p + 2)
  let port ← get16 msg (p + 4)
  return ⟨priority, weight, port⟩

/-! ## The parser -/

/-- `T_SRV`. -/
def typeSrv : Nat := 33

def headerSize : Nat := 12

section Parser

variable (env : SrvEnv) (msg : List UInt8)

/-- The loop over the questions; none where the function returns NULL. -/
def skipQuestions : Nat → Nat → Option Nat
  | 0, p => some p
  | qdcount + 1, p =>
      if p < msg.length then
        match env.dnExpand msg p with
        | none => none
        | some (len, _) => skipQuestions qdcount (p + len + 4)
      else some p

/-- The loop over the answers with the records collected so far; none where the function
returns NULL. -/
def readAnswers : Nat → Nat → List SrvInfo → Except SrvFault (Option (List SrvInfo))
  | 0, _, res => .ok (some res)
  | ancount + 1, p, res =>
      if p < msg.length then
        match env.dnExpand msg p with
        | none => .ok none
        | some (len, _) => do
            let p := p + len
            let fields ← recordFields msg p
            let p := p + 10
            if fields.type ≠ typeSrv then readAnswers ancount (p + fields.len) res
            else do
              let srv ← srvFields msg p
              let p := p + 6
              match env.dnExpand msg p with
              | none => .ok none
              | some (len, host) =>
                  if env.malloc res.length then
                    readAnswers ancount (p + len) (res ++ [
                      { type := fields.type, rrClass := fields.rrClass, ttl := fields.ttl,
                        priority := srv.priority, weight := srv.weight, port := srv.port,
                        finalweight := 0, host, weight_lt := srv.weight.isLt }])
                  else .ok none
      else .ok (some res)

def srvPriorityCmp (da db : SrvInfo) : Int :=
  (if db.priority < da.priority then 1 else 0) - (if da.priority < db.priority then 1 else 0)

def srvFinalCmp (da db : SrvInfo) : Int :=
  if srvPriorityCmp da db = 0 then
    (if da.finalweight < db.finalweight then 1 else 0) -
      (if db.finalweight < da.finalweight then 1 else 0)
  else srvPriorityCmp da db

/-- What `dns_getsrvinfo` does behind the parser: the records in their order, of which the
first is returned, or where `compute_weight` does not come back. -/
def orderRecords (res : List SrvInfo) (randoms : List Nat) : Except SrvFault Drawn :=
  match selectWeights (env.qsort srvPriorityCmp res) randoms with
  | .done res randoms =>
      match env.qsort srvFinalCmp res with
      | [] => .error .noRecord
      | first :: others => .ok (.done (first :: others) randoms)
  | stopped => .ok stopped

/-- `dns_getsrvinfo` for the message that `res_query` returns; none is NULL. -/
def dnsGetsrvinfo (randoms : List Nat) : Except SrvFault (Option Drawn) :=
  if msg.length < headerSize then .ok none
  else
    match skipQuestions env msg (shortAt msg 4) headerSize with
    | none => .ok none
    | some p =>
        if env.calloc (shortAt msg 6) then do
          match ← readAnswers env msg (shortAt msg 6) p [] with
          | none => .ok none
          | some res => do
              let ordered ← orderRecords env res randoms
              return some ordered
        else .ok none

end Parser

/-! ## Reading the fields -/

section Fields

variable {msg : List UInt8} {p : Nat}

theorem byteAt_ok (inside : p < msg.length) : byteAt msg p = .ok (msg.getD p 0) := by
  rw [byteAt, List.getD_eq_getElem?_getD, List.getElem?_eq_getElem inside]
  rfl

theorem byteAt_error (outside : msg.length ≤ p) : byteAt msg p = .error (.readPastEnd p) := by
  rw [byteAt, List.getElem?_eq_none outside]

theorem get16_ok (inside : p + 2 ≤ msg.length) : get16 msg p = .ok (shortAt msg p) := by
  rw [get16, byteAt_ok (by omega), byteAt_ok (by omega)]
  rfl

theorem get16_error (outside : msg.length < p + 2) : ∃ fault, get16 msg p = .error fault := by
  rw [get16]
  rcases Nat.lt_or_ge p msg.length with inside | past
  · rw [byteAt_ok inside, byteAt_error (by omega)]
    exact ⟨_, rfl⟩
  · rw [byteAt_error past]
    exact ⟨_, rfl⟩

theorem get32_ok (inside : p + 4 ≤ msg.length) :
    get32 msg p = .ok ((shortAt msg p).val * 65536 + (shortAt msg (p + 2)).val) := by
  rw [get32, get16_ok (by omega), get16_ok (by omega)]
  rfl

theorem recordFields_ok (inside : p + 10 ≤ msg.length) :
    recordFields msg p = .ok ⟨shortAt msg p, shortAt msg (p + 2),
      (shortAt msg (p + 4)).val * 65536 + (shortAt msg (p + 4 + 2)).val, shortAt msg (p + 8)⟩ := by
  rw [recordFields, get16_ok (by omega), get16_ok (by omega), get32_ok (by omega),
    get16_ok (by omega)]
  rfl

theorem recordFields_error (outside : msg.length < p + 10) :
    ∃ fault, recordFields msg p = .error fault := by
  rw [recordFields]
  obtain ⟨fault, fails⟩ := @get16_error msg (p + 8) outside
  cases get16 msg p with
  | error fault => exact ⟨fault, rfl⟩
  | ok type =>
      cases get16 msg (p + 2) with
      | error fault => exact ⟨fault, rfl⟩
      | ok rrClass =>
          cases get32 msg (p + 4) with
          | error fault => exact ⟨fault, rfl⟩
          | ok ttl =>
              rw [fails]
              exact ⟨fault, rfl⟩

theorem srvFields_ok (inside : p + 6 ≤ msg.length) :
    srvFields msg p =
      .ok ⟨shortAt msg p, shortAt msg (p + 2), shortAt msg (p + 4)⟩ := by
  rw [srvFields, get16_ok (by omega), get16_ok (by omega), get16_ok (by omega)]
  rfl

theorem srvFields_error (outside : msg.length < p + 6) :
    ∃ fault, srvFields msg p = .error fault := by
  rw [srvFields]
  obtain ⟨fault, fails⟩ := @get16_error msg (p + 4) outside
  cases get16 msg p with
  | error fault => exact ⟨fault, rfl⟩
  | ok priority =>
      cases get16 msg (p + 2) with
      | error fault => exact ⟨fault, rfl⟩
      | ok weight =>
          rw [fails]
          exact ⟨fault, rfl⟩

end Fields

/-! ## The layout of the answers -/

/-- The head of the loop over the answers: how many are left, where the next starts, and how
many records have been collected. -/
structure AnswerState where
  left : Nat
  p : Nat
  n : Nat

section Layout

variable (env : SrvEnv) (msg : List UInt8)

/-- From an answer whose fields are inside the message to the next. -/
inductive NextAnswer : AnswerState → AnswerState → Prop
  | other {left p n len : Nat} {host : List Char} (inside : p < msg.length)
      (name : env.dnExpand msg p = some (len, host)) (fields : p + len + 10 ≤ msg.length)
      (isOther : shortAt msg (p + len) ≠ typeSrv) :
      NextAnswer ⟨left + 1, p, n⟩ ⟨left, p + len + 10 + shortAt msg (p + len + 8), n⟩
  | srv {left p n len targetLen : Nat} {host target : List Char} (inside : p < msg.length)
      (name : env.dnExpand msg p = some (len, host)) (fields : p + len + 16 ≤ msg.length)
      (isSrv : shortAt msg (p + len) = typeSrv)
      (targetName : env.dnExpand msg (p + len + 16) = some (targetLen, target))
      (allocated : env.malloc n = true) :
      NextAnswer ⟨left + 1, p, n⟩ ⟨left, p + len + 16 + targetLen, n + 1⟩

/-- The fields of the answer that starts here are inside the message. -/
def FieldsInside (s : AnswerState) : Prop :=
  s.left ≠ 0 → s.p < msg.length → ∀ len host, env.dnExpand msg s.p = some (len, host) →
    s.p + len + 10 ≤ msg.length ∧
      (shortAt msg (s.p + len) = typeSrv → s.p + len + 16 ≤ msg.length)

/-- If there are no more answers, one of them was an SRV record. -/
def RecordFound (s : AnswerState) : Prop := s.left = 0 ∨ msg.length ≤ s.p → s.n ≠ 0

/-- From here on the fields of every answer that is reached are inside, and a record is
found. -/
def WellLaidOut (s : AnswerState) : Prop :=
  ∀ t, Relation.ReflTransGen (NextAnswer env msg) s t →
    FieldsInside env msg t ∧ RecordFound msg t

/-- The loop over the answers comes to its end with a record, or returns NULL. -/
def Collects (left p : Nat) (res : List SrvInfo) : Prop :=
  ∃ out, readAnswers env msg left p res = .ok out ∧ ∀ found, out = some found → found ≠ []

end Layout

section Answers

variable {env : SrvEnv} {msg : List UInt8}

theorem wellLaidOut_next {s s' : AnswerState} (next : NextAnswer env msg s s')
    (only : ∀ t, NextAnswer env msg s t → t = s') :
    WellLaidOut env msg s ↔
      (FieldsInside env msg s ∧ RecordFound msg s) ∧ WellLaidOut env msg s' := by
  constructor
  · exact fun all => ⟨all s .refl, fun t reached => all t (.head next reached)⟩
  · rintro ⟨here, later⟩ t reached
    rcases reached.cases_head with rfl | ⟨mid, first, rest⟩
    · exact here
    · exact later t (only mid first ▸ rest)

theorem wellLaidOut_stuck {s : AnswerState} (stuck : ∀ t, ¬NextAnswer env msg s t) :
    WellLaidOut env msg s ↔ FieldsInside env msg s ∧ RecordFound msg s := by
  constructor
  · exact fun all => all s .refl
  · intro here t reached
    rcases reached.cases_head with rfl | ⟨mid, first, _⟩
    · exact here
    · exact absurd first (stuck mid)

theorem ends_iff (res : List SrvInfo) :
    (∃ out, (.ok (some res) : Except SrvFault _) = .ok out ∧
      ∀ found, out = some found → found ≠ []) ↔ res.length ≠ 0 := by
  rw [ne_eq, List.length_eq_zero_iff]
  constructor
  · rintro ⟨out, same, nonempty⟩
    cases same
    exact nonempty res rfl
  · exact fun nonempty => ⟨some res, rfl, fun found same => Option.some.inj same ▸ nonempty⟩

/-- Where an allocation fails or a name cannot be expanded. -/
theorem returnsNull : ∃ out, (.ok none : Except SrvFault (Option (List SrvInfo))) = .ok out ∧
    ∀ found, out = some found → found ≠ [] :=
  ⟨none, rfl, nofun⟩

section Answer

variable {left p len : Nat} {host : List Char} {res : List SrvInfo}

theorem recordFound_of_more {n : Nat} (here : p < msg.length) :
    RecordFound msg ⟨left + 1, p, n⟩ := by
  rintro (zero | past)
  · cases zero
  · exact absurd past (Nat.not_le.mpr here)

theorem fieldsInside_iff {n : Nat} (here : p < msg.length)
    (name : env.dnExpand msg p = some (len, host)) :
    FieldsInside env msg ⟨left + 1, p, n⟩ ↔ p + len + 10 ≤ msg.length ∧
      (shortAt msg (p + len) = typeSrv → p + len + 16 ≤ msg.length) := by
  constructor
  · exact fun inside => inside (Nat.succ_ne_zero left) here len host name
  · intro inside _ _ len' host' isName
    cases name.symm.trans isName
    exact inside

/-- An answer of another type. -/
theorem collects_other (here : p < msg.length) (name : env.dnExpand msg p = some (len, host))
    (fields : p + len + 10 ≤ msg.length) (isOther : shortAt msg (p + len) ≠ typeSrv) :
    (Collects env msg (left + 1) p res ↔
        Collects env msg left (p + len + 10 + shortAt msg (p + len + 8)) res) ∧
      (WellLaidOut env msg ⟨left + 1, p, res.length⟩ ↔
        WellLaidOut env msg ⟨left, p + len + 10 + shortAt msg (p + len + 8), res.length⟩) := by
  constructor
  · unfold Collects
    rw [readAnswers, if_pos here, name]
    dsimp only
    rw [recordFields_ok fields]
    dsimp only [bind, Except.bind]
    rw [if_pos isOther]
  · rw [wellLaidOut_next (.other here name fields isOther)]
    · exact and_iff_right ⟨(fieldsInside_iff here name).mpr
        ⟨fields, fun isSrv => absurd isSrv isOther⟩, recordFound_of_more here⟩
    · intro t next
      cases next with
      | other _ name' _ _ =>
          cases name.symm.trans name'
          rfl
      | srv _ name' _ isSrv _ _ =>
          cases name.symm.trans name'
          exact absurd isSrv isOther

/-- An SRV record. -/
theorem collects_srv (here : p < msg.length) (name : env.dnExpand msg p = some (len, host))
    (fields : p + len + 16 ≤ msg.length) (isSrv : shortAt msg (p + len) = typeSrv)
    (ih : ∀ p (res : List SrvInfo),
      Collects env msg left p res ↔ WellLaidOut env msg ⟨left, p, res.length⟩) :
    Collects env msg (left + 1) p res ↔ WellLaidOut env msg ⟨left + 1, p, res.length⟩ := by
  have good : FieldsInside env msg ⟨left + 1, p, res.length⟩ ∧
      RecordFound msg ⟨left + 1, p, res.length⟩ :=
    ⟨(fieldsInside_iff here name).mpr ⟨by omega, fun _ => fields⟩, recordFound_of_more here⟩
  have fromTarget : ∀ t, NextAnswer env msg ⟨left + 1, p, res.length⟩ t →
      ∃ targetLen target, env.dnExpand msg (p + len + 16) = some (targetLen, target) ∧
        env.malloc res.length = true ∧ t = ⟨left, p + len + 16 + targetLen, res.length + 1⟩ := by
    intro t next
    cases next with
    | other _ name' _ isOther =>
        cases name.symm.trans name'
        exact absurd isSrv isOther
    | srv _ name' _ _ targetName allocated =>
        cases name.symm.trans name'
        exact ⟨_, _, targetName, allocated, rfl⟩
  unfold Collects
  rw [readAnswers, if_pos here, name]
  dsimp only
  rw [recordFields_ok (by omega)]
  dsimp only [bind, Except.bind]
  rw [if_neg (not_not.mpr isSrv), srvFields_ok (by omega)]
  dsimp only
  cases targetName : env.dnExpand msg (p + len + 10 + 6) with
  | none =>
      have stuck : ∀ t, ¬NextAnswer env msg ⟨left + 1, p, res.length⟩ t := by
        intro t next
        obtain ⟨_, _, isTarget, _⟩ := fromTarget t next
        cases targetName.symm.trans isTarget
      rw [wellLaidOut_stuck stuck]
      exact iff_of_true returnsNull good
  | some expanded =>
      obtain ⟨targetLen, target⟩ := expanded
      dsimp only
      by_cases allocated : env.malloc res.length = true
      · rw [if_pos allocated]
        have next := @NextAnswer.srv env msg left _ _ _ _ _ _ here name fields isSrv targetName
          allocated
        rw [wellLaidOut_next next]
        · rw [and_iff_right good]
          refine Iff.trans (ih (p + len + 16 + targetLen) (res ++ [_])) ?_
          rw [List.length_append, List.length_singleton]
        · intro t other
          obtain ⟨_, _, isTarget, _, rfl⟩ := fromTarget t other
          cases targetName.symm.trans isTarget
          rfl
      · have stuck : ∀ t, ¬NextAnswer env msg ⟨left + 1, p, res.length⟩ t := by
          intro t next
          obtain ⟨_, _, _, isAllocated, _⟩ := fromTarget t next
          exact allocated isAllocated
        rw [if_neg allocated, wellLaidOut_stuck stuck]
        exact iff_of_true returnsNull good

/-- An answer whose fields are not inside. -/
theorem not_collects (here : p < msg.length) (name : env.dnExpand msg p = some (len, host))
    (outside : ¬(p + len + 10 ≤ msg.length ∧
      (shortAt msg (p + len) = typeSrv → p + len + 16 ≤ msg.length))) :
    ¬Collects env msg (left + 1) p res := by
  rintro ⟨out, returned, _⟩
  rw [readAnswers, if_pos here, name] at returned
  dsimp only at returned
  by_cases fields : p + len + 10 ≤ msg.length
  · simp only [fields, true_and, Classical.not_imp] at outside
    rw [recordFields_ok fields] at returned
    dsimp only [bind, Except.bind] at returned
    obtain ⟨fault, fails⟩ := @srvFields_error msg (p + len + 10) (by omega)
    rw [if_neg (not_not.mpr outside.1), fails] at returned
    cases returned
  · obtain ⟨fault, fails⟩ := @recordFields_error msg (p + len) (by omega)
    rw [fails] at returned
    cases returned

end Answer

/-- The loop over the answers does its part exactly if they are well laid out. -/
theorem collects_iff (left p : Nat) (res : List SrvInfo) :
    Collects env msg left p res ↔ WellLaidOut env msg ⟨left, p, res.length⟩ := by
  induction left generalizing p res with
  | zero =>
      have stuck : ∀ t, ¬NextAnswer env msg ⟨0, p, res.length⟩ t := nofun
      rw [wellLaidOut_stuck stuck, Collects, readAnswers, ends_iff]
      exact ⟨fun nonempty => ⟨fun more => absurd rfl more, fun _ => nonempty⟩,
        fun good => good.2 (Or.inl rfl)⟩
  | succ left ih =>
      rcases Nat.lt_or_ge p msg.length with here | past
      · cases name : env.dnExpand msg p with
        | none =>
            have stuck : ∀ t, ¬NextAnswer env msg ⟨left + 1, p, res.length⟩ t := by
              intro t next
              cases next with
              | other _ isName _ _ => cases name.symm.trans isName
              | srv _ isName _ _ _ _ => cases name.symm.trans isName
            rw [wellLaidOut_stuck stuck, Collects, readAnswers, if_pos here, name]
            refine iff_of_true returnsNull ⟨fun _ _ len host isName => ?_, recordFound_of_more here⟩
            cases name.symm.trans isName
        | some expanded =>
            obtain ⟨len, host⟩ := expanded
            by_cases inside : p + len + 10 ≤ msg.length ∧
                (shortAt msg (p + len) = typeSrv → p + len + 16 ≤ msg.length)
            · by_cases isSrv : shortAt msg (p + len) = typeSrv
              · exact collects_srv here name (inside.2 isSrv) isSrv ih
              · have step := @collects_other env msg left p len host res here name inside.1 isSrv
                exact step.1.trans ((ih _ res).trans step.2.symm)
            · exact iff_of_false (not_collects here name inside) fun good =>
                inside ((fieldsInside_iff here name).mp (good _ .refl).1)
      · have stuck : ∀ t, ¬NextAnswer env msg ⟨left + 1, p, res.length⟩ t := by
          intro t next
          cases next <;> omega
        rw [wellLaidOut_stuck stuck, Collects, readAnswers, if_neg (Nat.not_lt.mpr past), ends_iff]
        exact ⟨fun nonempty => ⟨fun _ here => absurd here (Nat.not_lt.mpr past), fun _ => nonempty⟩,
          fun good => good.2 (Or.inr past)⟩

end Answers

/-! ## The whole function -/

section Whole

variable (env : SrvEnv) (msg : List UInt8)

/-- Nothing is read behind the end of the message, nor a record where there is none. -/
def StaysInside : Prop := ∀ randoms fault, dnsGetsrvinfo env msg randoms ≠ .error fault

/-- The function comes to the answers and they start here. -/
def AnswersAt (p : Nat) : Prop :=
  headerSize ≤ msg.length ∧ skipQuestions env msg (shortAt msg 4) headerSize = some p ∧
    env.calloc (shortAt msg 6) = true

theorem orderRecords_ok {res : List SrvInfo} (nonempty : res ≠ []) (randoms : List Nat) :
    ∃ ordered, orderRecords env res randoms = .ok ordered := by
  have count : (env.qsort srvPriorityCmp res).length = res.length :=
    (env.qsort_perm srvPriorityCmp res).length_eq
  unfold orderRecords
  cases drawn : selectWeights (env.qsort srvPriorityCmp res) randoms with
  | fault why after => exact ⟨_, rfl⟩
  | waiting after => exact ⟨_, rfl⟩
  | done after left =>
      dsimp only
      have sameCount : after.length = res.length := by
        have same := selectWeights_same (env.qsort srvPriorityCmp res) randoms
        rw [drawn] at same
        have lengths := congrArg List.length same
        rw [List.length_map, List.length_map] at lengths
        exact lengths.trans count
      have finalCount := (env.qsort_perm srvFinalCmp after).length_eq
      cases final : env.qsort srvFinalCmp after with
      | nil =>
          rw [final] at finalCount
          have none : res.length = 0 := by rw [← sameCount, ← finalCount]; rfl
          exact absurd (List.length_eq_zero_iff.mp none) nonempty
      | cons first others => exact ⟨_, rfl⟩

theorem orderRecords_nil (randoms : List Nat) :
    orderRecords env [] randoms = .error .noRecord := by
  have isNil : ∀ cmp, env.qsort cmp [] = [] := fun cmp =>
    List.perm_nil.mp (env.qsort_perm cmp [])
  unfold orderRecords
  rw [isNil]
  have nothing : selectWeights [] randoms = .done [] randoms := rfl
  rw [nothing]
  dsimp only
  rw [isNil]

theorem dnsGetsrvinfo_answers {p : Nat} (answers : AnswersAt env msg p) (randoms : List Nat) :
    dnsGetsrvinfo env msg randoms =
      match readAnswers env msg (shortAt msg 6) p [] with
      | .error fault => .error fault
      | .ok none => .ok none
      | .ok (some res) => (orderRecords env res randoms).map some := by
  obtain ⟨long, questions, allocated⟩ := answers
  rw [dnsGetsrvinfo, if_neg (Nat.not_lt.mpr long), questions]
  dsimp only
  rw [if_pos allocated]
  cases readAnswers env msg (shortAt msg 6) p [] with
  | error fault => rfl
  | ok out =>
      cases out with
      | none => rfl
      | some res =>
          cases ordered : orderRecords env res randoms with
          | error fault => simp [bind, Except.bind, ordered, Except.map]
          | ok drawn => simp [bind, Except.bind, ordered, Except.map, pure, Except.pure]

/-- The parser stays inside the message exactly if the answers, where it comes to them, are
well laid out. -/
theorem staysInside_iff :
    StaysInside env msg ↔
      ∀ p, AnswersAt env msg p → WellLaidOut env msg ⟨shortAt msg 6, p, 0⟩ := by
  constructor
  · intro inside p answers
    refine (collects_iff (shortAt msg 6) p []).mp ?_
    have run := fun fault failed =>
      inside [] fault ((dnsGetsrvinfo_answers env msg answers []).trans failed)
    unfold Collects
    cases read : readAnswers env msg (shortAt msg 6) p [] with
    | error fault =>
        rw [read] at run
        exact absurd rfl (run fault)
    | ok out =>
        refine ⟨out, rfl, fun found isFound isEmpty => ?_⟩
        rw [read, isFound, isEmpty] at run
        refine run .noRecord ?_
        dsimp only
        rw [orderRecords_nil]
        rfl
  · intro laidOut randoms fault failed
    by_cases answers : ∃ p, AnswersAt env msg p
    · obtain ⟨p, answers⟩ := answers
      obtain ⟨out, read, nonempty⟩ :=
        (collects_iff (shortAt msg 6) p []).mpr (laidOut p answers)
      rw [dnsGetsrvinfo_answers env msg answers, read] at failed
      cases out with
      | none => cases failed
      | some res =>
          obtain ⟨ordered, isOrdered⟩ := orderRecords_ok env (nonempty res rfl) randoms
          dsimp only at failed
          rw [isOrdered] at failed
          cases failed
    · unfold dnsGetsrvinfo at failed
      split at failed
      · cases failed
      · next long =>
          split at failed
          · cases failed
          · next p questions =>
              split at failed
              · next allocated =>
                  exact answers ⟨p, Nat.not_lt.mp long, questions, allocated⟩
              · cases failed

end Whole

/-- A resolver that knows the root name only. -/
def rootSrvEnv : SrvEnv where
  dnExpand msg p := if msg[p]? = some 0 then some (1, []) else none
  qsort _ res := res
  qsort_perm _ _ := .refl _
  calloc _ := true
  malloc _ := true

/-- A header without answers, and one that announces an answer of which only the name is
there. -/
theorem truncatedAnswer_not_staysInside :
    ¬StaysInside rootSrvEnv (List.replicate 12 0) ∧
      ¬StaysInside rootSrvEnv [0, 0, 0, 0, 0, 0, 0, 1, 0, 0, 0, 0, 0] := by
  constructor
  · exact fun inside => inside [] .noRecord rfl
  · exact fun inside => inside [] (.readPastEnd 13) rfl

end Pkgng
