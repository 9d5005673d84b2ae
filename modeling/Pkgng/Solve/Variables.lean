import Pkgng.Solve.Problem

/-!
# The variables mirror the chains

The first loop of `pkg_solve_jobs_to_sat` gives each reachable item one
variable, numbered in the order of the chains, and links the variables of a
chain as the items are linked.  The loop invariant is `Filled`; what the rule
generators need of its outcome is `Mirrors`.
-/

set_option autoImplicit false

namespace Pkgng

open Lib

/-- The position of an item's variable in `problem->variables`. -/
def JobsUniverse.varOf (u : JobsUniverse) (item : Addr) : Nat := u.units.idxOf item

/-- A selection of items, read off the list of its values at the variables. -/
theorem JobsUniverse.getD_varOf {u : JobsUniverse} (selected : Addr → Bool) {item : Addr}
    (reachable : item ∈ u.units) :
    (u.units.map selected).getD (u.varOf item) false = selected item := by
  have below : u.varOf item < u.units.length := List.idxOf_lt_length_of_mem reachable
  have here : u.units[u.varOf item] = item := List.getElem_idxOf below
  simp [List.getD_eq_getElem?_getD, below, here]

/-- The slots filled for the items, from position `n` on. -/
def variablesOf (u : JobsUniverse) : Nat → List Addr → List (Option SolveVariable)
  | _, [] => []
  | n, item :: rest => some ⟨item, (u.pkg item).uid, n + 1⟩ :: variablesOf u (n + 1) rest

section Slots

variable {u : JobsUniverse}

@[simp] theorem length_variablesOf {n : Nat} {items : List Addr} :
    (variablesOf u n items).length = items.length := by
  induction items generalizing n with
  | nil => rfl
  | cons item rest ih => simp [variablesOf, ih]

theorem variablesOf_concat {n : Nat} {items : List Addr} {item : Addr} :
    variablesOf u n (items ++ [item]) =
      variablesOf u n items ++ [some ⟨item, (u.pkg item).uid, n + items.length + 1⟩] := by
  induction items generalizing n with
  | nil => rfl
  | cons first rest ih =>
      simp only [List.cons_append, variablesOf, ih, List.length_cons]
      rw [Nat.add_right_comm n 1 rest.length, Nat.add_assoc n rest.length 1]

theorem getElem?_variablesOf {n i : Nat} {items : List Addr} :
    (variablesOf u n items)[i]? =
      items[i]?.map fun item => some ⟨item, (u.pkg item).uid, n + i + 1⟩ := by
  induction items generalizing n i with
  | nil => simp [variablesOf]
  | cons first rest ih =>
      cases i with
      | zero => simp [variablesOf]
      | succ i =>
          simp only [variablesOf, List.getElem?_cons_succ, ih]
          rw [Nat.add_right_comm n 1 i, Nat.add_assoc n i 1]

/-- In a list of distinct items, a block of it has consecutive positions. -/
theorem map_idxOf_block {pre block post : List Nat} (nodup : (pre ++ block ++ post).Nodup) :
    block.map (pre ++ block ++ post).idxOf = List.range' pre.length block.length := by
  refine List.ext_getElem (by simp) fun i inBlock _ => ?_
  rw [List.length_map] at inBlock
  have inAll : pre.length + i < (pre ++ block ++ post).length := by
    simp only [List.length_append]
    omega
  have here : (pre ++ block ++ post)[pre.length + i] = block[i] := by
    rw [List.getElem_append_left (by simp only [List.length_append]; omega),
      List.getElem_append_right (Nat.le_add_right ..)]
    simp
  have position := nodup.idxOf_getElem (pre.length + i) inAll
  rw [here] at position
  simpa using position

end Slots

/-! ## The loop invariant -/

/-- The state after the items `done`: their slots are filled, the rest is as
`calloc` left it, and the links spell the blocks. -/
structure Filled (u : JobsUniverse) (nvars : Nat) (blocks : List (List Nat)) (done : List Addr)
    (sv : SolveVariables) : Prop where
  slots : sv.vars = variablesOf u 0 done ++ List.replicate (nvars - done.length) none
  blank : ∀ var, done.length ≤ var → sv.links.next var = none
  linked : ∀ block ∈ blocks, Links.Represents sv.links block
  below : ∀ block ∈ blocks, ∀ var ∈ block, var < done.length
  apart : blocks.Pairwise List.Disjoint

section Filling

variable {u : JobsUniverse} {nvars : Nat} {blocks : List (List Nat)} {done : List Addr}
  {sv : SolveVariables}

theorem Filled.set_slots (filled : Filled u nvars blocks done sv) (room : done.length < nvars)
    (item : Addr) :
    (sv.set done.length item (u.pkg item).uid).vars =
      variablesOf u 0 (done ++ [item]) ++
        List.replicate (nvars - (done ++ [item]).length) none := by
  obtain ⟨left, leftEq⟩ : ∃ left, nvars - done.length = left + 1 :=
    ⟨nvars - done.length - 1, by omega⟩
  have leftEq' : nvars - (done ++ [item]).length = left := by
    rw [List.length_append, List.length_singleton]
    omega
  rw [SolveVariables.set, filled.slots, leftEq, leftEq', List.set_append_right _ _ (by simp),
    variablesOf_concat]
  simp [List.replicate_succ]

/-- Setting a fresh slot leaves the chains alone. -/
theorem Filled.set_linked (filled : Filled u nvars blocks done sv) (item : Addr) (uid : Uid)
    {block : List Nat} (member : block ∈ blocks) :
    Links.Represents (sv.set done.length item uid).links block := by
  refine (filled.linked block member).congr fun var inBlock => ?_
  have older : var ≠ done.length := Nat.ne_of_lt (filled.below block member var inBlock)
  simp [SolveVariables.set, older]

theorem Filled.start (filled : Filled u nvars blocks done sv) (room : done.length < nvars)
    (item : Addr) (byUid : HashTable Uid Nat) :
    Filled u nvars ([done.length] :: blocks) (done ++ [item])
      { sv.set done.length item (u.pkg item).uid with variablesByUid := byUid } where
  slots := filled.set_slots room item
  blank := by
    intro var fresh
    rw [List.length_append, List.length_singleton] at fresh
    exact filled.blank var (by omega)
  linked := by
    intro block member
    rcases List.mem_cons.mp member with rfl | old
    · refine ⟨List.nodup_singleton _, filled.blank _ (Nat.le_refl _), trivial, ?_⟩
      intro head isHead
      cases isHead
      simp [SolveVariables.set]
    · exact filled.set_linked item (u.pkg item).uid old
  below := by
    intro block member var inBlock
    rw [List.length_append, List.length_singleton]
    rcases List.mem_cons.mp member with rfl | old
    · rw [List.mem_singleton] at inBlock
      omega
    · exact Nat.lt_succ_of_lt (filled.below block old var inBlock)
  apart := by
    refine List.Pairwise.cons (fun block member => ?_) filled.apart
    rw [List.singleton_disjoint]
    exact fun inBlock => Nat.lt_irrefl _ (filled.below block member _ inBlock)

theorem Filled.extend {head : Nat} {rest : List Nat}
    (filled : Filled u nvars ((head :: rest) :: blocks) done sv) (room : done.length < nvars)
    (item : Addr) :
    Filled u nvars ((head :: (rest ++ [done.length])) :: blocks) (done ++ [item])
      { sv.set done.length item (u.pkg item).uid with
        links := (sv.set done.length item (u.pkg item).uid).links.append (some head)
          done.length } where
  slots := filled.set_slots room item
  blank := by
    intro var fresh
    rw [List.length_append, List.length_singleton] at fresh
    have newer : var ≠ done.length := by omega
    have setLinks := filled.set_linked item (u.pkg item).uid (List.mem_cons_self ..)
    have lastIn := List.mem_of_getLast? (setLinks.tail head rfl)
    have lastOld := filled.below _ (List.mem_cons_self ..) _ lastIn
    have notLast : var ≠ (sv.set done.length item (u.pkg item).uid).links.prev head := by omega
    simp only [Links.append, Function.update_of_ne newer, Function.update_of_ne notLast]
    exact filled.blank var (by omega)
  linked := by
    intro block member
    have headLinks := filled.set_linked item (u.pkg item).uid (List.mem_cons_self ..)
    have headBelow := filled.below _ (List.mem_cons_self ..)
    rcases List.mem_cons.mp member with rfl | old
    · exact Links.represents_append_some headLinks
        fun inBlock => Nat.lt_irrefl _ (headBelow _ inBlock)
    · have oldIn : block ∈ (head :: rest) :: blocks := List.mem_cons_of_mem _ old
      have kept := filled.set_linked item (u.pkg item).uid oldIn
      change Links.Represents
        ((sv.set done.length item (u.pkg item).uid).links.append (some head) done.length) block
      refine kept.append_other
        (fun inBlock => Nat.lt_irrefl _ (filled.below block oldIn _ inBlock)) ?_
      intro first isFirst
      cases isFirst
      have disjoint := (List.pairwise_cons.mp filled.apart).1 block old
      exact ⟨disjoint (List.mem_cons_self ..),
        disjoint (List.mem_of_getLast? (headLinks.tail head rfl))⟩
  below := by
    intro block member var inBlock
    rw [List.length_append, List.length_singleton]
    rcases List.mem_cons.mp member with rfl | old
    · rw [← List.cons_append] at inBlock
      rcases List.mem_append.mp inBlock with inOld | isNew
      · exact Nat.lt_succ_of_lt (filled.below _ (List.mem_cons_self ..) var inOld)
      · rw [List.mem_singleton] at isNew
        omega
    · exact Nat.lt_succ_of_lt
        (filled.below block (List.mem_cons_of_mem _ old) var inBlock)
  apart := by
    obtain ⟨headApart, others⟩ := List.pairwise_cons.mp filled.apart
    refine List.Pairwise.cons (fun block member => ?_) others
    rw [← List.cons_append, List.disjoint_append_left, List.singleton_disjoint]
    exact ⟨headApart block member, fun inBlock => Nat.lt_irrefl _
      (filled.below block (List.mem_cons_of_mem _ member) _ inBlock)⟩

/-- The loop over the rest of a chain. -/
theorem pkgSolveAddVariable_rest {head : Nat} : ∀ (post : List Addr) {rest : List Nat}
    {done : List Addr} {sv : SolveVariables},
    Filled u nvars ((head :: rest) :: blocks) done sv → done.length + post.length ≤ nvars →
      ∃ sv', pkgSolveAddVariable u nvars (some head) post (sv, done.length) =
          some (sv', (done ++ post).length) ∧
        Filled u nvars ((head :: (rest ++ List.range' done.length post.length)) :: blocks)
          (done ++ post) sv' ∧ sv'.variablesByUid = sv.variablesByUid
  | [], rest, done, sv, filled, _ => by
      exact ⟨sv, by simp [pkgSolveAddVariable], by simpa using filled, rfl⟩
  | item :: post, rest, done, sv, filled, room => by
      rw [List.length_cons] at room
      have here : done.length < nvars := by omega
      have grown := filled.extend here item
      have lengthEq : (done ++ [item]).length = done.length + 1 := by simp
      obtain ⟨sv', runs, filled', byUid⟩ := pkgSolveAddVariable_rest post grown
        (by rw [lengthEq]; omega)
      refine ⟨sv', ?_, ?_, ?_⟩
      · rw [lengthEq, List.append_assoc, List.singleton_append] at runs
        rw [pkgSolveAddVariable, if_pos here]
        exact runs
      · rw [lengthEq, List.append_assoc, List.append_assoc, List.singleton_append,
          List.singleton_append, ← List.range'_succ] at filled'
        exact filled'
      · rw [byUid, SolveVariables.set]

/-- One call of `pkg_solve_add_variable`, for a chain given by its items. -/
theorem pkgSolveAddVariable_chain {head : Addr} {post : List Addr}
    (filled : Filled u nvars blocks done sv) (room : done.length + (head :: post).length ≤ nvars) :
    ∃ sv', pkgSolveAddVariable u nvars none (head :: post) (sv, done.length) =
        some (sv', (done ++ head :: post).length) ∧
      Filled u nvars (List.range' done.length (head :: post).length :: blocks)
        (done ++ head :: post) sv' ∧
      sv'.variablesByUid = HashTable.add (u.pkg head).uid done.length sv.variablesByUid := by
  rw [List.length_cons] at room
  have here : done.length < nvars := by omega
  have started := filled.start here head
    (HashTable.add (u.pkg head).uid done.length sv.variablesByUid)
  have lengthEq : (done ++ [head]).length = done.length + 1 := by simp
  obtain ⟨sv', runs, filled', byUid⟩ := pkgSolveAddVariable_rest post started
    (by rw [lengthEq]; omega)
  rw [lengthEq, List.append_assoc, List.singleton_append] at runs filled'
  refine ⟨sv', ?_, ?_, byUid⟩
  · rw [pkgSolveAddVariable, if_pos here]
    exact runs
  · rw [List.length_cons, List.range'_succ]
    exact filled'

end Filling

/-! ## The outcome -/

/-- The variables of the reachable items, in the order of the chains. -/
structure Mirrors (u : JobsUniverse) (sv : SolveVariables) : Prop where
  units : ∀ var, sv.unit var = u.units[var]?
  orders : ∀ var, var < u.units.length → sv.order var = var + 1
  byUid : sv.variablesByUid = u.items.map fun entry => (entry.1, u.varOf entry.2)
  linked : ∀ entry ∈ u.items, Links.Represents sv.links ((u.chain entry.2).map u.varOf)
  room : u.units.length ≤ sv.vars.length

section Outcome

variable {u : JobsUniverse}

/-- The loop over the chains, with the entries before `post` already done. -/
theorem pkgSolveAddVariables_loop (inv : u.Chained) {nvars : Nat} (room : u.units.length ≤ nvars) :
    ∀ (post pre : List (Uid × Addr)) {blocks : List (List Nat)} {sv : SolveVariables},
      u.items = pre ++ post →
      Filled u nvars blocks (pre.map fun entry => u.chain entry.2).flatten sv →
      sv.variablesByUid = pre.map (fun entry => (entry.1, u.varOf entry.2)) →
      (∀ entry ∈ pre, (u.chain entry.2).map u.varOf ∈ blocks) →
      ∃ sv' blocks', post.foldlM
          (fun state entry => pkgSolveAddVariable u nvars none (u.chain entry.2) state)
          (sv, (pre.map fun entry => u.chain entry.2).flatten.length) =
            some (sv', u.units.length) ∧
        Filled u nvars blocks' u.units sv' ∧
        sv'.variablesByUid = u.items.map (fun entry => (entry.1, u.varOf entry.2)) ∧
        ∀ entry ∈ u.items, (u.chain entry.2).map u.varOf ∈ blocks' := by
  intro post
  induction post with
  | nil =>
      intro pre blocks sv split filled byUid spelled
      rw [List.append_nil] at split
      subst split
      exact ⟨sv, blocks, rfl, filled, byUid, spelled⟩
  | cons entry post ih =>
      intro pre blocks sv split filled byUid spelled
      have member : entry ∈ u.items := by rw [split]; simp
      have unitsEq : u.units = (pre.map fun entry => u.chain entry.2).flatten ++
          u.chain entry.2 ++ (post.map fun entry => u.chain entry.2).flatten := by
        simp [JobsUniverse.units, JobsUniverse.chains, split]
      obtain ⟨rest, chainEq⟩ : ∃ rest, u.chain entry.2 = entry.2 :: rest :=
        ⟨_, JobsUniverse.chain_eq_cons inv member⟩
      have block : (u.chain entry.2).map u.varOf = List.range'
          (pre.map fun entry => u.chain entry.2).flatten.length (u.chain entry.2).length := by
        have nodup := inv.unitsNodup
        rw [unitsEq] at nodup
        have consecutive := map_idxOf_block nodup
        rw [← unitsEq] at consecutive
        exact consecutive
      have headVar : u.varOf entry.2 = (pre.map fun entry => u.chain entry.2).flatten.length := by
        rw [chainEq, List.length_cons, List.range'_succ, List.map_cons] at block
        exact (List.cons.inj block).1
      have headUid : (u.pkg entry.2).uid = entry.1 :=
        inv.homogeneous entry member entry.2 (by rw [chainEq]; exact List.mem_cons_self ..)
      have enough : (pre.map fun entry => u.chain entry.2).flatten.length +
          (entry.2 :: rest).length ≤ nvars := by
        rw [unitsEq, chainEq, List.length_append, List.length_append] at room
        omega
      obtain ⟨sv₁, runs, filled₁, byUid₁⟩ := pkgSolveAddVariable_chain filled enough
      have doneEq : ((pre ++ [entry]).map fun entry => u.chain entry.2).flatten =
          (pre.map fun entry => u.chain entry.2).flatten ++ entry.2 :: rest := by
        simp [chainEq]
      rw [← doneEq] at runs filled₁
      have byUid' : sv₁.variablesByUid =
          (pre ++ [entry]).map (fun entry => (entry.1, u.varOf entry.2)) := by
        rw [byUid₁, byUid, headUid, ← headVar, HashTable.add]
        simp
      have spelled' : ∀ other ∈ pre ++ [entry], (u.chain other.2).map u.varOf ∈
          List.range' (pre.map fun entry => u.chain entry.2).flatten.length
            (entry.2 :: rest).length :: blocks := by
        intro other inDone
        rcases List.mem_append.mp inDone with old | new
        · exact List.mem_cons_of_mem _ (spelled other old)
        · rw [List.mem_singleton] at new
          rw [new, block, chainEq]
          exact List.mem_cons_self ..
      obtain ⟨sv', blocks', later, outcome⟩ :=
        ih (pre ++ [entry]) (by simpa using split) filled₁ byUid' spelled'
      refine ⟨sv', blocks', ?_, outcome⟩
      rw [List.foldlM_cons, chainEq, runs]
      exact later

/-- The variable phase succeeds and mirrors the chains. -/
theorem pkgSolveAddVariables_spec (inv : u.Chained) (room : u.units.length ≤ u.nitems) :
    ∃ sv, pkgSolveAddVariables u = some (sv, u.units.length) ∧ Mirrors u sv ∧
      sv.vars = variablesOf u 0 u.units ++ List.replicate (u.nitems - u.units.length) none := by
  have zeroed : Filled u u.nitems [] [] { vars := List.replicate u.nitems none } :=
    { slots := by simp [variablesOf]
      blank := fun _ _ => rfl
      linked := by simp
      below := by simp
      apart := List.Pairwise.nil }
  obtain ⟨sv, blocks, runs, filled, byUid, spelled⟩ :=
    pkgSolveAddVariables_loop inv room u.items [] rfl zeroed rfl (by simp)
  have slot : ∀ var, sv.vars.getD var none =
      (u.units[var]?).bind fun item => some ⟨item, (u.pkg item).uid, var + 1⟩ := by
    intro var
    rw [filled.slots, List.getD_eq_getElem?_getD, List.getElem?_append, length_variablesOf]
    by_cases inUnits : var < u.units.length
    · rw [if_pos inUnits, getElem?_variablesOf, List.getElem?_eq_getElem inUnits, Nat.zero_add]
      rfl
    · rw [if_neg inUnits, List.getElem?_eq_none (Nat.le_of_not_lt inUnits),
        List.getElem?_replicate]
      split <;> rfl
  refine ⟨sv, runs, ⟨?_, ?_, byUid, fun entry member => filled.linked _ (spelled entry member), ?_⟩,
    filled.slots⟩
  · intro var
    rw [SolveVariables.unit, slot]
    cases u.units[var]? <;> rfl
  · intro var inUnits
    rw [SolveVariables.order, slot, List.getElem?_eq_getElem inUnits]
    rfl
  · rw [filled.slots, List.length_append, length_variablesOf]
    exact Nat.le_add_right ..

end Outcome

/-! ## Reading the mirror -/

namespace Mirrors

variable {u : JobsUniverse} {sv : SolveVariables}

theorem find (mirrors : Mirrors u sv) (uid : Uid) :
    HashTable.find uid sv.variablesByUid = (u.find uid).map u.varOf := by
  rw [mirrors.byUid]
  exact HashTable.find_map u.varOf uid u.items

theorem chainFrom_head (mirrors : Mirrors u sv) (inv : u.Chained) {entry : Uid × Addr}
    (member : entry ∈ u.items) :
    sv.chainFrom (some (u.varOf entry.2)) = (u.chain entry.2).map u.varOf := by
  have isHead : ((u.chain entry.2).map u.varOf).head? = some (u.varOf entry.2) := by
    rw [List.head?_map, inv.headed entry member]
    rfl
  have short : ((u.chain entry.2).map u.varOf).length ≤ sv.vars.length := by
    rw [List.length_map]
    exact Nat.le_trans (JobsUniverse.chain_sublist_units member).length_le mirrors.room
  rw [SolveVariables.chainFrom, ← isHead]
  exact Links.walk_of_forward _ (mirrors.linked entry member).forward short

/-- The variables after the first one of a chain. -/
theorem chainFrom_next (mirrors : Mirrors u sv) {entry : Uid × Addr} (member : entry ∈ u.items)
    {head : Addr} {rest : List Addr} (chainEq : u.chain entry.2 = head :: rest) :
    sv.chainFrom (sv.links.next (u.varOf head)) = rest.map u.varOf := by
  have forward := (mirrors.linked entry member).forward
  have short : (u.chain entry.2).length ≤ sv.vars.length :=
    Nat.le_trans (JobsUniverse.chain_sublist_units member).length_le mirrors.room
  rw [chainEq] at forward short
  rw [SolveVariables.chainFrom]
  cases rest with
  | nil =>
      have ends : sv.links.next (u.varOf head) = none := forward
      rw [ends]
      cases sv.vars.length <;> rfl
  | cons following rest =>
      obtain ⟨step, tail⟩ := forward
      rw [step]
      refine Links.walk_of_forward _ tail ?_
      simp only [List.length_cons, List.length_map] at short ⊢
      omega

theorem next_isSome (mirrors : Mirrors u sv) {entry : Uid × Addr} (member : entry ∈ u.items)
    {head : Addr} {rest : List Addr} (chainEq : u.chain entry.2 = head :: rest) :
    (sv.links.next (u.varOf head)).isSome = !rest.isEmpty := by
  have forward := (mirrors.linked entry member).forward
  rw [chainEq] at forward
  cases rest with
  | nil =>
      have ends : sv.links.next (u.varOf head) = none := forward
      simp [ends]
  | cons following rest => simp [forward.1]

theorem unit_varOf (mirrors : Mirrors u sv) {item : Addr} (reachable : item ∈ u.units) :
    sv.unit (u.varOf item) = some item := by
  have below : u.varOf item < u.units.length := List.idxOf_lt_length_of_mem reachable
  rw [mirrors.units, List.getElem?_eq_getElem below]
  exact congrArg some (List.getElem_idxOf below)

theorem pkg_varOf (mirrors : Mirrors u sv) {item : Addr} (reachable : item ∈ u.units) :
    sv.pkg u (u.varOf item) = u.pkg item := by
  rw [SolveVariables.pkg, mirrors.unit_varOf reachable]

theorem selected_iff (mirrors : Mirrors u sv) (inv : u.Chained) {σ : Nat → Bool} {item : Addr}
    (reachable : item ∈ u.units) : sv.Selected σ item ↔ σ (u.varOf item) = true := by
  constructor
  · rintro ⟨var, isUnit, chosen⟩
    rw [mirrors.units, List.getElem?_eq_some_iff] at isUnit
    obtain ⟨below, atVar⟩ := isUnit
    have position := inv.unitsNodup.idxOf_getElem var below
    rw [atVar] at position
    rw [JobsUniverse.varOf, position]
    exact chosen
  · exact fun chosen => ⟨u.varOf item, mirrors.unit_varOf reachable, chosen⟩

end Mirrors

end Pkgng
