import Mathlib.Data.List.Basic

/-!
# A byte stream between two processes

What a writer has yet to hand over, what is on its way, and what the reader has read ahead.  Bytes
move in pieces of any length; none is lost, and the reader takes whole lines or blocks.
-/

set_option autoImplicit false

namespace Pkgng.Lib

variable {α : Type}

structure Pipe (α : Type) where
  unsent : List α := []
  inFlight : List α := []
  buffered : List α := []

namespace Pipe

/-- All that the reader has not taken, in order. -/
def bytes (pipe : Pipe α) : List α := pipe.buffered ++ pipe.inFlight ++ pipe.unsent

def put (pipe : Pipe α) (text : List α) : Pipe α := { pipe with unsent := pipe.unsent ++ text }

/-- `write` hands over the next `n` bytes. -/
def carry (pipe : Pipe α) (n : Nat) : Option (Pipe α) :=
  if 0 < n ∧ n ≤ pipe.unsent.length then
    some { pipe with
      unsent := pipe.unsent.drop n
      inFlight := pipe.inFlight ++ pipe.unsent.take n }
  else none

/-- `read` returns the next `n` bytes. -/
def receive (pipe : Pipe α) (n : Nat) : Option (Pipe α) :=
  if 0 < n ∧ n ≤ pipe.inFlight.length then
    some { pipe with
      inFlight := pipe.inFlight.drop n
      buffered := pipe.buffered ++ pipe.inFlight.take n }
  else none

/-- The next `n` bytes, once they are there. -/
def takeBlock (pipe : Pipe α) (n : Nat) : Option (List α × Pipe α) :=
  if n ≤ pipe.buffered.length then
    some (pipe.buffered.take n, { pipe with buffered := pipe.buffered.drop n })
  else none

/-- A bound on the moves that the bytes still need. -/
def moves (pipe : Pipe α) : Nat := 2 * pipe.unsent.length + pipe.inFlight.length

section Moves

variable {pipe next : Pipe α} {n : Nat}

@[simp] theorem bytes_empty : ({} : Pipe α).bytes = [] := rfl

@[simp] theorem moves_empty : ({} : Pipe α).moves = 0 := rfl

@[simp] theorem bytes_put (text : List α) : (pipe.put text).bytes = pipe.bytes ++ text :=
  (List.append_assoc ..).symm

@[simp] theorem moves_put (text : List α) : (pipe.put text).moves = pipe.moves + 2 * text.length := by
  simp only [moves, put, List.length_append]
  omega

theorem carry_eq_some (moved : pipe.carry n = some next) :
    0 < n ∧ n ≤ pipe.unsent.length ∧ next = { pipe with
      unsent := pipe.unsent.drop n
      inFlight := pipe.inFlight ++ pipe.unsent.take n } := by
  obtain ⟨⟨positive, available⟩, same⟩ := Option.ite_none_right_eq_some.mp moved
  exact ⟨positive, available, (Option.some.inj same).symm⟩

theorem receive_eq_some (moved : pipe.receive n = some next) :
    0 < n ∧ n ≤ pipe.inFlight.length ∧ next = { pipe with
      inFlight := pipe.inFlight.drop n
      buffered := pipe.buffered ++ pipe.inFlight.take n } := by
  obtain ⟨⟨positive, available⟩, same⟩ := Option.ite_none_right_eq_some.mp moved
  exact ⟨positive, available, (Option.some.inj same).symm⟩

theorem bytes_carry (moved : pipe.carry n = some next) : next.bytes = pipe.bytes := by
  obtain ⟨_, _, rfl⟩ := carry_eq_some moved
  simp only [bytes, List.append_assoc, List.take_append_drop]

theorem bytes_receive (moved : pipe.receive n = some next) : next.bytes = pipe.bytes := by
  obtain ⟨_, _, rfl⟩ := receive_eq_some moved
  rw [bytes, bytes, ← List.take_append_drop n pipe.inFlight]
  simp only [List.append_assoc, List.take_append_drop]

theorem moves_carry (moved : pipe.carry n = some next) : next.moves < pipe.moves := by
  obtain ⟨positive, available, rfl⟩ := carry_eq_some moved
  simp only [moves, List.length_drop, List.length_append, List.length_take]
  omega

theorem moves_receive (moved : pipe.receive n = some next) : next.moves < pipe.moves := by
  obtain ⟨positive, available, rfl⟩ := receive_eq_some moved
  simp only [moves, List.length_drop]
  omega

theorem isSome_carry (waiting : pipe.unsent ≠ []) : (pipe.carry 1).isSome = true := by
  rw [carry, if_pos ⟨Nat.one_pos, List.length_pos_iff.mpr waiting⟩]
  rfl

theorem isSome_receive (waiting : pipe.inFlight ≠ []) : (pipe.receive 1).isSome = true := by
  rw [receive, if_pos ⟨Nat.one_pos, List.length_pos_iff.mpr waiting⟩]
  rfl

/-- Where nothing moves, the reader has everything. -/
theorem buffered_eq (sent : pipe.carry 1 = none) (received : pipe.receive 1 = none) :
    pipe.unsent = [] ∧ pipe.inFlight = [] ∧ pipe.buffered = pipe.bytes := by
  have unsent : pipe.unsent = [] := by
    by_contra waiting
    simpa [sent] using isSome_carry waiting
  have inFlight : pipe.inFlight = [] := by
    by_contra waiting
    simpa [received] using isSome_receive waiting
  refine ⟨unsent, inFlight, ?_⟩
  rw [bytes, unsent, inFlight, List.append_nil, List.append_nil]

end Moves

section Blocks

variable {pipe next : Pipe α} {n : Nat} {block : List α}

/-- A block is the front of the stream. -/
theorem takeBlock_spec (taken : pipe.takeBlock n = some (block, next)) :
    block.length = n ∧ pipe.bytes = block ++ next.bytes ∧ next.moves = pipe.moves ∧
      next.unsent = pipe.unsent := by
  obtain ⟨available, same⟩ := Option.ite_none_right_eq_some.mp taken
  cases same
  refine ⟨by rw [List.length_take, Nat.min_eq_left available], ?_, rfl, rfl⟩
  simp only [bytes, ← List.append_assoc, List.take_append_drop]

theorem isSome_takeBlock (available : n ≤ pipe.buffered.length) :
    (pipe.takeBlock n).isSome = true := by
  rw [takeBlock, if_pos available]
  rfl

end Blocks

section Lines

variable [DecidableEq α] {delimiter : α} {pipe next : Pipe α} {line rest taken : List α}

/-- The next line with its delimiter, once the delimiter is there. -/
def takeLine (delimiter : α) (pipe : Pipe α) : Option (List α × Pipe α) :=
  if delimiter ∈ pipe.buffered then
    let length := pipe.buffered.idxOf delimiter + 1
    some (pipe.buffered.take length, { pipe with buffered := pipe.buffered.drop length })
  else none

theorem idxOf_line (oneLine : delimiter ∉ line) :
    (line ++ delimiter :: rest).idxOf delimiter = line.length := by
  rw [List.idxOf_append_of_notMem oneLine, List.idxOf_cons_self, Nat.add_zero]

/-- A line is the front of the stream up to the first delimiter. -/
theorem takeLine_spec (oneLine : delimiter ∉ line)
    (stream : pipe.bytes = line ++ delimiter :: rest)
    (took : pipe.takeLine delimiter = some (taken, next)) :
    taken = line ++ [delimiter] ∧ next.bytes = rest ∧ next.moves = pipe.moves ∧
      next.unsent = pipe.unsent := by
  obtain ⟨there, same⟩ := Option.ite_none_right_eq_some.mp took
  cases same
  have index : pipe.buffered.idxOf delimiter = line.length := by
    have whole : (line ++ delimiter :: rest).idxOf delimiter = line.length := idxOf_line oneLine
    rw [← whole, ← stream, bytes, List.append_assoc, List.idxOf_append_of_mem there]
  have inside : line.length + 1 ≤ pipe.buffered.length :=
    index ▸ List.idxOf_lt_length_of_mem there
  have split : pipe.buffered ++ (pipe.inFlight ++ pipe.unsent) = (line ++ [delimiter]) ++ rest := by
    rw [← List.append_assoc, List.append_assoc line]
    exact stream
  have front := congrArg (List.take (line.length + 1)) split
  have behind := congrArg (List.drop (line.length + 1)) split
  rw [List.take_append_of_le_length inside, List.take_left' (by simp)] at front
  rw [List.drop_append_of_le_length inside, List.drop_left' (by simp)] at behind
  refine ⟨by rw [index, front], ?_, rfl, rfl⟩
  rw [bytes, index, List.append_assoc]
  exact behind

theorem isSome_takeLine (there : delimiter ∈ pipe.buffered) :
    (pipe.takeLine delimiter).isSome = true := by
  rw [takeLine, if_pos there]
  rfl

/-- A line comes to the reader by some move. -/
theorem line_moves (stream : pipe.bytes = line ++ delimiter :: rest) :
    (pipe.carry 1).isSome = true ∨ (pipe.receive 1).isSome = true ∨
      (pipe.takeLine delimiter).isSome = true := by
  by_cases sent : pipe.carry 1 = none
  · by_cases received : pipe.receive 1 = none
    · refine Or.inr (Or.inr (isSome_takeLine ?_))
      rw [(buffered_eq sent received).2.2, stream]
      exact List.mem_append_right _ (List.mem_cons_self ..)
    · exact Or.inr (Or.inl (Option.isSome_iff_ne_none.mpr received))
  · exact Or.inl (Option.isSome_iff_ne_none.mpr sent)

end Lines

/-- A block comes to the reader by some move. -/
theorem block_moves {pipe : Pipe α} {n : Nat} (stream : n ≤ pipe.bytes.length) :
    (pipe.carry 1).isSome = true ∨ (pipe.receive 1).isSome = true ∨
      (pipe.takeBlock n).isSome = true := by
  by_cases sent : pipe.carry 1 = none
  · by_cases received : pipe.receive 1 = none
    · refine Or.inr (Or.inr (isSome_takeBlock ?_))
      rw [(buffered_eq sent received).2.2]
      exact stream
    · exact Or.inr (Or.inl (Option.isSome_iff_ne_none.mpr received))
  · exact Or.inl (Option.isSome_iff_ne_none.mpr sent)

/-- An empty stream. -/
theorem bytes_eq_nil {pipe : Pipe α} :
    pipe.bytes = [] ↔ pipe.buffered = [] ∧ pipe.inFlight = [] ∧ pipe.unsent = [] := by
  rw [bytes, List.append_eq_nil_iff, List.append_eq_nil_iff, and_assoc]

/-- The reader forgets what it has read ahead. -/
theorem bytes_forget {pipe : Pipe α} (nothing : pipe.buffered = []) :
    ({ pipe with buffered := [] } : Pipe α) = pipe := by
  cases pipe
  cases nothing
  rfl

end Pipe

end Pkgng.Lib
