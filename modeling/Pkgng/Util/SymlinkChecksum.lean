import Pkgng.Repo.Sigkeys

/-!
# Checksums of symbolic links

`pkg_symlink_cksum_readlink` moves the start of the text behind the staging root and the
leading slashes, and hashes from there as many bytes as the whole text has.
-/

set_option autoImplicit false

namespace Pkgng

def slashByte : UInt8 := 47

/-- The buffer: the target of the link, a NUL, and what the stack held before. -/
def linkbuf (target : Bytes) (stack : Nat → UInt8) (i : Nat) : UInt8 :=
  (target ++ [0]).getD i (stack i)

/-- How far the staging root moves the start: `strncmp` finds it in front of the target. -/
def rootLength (target : Bytes) : Option Bytes → Nat
  | none => 0
  | some root => if root.isPrefixOf target then root.length else 0

/-- `lnk - linkbuf` when the bytes are hashed. -/
def lnkStart (target : Bytes) (root : Option Bytes) : Nat :=
  rootLength target root + ((target.drop (rootLength target root)).takeWhile (· = slashByte)).length

/-- The bytes that `sha256_buf` is given. -/
def hashedBytes (target : Bytes) (root : Option Bytes) (stack : Nat → UInt8) : Bytes :=
  (List.range target.length).map fun i => linkbuf target stack (lnkStart target root + i)

def pkgSymlinkCksumReadlink {H : Type} (sha256 : Bytes → H) (target : Bytes)
    (root : Option Bytes) (stack : Nat → UInt8) : H :=
  sha256 (hashedBytes target root stack)

/-! ## What is meant to be hashed -/

/-- The target without the root and the leading slashes. -/
def meaningfulTarget (target : Bytes) (root : Option Bytes) : Bytes :=
  (target.drop (rootLength target root)).dropWhile (· = slashByte)

structure HashesMeaningful (target : Bytes) (root : Option Bytes) : Prop where
  exact : ∀ stack, hashedBytes target root stack = meaningfulTarget target root
  inside : lnkStart target root + target.length ≤ target.length

/-- The checksum of a link under a staging root is that of the link on the live system,
whatever the hash and the stacks of the two runs. -/
def AgreesWithLive (root path : Bytes) : Prop :=
  ∀ (sha256 : Bytes → Bytes) (stack stack' : Nat → UInt8),
    pkgSymlinkCksumReadlink sha256 (root ++ slashByte :: path) (some root) stack =
      pkgSymlinkCksumReadlink sha256 (slashByte :: path) none stack'

/-- The root is not in front of the target, and no slash is. -/
def NothingSkipped (target : Bytes) (root : Option Bytes) : Prop :=
  (∀ text, root = some text → text <+: target → text = []) ∧ target.head? ≠ some slashByte

section Link

variable {target : Bytes} {root : Option Bytes}

theorem rootLength_le : rootLength target root ≤ target.length := by
  unfold rootLength
  split
  · exact Nat.zero_le _
  · split
    · next isPrefix => exact (List.isPrefixOf_iff_prefix.mp isPrefix).length_le
    · exact Nat.zero_le _

theorem rootLength_eq_zero_iff :
    rootLength target root = 0 ↔ ∀ text, root = some text → text <+: target → text = [] := by
  cases root with
  | none => exact iff_of_true rfl nofun
  | some text =>
      rw [rootLength]
      by_cases isPrefix : text.isPrefixOf target = true
      · rw [if_pos isPrefix, List.length_eq_zero_iff]
        constructor
        · intro empty other isText _
          cases isText
          exact empty
        · exact fun all => all text rfl (List.isPrefixOf_iff_prefix.mp isPrefix)
      · rw [if_neg isPrefix]
        refine iff_of_true rfl fun other isText found => ?_
        cases isText
        exact absurd (List.isPrefixOf_iff_prefix.mpr found) isPrefix

theorem lnkStart_eq_zero_iff : lnkStart target root = 0 ↔ NothingSkipped target root := by
  unfold lnkStart NothingSkipped
  rw [Nat.add_eq_zero_iff, rootLength_eq_zero_iff]
  refine and_congr_right fun noRoot => ?_
  rw [rootLength_eq_zero_iff.mpr noRoot, List.drop_zero, List.length_eq_zero_iff]
  cases target with
  | nil => exact iff_of_true rfl nofun
  | cons byte rest =>
      rw [List.takeWhile_cons, List.head?_cons]
      by_cases isSlash : byte = slashByte
      · simp [isSlash]
      · simp [isSlash]

theorem linkbuf_target (stack : Nat → UInt8) {i : Nat} (inside : i < target.length) :
    linkbuf target stack i = target[i] := by
  unfold linkbuf
  rw [List.getD_eq_getElem?_getD, List.getElem?_append_left inside, List.getElem?_eq_getElem inside]
  rfl

theorem linkbuf_stack (stack : Nat → UInt8) {i : Nat} (behind : target.length < i) :
    linkbuf target stack i = stack i := by
  unfold linkbuf
  rw [List.getD_eq_getElem?_getD, List.getElem?_eq_none (by rw [List.length_append]; exact behind)]
  rfl

theorem hashedBytes_length (stack : Nat → UInt8) :
    (hashedBytes target root stack).length = target.length := by
  rw [hashedBytes, List.length_map, List.length_range]

theorem hashedBytes_getElem? (stack : Nat → UInt8) {i : Nat} (inside : i < target.length) :
    (hashedBytes target root stack)[i]? =
      some (linkbuf target stack (lnkStart target root + i)) := by
  rw [hashedBytes, List.getElem?_map, List.getElem?_range inside]
  rfl

theorem hashesMeaningful_iff : HashesMeaningful target root ↔ NothingSkipped target root := by
  rw [← lnkStart_eq_zero_iff]
  constructor
  · intro hashes
    have inside := hashes.inside
    omega
  · intro atStart
    refine ⟨fun stack => ?_, by omega⟩
    have whole : meaningfulTarget target root = target := by
      obtain ⟨noRoot, noSlashes⟩ := Nat.add_eq_zero_iff.mp atStart
      rw [noRoot, List.drop_zero] at noSlashes
      rw [meaningfulTarget, noRoot, List.drop_zero]
      have parts := List.takeWhile_append_dropWhile (p := (· = slashByte)) (l := target)
      rwa [List.length_eq_zero_iff.mp noSlashes, List.nil_append] at parts
    rw [whole]
    refine List.ext_getElem? fun i => ?_
    rcases Nat.lt_or_ge i target.length with inside | outside
    · rw [hashedBytes_getElem? stack inside, atStart, Nat.zero_add, linkbuf_target stack inside,
        List.getElem?_eq_getElem inside]
    · rw [List.getElem?_eq_none outside,
        List.getElem?_eq_none (by rw [hashedBytes_length]; exact outside)]

end Link

/-! ## Two runs -/

theorem lnkStart_live (root : Option Bytes) (noRoot : root = none ∨ root = some []) (path : Bytes) :
    lnkStart (slashByte :: path) root = 1 + (path.takeWhile (· = slashByte)).length := by
  have noLength : rootLength (slashByte :: path) root = 0 := by
    rcases noRoot with rfl | rfl <;> rfl
  rw [lnkStart, noLength, List.drop_zero, List.takeWhile_cons, if_pos (decide_eq_true rfl),
    List.length_cons]
  omega

theorem agreesWithLive_iff (root path : Bytes) :
    AgreesWithLive root path ↔ root = [] ∧ path.head? ≠ some slashByte := by
  constructor
  · intro agrees
    have noRoot : root = [] := by
      have lengths := congrArg List.length (agrees id (fun _ => 0) fun _ => 0)
      simp only [pkgSymlinkCksumReadlink, id, hashedBytes_length, List.length_append,
        List.length_cons] at lengths
      exact List.length_eq_zero_iff.mp (by omega)
    refine ⟨noRoot, fun isSlash => ?_⟩
    rw [noRoot] at agrees
    -- The last byte that is hashed comes from the stack.
    have same := congrArg (·[path.length]?) (agrees id (fun _ => 0) fun _ => 1)
    have inside : path.length < (slashByte :: path).length := Nat.lt_succ_self _
    have slashes : 1 ≤ (path.takeWhile (· = slashByte)).length := by
      cases path with
      | nil => cases isSlash
      | cons byte rest =>
          cases isSlash
          rw [List.takeWhile_cons, if_pos (decide_eq_true rfl), List.length_cons]
          exact Nat.succ_pos _
    have behind : (slashByte :: path).length <
        1 + (path.takeWhile (· = slashByte)).length + path.length := by
      rw [List.length_cons]
      omega
    dsimp only [pkgSymlinkCksumReadlink, id, List.nil_append] at same
    rw [hashedBytes_getElem? _ inside, hashedBytes_getElem? _ inside,
      lnkStart_live _ (Or.inr rfl), lnkStart_live _ (Or.inl rfl), linkbuf_stack _ behind,
      linkbuf_stack _ behind] at same
    cases same
  · rintro ⟨rfl, noSlash⟩ sha256 stack stack'
    have noSlashes : path.takeWhile (· = slashByte) = [] := by
      cases path with
      | nil => rfl
      | cons byte rest =>
          rw [List.takeWhile_cons, if_neg]
          intro isSlash
          exact noSlash (congrArg some (of_decide_eq_true isSlash))
    unfold pkgSymlinkCksumReadlink
    congr 1
    refine List.ext_getElem? fun i => ?_
    rw [List.nil_append]
    rcases Nat.lt_or_ge i (slashByte :: path).length with inside | outside
    · rw [hashedBytes_getElem? _ inside, hashedBytes_getElem? _ inside,
        lnkStart_live _ (Or.inr rfl), lnkStart_live _ (Or.inl rfl), noSlashes]
      congr 1
      have inBuffer : 1 + i < (slashByte :: path ++ [0]).length := by
        rw [List.length_append, List.length_singleton]
        omega
      unfold linkbuf
      rw [List.length_nil, List.getD_eq_getElem?_getD, List.getD_eq_getElem?_getD,
        List.getElem?_eq_getElem inBuffer]
      rfl
    · rw [List.getElem?_eq_none (by rw [hashedBytes_length]; exact outside),
        List.getElem?_eq_none (by rw [hashedBytes_length]; exact outside)]

/-- A call hashes the meaningful part of its target exactly if it skips nothing, and a staged
and a live link have one checksum exactly without a root and with one slash. -/
theorem symlinkChecksum_iff (target : Bytes) (root : Option Bytes) (staging path : Bytes) :
    (HashesMeaningful target root ↔ NothingSkipped target root) ∧
      (AgreesWithLive staging path ↔ staging = [] ∧ path.head? ≠ some slashByte) :=
  ⟨hashesMeaningful_iff, agreesWithLive_iff staging path⟩

/-- The link to `/s/a` under the root `/s`, and the link to `/a`. -/
theorem stagedLink_not_agreesWithLive :
    ¬HashesMeaningful [47, 115, 47, 97] (some [47, 115]) ∧ ¬AgreesWithLive [47, 115] [97] := by
  constructor
  · exact fun hashes => absurd hashes.inside (by decide)
  · intro agrees
    exact absurd (congrArg List.length (agrees id (fun _ => 0) fun _ => 0)) (by decide)

end Pkgng
