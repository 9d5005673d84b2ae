import Pkgng.Manifest.Texts
import Pkgng.Package
import Mathlib.Data.List.Forall2

/-!
# Recomputing checksums and the flat size

The loop of `pkg_recompute` goes through the files of an installed package with one buffer for the
checksums.  The buffer is written for paths that exist, and compared with the recorded checksum for
all.
-/

set_option autoImplicit false

namespace Pkgng

inductive FileKind
  | regular
  | symlink
  | other
deriving DecidableEq, Repr

/-- What `lstat` and reading tell of a path. -/
structure FileStat where
  kind : FileKind
  size : Nat
  nlink : Nat
  dev : Nat
  ino : Nat
  /-- The SHA-256 of the content. -/
  cksum : List Char
  /-- Whether `sha256_file` succeeds. -/
  readable : Bool
deriving DecidableEq, Repr

/-- `lstat`. -/
abbrev FileSystem := List Char → Option FileStat

/-- The variables of the loop. -/
structure RecomputeState where
  sha256 : List Char
  /-- The inodes in the table `hl`. -/
  hl : List Nat
  flatsize : Nat
deriving DecidableEq, Repr

def checkForHardlink (hl : List Nat) (st : FileStat) : Bool × List Nat :=
  if st.ino ∈ hl then (true, hl) else (false, st.ino :: hl)

/-- What is written to the buffer; none where `sha256_file` fails. -/
def bufferFor (st : FileStat) : Option (List Char) :=
  if st.kind = .symlink then some []
  else if st.readable then some st.cksum
  else none

/-- A path that exists. -/
def visit (s : RecomputeState) (st : FileStat) (sha256 : List Char) : RecomputeState :=
  let regular := decide (st.kind ≠ .symlink)
  let (regular, hl) :=
    if 1 < st.nlink then
      let (linked, hl) := checkForHardlink s.hl st
      (!linked, hl)
    else (regular, s.hl)
  ⟨sha256, hl, if regular then s.flatsize + st.size else s.flatsize⟩

/-- `pkgdb_file_set_cksum` where the checksum differs. -/
def setCksum (f : PkgFile) (sha256 : List Char) : PkgFile :=
  if sha256 ≠ f.sum then { f with sum := sha256 } else f

/-- The loop: the code, the files with their recorded checksums, and the flat size. -/
def recomputeLoop (fs : FileSystem) :
    RecomputeState → List PkgFile → Epkg × List PkgFile × Nat
  | s, [] => (.ok, [], s.flatsize)
  | s, f :: rest =>
      match fs f.path with
      | none =>
          let (rc, files, flatsize) := recomputeLoop fs s rest
          (rc, setCksum f s.sha256 :: files, flatsize)
      | some st =>
          match bufferFor st with
          | none => (.fatal, f :: rest, s.flatsize)
          | some sha256 =>
              let (rc, files, flatsize) := recomputeLoop fs (visit s st sha256) rest
              (rc, setCksum f sha256 :: files, flatsize)

/-- `pkg_recompute`; the buffer starts with what the stack holds.  The flat size is stored where it
differs from the recorded one. -/
def pkgRecompute (fs : FileSystem) (stack : List Char) (files : List PkgFile) :
    Epkg × List PkgFile × Nat :=
  recomputeLoop fs ⟨stack, [], 0⟩ files

/-- A file before and after. -/
structure Repaired (fs : FileSystem) (f f' : PkgFile) : Prop where
  path : f'.path = f.path
  regular : ∀ st, fs f.path = some st → st.kind = .regular → f'.sum = st.cksum
  missing : fs f.path = none → f'.sum = f.sum

/-- The sizes of the regular files, each inode once; some have been seen. -/
def regularSize (fs : FileSystem) : List (Nat × Nat) → List PkgFile → Nat
  | _, [] => 0
  | seen, f :: rest =>
      match fs f.path with
      | none => regularSize fs seen rest
      | some st =>
          if st.kind = .regular ∧ (st.dev, st.ino) ∉ seen then
            st.size + regularSize fs ((st.dev, st.ino) :: seen) rest
          else regularSize fs seen rest

/-- Every regular file gets its own checksum, a path that does not exist keeps the recorded one,
and the flat size is that of the regular files. -/
structure RepairsExactly (fs : FileSystem) (stack : List Char) (files : List PkgFile) : Prop where
  sums : List.Forall₂ (Repaired fs) files (pkgRecompute fs stack files).2.1
  flatsize : (pkgRecompute fs stack files).2.2 = regularSize fs [] files

/-! ## When it does -/

/-- A path that does not exist has the checksum that the buffer holds, and from a file on that
cannot be read the regular files have their own. -/
def SumsRecorded (fs : FileSystem) : List Char → List PkgFile → Prop
  | _, [] => True
  | buffer, f :: rest =>
      match fs f.path with
      | none => buffer = f.sum ∧ SumsRecorded fs buffer rest
      | some st =>
          match bufferFor st with
          | none => ∀ g ∈ f :: rest, ∀ st, fs g.path = some st → st.kind = .regular →
              g.sum = st.cksum
          | some sha256 => SumsRecorded fs sha256 rest

/-- A path that exists: whether its size goes into the flat size, and whether it should. -/
structure SizeEntry where
  size : Nat
  counted : Bool
  due : Bool
deriving DecidableEq, Repr

/-- The paths that exist.  Counted are files up to the first that cannot be read: with several
links each inode number once, of the others all but symbolic links. -/
def sizeEntries (fs : FileSystem) : Bool → List Nat → List (Nat × Nat) → List PkgFile →
    List SizeEntry
  | _, _, _, [] => []
  | stopped, hl, seen, f :: rest =>
      match fs f.path with
      | none => sizeEntries fs stopped hl seen rest
      | some st =>
          let stopped := stopped || (bufferFor st).isNone
          let counted :=
            if 1 < st.nlink then !(checkForHardlink hl st).1 else decide (st.kind ≠ .symlink)
          let due := decide (st.kind = .regular ∧ (st.dev, st.ino) ∉ seen)
          ⟨st.size, !stopped && counted, due⟩ ::
            sizeEntries fs stopped (if 1 < st.nlink then (checkForHardlink hl st).2 else hl)
              (if due then (st.dev, st.ino) :: seen else seen) rest

def sizeSum (chosen : SizeEntry → Bool) : List SizeEntry → Nat
  | [] => 0
  | entry :: rest => (if chosen entry then entry.size else 0) + sizeSum chosen rest

@[simp] theorem sum_setCksum (f : PkgFile) (sha256 : List Char) :
    (setCksum f sha256).sum = sha256 := by
  unfold setCksum
  split
  · rfl
  · next same => exact (not_not.mp same).symm

@[simp] theorem path_setCksum (f : PkgFile) (sha256 : List Char) :
    (setCksum f sha256).path = f.path := by
  unfold setCksum
  split <;> rfl

theorem bufferFor_regular {st : FileStat} {sha256 : List Char} (regular : st.kind = .regular)
    (isSum : bufferFor st = some sha256) : sha256 = st.cksum := by
  rw [bufferFor, regular, if_neg nofun] at isSum
  split at isSum
  · exact (Option.some.inj isSum).symm
  · cases isSum

section Sums

variable {fs : FileSystem}

theorem repaired_missing {f : PkgFile} (missing : fs f.path = none) (sha256 : List Char) :
    Repaired fs f (setCksum f sha256) ↔ sha256 = f.sum := by
  constructor
  · intro repaired
    rw [← repaired.missing missing, sum_setCksum]
  · intro same
    refine ⟨path_setCksum _ _, fun st isThere => ?_, fun _ => by rw [sum_setCksum, same]⟩
    rw [missing] at isThere
    cases isThere

theorem repaired_present {f : PkgFile} {st : FileStat} {sha256 : List Char}
    (isThere : fs f.path = some st) (isSum : bufferFor st = some sha256) :
    Repaired fs f (setCksum f sha256) := by
  refine ⟨path_setCksum _ _, fun st' same regular => ?_, fun missing => ?_⟩
  · rw [isThere] at same
    cases same
    rw [sum_setCksum, bufferFor_regular regular isSum]
  · rw [isThere] at missing
    cases missing

/-- The files that the loop does not get to stay as they are. -/
theorem repaired_same {f : PkgFile} :
    Repaired fs f f ↔ ∀ st, fs f.path = some st → st.kind = .regular → f.sum = st.cksum :=
  ⟨fun repaired => repaired.regular, fun regular => ⟨rfl, regular, fun _ => rfl⟩⟩

theorem repaired_recomputeLoop (s : RecomputeState) (files : List PkgFile) :
    List.Forall₂ (Repaired fs) files (recomputeLoop fs s files).2.1 ↔
      SumsRecorded fs s.sha256 files := by
  induction files generalizing s with
  | nil => exact iff_of_true .nil trivial
  | cons f rest ih =>
      rw [recomputeLoop, SumsRecorded]
      cases isThere : fs f.path with
      | none =>
          dsimp only
          rw [List.forall₂_cons, ih, repaired_missing isThere]
      | some st =>
          dsimp only
          cases isSum : bufferFor st with
          | none =>
              dsimp only
              rw [List.forall₂_same]
              exact forall₂_congr fun g _ => repaired_same
          | some sha256 =>
              dsimp only
              rw [List.forall₂_cons, ih, and_iff_right (repaired_present isThere isSum)]
              rfl

end Sums

section Sizes

variable {fs : FileSystem}

theorem sizeSum_stopped (hl : List Nat) (seen : List (Nat × Nat)) (files : List PkgFile) :
    sizeSum SizeEntry.counted (sizeEntries fs true hl seen files) = 0 := by
  induction files generalizing hl seen with
  | nil => rfl
  | cons f rest ih =>
      rw [sizeEntries]
      split
      · exact ih hl seen
      · dsimp only
        rw [sizeSum, Bool.true_or, ih]
        rfl

/-- What one path that exists adds. -/
theorem visit_eq (s : RecomputeState) (st : FileStat) (sha256 : List Char) :
    visit s st sha256 =
      ⟨sha256, if 1 < st.nlink then (checkForHardlink s.hl st).2 else s.hl,
        s.flatsize + if (if 1 < st.nlink then !(checkForHardlink s.hl st).1
          else decide (st.kind ≠ .symlink)) then st.size else 0⟩ := by
  unfold visit
  split
  · dsimp only
    split <;> rfl
  · dsimp only
    split <;> rfl

theorem flatsize_recomputeLoop (s : RecomputeState) (seen : List (Nat × Nat))
    (files : List PkgFile) :
    (recomputeLoop fs s files).2.2 =
      s.flatsize + sizeSum SizeEntry.counted (sizeEntries fs false s.hl seen files) := by
  induction files generalizing s seen with
  | nil => rfl
  | cons f rest ih =>
      rw [recomputeLoop, sizeEntries]
      cases isThere : fs f.path with
      | none =>
          dsimp only
          exact ih s seen
      | some st =>
          dsimp only
          cases isSum : bufferFor st with
          | none =>
              rw [sizeSum, Option.isNone_none, Bool.or_true, sizeSum_stopped]
              rfl
          | some sha256 =>
              dsimp only
              rw [sizeSum, Option.isNone_some, Bool.or_false,
                ih (visit s st sha256) (if decide (st.kind = .regular ∧ (st.dev, st.ino) ∉ seen) then
                  (st.dev, st.ino) :: seen else seen), visit_eq, Nat.add_assoc]
              rfl

theorem regularSize_eq (stopped : Bool) (hl : List Nat) (seen : List (Nat × Nat))
    (files : List PkgFile) :
    regularSize fs seen files = sizeSum SizeEntry.due (sizeEntries fs stopped hl seen files) := by
  induction files generalizing stopped hl seen with
  | nil => rfl
  | cons f rest ih =>
      rw [regularSize, sizeEntries]
      cases isThere : fs f.path with
      | none => exact ih stopped hl seen
      | some st =>
          dsimp only
          rw [sizeSum]
          by_cases due : st.kind = .regular ∧ (st.dev, st.ino) ∉ seen
          · rw [if_pos due, decide_eq_true due, if_pos rfl, ← ih]
            rfl
          · rw [if_neg due, decide_eq_false due, if_neg Bool.false_ne_true, ← ih]
            exact (Nat.zero_add _).symm

theorem sizeSum_split (p q : SizeEntry → Bool) (entries : List SizeEntry) :
    sizeSum p entries =
      sizeSum (fun entry => p entry && q entry) entries +
        sizeSum (fun entry => p entry && !q entry) entries := by
  induction entries with
  | nil => rfl
  | cons entry rest ih =>
      have here : (if p entry then entry.size else 0) =
          (if p entry && q entry then entry.size else 0) +
            (if p entry && !q entry then entry.size else 0) := by
        by_cases isP : p entry = true <;> by_cases isQ : q entry = true <;> simp [isP, isQ]
      rw [sizeSum, sizeSum, sizeSum, ih, here]
      omega

/-- The entries counted and the entries due have one sum exactly if those of one kind only do. -/
theorem sizeSum_eq_iff (entries : List SizeEntry) :
    sizeSum SizeEntry.counted entries = sizeSum SizeEntry.due entries ↔
      sizeSum (fun entry => entry.counted && !entry.due) entries =
        sizeSum (fun entry => entry.due && !entry.counted) entries := by
  have both : (fun entry : SizeEntry => entry.due && entry.counted) =
      fun entry => entry.counted && entry.due :=
    funext fun entry => Bool.and_comm ..
  rw [sizeSum_split SizeEntry.counted SizeEntry.due entries,
    sizeSum_split SizeEntry.due SizeEntry.counted entries, both, Nat.add_left_cancel_iff]

end Sizes

/-- The flat size is made up: as much is counted that should not be as is left out that should be
counted. -/
def SizesEven (fs : FileSystem) (files : List PkgFile) : Prop :=
  sizeSum (fun entry => entry.counted && !entry.due) (sizeEntries fs false [] [] files) =
    sizeSum (fun entry => entry.due && !entry.counted) (sizeEntries fs false [] [] files)

/-- `pkg_recompute` repairs exactly what is on disk if and only if the missing paths have what the
buffer holds, no checksum is missed behind a file that cannot be read, and the sizes are even. -/
theorem repairsExactly_iff (fs : FileSystem) (stack : List Char) (files : List PkgFile) :
    RepairsExactly fs stack files ↔ SumsRecorded fs stack files ∧ SizesEven fs files := by
  have sums := @repaired_recomputeLoop fs ⟨stack, [], 0⟩ files
  have sizes : (pkgRecompute fs stack files).2.2 = regularSize fs [] files ↔
      SizesEven fs files := by
    rw [pkgRecompute, flatsize_recomputeLoop _ [], regularSize_eq false [] [], Nat.zero_add]
    exact sizeSum_eq_iff _
  exact ⟨fun repairs => ⟨sums.mp repairs.sums, sizes.mp repairs.flatsize⟩,
    fun condition => ⟨sums.mpr condition.1, sizes.mpr condition.2⟩⟩

/-- Without `/a`, with `/b` and a link to it under `/c`. -/
def smallSystem : FileSystem := fun path =>
  if path = "/b".toList then some ⟨.regular, 10, 2, 1, 7, "sumB".toList, true⟩
  else if path = "/c".toList then some ⟨.regular, 10, 2, 1, 7, "sumB".toList, true⟩
  else none

-- A file and its hard link count once.
example : SizesEven smallSystem [⟨"/b".toList, []⟩, ⟨"/c".toList, []⟩] := by
  unfold SizesEven
  decide

/-- A missing file gets the checksum of the file in front of it. -/
theorem missingFile_not_repairsExactly :
    ¬∀ fs stack files, RepairsExactly fs stack files := by
  intro all
  have sums := ((repairsExactly_iff _ _ _).mp (all smallSystem []
    [⟨"/b".toList, "sumB".toList⟩, ⟨"/a".toList, "sumA".toList⟩])).1
  simp [SumsRecorded, smallSystem, bufferFor] at sums

end Pkgng
