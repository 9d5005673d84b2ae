import Pkgng.Install.CleanupOld

/-!
# Extracting the files of a package

`do_extract` writes a file beside the one that is there and renames it, and copies a `.pkgconf`
file to the name without the suffix where there is nothing.  What exists under another name is
left alone.
-/

set_option autoImplicit false

namespace Pkgng

/-- An entry of the archive, with its path below the root. -/
structure ExtractedEntry where
  path : String
  node : DiskNode
deriving DecidableEq, Repr

/-- What the loop meets at each entry, by its number. -/
structure ExtractEnv where
  /-- `archive_read_extract`. -/
  extracts : Nat → Bool
  /-- What a call that fails leaves where nothing was. -/
  torn : Nat → Option DiskNode
  /-- The directories that a call makes where nothing is. -/
  parents : Nat → List String
  /-- The path with twelve random letters. -/
  suffixed : Nat → String
  /-- The second call, for a configuration file, and what it writes. -/
  confExtracts : Nat → Bool
  confNode : Nat → Option DiskNode
  renames : Nat → Bool
  /-- `unlink` of the file that was written beside. -/
  unlinks : Nat → Bool
  /-- The archive ends behind its last entry. -/
  atEof : Bool := true

/-- The name without the suffix. -/
def isConfFile (path : String) : Option String :=
  if ".pkgconf".toList.isSuffixOf path.toList then
    some (String.ofList (path.toList.take (path.toList.length - 8)))
  else none

/-- `lstat` finds something that is not a directory. -/
def occupied (disk : Disk) (path : String) : Bool :=
  match disk path with
  | none => false
  | some .directory => false
  | some _ => true

def makeParents (paths : List String) (disk : Disk) : Disk :=
  paths.foldl (fun disk path =>
    if disk path = none then Function.update disk path (some .directory) else disk) disk

section Extract

variable (env : ExtractEnv) (k : Nat) (entry : ExtractedEntry)

/-- `archive_read_extract` to a path. -/
def readExtract (path : String) (disk : Disk) : Disk :=
  let disk := makeParents (env.parents k) disk
  if env.extracts k then Function.update disk path (some entry.node)
  else if disk path = none then Function.update disk path (env.torn k)
  else disk

/-- The copy of a new configuration file. -/
def copyConf (disk : Disk) : Bool × Disk :=
  match isConfFile entry.path with
  | none => (true, disk)
  | some path =>
      if disk path = none then (env.confExtracts k, Function.update disk path (env.confNode k))
      else (true, disk)

/-- `rename`; a directory does not replace a file. -/
def renameOver (disk : Disk) : Bool × Disk :=
  if env.renames k && decide (entry.node ≠ .directory) then
    (true, Function.update (Function.update disk (env.suffixed k) none) entry.path
      (disk (env.suffixed k)))
  else (false, disk)

/-- The end of the function where the file beside is not renamed. -/
def dropSuffixed (disk : Disk) : Disk :=
  if env.unlinks k then Function.update disk (env.suffixed k) none else disk

def giveUp (renamed : Bool) (disk : Disk) : Bool × Disk :=
  (false, if renamed then dropSuffixed env k disk else disk)

/-- The turn from the second `lstat` on. -/
def settleEntry (renamed : Bool) (disk : Disk) : Bool × Disk :=
  let (copied, disk) := copyConf env k entry disk
  if copied = false then giveUp env k renamed disk
  else if renamed then
    let (moved, disk) := renameOver env k entry disk
    if moved then (true, disk) else giveUp env k renamed disk
  else (true, disk)

/-- The extraction has failed, and not of a directory that is there. -/
abbrev Fails (written : Disk) : Prop :=
  env.extracts k = false ∧ ¬(entry.node = .directory ∧ written entry.path = some .directory)

/-- One turn of the loop, and whether it goes on. -/
def extractEntry (disk : Disk) : Bool × Disk :=
  let renamed := occupied disk entry.path
  let written := readExtract env k entry (if renamed then env.suffixed k else entry.path) disk
  if Fails env k entry written then giveUp env k renamed written
  else settleEntry env k entry renamed written

end Extract

def extractLoop (env : ExtractEnv) : Nat → List ExtractedEntry → Disk → Bool × Disk
  | _, [], disk => (env.atEof, disk)
  | k, entry :: rest, disk =>
      let (goesOn, disk) := extractEntry env k entry disk
      if goesOn then extractLoop env (k + 1) rest disk else (false, disk)

def doExtract (env : ExtractEnv) (nfiles : Nat) (entries : List ExtractedEntry) (disk : Disk) :
    Epkg × Disk :=
  if nfiles = 0 then (.ok, disk)
  else
    let (whole, disk) := extractLoop env 0 entries disk
    (if whole then .ok else .fatal, disk)

/-! ## What is left alone -/

/-- What exists under other names stays as it is. -/
def Disk.SameBut (names : String → Prop) (disk disk' : Disk) : Prop :=
  ∀ path, disk path ≠ none → ¬names path → disk' path = disk path

namespace Disk.SameBut

variable {names : String → Prop} {disk disk' disk'' : Disk}

theorem refl : SameBut names disk disk := fun _ _ _ => rfl

theorem trans (first : SameBut names disk disk') (second : SameBut names disk' disk'') :
    SameBut names disk disk'' := by
  intro path there other
  have same := first path there other
  rw [second path (by rwa [same]) other, same]

theorem mono {more : String → Prop} (same : SameBut names disk disk')
    (within : ∀ path, names path → more path) : SameBut more disk disk' :=
  fun path there other => same path there fun named => other (within path named)

theorem update {path : String} {node : Option DiskNode} (named : names path) :
    SameBut names disk (Function.update disk path node) := by
  intro other _ notNamed
  exact Function.update_of_ne (fun same => notNamed (by rwa [same])) ..

/-- Nothing that exists is written over. -/
theorem update_none {path : String} {node : Option DiskNode} (free : disk path = none) :
    SameBut names disk (Function.update disk path node) := by
  intro other there _
  exact Function.update_of_ne (fun same => there (by rwa [same])) ..

theorem update_same {path : String} {node : Option DiskNode} (there : disk path = node) :
    SameBut names disk (Function.update disk path node) := by
  intro other _ _
  rw [← there, Function.update_eq_self]

end Disk.SameBut

theorem makeParents_sameBut {names : String → Prop} (paths : List String) (disk : Disk) :
    Disk.SameBut names disk (makeParents paths disk) := by
  unfold makeParents
  induction paths generalizing disk with
  | nil => exact .refl
  | cons path rest ih =>
      rw [List.foldl_cons]
      refine Disk.SameBut.trans ?_ (ih _)
      split
      · next free => exact .update_none free
      · exact .refl

section Entry

variable {env : ExtractEnv} {k : Nat} {entry : ExtractedEntry} {disk : Disk}

/-- The names that a turn may write over. -/
def EntryNames (env : ExtractEnv) (k : Nat) (entry : ExtractedEntry) (path : String) : Prop :=
  path = env.suffixed k ∨ entry.node ≠ .directory ∧ path = entry.path

theorem makeParents_free {path : String} (paths : List String)
    (free : disk path = none ∨ disk path = some .directory) :
    makeParents paths disk path = none ∨ makeParents paths disk path = some .directory := by
  unfold makeParents
  induction paths generalizing disk with
  | nil => exact free
  | cons first rest ih =>
      rw [List.foldl_cons]
      apply ih
      split
      · by_cases same : path = first
        · subst same
          exact Or.inr (Function.update_self ..)
        · rwa [Function.update_of_ne same]
      · exact free

theorem occupied_eq_false {path : String} :
    occupied disk path = false ↔ disk path = none ∨ disk path = some .directory := by
  unfold occupied
  split
  · next free => simp [free]
  · next dir => simp [dir]
  · next node notDir there => simpa [there] using notDir

theorem readExtract_sameBut {path : String}
    (written : path = env.suffixed k ∨ path = entry.path ∧ occupied disk entry.path = false) :
    Disk.SameBut (EntryNames env k entry) disk (readExtract env k entry path disk) := by
  refine (makeParents_sameBut (env.parents k) disk).trans ?_
  unfold readExtract
  dsimp only
  rcases written with beside | ⟨rfl, free⟩
  · split
    · exact .update (Or.inl beside)
    · split
      · next nothing => exact .update_none nothing
      · exact .refl
  · have still := makeParents_free (env.parents k) (occupied_eq_false.mp free)
    split
    · by_cases dir : entry.node = .directory
      · rcases still with nothing | there
        · exact .update_none nothing
        · exact .update_same (dir ▸ there)
      · exact .update (Or.inr ⟨dir, rfl⟩)
    · split
      · next nothing => exact .update_none nothing
      · exact .refl

theorem copyConf_sameBut {names : String → Prop} :
    Disk.SameBut names disk (copyConf env k entry disk).2 := by
  unfold copyConf
  split
  · exact .refl
  · split
    · next free => exact .update_none free
    · exact .refl

theorem renameOver_sameBut :
    Disk.SameBut (EntryNames env k entry) disk (renameOver env k entry disk).2 := by
  unfold renameOver
  split
  · next allowed =>
      have file : entry.node ≠ .directory := of_decide_eq_true (Bool.and_eq_true_iff.mp allowed).2
      exact (Disk.SameBut.update (Or.inl rfl)).trans (.update (Or.inr ⟨file, rfl⟩))
  · exact .refl

theorem dropSuffixed_sameBut :
    Disk.SameBut (EntryNames env k entry) disk (dropSuffixed env k disk) := by
  unfold dropSuffixed
  split
  · exact .update (Or.inl rfl)
  · exact .refl

theorem giveUp_sameBut {renamed : Bool} :
    Disk.SameBut (EntryNames env k entry) disk (giveUp env k renamed disk).2 := by
  cases renamed with
  | true => exact dropSuffixed_sameBut
  | false => exact .refl

theorem settleEntry_sameBut {renamed : Bool} :
    Disk.SameBut (EntryNames env k entry) disk (settleEntry env k entry renamed disk).2 := by
  have copied := @copyConf_sameBut env k entry disk (EntryNames env k entry)
  unfold settleEntry
  cases copy : copyConf env k entry disk with
  | mk ok between =>
      rw [copy] at copied
      have moved := @renameOver_sameBut env k entry between
      dsimp only
      split
      · exact copied.trans giveUp_sameBut
      · split
        · cases move : renameOver env k entry between with
          | mk ok after =>
              rw [move] at moved
              dsimp only
              split
              · exact copied.trans moved
              · exact (copied.trans moved).trans giveUp_sameBut
        · exact copied

/-- A turn leaves what exists under other names, whether it goes on or not. -/
theorem extractEntry_sameBut :
    Disk.SameBut (EntryNames env k entry) disk (extractEntry env k entry disk).2 := by
  have outcome (renamed : Bool) {written : Disk}
      (same : Disk.SameBut (EntryNames env k entry) disk written) :
      Disk.SameBut (EntryNames env k entry) disk
        (if Fails env k entry written then giveUp env k renamed written
          else settleEntry env k entry renamed written).2 := by
    split
    · exact same.trans giveUp_sameBut
    · exact same.trans settleEntry_sameBut
  apply outcome
  apply readExtract_sameBut
  cases busy : occupied disk entry.path with
  | true => exact Or.inl rfl
  | false => exact Or.inr ⟨rfl, rfl⟩

/-! ## What is put in place -/

theorem isConfFile_ne {path conf : String} (isConf : isConfFile path = some conf) :
    path ≠ conf := by
  unfold isConfFile at isConf
  split at isConf
  · next suffix =>
      cases isConf
      intro same
      have long : 8 ≤ path.toList.length :=
        (List.isSuffixOf_iff_suffix.mp suffix).length_le
      have lengths := congrArg (fun text : String => text.toList.length) same
      simp only [String.toList_ofList, List.length_take] at lengths
      omega
  · cases isConf

theorem copyConf_path {path : String} (apart : path = entry.path) :
    (copyConf env k entry disk).2 path = disk path := by
  unfold copyConf
  split
  · rfl
  · next conf isConf =>
      split
      · exact Function.update_of_ne (apart ▸ isConfFile_ne isConf) ..
      · rfl

/-- The node that has been written ends up under the path of the entry. -/
theorem settleEntry_placed {renamed : Bool}
    (there : disk (if renamed then env.suffixed k else entry.path) = some entry.node)
    (goesOn : (settleEntry env k entry renamed disk).1 = true) :
    (settleEntry env k entry renamed disk).2 entry.path = some entry.node := by
  have kept := @copyConf_sameBut env k entry disk (fun _ => False)
  have own := @copyConf_path env k entry disk entry.path rfl
  unfold settleEntry at goesOn ⊢
  cases copy : copyConf env k entry disk with
  | mk ok between =>
      rw [copy] at goesOn kept own
      dsimp only at goesOn own kept ⊢
      split at goesOn
      · cases goesOn
      · next copied =>
          rw [if_neg copied]
          cases renamed with
          | false => exact own.trans there
          | true =>
              have beside : between (env.suffixed k) = some entry.node :=
                (kept _ (by
                  rw [show disk (env.suffixed k) = _ from there]
                  exact Option.some_ne_none _) id).trans there
              unfold renameOver at goesOn ⊢
              by_cases moves : (env.renames k && decide (entry.node ≠ .directory)) = true
              · simp only [moves, if_true]
                rw [Function.update_self, beside]
              · rw [if_neg moves] at goesOn
                cases goesOn

/-- A turn that goes on has put the node of the entry under its path. -/
theorem extractEntry_placed (apart : env.suffixed k ≠ entry.path)
    (goesOn : (extractEntry env k entry disk).1 = true) :
    (extractEntry env k entry disk).2 entry.path = some entry.node := by
  have outcome (renamed : Bool) {written : Disk}
      (there : ¬Fails env k entry written →
        written (if renamed then env.suffixed k else entry.path) = some entry.node)
      (goesOn : (if Fails env k entry written then giveUp env k renamed written
        else settleEntry env k entry renamed written).1 = true) :
      (if Fails env k entry written then giveUp env k renamed written
        else settleEntry env k entry renamed written).2 entry.path = some entry.node := by
    split at goesOn
    · cases goesOn
    · next extracted =>
        rw [if_neg extracted]
        exact settleEntry_placed (there extracted) goesOn
  refine outcome _ (fun extracted => ?_) goesOn
  by_cases extracts : env.extracts k = true
  · unfold readExtract
    rw [if_pos extracts]
    exact Function.update_self ..
  · -- Only a directory that is there may fail; then nothing is renamed.
    have failed : env.extracts k = false := Bool.eq_false_iff.mpr extracts
    obtain ⟨dir, there⟩ := not_not.mp fun other => extracted ⟨failed, other⟩
    cases busy : occupied disk entry.path with
    | false =>
        rw [busy] at there
        rw [dir]
        exact there
    | true =>
        rw [busy] at there
        have same := @readExtract_sameBut env k entry disk (env.suffixed k) (Or.inl rfl) entry.path
        have occupies : disk entry.path ≠ none ∧ disk entry.path ≠ some .directory := by
          refine not_or.mp fun free => ?_
          rw [occupied_eq_false.mpr free] at busy
          cases busy
        have named : ¬EntryNames env k entry entry.path := by
          rintro (same | ⟨file, _⟩)
          · exact apart same.symm
          · exact file dir
        exact absurd ((same occupies.1 named).symm.trans there) occupies.2

end Entry

section Loop

variable {env : ExtractEnv}

/-- The names that the loop may write over. -/
def LoopNames (env : ExtractEnv) (entries : List ExtractedEntry) (path : String) : Prop :=
  (∃ k, path = env.suffixed k) ∨ ∃ entry ∈ entries, entry.node ≠ .directory ∧ path = entry.path

theorem extractLoop_cons (k : Nat) (entry : ExtractedEntry) (rest : List ExtractedEntry)
    (disk : Disk) :
    extractLoop env k (entry :: rest) disk =
      if (extractEntry env k entry disk).1 then
        extractLoop env (k + 1) rest (extractEntry env k entry disk).2
      else (false, (extractEntry env k entry disk).2) := rfl

theorem EntryNames.loop {k : Nat} {entry : ExtractedEntry} {entries : List ExtractedEntry}
    (member : entry ∈ entries) {path : String} (named : EntryNames env k entry path) :
    LoopNames env entries path := by
  rcases named with suffixed | file
  · exact Or.inl ⟨k, suffixed⟩
  · exact Or.inr ⟨entry, member, file⟩

theorem extractLoop_sameBut (entries : List ExtractedEntry) (k : Nat) (disk : Disk) :
    Disk.SameBut (LoopNames env entries) disk (extractLoop env k entries disk).2 := by
  induction entries generalizing k disk with
  | nil => exact .refl
  | cons entry rest ih =>
      have turn : Disk.SameBut (LoopNames env (entry :: rest)) disk
          (extractEntry env k entry disk).2 :=
        extractEntry_sameBut.mono fun _ named => named.loop List.mem_cons_self
      rw [extractLoop_cons]
      split
      · refine turn.trans ((ih _ _).mono fun path named => ?_)
        rcases named with suffixed | ⟨other, member, file⟩
        · exact Or.inl suffixed
        · exact Or.inr ⟨other, List.mem_cons_of_mem _ member, file⟩
      · exact turn

/-- Where the loop comes to its end, every entry is in its place. -/
theorem extractLoop_placed {entries : List ExtractedEntry} {k : Nat} {disk : Disk}
    (distinct : (entries.map ExtractedEntry.path).Nodup)
    (fresh : ∀ k, ∀ entry ∈ entries, env.suffixed k ≠ entry.path)
    (whole : (extractLoop env k entries disk).1 = true) {entry : ExtractedEntry}
    (member : entry ∈ entries) :
    (extractLoop env k entries disk).2 entry.path = some entry.node := by
  induction entries generalizing k disk with
  | nil => cases member
  | cons first rest ih =>
      rw [List.map_cons, List.nodup_cons] at distinct
      rw [extractLoop_cons] at whole ⊢
      split at whole
      · next goesOn =>
          rw [if_pos goesOn]
          rcases List.mem_cons.mp member with rfl | later
          · have placed := extractEntry_placed (fresh k entry member) goesOn
            rw [extractLoop_sameBut rest (k + 1) _ entry.path (by rw [placed]; exact Option.some_ne_none _), placed]
            rintro (⟨other, suffixed⟩ | ⟨other, listed, _, same⟩)
            · exact fresh other entry member suffixed.symm
            · exact distinct.1 (List.mem_map.mpr ⟨other, listed, same.symm⟩)
          · exact ih distinct.2 (fun k entry member => fresh k entry (List.mem_cons_of_mem _ member))
              whole later
      · cases whole

end Loop

end Pkgng
