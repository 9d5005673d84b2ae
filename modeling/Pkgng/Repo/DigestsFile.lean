import Pkgng.Lib.Comparator
import Pkgng.Lib.ListSort
import Pkgng.Repo.Incremental
import Pkgng.Repo.RecordFlow

/-!
# The digests file

`pkg_create_repo` sorts the records that it has read and writes them to the digests file,
whose lines the loop of `pkg_repo_binary_update_incremental` reads.
-/

set_option autoImplicit false

namespace Pkgng

open Lib

/-- `%ld`. -/
def longText (value : Int) : Text :=
  if value < 0 then '-' :: Nat.toDigits 10 value.natAbs else Nat.toDigits 10 value.natAbs

/-- The reader of the records asserts that they have an origin and a digest. -/
def pkgDigestSortCompareFunc (d1 d2 : DigestEntry) : Int :=
  strcmp (d1.origin.getD []) (d2.origin.getD [])

/-- What `fprintf` writes for an entry, up to the newline. -/
def DigestEntry.text (entry : DigestEntry) : Text :=
  entry.origin.getD [] ++ ':' :: entry.digest.getD [] ++ ':' :: longText entry.manifestPos ++
    ':' :: longText entry.filesPos ++ ':' :: longText entry.manifestLength ++
    match entry.checksum with
    | some checksum => ':' :: checksum
    | none => []

/-- `DL_SORT` and the loop that writes `mandigests`. -/
def digestsFile (dlist : List DigestEntry) : Text :=
  (listSort (fun d1 d2 => decide (pkgDigestSortCompareFunc d1 d2 ≤ 0)) dlist).flatMap
    fun entry => entry.text ++ ['\n']

/-- The lines as C strings. -/
def digestLines (file : Text) : List Text := (getlines file).map uptoNul

def hexadecimal (c : Char) : Bool :=
  c.isDigit || ('a' ≤ c && c ≤ 'f') || ('A' ≤ c && c ≤ 'F')

/-- A C string without what separates fields and lines. -/
structure PlainText (text : Text) : Prop where
  colon : ':' ∉ text
  newline : '\n' ∉ text
  nul : '\x00' ∉ text

/-- A record with a short line, plain texts and numbers of the type `long`. -/
structure Region.Sound (region : Region) : Prop where
  length : (digestLine region).length < digestBufSize
  origin : PlainText region.pkg.origin
  digest : PlainText region.pkg.digest
  checksum : ∀ c ∈ region.pkg.checksum, hexadecimal c = true
  mpos : region.mpos < 9223372036854775808
  fpos : region.fpos < 9223372036854775808
  mlen : region.pkg.manifest.length < 9223372036854775808

/-- The item for the record. -/
def Region.item (region : Region) : TaskItem where
  origin := region.pkg.origin
  digest := region.pkg.digest
  offset := region.mpos
  length := region.pkg.manifest.length
  checksum := some region.pkg.checksum

/-! ## Lines written and read -/

theorem PlainText.of_hexadecimal {text : Text} (hex : ∀ c ∈ text, hexadecimal c = true) :
    PlainText text where
  colon member := absurd (hex _ member) (by decide)
  newline member := absurd (hex _ member) (by decide)
  nul member := absurd (hex _ member) (by decide)

theorem PlainText.toDigits (value : Nat) : PlainText (Nat.toDigits 10 value) where
  colon := Dimacs.notMem_toDigits rfl value
  newline := Dimacs.notMem_toDigits rfl value
  nul := Dimacs.notMem_toDigits rfl value

theorem Region.Sound.fits {region : Region} (sound : region.Sound) : region.Fits where
  length := sound.length
  origin := ⟨sound.origin.colon, sound.origin.newline⟩
  digest := ⟨sound.digest.colon, sound.digest.newline⟩
  checksum := by
    have plain := PlainText.of_hexadecimal sound.checksum
    refine ⟨plain.colon, plain.newline, fun dot => ?_⟩
    exact absurd (sound.checksum _ (List.mem_of_getLast? dot)) (by decide)

theorem longText_natCast (value : Nat) : longText value = Nat.toDigits 10 value := by
  rw [longText, if_neg (by omega), Int.natAbs_natCast]

/-- Both writers use one format. -/
theorem Region.entry_text (region : Region) :
    region.entry.text ++ ['\n'] = digestLine region := by
  simp [DigestEntry.text, Region.entry, digestLine, longText_natCast]

theorem Region.entry_text_plain {region : Region} {c : Char}
    (notColon : c ≠ ':') (origin : c ∉ region.pkg.origin) (digest : c ∉ region.pkg.digest)
    (checksum : c ∉ region.pkg.checksum) (notDigit : c.isDigit = false) :
    c ∉ region.entry.text := by
  have noDigit : ∀ value, c ∉ Nat.toDigits 10 value := Dimacs.notMem_toDigits notDigit
  simp [DigestEntry.text, Region.entry, longText_natCast, notColon, origin, digest, checksum,
    noDigit]

theorem strsep_colon {token rest : Text} (plain : PlainText token) :
    strsep [':'] (some (token ++ ':' :: rest)) = (some token, some rest) :=
  strsep_append (fun _ member isColon => plain.colon (List.mem_singleton.mp isColon ▸ member))
    (List.mem_singleton_self _)

theorem strsep_colonNewline {token rest : Text} (plain : PlainText token) {c : Char}
    (delimiter : c ∈ [':', '\n']) :
    strsep [':', '\n'] (some (token ++ c :: rest)) = (some token, some rest) := by
  refine strsep_append (fun d member among => ?_) delimiter
  rcases List.mem_pair.mp among with rfl | rfl
  · exact plain.colon member
  · exact plain.newline member

/-- The fields of a record's line, whatever the pointers were before. -/
theorem digestFields_digestLine {region : Region} (sound : region.Sound)
    (leftover : Option Text × Option Text) :
    digestFields leftover (digestLine region) =
      { origin := some region.pkg.origin
        digest := some region.pkg.digest
        offset := some (Nat.toDigits 10 region.mpos)
        length := some (Nat.toDigits 10 region.pkg.manifest.length)
        checksum := some region.pkg.checksum } := by
  have hex := PlainText.of_hexadecimal sound.checksum
  unfold digestFields digestLine
  simp only [List.append_assoc, List.cons_append, strsep_colon sound.origin,
    strsep_colon sound.digest, strsep_colon (PlainText.toDigits _), Option.isSome_some, if_true,
    strsep_colonNewline (PlainText.toDigits _) List.mem_cons_self,
    strsep_colonNewline hex (List.mem_cons_of_mem _ (List.mem_singleton_self _))]

theorem digestItem_digestLine {env : UpdateEnv} {region : Region} (sound : region.Sound)
    (number : Nat) :
    digestItem { env with strtoul := strtoulErrno } number (digestLine region) =
      some region.item := by
  have offset := strtoulErrno_toDigits (n := region.mpos) (by have := sound.mpos; omega)
  have length := strtoulErrno_toDigits (n := region.pkg.manifest.length)
    (by have := sound.mlen; omega)
  unfold digestItem
  simp only [digestFields_digestLine sound]
  simp [offset, length, Region.item]

/-! ## The file as a whole -/

/-- The item for an entry of the list. -/
def DigestEntry.item (entry : DigestEntry) : TaskItem where
  origin := entry.origin.getD []
  digest := entry.digest.getD []
  offset := entry.manifestPos.toNat
  length := entry.manifestLength.toNat
  checksum := entry.checksum

theorem digestItems_map {env : UpdateEnv} {entries : List DigestEntry}
    (each : ∀ entry ∈ entries, ∀ number,
      digestItem env number (entry.text ++ ['\n']) = some entry.item) :
    digestItems env (entries.map fun entry => entry.text ++ ['\n']) =
      some (entries.map DigestEntry.item) := by
  unfold digestItems
  generalize 0 = number
  induction entries generalizing number with
  | nil => rfl
  | cons entry entries ih =>
      obtain ⟨first, others⟩ := List.forall_mem_cons.mp each
      rw [List.map_cons, List.zipIdx_cons, List.mapM_cons, first number, ih others]
      rfl

/-- The lines of a file of sound records are their texts. -/
theorem digestLines_eq {entries : List DigestEntry}
    (recorded : ∀ entry ∈ entries, ∃ region : Region, region.Sound ∧ entry = region.entry) :
    digestLines (entries.flatMap fun entry => entry.text ++ ['\n']) =
      entries.map fun entry => entry.text ++ ['\n'] := by
  have oneLine : ∀ entry ∈ entries, '\n' ∉ entry.text := by
    intro entry member
    obtain ⟨region, sound, rfl⟩ := recorded entry member
    exact Region.entry_text_plain (by decide) sound.origin.newline sound.digest.newline
      (PlainText.of_hexadecimal sound.checksum).newline rfl
  rw [digestLines, getlines_flatMap oneLine, List.map_map]
  apply List.map_congr_left
  intro entry member
  obtain ⟨region, sound, rfl⟩ := recorded entry member
  have noNul := Region.entry_text_plain (by decide) sound.origin.nul sound.digest.nul
    (PlainText.of_hexadecimal sound.checksum).nul rfl
  apply uptoNul_eq
  simpa using noNul

/-- The list that the parent writes is read back entry by entry. -/
theorem digestItems_digestsFile {env : UpdateEnv} {dlist : List DigestEntry}
    (recorded : ∀ entry ∈ dlist, ∃ region : Region, region.Sound ∧ entry = region.entry) :
    ∃ items, digestItems { env with strtoul := strtoulErrno } (digestLines (digestsFile dlist)) =
      some items ∧ items.Perm (dlist.map DigestEntry.item) := by
  have sorted := listSort_perm (fun d1 d2 => decide (pkgDigestSortCompareFunc d1 d2 ≤ 0)) dlist
  unfold digestsFile
  generalize listSort (fun d1 d2 => decide (pkgDigestSortCompareFunc d1 d2 ≤ 0)) dlist = entries
    at sorted ⊢
  have recordedSorted : ∀ entry ∈ entries, ∃ region : Region,
      region.Sound ∧ entry = region.entry :=
    fun entry member => recorded entry (sorted.mem_iff.mp member)
  refine ⟨_, ?_, sorted.map DigestEntry.item⟩
  rw [digestLines_eq recordedSorted]
  apply digestItems_map
  intro entry member number
  obtain ⟨region, sound, rfl⟩ := recordedSorted entry member
  rw [region.entry_text, digestItem_digestLine sound]
  rfl

/-- Whatever the workers have to send, and however their steps and the parent's interleave: the
parent can come to its end, and then every record is an item of the update. -/
theorem digestRecords_roundTrip {count : Nat} (records : Fin count → List Region)
    (sound : ∀ worker, ∀ region ∈ records worker, region.Sound) (env : UpdateEnv)
    (events : List (CreateEvent (Fin count))) (flow : RecordFlow (Fin count))
    (run : runEvents RecordFlow.step (.start records) events = some flow) :
    (∃ rest final, runEvents RecordFlow.step flow rest = some final ∧ final.state.Created) ∧
      (flow.state.Created → ∃ items,
        digestItems { env with strtoul := strtoulErrno }
          (digestLines (digestsFile flow.state.dlist)) = some items ∧
        items.Perm (((List.finRange count).flatMap records).map Region.item)) := by
  have fits : ∀ worker, ∀ region ∈ records worker, region.Fits :=
    fun worker region member => (sound worker region member).fits
  refine ⟨RecordFlow.exists_created fits run, fun created => ?_⟩
  have received := RecordFlow.dlist_perm fits run created
  have recorded : ∀ entry ∈ flow.state.dlist, ∃ region : Region,
      region.Sound ∧ entry = region.entry := by
    intro entry member
    obtain ⟨region, listed, isEntry⟩ := List.mem_map.mp (received.mem_iff.mp member)
    obtain ⟨worker, -, own⟩ := List.mem_flatMap.mp listed
    exact ⟨region, sound worker region own, isEntry.symm⟩
  obtain ⟨items, read, same⟩ := @digestItems_digestsFile env _ recorded
  refine ⟨items, read, same.trans ?_⟩
  have mapped := received.map DigestEntry.item
  rwa [List.map_map] at mapped

/-- One worker sends one record. -/
def oneRecord : Fin 1 → List Region := fun _ => [⟨0, 0, shortOrigin⟩]

def oneRecordRun : List (CreateEvent (Fin 1)) :=
  List.replicate 5 (.step 0) ++ [.poll 0, .read, .read]

theorem oneRecord_roundTrip : ∃ flow : RecordFlow (Fin 1),
    runEvents RecordFlow.step (.start oneRecord) oneRecordRun = some flow ∧ flow.state.Created ∧
      ∀ env : UpdateEnv, ∃ items,
        digestItems { env with strtoul := strtoulErrno }
          (digestLines (digestsFile flow.state.dlist)) = some items ∧
        items.Perm (((List.finRange 1).flatMap oneRecord).map Region.item) := by
  have created : ∃ flow : RecordFlow (Fin 1),
      runEvents RecordFlow.step (.start oneRecord) oneRecordRun = some flow ∧
        flow.state.Created :=
    ⟨_, rfl, rfl, fun ⟨0, _⟩ => rfl⟩
  obtain ⟨flow, run, created⟩ := created
  refine ⟨flow, run, created, fun env => ?_⟩
  refine (digestRecords_roundTrip oneRecord ?_ env oneRecordRun flow run).2 created
  intro worker region member
  rw [List.mem_singleton.mp member]
  exact
    { length := by decide
      origin := ⟨by decide, by decide, by decide⟩
      digest := ⟨by decide, by decide, by decide⟩
      checksum := List.all_eq_true.mp (by decide)
      mpos := by decide
      fpos := by decide
      mlen := by decide }

end Pkgng
