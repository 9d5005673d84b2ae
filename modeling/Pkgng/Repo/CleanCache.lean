import Pkgng.Repo.FetchPackage

/-!
# Cleaning the cache

`pkg clean` knows a package file by the ten characters of a checksum at the end of its name.  What
it removes is compared with the names under which `pkg_repo_binary_try_fetch` puts the packages of
the catalogues.
-/

set_option autoImplicit false

namespace Pkgng

open Lib

/-! ## The command -/

/-- `PKG_FILE_CKSUM_CHARS`. -/
def pkgFileCksumChars : Nat := 10

/-- What `fts_read` tells of an entry, of a link with what `readlink` gives. -/
inductive CachedKind
  | regular
  | link (target : Option (List Char))
  | other
deriving DecidableEq, Repr

structure CachedEntry where
  path : Path
  kind : CachedKind
deriving DecidableEq, Repr

/-- The hash of a name in the form `<name>-<version>-<hash>.txz`. -/
def extractFilenameSum (fname : List Char) : Option (List Char) :=
  match strrchr '-' fname with
  | none => none
  | some dashPos =>
      let dotPos := (strrchr '.' fname).getD []
      -- The positions are compared by what is left from them on.
      let dotPos := if dashPos.length < dotPos.length then [] else dotPos
      if dashPos.length - dotPos.length = pkgFileCksumChars + 1 then
        some ((dashPos.drop 1).take pkgFileCksumChars)
      else none

/-- The hash is in the list of the checksums, which are cut to its length. -/
def knownSum (sums : List (List Char)) (fname : List Char) : Bool :=
  match extractFilenameSum fname with
  | none => false
  | some csum => sums.any fun sum => sum.take pkgFileCksumChars = csum

/-- The entry goes onto the list of those to be deleted. -/
def CachedEntry.obsolete (all : Bool) (sums : List (List Char)) (entry : CachedEntry) : Bool :=
  match entry.kind with
  | .other => false
  | .regular => all || !knownSum sums (lastComponent entry.path)
  | .link target => all || target.any fun name => !knownSum sums name

/-- How the user runs the command, and whether a file can be unlinked. -/
structure CleanEnv where
  all : Bool := false
  dryRun : Bool := false
  confirms : Bool := true
  unlinks : Path → Bool := fun _ => true

/-- `exec_clean` from the loop on, over the checksums of the catalogues: the entries that are left
and whether it exits with `EX_OK`. -/
def execClean (env : CleanEnv) (sums : List (List Char)) (entries : List CachedEntry) :
    List CachedEntry × Bool :=
  let dl := entries.filter (CachedEntry.obsolete env.all sums)
  if dl.isEmpty then (entries, true)
  else if env.dryRun then (entries, true)
  else if env.confirms then
    (entries.filter fun entry => !(entry.obsolete env.all sums && env.unlinks entry.path),
      dl.all fun entry => env.unlinks entry.path)
  else (entries, true)

/-! ## Names with a hash -/

/-- The name ends with the hash, behind the last dash, and at most one extension. -/
structure NamesSum (fname sum : List Char) : Prop where
  split : ∃ stem ext, fname = stem ++ '-' :: (sum ++ ext) ∧ '-' ∉ ext ∧
    (ext = [] ∧ '.' ∉ sum ∨ ∃ e, ext = '.' :: e ∧ '.' ∉ e)
  plain : '-' ∉ sum
  length : sum.length = pkgFileCksumChars

theorem strrchr_eq_some_iff {c : Char} {s t : List Char} :
    strrchr c s = some t ↔ ∃ front rest, s = front ++ c :: rest ∧ t = c :: rest ∧ c ∉ rest := by
  constructor
  · intro found
    induction s with
    | nil => cases found
    | cons x s ih =>
        rw [strrchr] at found
        cases later : strrchr c s with
        | some u =>
            rw [later, Option.some_or] at found
            obtain ⟨front, rest, same, isRest, absent⟩ := ih (later.trans found)
            exact ⟨x :: front, rest, by rw [same]; rfl, isRest, absent⟩
        | none =>
            rw [later, Option.none_or] at found
            split at found
            · next here =>
                cases found
                exact ⟨[], s, by rw [here]; rfl, by rw [here],
                  (strrchr_eq_none_iff c s).mp later⟩
            · cases found
  · rintro ⟨front, rest, rfl, rfl, absent⟩
    rw [strrchr_append, strrchr_head absent]
    rfl

/-- `strrchr` where the last dash is known. -/
theorem extractFilenameSum_split {stem body : List Char} (noDash : '-' ∉ body) :
    extractFilenameSum (stem ++ '-' :: body) =
      if body.length - ((strrchr '.' body).getD []).length = pkgFileCksumChars then
        some (body.take pkgFileCksumChars)
      else none := by
  have dash : strrchr '-' (stem ++ '-' :: body) = some ('-' :: body) :=
    strrchr_eq_some_iff.mpr ⟨stem, body, rfl, rfl, noDash⟩
  unfold extractFilenameSum
  rw [dash]
  dsimp only
  rw [List.drop_one, List.tail_cons, List.length_cons]
  cases inBody : strrchr '.' body with
  | some dot =>
      obtain ⟨front, rest, same, rfl, absent⟩ := strrchr_eq_some_iff.mp inBody
      have dot : strrchr '.' (stem ++ '-' :: body) = some ('.' :: rest) :=
        strrchr_eq_some_iff.mpr ⟨stem ++ '-' :: front, rest, by rw [same]; simp, rfl, absent⟩
      have shorter : ('.' :: rest).length ≤ body.length := by
        rw [same, List.length_append]
        omega
      have kept : (if body.length + 1 < ('.' :: rest).length then [] else '.' :: rest) =
          '.' :: rest := if_neg (by omega)
      rw [dot, Option.getD_some, kept]
      congr 1
      exact propext ⟨fun same => by omega, fun same => by omega⟩
  | none =>
      have dotless := (strrchr_eq_none_iff '.' body).mp inBody
      have behind : ∀ dot, strrchr '.' (stem ++ '-' :: body) = some dot →
          body.length + 1 < dot.length := by
        intro dot found
        rw [strrchr_append] at found
        have absent : strrchr '.' ('-' :: body) = none :=
          strrchr_none (by simpa using dotless)
        rw [absent, Option.none_or] at found
        obtain ⟨tail, inStem, rfl⟩ := Option.map_eq_some_iff.mp found
        obtain ⟨front, rest, _, rfl, _⟩ := strrchr_eq_some_iff.mp inStem
        rw [List.length_append, List.length_cons, List.length_cons]
        omega
      have none : (if body.length + 1 < ((strrchr '.' (stem ++ '-' :: body)).getD []).length then []
          else (strrchr '.' (stem ++ '-' :: body)).getD []) = [] := by
        cases found : strrchr '.' (stem ++ '-' :: body) with
        | some dot => exact if_pos (behind dot found)
        | none => exact if_neg (Nat.not_lt_zero _)
      rw [none]
      congr 1
      exact propext ⟨fun same => by simpa using same, fun same => by simpa using same⟩

theorem extractFilenameSum_iff {fname sum : List Char} :
    extractFilenameSum fname = some sum ↔ NamesSum fname sum := by
  constructor
  · intro found
    cases dash : strrchr '-' fname with
    | none =>
        rw [extractFilenameSum, dash] at found
        cases found
    | some dashPos =>
        obtain ⟨stem, body, rfl, rfl, noDash⟩ := strrchr_eq_some_iff.mp dash
        rw [extractFilenameSum_split noDash] at found
        split at found
        · next long =>
            cases found
            have pieces := (List.take_append_drop pkgFileCksumChars body).symm
            have noDashes : '-' ∉ body.take pkgFileCksumChars ∧ '-' ∉ body.drop pkgFileCksumChars :=
              ⟨fun inside => noDash (List.mem_of_mem_take inside),
                fun inside => noDash (List.mem_of_mem_drop inside)⟩
            have enough : (body.take pkgFileCksumChars).length = pkgFileCksumChars := by
              rw [List.length_take]
              omega
            refine ⟨⟨stem, body.drop pkgFileCksumChars, by rw [← pieces], noDashes.2, ?_⟩,
              noDashes.1, enough⟩
            cases inBody : strrchr '.' body with
            | none =>
                rw [inBody] at long
                have all : body.length = pkgFileCksumChars := long
                have dotless := (strrchr_eq_none_iff '.' body).mp inBody
                exact Or.inl ⟨List.drop_eq_nil_of_le all.le,
                  fun inside => dotless (List.mem_of_mem_take inside)⟩
            | some dot =>
                obtain ⟨front, rest, same, rfl, absent⟩ := strrchr_eq_some_iff.mp inBody
                rw [inBody, Option.getD_some, same, List.length_append,
                  Nat.add_sub_cancel] at long
                exact Or.inr ⟨rest, by rw [same, ← long, List.drop_left], absent⟩
        · cases found
  · rintro ⟨⟨stem, ext, rfl, noDash, ends⟩, plain, length⟩
    have none : '-' ∉ sum ++ ext := fun inside => (List.mem_append.mp inside).elim plain noDash
    rw [extractFilenameSum_split none]
    have rest : (strrchr '.' (sum ++ ext)).getD [] = ext := by
      rcases ends with ⟨rfl, dotless⟩ | ⟨e, rfl, absent⟩
      · rw [List.append_nil, strrchr_none dotless]
        rfl
      · rw [strrchr_eq_some_iff.mpr ⟨sum, e, rfl, rfl, absent⟩]
        rfl
    rw [rest, List.length_append, Nat.add_sub_cancel, if_pos length, ← length, List.take_left]

/-! ## What is left of a cache -/

theorem knownSum_iff {sums : List (List Char)} {fname : List Char} :
    knownSum sums fname = true ↔ ∃ sum ∈ sums, NamesSum fname (sum.take pkgFileCksumChars) := by
  unfold knownSum
  cases found : extractFilenameSum fname with
  | none =>
      refine iff_of_false Bool.false_ne_true ?_
      rintro ⟨sum, _, named⟩
      rw [extractFilenameSum_iff.mpr named] at found
      cases found
  | some csum =>
      dsimp only
      rw [List.any_eq_true]
      constructor
      · rintro ⟨sum, member, same⟩
        refine ⟨sum, member, ?_⟩
        rw [of_decide_eq_true same]
        exact extractFilenameSum_iff.mp found
      · rintro ⟨sum, member, named⟩
        refine ⟨sum, member, decide_eq_true ?_⟩
        rw [extractFilenameSum_iff.mpr named] at found
        exact Option.some.inj found

/-- The names of a package in the cache are read back: a checksum in hexadecimal digits, an
extension without a dash or a slash, and room for the whole path. -/
structure CacheEnv.Recognised (env : CacheEnv) : Prop where
  digits : '-' ∉ env.sum ∧ '.' ∉ env.sum ∧ '/' ∉ env.sum
  long : pkgFileCksumChars ≤ env.sum.length
  component : '/' ∉ env.name ∧ '/' ∉ env.version
  ext : ∀ ext, env.repopath.bind (strrchr '.') = some ext → '-' ∉ ext ∧ '/' ∉ ext
  fits : (env.stem ++ (env.repopath.bind (strrchr '.')).getD []).length < maxPathLen

namespace CacheEnv

variable {env : CacheEnv}

/-- The name of the file without its extension. -/
def fileStem (env : CacheEnv) : List Char :=
  env.name ++ '-' :: env.version

theorem lastComponent_of_stem {ext : List Char} (recognised : env.Recognised)
    (noSlash : '/' ∉ ext)
    (fits : (env.stem ++ ext).length < maxPathLen) :
    lastComponent (cutPath (env.stem ++ ext)) =
      env.fileStem ++ '-' :: (env.sum.take pkgFileCksumChars ++ ext) := by
  have whole : cutPath (env.stem ++ ext) = env.stem ++ ext :=
    List.take_of_length_le (by omega)
  have path : env.stem ++ ext = env.cachedirConf ++
      '/' :: (env.fileStem ++ '-' :: (env.sum.take pkgFileCksumChars ++ ext)) := by
    simp [stem, fileStem, pkgFileCksumChars]
  have absent : '/' ∉ env.fileStem ++ '-' :: (env.sum.take pkgFileCksumChars ++ ext) := by
    have inSum : '/' ∉ env.sum.take pkgFileCksumChars :=
      fun inside => recognised.digits.2.2 (List.mem_of_mem_take inside)
    simp [fileStem, recognised.component, noSlash, inSum]
  rw [whole, path, lastComponent, strrchr_eq_some_iff.mpr ⟨_, _, rfl, rfl, absent⟩]
  rfl

theorem namesSum_of_ext {ext : List Char} (recognised : env.Recognised) (noDash : '-' ∉ ext)
    (shape : ext = [] ∨ ∃ e, ext = '.' :: e ∧ '.' ∉ e) :
    NamesSum (env.fileStem ++ '-' :: (env.sum.take pkgFileCksumChars ++ ext))
      (env.sum.take pkgFileCksumChars) where
  split := by
    refine ⟨env.fileStem, ext, rfl, noDash, ?_⟩
    rcases shape with isNil | isExt
    · exact Or.inl ⟨isNil, fun inside => recognised.digits.2.1 (List.mem_of_mem_take inside)⟩
    · exact Or.inr isExt
  plain := fun inside => recognised.digits.1 (List.mem_of_mem_take inside)
  length := List.length_take_of_le recognised.long

/-- Whatever is in the cache, the name that a package gets there tells its checksum. -/
theorem getCachedName_namesSum (recognised : env.Recognised) (cache : Cache) :
    NamesSum (lastComponent (env.getCachedName cache)) (env.sum.take pkgFileCksumChars) := by
  have fits := recognised.fits
  have short : env.stem.length < maxPathLen := by
    rw [List.length_append] at fits
    omega
  have plain : NamesSum (lastComponent (cutPath env.stem)) (env.sum.take pkgFileCksumChars) := by
    have name := lastComponent_of_stem recognised (List.not_mem_nil) (by rwa [List.append_nil])
    rw [List.append_nil] at name
    rw [name]
    exact namesSum_of_ext recognised List.not_mem_nil (Or.inl rfl)
  unfold getCachedName
  cases isExt : env.repopath.bind (strrchr '.') with
  | none => exact plain
  | some ext =>
      rw [isExt, Option.getD_some] at fits
      obtain ⟨noDash, noSlash⟩ := recognised.ext ext isExt
      obtain ⟨repopath, _, dot⟩ := Option.bind_eq_some_iff.mp isExt
      obtain ⟨_, e, _, rfl, absent⟩ := strrchr_eq_some_iff.mp dot
      dsimp only
      split
      · exact plain
      · rw [lastComponent_of_stem recognised noSlash fits]
        exact namesSum_of_ext recognised noDash (Or.inr ⟨e, rfl, absent⟩)

end CacheEnv

section Clean

variable {env : CleanEnv} {sums : List (List Char)} {entries : List CachedEntry}
  {entry : CachedEntry}

theorem execClean_kept (member : entry ∈ entries) (kept : entry.obsolete env.all sums = false) :
    entry ∈ (execClean env sums entries).1 := by
  unfold execClean
  dsimp only
  split
  · exact member
  split
  · exact member
  split
  · exact List.mem_filter.mpr ⟨member, by rw [kept]; rfl⟩
  · exact member

theorem execClean_left (deleted : (execClean env sums entries).2 = true)
    (dryRun : env.dryRun = false) (confirms : env.confirms = true)
    (left : entry ∈ (execClean env sums entries).1) :
    entry.obsolete env.all sums = false := by
  unfold execClean at deleted left
  dsimp only at deleted left
  rw [dryRun, confirms] at deleted left
  split at deleted
  · next nothing =>
      rw [if_pos nothing] at left
      rw [List.isEmpty_iff, List.filter_eq_nil_iff] at nothing
      exact Bool.eq_false_iff.mpr (nothing entry left)
  · next something =>
      rw [if_neg something] at left
      rw [if_neg Bool.false_ne_true, if_pos rfl] at deleted left
      obtain ⟨member, stays⟩ := List.mem_filter.mp left
      by_contra obsolete
      rw [Bool.not_eq_false] at obsolete
      have unlinked := List.all_eq_true.mp deleted entry (List.mem_filter.mpr ⟨member, obsolete⟩)
      rw [obsolete, unlinked] at stays
      cases stays

theorem execClean_sublist : (execClean env sums entries).1.Sublist entries := by
  unfold execClean
  dsimp only
  split
  · exact .refl _
  split
  · exact .refl _
  split
  · exact List.filter_sublist
  · exact .refl _

end Clean

/-- `pkg clean` on any cache spares the files of the packages in the catalogues and the links to
them, under whatever name they have been fetched; and each file that it leaves where it has been
let to delete and exits with `EX_OK` carries the hash of such a package. -/
theorem execClean_spares (env : CleanEnv) (packages : List CacheEnv)
    (recognised : ∀ p ∈ packages, p.Recognised) (entries : List CachedEntry) :
    let left := execClean env (packages.map CacheEnv.sum) entries
    left.1.Sublist entries ∧
      (env.all = false → ∀ p ∈ packages, ∀ cache, ∀ entry ∈ entries,
        (entry.kind = .regular ∧ entry.path = p.getCachedName cache ∨
          entry.kind = .link (some (lastComponent (p.getCachedName cache)))) →
        entry ∈ left.1) ∧
      (left.2 = true → env.dryRun = false → env.confirms = true →
        ∀ entry ∈ left.1, entry.kind = .regular → env.all = false ∧
          ∃ p ∈ packages, NamesSum (lastComponent entry.path) (p.sum.take pkgFileCksumChars)) := by
  refine ⟨execClean_sublist, ?_, ?_⟩
  · intro someFiles p member cache entry listed isCached
    have known : knownSum (packages.map CacheEnv.sum) (lastComponent (p.getCachedName cache)) =
        true := by
      refine knownSum_iff.mpr ⟨p.sum, List.mem_map_of_mem member, ?_⟩
      exact CacheEnv.getCachedName_namesSum (recognised p member) cache
    refine execClean_kept listed ?_
    unfold CachedEntry.obsolete
    rcases isCached with ⟨regular, path⟩ | link
    · rw [regular, path, someFiles]
      simp [known]
    · rw [link, someFiles]
      simp [known]
  · intro deleted dryRun confirms entry left regular
    have kept := execClean_left deleted dryRun confirms left
    unfold CachedEntry.obsolete at kept
    rw [regular] at kept
    obtain ⟨someFiles, notUnknown⟩ := Bool.or_eq_false_iff.mp kept
    obtain ⟨sum, listed, named⟩ := knownSum_iff.mp (by simpa using notUnknown)
    obtain ⟨p, member, rfl⟩ := List.mem_map.mp listed
    exact ⟨someFiles, p, member, named⟩

/-! ## A cache with two files -/

def cachedTool : CacheEnv where
  name := "tool".toList
  version := "1.0".toList
  sum := "0123456789abcdef".toList
  pkgsize := 6
  repopath := some "All/tool-1.0.txz".toList
  packagesite := none
  mirror := false
  destdir := none
  cachedirConf := "/var/cache/pkg".toList
  mkdirs _ := .ok
  sha256File _ := none
  symlinks := true
  renames := true

theorem cachedTool_recognised : cachedTool.Recognised where
  digits := by decide
  long := by decide
  component := by decide
  ext ext isExt := by
    have same : cachedTool.repopath.bind (strrchr '.') = some ".txz".toList := by decide
    rw [same] at isExt
    cases isExt
    decide
  fits := by decide

/-- The file of an older version goes, that of the version in the catalogue stays. -/
theorem cachedTool_spared :
    ∃ entries, entries.length = 2 ∧
      (execClean {} [cachedTool.sum] entries).1.Sublist entries ∧
      ⟨cachedTool.getCachedName fun _ => none, .regular⟩ ∈
        (execClean {} [cachedTool.sum] entries).1 := by
  have spares := execClean_spares {} [cachedTool]
    (fun p member => by rw [List.mem_singleton.mp member]; exact cachedTool_recognised)
    [⟨cachedTool.getCachedName fun _ => none, .regular⟩,
      ⟨"/var/cache/pkg/tool-0.9-fedcba9876.txz".toList, .regular⟩]
  exact ⟨_, rfl, spares.1, spares.2.1 rfl cachedTool (List.mem_singleton_self _)
    (fun _ => none) _ List.mem_cons_self (Or.inl ⟨rfl, rfl⟩)⟩

end Pkgng
