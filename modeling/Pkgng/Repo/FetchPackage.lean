import Pkgng.Lib.CStrings
import Pkgng.Package

/-!
# Fetched packages

`pkg_repo_binary_try_fetch` with the names of the cached files.  The cache maps names to the
contents they lead to; the names are cut off by their buffers.
-/

set_option autoImplicit false

namespace Pkgng

open Lib

abbrev Path := List Char

abbrev Content := List UInt8

abbrev Cache := Path → Option Content

/-- Code and content of each download, by its number and its url. -/
abbrev Downloads := Nat → List Char → Epkg × Content

/-- What a buffer of `MAXPATHLEN` keeps of a text. -/
def cutPath (text : List Char) : Path := text.take (maxPathLen - 1)

def dirname (path : Path) : Path :=
  if path = [] then ['.']
  else
    match path.reverse.dropWhile (· = '/') with
    | [] => ['/']
    | base =>
        match base.dropWhile (· ≠ '/') with
        | [] => ['.']
        | dir =>
            match dir.dropWhile (· = '/') with
            | [] => ['/']
            | dir => dir.reverse

/-- The text behind the last slash. -/
def lastComponent (path : Path) : Path :=
  match strrchr '/' path with
  | some tail => tail.drop 1
  | none => path

namespace Cache

def set (cache : Cache) (path : Path) (content : Option Content) : Cache :=
  fun other => if other = path then content else cache other

def unlink (cache : Cache) (path : Path) : Cache := cache.set path none

/-- `symlink`: the link leads to the file of the given name in its own directory, and nowhere if
that is the link itself. -/
def placeLink (cache : Cache) (target link : Path) : Cache :=
  let file := dirname link ++ '/' :: target
  cache.set link (if file = link then none else cache file)

/-- `rename` of such a link. -/
def renameLink (cache : Cache) (target source dest : Path) : Cache :=
  if source = dest then cache else (cache.unlink source).placeLink target dest

@[simp] theorem set_same (cache : Cache) (path : Path) (content : Option Content) :
    cache.set path content path = content := if_pos rfl

theorem set_other (cache : Cache) {path other : Path} (content : Option Content)
    (ne : other ≠ path) : cache.set path content other = cache other := if_neg ne

theorem placeLink_empty {cache : Cache} (empty : ∀ path, cache path = none) (target link : Path)
    (path : Path) : cache.placeLink target link path = none := by
  rw [placeLink, set]
  split
  · split
    · rfl
    · exact empty _
  · exact empty path

end Cache

/-- A catalogue entry with its repository, the configuration, and what the system answers. -/
structure CacheEnv where
  name : List Char
  version : List Char
  sum : List Char
  pkgsize : Int
  repopath : Option (List Char)
  /-- `pkg_repo_url`. -/
  packagesite : Option (List Char)
  mirror : Bool
  destdir : Option Path
  /-- `PKG_CACHEDIR`. -/
  cachedirConf : Path
  mkdirs : Path → Epkg
  /-- `sha256_file`, none where the file cannot be read. -/
  sha256File : Content → Option (List Char)
  /-- Whether `symlink` and `rename` succeed. -/
  symlinks : Bool
  renames : Bool

structure FetchState where
  cache : Cache
  downloads : Nat

/-- How a call ends, with the name of the file that it was about. -/
structure FetchResult where
  code : Epkg
  dest : Path
  state : FetchState

namespace CacheEnv

variable (env : CacheEnv)

def repopathText : List Char := env.repopath.getD "(null)".toList

/-- `%S/%n-%v-%z`: of the checksum ten characters. -/
def stem : List Char :=
  env.cachedirConf ++ '/' :: env.name ++ '-' :: env.version ++ '-' :: env.sum.take 10

/-- `pkg_repo_binary_get_cached_name`; a file under the name without extension goes first. -/
def getCachedName (cache : Cache) : Path :=
  match env.repopath.bind (strrchr '.') with
  | none => cutPath env.stem
  | some ext =>
      if (cache (cutPath env.stem)).isSome then cutPath env.stem
      else cutPath (env.stem ++ ext)

def destination (cache : Cache) : Path :=
  if env.mirror then cutPath (env.destdir.getD env.cachedirConf ++ '/' :: env.repopathText)
  else env.getCachedName cache

/-- The link from the full name of the package. -/
def linkDest (fname dir : Path) : Path :=
  cutPath (dir ++ '/' :: env.name ++ '-' :: env.version ++ (strrchr '.' fname).getD [])

def linkDestTmp (fname dir : Path) : Path := cutPath (env.linkDest fname dir ++ ".new".toList)

/-- `pkg_repo_binary_create_symlink`. -/
def createSymlink (fname dir : Path) (cache : Cache) : Cache :=
  let cache := cache.unlink (env.linkDestTmp fname dir)
  if env.symlinks = false then cache
  else
    let cache := cache.placeLink (lastComponent fname) (env.linkDestTmp fname dir)
    if env.renames = false then cache.unlink (env.linkDestTmp fname dir)
    else
      cache.renameLink (lastComponent fname) (env.linkDestTmp fname dir) (env.linkDest fname dir)

def url (site : List Char) : List Char :=
  cutPath (site ++ (if site.getLast? = some '/' then [] else ['/']) ++ env.repopathText)

/-- The repository is read in place. -/
def isFileUrl (site : List Char) : Bool := strncaseeq site "file://".toList 7

/-- `pkg_fetch_file`: a file that was not fetched completely is removed. -/
def pkgFetchFile (download : Downloads) (url dest : Path) (s : FetchState) : Epkg × FetchState :=
  let (code, content) := download s.downloads url
  (code, ⟨s.cache.set dest (if code = .ok then some content else none), s.downloads + 1⟩)

def cleanup (code : Epkg) (dest : Path) (path : Option Path) (s : FetchState) : FetchResult :=
  if code ≠ .ok then ⟨code, dest, { s with cache := s.cache.unlink dest }⟩
  else
    match path with
    | some dir =>
        if env.mirror then ⟨code, dest, s⟩
        else ⟨code, dest, { s with cache := env.createSymlink dest dir s.cache }⟩
    | none => ⟨code, dest, s⟩

/-- The part in front of `checksum`: either the call is over, or the state, and the directory if
the file was downloaded. -/
def obtain (download : Downloads) (dest : Path) (s : FetchState) :
    Except FetchResult (FetchState × Option Path) :=
  if (s.cache dest).isSome then .ok (s, none)
  else
    let path := dirname dest
    if env.mkdirs path ≠ .ok then .error (env.cleanup (env.mkdirs path) dest (some path) s)
    else
      match env.packagesite with
      | none => .error (env.cleanup .finished dest (some path) s)
      | some site =>
          if site = [] then .error (env.cleanup .finished dest (some path) s)
          else if env.mirror = false && isFileUrl site then .error ⟨.ok, dest, s⟩
          else
            let (code, fetched) := pkgFetchFile download (env.url site) dest s
            if code ≠ .ok then .error (env.cleanup code dest (some path) fetched)
            else .ok (fetched, some path)

/-- `pkg_repo_binary_try_fetch`. -/
def tryFetch (download : Downloads) (alreadyTried : Bool) (s : FetchState) : FetchResult :=
  let dest := env.destination s.cache
  match env.obtain download dest s with
  | .error result => result
  | .ok (s, path) =>
      if (s.cache dest).map (fun content => (content.length : Int)) ≠ some env.pkgsize then
        if alreadyTried then env.cleanup .fatal dest path s
        else tryFetch download true { s with cache := s.cache.unlink dest }
      else
        match (s.cache dest).bind env.sha256File with
        | none => env.cleanup .fatal dest path s
        | some cksum =>
            if cksum ≠ env.sum then
              if alreadyTried || path.isSome then env.cleanup .fatal dest path s
              else tryFetch download true { s with cache := s.cache.unlink dest }
            else env.cleanup .ok dest path s
termination_by if alreadyTried then 0 else 1
decreasing_by all_goals simp_all

/-- Making the link removes the downloaded file: the link, or its temporary name, is cut off so
that it is the name of the file. -/
def Clobbers (dest : Path) : Prop :=
  env.linkDestTmp dest (dirname dest) = dest ∨
    (env.linkDest dest (dirname dest) = dest ∧ env.symlinks = true ∧ env.renames = true)

/-- The recorded size and checksum. -/
structure Intact (content : Content) : Prop where
  size : (content.length : Int) = env.pkgsize
  sum : env.sha256File content = some env.sum

/-- What a call is to ensure. -/
structure Settled (result : FetchResult) : Prop where
  intact : result.code = .ok → ∃ content, result.state.cache result.dest = some content ∧
    env.Intact content
  removed : result.code ≠ .ok → result.state.cache result.dest = none

/-- At most two downloads, and the file is intact or removed. -/
def FetchesIntact : Prop :=
  ∀ (download : Downloads) (alreadyTried : Bool) (cache : Cache),
    (env.tryFetch download alreadyTried ⟨cache, 0⟩).state.downloads ≤ 2 ∧
      env.Settled (env.tryFetch download alreadyTried ⟨cache, 0⟩)

/-- The name of the file where the cache is empty. -/
def freshDest : Path := env.destination fun _ => none

variable {env}

/-- A name that is not taken is the one of the current scheme. -/
theorem destination_of_absent {cache : Cache} (absent : cache (env.destination cache) = none) :
    env.destination cache = env.freshDest := by
  unfold freshDest destination at *
  split
  · rfl
  · next fetched =>
      rw [if_neg fetched] at absent
      unfold getCachedName at *
      cases ext : env.repopath.bind (strrchr '.') with
      | none => rfl
      | some ext =>
          simp only [ext] at absent
          split at absent
          · next isThere =>
              rw [absent] at isThere
              cases isThere
          · next notThere =>
              dsimp only
              rw [if_neg notThere]
              rfl

theorem cleanup_failed {code : Epkg} (failed : code ≠ .ok) (dest : Path) (path : Option Path)
    (s : FetchState) :
    env.cleanup code dest path s = ⟨code, dest, { s with cache := s.cache.unlink dest }⟩ :=
  if_pos failed

theorem createSymlink_keeps {dest : Path} (keeps : ¬env.Clobbers dest) (cache : Cache) :
    env.createSymlink dest (dirname dest) cache dest = cache dest := by
  have tmpOther : dest ≠ env.linkDestTmp dest (dirname dest) :=
    fun same => keeps (.inl same.symm)
  unfold createSymlink
  dsimp only
  split
  · exact Cache.set_other _ _ tmpOther
  · next symlinks =>
      split
      · rw [Cache.unlink, Cache.set_other _ _ tmpOther, Cache.placeLink,
          Cache.set_other _ _ tmpOther]
        exact Cache.set_other _ _ tmpOther
      · next renames =>
          have destOther : dest ≠ env.linkDest dest (dirname dest) := fun same =>
            keeps (.inr ⟨same.symm, by simpa using symlinks, by simpa using renames⟩)
          rw [Cache.renameLink]
          split
          · rw [Cache.placeLink, Cache.set_other _ _ tmpOther]
            exact Cache.set_other _ _ tmpOther
          · rw [Cache.placeLink, Cache.set_other _ _ destOther, Cache.unlink,
              Cache.set_other _ _ tmpOther, Cache.placeLink, Cache.set_other _ _ tmpOther]
            exact Cache.set_other _ _ tmpOther

theorem Settled.of_failed {code : Epkg} (failed : code ≠ .ok) (dest : Path) (path : Option Path)
    (s : FetchState) : env.Settled (env.cleanup code dest path s) := by
  rw [cleanup_failed failed]
  exact ⟨fun ok => absurd ok failed, fun _ => Cache.set_same _ _ _⟩

/-- The call ends in front of the checksum only with an error. -/
theorem obtain_error {download : Downloads} {dest : Path} {s : FetchState} {result : FetchResult}
    (remote : ∀ site, env.packagesite = some site → isFileUrl site = false)
    (ends : env.obtain download dest s = .error result) :
    result.state.downloads ≤ s.downloads + 1 ∧ env.Settled result := by
  unfold obtain at ends
  split at ends
  · cases ends
  · dsimp only at ends
    split at ends
    · next failed =>
        cases ends
        exact ⟨by rw [cleanup_failed failed]; exact Nat.le_succ _, .of_failed failed _ _ _⟩
    · split at ends
      · cases ends
        exact ⟨Nat.le_succ _, .of_failed (by decide) _ _ _⟩
      · next site isSite =>
          rw [remote site isSite, Bool.and_false, if_neg Bool.false_ne_true] at ends
          split at ends
          · cases ends
            exact ⟨Nat.le_succ _, .of_failed (by decide) _ _ _⟩
          · split at ends
            · next failed =>
                cases ends
                exact ⟨by rw [cleanup_failed failed]; exact Nat.le_refl _, .of_failed failed _ _ _⟩
            · cases ends

/-- In front of the checksum the file was there, or it has been downloaded. -/
theorem obtain_ok {download : Downloads} {dest : Path} {s s' : FetchState} {path : Option Path}
    (goes : env.obtain download dest s = .ok (s', path)) :
    (path = none ∧ s' = s ∧ (s.cache dest).isSome = true) ∨
      (path = some (dirname dest) ∧ s.cache dest = none ∧ s'.downloads = s.downloads + 1 ∧
        (env.mkdirs (dirname dest) = .ok ∧
          ∃ site, env.packagesite = some site ∧ site ≠ [])) := by
  unfold obtain at goes
  split at goes
  · next isThere =>
      cases goes
      exact .inl ⟨rfl, rfl, isThere⟩
  · next notThere =>
      dsimp only at goes
      split at goes
      · cases goes
      · next made =>
          split at goes
          · cases goes
          · next site isSite =>
              split at goes
              · cases goes
              · next nonempty =>
                  split at goes
                  · cases goes
                  · split at goes
                    · cases goes
                    · cases goes
                      exact .inr ⟨rfl, by simpa using notThere, rfl, by simpa using made, site,
                        isSite, nonempty⟩

/-- A call that gets to the checksum has downloaded at most one file. -/
theorem downloads_of_obtain_ok {download : Downloads} {dest : Path} {s s' : FetchState}
    {path : Option Path} (goes : env.obtain download dest s = .ok (s', path)) :
    s'.downloads ≤ s.downloads + 1 := by
  rcases obtain_ok goes with ⟨_, rfl, _⟩ | ⟨_, _, downloads, _⟩
  · exact Nat.le_succ _
  · exact Nat.le_of_eq downloads

theorem cleanup_ok (dest : Path) (path : Option Path) (s : FetchState) :
    (env.cleanup .ok dest path s).code = .ok ∧ (env.cleanup .ok dest path s).dest = dest := by
  unfold cleanup
  rw [if_neg (fun failed => failed rfl)]
  split
  · split <;> exact ⟨rfl, rfl⟩
  · exact ⟨rfl, rfl⟩

theorem downloads_cleanup (code : Epkg) (dest : Path) (path : Option Path) (s : FetchState) :
    (env.cleanup code dest path s).state.downloads = s.downloads := by
  unfold cleanup
  split
  · rfl
  · split
    · split <;> rfl
    · rfl

variable (env) in
/-- The package can be downloaded, and the file is lost when the link to it is made. -/
structure LosesFile : Prop where
  fetched : env.mirror = false
  made : env.mkdirs (dirname env.freshDest) = .ok
  site : ∃ site, env.packagesite = some site ∧ site ≠ []
  content : ∃ content, env.Intact content
  clobbers : env.Clobbers env.freshDest

/-- A file that passes the checks stays, unless it is lost. -/
theorem settled_of_accepted {download : Downloads} {s s' : FetchState} {path : Option Path}
    (kept : ¬env.LosesFile)
    (goes : env.obtain download (env.destination s.cache) s = .ok (s', path))
    {content : Content} (isThere : s'.cache (env.destination s.cache) = some content)
    (intact : env.Intact content) :
    env.Settled (env.cleanup .ok (env.destination s.cache) path s') := by
  refine ⟨fun _ => ⟨content, ?_, intact⟩, fun failed => absurd (cleanup_ok _ _ _).1 failed⟩
  rw [(cleanup_ok _ _ _).2]
  unfold cleanup
  rw [if_neg (fun failed => failed rfl)]
  rcases obtain_ok goes with ⟨rfl, _, _⟩ | ⟨rfl, absent, _, made, site⟩
  · exact isThere
  · dsimp only
    split
    · exact isThere
    · next fetched =>
        have fresh := destination_of_absent absent
        rw [fresh] at made isThere ⊢
        have keeps : ¬env.Clobbers env.freshDest := fun clobbers =>
          kept ⟨by simpa using fetched, made, site, ⟨content, intact⟩, clobbers⟩
        exact (createSymlink_keeps keeps _).trans isThere

theorem tryFetch_settled {download : Downloads}
    (remote : ∀ site, env.packagesite = some site → isFileUrl site = false)
    (kept : ¬env.LosesFile) (alreadyTried : Bool) (s : FetchState) :
    (env.tryFetch download alreadyTried s).state.downloads ≤
        s.downloads + (if alreadyTried then 1 else 2) ∧
      env.Settled (env.tryFetch download alreadyTried s) := by
  have once (tried : Bool) {n m : Nat} (le : n ≤ m + 1) : n ≤ m + (if tried then 1 else 2) := by
    cases tried
    · exact Nat.le_succ_of_le le
    · exact le
  fun_induction tryFetch env download alreadyTried s with
  | case1 alreadyTried s dest result ends =>
      exact ⟨once alreadyTried (obtain_error remote ends).1, (obtain_error remote ends).2⟩
  | case2 s dest s' path goes wrongSize =>
      rw [downloads_cleanup]
      exact ⟨downloads_of_obtain_ok goes, .of_failed (by decide) _ _ _⟩
  | case3 alreadyTried s dest s' path goes wrongSize first ih =>
      rw [if_neg first]
      have downloads := downloads_of_obtain_ok goes
      exact ⟨ih.1.trans (Nat.succ_le_succ downloads), ih.2⟩
  | case4 alreadyTried s dest s' path goes rightSize unreadable =>
      rw [downloads_cleanup]
      exact ⟨once alreadyTried (downloads_of_obtain_ok goes), .of_failed (by decide) _ _ _⟩
  | case5 alreadyTried s dest s' path goes rightSize cksum isCksum wrongSum last =>
      rw [downloads_cleanup]
      exact ⟨once alreadyTried (downloads_of_obtain_ok goes), .of_failed (by decide) _ _ _⟩
  | case6 alreadyTried s dest s' path goes rightSize cksum isCksum wrongSum first ih =>
      have isFirst : ¬alreadyTried = true := fun tried => first (by rw [tried, Bool.true_or])
      rw [if_neg isFirst]
      have downloads := downloads_of_obtain_ok goes
      exact ⟨ih.1.trans (Nat.succ_le_succ downloads), ih.2⟩
  | case7 alreadyTried s dest s' path goes rightSize cksum isCksum rightSum =>
      rw [downloads_cleanup]
      refine ⟨once alreadyTried (downloads_of_obtain_ok goes), ?_⟩
      obtain ⟨content, isThere, isSum⟩ := Option.bind_eq_some_iff.mp isCksum
      rw [not_not, isThere, Option.map_some, Option.some.injEq] at rightSize
      refine settled_of_accepted kept goes isThere ⟨rightSize, ?_⟩
      rw [isSum, not_not.mp rightSum]

/-- In a cache with no other file the file is lost. -/
theorem createSymlink_loses {dest : Path} (clobbers : env.Clobbers dest) {cache : Cache}
    (alone : ∀ other, other ≠ dest → cache other = none) :
    env.createSymlink dest (dirname dest) cache dest = none := by
  unfold createSymlink
  dsimp only
  by_cases tmp : env.linkDestTmp dest (dirname dest) = dest
  · -- The file itself is unlinked, and nothing is left for a link to lead to.
    have empty : ∀ other, cache.unlink dest other = none := by
      intro other
      by_cases same : other = dest
      · rw [same]
        exact Cache.set_same _ _ _
      · rw [Cache.unlink, Cache.set_other _ _ same, alone other same]
    rw [tmp]
    split
    · exact empty dest
    · split
      · exact Cache.set_same _ _ _
      · have stillEmpty := Cache.placeLink_empty empty (lastComponent dest) dest
        rw [Cache.renameLink]
        split
        · exact stillEmpty dest
        · refine Cache.placeLink_empty (fun other => ?_) _ _ _
          rw [Cache.unlink, Cache.set]
          split
          · rfl
          · exact stillEmpty other
  · obtain ⟨same, symlinks, renames⟩ := clobbers.resolve_left tmp
    rw [symlinks, renames, same, if_neg Bool.noConfusion, if_neg Bool.noConfusion,
      Cache.renameLink, if_neg tmp, Cache.placeLink]
    rw [Cache.set_same]
    split
    · rfl
    · next file =>
        rw [Cache.unlink, Cache.set]
        split
        · rfl
        · next notTmp =>
            rw [Cache.placeLink, Cache.set_other _ _ notTmp, Cache.unlink,
              Cache.set_other _ _ notTmp]
            exact alone _ file

/-- An empty cache, and a download of the recorded content. -/
theorem tryFetch_empty (remote : ∀ site, env.packagesite = some site → isFileUrl site = false)
    (loses : env.LosesFile) {content : Content} (intact : env.Intact content) :
    env.tryFetch (fun _ _ => (.ok, content)) true ⟨fun _ => none, 0⟩ =
      env.cleanup .ok env.freshDest (some (dirname env.freshDest))
        ⟨Cache.set (fun _ => none) env.freshDest (some content), 1⟩ := by
  obtain ⟨site, isSite, nonempty⟩ := loses.site
  have goes : env.obtain (fun _ _ => (.ok, content)) env.freshDest ⟨fun _ => none, 0⟩ =
      .ok (⟨Cache.set (fun _ => none) env.freshDest (some content), 1⟩,
        some (dirname env.freshDest)) := by
    rw [obtain, if_neg (by exact Bool.false_ne_true)]
    dsimp only
    rw [loses.made, isSite]
    dsimp only
    rw [if_neg (fun failed => failed rfl), if_neg nonempty, remote site isSite, Bool.and_false,
      if_neg Bool.false_ne_true]
    rfl
  rw [tryFetch]
  dsimp only
  rw [show env.destination (fun _ => none) = env.freshDest from rfl, goes]
  simp only [Cache.set_same, Option.map_some, intact.size, Option.bind_some, intact.sum, ne_eq,
    not_true, if_false]

/-- For a package that is not read in place every run downloads at most twice and leaves the
intact file or none, exactly if the file is not lost after the download. -/
theorem fetchesIntact_iff (env : CacheEnv)
    (remote : ∀ site, env.packagesite = some site → isFileUrl site = false) :
    env.FetchesIntact ↔ ¬env.LosesFile := by
  constructor
  · intro fetches loses
    obtain ⟨content, intact⟩ := loses.content
    have run := (fetches (fun _ _ => (.ok, content)) true fun _ => none).2
    rw [tryFetch_empty remote loses intact] at run
    obtain ⟨kept, isThere, _⟩ := run.intact (cleanup_ok _ _ _).1
    rw [(cleanup_ok _ _ _).2, cleanup, if_neg (fun failed => failed rfl)] at isThere
    dsimp only at isThere
    rw [loses.fetched, if_neg Bool.false_ne_true] at isThere
    dsimp only at isThere
    rw [createSymlink_loses loses.clobbers fun other ne => Cache.set_other _ _ ne] at isThere
    cases isThere
  · intro kept download alreadyTried cache
    have settled := @tryFetch_settled env download remote kept alreadyTried ⟨cache, 0⟩
    refine ⟨settled.1.trans ?_, settled.2⟩
    dsimp only
    split <;> omega

end CacheEnv

/-- The package `n` of one byte, cached in the given directory. -/
def cachedIn (dir : Path) : CacheEnv where
  name := ['n']
  version := ['1']
  sum := ['a', 'b']
  pkgsize := 1
  repopath := some "n-1.txz".toList
  packagesite := some "http://x".toList
  mirror := false
  destdir := none
  cachedirConf := dir
  mkdirs _ := .ok
  sha256File _ := some ['a', 'b']
  symlinks := true
  renames := true

/-- In a short directory the file is kept. -/
theorem shortDir_fetchesIntact : (cachedIn "/c".toList).FetchesIntact := by
  refine (CacheEnv.fetchesIntact_iff _ ?_).mpr fun loses => ?_
  · rintro site ⟨⟩
    decide
  · rcases loses.clobbers with tmp | ⟨link, _⟩
    · exact absurd tmp (by decide)
    · exact absurd link (by decide)

/-- A directory of 1020 characters. -/
def longDir : Path := (List.replicate 102 "/dirofnine".toList).flatten

/-- Under a directory so long that only two characters of the name fit, the file is replaced by a
link to itself. -/
theorem longDir_not_fetchesIntact :
    ¬∀ env : CacheEnv,
      (∀ site, env.packagesite = some site → CacheEnv.isFileUrl site = false) →
        env.FetchesIntact := by
  intro all
  refine (CacheEnv.fetchesIntact_iff (cachedIn longDir) ?_).mp (all _ ?_)
    ⟨rfl, rfl, ⟨_, rfl, List.cons_ne_nil _ _⟩, ⟨[0], rfl, rfl⟩, .inl ?_⟩
  · rintro site ⟨⟩
    decide
  · rintro site ⟨⟩
    decide
  · decide +kernel

end Pkgng
