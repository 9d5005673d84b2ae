import Pkgng.Cudf.WellFormed

/-!
# Underscores in a CUDF document

`cudf_print_package_name` writes an underscore as an at sign, and `cudf_strdup` reads every at
sign as an underscore and leaves white space out.  A uid is read back where it has neither.
-/

set_option autoImplicit false

namespace Pkgng

open Lib

/-! ## The loops -/

/-- The loop of `cudf_print_package_name`; `run` is what lies between `c` and `p`. -/
def cudfPrintPackageName (run : List Char) : List Char → List Char
  | [] => run
  | p :: rest =>
      if p = '_' then run ++ '@' :: cudfPrintPackageName [] rest
      else cudfPrintPackageName (run ++ [p]) rest

/-- The second loop of `cudf_strdup`. -/
def cudfStrdupLoop : List Char → List Char
  | [] => []
  | s :: rest =>
      if isspace s then cudfStrdupLoop rest
      else (if s = '@' then '_' else s) :: cudfStrdupLoop rest

theorem cudfPrintPackageName_eq (name : String) :
    cudfPrintPackageName [] name.toList = cudfPackageName name := by
  have printed (run text : List Char) : cudfPrintPackageName run text =
      run ++ text.map fun c => if c = '_' then '@' else c := by
    induction text generalizing run with
    | nil => rw [cudfPrintPackageName, List.map_nil, List.append_nil]
    | cons p rest ih =>
        rw [cudfPrintPackageName, List.map_cons]
        split
        · rw [ih, List.nil_append]
        · rw [ih, List.append_assoc, List.singleton_append]
  exact printed [] name.toList

theorem cudfStrdupLoop_eq (s : List Char) : cudfStrdupLoop (s.dropWhile isspace) = cudfStrdup s := by
  have copied (text : List Char) : cudfStrdupLoop text = cudfStrdup text := by
    induction text with
    | nil => rfl
    | cons c rest ih =>
        rw [cudfStrdupLoop, ih]
        cases blank : isspace c <;> simp [cudfStrdup, blank]
  have skipped (text : List Char) : cudfStrdup (text.dropWhile isspace) = cudfStrdup text := by
    induction text with
    | nil => rfl
    | cons c rest ih =>
        cases blank : isspace c with
        | false => rw [List.dropWhile_cons_of_neg (by rw [blank]; exact Bool.false_ne_true)]
        | true =>
            rw [List.dropWhile_cons_of_pos blank, ih]
            simp [cudfStrdup, blank]
  rw [copied, skipped]

/-! ## One uid -/

/-- The characters that a name can have so that it is read back. -/
def Escapable (uid : Uid) : Prop := ∀ c ∈ uid.toList, c ≠ '@' ∧ isspace c = false

theorem cudfStrdup_escaped (text : List Char) :
    cudfStrdup (text.map fun c => if c = '_' then '@' else c) =
      (text.filter fun c => !isspace c).map fun c => if c = '@' then '_' else c := by
  induction text with
  | nil => rfl
  | cons c rest ih =>
      unfold cudfStrdup at ih ⊢
      rw [List.map_cons]
      by_cases underscore : c = '_'
      · rw [underscore, if_pos rfl, List.filter_cons_of_pos (by decide),
          List.filter_cons_of_pos (by decide), List.map_cons, List.map_cons, ih]
        rfl
      · rw [if_neg underscore]
        cases blank : isspace c <;> simp [blank, ih]

/-- A name is read back as its uid exactly if it has no at sign and no white space. -/
theorem cudfStrdup_packageName_iff (uid : Uid) :
    cudfStrdup (cudfPackageName uid) = uid.toList ↔ Escapable uid := by
  unfold cudfPackageName Escapable
  rw [cudfStrdup_escaped]
  induction uid.toList with
  | nil => exact iff_of_true rfl fun _ none => absurd none List.not_mem_nil
  | cons c rest ih =>
      rw [List.forall_mem_cons, ← ih]
      cases blank : isspace c with
      | true =>
          rw [List.filter_cons_of_neg (by rw [blank]; decide)]
          refine iff_of_false (fun same => ?_) (fun both => by cases both.1.2)
          have lengths := congrArg List.length same
          have filtered := List.length_filter_le (fun c => !isspace c) rest
          rw [List.length_map, List.length_cons] at lengths
          omega
      | false =>
          rw [List.filter_cons_of_pos (by rw [blank]; rfl), List.map_cons, List.cons_eq_cons]
          refine and_congr_left fun _ => ?_
          by_cases atSign : c = '@'
          · rw [atSign, if_pos rfl]
            exact iff_of_false (by decide) fun both => both.1 rfl
          · rw [if_neg atSign]
            exact iff_of_true rfl ⟨atSign, rfl⟩

/-! ## The uids of a document -/

/-- The uids that the stanzas print: those of their packages and of the conflicts of these. -/
def CudfDocument.uids (doc : CudfDocument) (u : JobsUniverse) : List Uid :=
  doc.stanzas.flatMap fun stanza =>
    (u.pkg stanza.item).uid :: (u.pkg stanza.item).conflicts.map Conflict.uniqueid

/-- Every uid is read back from its name, and no two have one name. -/
structure EscapesReversibly (u : JobsUniverse) (doc : CudfDocument) : Prop where
  readBack : ∀ uid ∈ doc.uids u, cudfStrdup (cudfPackageName uid) = uid.toList
  apart : ∀ uid ∈ doc.uids u, ∀ other ∈ doc.uids u, uid ≠ other →
    cudfPackageName uid ≠ cudfPackageName other

section Document

variable {u : JobsUniverse} {dropped : Dropped} {type : JobsType} {add delete : CudfRequests}

/-- The names of the package and of its conflicts are printed. -/
def PrintsUids (u : JobsUniverse) (stanza : EmittedStanza) : Prop :=
  ⟨"package", [.entry (cudfPackageName (u.pkg stanza.item).uid), .newline]⟩ ∈
      stanza.properties ∧
    ∀ conflict ∈ (u.pkg stanza.item).conflicts, ∃ property ∈ stanza.properties,
      property.key = "conflicts" ∧ cudfPackageName conflict.uniqueid ∈ property.names

theorem cudfEmitPkg_printsUids (item : Addr) (version : Nat) (chain : List Addr) :
    PrintsUids u ⟨item, cudfEmitPkg u dropped item version chain⟩ := by
  refine ⟨by simp [cudfEmitPkg], fun conflict isConflict => ?_⟩
  have printed : hasConflicts u dropped item chain = true := by
    cases conflicts : (u.pkg item).conflicts with
    | nil =>
        rw [conflicts] at isConflict
        cases isConflict
    | cons first rest => simp [hasConflicts, conflicts]
  refine ⟨_, (mem_cudfEmitPkg (show "conflicts" ∈ CudfProperty.listKeys by decide)).mpr
    (.inr ⟨printed, rfl⟩), rfl, ?_⟩
  rw [CudfProperty.names, printElements_names, conflictElements, List.map_append,
    tableElements_fst]
  exact List.mem_append_left _ (List.mem_map_of_mem isConflict)

theorem stanzas_printUids : ∀ stanza ∈ (pkgJobsCudfEmitFile u dropped type add delete).stanzas,
    PrintsUids u stanza :=
  (@forall_mem_stanzas u dropped type add delete (PrintsUids u) (fun _ _ => True)
    fun sorted item version =>
      iff_true_intro (cudfEmitPkg_printsUids item version sorted.1)).mpr
    fun _ _ _ _ _ => trivial

/-- Names are read back and differ exactly if no uid of the document has an at sign or white
space in it. -/
theorem escapesReversibly_iff (u : JobsUniverse) (dropped : Dropped) (type : JobsType)
    (add delete : CudfRequests) :
    EscapesReversibly u (pkgJobsCudfEmitFile u dropped type add delete) ↔
      ∀ uid ∈ (pkgJobsCudfEmitFile u dropped type add delete).uids u, Escapable uid := by
  constructor
  · intro reversible uid member
    exact (cudfStrdup_packageName_iff uid).mp (reversible.readBack uid member)
  · intro escapable
    have readBack : ∀ uid ∈ (pkgJobsCudfEmitFile u dropped type add delete).uids u,
        cudfStrdup (cudfPackageName uid) = uid.toList :=
      fun uid member => (cudfStrdup_packageName_iff uid).mpr (escapable uid member)
    refine ⟨readBack, fun uid member other inDocument differ same => differ ?_⟩
    have text := readBack uid member
    rw [same, readBack other inDocument] at text
    exact String.toList_inj.mp text.symm

end Document

/-- Two packages whose names differ in an underscore and an at sign. -/
def underscoreAndAt : JobsUniverse :=
  JobsUniverse.ofPackages Pkg.digest
    [{ type := .remote, uid := "py_foo~devel/foo", digest := some "d1" },
     { type := .remote, uid := "py@foo~devel/foo", digest := some "d2" }]

/-- Both are printed as `py@foo~devel/foo`, which is read as the first. -/
theorem underscoreAndAt_not_escapesReversibly :
    ¬EscapesReversibly underscoreAndAt (pkgJobsCudfEmitFile underscoreAndAt (fun _ => false)
      .install ⟨[], fun _ => false⟩ ⟨[], fun _ => false⟩) := by
  intro reversible
  exact reversible.apart "py_foo~devel/foo" (by decide +kernel) "py@foo~devel/foo"
    (by decide +kernel) (by decide) (by decide)

end Pkgng
