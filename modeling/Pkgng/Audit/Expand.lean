import Pkgng.Audit.Vulnxml

/-!
# One entry for each vulnerable name

`pkg_audit_expand_entry` puts an entry on the list for each name of each package of a
vulnerability.  Packages are prepended as they are read, so the first one of the list is the last
one of the document; if that one has no name the vulnerability is dropped with all the others.
-/

set_option autoImplicit false

namespace Pkgng

namespace AuditEntry

/-- A package of the vulnerability with one of its names. -/
def namePairs (entry : AuditEntry) : List (AuditPackage × Option AuditText) :=
  entry.packages.flatMap fun pcur => pcur.names.map fun ncur => (pcur, ncur)

/-- The entry for a name of a package. -/
def expanded (entry : AuditEntry) (pair : AuditPackage × Option AuditText) : AuditEntry where
  pkgname := pair.2
  ref := true
  cve := entry.cve
  desc := entry.desc
  versions := pair.1.versions
  url := entry.url
  id := entry.id

end AuditEntry

/-- The list gets one entry for each pair, and besides at most the vulnerability itself. -/
def ExpandsFully (entry : AuditEntry) (head : List AuditEntry) : Prop :=
  ∃ added, pkgAuditExpandEntry entry head = added ++ head ∧
    (added.Perm (entry.namePairs.map entry.expanded) ∨
      added.Perm (entry :: entry.namePairs.map entry.expanded))

theorem namePairs_eq_nil_iff {entry : AuditEntry} :
    entry.namePairs = [] ↔ ∀ pcur ∈ entry.packages, pcur.names = [] := by
  rw [AuditEntry.namePairs, List.flatMap_eq_nil_iff]
  exact forall₂_congr fun pcur _ => List.map_eq_nil_iff

/-- The loops put the entries of the pairs in front, the last one first. -/
theorem foldl_names {entry : AuditEntry} (packages : List AuditPackage) (head : List AuditEntry) :
    packages.foldl (fun head pcur => pcur.names.foldl
        (fun head ncur => entry.expanded (pcur, ncur) :: head) head) head =
      ((packages.flatMap fun pcur => pcur.names.map fun ncur => (pcur, ncur)).map
        entry.expanded).reverse ++ head := by
  have inner (pcur : AuditPackage) (names : List (Option AuditText)) (head : List AuditEntry) :
      names.foldl (fun head ncur => entry.expanded (pcur, ncur) :: head) head =
        ((names.map fun ncur => (pcur, ncur)).map entry.expanded).reverse ++ head := by
    induction names generalizing head with
    | nil => rfl
    | cons ncur names ih =>
        rw [List.foldl_cons, ih, List.map_cons, List.map_cons, List.reverse_cons,
          List.append_assoc]
        rfl
  induction packages generalizing head with
  | nil => rfl
  | cons pcur packages ih =>
      rw [List.foldl_cons, inner, ih, List.flatMap_cons, List.map_append, List.reverse_append,
        List.append_assoc]

theorem pkgAuditExpandEntry_eq (entry : AuditEntry) (head : List AuditEntry) :
    pkgAuditExpandEntry entry head =
      if ∃ first ∈ entry.packages.head?, first.names ≠ [] then
        entry :: (entry.namePairs.map entry.expanded).reverse ++ head
      else head := by
  unfold pkgAuditExpandEntry
  cases packages : entry.packages with
  | nil => rw [if_neg (by simp)]
  | cons first rest =>
      dsimp only
      by_cases nameless : first.names = []
      · rw [if_pos nameless, if_neg (by simpa using nameless)]
      · rw [if_neg nameless, if_pos (by simpa using nameless), ← packages,
          List.cons_append]
        exact congrArg (entry :: ·) (foldl_names entry.packages head)

/-- No pair is lost exactly if the package read last has a name, or none has. -/
theorem expandsFully_iff (entry : AuditEntry) (head : List AuditEntry) :
    ExpandsFully entry head ↔
      (∃ first ∈ entry.packages.head?, first.names ≠ []) ∨
        ∀ pcur ∈ entry.packages, pcur.names = [] := by
  rw [← namePairs_eq_nil_iff]
  unfold ExpandsFully
  rw [pkgAuditExpandEntry_eq]
  split
  · next named =>
      refine iff_of_true ⟨_, rfl, .inr ?_⟩ (.inl named)
      exact (List.reverse_perm _).cons entry
  · next nameless =>
      rw [or_iff_right nameless]
      constructor
      · rintro ⟨added, isHead, pairs | withEntry⟩
        · rw [List.self_eq_append_left.mp isHead] at pairs
          exact List.map_eq_nil_iff.mp pairs.nil_eq.symm
        · rw [List.self_eq_append_left.mp isHead] at withEntry
          exact absurd withEntry.nil_eq.symm (List.cons_ne_nil _ _)
      · intro none
        exact ⟨[], rfl, .inl (by rw [none]; exact .refl _)⟩

/-- A vulnerability of `vim`, with a second package that has no name, up to its last line. -/
def namelessLast : VulnxmlUserdata :=
  [.startElement "vuln" [], .startElement "package" [], .startElement "name" [],
    .data "vim".toList [], .endElement "name", .endElement "package",
    .startElement "package" [], .endElement "package"].foldl handleWhole {}

/-- The entry for `vim` is not put on the list. -/
theorem namelessLast_not_expandsFully :
    ¬ExpandsFully namelessLast.curEntry namelessLast.entries := by
  have dropped : pkgAuditExpandEntry namelessLast.curEntry namelessLast.entries =
      namelessLast.entries := by decide +kernel
  have pairs : namelessLast.curEntry.namePairs.length = 1 := by decide +kernel
  rintro ⟨added, isHead, expanded | withEntry⟩
  · rw [dropped, List.self_eq_append_left] at isHead
    have lengths := expanded.length_eq
    rw [isHead, List.length_map, pairs] at lengths
    cases lengths
  · rw [dropped, List.self_eq_append_left] at isHead
    have lengths := withEntry.length_eq
    rw [isHead] at lengths
    cases lengths

end Pkgng
