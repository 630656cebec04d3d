import FlowiVfs.ArchiveListing
import Mathlib.Data.List.Nodup
import Mathlib.Data.List.Perm.Basic

/-!
# What an archive says its directories hold

`vfs_archive_list_children` makes up the children of a directory from the paths of the
cached entries. It names each child once, and finds all of them, in whatever order the
entries come. Whether a child is a directory is taken from the first entry at or below it,
so this part depends on the order as soon as a plain file and a directory share a path.
-/
namespace FlowiVfs.Archive

open FlowiVfs.Tree

/-- A name that stands between slashes. -/
def IsComponent (name : FlString) : Prop := name ≠ [] ∧ '/' ∉ name

/-- The entry lies strictly below the path, or is flagged as a directory there. -/
def ShowsDirectory (path : FlString) (cached : VfsCachedEntry) : Prop :=
  path ++ ['/'] <+: cached.path ∨ cached.path = path ∧ cached.isDirectory

/-- The path as the listing takes it. -/
def listedPath (path : FlString) : FlString := if path = ".".toList then [] else path

/-- The listing of the path contains a child that is reported so. -/
def Emits (entries : List VfsCachedEntry) (path name : FlString) (isDirectory : Bool) : Prop :=
  ∃ e ∈ children entries path, e.name = name ∧ e.isDirectory = isDirectory

/-- What a listing of the path should be. -/
structure ChildrenRight (entries : List VfsCachedEntry) (path : FlString) : Prop where
  once : ((children entries path).map Entry.name).Nodup
  components : ∀ e ∈ children entries path, IsComponent e.name
  complete : ∀ name, IsComponent name → ((∃ e ∈ children entries path, e.name = name) ↔
    ∃ cached ∈ entries, AtOrBelow (join (listedPath path) name) cached)
  directories : ∀ e ∈ children entries path, (e.isDirectory = true ↔
    ∃ cached ∈ entries, ShowsDirectory (join (listedPath path) e.name) cached)
  orderless : ∀ others, entries.Perm others → ∀ name isDirectory,
    Emits others path name isDirectory ↔ Emits entries path name isDirectory
  dot : children entries ".".toList = children entries []

/-- No plain file has the path of a directory. -/
def Unambiguous (entries : List VfsCachedEntry) (path : FlString) : Prop :=
  ∀ name, IsComponent name → ∀ file ∈ entries, ∀ other ∈ entries,
    file.path = join (listedPath path) name → file.isDirectory = false →
      ¬ ShowsDirectory (join (listedPath path) name) other

section
variable {entries others : List VfsCachedEntry} {path name : FlString} {e : Entry}
variable {cached : VfsCachedEntry}

theorem children_dot : children entries ".".toList = children entries [] := rfl

theorem children_listedPath : children entries path = children entries (listedPath path) := by
  unfold listedPath
  split_ifs with dot
  · rw [dot, children_dot]
  · rfl

theorem listedPath_real (path : FlString) : listedPath path ≠ ".".toList := by
  unfold listedPath
  split_ifs with dot
  · decide
  · exact dot

/-- The names that a listing has seen are the names that it has given out. -/
theorem listChildrenLoop_nodup (entries : List VfsCachedEntry) (acc : List Entry)
    (nodup : (acc.map Entry.name).Nodup) :
    ((listChildrenLoop path (fun acc e => (true, acc ++ [e])) entries (acc.map Entry.name)
      acc).map Entry.name).Nodup := by
  induction entries generalizing acc with
  | nil => exact nodup
  | cons cached rest ih =>
      simp only [listChildrenLoop]
      cases immediateChild path cached with
      | none => exact ih acc nodup
      | some child =>
          by_cases seen : child.name ∈ acc.map Entry.name
          · simp only [if_pos seen]
            exact ih acc nodup
          · have grown : ((acc ++ [child]).map Entry.name).Nodup := by
              rw [List.map_append, List.nodup_append]
              refine ⟨nodup, List.nodup_singleton _, ?_⟩
              intro a ha b hb same
              rw [List.map_singleton, List.mem_singleton] at hb
              exact seen (hb ▸ same ▸ ha)
            have next := ih (acc ++ [child]) grown
            simp only [if_neg seen, if_true]
            simpa using next

theorem children_nodup : ((children entries path).map Entry.name).Nodup :=
  listChildrenLoop_nodup entries [] List.nodup_nil

theorem mem_listing : e ∈ children entries path ↔ IsComponent e.name ∧
    ∃ cached, firstAt entries (join (listedPath path) e.name) = some cached ∧
      e = cached.reported e.name (join (listedPath path) e.name) := by
  rw [children_listedPath, mem_children (listedPath_real path), IsComponent, and_assoc]

/-! ## What the first entry says -/

/-- An entry at or below a path either makes it a directory, or is a plain file there. -/
theorem opens_iff (h : AtOrBelow path cached) :
    cached.opens path = true ↔ ShowsDirectory path cached := by
  unfold VfsCachedEntry.opens ShowsDirectory
  rw [Bool.or_eq_true, decide_eq_true_eq]
  constructor
  · intro opens
    by_cases same : cached.path = path
    · exact .inr ⟨same, opens.resolve_left (absurd same)⟩
    · exact .inl (h.resolve_left same)
  · rintro (⟨tail, below⟩ | ⟨-, directory⟩)
    · left
      intro same
      have lengths := congrArg List.length below
      rw [same] at lengths
      simp at lengths
    · exact .inr directory

theorem plain_of_not_opens (h : cached.opens path = false) :
    cached.path = path ∧ cached.isDirectory = false := by
  unfold VfsCachedEntry.opens at h
  simpa using h

theorem listed_iff (component : IsComponent name) :
    (∃ e ∈ children entries path, e.name = name) ↔
      ∃ cached ∈ entries, AtOrBelow (join (listedPath path) name) cached := by
  constructor
  · rintro ⟨e, listed, rfl⟩
    obtain ⟨-, cached, first, -⟩ := mem_listing.mp listed
    exact ⟨cached, List.mem_of_find?_eq_some first, by simpa using List.find?_some first⟩
  · rintro ⟨cached, inside, lies⟩
    have found : (firstAt entries (join (listedPath path) name)).isSome :=
      List.find?_isSome.mpr ⟨cached, inside, decide_eq_true lies⟩
    obtain ⟨first, found⟩ := Option.isSome_iff_exists.mp found
    exact ⟨first.reported name (join (listedPath path) name),
      mem_listing.mpr ⟨component, first, found, rfl⟩, rfl⟩

theorem Unambiguous.perm (h : Unambiguous entries path) (same : entries.Perm others) :
    Unambiguous others path :=
  fun name component file hf other ho =>
    h name component file (same.mem_iff.mpr hf) other (same.mem_iff.mpr ho)

/-- Where no plain file has the path of a directory, any entry may decide. -/
theorem Unambiguous.directory (h : Unambiguous entries path) (listed : e ∈ children entries path) :
    e.isDirectory = true ↔
      ∃ cached ∈ entries, ShowsDirectory (join (listedPath path) e.name) cached := by
  obtain ⟨component, first, found, reported⟩ := mem_listing.mp listed
  have inside := List.mem_of_find?_eq_some found
  have lies : AtOrBelow (join (listedPath path) e.name) first := by
    simpa using List.find?_some found
  have flag : e.isDirectory = first.opens (join (listedPath path) e.name) :=
    congrArg Entry.isDirectory reported
  rw [flag]
  constructor
  · intro opens
    exact ⟨first, inside, (opens_iff lies).mp opens⟩
  · rintro ⟨cached, member, shows_⟩
    by_contra closed
    obtain ⟨same, plain⟩ := plain_of_not_opens (Bool.eq_false_iff.mpr closed)
    exact h e.name component first inside cached member same plain shows_

theorem Unambiguous.emits (h : Unambiguous entries path) {isDirectory : Bool} :
    Emits entries path name isDirectory ↔ IsComponent name ∧
      (∃ cached ∈ entries, AtOrBelow (join (listedPath path) name) cached) ∧
      (isDirectory = true ↔
        ∃ cached ∈ entries, ShowsDirectory (join (listedPath path) name) cached) := by
  constructor
  · rintro ⟨e, listed, rfl, rfl⟩
    have component := (mem_listing.mp listed).1
    exact ⟨component, (listed_iff component).mp ⟨e, listed, rfl⟩, h.directory listed⟩
  · rintro ⟨component, lies, flag⟩
    obtain ⟨e, listed, rfl⟩ := (listed_iff component).mpr lies
    refine ⟨e, listed, rfl, ?_⟩
    have reported := h.directory listed
    rw [← flag] at reported
    exact Bool.eq_iff_iff.mpr reported

/-- A plain file that comes first hides a directory at its path. -/
theorem emits_file (component : IsComponent name) (same : cached.path = join (listedPath path) name)
    (plain : cached.isDirectory = false) : Emits (cached :: others) path name false := by
  have first : firstAt (cached :: others) (join (listedPath path) name) = some cached :=
    List.find?_cons_of_pos (decide_eq_true (.inl same))
  refine ⟨cached.reported name (join (listedPath path) name),
    mem_listing.mpr ⟨component, cached, first, rfl⟩, rfl, ?_⟩
  show cached.opens (join (listedPath path) name) = false
  simp [VfsCachedEntry.opens, same, plain]

theorem ChildrenRight.unambiguous (right : ChildrenRight entries path) :
    Unambiguous entries path := by
  intro name component file hf other ho same plain shows_
  obtain ⟨front, back, rfl⟩ := List.append_of_mem hf
  obtain ⟨e, listed, rfl, flag⟩ :=
    (right.orderless _ List.perm_middle name false).mp (emits_file component same plain)
  have directory := (right.directories e listed).mpr ⟨other, ho, shows_⟩
  rw [flag] at directory
  cases directory

/-- For every list of entries and every path: no child of the path is both a plain file and
a directory among the entries. -/
theorem children_right_iff : ChildrenRight entries path ↔ Unambiguous entries path := by
  constructor
  · exact ChildrenRight.unambiguous
  · intro clear
    refine ⟨children_nodup, ?_, ?_, ?_, ?_, children_dot⟩
    · intro e listed
      exact (mem_listing.mp listed).1
    · intro name component
      exact listed_iff component
    · intro e listed
      exact clear.directory listed
    · intro others same name isDirectory
      rw [(clear.perm same).emits, clear.emits]
      simp only [same.mem_iff]

/-- An archive with a file `a` in front of a file `a/b`. -/
theorem file_hides_directory :
    ¬ ChildrenRight [⟨"a".toList, 1, false⟩, ⟨"a/b".toList, 2, false⟩] [] := by
  intro right
  refine right.unambiguous "a".toList ⟨by decide, by decide⟩ ⟨"a".toList, 1, false⟩ (by simp)
    ⟨"a/b".toList, 2, false⟩ (by simp) rfl rfl ?_
  exact .inl ⟨"b".toList, rfl⟩

end
end FlowiVfs.Archive
