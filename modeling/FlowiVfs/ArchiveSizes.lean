import FlowiVfs.ArchiveDrivers

/-!
# Listings and sizes of archives

A recursive listing goes through the cached entries, a size lookup through the entries as
the archive's reader reports them. They agree on a path when the entry that the lookup
finds is the one that the listing shows there.
-/
namespace FlowiVfs.Archive

open FlowiVfs.Tree

namespace OpenArchive

def cache : OpenArchive → List VfsCachedEntry
  | libarchive raw name entries => LibArchive.buildEntryCache (libarchiveHandle raw name entries)
  | lhasa memorySize _ headers => Lhasa.buildEntryCache (lhasaHandle memorySize headers)
  | unlzx entries => Unlzx.buildEntryCache (unlzxHandle entries)

/-- The size of the first entry whose name matches the path. -/
def matchSize (a : OpenArchive) (path : FlString) : Option ℤ :=
  if path = [] then none
  else match a with
    | libarchive raw _ entries =>
        (if raw then entries.head? else LibArchive.findArchiveEntry entries path).map
          fun e => (e.size : ℤ)
    | lhasa memorySize _ headers =>
        (Lhasa.findLhaEntry (lhasaHandle memorySize headers) path).map fun h => h.length.toInt
    | unlzx entries => (Unlzx.unlzxFindEntry entries path).map fun e => (e.unpackSize.toNat : ℤ)

/-- A recursive listing and `get_size` on the archive's handle agree on a path. -/
structure Agrees (a : OpenArchive) (path : FlString) : Prop where
  files : ∀ size, ReachesFile a.list path size ↔ (a.getSize path).size = size ∧ 0 ≤ size
  others : (∃ e, Reaches a.list path e ∧ e.isDirectory) ∨ (¬ ∃ e, Reaches a.list path e) →
    (a.getSize path).size = -1
  /-- Every entry that is not a directory is reachable. -/
  reachable : path ∈ a.files → ∃ size, ReachesFile a.list path size

/-- The first entry that matches the path is the first one at or below it, and a file. -/
structure Consistent (a : OpenArchive) (path : FlString) : Prop where
  shown : ∀ size ∈ a.matchSize path, 0 ≤ size → IsFirstFile a.cache path size
  /-- A size that does not fit is not shown. -/
  hidden : ∀ size ∈ a.matchSize path, size < 0 → ∀ s, ¬ IsFirstFile a.cache path s
  /-- No entry is too long for the buffer, or without a name. -/
  matched : path ∈ a.files → ∃ size ∈ a.matchSize path, 0 ≤ size

theorem list_eq (a : OpenArchive) : a.list = children a.cache := by
  cases a <;> rfl

theorem getSize_eq (a : OpenArchive) (path : FlString) :
    (a.getSize path).size =
      match a.matchSize path with
      | none => -1
      | some size => if size < 0 then -1 else size := by
  by_cases empty : path = []
  · subst empty
    cases a <;> rfl
  · have target : resolveTargetPath [] path = path :=
      if_pos (List.length_pos_iff.mpr empty)
    have long : path.length ≠ 0 := by simpa using empty
    cases a with
    | libarchive raw name entries =>
        simp only [getSize, matchSize, if_neg empty, LibArchive.getSize, libarchiveHandle,
          Bool.false_eq_true, false_and, if_false, target, if_neg long]
        cases if raw then entries.head? else LibArchive.findArchiveEntry entries path with
        | none => rfl
        | some e => exact (if_neg (by simp)).symm
    | lhasa memorySize filled headers =>
        simp only [getSize, matchSize, if_neg empty, Lhasa.getSize, lhasaHandle, target,
          if_neg long]
        cases Lhasa.findLhaEntry _ path with
        | none => rfl
        | some h =>
            simp only [Option.map_some]
            split_ifs <;> rfl
    | unlzx entries =>
        simp only [getSize, matchSize, if_neg empty, Unlzx.getSize, unlzxHandle, target,
          if_neg long]
        cases Unlzx.unlzxFindEntry entries path with
        | none => rfl
        | some e => exact (if_neg (by simp)).symm

theorem getSize_unmatched {a : OpenArchive} {path : FlString} (h : a.matchSize path = none) :
    (a.getSize path).size = -1 := by
  rw [getSize_eq, h]

theorem getSize_fits {a : OpenArchive} {path : FlString} {size : ℤ}
    (h : a.matchSize path = some size) (fits : 0 ≤ size) : (a.getSize path).size = size := by
  rw [getSize_eq, h]
  exact if_neg (Int.not_lt.mpr fits)

theorem getSize_short {a : OpenArchive} {path : FlString} {size : ℤ}
    (h : a.matchSize path = some size) (short : size < 0) : (a.getSize path).size = -1 := by
  rw [getSize_eq, h]
  exact if_pos short

end OpenArchive

/-! ## Entries that a listing shows are found -/

theorem stringToCstr_eq {s : FlString} (h : '\x00' ∉ s) : stringToCstr s = s :=
  List.takeWhile_eq_self_iff.mpr fun c hc => by simpa using fun e : c = '\x00' => h (e ▸ hc)

theorem matches_self (name : CString) : vfsArchiveEntryPathMatches name name.chars := by
  simp [vfsArchiveEntryPathMatches, stringToCstr_eq name.ends]

/-- A trailing slash of the entry is ignored. -/
theorem matches_dropSlash {name : CString} (slash : name.chars.getLast? = some '/') :
    vfsArchiveEntryPathMatches name name.chars.dropLast := by
  have ends : '\x00' ∉ name.chars.dropLast := fun h => name.ends (List.mem_of_mem_dropLast h)
  have ne : name.chars ≠ [] := by
    intro e
    rw [e] at slash
    cases slash
  have length : name.chars.length = name.chars.dropLast.length + 1 := by
    have := List.length_pos_iff.mpr ne
    rw [List.length_dropLast]
    omega
  have short : name.chars.take name.chars.dropLast.length =
      (stringToCstr name.chars.dropLast).take name.chars.dropLast.length := by
    rw [stringToCstr_eq ends]
    simp [List.dropLast_eq_take]
  simp only [vfsArchiveEntryPathMatches]
  by_cases same : name.chars = stringToCstr name.chars.dropLast
  · rw [if_pos same]
  · rw [if_neg same, if_pos ⟨length, slash, short⟩]

namespace OpenArchive

theorem matched_of_cached {a : OpenArchive} {path : FlString} {cached : VfsCachedEntry}
    (inside : cached ∈ a.cache) (at_path : cached.path = path) (nonempty : path ≠ []) :
    ∃ size, a.matchSize path = some size := by
  subst at_path
  unfold matchSize
  rw [if_neg nonempty]
  cases a with
  | libarchive raw name entries =>
      obtain ⟨e, e_mem, fromEntry⟩ := List.mem_filterMap.mp inside
      obtain ⟨path, pathOf, fromEntry⟩ := Option.bind_eq_some_iff.mp fromEntry
      cases fromEntry
      cases raw with
      | true =>
          cases entries with
          | nil => cases e_mem
          | cons first rest => exact ⟨_, rfl⟩
      | false =>
          obtain ⟨c, nameOf, pathOf⟩ := Option.bind_eq_some_iff.mp pathOf
          obtain ⟨pathname, called, rfl⟩ := Option.map_eq_some_iff.mp nameOf
          have found : (LibArchive.findArchiveEntry entries path).isSome := by
            refine List.find?_isSome.mpr ⟨e, e_mem, ?_⟩
            rw [called, Option.any_some]
            simp only at pathOf
            split_ifs at pathOf with slash short short
            · cases pathOf
              exact matches_dropSlash slash
            · cases pathOf
              exact matches_self pathname
          obtain ⟨first, first_eq⟩ := Option.isSome_iff_exists.mp found
          exact ⟨first.size, by simp [first_eq]⟩
  | lhasa memorySize filled headers =>
      have filled' : (lhasaHandle memorySize headers).memorySize ≠ 0 := filled
      simp only [cache, Lhasa.buildEntryCache, if_neg filled'] at inside
      obtain ⟨h, h_mem, fromHeader⟩ := List.mem_filterMap.mp inside
      split_ifs at fromHeader with fake unnamed
      cases fromHeader
      have found : (Lhasa.findLhaEntry (lhasaHandle memorySize headers)
          (Lhasa.buildFullPath 1024 h).chars).isSome := by
        rw [Lhasa.findLhaEntry, if_neg filled']
        refine List.find?_isSome.mpr ⟨h, h_mem, ?_⟩
        simp [unnamed, matches_self]
      obtain ⟨first, first_eq⟩ := Option.isSome_iff_exists.mp found
      exact ⟨first.length.toInt, by simp [first_eq]⟩
  | unlzx entries =>
      obtain ⟨e, e_mem, rfl⟩ := List.mem_map.mp inside
      have found : (Unlzx.unlzxFindEntry entries e.filename.chars).isSome :=
        List.find?_isSome.mpr ⟨e, e_mem, by simp [stringToCstr_eq e.filename.ends]⟩
      obtain ⟨first, first_eq⟩ := Option.isSome_iff_exists.mp found
      exact ⟨first.unpackSize.toNat, by simp [first_eq]⟩

theorem matched_of_shown {a : OpenArchive} {path : FlString} {size : ℤ}
    (h : IsFirstFile a.cache path size) : ∃ size, a.matchSize path = some size := by
  obtain ⟨walkable, -, cached, found, file, -⟩ := h
  have at_path : cached.path = path := by
    by_contra ne
    exact file (by simp [VfsCachedEntry.opens, ne])
  exact matched_of_cached (List.mem_of_find?_eq_some found) at_path walkable.ne_nil

theorem IsFirstFile.unique {entries : List VfsCachedEntry} {path : FlString} {s t : ℤ}
    (hs : IsFirstFile entries path s) (ht : IsFirstFile entries path t) : s = t := by
  obtain ⟨-, -, c, foundC, -, rfl⟩ := hs
  obtain ⟨-, -, d, foundD, -, rfl⟩ := ht
  cases foundC.symm.trans foundD
  rfl

/-- On each archive that a driver can open, and each path, the listing and `get_size`
agree exactly when the lookup finds what the listing shows. -/
theorem listing_agrees_iff (a : OpenArchive) (path : FlString) :
    a.Agrees path ↔ a.Consistent path := by
  have list_eq := a.list_eq
  constructor
  · rintro ⟨files, -, reachable⟩
    rw [list_eq] at files reachable
    simp only [reachesFile_iff] at files reachable
    refine ⟨fun size found fits => ?_, fun size found short s shown => ?_, fun file => ?_⟩
    · exact (files size).mpr ⟨getSize_fits found fits, fits⟩
    · have e := (files s).mp shown
      have e' := getSize_short found short
      omega
    · obtain ⟨size, shown⟩ := reachable file
      obtain ⟨s, found⟩ := matched_of_shown shown
      refine ⟨s, found, ?_⟩
      have e := (files size).mp shown
      by_contra short
      have e' := getSize_short found (Int.not_le.mp short)
      omega
  · rintro ⟨shown, hidden, matched⟩
    have files : ∀ size,
        ReachesFile a.list path size ↔ (a.getSize path).size = size ∧ 0 ≤ size := by
      intro size
      rw [list_eq, reachesFile_iff]
      cases found : a.matchSize path with
      | none =>
          refine iff_of_false (fun h => ?_) fun h => ?_
          · obtain ⟨s, found'⟩ := matched_of_shown h
            cases found.symm.trans found'
          · have e := getSize_unmatched found
            omega
      | some s =>
          by_cases fits : 0 ≤ s
          · have first := shown s found fits
            rw [getSize_fits found fits]
            constructor
            · intro h
              have e := IsFirstFile.unique first h
              exact ⟨e, e ▸ fits⟩
            · rintro ⟨rfl, -⟩
              exact first
          · refine iff_of_false (hidden s found (Int.not_le.mp fits) size) fun h => ?_
            have e := getSize_short found (Int.not_le.mp fits)
            omega
    refine ⟨files, fun unlisted => ?_, fun file => ?_⟩
    · have none : ∀ size, ¬ ReachesFile a.list path size := by
        rintro size ⟨e, reached, isFile, -⟩
        rcases unlisted with ⟨d, reachedDir, isDir⟩ | unreached
        · rw [list_eq] at reached reachedDir
          exact isFile ((reached.unique reachedDir).1 ▸ isDir)
        · exact unreached ⟨e, reached⟩
      cases found : a.matchSize path with
      | none => exact getSize_unmatched found
      | some s =>
          by_cases fits : 0 ≤ s
          · exact absurd ((files s).mpr ⟨getSize_fits found fits, fits⟩) (none s)
          · exact getSize_short found (Int.not_le.mp fits)
    · obtain ⟨size, found, fits⟩ := matched file
      exact ⟨size, (files size).mpr ⟨getSize_fits found fits, fits⟩⟩

/-! ## Archives on which they differ -/

/-- An archive of libarchive with a directory entry. -/
def withDirectory : OpenArchive :=
  .libarchive false [] [⟨some ⟨['d', '/'], by decide⟩, 0, true⟩]

/-- An archive of lhasa with an empty stored file. -/
def withEmptyStored : OpenArchive :=
  .lhasa 1 (by decide) [⟨none, some ⟨['e'], by decide⟩, 0, "-lh0-".toList, false⟩]

/-- An archive of lhasa with a directory, and a file in it. -/
def withLhaDirectory : OpenArchive :=
  .lhasa 1 (by decide)
    [⟨some ⟨['d', '/'], by decide⟩, none, 0, "-lhd-".toList, false⟩,
     ⟨some ⟨['d', '/'], by decide⟩, some ⟨['f'], by decide⟩, 7, "-lh5-".toList, false⟩]

/-- An archive of unlzx with an empty file. -/
def withEmptyFile : OpenArchive := .unlzx [⟨⟨['e'], by decide⟩, 0⟩]

/-- A directory of libarchive has a size; lhasa and unlzx list an empty file as a
directory; and lhasa lists a directory as a file, so that nothing in it is reached. -/
theorem listing_disagrees :
    ¬ withDirectory.Agrees ['d'] ∧ ¬ withEmptyStored.Agrees ['e'] ∧
      ¬ withLhaDirectory.Agrees ['d', '/', 'f'] ∧ ¬ withEmptyFile.Agrees ['e'] := by
  refine ⟨fun h => ?_, fun h => ?_, fun h => ?_, fun h => ?_⟩
  · have listed : (⟨['d'], 0, 0, true, false⟩ : Entry) ∈ withDirectory.list [] := by decide
    have directory := h.others (.inl ⟨_, .root listed (by decide), rfl⟩)
    exact absurd directory (by decide)
  · have listed : (⟨['e'], 0, 0, true, false⟩ : Entry) ∈ withEmptyStored.list [] := by decide
    have directory := h.others (.inl ⟨_, .root listed (by decide), rfl⟩)
    exact absurd directory (by decide)
  · have file : ReachesFile withLhaDirectory.list ['d', '/', 'f'] 7 :=
      (h.files 7).mpr (by decide)
    rw [list_eq, reachesFile_iff] at file
    exact absurd (file.2.1 ['d'] (by decide) _ rfl) (by decide)
  · have listed : (⟨['e'], 0, 0, true, false⟩ : Entry) ∈ withEmptyFile.list [] := by decide
    have directory := h.others (.inl ⟨_, .root listed (by decide), rfl⟩)
    exact absurd directory (by decide)

end OpenArchive

end FlowiVfs.Archive
