import FlowiVfs.ArchiveListing
import Mathlib.Data.List.Basic

/-!
# The archive drivers

The three drivers read archives through a library each. What the library reports is a
sequence of entries, the same on every pass over the archive. A driver caches them in its
own way for listings, and looks paths up among them as they are for sizes.
-/
namespace FlowiVfs.Archive

open FlowiVfs.Tree

/-- `FlVfsStatus`, as far as `get_size` sets it. -/
inductive VfsStatus
  | success
  | invalidHandle
  | pathInvalid
  | archiveError
  | fileNotFound
deriving DecidableEq

/-- `FlVfsSizeResult` -/
structure SizeResult where
  size : ℤ
  status : VfsStatus
deriving DecidableEq

def sizeFail (status : VfsStatus) : SizeResult := ⟨-1, status⟩

/-- `resolve_target_path` -/
def resolveTargetPath (targetPath path : FlString) : FlString :=
  if 0 < path.length then path else targetPath

/-! ## libarchive -/

structure LibArchiveEntry where
  pathname : Option CString
  /-- `archive_entry_set_size` turns a negative size into zero. -/
  size : ℕ
  /-- `archive_entry_filetype` is `AE_IFDIR`. -/
  isDirectory : Bool
deriving DecidableEq

structure LibArchiveHandle where
  targetPath : FlString := []
  isDirectory : Bool := false
  isRawCompression : Bool := false
  decompressedName : FlString := []
  entrySize : ℤ := 0
  entryReady : Bool := false
  entries : List LibArchiveEntry

namespace LibArchive

/-- `find_archive_entry` -/
def findArchiveEntry (entries : List LibArchiveEntry) (target : FlString) :
    Option LibArchiveEntry :=
  entries.find? fun entry => entry.pathname.any (vfsArchiveEntryPathMatches · target)

def getSize : Option LibArchiveHandle → FlString → SizeResult
  | none, _ => sizeFail .invalidHandle
  | some handle, path =>
      if handle.entryReady ∧ 0 ≤ handle.entrySize then ⟨handle.entrySize, .success⟩
      else
        let targetPath := resolveTargetPath handle.targetPath path
        if targetPath.length = 0 then sizeFail .pathInvalid
        else
          -- a raw archive has one entry, whatever it is called
          let entry :=
            if handle.isRawCompression then handle.entries.head?
            else findArchiveEntry handle.entries targetPath
          match entry with
          | none => sizeFail .fileNotFound
          | some entry => ⟨entry.size, .success⟩

def cachedPath (handle : LibArchiveHandle) (entry : LibArchiveEntry) : Option FlString := do
  let path ←
    if handle.isRawCompression ∧ 0 < handle.decompressedName.length then
      some handle.decompressedName
    else entry.pathname.map CString.chars
  let path := if path.getLast? = some '/' then path.dropLast else path
  if path.length = 0 then none else some path

def buildEntryCache (handle : LibArchiveHandle) : List VfsCachedEntry :=
  handle.entries.filterMap fun entry => do
    let path ← cachedPath handle entry
    some ⟨path, entry.size, entry.isDirectory⟩

def listDirectory {S : Type} (handle : Option LibArchiveHandle) (path : FlString)
    (callback : S → Entry → Bool × S) (userData : S) : S :=
  match handle with
  | none => userData
  | some handle =>
      if ¬ handle.isDirectory then userData
      else vfsArchiveListChildren (buildEntryCache handle) path callback userData

end LibArchive

/-! ## lhasa -/

/-- `LHAFileHeader`, with whether the reader calls it fake. -/
structure LhaHeader where
  path : Option CString
  filename : Option CString
  length : BitVec 64
  compressMethod : FlString
  isFake : Bool := false
deriving DecidableEq

structure LhasaHandle where
  targetPath : FlString := []
  isDirectory : Bool := false
  /-- Zero where there is no memory buffer. -/
  memorySize : ℕ
  headers : List LhaHeader

namespace Lhasa

/-- The path and the file name of a header, one behind the other. -/
def rawPath (header : LhaHeader) : CString where
  chars := (header.path.map CString.chars).getD [] ++ (header.filename.map CString.chars).getD []
  ends := by
    rw [List.mem_append, not_or]
    constructor
    · cases header.path with
      | none => exact List.not_mem_nil
      | some path => exact path.ends
    · cases header.filename with
      | none => exact List.not_mem_nil
      | some filename => exact filename.ends

/-- The path in a buffer of `destSize` bytes, or empty. -/
def buildFullPath (destSize : ℕ) (header : LhaHeader) : CString :=
  let full := rawPath header
  if destSize ≤ full.chars.length ∨ full.chars.length = 0 then ⟨[], List.not_mem_nil⟩
  else if full.chars.getLast? = some '/' then
    ⟨full.chars.dropLast, fun h => full.ends (List.mem_of_mem_dropLast h)⟩
  else full

def findLhaEntry (handle : LhasaHandle) (targetPath : FlString) : Option LhaHeader :=
  if handle.memorySize = 0 then none
  else
    handle.headers.find? fun header =>
      let fullPath := buildFullPath 1024 header
      if fullPath.chars.length = 0 then false
      else vfsArchiveEntryPathMatches fullPath targetPath

def getSize : Option LhasaHandle → FlString → SizeResult
  | none, _ => sizeFail .invalidHandle
  | some handle, path =>
      let targetPath := resolveTargetPath handle.targetPath path
      if targetPath.length = 0 then sizeFail .pathInvalid
      else
        let size := match findLhaEntry handle targetPath with
          | some header => header.length.toInt
          | none => -1
        if size < 0 then sizeFail .fileNotFound else ⟨size, .success⟩

def buildEntryCache (handle : LhasaHandle) : List VfsCachedEntry :=
  if handle.memorySize = 0 then []
  else
    handle.headers.filterMap fun header =>
      if header.isFake then none
      else
        let fullPath := buildFullPath 1024 header
        if fullPath.chars.length = 0 then none
        else some ⟨fullPath.chars, header.length.toInt,
          header.length = 0 && header.compressMethod = "-lh0-".toList⟩

def listDirectory {S : Type} (handle : Option LhasaHandle) (path : FlString)
    (callback : S → Entry → Bool × S) (userData : S) : S :=
  match handle with
  | none => userData
  | some handle =>
      if ¬ handle.isDirectory then userData
      else vfsArchiveListChildren (buildEntryCache handle) path callback userData

end Lhasa

/-! ## unlzx -/

structure UnlzxEntry where
  filename : CString
  unpackSize : BitVec 32
deriving DecidableEq

structure UnlzxHandle where
  targetPath : FlString := []
  isDirectory : Bool := false
  archive : Option (List UnlzxEntry)

namespace Unlzx

def unlzxFindEntry (archive : List UnlzxEntry) (filename : FlString) : Option UnlzxEntry :=
  archive.find? fun entry => entry.filename.chars = stringToCstr filename

def getSize : Option UnlzxHandle → FlString → SizeResult
  | none, _ => sizeFail .invalidHandle
  | some handle, path =>
      match handle.archive with
      | none => sizeFail .invalidHandle
      | some archive =>
          let targetPath := resolveTargetPath handle.targetPath path
          if targetPath.length = 0 then sizeFail .pathInvalid
          else
            match unlzxFindEntry archive targetPath with
            | none => sizeFail .fileNotFound
            | some entry => ⟨entry.unpackSize.toNat, .success⟩

def buildEntryCache (handle : UnlzxHandle) : List VfsCachedEntry :=
  match handle.archive with
  | none => []
  | some archive =>
      archive.map fun entry =>
        ⟨entry.filename.chars, entry.unpackSize.toNat, entry.unpackSize = 0⟩

def listDirectory {S : Type} (handle : Option UnlzxHandle) (path : FlString)
    (callback : S → Entry → Bool × S) (userData : S) : S :=
  match handle with
  | none => userData
  | some handle =>
      if ¬ handle.isDirectory then userData
      else vfsArchiveListChildren (buildEntryCache handle) path callback userData

end Unlzx

/-! ## The handle of an archive -/

/-- An archive that one of the drivers has opened. -/
inductive OpenArchive
  | libarchive (isRawCompression : Bool) (decompressedName : FlString)
      (entries : List LibArchiveEntry)
  | lhasa (memorySize : ℕ) (filled : memorySize ≠ 0) (headers : List LhaHeader)
  | unlzx (entries : List UnlzxEntry)

/-- The callback of a listing that keeps every entry. -/
def keep (acc : List Entry) (entry : Entry) : Bool × List Entry := (true, acc ++ [entry])

def libarchiveHandle (isRawCompression : Bool) (decompressedName : FlString)
    (entries : List LibArchiveEntry) : LibArchiveHandle where
  isDirectory := true
  isRawCompression := isRawCompression
  decompressedName := if isRawCompression then decompressedName else []
  entries := entries

def lhasaHandle (memorySize : ℕ) (headers : List LhaHeader) : LhasaHandle where
  isDirectory := true
  memorySize := memorySize
  headers := headers

def unlzxHandle (entries : List UnlzxEntry) : UnlzxHandle where
  isDirectory := true
  archive := some entries

namespace OpenArchive

/-- What the driver reports of a directory. -/
def list : OpenArchive → FlString → List Entry
  | libarchive raw name entries, path =>
      LibArchive.listDirectory (some (libarchiveHandle raw name entries)) path keep []
  | lhasa memorySize _ headers, path =>
      Lhasa.listDirectory (some (lhasaHandle memorySize headers)) path keep []
  | unlzx entries, path => Unlzx.listDirectory (some (unlzxHandle entries)) path keep []

def getSize : OpenArchive → FlString → SizeResult
  | libarchive raw name entries, path =>
      LibArchive.getSize (some (libarchiveHandle raw name entries)) path
  | lhasa memorySize _ headers, path => Lhasa.getSize (some (lhasaHandle memorySize headers)) path
  | unlzx entries, path => Unlzx.getSize (some (unlzxHandle entries)) path

/-- The names that the archive's reader gives its entries other than directories. -/
def files : OpenArchive → List FlString
  | libarchive _ _ entries =>
      (entries.filter fun e => ¬ e.isDirectory).filterMap fun e => e.pathname.map CString.chars
  | lhasa _ _ headers =>
      (headers.filter fun h => h.compressMethod ≠ "-lhd-".toList).map fun h =>
        (Lhasa.rawPath h).chars
  | unlzx entries => entries.map fun e => e.filename.chars

end OpenArchive

end FlowiVfs.Archive
