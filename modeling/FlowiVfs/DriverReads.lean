import FlowiVfs.ArchiveDrivers
import FlowiVfs.OrderedStreams
import Mathlib.Algebra.Group.Int.Defs

/-!
# Reads of the drivers

A read with a path takes the named file from its start, a read without one goes on in the
file that the handle was opened on. Each driver keeps the place differently: LocalFS in a
descriptor, libarchive in an archive that stays at the entry, lhasa in a reader that named
reads use as well, unlzx in a stream of its own. The handles here are those that `open`
returns for a file.
-/
namespace FlowiVfs.Reads

open Ordered Archive
open FlowiVfs.Tree (FlString Bytes)

/-- `FlVfsStatus` of a read that fails. -/
inductive ReadFailure
  | fileNotFound
  | invalidHandle
  | pathInvalid
  | archiveError
  | readError
  | genericError
  | outOfMemory
deriving DecidableEq

/-- `FlVfsReadResult`: the bytes that were read, or `bytes_read` is -1. -/
abbrev ReadResult := Except ReadFailure Bytes

def ReadResult.data : ReadResult → Bytes
  | .error _ => []
  | .ok bytes => bytes

@[simp] theorem ReadResult.data_error (failure : ReadFailure) :
    ReadResult.data (.error failure) = [] := rfl

@[simp] theorem ReadResult.data_ok (bytes : Bytes) : ReadResult.data (.ok bytes) = bytes := rfl

/-- What happens where a call has to open a file, an archive or a stream. -/
inductive Answer
  | fine
  | noMemory
  | refused
deriving DecidableEq

/-- The cast to `size_t`. -/
def sizeT (size : ℤ) : ℕ := (size % 2 ^ 64).toNat

/-- The library that reads the entries of one archive. -/
structure EntryReader where
  Position : Type
  /-- At the start of the data of an entry. -/
  start : ℕ → Position
  read : Read Position UInt8

/-- The library delivers the data of every entry in order. -/
structure EntryReader.Contents (lib : EntryReader) where
  content : ℕ → Bytes
  remaining : lib.Position → Bytes
  starts : ∀ i, remaining (lib.start i) <+: content i
  ordered : InOrder lib.read remaining

/-! ## libarchive -/

namespace LibArchive

/-- The handle as lookups use it, and the archive that stays open at its entry. -/
structure File (lib : EntryReader) where
  handle : LibArchiveHandle
  archive : Option lib.Position

/-- A raw archive has one entry, whatever it is called. -/
def entryIndex (handle : LibArchiveHandle) (target : FlString) : Option ℕ :=
  if handle.isRawCompression then
    if handle.entries.isEmpty then none else some 0
  else handle.entries.findIdx? fun entry =>
    entry.pathname.any (vfsArchiveEntryPathMatches · target)

variable {lib : EntryReader}

variable (lib) in
/-- `libarchive_open` inside an archive, with `libarchive_seek_to_entry`. -/
def openFile (parent : LibArchiveHandle) (path : FlString) (answer : Answer) :
    Option (File lib) :=
  if path.length = 0 then none
  else if answer ≠ .fine then none
  else
    match entryIndex parent path with
    | none => none
    | some i =>
        some
          { handle :=
              { targetPath := path
                isRawCompression := parent.isRawCompression
                decompressedName := parent.decompressedName
                entrySize := (parent.entries[i]?.map LibArchiveEntry.size).getD 0
                entryReady := true
                entries := parent.entries }
            archive := some (lib.start i) }

def ofData : Option Bytes → ReadResult
  | none => .error .readError
  | some bytes => .ok bytes

theorem ofData_data (data : Option Bytes) : (ofData data).data = data.getD [] := by
  cases data <;> rfl

def read (file : File lib) (path : FlString) (size : ℤ) (answer : Answer) :
    ReadResult × File lib :=
  let targetPath := resolveTargetPath file.handle.targetPath path
  if targetPath.length = 0 then (.error .pathInvalid, file)
  else
    match file.handle.entryReady, file.archive with
    | true, some archive =>
        let data := lib.read archive (sizeT size)
        (ofData data.1, { file with archive := some data.2 })
    | _, _ =>
        if answer ≠ .fine then (.error .archiveError, file)
        else
          match entryIndex file.handle targetPath with
          | none => (.error .fileNotFound, file)
          | some i => (ofData (lib.read (lib.start i) (sizeT size)).1, file)

/-- The archive that the size is looked up in is another one than the handle's. -/
def getSize (file : File lib) (path : FlString) (answer : Answer) : SizeResult × File lib :=
  let cached := file.handle.entryReady ∧ 0 ≤ file.handle.entrySize
  let targetPath := resolveTargetPath file.handle.targetPath path
  if ¬ cached ∧ targetPath.length ≠ 0 ∧ answer ≠ .fine then (sizeFail .archiveError, file)
  else (Archive.LibArchive.getSize (some file.handle) path, file)

end LibArchive

/-! ## lhasa -/

namespace Lhasa

structure File (lib : EntryReader) where
  handle : LhasaHandle
  reader : Option lib.Position := none
  positioned : Bool := false

variable {lib : EntryReader}

variable (lib) in
/-- `lhasa_open` inside an archive. -/
def openFile (parent : LhasaHandle) (path : FlString) (answer : Answer) : Option (File lib) :=
  if answer ≠ .fine then none
  else some { handle := { targetPath := path, memorySize := parent.memorySize
                          headers := parent.headers } }

def entryIndex (handle : LhasaHandle) (target : FlString) : Option ℕ :=
  handle.headers.findIdx? fun header =>
    let fullPath := Archive.Lhasa.buildFullPath 1024 header
    if fullPath.chars.length = 0 then false else vfsArchiveEntryPathMatches fullPath target

/-- The old reader is freed before the archive is opened again. Where nothing is found the
new one is behind the last entry. -/
def findLhaEntry (file : File lib) (target : FlString) (answer : Answer) :
    Option LhaHeader × File lib :=
  if file.handle.memorySize = 0 then (none, file)
  else if answer ≠ .fine then (none, { file with reader := none })
  else
    match entryIndex file.handle target with
    | none => (none, { file with reader := some (lib.start file.handle.headers.length) })
    | some i => (file.handle.headers[i]?, { file with reader := some (lib.start i) })

/-- A reader that cannot decode its entry reads nothing. -/
def lhaReaderRead (lib : EntryReader) : Read lib.Position UInt8 := fun reader n =>
  (some ((lib.read reader n).1.getD []), (lib.read reader n).2)

/-- The loop around `lha_reader_read`. -/
def readData (file : File lib) (size : ℤ) : ReadResult × File lib :=
  match file.reader with
  | none => (.ok [], file)
  | some reader =>
      let data := fill (lhaReaderRead lib) reader size.toNat
      (.ok (data.1.getD []), { file with reader := some data.2 })

def readNext (file : File lib) (size : ℤ) (answer : Answer) : ReadResult × File lib :=
  if file.positioned then readData file size
  else
    match findLhaEntry file file.handle.targetPath answer with
    | (none, file) => (.error .fileNotFound, file)
    | (some _, file) => readData { file with positioned := true } size

def read (file : File lib) (path : FlString) (size : ℤ) (answer : Answer) :
    ReadResult × File lib :=
  let targetPath := resolveTargetPath file.handle.targetPath path
  if targetPath.length = 0 then (.error .pathInvalid, file)
  else if size < 0 then (.error .genericError, file)
  else if path.length = 0 then readNext file size answer
  else
    match findLhaEntry { file with positioned := false } targetPath answer with
    | (none, file) => (.error .fileNotFound, file)
    | (some header, file) =>
        if size.toNat < header.length.toNat then (.error .genericError, file)
        else readData file size

def getSize (file : File lib) (path : FlString) (answer : Answer) : SizeResult × File lib :=
  let targetPath := resolveTargetPath file.handle.targetPath path
  if targetPath.length = 0 then (sizeFail .pathInvalid, file)
  else
    let probe : File lib :=
      { handle := { memorySize := file.handle.memorySize, headers := file.handle.headers } }
    let size :=
      match (findLhaEntry probe targetPath answer).1 with
      | some header => header.length.toInt
      | none => -1
    if size < 0 then (sizeFail .fileNotFound, file) else (⟨size, .success⟩, file)

end Lhasa

/-! ## unlzx -/

namespace Unlzx

structure File (lib : EntryReader) where
  handle : UnlzxHandle
  stream : Option lib.Position := none

variable {lib : EntryReader}

variable (lib) in
/-- `unlzx_open` inside an archive. -/
def openFile (parent : UnlzxHandle) (path : FlString) (answer : Answer) : Option (File lib) :=
  if answer ≠ .fine then none
  else some { handle := { targetPath := path, archive := parent.archive } }

def entryIndex (archive : List UnlzxEntry) (target : FlString) : Option ℕ :=
  archive.findIdx? fun entry => entry.filename.chars = stringToCstr target

def ofData : Option Bytes → ReadResult
  | none => .error .archiveError
  | some bytes => .ok bytes

theorem ofData_data (data : Option Bytes) : (ofData data).data = data.getD [] := by
  cases data <;> rfl

def readNext (file : File lib) (archive : List UnlzxEntry) (size : ℤ) (answer : Answer) :
    ReadResult × File lib :=
  let opened : Except ReadFailure lib.Position :=
    match file.stream with
    | some stream => .ok stream
    | none =>
        match entryIndex archive file.handle.targetPath with
        | none => .error .fileNotFound
        | some i =>
            match answer with
            | .fine => .ok (lib.start i)
            | .noMemory => .error .outOfMemory
            | .refused => .error .archiveError
  match opened with
  | .error failure => (.error failure, file)
  | .ok stream =>
      let data := lib.read stream size.toNat
      (ofData data.1, { file with stream := some data.2 })

/-- `unlzx_extract_entry` decodes from the start of the entry, away from the stream. It
leaves the rest of the buffer alone. -/
def extractEntry (lib : EntryReader) (i : ℕ) (entry : UnlzxEntry) (buffer : Bytes) : Option Bytes :=
  (lib.read (lib.start i) entry.unpackSize.toNat).1.map fun bytes =>
    bytes ++ buffer.drop bytes.length

def read (file : File lib) (path : FlString) (size : ℤ) (buffer : Bytes) (answer : Answer) :
    ReadResult × File lib :=
  match file.handle.archive with
  | none => (.error .invalidHandle, file)
  | some archive =>
      let targetPath := resolveTargetPath file.handle.targetPath path
      if targetPath.length = 0 then (.error .pathInvalid, file)
      else if size < 0 then (.error .genericError, file)
      else if path.length = 0 then readNext file archive size answer
      else
        match entryIndex archive targetPath with
        | none => (.error .fileNotFound, file)
        | some i =>
            match archive[i]? with
            | none => (.error .fileNotFound, file)
            | some entry =>
                if size.toNat < entry.unpackSize.toNat then (.error .genericError, file)
                else
                  let extracted := extractEntry lib i entry buffer
                  (ofData (extracted.map (·.take entry.unpackSize.toNat)), file)

def getSize (file : File lib) (path : FlString) : SizeResult × File lib :=
  (Archive.Unlzx.getSize (some file.handle) path, file)

end Unlzx

/-! ## LocalFS -/

namespace LocalFs

structure FileStat where
  isDirectory : Bool
  size : ℕ

/-- The functions of the operating system that the driver uses. -/
structure Os where
  Descriptor : Type
  pathMakeAbsolute : FlString → FlString → FlString
  /-- Nothing where the path is not valid. -/
  fileStatOs : FlString → Option FileStat
  fileGetSizeOs : FlString → ℤ
  fileOpenOs : FlString → Option Descriptor
  fileReadFromHandleOs : Read Descriptor UInt8

/-- A descriptor delivers the bytes of its file in order. -/
structure Os.Contents (os : Os) where
  content : FlString → Bytes
  remaining : os.Descriptor → Bytes
  starts : ∀ path fd, os.fileOpenOs path = some fd → remaining fd <+: content path
  ordered : InOrder os.fileReadFromHandleOs remaining

/-- `LocalFsHandle`, opened for reading only. -/
structure File (os : Os) where
  path : FlString
  fd : Option os.Descriptor
  isDir : Bool

variable {os : Os}

def openOs (os : Os) (path : FlString) (answer : Answer) : Option os.Descriptor :=
  if answer ≠ .fine then none else os.fileOpenOs path

variable (os) in
/-- `localfs_open` with `FlVfsOpenFlags_Read`, below a handle or with an empty base. -/
def openFile (parent path : FlString) (answer : Answer) : Option (File os) :=
  let full := os.pathMakeAbsolute parent path
  match os.fileStatOs full with
  | none => none
  | some stat =>
      if stat.isDirectory then some ⟨full, none, true⟩
      else
        match openOs os full answer with
        | none => none
        | some fd => some ⟨full, some fd, false⟩

def getSize (file : File os) (path : FlString) : SizeResult × File os :=
  if path.length = 0 then
    let size := os.fileGetSizeOs file.path
    if size < 0 then (sizeFail .fileNotFound, file) else (⟨size, .success⟩, file)
  else
    match os.fileStatOs (os.pathMakeAbsolute file.path path) with
    | none => (sizeFail .fileNotFound, file)
    | some stat =>
        if stat.isDirectory then (sizeFail .fileNotFound, file)
        else (⟨stat.size, .success⟩, file)

def ofData : Option Bytes → ReadResult
  | none => .error .fileNotFound
  | some bytes => .ok bytes

theorem ofData_data (data : Option Bytes) : (ofData data).data = data.getD [] := by
  cases data <;> rfl

def read (file : File os) (path : FlString) (size : ℤ) (answer : Answer) :
    ReadResult × File os :=
  if size < 0 then (.error .fileNotFound, file)
  else if path.length ≠ 0 then
    match openOs os (os.pathMakeAbsolute file.path path) answer with
    | none => (.error .fileNotFound, file)
    | some fd => (ofData (fill os.fileReadFromHandleOs fd size.toNat).1, file)
  else if file.isDir then (.error .fileNotFound, file)
  else
    match file.fd with
    | some fd =>
        let data := fill os.fileReadFromHandleOs fd size.toNat
        (ofData data.1, { file with fd := some data.2 })
    | none =>
        match openOs os file.path answer with
        | none => (.error .fileNotFound, file)
        | some fd => (ofData (fill os.fileReadFromHandleOs fd size.toNat).1, file)

end LocalFs
end FlowiVfs.Reads
