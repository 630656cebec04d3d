import FlowiVfs.Drivers
import FlowiVfs.OwnedObjects

/-!
# Archives in memory

A successful `open_memory` takes the buffer over, and the handle it returns frees it when it
is closed. Clones read the same buffer, and no driver counts them. So a buffer lives only as
long as the handle that `open_memory` returned, and the clones of an archive, and theirs in
turn, are sound as long as that handle is closed after all of them.
-/
namespace FlowiVfs.Memory

open Owned
open FlowiVfs.Tree (FlString Bytes)

/-- What `open_memory` gets besides the pointer. -/
structure MemoryFile where
  bytes : Bytes
  originalPath : FlString

/-- The functions on names that come with the strings. -/
structure NameLibrary where
  pathHasExtension : FlString → FlString → Bool
  pathGetFilename : FlString → FlString
  stringEqualsNocase : FlString → FlString → Bool

/-- A string with the memory it is in, if that is its own. -/
structure HeapString where
  text : FlString := []
  storage : Option ObjectId := none

/-- Where there is no memory left the copy is empty. -/
def stringCopyMalloc (text : FlString) : HeapM HeapString := do
  match ← tryAllocate with
  | none => return {}
  | some storage => return ⟨text, storage⟩

def stringFree (string : HeapString) : HeapM Unit := freeOptional string.storage

/-- A string is copied to memory of its own, or there is none. -/
theorem stringCopyMalloc_triple (text : FlString) (own : List ObjectId) :
    Triple own (stringCopyMalloc text)
      (fun copy own' => own' = copy.storage.toList ++ own) := by
  apply Triple.bind Triple.tryAllocate
  intro answer own' he
  cases answer with
  | none => exact Triple.pure he
  | some storage => exact Triple.pure he

/-- The objects that a handle has pointers to. -/
structure Footprint (H : Type) where
  /-- What `close` frees. -/
  owned : H → List ObjectId
  /-- What clones refer to as well. -/
  shared : H → List ObjectId
  refers : H → List ObjectId

section Footprint

variable {H : Type} (foot : Footprint H)

/-- What becomes of the objects in `own` where a handle is opened on `data`. -/
def Opens (data : Option ObjectId) : Option H → List ObjectId → Prop
  | none, own => own.Perm data.toList
  | some handle, own =>
      own.Perm (foot.owned handle) ∧ foot.refers handle ⊆ foot.owned handle ∧
        ∃ o ∈ data, o ∈ foot.shared handle

/-- What a clone owns. It refers to whatever its source shares. -/
def Clones (source : H) : Option H → List ObjectId → Prop
  | none, own => own = []
  | some handle, own =>
      own.Perm (foot.owned handle) ∧ foot.shared handle = foot.shared source ∧
        foot.refers handle ⊆ foot.owned handle ++ foot.shared handle

variable {foot} {close : H → HeapM Unit} {handle : H} {own : List ObjectId}

/-- A handle that is not opened yet is closed again: the buffer stays with the caller. -/
theorem closed_opens {data : ObjectId} (hclose : close handle = freeAll (foot.owned handle))
    (hp : own.Perm (foot.owned handle ++ [data])) :
    Triple own (do close handle; return none) (Opens foot (some data)) := by
  rw [hclose]
  apply Triple.perm _ hp
  apply Triple.bind Triple.freeAll
  intro _ own he
  subst he
  exact Triple.pure (List.Perm.refl _)

theorem closed_clones {source : H} (hclose : close handle = freeAll (foot.owned handle))
    (hp : own.Perm (foot.owned handle)) :
    Triple own (do close handle; return none) (Clones foot source) := by
  rw [hclose]
  rw [← List.append_nil (foot.owned handle)] at hp
  apply Triple.perm _ hp
  apply Triple.bind Triple.freeAll
  intro _ own he
  exact Triple.pure he

end Footprint

/-! ## libarchive -/

namespace LibArchive

variable (names : NameLibrary)

def isSingleFileCompression (path : FlString) : Bool :=
  let tars := ["tar.gz", "tar.xz", "tar.lz", "tar.bz2", "tar.lzma", "tgz", "tbz2", "txz"]
  let single := ["gz", "bz2", "xz", "lz", "lzma", "zst"]
  if tars.any fun extension => names.pathHasExtension path extension.toList then false
  else single.any fun extension => names.pathHasExtension path extension.toList

def getDecompressedFilename (path : FlString) : FlString :=
  let filename := names.pathGetFilename path
  let exts := [".gz", ".bz2", ".xz", ".lz", ".lzma", ".zst"].map String.toList
  let suffixed := exts.find? fun ext =>
    decide (ext.length < filename.length) &&
      names.stringEqualsNocase (filename.drop (filename.length - ext.length)) ext
  match suffixed with
  | none => filename
  | some ext => filename.take (filename.length - ext.length)

/-- `LibArchiveHandle`, of an archive in memory. -/
structure Handle where
  /-- Where the structure itself is. -/
  address : ObjectId
  archivePath : HeapString
  archive : Option ObjectId
  isRawCompression : Bool
  decompressedName : HeapString
  ownsDecompressedName : Bool
  memoryBuffer : ObjectId
  memorySize : ℕ
  ownsMemory : Bool := false
  cacheArena : Option ObjectId := none

def close (handle : Handle) : HeapM Unit := do
  freeOptional handle.archive
  freeOptional handle.cacheArena
  stringFree handle.archivePath
  if handle.ownsDecompressedName then stringFree handle.decompressedName
  if handle.ownsMemory then free handle.memoryBuffer
  free handle.address

/-- The name in the handle of a new archive, and whether the handle has to free it. -/
def ownName (isRawCompression : Bool) (originalPath : FlString) : HeapM (HeapString × Bool) :=
  let name := if isRawCompression then getDecompressedFilename names originalPath else []
  if isRawCompression ∧ 0 < name.length then do
    let copy ← stringCopyMalloc name
    return (copy, true)
  else return (⟨name, none⟩, false)

/-- Close a handle whose archive cannot be opened. -/
def giveUp (handle : Handle) : HeapM (Option Handle) := do
  close handle
  return none

def openMemory (data : Option ObjectId) (file : MemoryFile) : HeapM (Option Handle) :=
  match data with
  | none => return none
  | some data => do
      if file.bytes.length = 0 then return none
      else
        match ← tryAllocate with
        | none => return none
        | some address =>
            let archivePath ← stringCopyMalloc file.originalPath
            let isRawCompression := isSingleFileCompression names file.originalPath
            let name ← ownName names isRawCompression file.originalPath
            let archive ← allocate
            let handle : Handle :=
              { address, archivePath, archive := some archive, isRawCompression
                decompressedName := name.1, ownsDecompressedName := name.2
                memoryBuffer := data, memorySize := file.bytes.length }
            -- archive_read_open_memory
            if ¬ (← ask) then giveUp handle
            -- the first header, or the end of the archive
            else if ¬ (← ask) then giveUp handle
            else
              free archive
              let archive ← allocate
              let handle := { handle with archive := some archive }
              if ¬ (← ask) then giveUp handle
              else return some { handle with ownsMemory := true }

def clone (source : Handle) : HeapM (Option Handle) := do
  match ← tryAllocate with
  | none => return none
  | some address =>
      let archivePath ← stringCopyMalloc source.archivePath.text
      let archive ← allocate
      let handle : Handle :=
        { address, archivePath, archive := some archive
          isRawCompression := source.isRawCompression
          decompressedName := source.decompressedName, ownsDecompressedName := false
          memoryBuffer := source.memoryBuffer, memorySize := source.memorySize }
      if ¬ (← ask) then giveUp handle else return some handle

/-! ### What the handles own -/

/-- What `close` frees. -/
def Handle.owned (handle : Handle) : List ObjectId :=
  handle.archive.toList ++ (handle.cacheArena.toList ++ (handle.archivePath.storage.toList ++
    ((if handle.ownsDecompressedName then handle.decompressedName.storage.toList else []) ++
      ((if handle.ownsMemory then [handle.memoryBuffer] else []) ++ [handle.address]))))

/-- What a clone of the handle refers to as well. -/
def Handle.shared (handle : Handle) : List ObjectId :=
  handle.memoryBuffer :: handle.decompressedName.storage.toList

def Handle.refers (handle : Handle) : List ObjectId :=
  handle.address :: handle.memoryBuffer :: (handle.archivePath.storage.toList ++
    (handle.archive.toList ++ (handle.decompressedName.storage.toList ++ handle.cacheArena.toList)))

def footprint : Footprint Handle := ⟨Handle.owned, Handle.shared, Handle.refers⟩

theorem close_eq (handle : Handle) : close handle = freeAll handle.owned := by
  simp only [Handle.owned, freeAll_append, freeAll_optional, freeAll_singleton]
  unfold close stringFree
  split_ifs <;> simp [freeAll_optional, freeAll_singleton]

theorem ownName_triple (isRawCompression : Bool) (originalPath : FlString)
    (own : List ObjectId) :
    Triple own (ownName names isRawCompression originalPath) (fun name own' =>
      (name.2 = false → name.1.storage = none) ∧ own' = name.1.storage.toList ++ own) := by
  unfold ownName
  apply Triple.ite
  · intro _
    apply Triple.bind (stringCopyMalloc_triple _ own)
    intro copy own' he
    exact Triple.pure ⟨fun h => absurd h Bool.noConfusion, he⟩
  · intro _
    exact Triple.pure ⟨fun _ => rfl, rfl⟩

/-- The name that a new handle refers to is in memory of its own, or in none. -/
theorem name_owned {name : HeapString × Bool} (h : name.2 = false → name.1.storage = none) :
    (if name.2 then name.1.storage.toList else []) = name.1.storage.toList := by
  cases hown : name.2 with
  | true => rfl
  | false => rw [h hown]; rfl

theorem openMemory_triple (data : Option ObjectId) (file : MemoryFile) :
    Triple data.toList (openMemory names data file)
      (Opens footprint data) := by
  cases data with
  | none => exact Triple.pure (List.Perm.refl _)
  | some data =>
    apply Triple.ite
    · intro _
      exact Triple.pure (List.Perm.refl _)
    intro _
    apply Triple.bind Triple.tryAllocate
    intro address own he
    subst he
    cases address with
    | none => exact Triple.pure (List.Perm.refl _)
    | some address =>
      apply Triple.bind (stringCopyMalloc_triple _ _)
      intro archivePath own he
      subst he
      apply Triple.bind (ownName_triple names _ _ _)
      rintro name own ⟨hname, he⟩
      subst he
      apply Triple.bind Triple.allocate
      intro archive own he
      subst he
      have howned : ∀ a : ObjectId, (a :: (name.1.storage.toList ++
          (archivePath.storage.toList ++ ([address] ++ [data])))).Perm
          ([a] ++ ([] ++ (archivePath.storage.toList ++
            ((if name.2 then name.1.storage.toList else []) ++ ([] ++ [address])))) ++ [data]) := by
        intro a
        rw [name_owned hname]
        apply List.perm_iff_count.mpr
        intro o
        simp only [List.count_append, List.count_cons, List.count_nil]
        omega
      apply Triple.bind Triple.ask
      intro read own he
      subst he
      apply Triple.ite
      · intro _
        exact closed_opens (close_eq _) (howned archive)
      intro _
      apply Triple.bind Triple.ask
      intro valid own he
      subst he
      apply Triple.ite
      · intro _
        exact closed_opens (close_eq _) (howned archive)
      intro _
      apply Triple.bind Triple.free
      intro _ own he
      subst he
      apply Triple.bind Triple.allocate
      intro archive own he
      subst he
      apply Triple.bind Triple.ask
      intro again own he
      subst he
      apply Triple.ite
      · intro _
        exact closed_opens (close_eq _) (howned archive)
      intro _
      apply Triple.pure
      refine ⟨?_, ?_, data, rfl, List.mem_cons_self⟩
      · apply (howned archive).trans
        apply List.perm_iff_count.mpr
        intro o
        simp only [footprint, Handle.owned, Option.toList_some, Option.toList_none, if_true,
          List.count_append, List.count_nil]
        omega
      · simp only [footprint, Handle.owned, Handle.refers, name_owned hname, if_true]
        intro o ho
        simp only [List.mem_append, List.mem_cons] at ho ⊢
        tauto

theorem clone_triple (source : Handle) :
    Triple [] (clone source) (Clones footprint source) := by
  apply Triple.bind Triple.tryAllocate
  intro address own he
  subst he
  cases address with
  | none => exact Triple.pure rfl
  | some address =>
    apply Triple.bind (stringCopyMalloc_triple _ _)
    intro archivePath own he
    subst he
    apply Triple.bind Triple.allocate
    intro archive own he
    subst he
    apply Triple.bind Triple.ask
    intro read own he
    subst he
    apply Triple.ite
    · intro _
      exact closed_clones (close_eq _) (List.Perm.refl _)
    · intro _
      apply Triple.pure
      refine ⟨List.Perm.refl _, rfl, ?_⟩
      simp only [footprint, Handle.owned, Handle.refers, Handle.shared]
      intro o ho
      simp only [List.mem_append, List.mem_cons] at ho ⊢
      tauto

end LibArchive

/-! ## lhasa -/

namespace Lhasa

/-- Bytes 2 to 6 are `-lh?-` or `-lz?-`. -/
def isLhaArchiveData (data : Bytes) : Bool :=
  decide (7 ≤ data.length) && data[2]? = some 45 && data[3]? = some 108 &&
    (data[4]? = some 104 || data[4]? = some 122) && data[6]? = some 45

/-- `LhasaHandle`, of an archive in memory. -/
structure Handle where
  address : ObjectId
  archivePath : HeapString
  memoryBuffer : ObjectId
  memorySize : ℕ
  ownsMemory : Bool := false
  memStream : Option ObjectId := none
  stream : Option ObjectId := none
  reader : Option ObjectId := none
  cacheArena : Option ObjectId := none

/-- Whether it succeeded, and what became of the handle. -/
def lhasaOpenFromMemory (handle : Handle) : HeapM (Bool × Handle) := do
  if handle.memorySize = 0 then return (false, handle)
  else
    match ← tryAllocate with
    | none => return (false, handle)
    | some memStream =>
        match ← tryAllocate with
        | none =>
            free memStream
            return (false, handle)
        | some input =>
            match ← tryAllocate with
            | none =>
                free input
                free memStream
                return (false, handle)
            | some reader =>
                return (true,
                  { handle with memStream := some memStream, stream := some input
                                reader := some reader })

def close (handle : Handle) : HeapM Unit := do
  freeOptional handle.reader
  freeOptional handle.stream
  freeOptional handle.memStream
  freeOptional handle.cacheArena
  stringFree handle.archivePath
  if handle.ownsMemory then free handle.memoryBuffer
  free handle.address

def openMemory (data : Option ObjectId) (file : MemoryFile) : HeapM (Option Handle) :=
  match data with
  | none => return none
  | some data => do
      if file.bytes.length = 0 then return none
      else if ¬ isLhaArchiveData file.bytes then return none
      else
        match ← tryAllocate with
        | none => return none
        | some address =>
            let archivePath ← stringCopyMalloc file.originalPath
            let handle : Handle :=
              { address, archivePath, memoryBuffer := data, memorySize := file.bytes.length }
            let opened ← lhasaOpenFromMemory handle
            if ¬ opened.1 then
              close opened.2
              return none
            else return some { opened.2 with ownsMemory := true }

def clone (source : Handle) : HeapM (Option Handle) := do
  match ← tryAllocate with
  | none => return none
  | some address =>
      let archivePath ← stringCopyMalloc source.archivePath.text
      let handle : Handle :=
        { address, archivePath, memoryBuffer := source.memoryBuffer
          memorySize := source.memorySize }
      let opened ← lhasaOpenFromMemory handle
      if ¬ opened.1 then
        close opened.2
        return none
      else return some opened.2

/-! ### What the handles own -/

/-- What `close` frees. -/
def Handle.owned (handle : Handle) : List ObjectId :=
  handle.reader.toList ++ (handle.stream.toList ++ (handle.memStream.toList ++
    (handle.cacheArena.toList ++ (handle.archivePath.storage.toList ++
      ((if handle.ownsMemory then [handle.memoryBuffer] else []) ++ [handle.address])))))

/-- What a clone of the handle refers to as well. -/
def Handle.shared (handle : Handle) : List ObjectId := [handle.memoryBuffer]

def Handle.refers (handle : Handle) : List ObjectId :=
  handle.address :: handle.memoryBuffer :: (handle.archivePath.storage.toList ++
    (handle.memStream.toList ++ (handle.stream.toList ++
      (handle.reader.toList ++ handle.cacheArena.toList))))

def footprint : Footprint Handle := ⟨Handle.owned, Handle.shared, Handle.refers⟩

theorem close_eq (handle : Handle) : close handle = freeAll handle.owned := by
  simp only [Handle.owned, freeAll_append, freeAll_optional, freeAll_singleton]
  unfold close stringFree
  split_ifs <;> simp [freeAll_singleton]

/-- The reader and the streams under it are made together, or none of them is left. -/
theorem lhasaOpenFromMemory_triple (handle : Handle) (own : List ObjectId) :
    Triple own (lhasaOpenFromMemory handle) (fun r own' =>
      (r = (false, handle) ∧ own' = own) ∨
        ∃ memStream input reader,
          r = (true, { handle with memStream := some memStream, stream := some input
                                   reader := some reader }) ∧
            own' = reader :: input :: memStream :: own) := by
  apply Triple.ite
  · intro _
    exact Triple.pure (.inl ⟨rfl, rfl⟩)
  intro _
  apply Triple.bind Triple.tryAllocate
  intro memStream own' he
  subst he
  cases memStream with
  | none => exact Triple.pure (.inl ⟨rfl, rfl⟩)
  | some memStream =>
    apply Triple.bind Triple.tryAllocate
    intro input own' he
    subst he
    cases input with
    | none =>
      apply Triple.bind Triple.free
      intro _ own' he
      exact Triple.pure (.inl ⟨rfl, he⟩)
    | some input =>
      apply Triple.bind Triple.tryAllocate
      intro reader own' he
      subst he
      cases reader with
      | none =>
        apply Triple.bind Triple.free
        intro _ own' he
        subst he
        apply Triple.bind Triple.free
        intro _ own' he
        exact Triple.pure (.inl ⟨rfl, he⟩)
      | some reader => exact Triple.pure (.inr ⟨memStream, input, reader, rfl, rfl⟩)

theorem openMemory_triple (data : Option ObjectId) (file : MemoryFile) :
    Triple data.toList (openMemory data file) (Opens footprint data) := by
  cases data with
  | none => exact Triple.pure (List.Perm.refl _)
  | some data =>
    apply Triple.ite
    · intro _
      exact Triple.pure (List.Perm.refl _)
    intro _
    apply Triple.ite
    · intro _
      exact Triple.pure (List.Perm.refl _)
    intro _
    apply Triple.bind Triple.tryAllocate
    intro address own he
    subst he
    cases address with
    | none => exact Triple.pure (List.Perm.refl _)
    | some address =>
      apply Triple.bind (stringCopyMalloc_triple _ _)
      intro archivePath own he
      subst he
      apply Triple.bind (lhasaOpenFromMemory_triple _ _)
      rintro opened own (⟨hr, he⟩ | ⟨memStream, input, reader, hr, he⟩)
      · subst hr he
        apply closed_opens (close_eq _)
        simp [footprint, Handle.owned]
      · subst hr he
        apply Triple.pure
        refine ⟨?_, ?_, data, rfl, List.mem_cons_self⟩
        · apply List.perm_iff_count.mpr
          intro o
          simp only [footprint, Handle.owned, Option.toList_some, Option.toList_none, if_true,
            List.count_append, List.count_cons, List.count_nil]
          omega
        · simp only [footprint, Handle.owned, Handle.refers, if_true]
          intro o ho
          simp only [List.mem_append, List.mem_cons] at ho ⊢
          tauto

theorem clone_triple (source : Handle) :
    Triple [] (clone source) (Clones footprint source) := by
  apply Triple.bind Triple.tryAllocate
  intro address own he
  subst he
  cases address with
  | none => exact Triple.pure rfl
  | some address =>
    apply Triple.bind (stringCopyMalloc_triple _ _)
    intro archivePath own he
    subst he
    apply Triple.bind (lhasaOpenFromMemory_triple _ _)
    rintro opened own (⟨hr, he⟩ | ⟨memStream, input, reader, hr, he⟩)
    · subst hr he
      exact closed_clones (close_eq _) (List.Perm.refl _)
    · subst hr he
      apply Triple.pure
      refine ⟨List.Perm.refl _, rfl, ?_⟩
      simp only [footprint, Handle.owned, Handle.refers, Handle.shared]
      intro o ho
      simp only [List.mem_append, List.mem_cons] at ho ⊢
      tauto

end Lhasa

/-! ## unlzx -/

namespace Unlzx

/-- `LZX`, and room for the rest of the header. -/
def isLzxArchiveData (data : Bytes) : Bool :=
  decide (10 ≤ data.length) && data[0]? = some 76 && data[1]? = some 90 && data[2]? = some 88

/-- `UnlzxHandle`, of an archive in memory. -/
structure Handle where
  address : ObjectId
  archivePath : HeapString
  memoryBuffer : ObjectId
  memorySize : ℕ
  ownsMemory : Bool := false
  ownsArchive : Bool
  archive : Option ObjectId
  cacheArena : Option ObjectId := none
  stream : Option ObjectId := none

def close (handle : Handle) : HeapM Unit := do
  if handle.ownsArchive then freeOptional handle.archive
  freeOptional handle.cacheArena
  freeOptional handle.stream
  stringFree handle.archivePath
  if handle.ownsMemory then free handle.memoryBuffer
  free handle.address

def openMemory (data : Option ObjectId) (file : MemoryFile) : HeapM (Option Handle) :=
  match data with
  | none => return none
  | some data => do
      if file.bytes.length = 0 then return none
      else if ¬ isLzxArchiveData file.bytes then return none
      else
        match ← tryAllocate with
        | none => return none
        | some address =>
            let archivePath ← stringCopyMalloc file.originalPath
            -- unlzx_open_memory
            let archive ← tryAllocate
            let handle : Handle :=
              { address, archivePath, memoryBuffer := data, memorySize := file.bytes.length
                ownsArchive := true, archive }
            if archive.isNone then
              close handle
              return none
            else return some { handle with ownsMemory := true }

def clone (source : Handle) : HeapM (Option Handle) := do
  match ← tryAllocate with
  | none => return none
  | some address =>
      let archivePath ← stringCopyMalloc source.archivePath.text
      let archive ← tryAllocate
      let handle : Handle :=
        { address, archivePath, memoryBuffer := source.memoryBuffer
          memorySize := source.memorySize, ownsArchive := true, archive }
      if archive.isNone then
        close handle
        return none
      else return some handle

/-! ### What the handles own -/

/-- What `close` frees. -/
def Handle.owned (handle : Handle) : List ObjectId :=
  (if handle.ownsArchive then handle.archive.toList else []) ++ (handle.cacheArena.toList ++
    (handle.stream.toList ++ (handle.archivePath.storage.toList ++
      ((if handle.ownsMemory then [handle.memoryBuffer] else []) ++ [handle.address]))))

/-- What a clone of the handle refers to as well. -/
def Handle.shared (handle : Handle) : List ObjectId := [handle.memoryBuffer]

def Handle.refers (handle : Handle) : List ObjectId :=
  handle.address :: handle.memoryBuffer :: (handle.archivePath.storage.toList ++
    (handle.archive.toList ++ (handle.cacheArena.toList ++ handle.stream.toList)))

def footprint : Footprint Handle := ⟨Handle.owned, Handle.shared, Handle.refers⟩

theorem close_eq (handle : Handle) : close handle = freeAll handle.owned := by
  simp only [Handle.owned, freeAll_append, freeAll_optional, freeAll_singleton]
  unfold close stringFree
  split_ifs <;> simp [freeAll_optional, freeAll_singleton]

theorem openMemory_triple (data : Option ObjectId) (file : MemoryFile) :
    Triple data.toList (openMemory data file) (Opens footprint data) := by
  cases data with
  | none => exact Triple.pure (List.Perm.refl _)
  | some data =>
    apply Triple.ite
    · intro _
      exact Triple.pure (List.Perm.refl _)
    intro _
    apply Triple.ite
    · intro _
      exact Triple.pure (List.Perm.refl _)
    intro _
    apply Triple.bind Triple.tryAllocate
    intro address own he
    subst he
    cases address with
    | none => exact Triple.pure (List.Perm.refl _)
    | some address =>
      apply Triple.bind (stringCopyMalloc_triple _ _)
      intro archivePath own he
      subst he
      apply Triple.bind Triple.tryAllocate
      intro archive own he
      subst he
      apply Triple.ite
      · intro _
        apply closed_opens (close_eq _)
        simp [footprint, Handle.owned]
      · intro _
        apply Triple.pure
        refine ⟨?_, ?_, data, rfl, List.mem_cons_self⟩
        · apply List.perm_iff_count.mpr
          intro o
          simp only [footprint, Handle.owned, Option.toList_some, Option.toList_none, if_true,
            List.count_append, List.count_cons, List.count_nil]
          omega
        · simp only [footprint, Handle.owned, Handle.refers, if_true]
          intro o ho
          simp only [List.mem_append, List.mem_cons] at ho ⊢
          tauto

theorem clone_triple (source : Handle) :
    Triple [] (clone source) (Clones footprint source) := by
  apply Triple.bind Triple.tryAllocate
  intro address own he
  subst he
  cases address with
  | none => exact Triple.pure rfl
  | some address =>
    apply Triple.bind (stringCopyMalloc_triple _ _)
    intro archivePath own he
    subst he
    apply Triple.bind Triple.tryAllocate
    intro archive own he
    subst he
    apply Triple.ite
    · intro _
      exact closed_clones (close_eq _) (List.Perm.refl _)
    · intro _
      apply Triple.pure
      refine ⟨List.Perm.refl _, rfl, ?_⟩
      simp only [footprint, Handle.owned, Handle.refers, Handle.shared]
      intro o ho
      simp only [List.mem_append, List.mem_cons] at ho ⊢
      tauto

end Unlzx
end FlowiVfs.Memory
