import FlowiVfs.DriverReads
import FlowiVfs.Transition

/-!
# Continued reads of one handle

On one handle there are `get_size` calls, reads with a path and reads without one, in any
order. The contract is that the latter, put together, are a prefix of the opened file, and
that each of the others reads its own file from the start. LocalFS keeps it unless the
system fails in the middle of a read, lhasa unless a named read comes between two others,
libarchive only without named reads, and unlzx always.
-/
namespace FlowiVfs.Reads

open Ordered Transition Archive
open FlowiVfs.Tree (FlString Bytes)

/-- One call on the handle, with what happens where it opens something. The buffer is what
the caller's memory holds before. -/
inductive Call
  | getSize (path : FlString) (answer : Answer)
  | read (path : FlString) (size : ℤ) (buffer : Bytes) (answer : Answer)

/-- A file that a driver has opened for reading. -/
structure OpenedFile where
  Handle : Type
  start : Handle
  getSize : Handle → FlString → Answer → SizeResult × Handle
  read : Handle → FlString → ℤ → Bytes → Answer → ReadResult × Handle
  content : Bytes
  /-- The bytes of the file that a path names from the handle, if there is one. -/
  named : FlString → Bytes
  /-- Calls that the driver is up to, given the bytes that reads have continued over. -/
  Spares : Handle → Bytes → Call → Prop

structure Session (H : Type) where
  handle : H
  /-- What the reads without a path have returned, put together. -/
  continued : Bytes := []
  /-- The paths of the other reads, with what each returned. -/
  named : List (FlString × Bytes) := []

def step (f : OpenedFile) (s : Session f.Handle) : Call → Option (Session f.Handle)
  | .getSize path answer => some { s with handle := (f.getSize s.handle path answer).2 }
  | .read path size buffer answer =>
      match f.read s.handle path size buffer answer with
      | (.error _, handle) => some { s with handle := handle }
      | (.ok bytes, handle) =>
          if path.length = 0 then
            some { s with handle := handle, continued := s.continued ++ bytes }
          else some { s with handle := handle, named := (path, bytes) :: s.named }

structure Contract (f : OpenedFile) (s : Session f.Handle) : Prop where
  continued : s.continued <+: f.content
  named : ∀ r ∈ s.named, r.2 <+: f.named r.1

/-! ## The drivers' files -/

section Files

variable {lib : EntryReader} (contents : lib.Contents)

/-- The data of the entry with some index. -/
def entryContent (index : Option ℕ) : Bytes := (index.map contents.content).getD []

def LibArchive.opened (file : LibArchive.File lib) : OpenedFile where
  Handle := LibArchive.File lib
  start := file
  getSize := LibArchive.getSize
  read handle path size _ answer := LibArchive.read handle path size answer
  content := entryContent contents (entryIndex file.handle file.handle.targetPath)
  named path := entryContent contents (entryIndex file.handle path)
  Spares _ _
    | .read path size _ _ => path.length = 0 ∨ sizeT size = 0
    | .getSize .. => True

def Lhasa.opened (file : Lhasa.File lib) : OpenedFile where
  Handle := Lhasa.File lib
  start := file
  getSize := Lhasa.getSize
  read handle path size _ answer := Lhasa.read handle path size answer
  content := entryContent contents (entryIndex file.handle file.handle.targetPath)
  named path := entryContent contents (entryIndex file.handle path)
  Spares handle continued
    | .read path size _ _ => path.length = 0 → 0 ≤ size → handle.positioned ∨ continued = []
    | .getSize .. => True

def Unlzx.opened (file : Unlzx.File lib) : OpenedFile where
  Handle := Unlzx.File lib
  start := file
  getSize handle path _ := Unlzx.getSize handle path
  read := Unlzx.read
  content := entryContent contents
    (file.handle.archive.bind fun archive => entryIndex archive file.handle.targetPath)
  named path := entryContent contents
    (file.handle.archive.bind fun archive => entryIndex archive path)
  Spares _ _ _ := True

def LocalFs.opened {os : LocalFs.Os} (contents : os.Contents) (file : LocalFs.File os) :
    OpenedFile where
  Handle := LocalFs.File os
  start := file
  getSize handle path _ := LocalFs.getSize handle path
  read handle path size _ answer := LocalFs.read handle path size answer
  content := contents.content file.path
  named path := contents.content (os.pathMakeAbsolute file.path path)
  Spares handle _
    | .read path size _ _ => path.length = 0 →
        ∀ fd ∈ handle.fd, ¬ Interrupted os.fileReadFromHandleOs fd size.toNat
    | .getSize .. => True

end Files

/-- One of the four drivers has opened the file. -/
inductive FromDriver : OpenedFile → Prop
  | localFs {os : LocalFs.Os} (contents : os.Contents) (parent path : FlString)
      (answer : Answer) {file : LocalFs.File os}
      (opened : LocalFs.openFile os parent path answer = some file) (isFile : file.isDir = false) :
      FromDriver (LocalFs.opened contents file)
  | libarchive {lib : EntryReader} (contents : lib.Contents) (parent : LibArchiveHandle)
      (path : FlString) (answer : Answer) {file : LibArchive.File lib}
      (opened : LibArchive.openFile lib parent path answer = some file) :
      FromDriver (LibArchive.opened contents file)
  | lhasa {lib : EntryReader} (contents : lib.Contents) (parent : LhasaHandle)
      (path : FlString) (answer : Answer) {file : Lhasa.File lib}
      (opened : Lhasa.openFile lib parent path answer = some file) :
      FromDriver (Lhasa.opened contents file)
  | unlzx {lib : EntryReader} (contents : lib.Contents) (parent : UnlzxHandle)
      -- an extraction that succeeds has the size that the entry has
      (whole : ∀ archive ∈ parent.archive, ∀ i, ∀ entry ∈ archive[i]?, ∀ bytes,
        (lib.read (lib.start i) entry.unpackSize.toNat).1 = some bytes →
          bytes.length = entry.unpackSize.toNat)
      (path : FlString) (answer : Answer) {file : Unlzx.File lib}
      (opened : Unlzx.openFile lib parent path answer = some file) :
      FromDriver (Unlzx.opened contents file)

/-! ## Places of a handle -/

/-- A place that a handle keeps: where it stands, given what reads have continued over. -/
structure Keeps (f : OpenedFile) (Place : f.Handle → Bytes → Prop) : Prop where
  start : Place f.start []
  sound : ∀ h continued, Place h continued → continued <+: f.content
  getSize : ∀ h continued path answer, Place h continued →
    Place (f.getSize h path answer).2 continued
  continues : ∀ h continued path size buffer answer, Place h continued → path.length = 0 →
    f.Spares h continued (.read path size buffer answer) → ∀ r h',
      f.read h path size buffer answer = (r, h') →
        Place h' (continued ++ r.data)
  names : ∀ h continued path size buffer answer, Place h continued → path.length ≠ 0 →
    f.Spares h continued (.read path size buffer answer) → ∀ r h',
      f.read h path size buffer answer = (r, h') →
        Place h' continued ∧ r.data <+: f.named path

section Run

variable {f : OpenedFile} {Place : f.Handle → Bytes → Prop} {s s' : Session f.Handle}

theorem Keeps.step (hk : Keeps f Place) (call : Call) (hplace : Place s.handle s.continued)
    (hnamed : ∀ r ∈ s.named, r.2 <+: f.named r.1)
    (hspares : f.Spares s.handle s.continued call) (taken : step f s call = some s') :
    Place s'.handle s'.continued ∧ ∀ r ∈ s'.named, r.2 <+: f.named r.1 := by
  cases call with
  | getSize path answer =>
      cases taken
      exact ⟨hk.getSize _ _ path answer hplace, hnamed⟩
  | read path size buffer answer =>
      simp only [Reads.step] at taken
      cases hread : f.read s.handle path size buffer answer with
      | mk r handle =>
        rw [hread] at taken
        by_cases hpath : path.length = 0
        · have hnext := hk.continues _ _ _ _ _ _ hplace hpath hspares r handle hread
          cases r with
          | error failure =>
              cases taken
              exact ⟨List.append_nil s.continued ▸ hnext, hnamed⟩
          | ok bytes =>
              simp only [if_pos hpath] at taken
              cases taken
              exact ⟨hnext, hnamed⟩
        · obtain ⟨hnext, hbytes⟩ :=
            hk.names _ _ _ _ _ _ hplace hpath hspares r handle hread
          cases r with
          | error failure =>
              cases taken
              exact ⟨hnext, hnamed⟩
          | ok bytes =>
              simp only [if_neg hpath] at taken
              cases taken
              refine ⟨hnext, ?_⟩
              intro r hr
              rcases List.mem_cons.mp hr with hnew | hold
              · exact hnew ▸ hbytes
              · exact hnamed r hold

theorem Keeps.contract (hk : Keeps f Place)
    (run : Reaches (Reads.step f) (fun s => f.Spares s.handle s.continued) ⟨f.start, [], []⟩ s) :
    Contract f s := by
  have hinv : Place s.handle s.continued ∧ ∀ r ∈ s.named, r.2 <+: f.named r.1 := by
    apply run.invariant ⟨hk.start, fun _ h => absurd h List.not_mem_nil⟩
    intro t call u ht hspares taken
    exact hk.step call ht.1 ht.2 hspares taken
  exact ⟨hk.sound _ _ hinv.1, hinv.2⟩

end Run

/-! ## LocalFS -/

section LocalFs

variable {os : LocalFs.Os} (contents : os.Contents)

/-- The descriptor of the handle is behind what reads have continued over. -/
def LocalFs.Place (path : FlString) (h : LocalFs.File os) (continued : Bytes) : Prop :=
  h.path = path ∧ h.isDir = false ∧
    ∃ fd, h.fd = some fd ∧ continued ++ contents.remaining fd <+: contents.content path

theorem LocalFs.openOs_some {path : FlString} {answer : Answer} {fd : os.Descriptor}
    (h : LocalFs.openOs os path answer = some fd) : os.fileOpenOs path = some fd := by
  simp only [LocalFs.openOs] at h
  split at h
  · cases h
  · exact h

theorem LocalFs.keeps {parent path : FlString} {answer : Answer} {file : LocalFs.File os}
    (opened : LocalFs.openFile os parent path answer = some file) (isFile : file.isDir = false) :
    Keeps (LocalFs.opened contents file) (LocalFs.Place contents file.path) where
  start := by
    simp only [LocalFs.openFile] at opened
    split at opened
    · cases opened
    split at opened
    · cases opened
      cases isFile
    cases hfd : LocalFs.openOs os (os.pathMakeAbsolute parent path) answer with
    | none =>
        rw [hfd] at opened
        cases opened
    | some fd =>
        rw [hfd] at opened
        cases opened
        exact ⟨rfl, rfl, fd, rfl, contents.starts _ fd (LocalFs.openOs_some hfd)⟩
  sound h continued hplace := by
    obtain ⟨-, -, fd, -, hprefix⟩ := hplace
    exact (List.prefix_append _ _).trans hprefix
  getSize h continued path answer hplace := by
    have hsame : (LocalFs.getSize h path).2 = h := by
      simp only [LocalFs.getSize]
      repeat' split
      all_goals rfl
    exact hsame.symm ▸ hplace
  continues h continued path size buffer answer hplace hpath hspares r h' hread := by
    obtain ⟨hsame, hdir, fd, hfd, hprefix⟩ := hplace
    simp only [LocalFs.opened, LocalFs.read, hpath, ne_eq, not_true, if_false, hdir, hfd,
      Bool.false_eq_true] at hread
    split at hread
    · cases hread
      exact ⟨hsame, hdir, fd, hfd, by simpa using hprefix⟩
    cases hread
    refine ⟨hsame, rfl, _, rfl, ?_⟩
    have hordered := fill_ordered contents.ordered (hspares hpath fd hfd)
    rw [LocalFs.ofData_data, List.append_assoc]
    exact ((List.prefix_append_right_inj continued).mpr hordered).trans hprefix
  names h continued path size buffer answer hplace hpath hspares r h' hread := by
    simp only [LocalFs.opened, LocalFs.read, hpath, ne_eq, not_false_iff, if_true] at hread
    split at hread
    · cases hread
      exact ⟨hplace, List.nil_prefix⟩
    cases hfd : LocalFs.openOs os (os.pathMakeAbsolute h.path path) answer with
    | none =>
        rw [hfd] at hread
        cases hread
        exact ⟨hplace, List.nil_prefix⟩
    | some fd =>
        rw [hfd] at hread
        cases hread
        refine ⟨hplace, ?_⟩
        rw [LocalFs.ofData_data]
        have hstarts := contents.starts _ fd (LocalFs.openOs_some hfd)
        rw [hplace.1] at hstarts
        exact (fill_starts contents.ordered fd size.toNat).trans hstarts

end LocalFs

/-! ## libarchive -/

section LibArchive

variable {lib : EntryReader} (contents : lib.Contents)

/-- The archive of the handle is behind what reads have continued over. -/
def LibArchive.Place (handle : LibArchiveHandle) (h : LibArchive.File lib) (continued : Bytes) :
    Prop :=
  h.handle = handle ∧ ∃ archive, h.archive = some archive ∧
    continued ++ contents.remaining archive <+:
      entryContent contents (LibArchive.entryIndex handle handle.targetPath)

theorem LibArchive.openFile_some {parent : LibArchiveHandle} {path : FlString} {answer : Answer}
    {file : LibArchive.File lib} (opened : LibArchive.openFile lib parent path answer = some file) :
    file.handle.entryReady = true ∧ ∃ i, file.archive = some (lib.start i) ∧
      LibArchive.entryIndex file.handle file.handle.targetPath = some i := by
  simp only [LibArchive.openFile] at opened
  split at opened
  · cases opened
  split at opened
  · cases opened
  cases hindex : LibArchive.entryIndex parent path with
  | none =>
      rw [hindex] at opened
      cases opened
  | some i =>
      rw [hindex] at opened
      cases opened
      exact ⟨rfl, i, rfl, hindex⟩

theorem LibArchive.keeps {parent : LibArchiveHandle} {path : FlString} {answer : Answer}
    {file : LibArchive.File lib}
    (opened : LibArchive.openFile lib parent path answer = some file) :
    Keeps (LibArchive.opened contents file) (LibArchive.Place contents file.handle) where
  start := by
    obtain ⟨-, i, harchive, hindex⟩ := LibArchive.openFile_some opened
    refine ⟨rfl, _, harchive, ?_⟩
    rw [hindex]
    exact contents.starts i
  sound h continued hplace := by
    obtain ⟨-, archive, -, hprefix⟩ := hplace
    exact (List.prefix_append _ _).trans hprefix
  getSize h continued path answer hplace := by
    have hsame : (LibArchive.getSize h path answer).2 = h := by
      simp only [LibArchive.getSize]
      split <;> rfl
    exact hsame.symm ▸ hplace
  continues h continued path size buffer answer hplace hpath hspares r h' hread := by
    obtain ⟨hsame, archive, harchive, hprefix⟩ := hplace
    have hready : h.handle.entryReady = true := hsame ▸ (LibArchive.openFile_some opened).1
    simp only [LibArchive.opened, LibArchive.read, hready, harchive] at hread
    split at hread
    · cases hread
      exact ⟨hsame, archive, harchive, by simpa using hprefix⟩
    cases hread
    refine ⟨hsame, _, rfl, ?_⟩
    rw [LibArchive.ofData_data, List.append_assoc]
    have hdelivers := contents.ordered.delivers archive (sizeT size)
    exact ((List.prefix_append_right_inj continued).mpr hdelivers).trans hprefix
  names h continued path size buffer answer hplace hpath hspares r h' hread := by
    obtain ⟨hsame, archive, harchive, hprefix⟩ := hplace
    have hready : h.handle.entryReady = true := hsame ▸ (LibArchive.openFile_some opened).1
    have hsize : sizeT size = 0 := hspares.resolve_left hpath
    simp only [LibArchive.opened, LibArchive.read, hready, harchive, hsize] at hread
    split at hread
    · cases hread
      exact ⟨⟨hsame, archive, harchive, hprefix⟩, List.nil_prefix⟩
    cases hread
    have hnothing : (lib.read archive 0).1.getD [] = [] := by
      cases hdata : (lib.read archive 0).1 with
      | none => rfl
      | some bytes =>
          have hfits := contents.ordered.fits archive 0 bytes hdata
          exact List.length_eq_zero_iff.mp (Nat.le_zero.mp hfits)
    have hdelivers := contents.ordered.delivers archive 0
    rw [hnothing, List.nil_append] at hdelivers
    refine ⟨⟨hsame, _, rfl, ?_⟩, ?_⟩
    · exact ((List.prefix_append_right_inj continued).mpr hdelivers).trans hprefix
    · rw [LibArchive.ofData_data, hnothing]
      exact List.nil_prefix

end LibArchive

/-! ## lhasa -/

section Lhasa

variable {lib : EntryReader} (contents : lib.Contents)

/-- A reader that is positioned is behind what reads have continued over. -/
def Lhasa.Place (handle : LhasaHandle) (h : Lhasa.File lib) (continued : Bytes) : Prop :=
  h.handle = handle ∧
    continued <+: entryContent contents (Lhasa.entryIndex handle handle.targetPath) ∧
    (h.positioned = true → ∃ reader, h.reader = some reader ∧
      continued ++ contents.remaining reader <+:
        entryContent contents (Lhasa.entryIndex handle handle.targetPath))

theorem Lhasa.lhaReaderRead_ordered : InOrder (Lhasa.lhaReaderRead lib) contents.remaining where
  fits r n chunk hr := by
    cases hr
    cases hdata : (lib.read r n).1 with
    | none => exact Nat.zero_le n
    | some bytes => exact contents.ordered.fits r n bytes hdata
  delivers r n := contents.ordered.delivers r n

theorem Lhasa.not_interrupted {reader : lib.Position} {n : ℕ} :
    ¬ Interrupted (Lhasa.lhaReaderRead lib) reader n := by
  intro h
  induction h with
  | next delivered some more fails => cases fails
  | later delivered some more rest ih => exact ih

/-- Where an entry is found the reader is at its start. -/
theorem Lhasa.findLhaEntry_some {h h' : Lhasa.File lib} {target : FlString} {answer : Answer}
    {header : LhaHeader} (hfind : Lhasa.findLhaEntry h target answer = (some header, h')) :
    h'.handle = h.handle ∧ h'.positioned = h.positioned ∧
      ∃ i, Lhasa.entryIndex h.handle target = some i ∧ h'.reader = some (lib.start i) := by
  simp only [Lhasa.findLhaEntry] at hfind
  split at hfind
  · cases hfind
  split at hfind
  · cases hfind
  cases hindex : Lhasa.entryIndex h.handle target with
  | none =>
      rw [hindex] at hfind
      cases hfind
  | some i =>
      rw [hindex] at hfind
      obtain ⟨-, rfl⟩ := Prod.mk.inj hfind
      exact ⟨rfl, rfl, i, rfl, rfl⟩

theorem Lhasa.findLhaEntry_none {h h' : Lhasa.File lib} {target : FlString} {answer : Answer}
    (hfind : Lhasa.findLhaEntry h target answer = (none, h')) :
    h'.handle = h.handle ∧ h'.positioned = h.positioned := by
  simp only [Lhasa.findLhaEntry] at hfind
  split at hfind
  · cases hfind
    exact ⟨rfl, rfl⟩
  split at hfind
  · cases hfind
    exact ⟨rfl, rfl⟩
  split at hfind
  · cases hfind
    exact ⟨rfl, rfl⟩
  · obtain ⟨-, rfl⟩ := Prod.mk.inj hfind
    exact ⟨rfl, rfl⟩

/-- The loop reads on from where the reader is. -/
theorem Lhasa.readData_some {h h' : Lhasa.File lib} {reader : lib.Position} {size : ℤ}
    {r : ReadResult} (hreader : h.reader = some reader)
    (hread : Lhasa.readData h size = (r, h')) :
    h'.handle = h.handle ∧ h'.positioned = h.positioned ∧ ∃ reader', h'.reader = some reader' ∧
      r.data ++ contents.remaining reader' <+: contents.remaining reader := by
  simp only [Lhasa.readData, hreader] at hread
  cases hread
  refine ⟨rfl, rfl, _, rfl, ?_⟩
  exact fill_ordered (Lhasa.lhaReaderRead_ordered contents) Lhasa.not_interrupted

theorem Lhasa.readNext_place {handle : LhasaHandle} {h h' : Lhasa.File lib} {continued : Bytes}
    {size : ℤ} {answer : Answer} {r : ReadResult} (hplace : Lhasa.Place contents handle h continued)
    (hspares : h.positioned ∨ continued = [])
    (hread : Lhasa.readNext h size answer = (r, h')) :
    Lhasa.Place contents handle h' (continued ++ r.data) := by
  obtain ⟨hsame, hprefix, hposition⟩ := hplace
  have hreads : ∀ {g : Lhasa.File lib} {reader : lib.Position}, g.handle = handle →
      g.reader = some reader → continued ++ contents.remaining reader <+:
        entryContent contents (Lhasa.entryIndex handle handle.targetPath) →
      Lhasa.readData g size = (r, h') →
      Lhasa.Place contents handle h' (continued ++ r.data) := by
    intro g reader hg hreader hbefore hdata
    obtain ⟨hhandle, -, reader', hreader', hdelivers⟩ :=
      Lhasa.readData_some contents hreader hdata
    have hafter : continued ++ r.data ++ contents.remaining reader' <+:
        entryContent contents (Lhasa.entryIndex handle handle.targetPath) := by
      rw [List.append_assoc]
      exact ((List.prefix_append_right_inj continued).mpr hdelivers).trans hbefore
    exact ⟨hhandle.trans hg, (List.prefix_append _ _).trans hafter,
      fun _ => ⟨reader', hreader', hafter⟩⟩
  simp only [Lhasa.readNext] at hread
  split at hread
  · rename_i hpos
    obtain ⟨reader, hreader, hbefore⟩ := hposition hpos
    exact hreads hsame hreader hbefore hread
  rename_i hpos
  have hnothing : continued = [] := hspares.resolve_left hpos
  cases hfind : Lhasa.findLhaEntry h h.handle.targetPath answer with
  | mk header g =>
    rw [hfind] at hread
    cases header with
    | none =>
        cases hread
        obtain ⟨hhandle, hsamePos⟩ := Lhasa.findLhaEntry_none hfind
        refine ⟨hhandle.trans hsame, by simpa using hprefix, ?_⟩
        intro h
        exact absurd (hsamePos ▸ h) hpos
    | some header =>
        obtain ⟨hhandle, -, i, hindex, hreader⟩ := Lhasa.findLhaEntry_some hfind
        simp only at hread
        rw [hsame] at hindex
        have hbefore : continued ++ contents.remaining (lib.start i) <+:
            entryContent contents (Lhasa.entryIndex handle handle.targetPath) := by
          rw [hindex, hnothing]
          exact contents.starts i
        exact hreads (g := { g with positioned := true }) (hhandle.trans hsame) hreader hbefore
          hread

theorem Lhasa.keeps (file : Lhasa.File lib) (hpos : file.positioned = false) :
    Keeps (Lhasa.opened contents file) (Lhasa.Place contents file.handle) where
  start := ⟨rfl, List.nil_prefix, fun h => absurd (hpos.symm.trans h) Bool.false_ne_true⟩
  sound h continued hplace := hplace.2.1
  getSize h continued path answer hplace := by
    have hsame : (Lhasa.getSize h path answer).2 = h := by
      simp only [Lhasa.getSize]
      repeat' split
      all_goals rfl
    exact hsame.symm ▸ hplace
  continues h continued path size buffer answer hplace hpath hspares r h' hread := by
    simp only [Lhasa.opened, Lhasa.read, hpath, if_true] at hread
    split at hread
    · cases hread
      simpa using hplace
    split at hread
    · cases hread
      simpa using hplace
    · rename_i hsize
      exact Lhasa.readNext_place contents hplace (hspares hpath (Int.not_lt.mp hsize)) hread
  names h continued path size buffer answer hplace hpath hspares r h' hread := by
    have hresolve : resolveTargetPath h.handle.targetPath path = path := by
      rw [resolveTargetPath, if_pos (Nat.pos_of_ne_zero hpath)]
    simp only [Lhasa.opened, Lhasa.read, hresolve, hpath, if_false] at hread
    split at hread
    · cases hread
      exact ⟨hplace, List.nil_prefix⟩
    obtain ⟨hsame, hprefix, -⟩ := hplace
    cases hfind : Lhasa.findLhaEntry { h with positioned := false } path answer with
    | mk header g =>
      rw [hfind] at hread
      cases header with
      | none =>
          cases hread
          obtain ⟨hhandle, hunpos⟩ := Lhasa.findLhaEntry_none hfind
          exact ⟨⟨hhandle.trans hsame, hprefix, fun h => absurd (hunpos.symm.trans h)
            Bool.false_ne_true⟩, List.nil_prefix⟩
      | some header =>
          obtain ⟨hhandle, hunpos, i, hindex, hreader⟩ := Lhasa.findLhaEntry_some hfind
          simp only at hread
          split at hread
          · cases hread
            exact ⟨⟨hhandle.trans hsame, hprefix, fun h => absurd (hunpos.symm.trans h)
              Bool.false_ne_true⟩, List.nil_prefix⟩
          · obtain ⟨hhandle', hunpos', reader', -, hdelivers⟩ :=
              Lhasa.readData_some contents hreader hread
            refine ⟨⟨(hhandle'.trans hhandle).trans hsame, hprefix, ?_⟩, ?_⟩
            · intro h
              exact absurd ((hunpos'.trans hunpos).symm.trans h) Bool.false_ne_true
            · change r.data <+: entryContent contents (Lhasa.entryIndex file.handle path)
              simp only [hsame] at hindex
              rw [hindex]
              exact ((List.prefix_append _ _).trans hdelivers).trans (contents.starts i)

end Lhasa

/-! ## unlzx -/

section Unlzx

variable {lib : EntryReader} (contents : lib.Contents)

/-- The stream of the handle, once there is one, is behind what reads have continued over. -/
def Unlzx.Place (handle : UnlzxHandle) (content : Bytes) (h : Unlzx.File lib)
    (continued : Bytes) : Prop :=
  h.handle = handle ∧
    match h.stream with
    | none => continued = []
    | some stream => continued ++ contents.remaining stream <+: content

/-- An entry that is extracted in whole is its content from the start. -/
theorem Unlzx.extractEntry_prefix {i : ℕ} {entry : UnlzxEntry} {buffer : Bytes}
    (hwhole : ∀ bytes, (lib.read (lib.start i) entry.unpackSize.toNat).1 = some bytes →
      bytes.length = entry.unpackSize.toNat) :
    ((Unlzx.extractEntry lib i entry buffer).map (·.take entry.unpackSize.toNat)).getD [] <+:
      contents.content i := by
  cases hdata : lib.read (lib.start i) entry.unpackSize.toNat with
  | mk data p =>
    simp only [Unlzx.extractEntry, hdata]
    cases data with
    | none => exact List.nil_prefix
    | some bytes =>
        have hlength := hwhole bytes (by rw [hdata])
        have hdelivers := (contents.ordered.of_some hdata).2
        simp only [Option.map_some, Option.getD_some]
        rw [← hlength, List.take_left]
        exact ((List.prefix_append _ _).trans hdelivers).trans (contents.starts i)

/-- A read from a stream goes on behind the earlier ones. -/
theorem Unlzx.place_of_stream {handle : UnlzxHandle} {content : Bytes} {h : Unlzx.File lib}
    {continued : Bytes} {stream : lib.Position} (n : ℕ) (hsame : h.handle = handle)
    (hbefore : continued ++ contents.remaining stream <+: content) :
    Unlzx.Place contents handle content { h with stream := some (lib.read stream n).2 }
      (continued ++ (Unlzx.ofData (lib.read stream n).1).data) := by
  refine ⟨hsame, ?_⟩
  change continued ++ (Unlzx.ofData (lib.read stream n).1).data ++
    contents.remaining (lib.read stream n).2 <+: content
  rw [Unlzx.ofData_data, List.append_assoc]
  have hdelivers := contents.ordered.delivers stream n
  exact ((List.prefix_append_right_inj continued).mpr hdelivers).trans hbefore

theorem Unlzx.readNext_place {handle : UnlzxHandle} {archive : List UnlzxEntry}
    {h h' : Unlzx.File lib} {continued : Bytes} {size : ℤ} {answer : Answer} {r : ReadResult}
    (hplace : Unlzx.Place contents handle
      (entryContent contents (Unlzx.entryIndex archive handle.targetPath)) h continued)
    (hread : Unlzx.readNext h archive size answer = (r, h')) :
    Unlzx.Place contents handle
      (entryContent contents (Unlzx.entryIndex archive handle.targetPath)) h'
      (continued ++ r.data) := by
  have hkept := hplace
  obtain ⟨hsame, hposition⟩ := hplace
  subst hsame
  simp only [Unlzx.readNext] at hread
  cases hstream : h.stream with
  | some stream =>
      rw [hstream] at hread hposition
      cases hread
      exact Unlzx.place_of_stream contents size.toNat rfl hposition
  | none =>
      rw [hstream] at hread hposition
      cases hindex : Unlzx.entryIndex archive h.handle.targetPath with
      | none =>
          rw [hindex] at hread
          cases hread
          simpa [hindex] using hkept
      | some i =>
          rw [hindex] at hread hkept
          have hbefore : continued ++ contents.remaining (lib.start i) <+:
              entryContent contents (some i) := by
            simp only at hposition
            rw [hposition]
            exact contents.starts i
          cases answer with
          | fine =>
              cases hread
              exact Unlzx.place_of_stream contents size.toNat rfl hbefore
          | noMemory =>
              cases hread
              simpa using hkept
          | refused =>
              cases hread
              simpa using hkept

theorem Unlzx.keeps {parent : UnlzxHandle} {path : FlString} {answer : Answer}
    {file : Unlzx.File lib}
    (whole : ∀ archive ∈ parent.archive, ∀ i, ∀ entry ∈ archive[i]?, ∀ bytes,
      (lib.read (lib.start i) entry.unpackSize.toNat).1 = some bytes →
        bytes.length = entry.unpackSize.toNat)
    (opened : Unlzx.openFile lib parent path answer = some file) :
    Keeps (Unlzx.opened contents file)
      (Unlzx.Place contents file.handle (Unlzx.opened contents file).content) := by
  have hfile : file.handle.archive = parent.archive ∧ file.stream = none := by
    simp only [Unlzx.openFile] at opened
    split at opened
    · cases opened
    · cases opened
      exact ⟨rfl, rfl⟩
  refine ⟨⟨rfl, ?_⟩, ?_, ?_, ?_, ?_⟩
  · change match file.stream with
      | none => ([] : Bytes) = []
      | some stream => [] ++ contents.remaining stream <+: (Unlzx.opened contents file).content
    rw [hfile.2]
  · rintro h continued ⟨-, hplace⟩
    split at hplace
    · exact hplace ▸ List.nil_prefix
    · exact (List.prefix_append _ _).trans hplace
  · intro h continued path answer hplace
    exact hplace
  · intro h continued path size buffer answer hplace hpath hspares r h' hread
    simp only [Unlzx.opened, Unlzx.read, hpath, if_true] at hread
    split at hread
    · cases hread
      simpa using hplace
    rename_i archive harchive
    split at hread
    · cases hread
      simpa using hplace
    split at hread
    · cases hread
      simpa using hplace
    have hown : file.handle.archive = some archive := hplace.1 ▸ harchive
    have hcontent : (Unlzx.opened contents file).content =
        entryContent contents (Unlzx.entryIndex archive file.handle.targetPath) := by
      simp only [Unlzx.opened, hown, Option.bind_some]
    rw [hcontent] at hplace ⊢
    exact Unlzx.readNext_place contents hplace hread
  · intro h continued path size buffer answer hplace hpath hspares r h' hread
    have hresolve : resolveTargetPath h.handle.targetPath path = path := by
      rw [resolveTargetPath, if_pos (Nat.pos_of_ne_zero hpath)]
    simp only [Unlzx.opened, Unlzx.read, hresolve, hpath, if_false] at hread
    split at hread
    · cases hread
      exact ⟨hplace, List.nil_prefix⟩
    rename_i archive harchive
    split at hread
    · cases hread
      exact ⟨hplace, List.nil_prefix⟩
    cases hindex : Unlzx.entryIndex archive path with
    | none =>
        rw [hindex] at hread
        cases hread
        exact ⟨hplace, List.nil_prefix⟩
    | some i =>
        rw [hindex] at hread
        simp only at hread
        split at hread
        · cases hread
          exact ⟨hplace, List.nil_prefix⟩
        rename_i entry hentry
        split at hread
        · cases hread
          exact ⟨hplace, List.nil_prefix⟩
        cases hread
        refine ⟨hplace, ?_⟩
        have hown : file.handle.archive = some archive := hplace.1 ▸ harchive
        change _ <+: entryContent contents
          (file.handle.archive.bind fun archive => Unlzx.entryIndex archive path)
        rw [Unlzx.ofData_data, hown]
        simp only [Option.bind_some, hindex]
        exact Unlzx.extractEntry_prefix contents
          (whole archive (hfile.1 ▸ hown) i entry hentry)

end Unlzx

/-- As long as each call spares what the driver keeps, reads without a path continue and
reads with a path start from the beginning. -/
theorem reads_continue {f : OpenedFile} (driver : FromDriver f) {s : Session f.Handle}
    (run : Reaches (step f) (fun s => f.Spares s.handle s.continued) ⟨f.start, [], []⟩ s) :
    Contract f s := by
  cases driver with
  | localFs contents parent path answer opened isFile =>
      exact (LocalFs.keeps contents opened isFile).contract run
  | libarchive contents parent path answer opened =>
      exact (LibArchive.keeps contents opened).contract run
  | lhasa contents parent path answer opened =>
      simp only [Lhasa.openFile] at opened
      split at opened
      · cases opened
      · cases opened
        exact (Lhasa.keeps contents _ rfl).contract run
  | unlzx contents parent whole path answer opened =>
      exact (Unlzx.keeps contents whole opened).contract run

/-! ## Runs -/

/-- Entries that are read from memory. -/
def memoryReader (entries : List Bytes) : EntryReader where
  Position := Bytes
  start i := (entries[i]?).getD []
  read bytes n := (some (bytes.take n), bytes.drop n)

def memoryContents (entries : List Bytes) : (memoryReader entries).Contents where
  content i := (entries[i]?).getD []
  remaining bytes := bytes
  starts _ := List.prefix_rfl
  ordered :=
    { fits := fun bytes n chunk h => by
        cases h
        exact List.length_take_le n bytes
      delivers := fun bytes n => ⟨[], (List.append_nil _).trans (List.take_append_drop n bytes)⟩ }

/-- The files `a` and `b` of an archive. -/
def twoEntries : List Bytes := [[1, 2, 3], [9, 9]]

def twoEntriesLibarchive : LibArchiveHandle where
  entries := [⟨some ⟨['a'], by decide⟩, 3, false⟩, ⟨some ⟨['b'], by decide⟩, 2, false⟩]

def twoEntriesLhasa : LhasaHandle where
  memorySize := 1
  headers :=
    [ { path := none, filename := some ⟨['a'], by decide⟩, length := 3, compressMethod := [] },
      { path := none, filename := some ⟨['b'], by decide⟩, length := 2, compressMethod := [] } ]

/-- The file `a` is read in two pieces, with a look at the size of `b` in between. -/
theorem reads_continue_lhasa :
    ∃ file, Lhasa.openFile (memoryReader twoEntries) twoEntriesLhasa ['a'] .fine = some file ∧
      ∃ s, s.continued = [1, 2, 3] ∧
        Contract (Lhasa.opened (memoryContents twoEntries) file) s :=
  ⟨_, rfl, _, rfl, reads_continue (.lhasa (memoryContents twoEntries) twoEntriesLhasa ['a'] .fine rfl)
    (.step (.read [] 2 [0, 0] .fine)
      (.step (.getSize ['b'] .fine)
        (.step (.read [] 1 [0, 0] .fine) .start (fun _ _ => .inr rfl) rfl) trivial rfl)
      (fun _ _ => .inl rfl) rfl)⟩

/-- Descriptors of one file whose reads are known beforehand: some fail. -/
def scriptedOs (script : List (Option Bytes)) : LocalFs.Os where
  Descriptor := List (Option Bytes)
  pathMakeAbsolute _ path := path
  fileStatOs _ := some ⟨false, 3⟩
  fileGetSizeOs _ := 3
  fileOpenOs _ := some script
  fileReadFromHandleOs
    | [], _ => (some [], [])
    | none :: rest, _ => (none, rest)
    | some chunk :: rest, n =>
        if chunk.length ≤ n then (some chunk, rest)
        else (some (chunk.take n), some (chunk.drop n) :: rest)

/-- What is read in whole if no read fails. -/
def scripted (script : List (Option Bytes)) : Bytes := script.flatMap (Option.getD · [])

def scriptedContents (script : List (Option Bytes)) : (scriptedOs script).Contents where
  content _ := scripted script
  remaining := scripted
  starts _ fd h := by
    cases h
    exact List.prefix_rfl
  ordered :=
    { fits := fun fd n chunk h => by
        match fd with
        | [] =>
            cases h
            exact Nat.zero_le n
        | none :: rest => cases h
        | some first :: rest =>
            simp only [scriptedOs] at h
            split at h
            · cases h
              assumption
            · cases h
              exact List.length_take_le n first
      delivers := fun fd n => by
        match fd with
        | [] => exact List.prefix_rfl
        | none :: rest => exact List.prefix_rfl
        | some first :: rest =>
            simp only [scriptedOs]
            split
            · exact List.prefix_rfl
            · change first.take n ++ (first.drop n ++ scripted rest) <+: first ++ scripted rest
              rw [← List.append_assoc, List.take_append_drop] }

/-- libarchive reads on in its own entry for another file's name; lhasa starts over after a
named read; LocalFS loses what it had when the system fails in the middle of a read. -/
theorem reads_disturbed :
    (∃ file, LibArchive.openFile (memoryReader twoEntries) twoEntriesLibarchive ['a'] .fine =
        some file ∧
      ∃ s, Reaches (step (LibArchive.opened (memoryContents twoEntries) file)) (fun _ _ => True)
        ⟨file, [], []⟩ s ∧ ¬ Contract (LibArchive.opened (memoryContents twoEntries) file) s) ∧
    (∃ file, Lhasa.openFile (memoryReader twoEntries) twoEntriesLhasa ['a'] .fine = some file ∧
      ∃ s, Reaches (step (Lhasa.opened (memoryContents twoEntries) file)) (fun _ _ => True)
        ⟨file, [], []⟩ s ∧ ¬ Contract (Lhasa.opened (memoryContents twoEntries) file) s) ∧
    ∃ file, LocalFs.openFile (scriptedOs [some [1], none, some [2, 3]]) [] ['a'] .fine =
        some file ∧
      ∃ s, Reaches (step (LocalFs.opened
          (scriptedContents [some [1], none, some [2, 3]]) file)) (fun _ _ => True)
        ⟨file, [], []⟩ s ∧ ¬ Contract (LocalFs.opened
          (scriptedContents [some [1], none, some [2, 3]]) file) s := by
  refine ⟨?_, ?_, ?_⟩
  · refine ⟨_, rfl, _, replay_reaches [.read ['b'] 2 [0, 0] .fine] rfl, fun h => ?_⟩
    exact absurd (h.named (['b'], [1, 2]) List.mem_cons_self) (by decide)
  · refine ⟨_, rfl, _, replay_reaches [.read [] 1 [0, 0] .fine, .read ['b'] 2 [0, 0] .fine,
      .read [] 1 [0, 0] .fine] rfl, fun h => ?_⟩
    exact absurd h.continued (by decide)
  · refine ⟨_, rfl, _, replay_reaches [.read [] 2 [0, 0] .fine, .read [] 2 [0, 0] .fine] rfl,
      fun h => ?_⟩
    exact absurd h.continued (by decide)

end FlowiVfs.Reads
