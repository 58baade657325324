import Nxweb.Filters.FileCache

/-!
# A disk for the file cache

The system calls of the file cache on a file system in which no call fails for want of space. A name
refers to a file by its number, and a descriptor to a file and a position in it. The header of a cache
file is one record, so a file is that record, if it has been written, and the bytes behind it.

A file keeps its number when it is linked under a second name and the first one is removed, as
`fc_store_close` does.

## Main definitions

* `CacheDisk`: the names, the files and the descriptors;
* `cacheDiskSystem`, `cacheDiskLinks`: the system calls.

## Main results

* `CacheDisk.Writing.writeData`: what is written at the end of a file;
* `CacheDisk.Stored.openRead`: a file that has been written is found again.
-/

namespace Nxweb

open Lib

/-! ### Files and descriptors -/

/-- A file that may begin with the header of a cache file. -/
structure CacheDiskFile where
  header : Option FcFileHeader := none
  content : List UInt8 := []
  mtime : ℤ := 0
  deriving DecidableEq, Repr

/-- How many bytes the file has. -/
def CacheDiskFile.size (f : CacheDiskFile) : ℕ :=
  (if f.header.isSome then fcHeaderSize else 0) + f.content.length

/-- The names, the files by their numbers, and the file and the position of every open
descriptor. -/
structure CacheDisk where
  names : List UInt8 → Option ℕ := fun _ => none
  files : ℕ → CacheDiskFile := fun _ => {}
  opened : ℤ → Option (ℕ × ℕ) := fun _ => none
  nextFile : ℕ := 0
  nextFd : ℕ+ := 3
  now : ℤ := 0

namespace CacheDisk

/-- A descriptor for the start of a file. -/
def openFile (d : CacheDisk) (i : ℕ) : ℕ+ × CacheDisk :=
  (d.nextFd,
    { d with
      opened := Function.update d.opened (d.nextFd : ℕ) (some (i, 0))
      nextFd := d.nextFd + 1 })

/-- `open(path, O_RDONLY)`. -/
def openRead (path : List UInt8) (d : CacheDisk) : Option ℕ+ × CacheDisk :=
  match d.names path with
  | none => (none, d)
  | some i => ((d.openFile i).1, (d.openFile i).2)

/-- `open(path, O_WRONLY|O_CREAT|O_EXCL)`. -/
def openCreate (path : List UInt8) (d : CacheDisk) : Option ℕ+ × CacheDisk :=
  match d.names path with
  | some _ => (none, d)
  | none =>
    let i := d.nextFile
    let d := { d with
      names := Function.update d.names path (some i)
      files := Function.update d.files i {}
      nextFile := i + 1 }
    ((d.openFile i).1, (d.openFile i).2)

/-- `fstat`. -/
def fstat (fd : ℤ) (d : CacheDisk) : Option Stat :=
  (d.opened fd).map fun (i, _) =>
    { stIno := i, stMtime := (d.files i).mtime, stSize := (d.files i).size }

/-- A descriptor is moved. -/
def seek (fd : ℤ) (i pos : ℕ) (d : CacheDisk) : CacheDisk :=
  { d with opened := Function.update d.opened fd (some (i, pos)) }

/-- `lseek(fd, pos, SEEK_SET)`. -/
def lseek (fd : ℤ) (pos : ℕ) (d : CacheDisk) : Bool × CacheDisk :=
  match d.opened fd with
  | none => (false, d)
  | some (i, _) => (true, d.seek fd i pos)

/-- `read` of the header. -/
def readHeader (fd : ℤ) (d : CacheDisk) : Option FcFileHeader × CacheDisk :=
  match d.opened fd with
  | some (i, 0) => ((d.files i).header, d.seek fd i fcHeaderSize)
  | _ => (none, d)

/-- The bytes of a file from a position behind its header. -/
def bytesAt (d : CacheDisk) (i pos len : ℕ) : List UInt8 :=
  ((d.files i).content.drop (pos - fcHeaderSize)).take len

/-- `read` behind the header. -/
def readData (fd : ℤ) (len : ℕ) (d : CacheDisk) : Option (List UInt8) × CacheDisk :=
  match d.opened fd with
  | none => (none, d)
  | some (i, pos) =>
    let s := d.bytesAt i pos len
    (if s.length = len then some s else none, d.seek fd i (pos + s.length))

/-- A file is changed, and the descriptor moved. -/
def change (fd : ℤ) (i pos : ℕ) (f : CacheDiskFile) (d : CacheDisk) : CacheDisk :=
  { d.seek fd i pos with files := Function.update d.files i f }

/-- `write` of the header, at the start of a file. -/
def writeHeader (fd : ℤ) (hdr : FcFileHeader) (d : CacheDisk) : Bool × CacheDisk :=
  match d.opened fd with
  | some (i, 0) => (true, d.change fd i fcHeaderSize { d.files i with header := some hdr })
  | _ => (false, d)

/-- `write` behind the header. -/
def writeData (fd : ℤ) (s : List UInt8) (d : CacheDisk) : Bool × CacheDisk :=
  match d.opened fd with
  | none => (false, d)
  | some (i, pos) =>
    let old := (d.files i).content
    let n := pos - fcHeaderSize
    (true, d.change fd i (pos + s.length)
      { d.files i with content := old.take n ++ s ++ old.drop (n + s.length) })

/-- `close`. -/
def close (fd : ℤ) (d : CacheDisk) : CacheDisk :=
  { d with opened := Function.update d.opened fd none }

/-- `unlink`. -/
def unlink (path : List UInt8) (d : CacheDisk) : CacheDisk :=
  { d with names := Function.update d.names path none }

/-- `link`. -/
def link (oldPath newPath : List UInt8) (d : CacheDisk) : Bool × CacheDisk :=
  match d.names oldPath, d.names newPath with
  | some i, none => (true, { d with names := Function.update d.names newPath (some i) })
  | _, _ => (false, d)

/-- The times of a file are set. -/
def touch (i : ℕ) (time : ℤ) (d : CacheDisk) : CacheDisk :=
  { d with files := Function.update d.files i { d.files i with mtime := time } }

/-- `utime`. -/
def utime (path : List UInt8) (time : ℤ) (d : CacheDisk) : CacheDisk :=
  (d.names path).elim d fun i => d.touch i time

/-- `futimes`. -/
def futimes (fd : ℤ) (time : ℤ) (d : CacheDisk) : CacheDisk :=
  (d.opened fd).elim d fun (i, _) => d.touch i time

end CacheDisk

/-- The system calls of the file cache. -/
def cacheDiskSystem (server : ServerEnv) : FileCacheSystem CacheDisk where
  openRead := CacheDisk.openRead
  openCreate := CacheDisk.openCreate
  fstat := CacheDisk.fstat
  lseek := CacheDisk.lseek
  readHeader := CacheDisk.readHeader
  readData := CacheDisk.readData
  writeHeader := CacheDisk.writeHeader
  writeData := CacheDisk.writeData
  close := CacheDisk.close
  unlink := CacheDisk.unlink
  utime := CacheDisk.utime
  mkpath _ d := (true, d)
  currentHttpTime := CacheDisk.now
  connectDataIn := id
  server := server

/-- The calls of `fc_store_close`. -/
def cacheDiskLinks : FileCacheLinks CacheDisk where
  futimes := CacheDisk.futimes
  link := CacheDisk.link

/-! ### Writing a file -/

namespace CacheDisk

variable {d : CacheDisk} {fd : ℤ} {i : ℕ} {hdr : FcFileHeader} {content : List UInt8}

/-- A cache file is being written: the descriptor is behind its last byte. -/
structure Writing (d : CacheDisk) (fd : ℤ) (i : ℕ) (hdr : FcFileHeader) (content : List UInt8) :
    Prop where
  opened : d.opened fd = some (i, fcHeaderSize + content.length)
  header : (d.files i).header = some hdr
  content : (d.files i).content = content

/-- A cache file has a name. -/
def Stored (d : CacheDisk) (path : List UInt8) (hdr : FcFileHeader) (content : List UInt8) : Prop :=
  ∃ i, d.names path = some i ∧ (d.files i).header = some hdr ∧ (d.files i).content = content

/-- A file that does not exist is created. -/
theorem openCreate_of_free {path : List UInt8} (h : d.names path = none) :
    ∃ (fd : ℕ+) (d' : CacheDisk), d.openCreate path = (some fd, d') ∧
      d'.names path = some d.nextFile ∧ d'.opened (fd : ℕ) = some (d.nextFile, 0) ∧
      d'.files d.nextFile = {} := by
  let d₁ := { d with
    names := Function.update d.names path (some d.nextFile)
    files := Function.update d.files d.nextFile {}
    nextFile := d.nextFile + 1 }
  refine ⟨d.nextFd, (d₁.openFile d.nextFile).2, ?_, ?_, ?_, ?_⟩
  · rw [openCreate, h]
    rfl
  all_goals simp [d₁, openFile]

theorem writeHeader_of_new (hopened : d.opened fd = some (i, 0)) (hfile : d.files i = {})
    (hdr : FcFileHeader) :
    ∃ d', d.writeHeader fd hdr = (true, d') ∧ d'.Writing fd i hdr [] ∧ d'.names = d.names := by
  refine ⟨d.change fd i fcHeaderSize { d.files i with header := some hdr },
    by simp [writeHeader, hopened], ⟨?_, ?_, ?_⟩, rfl⟩
  all_goals simp [change, seek, hfile]

/-- What is written comes behind what has been written before. -/
theorem Writing.writeData (h : d.Writing fd i hdr content) (s : List UInt8) :
    ∃ d', d.writeData fd s = (true, d') ∧ d'.Writing fd i hdr (content ++ s) ∧
      d'.names = d.names := by
  refine ⟨d.change fd i (fcHeaderSize + content.length + s.length)
    { d.files i with content := content ++ s }, ?_, ⟨?_, ?_, ?_⟩, rfl⟩
  · have hend : content.drop (content.length + s.length) = [] :=
      List.drop_of_length_le (Nat.le_add_right _ _)
    simp [CacheDisk.writeData, h.opened, h.content, hend]
  · simp [change, seek, Nat.add_assoc]
  · simp [change, seek, h.header]
  · simp [change, seek]

/-! ### Reading a file -/

/-- A file is opened for reading. -/
theorem Stored.openRead {path : List UInt8} (h : d.Stored path hdr content) :
    ∃ (fd : ℕ+) (d' : CacheDisk) (i : ℕ), d.openRead path = (some fd, d') ∧
      d'.opened (fd : ℕ) = some (i, 0) ∧ (d'.files i).header = some hdr ∧
      (d'.files i).content = content := by
  obtain ⟨i, hname, hheader, hcontent⟩ := h
  refine ⟨d.nextFd, (d.openFile i).2, i, ?_, ?_, hheader, hcontent⟩
  · rw [CacheDisk.openRead, hname]
    rfl
  · simp [openFile]

/-- A file that begins with a header is as long as it and what follows. -/
theorem size_of_header {f : CacheDiskFile} (h : f.header = some hdr) :
    f.size = fcHeaderSize + f.content.length := by
  simp [CacheDiskFile.size, h]

/-- The header is read at the start of a file. -/
theorem readHeader_of_start (hopened : d.opened fd = some (i, 0)) :
    ∃ d', d.readHeader fd = ((d.files i).header, d') ∧
      d'.opened fd = some (i, fcHeaderSize) ∧ d'.files = d.files := by
  refine ⟨d.seek fd i fcHeaderSize, by simp [readHeader, hopened], ?_, rfl⟩
  simp [seek]

/-- Bytes are read if there are so many. -/
theorem readData_of_opened {pos len : ℕ} (hopened : d.opened fd = some (i, pos))
    (hlen : (d.bytesAt i pos len).length = len) :
    ∃ d', d.readData fd len = (some (d.bytesAt i pos len), d') ∧
      d'.opened fd = some (i, pos + len) ∧ d'.files = d.files := by
  refine ⟨d.seek fd i (pos + len), ?_, ?_, rfl⟩
  · simp [readData, hopened, hlen]
  · simp [seek]

end CacheDisk

end Nxweb
