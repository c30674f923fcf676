import Torrentkino.Shr.Config

/-!
# `shr/file.c`

What `lstat` reports about the files, and the functions that ask it.  The
content of the file system is a parameter of the web server: it does not write
files.
-/

namespace Torrentkino

open Memory

/-- The file types that are told apart. -/
inductive FileKind where
  | regular
  | directory
  | other
deriving DecidableEq, Repr

/-- A file.  Its size is a non-negative `off_t`. -/
structure Stat where
  kind : FileKind
  content : Bytes
  mtime : Int
  size_lt : content.length < 2 ^ 63

theorem Stat.size_nil : ([] : Bytes).length < 2 ^ 63 := by decide

/-- The files by path name. -/
abbrev Files := Bytes → Option Stat

section File

variable (files : Files)

/-- `file_isdir` -/
def fileIsdir (dirname : Bytes) : Bool :=
  (files dirname).any (·.kind = .directory)

/-- `file_isreg` -/
def fileIsreg (filename : Bytes) : Bool :=
  (files filename).any (·.kind = .regular)

/-- `file_size` -/
def fileSize (filename : Bytes) : Nat :=
  match files filename with
  | none => 0
  | some stat => stat.content.length

/-- `file_mod` -/
def fileMod (filename : Bytes) : Int :=
  match files filename with
  | none => -1
  | some stat => stat.mtime

end File

/-- A non-empty file exists. -/
theorem exists_of_fileSize_pos
    {files : Files} {filename : Bytes} (h : 0 < fileSize files filename) :
    ∃ stat, files filename = some stat ∧ stat.content.length = fileSize files filename := by
  rw [fileSize] at h ⊢
  cases hfile : files filename with
  | none =>
      rw [hfile] at h
      exact absurd h (Nat.lt_irrefl 0)
  | some stat =>
      exact ⟨stat, rfl, rfl⟩

end Torrentkino
