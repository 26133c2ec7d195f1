/-
`read_direct` (`src/scanner/native.rs`): one directory's own entries, read again with the walk's
rules, for a live re-read.
-/
import StorageHarvester.Scan.Finish

namespace StorageHarvester

structure Subdir where
  name : Bytes
  ino : Nat
  blocks : Nat
  apparent : Nat
  mtime : Int
  deriving DecidableEq, Repr

/-- The directory's own inode. -/
structure Own where
  blocks : Nat
  apparent : Nat
  mtime : Int
  deriving DecidableEq, Repr

/-- A multiply linked entry: its inode and size. -/
structure ListedLink where
  inode : Inode
  blocks : Nat
  apparent : Nat
  deriving DecidableEq, Repr

structure Listing where
  /-- Every entry counted; sizes of subdirectories' inodes and of singly linked entries. -/
  direct : Tally := {}
  /-- Subdirectories, sorted by name. -/
  subdirs : List Subdir := []
  links : List ListedLink := []
  /-- Keys of the singly linked files, when asked for. -/
  plain : List Nat := []
  own : Own
  /-- The newest modification time read, the directory's own included, in nanoseconds. -/
  newest : Int
  deriving DecidableEq, Repr

namespace Listing

/-- One entry of the loop. -/
def readEntry (target : Target) (displayPath : Bytes) (rootDev : Nat) (recordPlain : Bool) (l : Listing) (e : Entry) : Listing :=
  if Walk.isDot e.name then l
  else if !target.exclude.isEmpty && target.exclude.isMatch (pushComponent displayPath e.name) then l
  else match e.stat with
    | .error _ => l
    | .ok stat =>
      if target.noCrossFilesystem && stat.dev ≠ rootDev then l
      else
        let l := { l with newest := max l.newest stat.mtime }
        match stat.kind with
        | .directory =>
          { l with
            direct := { l.direct with dirs := l.direct.dirs + 1 }.addSize stat.blocks stat.size
            subdirs := l.subdirs ++ [{ name := e.name, ino := stat.ino, blocks := stat.blocks, apparent := stat.size, mtime := stat.mtime }] }
        | kind =>
          let direct := match kind with
            | .symlink => { l.direct with symlinks := l.direct.symlinks + 1 }
            | _ => { l.direct with files := l.direct.files + 1 }
          if 1 < stat.nlink then
            { l with
              direct := direct
              links := l.links ++ [{ inode := (stat.dev, stat.ino), blocks := stat.blocks, apparent := stat.size }] }
          else
            { l with
              direct := direct.addSize stat.blocks stat.size
              plain := if recordPlain && stat.kind = .file then l.plain ++ [plainKey stat.dev stat.ino] else l.plain }

/-- An error that is no error of the operating system's. -/
def invalidInput : Errno := .other 0

/-- What opening the directory at a path, `stat`ing it and reading it answers. -/
abbrev Opened := Except Errno (Stat × Reading)

def readDirect (target : Target) (scanPath displayPath : Bytes) (rootDev : Nat) (recordPlain : Bool) (opened : Opened) :
    Except Errno Listing :=
  if 0 ∈ scanPath then .error invalidInput
  else match opened with
    | .error error => .error error
    | .ok (own, reading) => match reading.fail with
      | some error => .error error
      | none =>
        let start : Listing := { own := ⟨own.blocks, own.size, own.mtime⟩, newest := own.mtime }
        let l := reading.entries.foldl (readEntry target displayPath rootDev recordPlain) start
        .ok { l with subdirs := l.subdirs.insertionSort fun a b => nameLe a.name b.name = true }

end Listing

end StorageHarvester
