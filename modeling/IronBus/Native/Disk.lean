import IronBus.ForStd.Bytes
import IronBus.ForStd.NatMap
import IronBus.ForStd.Prog
import IronBus.Native.Error

/-!
# The filesystem

A directory of segment files, keyed by segment id, with the durability state a crash depends on:
how much of each file the last barrier covered, which directory entries were created or removed
since the directory was last synced. A script of faults decides which primitives fail; a failed
write may have reached the file in part.
-/

namespace IronBus

/-- A file: its current bytes, and how many leading bytes the last successful barrier covered
and nothing has touched since. -/
structure File where
  live : Bytes
  stable : Nat

namespace File

/-- Bytes written at a position; what a barrier had covered from there on is no longer covered. -/
def write (off : Nat) (buf : Bytes) (f : File) : File :=
  ⟨f.live.writeAt off buf, min f.stable off⟩

/-- A successful barrier. -/
def sync (f : File) : File := ⟨f.live, f.live.length⟩

end File

/-- The directory of a log. -/
structure Disk where
  files : NatMap File
  /-- Files created since the last directory sync. -/
  fresh : List Nat
  /-- Files removed since the last directory sync. -/
  gone : List (Nat × File)
  /-- The seek-by-time sidecars, by segment id. -/
  sidecars : NatMap Bytes
  /-- What becomes of the next primitives: success, or a failure that lets that many bytes of a
  write through. An exhausted script means success. -/
  faults : List (Option Nat)
  /-- Whether preallocating a file extends its logical length. -/
  preallocExtends : Bool

/-- A program over the directory. -/
abbrev DiskM := Prog Disk StorageError

namespace Disk

/-- An empty directory. -/
def empty (faults : List (Option Nat)) (ext : Bool) : Disk :=
  ⟨.empty, [], [], .empty, faults, ext⟩

/-- A primitive under the fault script. -/
def fallible {α : Type} (act : Disk → Except StorageError α × Disk)
    (onFault : Nat → Disk → Disk) : DiskM α :=
  .effect fun d =>
    match d.faults with
    | [] => act d
    | none :: rest => act { d with faults := rest }
    | some k :: rest => (.error (.io .other), onFault k { d with faults := rest })

/-- Changes one file, if it exists. -/
def updateFile (id : Nat) (f : File → File) (d : Disk) : Except StorageError Unit × Disk :=
  match d.files.get id with
  | none => (.error (.io .notFound), d)
  | some file => (.ok (), { d with files := d.files.insert id (f file) })

/-- Writes the whole buffer; a fault lets a strict part of it through. -/
def writeAllAt (id : Nat) (buf : Bytes) (off : Nat) : DiskM Unit :=
  fallible (updateFile id (File.write off buf)) fun k d =>
    (updateFile id (File.write off (buf.take (min k (buf.length - 1)))) d).2

/-- The data barrier. -/
def syncData (id : Nat) : DiskM Unit := fallible (updateFile id File.sync) fun _ d => d

end Disk

end IronBus
