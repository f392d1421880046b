import Eecs343.FileSystem.Cat
import Eecs343.FileSystem.Path

namespace Eecs343.FileSystem

open Bytes

abbrev Text := List (BitVec 8)

/-- What the operating system answers: a result, or the text for `errno`. `mmap` is given a name as well, for the
    descriptor that `open` returns for it. -/
structure Host where
  stat : CString → Except Text Nat
  openFile : CString → Except Text Unit
  mmap : CString → Nat → Except Text Image

/-- What `perror` prints. -/
def perror (s error : Text) : Text := s ++ literal ": " ++ error ++ literal "\n"

/-- `mmap_fs`; where it fails, it exits with 1 and this message. -/
def mmapFs (host : Host) (fsPath : CString) : Except Text Image := do
  let size ← (host.stat fsPath).mapError (perror (literal "stat"))
  (host.openFile fsPath).mapError (perror (literal "open"))
  (host.mmap fsPath size).mapError (perror (literal "mmap"))

structure Output where
  stdout : Text
  stderr : Text
  status : Nat
  deriving DecidableEq

def missing (path : CString) : Output := ⟨literal "cat: " ++ path.val ++ literal " does not exist\n", [], 1⟩

namespace Image

variable (fs : Image)

/-- What `main` prints about a file that it has not read to the end. -/
def truncation (program : CString) (inode : Nat) (copied : Copied) : Text :=
  if copied.bytesRead < fs.iSize inode then
    program.val ++ literal ": file uses indirect blocks. output was truncated!\n"
  else []

/-- `main` from `get_inode_by_path` on. `behind` stands in memory behind the path. -/
def cat (program filePath behind : CString) : Option Output :=
  (fs.getInodeByPath (filePath.afterFirst behind)).bind fun target =>
    if target = 0 then some (missing filePath)
    else (fs.readFile (fs.getInode target)).map fun copied =>
      ⟨written copied ++ fs.truncation program (fs.getInode target) copied, [], 0⟩

end Image

def main (host : Host) (behind : CString) : (argv : List CString) → Option Output
  | [program, fsPath, filePath] => match mmapFs host fsPath with
    | .ok fs => fs.cat program filePath behind
    | .error message => some ⟨[], message, 1⟩
  | _ => some ⟨literal "usage: ext2cat <filesystem_image> <path_within_filesystem>\n", [], 1⟩

end Eecs343.FileSystem
