import Mathlib.Algebra.Group.Int.Defs
import Mathlib.Data.Nat.Notation
import Mathlib.Logic.Function.Basic

/-! # Files that are appended to -/

namespace CkServer

abbrev FileName := List UInt8

/-- The contents of the files that are present, with the bytes in the buffers of open ones. -/
abbrev Disk := FileName → Option (List UInt8)

/-- A call of `fwrite_unlocked`: how many bytes it accepts, and whether `ferror` is set after it. -/
structure Fwrite where
  count : ℕ
  error : Bool

/-- `file_` is known by its name. -/
structure FileUtil where
  file_ : FileName
  writtenBytes_ : ℤ := 0

namespace FileUtil

/-- The constructor: `fopen` with the mode `a` creates the file if it is not present. -/
def new (file_name : FileName) (disk : Disk) : FileUtil × Disk :=
  ({ file_ := file_name },
    Function.update disk file_name (some ((disk file_name).getD [])))

/-- The loop of `append`: what the file accepts, and the last value of `writen`. It does not end
before the last call of `fwrite_unlocked`. -/
def write (data : List UInt8) : List Fwrite → ℕ → Option (List UInt8 × ℕ)
  | [], writen => if writen = data.length then some ([], writen) else none
  | w :: writes, writen =>
      if writen = data.length then some ([], writen)
      else
        let remain := data.length - writen
        let n := min w.count remain
        let accepted := (data.drop writen).take n
        if n ≠ remain ∧ w.error then some (accepted, writen)
        else (write data writes (writen + n)).map fun (rest, writen) => (accepted ++ rest, writen)

def append (f : FileUtil) (disk : Disk) (data : List UInt8) (writes : List Fwrite) :
    Option (FileUtil × Disk) := do
  let (accepted, writen) ← write data writes 0
  return ({ f with writtenBytes_ := f.writtenBytes_ + writen },
    Function.update disk f.file_ ((disk f.file_).map (· ++ accepted)))

end FileUtil

end CkServer
