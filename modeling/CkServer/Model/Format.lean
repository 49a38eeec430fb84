import CkServer.Library.Text

/-! # Formats of `printf` and `strftime` -/

namespace CkServer

open Text

/-- The format `%d`. -/
def printInt : ℤ → List UInt8
  | .ofNat n => decimal n
  | .negSucc n => ascii "-" ++ decimal (n + 1)

/-- The format `%4d` for the width 4: blanks in front of a shorter number. -/
def printWidth (width : ℕ) (n : ℤ) : List UInt8 :=
  List.replicate (width - (printInt n).length) (byte ' ') ++ printInt n

/-- The format `%02d` for the width 2: zeros between the sign and a shorter number. -/
def printZeros (width : ℕ) : ℤ → List UInt8
  | .ofNat n => List.replicate (width - (decimal n).length) (byte '0') ++ decimal n
  | .negSucc n =>
      ascii "-" ++ List.replicate (width - 1 - (decimal (n + 1)).length) (byte '0') ++
        decimal (n + 1)

/-- `snprintf` keeps one byte of the buffer for the terminating zero. -/
def snprintf (size : ℕ) (text : List UInt8) : List UInt8 := text.take (size - 1)

/-- The members of `struct tm` that are printed. -/
structure Tm where
  tm_year : ℤ
  tm_mon : ℤ
  tm_mday : ℤ
  tm_hour : ℤ
  tm_min : ℤ
  tm_sec : ℤ
  deriving DecidableEq

/-- `strftime` with `%Y-%m-%d`. -/
def strftime (tm : Tm) : List UInt8 :=
  printInt (tm.tm_year + 1900) ++ ascii "-" ++ printZeros 2 (tm.tm_mon + 1) ++ ascii "-" ++
    printZeros 2 tm.tm_mday

end CkServer
