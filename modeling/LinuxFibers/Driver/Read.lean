import LinuxFibers.Base.Reader
import LinuxFibers.Driver.Proc

/-!
# Reading the file of a fiber

What `myread` does with the fibers it finds: it prints the statistics of each and copies what it printed.

* `copy_to_user` succeeds and writes from the start of the buffer, so that of several copies the last one stays.
* What the kernel prints for `%p` is a parameter, and so is the number that `%lu` finds where an `int` was passed.
-/

namespace LinuxFibers

open Reader

/-- `FIB_LOG_LEN`, the size of the array that is printed into. -/
def fibLogLen : Nat := 1024

structure Printer where
  pointer : BitVec 64 → List Char
  int : Int → BitVec 64

def Printer.decimal (n : BitVec 64) : List Char := Nat.toDigits 10 n.toNat

/-- The first line of the format. -/
def headline : List Char := "##FIBER STATISTICS##".toList

/-- What follows it: the text between the arguments, and the arguments. -/
def Printer.figures (P : Printer) (stat : FiberStat) : List (List Char) :=
  ["\n - This fiber is currently ".toList, if stat.running then [] else "not ".toList, "running.".toList,
    "\n - The initial entry point is: ".toList, P.pointer stat.entryPoint,
    "\n - This fiber was created by: ".toList, decimal (P.int stat.creator), " (pid)".toList,
    "\n - Succesful activations: ".toList, decimal stat.succesful,
    "\n - Unsuccesful activations: ".toList, decimal (P.int stat.unsuccesful.toInt),
    "\n - Total running time: ".toList, decimal stat.msec, " msec\n".toList]

def Printer.fiberStat (P : Printer) (stat : FiberStat) : List Char :=
  headline ++ Char.ofNat 10 :: (P.figures stat).flatten

/-- `sprintf` into `fiber_stat`; what does not fit is written past it. -/
def sprintf (P : Printer) (stat : FiberStat) : Except Fault (List Char) :=
  let text := P.fiberStat stat
  if text.length < fibLogLen then .ok text else .error .outOfBounds

/-- The body of the walk, on each fiber found. -/
def readStats (P : Printer) (len : Nat) : List FiberStat → Reply Char → Except Fault (Reply Char)
  | [], x => .ok x
  | stat :: rest, x => do
    let text ← sprintf P stat
    if text.length ≤ x.off then .ok { x with ret := 0, chunk := [] }
    else
      let i := min len text.length
      readStats P len rest { ret := i, off := x.off + i, chunk := text.take i }

/-- `myread` on a file, with the length of the buffer and the offset. -/
def readFile (P : Printer) (name tgid : List Char) (fibId : Nat) (tmpPid : Int) (s : State) : Read Fault Char :=
  fun len off => readStats P len (myread name tgid fibId tmpPid s) { ret := -1, off := off, chunk := [] }

end LinuxFibers
