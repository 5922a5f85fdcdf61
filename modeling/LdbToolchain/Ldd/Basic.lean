import Mathlib.Data.Finset.Erase
import Mathlib.Data.Finset.Insert
import Mathlib.Data.List.DropRight

/-!
# ldd-recursive

The script of `src/ldd-recursive.pl`: it runs `ldd` on each argument and on every library that `ldd`
names, with one table of the names met, `%uniq`, and prints the keys of the table. What `ldd` says
about a file is a parameter, a list of lines for each file name.

A string is the list of its characters, which are bytes to Perl.
-/

namespace LdbToolchain.Ldd

abbrev Str := List Char

/-! ## The expressions -/

/-- `\s`, for bytes. -/
def isSpace (c : Char) : Bool :=
  c ∈ [' ', '\t', '\n', '\r', '\x0b', '\x0c']

/-- A regular expression that is one character after the other. -/
abbrev Pattern := List (Char → Bool)

def literal (s : String) : Pattern := s.toList.map fun c => (· == c)

def Pattern.startsAt : Pattern → Str → Bool
  | [], _ => true
  | p :: ps, c :: cs => p c && startsAt ps cs
  | _ :: _, [] => false

/-- `$line =~ /pattern/`. -/
def Pattern.occurs (pattern : Pattern) (line : Str) : Bool := line.tails.any pattern.startsAt

def staticallyLinked : Pattern := literal "statically linked"
def notDynamic : Pattern := literal "not a dynamic executable"
def notFound : Pattern := literal "not found"

/-- The dot is any character but the end of a line. -/
def linuxVdso : Pattern := literal "linux-vdso" ++ [(· != '\n')] ++ literal "so"

/-- `s/^\s+//g; s/\s+$//g`. -/
def strip (line : Str) : Str := (line.dropWhile isSpace).rdropWhile isSpace

/-- `split( /\s+/, $line )`, for a line that does not start with a space. -/
def split (line : Str) : List Str := (line.splitOnP isSpace).filter (· ≠ [])

/-- `not $line`. -/
def isFalse (line : Str) : Bool := line == [] || line == ['0']

/-! ## The script -/

/-- The loop over the lines of `ldd`, given what a recursive call does to the table. -/
def scanLines (recurse : Str → Finset Str → Option (Finset Str)) :
    List Str → Finset Str → Option (Finset Str)
  | [], uniq => some uniq
  | raw :: libraries, uniq =>
    if isFalse raw then scanLines recurse libraries uniq
    else
      let line := strip raw
      if staticallyLinked.occurs line || notDynamic.occurs line then some uniq
      else if notFound.occurs line || linuxVdso.occurs line then scanLines recurse libraries uniq
      else
        let newlibs := split line
        if newlibs.length < 4 then
          -- the first field of an empty line is undefined, and its key the empty string
          scanLines recurse libraries (insert (newlibs.headD []) uniq)
        else (recurse (newlibs.getD 2 []) uniq).bind (scanLines recurse libraries)

/-- `recurseLibs`. The fuel bounds the depth of the calls. -/
def recurseLibs (ldd : Str → List Str) : Nat → Str → Finset Str → Option (Finset Str)
  | 0, _, _ => none
  | fuel + 1, filename, uniq =>
    if filename ∈ uniq then some uniq
    else scanLines (recurseLibs ldd fuel) (ldd filename) (insert filename uniq)

/-- The loop over the arguments. -/
def recurseArgs (ldd : Str → List Str) (fuel : Nat) (args : List Str) : Option (Finset Str) :=
  args.foldlM (fun uniq arg => (recurseLibs ldd fuel arg uniq).map (·.erase arg)) ∅

/-- `join( "\n", ... ) . "\n"`. -/
def printed (names : List Str) : Str := ['\n'].intercalate names ++ ['\n']

/-- What the script prints. The order of the keys of a table is up to Perl. -/
def script (keys : Finset Str → List Str) (ldd : Str → List Str) (fuel : Nat) (args : List Str) :
    Option Str :=
  (recurseArgs ldd fuel args).map fun uniq => printed (keys uniq)

/-- What is documented of `keys`: every key, and once. -/
def ListsKeys (keys : Finset Str → List Str) : Prop :=
  ∀ uniq, (keys uniq).Nodup ∧ ∀ name, name ∈ keys uniq ↔ name ∈ uniq

end LdbToolchain.Ldd
