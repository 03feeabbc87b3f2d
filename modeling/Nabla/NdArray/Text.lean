import Nabla.Decimal.Cut
import Nabla.NdArray

/-!
# The text of an array

All entries of an array are written in one format, with at most eight digits behind the point and
in columns of one width. Exponents are written if the entries are very large or small or differ
much. Every dimension has a pair of brackets; the last one is written in lines of bounded width, the
others with line ends between their rows. Of a very large array only the edges are shown.
-/

namespace Nabla.NdArray

/-! ## The format of the entries -/

/-- How the entries of an array are written. -/
structure Format where
  floating : Bool
  /-- The width before the point. -/
  left : Nat
  /-- The width behind the point, an exponent included. -/
  right : Nat
  /-- The number of digits behind the point where an exponent follows. -/
  digits : Nat
  /-- The number of digits in an exponent. -/
  exponent : Nat

namespace Format

/-- The most digits behind the point. -/
def places : Nat := 8

def most (f : Decimal.Pieces → Nat) (pieces : List Decimal.Pieces) : Nat :=
  pieces.foldl (fun n p => max n (f p)) 0

/-- Whether numbers are so large, so small or so different that exponents are written. -/
def needsExponent (xs : List Float) : Bool :=
  match (xs.map Float.abs).filter fun x => x != 0 with
  | [] => false
  | x :: rest =>
    let high := rest.foldl (fun m y => if m < y then y else m) x
    let low := rest.foldl (fun m y => if y < m then y else m) x
    1e8 ≤ high || low < 0.0001 || 1000 < high / low

def exponentDigits (p : Decimal.Pieces) : List Char :=
  Decimal.padLeft 2 (Text.digitsOf p.place.natAbs)

/-- The common format of some numbers. Those that are not finite only have to fit in. -/
def ofEntries (xs : List Float) : Format :=
  let finite := xs.filter fun x => !x.isNaN && !x.isInf
  let exact := finite.filterMap Dyadic.ofFloat?
  let floating := needsExponent finite
  let pieces := exact.map
    (if floating then Decimal.floatingPieces places else Decimal.fixedPieces places)
  let digits := most (fun p => p.fraction.length) pieces
  let exponent := if floating then most (fun p => (exponentDigits p).length) pieces else 0
  let left := most (fun p => p.whole.length) pieces
  let right := if floating then digits + 2 + exponent else digits
  let word := if finite.length = xs.length then 0
    else if xs.any fun x => x.isInf && x < 0 then 4 else 3
  ⟨floating, max left (word - (right + 1)), right, digits, exponent⟩

def blanks (n : Nat) : List Char := List.replicate n ' '

/-- Blanks in front, up to the width. -/
def alignRight (width : Nat) (cs : List Char) : List Char := blanks (width - cs.length) ++ cs

/-- One entry in the common format. -/
def write (f : Format) (x : Float) : List Char :=
  match Dyadic.ofFloat? x with
  | none => alignRight (f.left + f.right + 1) (Decimal.text x).toList
  | some d =>
    if f.floating then
      let p := Decimal.floatingPieces places d
      alignRight f.left p.whole ++ '.' :: p.fraction ++
        List.replicate (f.digits - p.fraction.length) '0' ++
        'e' :: (if p.place < 0 then '-' else '+') ::
        Decimal.padLeft f.exponent (Text.digitsOf p.place.natAbs)
    else
      let p := Decimal.fixedPieces places d
      alignRight f.left p.whole ++ '.' :: p.fraction ++ blanks (f.right - p.fraction.length)

end Format

/-! ## The layout of the rows -/

/-- What stands around and between the entries. -/
structure Listing where
  /-- What stands before the first bracket. -/
  opening : List Char
  separator : List Char
  /-- How wide a line may be. -/
  width : Nat

/-- The listing of an array on its own: entries with blanks between them. -/
def Listing.plain : Listing := ⟨[], [' '], 75⟩

/-- The listing of an array inside a list: entries with commas between them. -/
def Listing.nested : Listing := ⟨"array(".toList, [',', ' '], 74⟩

/-- Arrays with more entries are shown by their edges. -/
def maxShown : Nat := 1000

/-- How many entries at either edge are shown. -/
def edge : Nat := 3

/-- The places along a dimension that are shown; `none` stands for those that are left out. -/
def shownPlaces (edges : Bool) (n : Nat) : List (Option Nat) :=
  if edges && 2 * edge < n then
    (List.range edge).map some ++ none :: (List.range edge).map fun i => some (n - edge + i)
  else (List.range n).map some

/-- The positions that are shown. -/
def shownPositions (edges : Bool) : List Nat → List (List Nat)
  | [] => [[]]
  | n :: rest => ((shownPlaces edges n).filterMap id).flatMap fun i =>
    (shownPositions edges rest).map (i :: ·)

def trimRight (cs : List Char) : List Char := (cs.reverse.dropWhile (· == ' ')).reverse

/-- Text with blanks at the end of its last line removed, and the line that is being filled. -/
structure Lines where
  done : List Char
  line : List Char

/-- Adds a word to the line, or to a new line if it does not fit and a new line helps. -/
def Lines.add (indent : List Char) (width : Nat) (l : Lines) (word : List Char) : Lines :=
  if width < l.line.length + word.length && indent.length < l.line.length then
    ⟨l.done ++ trimRight l.line ++ ['\n'], indent ++ word⟩
  else ⟨l.done, l.line ++ word⟩

/-- Words in lines, with a separator between them. -/
def fill (separator indent : List Char) (width : Nat) (words : List (List Char)) : List Char :=
  let l := words.zipIdx.foldl (fun (l : Lines) (word, i) =>
    let l := l.add indent width word
    if i + 1 < words.length then { l with line := l.line ++ separator } else l) ⟨[], indent⟩
  l.done ++ l.line

/-- The text of the part of an array behind a position: in brackets, each line after the first
indented. -/
def block (cell : List Nat → List Char) (separator : List Char) (edges : Bool) :
    (shape position : List Nat) → (indent : List Char) → (width : Nat) → List Char
  | [], position, _, _ => cell position
  | n :: rest, position, indent, width =>
    let parts := (shownPlaces edges n).map fun
      | some i => block cell separator edges rest (position ++ [i]) (indent ++ [' ']) (width - 1)
      | none => ['.', '.', '.']
    let body := match rest with
      | [] => fill separator indent (width - 1) parts
      | _ =>
        let between := trimRight separator ++ List.replicate rest.length '\n'
        between.intercalate (parts.map (indent ++ ·))
    '[' :: body.drop indent.length ++ [']']

/-- The brackets and entries of an array. -/
def listing (l : Listing) (x : NdArray Float) : List Char :=
  if count x.shape = 0 then ['[', ']']
  else
    let edges := decide (maxShown < count x.shape)
    let format := Format.ofEntries ((shownPositions edges x.shape).map x.entry)
    block (fun i => format.write (x.entry i)) l.separator edges x.shape []
      (Format.blanks (l.opening.length + 1)) l.width

/-- The text of an array on its own. -/
def text (x : NdArray Float) : String :=
  match x.shape with
  | [] => Decimal.text (x.entry [])
  | _ => String.ofList (listing .plain x)

/-- What is said about an array behind its entries: the shape where the entries do not show it, and
the type where there are none. -/
def remarks (x : NdArray Float) : List String :=
  let size := count x.shape
  (if (size = 0 && x.shape != [0]) || maxShown < size then ["shape=" ++ looseShape x.shape] else []) ++
    (if size = 0 then ["dtype=float64"] else [])

/-- The text of an array inside a list. -/
def quoted (x : NdArray Float) : String :=
  let head := Listing.nested.opening ++ listing .nested x
  match x.remarks with
  | [] => String.ofList (head ++ [')'])
  | remarks =>
    let head := head ++ [',']
    let tail := (commaList remarks).toList ++ [')']
    let last := (head.reverse.takeWhile (· != '\n')).length
    let gap := if 75 < last + tail.length + 1 then
        '\n' :: Format.blanks Listing.nested.opening.length else [' ']
    String.ofList (head ++ gap ++ tail)

end Nabla.NdArray
