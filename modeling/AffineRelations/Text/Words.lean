/-!
# Words

How words are cut out of a text and compared: without the blanks at their ends,
in lower case, and by their edit distance.
-/
namespace AffineRelations.Text

/-- The characters with the Unicode property White_Space. -/
def isBlank (c : Char) : Bool :=
  let n := c.toNat
  (9 ≤ n && n ≤ 13) || n == 0x20 || n == 0x85 || n == 0xA0 || n == 0x1680
    || (0x2000 ≤ n && n ≤ 0x200A) || n == 0x2028 || n == 0x2029 || n == 0x202F || n == 0x205F
    || n == 0x3000

/-- A text without the blanks at its ends. -/
def trim (cs : List Char) : List Char :=
  ((cs.dropWhile isBlank).reverse.dropWhile isBlank).reverse

/-- The pieces of a text between the separators; a text without any is one
piece. -/
def pieces (sep : Char) : List Char → List (List Char)
  | [] => [[]]
  | c :: cs =>
    if c = sep then [] :: pieces sep cs
    else match pieces sep cs with
      | [] => [[c]]
      | p :: ps => (c :: p) :: ps

/-! ## Lower case

The lower case of a letter as far as a comparison with ASCII words needs it.
Bytes of characters beyond ASCII differ from all bytes of such a word, so of
those characters only the number of bytes counts, and only letters whose lower
case has another number of bytes are listed.
-/

/-- Letters beyond ASCII whose lower case is longer or shorter, by code points. -/
def resizedLower : List (Nat × Nat) := [
  (0x130, 0x69), (0x23a, 0x2c65), (0x23e, 0x2c66), (0x1e9e, 0xdf), (0x2126, 0x3c9),
  (0x212a, 0x6b), (0x212b, 0xe5), (0x2c62, 0x26b), (0x2c64, 0x27d), (0x2c6d, 0x251),
  (0x2c6e, 0x271), (0x2c6f, 0x250), (0x2c70, 0x252), (0x2c7e, 0x23f), (0x2c7f, 0x240),
  (0xa78d, 0x265), (0xa7aa, 0x266), (0xa7ab, 0x25c), (0xa7ac, 0x261), (0xa7ad, 0x26c),
  (0xa7ae, 0x26a), (0xa7b0, 0x29e), (0xa7b1, 0x287), (0xa7b2, 0x29d), (0xa7c5, 0x282),
  (0xa7cb, 0x264), (0xa7dc, 0x19b)]

def lowerChar (c : Char) : Char :=
  match resizedLower.lookup c.toNat with
  | some n => Char.ofNat n
  | none => c.toLower

/-- A text in lower case, for comparison with ASCII words. -/
def lower (s : String) : String := s.map lowerChar

/-! ## Edit distance

The least number of insertions, deletions and replacements that lead from one
list to another. The distances from a list to all beginnings of the other one
are a row; reading one more element gives the next row.
-/

variable {α : Type} [DecidableEq α]

/-- The rest of the row for one more element `a`: `left` is the entry before it,
`diagonal` the one before it in the old row. -/
def rowAfter (a : α) : (left diagonal : Nat) → List α → List Nat → List Nat
  | left, diagonal, b :: bs, up :: ups =>
    let d := if a = b then diagonal else min (min up left) diagonal + 1
    d :: rowAfter a d up bs ups
  | _, _, _, _ => []

/-- The next row. -/
def nextRow (bs : List α) (row : List Nat) (a : α) : List Nat :=
  match row with
  | [] => []
  | d :: ups => (d + 1) :: rowAfter a (d + 1) d bs ups

def editDistance (as bs : List α) : Nat :=
  (as.foldl (nextRow bs) (List.range (bs.length + 1))).getLastD 0

end AffineRelations.Text
