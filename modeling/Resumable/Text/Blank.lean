/-!
# Blank characters

The characters that separate words, and the words of a text.
-/

namespace Resumable.Text

/-- The code points of the blank characters, as ranges with both ends. -/
def blankRanges : List (Nat × Nat) :=
  [(0x9, 0xd), (0x1c, 0x20), (0x85, 0x85), (0xa0, 0xa0), (0x1680, 0x1680), (0x2000, 0x200a),
    (0x2028, 0x2029), (0x202f, 0x202f), (0x205f, 0x205f), (0x3000, 0x3000)]

def isBlank (c : Char) : Bool := blankRanges.any fun (lo, hi) => lo ≤ c.toNat && c.toNat ≤ hi

/-- The words of a text: its longest stretches without separators. The first list holds the
letters of the word that is being read, last letter first. -/
def wordsBy (separates : Char → Bool) : List Char → List Char → List String
  | word, [] => if word.isEmpty then [] else [String.ofList word.reverse]
  | word, c :: rest =>
    if separates c then
      if word.isEmpty then wordsBy separates [] rest
      else String.ofList word.reverse :: wordsBy separates [] rest
    else wordsBy separates (c :: word) rest

def words (s : String) : List String := wordsBy isBlank [] s.toList

def squeeze (s : String) : String := String.join (words s)

end Resumable.Text
