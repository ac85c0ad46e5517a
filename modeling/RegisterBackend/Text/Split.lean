/-!
# Cutting texts apart

A text is cut at every occurrence of a character (`splitAt`), at the first one (`cutAt`), or behind
a given start (`dropStart?`). Cutting at every occurrence always leaves at least one piece, and the
pieces joined by the character are the text.
-/

namespace RegisterBackend.Text

/-- The pieces of a text between the occurrences of a character. -/
def splitAt (sep : Char) : List Char → List (List Char)
  | [] => [[]]
  | c :: cs =>
    if c = sep then
      [] :: splitAt sep cs
    else
      match splitAt sep cs with
      | [] => [[c]]
      | piece :: pieces => (c :: piece) :: pieces

/-- What stands before and behind the first occurrence of a character; without one, the text
stands before and nothing behind. -/
def cutAt (sep : Char) : List Char → List Char × List Char
  | [] => ([], [])
  | c :: cs =>
    if c = sep then
      ([], cs)
    else
      let (before, behind) := cutAt sep cs
      (c :: before, behind)

/-- What follows a given start of a text. -/
def dropStart? : List Char → List Char → Option (List Char)
  | [], cs => some cs
  | s :: start, c :: cs => if s = c then dropStart? start cs else none
  | _ :: _, [] => none

/-- What precedes a final character of a text. -/
def dropEnd? (last : Char) (cs : List Char) : Option (List Char) :=
  if cs.getLast? = some last then some cs.dropLast else none

end RegisterBackend.Text
