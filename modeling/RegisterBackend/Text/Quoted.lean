import RegisterBackend.Text.Split

/-!
# Quoted texts

A text in quotes on one line: a quote, a backslash, a line feed, a carriage return and a tab are
written as a backslash and a letter or sign, all else as it is. The reader takes every text that
the writer produces, and also a bare quote between the outer ones.
-/

namespace RegisterBackend.Text

/-- What is wrong with a quoted text. -/
inductive QuoteFault where
  /-- One of the outer quotes is missing. -/
  | unquoted
  /-- A backslash stands before a character that needs none. -/
  | unknownEscape (c : Char)
  /-- A backslash ends the text. -/
  | danglingEscape
deriving DecidableEq, Repr

/-- A character between quotes. -/
def escapeChar : Char → List Char
  | '"' => ['\\', '"']
  | '\\' => ['\\', '\\']
  | '\n' => ['\\', 'n']
  | '\r' => ['\\', 'r']
  | '\t' => ['\\', 't']
  | c => [c]

/-- A text in quotes. -/
def quote (cs : List Char) : List Char :=
  '"' :: (cs.flatMap escapeChar ++ ['"'])

/-- The character that an escape stands for. -/
def unescapeChar? : Char → Option Char
  | '"' => some '"'
  | '\\' => some '\\'
  | 'n' => some '\n'
  | 'r' => some '\r'
  | 't' => some '\t'
  | _ => none

/-- The text that stands between quotes. -/
def unescape : List Char → Except QuoteFault (List Char)
  | [] => .ok []
  | ['\\'] => .error .danglingEscape
  | '\\' :: c :: cs =>
    match unescapeChar? c with
    | some d => (unescape cs).map (d :: ·)
    | none => .error (.unknownEscape c)
  | c :: cs => (unescape cs).map (c :: ·)

/-- The text of a quoted one. -/
def unquote (cs : List Char) : Except QuoteFault (List Char) :=
  match (dropStart? ['"'] cs).bind (dropEnd? '"') with
  | some inner => unescape inner
  | none => .error .unquoted

end RegisterBackend.Text
