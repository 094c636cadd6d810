/-!
Contract: an argument string cut into words.

Blanks separate words. Single quotes keep everything between them. Double
quotes keep everything but the backslash before a dollar sign, a backquote, a
double quote or a backslash. Elsewhere a backslash stands for the character
behind it, but one before a line end or the end of the string stands for itself.
-/

namespace SymbolicHeap

namespace Words

/-- Characters with the white-space property. -/
def isBlank (c : Char) : Bool :=
  let code := c.toNat
  (0x9 ≤ code && code ≤ 0xd) || (0x2000 ≤ code && code ≤ 0x200a) ||
    [0x20, 0x85, 0xa0, 0x1680, 0x2028, 0x2029, 0x202f, 0x205f, 0x3000].contains code

/-- Where the scan stands; each mode but the first carries the characters of
the current word, the last one first. -/
inductive Mode where
  | between
  | bare (word : List Char)
  | escaped (word : List Char)
  | single (word : List Char)
  | double (word : List Char)
  | doubleEscaped (word : List Char)

def finished (word : List Char) : String := String.ofList word.reverse

/-- Characters that lose the backslash before them inside double quotes. -/
def isMeta (c : Char) : Bool :=
  c = '$' || c = '\x60' || c = '"' || c = '\\'

/-- The mode after a character outside quotes; a blank ends the word. -/
def stepBare (word : List Char) (c : Char) : Mode :=
  if c = '\'' then .single word
  else if c = '"' then .double word
  else if c = '\\' then .escaped word
  else .bare (c :: word)

/-- The words of the rest of a string; none if a quote stays open. -/
def scan : Mode → List Char → Option (List String)
  | .between, [] => some []
  | .bare word, [] => some [finished word]
  | .escaped word, [] => some [finished ('\\' :: word)]
  | .single _, [] | .double _, [] | .doubleEscaped _, [] => none
  | .between, c :: rest =>
      if isBlank c then scan .between rest else scan (stepBare [] c) rest
  | .bare word, c :: rest =>
      if isBlank c then (scan .between rest).map (finished word :: ·)
      else scan (stepBare word c) rest
  | .escaped word, c :: rest =>
      if c = '\n' then (scan .between rest).map (finished ('\\' :: word) :: ·)
      else scan (.bare (c :: word)) rest
  | .single word, c :: rest =>
      if c = '\'' then scan (.bare word) rest else scan (.single (c :: word)) rest
  | .double word, c :: rest =>
      if c = '"' then scan (.bare word) rest
      else if c = '\\' then scan (.doubleEscaped word) rest
      else scan (.double (c :: word)) rest
  | .doubleEscaped word, c :: rest =>
      if c = '\n' then none
      else if isMeta c then scan (.double (c :: word)) rest
      else scan (.double (c :: '\\' :: word)) rest

def split (text : String) : Option (List String) := scan .between text.toList

end Words

end SymbolicHeap
