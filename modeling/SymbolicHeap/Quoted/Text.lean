import SymbolicHeap.Quoted.Unprintable

/-!
Contract: text in double quotes.

Double quotes, backslashes and the usual control characters take a backslash;
every other character that cannot be shown stands as its code point.
-/

namespace SymbolicHeap

/-- A code point in braces, in lower-case hexadecimal digits. -/
def codePointText (c : Char) : String :=
  "\\u\x7b" ++ String.ofList (Nat.toDigits 16 c.toNat) ++ "\x7d"

def escapedChar (c : Char) : String :=
  if c = '"' then "\\\""
  else if c = '\\' then "\\\\"
  else if c = '\n' then "\\n"
  else if c = '\r' then "\\r"
  else if c = '\t' then "\\t"
  else if c = '\x00' then "\\0"
  else if c < ' ' || Unprintable.contains c.toNat then codePointText c
  else c.toString

def quoted (text : String) : String :=
  "\"" ++ String.join (text.toList.map escapedChar) ++ "\""

end SymbolicHeap
