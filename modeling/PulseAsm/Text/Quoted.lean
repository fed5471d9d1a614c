import PulseAsm.Text.Printable
import PulseAsm.Text.Radix

/-!
# Quoted text

How a name stands in a message: between double quotes, with the quote and the
backslash escaped, short forms for NUL, tab, line feed and carriage return, and
the code point in braces for every other character that cannot be shown.
-/

namespace PulseAsm.Text

/-- A code point in hexadecimal between braces, without leading zeros. -/
def codePointEscape (n : Nat) : List Char :=
  '\\' :: 'u' :: '\x7b' :: Radix.fixed 16 (Radix.hexLength n) n ++ ['\x7d']

/-- A character as it stands between quotes. -/
def quotedChar (c : Char) : List Char :=
  if c = '"' then ['\\', '"']
  else if c = '\\' then ['\\', '\\']
  else if c = '\x00' then ['\\', '0']
  else if c = '\t' then ['\\', 't']
  else if c = '\n' then ['\\', 'n']
  else if c = '\r' then ['\\', 'r']
  else if isPrintable c then [c]
  else codePointEscape c.toNat

/-- A text between quotes. -/
def quoted (s : String) : String :=
  "\"" ++ String.ofList (s.toList.flatMap quotedChar) ++ "\""

/-- Quoted texts between brackets. -/
def quotedList (ss : List String) : String :=
  "[" ++ ", ".intercalate (ss.map quoted) ++ "]"

end PulseAsm.Text
