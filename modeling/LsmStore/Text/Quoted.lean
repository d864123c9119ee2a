import LsmStore.Bytes
import LsmStore.Text.Printable

/-!
# Quoted text

Text is shown between double quotes.  A quote or a backslash inside it follows a
backslash, four control characters have a letter, and every other character that
is not printable is given by its code point in braces.  Bytes that are not text
are shown in hexadecimal, without quotes.
-/

namespace LsmStore.Text

/-- The code point of a character in braces, in lowercase hexadecimal. -/
def escapeCode (c : Char) : List Char :=
  '\\' :: 'u' :: '\x7b' :: (Nat.toDigits 16 c.toNat ++ ['\x7d'])

/-- One character as it stands between quotes. -/
def escape (c : Char) : List Char :=
  if c = '\x00' then ['\\', '0']
  else if c = '\t' then ['\\', 't']
  else if c = '\r' then ['\\', 'r']
  else if c = '\n' then ['\\', 'n']
  else if c = '"' then ['\\', '"']
  else if c = '\\' then ['\\', '\\']
  else if isPrintable c then [c]
  else escapeCode c

def quote (text : List Char) : List Char :=
  '"' :: (text.flatMap escape ++ ['"'])

/-- Bytes as quoted text if they are the UTF-8 form of one, in hexadecimal otherwise. -/
def showBytes (bytes : Bytes) : List Char :=
  match String.fromUTF8? bytes.toByteArray with
  | some text => quote text.toList
  | none => Bytes.hex bytes

end LsmStore.Text
