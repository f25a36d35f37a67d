import PagedNets.Text.Hex
import PagedNets.Text.Unprintable

/-!
Ways to write a text between double quotes. `quoted` is the form used in diagnostics: what cannot
be seen is written by number. `escapeLabel` is the form used in drawings, where only the quote, the
backslash and the line feed are special.
-/

set_option autoImplicit false

namespace PagedNets.Text

def quoteChar (c : Char) : List Char :=
  if c == '"' then ['\\', '"']
  else if c == '\\' then ['\\', '\\']
  else if c == '\n' then ['\\', 'n']
  else if c == '\r' then ['\\', 'r']
  else if c == '\t' then ['\\', 't']
  else if c == '\x00' then ['\\', '0']
  else if isUnprintable c then '\\' :: 'u' :: '\x7b' :: hexDigits c.toNat ++ ['\x7d']
  else [c]

def quoted (s : String) : String :=
  String.ofList ('"' :: s.toList.flatMap quoteChar ++ ['"'])

def labelChar (c : Char) : List Char :=
  if c == '"' then ['\\', '"']
  else if c == '\\' then ['\\', '\\']
  else if c == '\n' then ['\\', 'n']
  else [c]

def escapeLabel (s : String) : String := String.ofList (s.toList.flatMap labelChar)

end PagedNets.Text
