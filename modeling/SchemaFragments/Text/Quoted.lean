import SchemaFragments.Text.Visible
/-!
# Quotations

How an error message quotes a character or a text it could not read: between quotes, with escapes for
the quote, the backslash, `\0 \t \r \n`, and `\u{…}` for whatever is not visible.
-/

namespace SchemaFragments.Text

/-- The escape of one character between a pair of `quote`s. -/
def escaped (quote c : Char) : String :=
  if c = '\x00' then "\\0"
  else if c = '\t' then "\\t"
  else if c = '\r' then "\\r"
  else if c = '\n' then "\\n"
  else if c = quote ∨ c = '\\' then String.ofList ['\\', c]
  else if isVisible c then String.singleton c
  else "\\u\x7b" ++ String.ofList (Nat.toDigits 16 c.toNat) ++ "\x7d"

def quotedChar (c : Char) : String := "'" ++ escaped '\'' c ++ "'"

def quoted (text : String) : String := "\"" ++ String.join (text.toList.map (escaped '"')) ++ "\""

end SchemaFragments.Text
