import CodeReview.Text.Basic

/-!
# Quoted text

How a text is shown inside a message: between quotes, on one line, with nothing that is not
printable. The quote is `'`, or `"` for a text that holds `'` and no `"`.
-/

namespace CodeReview.Text

/-- The `width` lowest hexadecimal digits of `n`. -/
def hex (width n : Nat) : List Char :=
  (List.range width).reverse.map fun i => Nat.digitChar (n >>> (4 * i) % 16)

/-- One character between quotes `quote`: a backslash and the quote itself are escaped, as is all
that is not printable, by its code point in two, four or eight hexadecimal digits. -/
def quotedChar (quote c : Char) : List Char :=
  if c == quote || c == '\\' then ['\\', c]
  else if c == '\n' then ['\\', 'n']
  else if c == '\r' then ['\\', 'r']
  else if c == '\t' then ['\\', 't']
  else if isPrintable c then [c]
  else if c.toNat < 0x100 then '\\' :: 'x' :: hex 2 c.toNat
  else if c.toNat < 0x10000 then '\\' :: 'u' :: hex 4 c.toNat
  else '\\' :: 'U' :: hex 8 c.toNat

/-- The quote that surrounds a text. -/
def quoteFor (cs : List Char) : Char :=
  if cs.contains '\'' && !cs.contains '"' then '"' else '\''

/-- The text as it is shown inside a message. -/
def quoted (s : String) : String :=
  let quote := quoteFor s.toList
  onChars (fun cs => quote :: cs.flatMap (quotedChar quote) ++ [quote]) s

end CodeReview.Text
