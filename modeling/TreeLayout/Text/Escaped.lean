import TreeLayout.Text.Unprintable

/-!
# Texts on one line

A text between quotes in which the quote, the backslash and the unprintable characters are escaped.
-/

namespace TreeLayout.Text

/-- A code point in hexadecimal digits. -/
def hexDigits (n : Nat) : String := String.ofList (Nat.toDigits 16 n)

/-- A character inside quotes. -/
def escapeShown (c : Char) : String :=
  match c with
  | '\x00' => "\\0"
  | '\t' => "\\t"
  | '\r' => "\\r"
  | '\n' => "\\n"
  | '\x22' => "\\\""
  | '\\' => "\\\\"
  | c => if isUnprintable c then "\\u\x7b" ++ hexDigits c.toNat ++ "\x7d" else String.singleton c

/-- A text between quotes on one line. -/
def shown (s : String) : String :=
  "\"" ++ String.join (s.toList.map escapeShown) ++ "\""

end TreeLayout.Text
