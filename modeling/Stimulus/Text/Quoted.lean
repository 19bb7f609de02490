import Stimulus.Text.Visible

/-!
# Quoted text

Text between double quotes. The quote, the backslash and the common controls
have short escapes; other characters that are not visible by themselves are
written by their code points.
-/

namespace Stimulus.Text

/-- The escape of a character by its code point. -/
def codeEscape (c : Char) : String :=
  "\\u\x7b" ++ String.ofList (Nat.toDigits 16 c.toNat) ++ "\x7d"

/-- A character inside quotes. -/
def escape (c : Char) : String :=
  match c with
  | '\x00' => "\\0"
  | '\t' => "\\t"
  | '\n' => "\\n"
  | '\r' => "\\r"
  | '"' => "\\\""
  | '\\' => "\\\\"
  | c => if extending c || unprintable c then codeEscape c else String.singleton c

/-- Text between quotes. -/
def quoted (s : String) : String := "\"" ++ String.join (s.toList.map escape) ++ "\""

end Stimulus.Text
