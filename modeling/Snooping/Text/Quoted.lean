import Snooping.Text.Hidden
import Snooping.Text.Pad

/-!
# Quoted text

A text in double quotes on one line, for names that may hold anything. Double quotes, backslashes,
line ends and hidden characters are escaped. A single quote cannot end the text and stays as it is.

* `escaped`: one character.
* **`quoted`**: a text.
-/

namespace Snooping.Text

/-- A character inside quotes. -/
def escaped (c : Char) : String :=
  match c with
  | '\x00' => "\\0"
  | '\t' => "\\t"
  | '\n' => "\\n"
  | '\r' => "\\r"
  | '"' => "\\\""
  | '\\' => "\\\\"
  | c => if isHidden c then "\\u\x7b" ++ hex 1 c.toNat ++ "\x7d" else String.singleton c

/-- **A text in quotes.** -/
def quoted (s : String) : String := "\"" ++ String.join (s.toList.map escaped) ++ "\""

end Snooping.Text
