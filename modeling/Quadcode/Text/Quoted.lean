import Quadcode.Text.Unpictured

/-!
# Quoted texts

A text between double quotes. A quote and a backslash are escaped, tab, carriage return, line feed
and NUL have short escapes, and every other character without a picture is written by its code
point in hexadecimal, so the written form stands on one line.
-/

namespace Quadcode.Text

/-- Lower-case hexadecimal digits without padding. -/
def hex (n : Nat) : String := String.ofList (Nat.toDigits 16 n)

/-- The written form of one character inside a quoted text. -/
def quotedChar (c : Char) : String :=
  match c with
  | '\t' => "\\t"
  | '\r' => "\\r"
  | '\n' => "\\n"
  | '"' => "\\\""
  | '\\' => "\\\\"
  | '\x00' => "\\0"
  | _ => if isUnpictured c then "\\u\x7b" ++ hex c.toNat ++ "\x7d" else c.toString

/-- A text in double quotes. -/
def quoted (s : String) : String :=
  "\"" ++ String.join (s.toList.map quotedChar) ++ "\""

end Quadcode.Text
