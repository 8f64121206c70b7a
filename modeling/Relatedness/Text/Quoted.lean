import Relatedness.Text.Unprintable

/-!
Text in double quotes, as it is shown in log records and descriptions.
-/
namespace Relatedness.Text

/-- How a character is shown between quotes. -/
def escapeChar (c : Char) : String :=
  match c with
  | '\x00' => "\\0"
  | '\t' => "\\t"
  | '\n' => "\\n"
  | '\r' => "\\r"
  | '"' => "\\\""
  | '\\' => "\\\\"
  | c =>
    if c.toNat < 0x20 || c.toNat == 0x7f || (0x80 ≤ c.toNat && isUnprintable c) then
      "\\u\x7b" ++ String.ofList (Nat.toDigits 16 c.toNat) ++ "\x7d"
    else String.singleton c

def quoted (text : String) : String :=
  "\"" ++ String.join (text.toList.map escapeChar) ++ "\""

end Relatedness.Text
