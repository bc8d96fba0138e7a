import Sluice.Text.CodePoint

/-!
# Quoted text

A string is shown between double quotes. A quote, a backslash and the
usual controls have two-character escapes; whatever would not show on its
own is written by its code point in lower-case hexadecimal.
-/

namespace Sluice.Text

/-- Whether a character is shown by its number: a control, or a character that is unprintable or
attaches to its neighbour. -/
def needsNumber (c : Char) : Bool :=
  c.val < 0x20 ||
    0x7e < c.val && (inRuns false extending c.toNat || inRuns false unprintable c.toNat)

/-- A character as it stands between double quotes. -/
def escaped (c : Char) : String :=
  match c with
  | '\x00' => "\\0"
  | '\t' => "\\t"
  | '\r' => "\\r"
  | '\n' => "\\n"
  | '\\' => "\\\\"
  | '"' => "\\\""
  | c =>
    if needsNumber c then
      "\\u\x7b" ++ String.ofList (Nat.toDigits 16 c.toNat) ++ "\x7d"
    else
      String.singleton c

/-- A string between double quotes. -/
def quoted (s : String) : String :=
  "\"" ++ String.join (s.toList.map escaped) ++ "\""

end Sluice.Text
