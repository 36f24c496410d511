import LoopNest.Text.Mark
import LoopNest.Text.Unprintable

/-!
# Texts spelled out

A text in double quotes that shows each of its characters: what cannot be seen by itself is written
with a backslash.
-/

namespace LoopNest.Text

/-- A character by its code point in hexadecimal digits. -/
def codePoint (c : Char) : List Char :=
  ['\\', 'u', '\x7b'] ++ Nat.toDigits 16 c.toNat ++ ['\x7d']

def spellChar (c : Char) : List Char :=
  match c with
  | '"' => ['\\', '"']
  | '\\' => ['\\', '\\']
  | '\n' => ['\\', 'n']
  | '\r' => ['\\', 'r']
  | '\t' => ['\\', 't']
  | '\x00' => ['\\', '0']
  | c => if isMark c || isUnprintable c then codePoint c else [c]

def spell (s : String) : String := "\"" ++ String.ofList (s.toList.flatMap spellChar) ++ "\""

end LoopNest.Text
