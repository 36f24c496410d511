import LoopNest.Text.Mark

/-!
# Widths of characters

The number of places a character takes in a terminal, by the properties of Unicode 15.1.
-/

namespace LoopNest.Text

/-- The code points of the East Asian widths `W` and `F`, without those that take no place. -/
def wide : Runs :=
  [4352, 96, 4538, 2, 13, 2, 190, 4, 3, 1, 2, 1, 521, 2, 21, 2, 50, 12, 43, 1, 19, 1, 13, 1, 8, 2,
   17, 2, 5, 2, 8, 1, 5, 1, 21, 1, 7, 2, 1, 1, 4, 1, 2, 1, 7, 1, 4, 2, 28, 1, 35, 1, 1, 1, 4, 3, 1,
   1, 61, 3, 24, 1, 14, 1, 859, 2, 51, 1, 4, 1, 810, 26, 1, 89, 12, 214, 26, 58, 6, 15, 2, 86, 4,
   101, 5, 43, 1, 51, 1, 42, 1, 84, 11, 48, 1, 40, 8, 7024, 64, 22157, 3, 55, 1177, 29, 643, 11172,
   8540, 512, 784, 10, 22, 35, 1, 19, 1, 4, 149, 96, 127, 7, 28665, 4, 12, 2, 14, 6136, 8, 1238, 42,
   9, 8935, 4, 1, 7, 1, 2, 1, 291, 15, 1, 29, 3, 2, 1, 14, 4, 8, 396, 15624, 1, 202, 1, 190, 1, 2,
   10, 101, 3, 13, 44, 4, 9, 7, 2, 14, 6, 154, 33, 12, 9, 1, 70, 1, 22, 12, 43, 4, 5, 12, 17, 3, 1,
   3, 71, 1, 1, 1, 187, 2, 63, 13, 4, 1, 24, 18, 1, 26, 2, 13, 1, 86, 85, 48, 70, 6, 1, 3, 3, 2, 3,
   4, 4, 11, 2, 7, 9, 227, 12, 4, 1, 283, 47, 1, 10, 1, 185, 112, 13, 3, 9, 7, 46, 1, 7, 8, 14, 4,
   9, 7, 9, 1287, 65534, 2, 65534]

/-- The marks that take a place: those that Unicode 15.1 does not count among them, and the joiner
U+2D7F. -/
def spacing : Runs :=
  [2199, 1, 3709, 1, 30, 1, 922, 15, 2, 12, 88, 1, 101, 1, 71, 2, 4491, 1, 31699, 1, 108, 1, 25512,
   5, 396, 3, 707, 1, 116, 1, 279, 1, 106, 1, 2, 6, 1, 1, 2, 1, 1, 3, 4, 3, 1, 1, 14, 2, 723, 1,
   646, 1, 546, 1, 1, 3, 1, 1, 986, 1, 24, 1, 16835, 12, 3, 3, 3776, 2, 24948, 1, 6, 1, 5248, 2,
   243, 1, 2, 1, 7, 2, 5, 1]

/-- The code points that take no place though they are no marks: those with
`Default_Ignorable_Code_Point`, the vowels and final consonants that are part of a Hangul syllable,
the halfwidth sound marks, and signs that are written above or before a letter. The filler U+115F
does take a place. -/
def placeless : Runs :=
  [173, 1, 1367, 1, 22, 1, 242, 1, 384, 2, 80, 1, 1131, 1, 1041, 160, 1550, 1, 2044, 1, 1, 3, 26, 5,
   49, 16, 4340, 1, 30613, 1, 11957, 23, 4, 49, 9987, 1, 158, 3, 79, 9, 4553, 2, 1370, 1, 544, 1, 1,
   1, 248, 1, 73, 6, 700, 1, 443, 1, 40349, 4, 5327, 8, 798341, 32, 96, 128, 240, 3600]

/-- The places of a character. U+17A4 and U+17D8 are written as two and as three letters. -/
def width (c : Char) : Nat :=
  if c.toNat = 0x17d8 then 3
  else if c.toNat = 0x17a4 || wide.has c then 2
  else if placeless.has c || isMark c && !spacing.has c then 0
  else 1

end LoopNest.Text
