import BraceLisp.Text.Extend
import BraceLisp.Text.Wide

/-!
How many columns a character takes on a terminal: none if it is drawn on its neighbour or not at
all, two if it is wide, one otherwise. A few characters have a width of their own.
-/

namespace BraceLisp.Text

/-- The ranges of the property `Default_Ignorable_Code_Point`, which is that of the characters that
are not drawn. -/
def defaultIgnorable : List (Nat × Nat) :=
  [(0x00AD, 0x00AD), (0x034F, 0x034F), (0x061C, 0x061C), (0x115F, 0x1160), (0x17B4, 0x17B5),
   (0x180B, 0x180F), (0x200B, 0x200F), (0x202A, 0x202E), (0x2060, 0x206F), (0x3164, 0x3164),
   (0xFE00, 0xFE0F), (0xFEFF, 0xFEFF), (0xFFA0, 0xFFA0), (0xFFF0, 0xFFF8), (0x1BCA0, 0x1BCA3),
   (0x1D173, 0x1D17A), (0xE0000, 0xE0FFF)]

/-- The vowels and final consonants of Hangul syllables, which join the consonant before them. -/
def hangulJoining : List (Nat × Nat) :=
  [(0x1160, 0x11FF), (0xD7B0, 0xD7C6), (0xD7CB, 0xD7FB)]

/-- The signs and letters that are drawn over the characters after them. -/
def prepended : List (Nat × Nat) :=
  [(0x0605, 0x0605), (0x070F, 0x070F), (0x0890, 0x0891), (0x08E2, 0x08E2), (0x0D4E, 0x0D4E),
   (0xA8FA, 0xA8FA), (0x111C2, 0x111C3), (0x113D1, 0x113D1), (0x1193F, 0x1193F),
   (0x11941, 0x11941), (0x11A84, 0x11A89), (0x11D46, 0x11D46), (0x11F02, 0x11F02)]

/-- The character takes no column. -/
def isZeroWidth (c : Char) : Bool :=
  isGraphemeExtend c || inRanges defaultIgnorable c || inRanges hangulJoining c
    || inRanges prepended c

/-- The characters that have a width of their own: the filler for a first consonant of Hangul, a
Khmer vowel that is drawn as two letters, the Khmer sign for "and so on", the joiner of Tifinagh
consonants, which is drawn where it joins nothing, and the halfwidth voicing marks of kana, which
stand after their letter. -/
def ownWidth : List (Nat × Nat) :=
  [(0x115F, 2), (0x17A4, 2), (0x17D8, 3), (0x2D7F, 1), (0xFF9E, 1), (0xFF9F, 1)]

/-- The columns that a character takes. -/
def width (c : Char) : Nat :=
  match ownWidth.lookup c.toNat with
  | some columns => columns
  | none => if isZeroWidth c then 0 else if isWide c then 2 else 1

end BraceLisp.Text
