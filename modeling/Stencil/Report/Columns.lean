import Stencil.Unicode.Property

/-!
# Columns

How many columns of a screen characters take: a tab reaches to the next multiple of four characters,
wide characters take two columns, and characters that are put on others take none.
-/

namespace Stencil.Report

/-- The distance of tab stops. -/
def tabWidth : Nat := 4

/-- Vowels and final consonants that join the syllable before them. -/
def isJoiningJamo (c : Char) : Bool :=
  let n := c.toNat
  (0x1160 ≤ n && n ≤ 0x11ff) || (0xd7b0 ≤ n && n ≤ 0xd7c6) || (0xd7cb ≤ n && n ≤ 0xd7fb)

/-- Vowel signs that are made up of two marks. -/
def isCompoundSign (c : Char) : Bool :=
  c.toNat ∈ [0xcc0, 0xcc7, 0xcc8, 0xcca, 0xccb, 0x1b3b, 0x1b3d, 0x1b43]

/-- Marks that are drawn above, below or around the characters behind them. -/
def isSpanningMark (c : Char) : Bool := c.toNat ∈ [0x605, 0x70f, 0x890, 0x891, 0x8e2, 0xa8fa]

/-- Whether a character takes no column of its own. The filler of leading consonants can be ignored
but stands for a whole syllable. -/
def isZeroWidth (c : Char) : Bool :=
  c ≠ '\u115f' &&
    (Unicode.graphemeExtend.mem c || Unicode.defaultIgnorable.mem c || isJoiningJamo c ||
      isCompoundSign c || isSpanningMark c)

/-- The columns of a character that is no blank. -/
def glyphWidth (c : Char) : Nat :=
  if c.toNat < 0xa0 then 1
  else if isZeroWidth c then 0
  else if Unicode.wide.mem c then 2
  else 1

/-- How a character is shown that stands behind so many others in its line, and how many columns it
takes: blanks are shown as spaces. -/
def shown (index : Nat) (c : Char) : List Char × Nat :=
  if c = '\t' then
    let width := tabWidth - index % tabWidth
    (List.replicate width ' ', width)
  else if Unicode.isSpace c then ([' '], 1)
  else ([c], glyphWidth c)

end Stencil.Report
