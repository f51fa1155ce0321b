import PatternCardinality.Text.Marks

/-! Letters that share columns with the letters in front of them. -/

namespace PatternCardinality.Text

/-- Letters of the Arabic script with the form of an alef. -/
def alefRanges : List (Nat × Nat) :=
  [(0x622, 0x623), (0x625, 0x625), (0x627, 0x627), (0x671, 0x673), (0x675, 0x675),
    (0x773, 0x774), (0x870, 0x882)]

/-- Letters of the Arabic script with the form of a lam. -/
def lamRanges : List (Nat × Nat) :=
  [(0x644, 0x644), (0x6B5, 0x6B8), (0x76A, 0x76A), (0x8A6, 0x8A6), (0x8C7, 0x8C7)]

/-- Khmer letters that have a form below other letters. -/
def subscriptRanges : List (Nat × Nat) :=
  [(0x1780, 0x1782), (0x1784, 0x1787), (0x1789, 0x178C), (0x178E, 0x1793), (0x1795, 0x1798),
    (0x179B, 0x179D), (0x17A0, 0x17A0), (0x17A2, 0x17A2), (0x17A7, 0x17A7), (0x17AB, 0x17AC),
    (0x17AF, 0x17AF)]

/-- Marks that letters are joined across. -/
def joiningRanges : List (Nat × Nat) :=
  [(0x34F, 0x34F), (0x17B4, 0x17B5), (0x180B, 0x180D), (0x180F, 0x180F), (0xFE00, 0xFE0F),
    (0xE0100, 0xE01EF)]

def isAlef (n : Nat) : Bool := inRanges alefRanges n

def isLam (n : Nat) : Bool := inRanges lamRanges n

/-- Marks between a lam and an alef. -/
def isCursiveMark (n : Nat) : Bool := isMark n && !isSeparatingMark n

def isJoiningMark (n : Nat) : Bool := inRanges joiningRanges n

/-- Tifinagh consonants. -/
def isTifinagh (n : Nat) : Bool := (0x2D31 ≤ n && n ≤ 0x2D65) || n == 0x2D6F

/-- Joins the characters on its two sides. -/
def joiner : Nat := 0x200D

/-- The second part of a ligature. -/
inductive Ligature where
  | lamed
  | ya
  | vowelYa
  | consonant
  | joinedConsonant
  | tone
  | orkhonI
  | subscript
  deriving DecidableEq

/-- The ligatures that end with a letter. -/
def Ligature.endingWith? (n : Nat) : Option Ligature :=
  if n = 0x5DC then some .lamed
  else if inRanges subscriptRanges n then some .subscript
  else if n = 0x1A10 then some .ya
  else if isTifinagh n then some .consonant
  else if n = 0xA4FC ∨ n = 0xA4FD then some .tone
  else if n = 0x10C03 then some .orkhonI
  else none

/-- The columns that a character adds in front of the second part of a ligature, and the part that
they are together, if there is more to come. `joined` tells that a joiner stands between them. -/
def Ligature.extend? (joined : Bool) : Ligature → Nat → Option (Int × Option Ligature)
  | .lamed, n => if joined && n == 0x5D0 then some (0, none) else none
  | .ya, n => if joined && n == 0x1A17 then some (0, some .vowelYa) else none
  | .vowelYa, n => if n = 0x1A15 then some (0, none) else none
  | .consonant, n =>
    if n = 0x2D7F then some (1, some .joinedConsonant)
    else if joined && isTifinagh n then some (0, none)
    else none
  | .joinedConsonant, n => if isTifinagh n then some (-1, none) else none
  | .tone, n => if 0xA4F8 ≤ n ∧ n ≤ 0xA4FB then some (0, none) else none
  | .orkhonI, n => if joined && n == 0x10C32 then some (0, none) else none
  | .subscript, n => if n = 0x17D2 then some (-1, none) else none

end PatternCardinality.Text
