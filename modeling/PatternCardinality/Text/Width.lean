import PatternCardinality.Text.Ligatures
import PatternCardinality.Text.Pictures
import PatternCardinality.Text.Wide

/-! How many columns of a terminal a text takes. A character alone takes one, two or none; pictures
that are joined to one picture and letters that form a ligature take fewer than apart. A text is
measured from its end, since what stands behind a character decides how it is shown. -/

namespace PatternCardinality.Text

/-- What a selector makes of the character in front of it. -/
inductive Selector where
  | wide
  | text
  | picture
  deriving DecidableEq

/-- What stands behind a character, as far as it matters. A joiner in front of a picture opens a
sequence of joined pictures, which keycaps, flag letters and the tags of a flag's region may
close. -/
inductive Follower where
  | other
  | lineFeed
  | picture
  | skinTone
  | flagLetters (count : Nat)
  | joinedPicture
  | joinedKeycap
  | joinedFlagLetters (count : Nat)
  | joinedTags (letters digits : Nat)
  | vowelE
  | vowelAi
  | alef
  | ligature (part : Ligature) (joined : Bool)
  deriving DecidableEq

namespace Follower

/-- Parts of ligatures keep their effect across selectors. -/
def isLetter : Follower → Bool
  | alef => true
  | ligature .. => true
  | _ => false

/-- A joined sequence in front of which a picture takes no columns. -/
def isJoined : Follower → Bool
  | joinedPicture => true
  | joinedKeycap => true
  | _ => false

/-- The columns of a character alone, and what it is to the one in front of it. -/
def ofChar (n : Nat) : Nat × Follower :=
  match Ligature.endingWith? n with
  | some part => (1, ligature part false)
  | none =>
    if isAlef n then (1, alef)
    else if n = 0x16D67 then (1, vowelE)
    else if n = 0x16D68 then (1, vowelAi)
    else if n = 0x17D8 then (3, other)
    else if isFlagLetter n then (1, flagLetters 1)
    else if isSkinTone n then (2, skinTone)
    else if isPicture n then (2, picture)
    else if isMark n then (0, other)
    else if isWide n then (2, other)
    else (1, other)

/-- A character in front of a joiner and a picture. -/
def extendJoined? (n : Nat) : Option (Int × Follower) :=
  if n = 0x20E3 then some (0, joinedKeycap)
  else if isFlagLetter n then some (1, joinedFlagLetters 1)
  else if isSkinTone n then some (0, skinTone)
  else if n = 0xE007F then some (0, joinedTags 0 0)
  else if isPicture n then some (0, picture)
  else none

/-- A character in front of tags: one more tag, or the flag that they belong to. -/
def extendTags? (letters digits n : Nat) : Option (Int × Follower) :=
  if isTagLetter n ∧ digits = 0 ∧ letters < 6 then some (0, joinedTags (letters + 1) 0)
  else if isTagDigit n ∧ digits < 3 ∧ (letters < 5 ∨ 0 < digits) then
    some (0, joinedTags letters (digits + 1))
  else if n = 0x1F3F4 ∧ (digits = 3 ∨ digits = 0 ∧ 3 ≤ letters) then some (0, picture)
  else none

/-- What a character that belongs to its follower adds to the columns, and what they are together.
Of flag letters in front of a joined picture, the last two are one with it if their number is
even. -/
def extend? : Follower → Nat → Option (Int × Follower)
  | alef, n =>
    if isLam n then some (0, other) else if isCursiveMark n then some (0, alef) else none
  | ligature part joined, n =>
    if n = joiner then some (0, ligature part true)
    else if isJoiningMark n then some (0, ligature part joined)
    else (part.extend? joined n).map (fun e => (e.1, e.2.elim other (ligature · false)))
  | picture, n => if n = joiner then some (0, joinedPicture) else none
  | skinTone, n =>
    if isPerson n then some (0, picture)
    else if n = joiner then some (0, joinedPicture)
    else none
  | flagLetters count, n =>
    if isFlagLetter n then some (1, flagLetters (count + 1))
    else if n = joiner ∧ 1 < count then some (0, joinedPicture)
    else none
  | joinedPicture, n => extendJoined? n
  | joinedFlagLetters count, n =>
    if isFlagLetter n then
      some (if count % 2 = 1 then -1 else 3, joinedFlagLetters (count + 1))
    else if n = joiner ∧ 1 < count then some (0, joinedPicture)
    else none
  | joinedTags letters digits, n => extendTags? letters digits n
  | vowelE, n =>
    if n = 0x16D63 ∨ n = 0x16D69 then some (0, other)
    else if n = 0x16D67 then some (0, vowelAi)
    else if n = 0x16D68 then some (1, vowelE)
    else none
  | vowelAi, n => if n = 0x16D63 then some (0, other) else none
  | _, _ => none

end Follower

/-- What stands behind a character: a selector for it, if there is one, and what follows. -/
structure Tail where
  selector : Option Selector
  follower : Follower

namespace Tail

/-- Nothing that matters. -/
def plain : Tail := ⟨none, .other⟩

def ofFollower (f : Follower) : Tail := ⟨none, f⟩

/-- Puts a selector in front. Joined pictures stay joined behind a selector for pictures. -/
def select (s : Selector) (t : Tail) : Tail :=
  if t.follower.isLetter || (s == .picture && t.follower.isJoined) then ⟨some s, t.follower⟩
  else ⟨some s, .other⟩

/-- Gives up a selector that does not suit the character in front of it. -/
def unselect (t : Tail) : Tail :=
  if t.selector.isSome && !t.follower.isLetter then plain else ofFollower t.follower

def selector? (n : Nat) : Option Selector :=
  if n = 0xFE0F then some .picture
  else if n = 0xFE0E then some .text
  else if n = 0xFE01 then some .wide
  else none

/-- Quotation marks, single and double. -/
def isQuote (n : Nat) : Bool := n == 0x2018 || n == 0x2019 || n == 0x201C || n == 0x201D

/-- The columns of a character that the selector behind it suits, and what it is then. -/
def selected? (t : Tail) (n : Nat) : Option (Int × Follower) :=
  match t.selector with
  | some .picture =>
    if isSelectable n then some (if t.follower.isJoined then 0 else 2, .picture) else none
  | some .text => if isTextual n then some (1, .other) else none
  | some .wide => if isQuote n then some (2, .other) else none
  | none => none

/-- Controls and Latin characters take one column each, but a line end of two characters takes one
in all. -/
def basic (f : Follower) (n : Nat) : Int × Follower :=
  if n = 0x0A then (1, .lineFeed)
  else if n = 0x0D ∧ f = .lineFeed then (0, .other)
  else (1, .other)

/-- The columns that a character adds, and the tail that begins with it. -/
def before (c : Char) (t : Tail) : Int × Tail :=
  let n := c.toNat
  match t.selected? n with
  | some (w, f) => (w, ofFollower f)
  | none =>
    match selector? n with
    | some s => (0, (if t.selector = some .picture then t.unselect else t).select s)
    | none =>
      let f := t.unselect.follower
      let (w, f) :=
        if n ≤ 0xA0 then basic f n
        else (f.extend? n).getD ((Follower.ofChar n).1, (Follower.ofChar n).2)
      (w, ofFollower f)

end Tail

/-- The columns of a text, and the tail that it begins with. -/
def measured : List Char → Int × Tail
  | [] => (0, .plain)
  | c :: s =>
    let (rest, tail) := measured s
    let (columns, tail) := tail.before c
    (columns + rest, tail)

/-- The columns of a text. -/
def width (s : List Char) : Nat := (measured s).1.toNat

end PatternCardinality.Text
