import PatternCardinality.Text.Blank

/-! Reading the words of a command line. A switch is written with its name behind two hyphens or
with its letter behind one; letters may share a hyphen. The value of a switch is attached to it or
is the next word. Behind two bare hyphens there are no switches. -/

namespace PatternCardinality.CommandLine

open Text

/-- Why the words are no command: help or the version is asked for, or they make no sense. -/
inductive Refusal where
  | help
  | version
  | misuse
  deriving DecidableEq

inductive Effect where
  | flag
  | value (accepts : String → Bool)
  | refuse (r : Refusal)

structure Switch where
  name : String
  letter : Option Char
  effect : Effect

/-- The switches that were given, with their values, and the plain words. -/
structure Given where
  values : List (Switch × String)
  words : List String

namespace Given

def empty : Given := ⟨[], []⟩

def has (g : Given) (name : String) : Bool := g.values.any (fun v => v.1.name = name)

def value? (g : Given) (name : String) : Option String :=
  (g.values.find? (fun v => v.1.name = name)).map (·.2)

def acceptable (v : Switch × String) : Bool :=
  match v.1.effect with
  | .value accepts => accepts v.2
  | _ => true

/-- No switch is given twice, and all values are as they should be. -/
def isSound (g : Given) : Bool :=
  decide (g.values.map (·.1.name)).Nodup && g.values.all acceptable

def checked (g : Given) : Except Refusal Given := if g.isSound then .ok g else .error .misuse

def add (g : Given) (s : Switch) (v : String) : Given := { g with values := g.values ++ [(s, v)] }

end Given

/-- What a word looks like. -/
inductive Shape where
  | closing
  | named (name : String) (attached : Option String)
  | lettered (letters : List Char)
  | plain

def Shape.of (word : String) : Shape :=
  match word.toList with
  | ['-', '-'] => closing
  | '-' :: '-' :: s =>
    match cut? '=' s with
    | some (name, v) => named (String.ofList name) (some (String.ofList v))
    | none => named (String.ofList s) none
  | '-' :: c :: s => lettered (c :: s)
  | _ => plain

/-- What was given so far, and the switch that waits for its value. -/
abbrev Progress := Given × Option Switch

def readNamed (switches : List Switch) (g : Given) (name : String) (attached : Option String) :
    Except Refusal Progress :=
  match switches.find? (fun s => s.name = name) with
  | none => .error .misuse
  | some s =>
    match s.effect, attached with
    | .flag, none => return (← (g.add s "").checked, none)
    | .refuse r, none => .error r
    | .value _, none => .ok (g, some s)
    | .value _, some v => return (← (g.add s v).checked, none)
    | _, some _ => .error .misuse

/-- A value that is attached to a letter may have an equals sign in front. -/
def attachedValue : List Char → Option String
  | [] => none
  | '=' :: v => some (String.ofList v)
  | v => some (String.ofList v)

def readLetters (switches : List Switch) (g : Given) : List Char → Except Refusal Progress
  | [] => .ok (g, none)
  | c :: rest =>
    match switches.find? (fun s => s.letter = some c) with
    | none => .error .misuse
    | some s =>
      match s.effect with
      | .flag => do readLetters switches (← (g.add s "").checked) rest
      | .refuse r => .error r
      | .value _ =>
        match attachedValue rest with
        | none => .ok (g, some s)
        | some v => return (← (g.add s v).checked, none)

/-- Reads switches and up to `limit` plain words. Another plain word stops the reading; a value that
stands right in front of it is not checked yet. -/
def readWords (switches : List Switch) (limit : Nat) (g : Given) (waiting : Option Switch) :
    List String → Except Refusal (Given × List String)
  | [] =>
    match waiting with
    | some _ => .error .misuse
    | none => return (← g.checked, [])
  | word :: rest =>
    match Shape.of word, waiting with
    | .plain, some s => readWords switches limit (g.add s word) none rest
    | _, some _ => .error .misuse
    | .plain, none =>
      if g.words.length < limit then do
        let g ← g.checked
        readWords switches limit { g with words := g.words ++ [word] } none rest
      else .ok (g, word :: rest)
    | .closing, none =>
      if g.words.length + rest.length ≤ limit then do
        return (← { g with words := g.words ++ rest }.checked, [])
      else .error .misuse
    | .named name attached, none => do
      let (g, waiting) ← readNamed switches (← g.checked) name attached
      readWords switches limit g waiting rest
    | .lettered letters, none => do
      let (g, waiting) ← readLetters switches (← g.checked) letters
      readWords switches limit g waiting rest

end PatternCardinality.CommandLine
