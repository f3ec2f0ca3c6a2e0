import SlotVerify.CommandLine.Value
/-
  Options and their values.

  A command has options, each with a long name and perhaps a letter.  `--name value`,
  `--name=value`, `-l value`, `-lvalue` and `-l=value` give an option its value; switches may share
  one dash.  Nothing else may stand on the line: behind `--`, or without a dash, a word is a mistake
  unless an option waits for its value, and no option takes a word with a dash from the next place.

  An option's value is looked at when the next option has been recognized, or at the line's end.
  So a word that cannot be there wins over a bad value right before it.
-/

namespace SlotVerify.CommandLine

/-- Why a command line names nothing to carry out. -/
inductive Refusal where
  /-- Help is asked for, perhaps on a command. -/
  | help (command : Option String)
  | version
  | nothingGiven
  | unknownCommand (word : String)
  | unknownArgument (word : String)
  | missingValue (option : String)
  | unwantedValue (option : String)
  | repeated (option : String)
  | invalidValue (option text : String) (fault : ValueFault)
  | missingOption (option : String)
deriving DecidableEq

/-! ## Words -/

/-- What a word looks like. -/
inductive Word where
  /-- Two dashes alone. -/
  | separator
  | long (name : String) (value : Option String)
  | letters (letters : List Char)
  | plain
deriving DecidableEq, Repr

/-- The look of a word; one dash alone is nothing special. -/
def Word.of (s : String) : Word :=
  match s.toList with
  | ['-', '-'] => .separator
  | '-' :: '-' :: rest =>
    let name := String.ofList (rest.takeWhile (· ≠ '='))
    match rest.dropWhile (· ≠ '=') with
    | [] => .long name none
    | _ :: value => .long name (some (String.ofList value))
  | '-' :: c :: rest => .letters (c :: rest)
  | _ => .plain

/-! ## Options -/

/-- What an option does to the arguments given so far, of type `R`. -/
inductive Effect (R : Type) where
  | help
  | switch (put : R → R)
  | value (put : R → String → Except ValueFault R)

/-- An option of a command. -/
structure Parameter (R : Type) where
  name : String
  letter : Option Char
  effect : Effect R
  /-- Whether it has been given. -/
  given : R → Bool

namespace Parameter

variable {R α : Type}

/-- The option that asks for help. -/
def help : Parameter R := ⟨"help", some 'h', .help, fun _ => false⟩

/-- An option with a value of type `α`, which `get` finds among the arguments. -/
def valued (name : String) (letter : Option Char) (read : String → Except ValueFault α)
    (get : R → Option α) (put : R → α → R) : Parameter R :=
  ⟨name, letter, .value fun r s => (read s).map (put r), fun r => (get r).isSome⟩

/-- The arguments with a text given to the option. -/
def give (p : Parameter R) (put : R → String → Except ValueFault R) (text : String) (r : R) :
    Except Refusal R :=
  if p.given r then .error (.repeated p.name)
  else (put r text).mapError (.invalidValue p.name text)

end Parameter

/-! ## Reading a command's words -/

/-- An option whose value has not been looked at, and maybe not even been found. -/
structure Pending (R : Type) where
  parameter : Parameter R
  put : R → String → Except ValueFault R
  text : Option String

/-- How far a command line has been read. -/
structure Progress (R : Type) where
  arguments : R
  pending : Option (Pending R) := none

namespace Progress

variable {R : Type}

/-- Looks at the pending value. -/
def settle (g : Progress R) : Except Refusal R :=
  match g.pending with
  | none => .ok g.arguments
  | some ⟨p, _, none⟩ => .error (.missingValue p.name)
  | some ⟨p, put, some text⟩ => p.give put text g.arguments

/-- Goes on behind an option that has its value in the same word, or needs none. -/
def apply (g : Progress R) (f : R → Except Refusal R) : Except Refusal (Progress R) := do
  let r ← f (← g.settle)
  return ⟨r, none⟩

/-- Goes on behind an option without anything attached. -/
def enter (g : Progress R) (p : Parameter R) : Except Refusal (Progress R) :=
  match p.effect with
  | .help => g.apply fun _ => .error (.help none)
  | .switch put => g.apply fun r => if p.given r then .error (.repeated p.name) else .ok (put r)
  | .value put => do
    let r ← g.settle
    return ⟨r, some ⟨p, put, none⟩⟩

/-- Goes on behind a long option. -/
def readLong (parameters : List (Parameter R)) (word name : String) (value : Option String)
    (g : Progress R) : Except Refusal (Progress R) :=
  match parameters.find? (·.name == name) with
  | none => .error (.unknownArgument word)
  | some p =>
    match value, p.effect with
    | none, _ => g.enter p
    | some text, .value put => g.apply (p.give put text)
    | some _, _ => .error (.unwantedValue name)

/-- Goes on behind some letters. -/
def readLetters (parameters : List (Parameter R)) (word : String) :
    List Char → Progress R → Except Refusal (Progress R)
  | [], g => .ok g
  | c :: rest, g =>
    match parameters.find? (·.letter == some c) with
    | none => .error (.unknownArgument word)
    | some p =>
      match p.effect, rest with
      | .value put, '=' :: text => g.apply (p.give put (String.ofList text))
      | .value put, first :: text => g.apply (p.give put (String.ofList (first :: text)))
      | _, _ => do readLetters parameters word rest (← g.enter p)

/-- Reads all words. -/
def read (parameters : List (Parameter R)) : List String → Progress R → Except Refusal R
  | [], g => g.settle
  | word :: rest, g =>
    match Word.of word with
    | .separator =>
      match rest with
      | [] => g.settle
      | extra :: _ => .error (.unknownArgument extra)
    | .long name value => do read parameters rest (← g.readLong parameters word name value)
    | .letters letters => do read parameters rest (← g.readLetters parameters word letters)
    | .plain =>
      match g.pending with
      | some ⟨p, put, none⟩ => read parameters rest { g with pending := some ⟨p, put, some word⟩ }
      | _ => .error (.unknownArgument word)

end Progress

/-- The arguments that words give to a command's options. -/
def readOptions {R : Type} (parameters : List (Parameter R)) (initial : R)
    (words : List String) : Except Refusal R :=
  (⟨initial, none⟩ : Progress R).read (.help :: parameters) words

end SlotVerify.CommandLine
