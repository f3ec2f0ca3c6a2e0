import SlotVerify.CommandLine.Options
/-
  Commands.

  The first word names the command, the others are its options.  Options that have to be given are
  asked for once everything on the line has been found in order; the others have default values.
-/

namespace SlotVerify.CommandLine

/-- Verifies an install plan. -/
structure VerifyArguments where
  plan : String
  /-- Leaves verity metadata alone, even if the plan asks for it. -/
  withoutVerity : Bool
deriving DecidableEq, Repr

/-- Hashes an image. -/
structure HashArguments where
  image : String
  /-- The whole image by default. -/
  size : Option Nat
deriving DecidableEq, Repr

/-- Writes verity metadata into an image. -/
structure WriteVerityArguments where
  image : String
  blockSize : Nat
  hashAlgorithm : String
  salt : ByteArray
  dataSize : Nat
  hashTreeOffset : Nat
  hashTreeSize : Nat
  fecOffset : Nat
  fecSize : Nat
  fecRoots : Nat
deriving DecidableEq

/-- What there is to carry out. -/
inductive Command where
  | verify (a : VerifyArguments)
  | hash (a : HashArguments)
  | writeVerity (a : WriteVerityArguments)
deriving DecidableEq

/-- The value of an option that has to be given. -/
def required {α : Type} (option : String) (value : Option α) : Except Refusal α :=
  match value with
  | some a => .ok a
  | none => .error (.missingOption option)

/-! ## verify -/

/-- The options of `verify` given so far. -/
structure VerifyOptions where
  plan : Option String := none
  withoutVerity : Bool := false

/-- The options of `verify`. -/
def VerifyOptions.parameters : List (Parameter VerifyOptions) :=
  [.valued "plan" (some 'p') pathOfText (·.plan) fun r x => { r with plan := some x },
   ⟨"no-write-verity", none, .switch fun r => { r with withoutVerity := true },
     (·.withoutVerity)⟩]

/-- The arguments that the words behind `verify` give. -/
def VerifyArguments.ofWords (words : List String) : Except Refusal VerifyArguments := do
  let r ← readOptions VerifyOptions.parameters {} words
  return ⟨← required "plan" r.plan, r.withoutVerity⟩

/-! ## hash -/

/-- The options of `hash` given so far. -/
structure HashOptions where
  image : Option String := none
  size : Option Nat := none

/-- The options of `hash`. -/
def HashOptions.parameters : List (Parameter HashOptions) :=
  [.valued "image" (some 'i') pathOfText (·.image) fun r x => { r with image := some x },
   .valued "size" (some 's') sizeOfText (·.size) fun r x => { r with size := some x }]

/-- The arguments that the words behind `hash` give. -/
def HashArguments.ofWords (words : List String) : Except Refusal HashArguments := do
  let r ← readOptions HashOptions.parameters {} words
  return ⟨← required "image" r.image, r.size⟩

/-! ## write-verity -/

/-- The options of `write-verity` given so far. -/
structure WriteVerityOptions where
  image : Option String := none
  blockSize : Option Nat := none
  hashAlgorithm : Option String := none
  salt : Option ByteArray := none
  dataSize : Option Nat := none
  hashTreeOffset : Option Nat := none
  hashTreeSize : Option Nat := none
  fecOffset : Option Nat := none
  fecSize : Option Nat := none
  fecRoots : Option Nat := none

/-- The options of `write-verity`. -/
def WriteVerityOptions.parameters : List (Parameter WriteVerityOptions) :=
  [.valued "image" (some 'i') pathOfText (·.image) fun r x => { r with image := some x },
   .valued "block-size" none sizeOfText (·.blockSize) fun r x => { r with blockSize := some x },
   .valued "hash-algorithm" none .ok (·.hashAlgorithm)
     fun r x => { r with hashAlgorithm := some x },
   .valued "salt" none bytesOfText (·.salt) fun r x => { r with salt := some x },
   .valued "data-size" none sizeOfText (·.dataSize) fun r x => { r with dataSize := some x },
   .valued "hash-tree-offset" none sizeOfText (·.hashTreeOffset)
     fun r x => { r with hashTreeOffset := some x },
   .valued "hash-tree-size" none sizeOfText (·.hashTreeSize)
     fun r x => { r with hashTreeSize := some x },
   .valued "fec-offset" none sizeOfText (·.fecOffset) fun r x => { r with fecOffset := some x },
   .valued "fec-size" none sizeOfText (·.fecSize) fun r x => { r with fecSize := some x },
   .valued "fec-roots" none countOfText (·.fecRoots) fun r x => { r with fecRoots := some x }]

/-- The arguments that the words behind `write-verity` give. -/
def WriteVerityArguments.ofWords (words : List String) : Except Refusal WriteVerityArguments := do
  let r ← readOptions WriteVerityOptions.parameters {} words
  return {
    image := ← required "image" r.image
    blockSize := r.blockSize.getD 4096
    hashAlgorithm := r.hashAlgorithm.getD "sha256"
    salt := r.salt.getD ByteArray.empty
    dataSize := ← required "data-size" r.dataSize
    hashTreeOffset := r.hashTreeOffset.getD 0
    hashTreeSize := r.hashTreeSize.getD 0
    fecOffset := r.fecOffset.getD 0
    fecSize := r.fecSize.getD 0
    fecRoots := r.fecRoots.getD 2 }

/-! ## All commands -/

/-- The reader of a command's other words, by the command's name. -/
def Command.reader? : String → Option (List String → Except Refusal Command)
  | "verify" => some fun words => (VerifyArguments.ofWords words).map .verify
  | "hash" => some fun words => (HashArguments.ofWords words).map .hash
  | "write-verity" => some fun words => (WriteVerityArguments.ofWords words).map .writeVerity
  | _ => none

/-- Whether a word may stand where a command is expected. -/
def isCommandName (word : String) : Bool := word == "help" || (Command.reader? word).isSome

/-- What is asked for behind the word `help`: nothing, or one command. -/
def helpTopic : List String → Refusal
  | [] => .help none
  | topic :: rest =>
    if isCommandName topic then
      match rest with
      | [] => .help (some topic)
      | extra :: _ => .unknownCommand extra
    else .unknownCommand topic

/-- What a word with dashes, or an unknown one, means where a command is expected. -/
def refusalOf (word : String) (rest : List String) : Refusal :=
  match Word.of word with
  | .separator =>
    match rest with
    | [] => .nothingGiven
    | next :: _ => if isCommandName next then .unknownArgument next else .unknownCommand next
  | .long name value =>
    match name, value with
    | "help", none => .help none
    | "version", none => .version
    | "help", some _ | "version", some _ => .unwantedValue name
    | _, _ => .unknownArgument word
  | .letters ('h' :: _) => .help none
  | .letters ('V' :: _) => .version
  | .letters _ => .unknownArgument word
  | .plain => .unknownCommand word

/-- The command that a line gives. -/
def Command.ofWords : List String → Except Refusal Command
  | [] => .error .nothingGiven
  | word :: rest =>
    if word = "help" then .error (helpTopic rest)
    else
      match Command.reader? word with
      | some read => read rest
      | none => .error (refusalOf word rest)

end SlotVerify.CommandLine
