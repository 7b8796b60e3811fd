import Lineage.CommandLine.Usage
import Lineage.Declaration.Basic

/-!
# The words of a command line

Words that start with a hyphen are options, up to a word of two hyphens; a lone hyphen is none. A
long option may carry its value behind an equals sign, a short one directly behind its letter, and
short options without values may be written together.
-/

namespace Lineage.CommandLine

/-- An option that a command knows. -/
structure Switch where
  /-- The long form, with its hyphens. -/
  long : String
  /-- The letter of the short form. -/
  letter : Option Char := none
  takesValue : Bool
deriving DecidableEq, Repr

/-- The words of a command line, told apart. -/
structure Words where
  /-- The options given, by their long forms, with their values, the latest first. -/
  options : List (String × String) := []
  /-- The other words, in order. -/
  others : List String := []
deriving DecidableEq, Repr

namespace Words

/-- Adds an option. -/
def withOption (w : Words) (s : Switch) (value : String) : Words :=
  { w with options := (s.long, value) :: w.options }

/-- Whether an option is given. -/
def has (w : Words) (long : String) : Bool :=
  (w.options.lookup long).isSome

/-- The value of an option: the last one given. -/
def value? (w : Words) (long : String) : Option String :=
  w.options.lookup long

end Words

/-- The known words that may have been meant by an unknown one, in ascending order. -/
def similarTo (word : String) (known : List String) : List String :=
  (Text.closest 3 known word).mergeSort fun a b => decide (a ≤ b)

/-- Reads the value of an option off the words behind it. -/
def takeValue (option : String) : List String → Except Misuse (String × List String)
  | v :: rest => .ok (v, rest)
  | [] => .error (.needsValue option)

/-- Reads a word of two or more hyphens as a long option. -/
def readLong (known : List Switch) (w : Words) (name : String) (given : Option String)
    (rest : List String) : Except Misuse (Words × List String) :=
  match known.find? (·.long == name) with
  | none => .error (.unknownOption name (similarTo name (known.map (·.long))))
  | some s =>
    if s.takesValue then
      match given with
      | some v => .ok (w.withOption s v, rest)
      | none => do
        let (v, rest) ← takeValue name rest
        .ok (w.withOption s v, rest)
    else if given.isSome then .error (.takesNoValue name)
    else .ok (w.withOption s "", rest)

/-- Reads the letters of a word as short options; what stands behind the letter of an option that
takes a value is its value. -/
def readLetters (known : List Switch) (w : Words) :
    List Char → List String → Except Misuse (Words × List String)
  | [], rest => .ok (w, rest)
  | c :: cs, rest =>
    let name := String.ofList ['-', c]
    match known.find? (·.letter == some c) with
    | none => .error (.unknownOption name [])
    | some s =>
      if s.takesValue then
        if cs.isEmpty then do
          let (v, rest) ← takeValue name rest
          .ok (w.withOption s v, rest)
        else .ok (w.withOption s (String.ofList cs), rest)
      else readLetters known (w.withOption s "") cs rest

/-- The name of an option and the value behind its equals sign. -/
def splitOption (cs : List Char) : String × Option String :=
  let name := String.ofList (cs.takeWhile (· != '='))
  match cs.dropWhile (· != '=') with
  | _ :: value => (name, some (String.ofList value))
  | [] => (name, none)

/-- Reads one option: with two hyphens a long one, with one hyphen short ones. -/
def readOption (known : List Switch) (w : Words) (word : List Char) (rest : List String) :
    Except Misuse (Words × List String) :=
  let (name, given) := splitOption word
  match word with
  | '-' :: '-' :: _ => readLong known w name given rest
  | _ => readLetters known w (word.drop 1) rest

/-- Tells the words apart; `mixed` says that options may stand behind other words, otherwise the
first other word ends them. The number of words bounds the number of rounds. -/
def readWithin (known : List Switch) (mixed : Bool) :
    Nat → Words → List String → Except Misuse Words
  | 0, w, rest => .ok { w with others := w.others ++ rest }
  | _, w, [] => .ok w
  | fuel + 1, w, word :: rest =>
    match word.toList with
    | ['-', '-'] => .ok { w with others := w.others ++ rest }
    | '-' :: c :: cs => do
      let (w, rest) ← readOption known w ('-' :: c :: cs) rest
      readWithin known mixed fuel w rest
    | _ =>
      if mixed then readWithin known mixed fuel { w with others := w.others ++ [word] } rest
      else .ok { w with others := w.others ++ word :: rest }

/-- Tells the words of a command line apart. -/
def readWords (known : List Switch) (mixed : Bool) (args : List String) : Except Misuse Words :=
  readWithin known mixed (args.length + 1) {} args

end Lineage.CommandLine
