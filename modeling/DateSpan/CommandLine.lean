import DateSpan.Run

/-!
# The command line

Three options say what a run is to do: `--decode` (`-d`), `--encode` (`-e`) with the
name of an encoding, and `--verbose` (`-v`); `--help` (`-h`) and `--version` (`-V`)
ask for a text instead. There are no other arguments. The texts that may be asked for are
left out, as are those that say what is wrong with a command line.

Short options may be joined after one dash. The value of `--encode` may follow the
option in the same argument, after `=` or, for the short option, at once; otherwise it
is the next argument, unless that one looks like an option. An option may be given
once, and `--encode` may go without its value.

Arguments are first taken apart into `Part`s, from left to right; what the parts
amount to is settled when all are known.
-/

namespace DateSpan.CommandLine

inductive Fault where
  | unknownArgument
  | invalidValue
  | repeatedOption
  | helpAsked
  | versionAsked
deriving DecidableEq, Repr

inductive Part where
  | decode
  | verbose
  | encode
  /-- The value of the option before it. -/
  | value (text : String)
deriving DecidableEq, Repr

/-- The parts of an argument, and whether the next argument may be the value of the
last of them. -/
structure Argument where
  parts : List Part
  wantsValue : Bool
deriving DecidableEq, Repr

def Argument.flag (p : Part) : Argument := ⟨[p], false⟩

/-- An option with the value that is given for it in the same argument, if any. -/
def Argument.encode : Option (List Char) → Argument
  | none => ⟨[.encode], true⟩
  | some cs => ⟨[.encode, .value (String.ofList (cs.dropWhile (· = '=')))], false⟩

def Argument.cons (p : Part) (a : Argument) : Argument := { a with parts := p :: a.parts }

/-! ## Taking arguments apart -/

/-- Short options after one dash. What follows an `e` is its value. -/
def short : List Char → Except Fault Argument
  | [] => .ok ⟨[], false⟩
  | 'd' :: cs => (short cs).map (.cons .decode)
  | 'v' :: cs => (short cs).map (.cons .verbose)
  | 'h' :: _ => .error .helpAsked
  | 'V' :: _ => .error .versionAsked
  | ['e'] => .ok (.encode none)
  | 'e' :: cs => .ok (.encode (some cs))
  | _ => .error .unknownArgument

/-- A long option, by its name and the text after the first `=`. -/
def long (name : List Char) (value : Option (List Char)) : Except Fault Argument :=
  match String.ofList name with
  | "decode" => .ok (.flag .decode)
  | "verbose" => .ok (.flag .verbose)
  | "encode" => .ok (.encode value)
  | "help" => .error .helpAsked
  | "version" => .error .versionAsked
  | _ => .error .unknownArgument

/-- A long option, with all that comes after its first two dashes. -/
def longText (cs : List Char) : Except Fault Argument :=
  let body := cs.dropWhile (· = '-')
  match Text.cut? ['='] body with
  | some (name, value) => long name (some value)
  | none => long body none

/-- An argument that does not stand for a value. -/
def argument : List Char → Except Fault Argument
  | '-' :: '-' :: cs => longText cs
  | '-' :: c :: cs => short (c :: cs)
  | _ => .error .unknownArgument

/-- An argument that looks like an option, so that it is no value of the option before
it. -/
def looksLikeOption : List Char → Bool
  | '-' :: _ :: _ => true
  | _ => false

/-- The parts of all arguments. Two dashes end the options, so nothing may follow
them. -/
def parts (wantsValue : Bool) : List String → Except Fault (List Part)
  | [] => .ok []
  | arg :: args =>
    if wantsValue && !looksLikeOption arg.toList then
      (parts false args).map (.value arg :: ·)
    else if arg = "--" then
      if args = [] then .ok [] else .error .unknownArgument
    else do
      let a ← argument arg.toList
      let rest ← parts a.wantsValue args
      return a.parts ++ rest

/-! ## What the parts amount to -/

/-- The encoding that a part names, if it is a value. -/
def encoding? : Part → Except Fault (Option Encoding)
  | .value text =>
    match Encoding.ofName text with
    | .ok e => .ok (some e)
    | .error _ => .error .invalidValue
  | _ => .ok none

/-- The options that parts amount to. A wrong value comes before a repeated option. -/
def settle (ps : List Part) : Except Fault Options := do
  let encodings ← ps.mapM encoding?
  if [Part.decode, .verbose, .encode].any fun p => 1 < ps.count p then .error .repeatedOption
  else
    .ok
      { form := if .decode ∈ ps then .hex else .literal
        encoding := (encodings.findSome? id).getD .human
        verbose := .verbose ∈ ps }

/-- Reads the arguments that follow the name of the program. -/
def parse (args : List String) : Except Fault Options := do
  let ps ← parts false args
  settle ps

end DateSpan.CommandLine
