import ZMachine.Command
import ZMachine.Dictionary
import ZMachine.Object.Listing

/-!
# Looking into a story

The command that lists what story files hold: header, objects, object tree, abbreviations,
dictionary.
-/

namespace ZMachine.Inspect

def usage (program : String) : String :=
  s!"Usage: {program} [options] <story-file>...\n" ++
  "\nOptions:\n" ++
  "  -i         Show the story header (default; -i=false hides it)\n" ++
  "  -o         Show all objects\n" ++
  "  -t         Show the object tree\n" ++
  "  -a         Show the abbreviations\n" ++
  "  -d         Show the dictionary\n" ++
  "  -h         Show this help message\n"

/-! ## Arguments -/

structure Request where
  header : Bool
  objects : Bool
  tree : Bool
  abbreviations : Bool
  dictionary : Bool
  stories : List String
  deriving DecidableEq, Repr

/-- What is shown if nothing else is asked for. -/
def Request.initial : Request :=
  ⟨true, false, false, false, false, []⟩

/-- What the arguments ask for after a request so far; none if that is help, and as an error the
option that is not known. -/
def parseFrom (r : Request) : List String → Except String (Option Request)
  | [] => return if r.stories.isEmpty then none else some r
  | "-i" :: rest => parseFrom { r with header := true } rest
  | "-i=false" :: rest => parseFrom { r with header := false } rest
  | "-o" :: rest => parseFrom { r with objects := true } rest
  | "-t" :: rest => parseFrom { r with tree := true } rest
  | "-a" :: rest => parseFrom { r with abbreviations := true } rest
  | "-d" :: rest => parseFrom { r with dictionary := true } rest
  | "-h" :: _ | "--help" :: _ => return none
  | other :: rest =>
    if other.startsWith "-" then throw other
    else parseFrom { r with stories := r.stories ++ [other] } rest

def parseArguments (arguments : List String) : Except String (Option Request) :=
  parseFrom .initial arguments

/-! ## Listings -/

/-- Text written so far; a failure keeps it, and gives the message of its cause. -/
abbrev Listing := EStateM String String Unit

def write (text : String) : Listing :=
  modify (· ++ text)

/-- What a fallible reading gives, its failure as a message. -/
def ofReading {α : Type} (x : Except Error α) : EStateM String String α :=
  match x with
  | .ok a => return a
  | .error e => throw e.message

open Numeral in
def listObjects (m : Memory) (t : ObjectTable) : Listing := do
  write "\n    **** Objects ****\n\n"
  write s!"  Object count = {t.size}\n\n"
  for (object, index) in t.objects.toList.zipIdx do
    write s!"{column 3 (index + 1)}. {ObjectTable.objectListing m object}"

def listTree (t : ObjectTable) : Listing := do
  write "\n    **** Object tree ****\n\n"
  write t.treeListing

open Numeral in
def listAbbreviations (m : Memory) (t : AbbreviationTable) : Listing := do
  write "\n    **** Abbreviations ****\n\n"
  if t.address = 0 then
    write "  No abbreviation information.\n"
  else
    for (text, index) in (← ofReading (t.all m)).zipIdx do
      write s!"  [{column 2 index}] \"{text}\"\n"

/-- All that is asked for about one story. -/
def listStory (files : Files) (r : Request) (name : String) : Listing := do
  let m : Memory ←
    match files name with
    | .ok bytes => pure ⟨bytes.data⟩
    | .error reason => throw s!"unable to open story {name}: {reason}"
  let header ← ofReading (Header.parse m)
  let abbreviations : AbbreviationTable := ⟨header.abbreviations⟩
  write s!"\nStory file is {name}\n"
  if r.header then
    write s!"{header.listing}\n"
  if r.objects || r.tree then
    let table ← ofReading (ObjectTable.load m header.objects abbreviations)
    if r.objects then listObjects m table
    if r.tree then listTree table
  if r.abbreviations then
    listAbbreviations m abbreviations
  if r.dictionary then
    let dictionary ← ofReading (Dictionary.load m header.dictionary abbreviations)
    write s!"{dictionary.listing}\n"
  write "\n"

/-! ## The whole command -/

/-- Adds the listing of one story to a report. A story that fails does not keep others from being
listed. -/
def addStory (files : Files) (r : Request) (report : Report) (name : String) : Report :=
  match listStory files r name "" with
  | .ok _ text => { report with output := report.output ++ text }
  | .error message text =>
    ⟨1, report.output ++ text, report.errors ++ s!"\nError: {message}\n"⟩

def run (files : Files) (program : String) (arguments : List String) : Report :=
  match parseArguments arguments with
  | .error option => ⟨1, "", s!"Error: unknown option {option}\n" ++ usage program⟩
  | .ok none => ⟨1, "", usage program⟩
  | .ok (some r) => r.stories.foldl (addStory files r) ⟨0, "", ""⟩

end ZMachine.Inspect
