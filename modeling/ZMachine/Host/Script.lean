import ZMachine.Host

/-!
# A scripted host

Input comes from a list of lines, and output is collected in a text.
-/

namespace ZMachine

structure Script where
  input : List String
  output : String
  deriving DecidableEq

namespace Script

def ofLines (lines : List String) : Script :=
  ⟨lines, ""⟩

def pushLine (s : Script) (line : String) : Script :=
  { s with input := s.input ++ [line] }

/-- The output so far, which is then forgotten. -/
def takeOutput (s : Script) : String × Script :=
  (s.output, { s with output := "" })

end Script

instance Script.host : Host Script where
  print text := modify fun s => { s with output := s.output ++ text }
  readLine := fun s =>
    match s.input with
    | line :: rest => .ok line { s with input := rest }
    | [] => .error .endOfInput s
  flush := pure ()

end ZMachine
