import ZMachine.Error

/-!
# Hosts

A host is what a machine plays on: it shows text and gives lines of input. Each call acts on the
state of the host, and what it did to it stays done when it fails.
-/

namespace ZMachine

abbrev HostM (η : Type) := EStateM HostError η

class Host (η : Type) where
  /-- Shows a text exactly as it is. -/
  print : String → HostM η Unit
  /-- A line of input without its end; `endOfInput` when there are no more. -/
  readLine : HostM η String
  /-- Hands on text that was held back. -/
  flush : HostM η Unit

end ZMachine
