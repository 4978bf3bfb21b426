import ZMachine.Opcode.Class

/-!
# Opcodes

The opcodes a program of versions 1 to 3 needs for play; those for saving, restoring, status line,
windows and streams are left out. After its operands an instruction may hold the number of a
variable for its result, the data of a branch, or a text.
-/

namespace ZMachine

inductive Opcode where
  | rtrue | rfalse | print | printRet | nop | retPopped | pop | quit | newLine
  | jz | getSibling | getChild | getParent | getPropLen | inc | dec | printAddr | removeObj
  | printObj | ret | jump | printPaddr | load | not
  | je | jl | jg | decChk | incChk | jin | test | or | and | testAttr | setAttr | clearAttr | store
  | insertObj | loadw | loadb | getProp | getPropAddr | getNextProp | add | sub | mul | div | mod
  | call | storew | storeb | putProp | sread | printChar | printNum | random | push | pull
  deriving DecidableEq, Repr

namespace Opcode

/-- The opcodes of a class by number. -/
def table : OpcodeClass → List (Option Opcode)
  | .zero =>
    [some rtrue, some rfalse, some print, some printRet, some nop, none, none, none,
      some retPopped, some pop, some quit, some newLine]
  | .one =>
    [some jz, some getSibling, some getChild, some getParent, some getPropLen, some inc, some dec,
      some printAddr, none, some removeObj, some printObj, some ret, some jump, some printPaddr,
      some load, some not]
  | .two =>
    [none, some je, some jl, some jg, some decChk, some incChk, some jin, some test, some or,
      some and, some testAttr, some setAttr, some clearAttr, some store, some insertObj, some loadw,
      some loadb, some getProp, some getPropAddr, some getNextProp, some add, some sub, some mul,
      some div, some mod]
  | .several =>
    [some call, some storew, some storeb, some putProp, some sread, some printChar, some printNum,
      some random, some push, some pull]

def ofNumber? (opcodeClass : OpcodeClass) (number : Nat) : Option Opcode :=
  (table opcodeClass)[number]?.join

/-- The name in listings. -/
def name : Opcode → String
  | rtrue => "rtrue" | rfalse => "rfalse" | print => "print" | printRet => "print_ret"
  | nop => "nop" | retPopped => "ret_popped" | pop => "pop" | quit => "quit"
  | newLine => "new_line" | jz => "jz" | getSibling => "get_sibling" | getChild => "get_child"
  | getParent => "get_parent" | getPropLen => "get_prop_len" | inc => "inc" | dec => "dec"
  | printAddr => "print_addr" | removeObj => "remove_obj" | printObj => "print_obj" | ret => "ret"
  | jump => "jump" | printPaddr => "print_paddr" | load => "load" | not => "not" | je => "je"
  | jl => "jl" | jg => "jg" | decChk => "dec_chk" | incChk => "inc_chk" | jin => "jin"
  | test => "test" | or => "or" | and => "and" | testAttr => "test_attr" | setAttr => "set_attr"
  | clearAttr => "clear_attr" | store => "store" | insertObj => "insert_obj" | loadw => "loadw"
  | loadb => "loadb" | getProp => "get_prop" | getPropAddr => "get_prop_addr"
  | getNextProp => "get_next_prop" | add => "add" | sub => "sub" | mul => "mul" | div => "div"
  | mod => "mod" | call => "call" | storew => "storew" | storeb => "storeb"
  | putProp => "put_prop" | sread => "sread" | printChar => "print_char"
  | printNum => "print_num" | random => "random" | push => "push" | pull => "pull"

/-- Whether the number of a variable for the result follows the operands. -/
def stores : Opcode → Bool
  | getSibling | getChild | getParent | getPropLen | load | not | or | and | loadw | loadb | getProp
  | getPropAddr | getNextProp | add | sub | mul | div | mod | call | random => true
  | _ => false

/-- Whether branch data follows. -/
def branches : Opcode → Bool
  | jz | getSibling | getChild | je | jl | jg | decChk | incChk | jin | test | testAttr => true
  | _ => false

/-- Whether a text follows. -/
def hasText : Opcode → Bool
  | print | printRet => true
  | _ => false

end Opcode
end ZMachine
