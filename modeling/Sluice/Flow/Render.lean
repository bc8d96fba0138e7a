import Sluice.Flow.Function
import Sluice.Text.Ink

/-!
# Flow functions as text

One line per instruction, four spaces in, under the label of its block. The
same text is shown with or without colours.
-/

namespace Sluice.Flow

open Text (paint)

/-- A label as it is written. -/
def labelText (l : Label) : String :=
  ".label_" ++ toString l

/-- A stack slot as it is written. -/
def slotText (s : Slot) : String :=
  "slot" ++ toString s

/-- A numbered register as it is written. -/
def regText (coloured : Bool) (r : Reg) : String :=
  paint coloured .yellow ("%" ++ toString r)

section

variable {ρ : Type} (coloured : Bool) (reg : ρ → String)

/-- Texts with commas between them. -/
def commaText (texts : List String) : String :=
  ", ".intercalate texts

/-- A number that belongs to an instruction. -/
def numberText (n : Nat) : String :=
  paint coloured .magenta (toString n)

/-- The word an instruction is known by. -/
def wordText (w : String) : String :=
  paint coloured .cyan w

/-- The name of a function. -/
def symbolText (s : String) : String :=
  paint coloured .blue s

/-- An operand as it is written. -/
def Operand.text : Operand ρ → String
  | .imm value => paint coloured .magenta value.text
  | .reg r => reg r

/-- What a call reaches, as it is written. -/
def Callee.text : Callee ρ → String
  | .direct symbol => symbolText coloured symbol
  | .indirect r => reg r

/-- The shape of an object, as it is written. -/
def Shape.text : Shape → String
  | .record name fields => "record " ++ name ++ ", " ++ numberText coloured fields
  | .list length => "list " ++ numberText coloured length

/-- A register and the sign behind it. -/
def assignText (dst : ρ) : String :=
  reg dst ++ " " ++ paint coloured .white "=" ++ " "

/-- An instruction as it is written. -/
def Instr.text : Instr ρ → String
  | .move dst src => assignText coloured reg dst ++ src.text coloured reg
  | .unary op dst operand =>
    assignText coloured reg dst ++ paint coloured .white op.text ++ " "
      ++ operand.text coloured reg
  | .binary op dst lhs rhs =>
    assignText coloured reg dst ++ lhs.text coloured reg ++ " "
      ++ paint coloured .white op.text ++ " " ++ rhs.text coloured reg
  | .call dst callee args =>
    assignText coloured reg dst ++ wordText coloured "call" ++ " " ++ callee.text coloured reg
      ++ "(" ++ commaText (args.map fun a => a.text coloured reg) ++ ")"
  | .address dst function =>
    assignText coloured reg dst ++ wordText coloured "fnaddr" ++ " "
      ++ symbolText coloured function
  | .alloc dst shape live =>
    assignText coloured reg dst ++ wordText coloured "alloc" ++ " " ++ shape.text coloured
      ++ (if live.isEmpty then "" else " live(" ++ commaText (live.map reg) ++ ")")
  | .store object index value =>
    wordText coloured "store_field" ++ " " ++ reg object ++ ", " ++ numberText coloured index
      ++ ", " ++ value.text coloured reg
  | .load dst object index =>
    assignText coloured reg dst ++ wordText coloured "load_field" ++ " " ++ reg object ++ ", "
      ++ numberText coloured index
  | .spillStore slot src =>
    wordText coloured "spill_store" ++ " " ++ slotText slot ++ ", " ++ reg src
  | .spillLoad dst slot =>
    assignText coloured reg dst ++ wordText coloured "spill_load" ++ " " ++ slotText slot
  | .jump target => wordText coloured "jmp" ++ " " ++ symbolText coloured (labelText target)
  | .branch condition positive negative =>
    wordText coloured "br" ++ " " ++ condition.text coloured reg ++ " "
      ++ symbolText coloured (labelText positive) ++ " "
      ++ symbolText coloured (labelText negative)
  | .ret value => wordText coloured "ret" ++ " " ++ value.text coloured reg

/-- A block under its label. -/
def blockText (l : Label) (b : Block ρ) : String :=
  paint coloured .brightRed (labelText l ++ ":") ++ "\n"
    ++ String.join (b.instrs.map fun i => "    " ++ i.text coloured reg ++ "\n")

/-- A function as it is written. -/
def Function.text (f : Function ρ) : String :=
  paint coloured .magenta "fn" ++ " " ++ symbolText coloured f.name
    ++ paint coloured .white "(" ++ commaText (f.params.map reg)
    ++ paint coloured .white ") \x7b" ++ "\n"
    ++ String.join (f.blocks.zipIdx.map fun (b, l) => blockText coloured reg l b)
    ++ paint coloured .white "\x7d" ++ "\n"

end

/-- A function over numbered registers as it is written. -/
def Function.render (coloured : Bool) (f : Function Reg) : String :=
  f.text coloured (regText coloured)

end Sluice.Flow
