import FlaglessAsm.Operand.Basic
import FlaglessAsm.Text.Numeral

/-!
# Writing operands

The text of an operand as source text spells it.

## What is here

* `Operand.render`: the text of an operand.
-/

set_option autoImplicit false

namespace FlaglessAsm

open Text

/-- The text of an immediate. -/
def renderImmediate (value : Int) : List Char :=
  '#' :: (decimal value).toList

/-- The name of a register as a list of characters. -/
def renderRegister (r : Register) : List Char :=
  r.name.toList

/-- Texts with a comma and a blank between each two. -/
def commaSeparated (texts : List (List Char)) : List Char :=
  [',', ' '].intercalate texts

namespace Operand

/-- The text of an operand. -/
def render : Operand → List Char
  | .register r => renderRegister r
  | .movingBase r => renderRegister r ++ ['!']
  | .immediate value => renderImmediate value
  | .memory base offset writeback =>
    '[' :: commaSeparated (renderRegister base :: (offset.map renderImmediate).toList)
      ++ ']' :: if writeback then ['!'] else []
  | .registerList registers =>
    Bracket.curly.opening :: commaSeparated (registers.map renderRegister)
      ++ [Bracket.curly.closing]
  | .label name => name.toList

end Operand

end FlaglessAsm
