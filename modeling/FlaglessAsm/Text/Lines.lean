import FlaglessAsm.Text.Blank

/-!
# Lines of a text

A line ends at a line feed, and a carriage return just before that line feed belongs to the ending.
The characters after the last line feed are a line only if there are any.

## What is here

* `lines`: the lines of a text, without their endings.
-/

set_option autoImplicit false

namespace FlaglessAsm
namespace Text

/-- A line without the carriage return in front of its line feed. -/
def dropReturn (line : List Char) : List Char :=
  if line.getLast? = some '\r' then line.dropLast else line

/-- The lines of a text. -/
def lines (s : List Char) : List (List Char) :=
  let pieces := splitWhere (· == '\n') s
  let ended := pieces.dropLast.map dropReturn
  match pieces.getLast? with
  | none | some [] => ended
  | some rest => ended ++ [rest]

end Text
end FlaglessAsm
