import FlaglessAsm.Operand.Basic
import FlaglessAsm.Text.Blank

/-!
# Commas outside brackets

Operands are separated by commas, but commas also occur inside the brackets of a single operand.

## What is here

* `NestingError`: how brackets can fail to nest.
* `topLevelPieces`: the pieces between commas outside all brackets.
* `splitOperands`: the texts of the operands of a list.
-/

set_option autoImplicit false

namespace FlaglessAsm

/-- How the brackets of a text fail to nest. -/
inductive NestingError where
  /-- A closing bracket does not close the innermost open one. -/
  | unmatched
  /-- The text ends inside a bracket. -/
  | unclosed (innermost : Bracket)
  deriving DecidableEq

/-- The loop of `topLevelPieces`: `stack` holds the open brackets, innermost first, `piece` the
current piece and `done` the finished ones, both backwards. -/
def topLevelLoop : List Char → List Bracket → List Char → List (List Char) →
    Except NestingError (List (List Char))
  | [], [], piece, done => .ok (piece.reverse :: done).reverse
  | [], bracket :: _, _, _ => .error (.unclosed bracket)
  | c :: cs, stack, piece, done =>
    match Bracket.ofOpening? c, Bracket.ofClosing? c, stack with
    | some bracket, _, _ => topLevelLoop cs (bracket :: stack) (c :: piece) done
    | none, some _, [] => .error .unmatched
    | none, some bracket, top :: rest =>
      if top = bracket then topLevelLoop cs rest (c :: piece) done else .error .unmatched
    | none, none, [] =>
      if c = ',' then topLevelLoop cs [] [] (piece.reverse :: done)
      else topLevelLoop cs [] (c :: piece) done
    | none, none, _ :: _ => topLevelLoop cs stack (c :: piece) done

/-- The pieces of a text between its commas outside all brackets. -/
def topLevelPieces (s : List Char) : Except NestingError (List (List Char)) :=
  topLevelLoop s [] [] []

/-- The trimmed texts of the operands of a list.  A blank list has no operands. -/
def splitOperands (s : List Char) : Except OperandError (List (List Char)) :=
  match topLevelPieces s with
  | .ok pieces =>
    let operands := pieces.map Text.trim
    .ok (if operands = [[]] then [] else operands)
  | .error .unmatched => .error (.unparsable (String.ofList s))
  | .error (.unclosed bracket) => .error (.unterminated bracket)

end FlaglessAsm
