import Barrage.Expr.Basic
import Barrage.Text.Blank
import Barrage.Text.Digits

namespace Barrage.Expr
open Text

/-- How many signs and parentheses may be open at once. -/
def maxDepth : Nat := 32

/-- How many binary operators one expression may hold. -/
def maxOperators : Nat := 256

/-- Why a text is not an expression. Positions count characters from zero. -/
inductive Fault where
  | tooDeep
  | tooManyOperators
  | unexpected (c : Char) (position : Nat)
  | unexpectedEnd
  | unclosed
  | badNumber (literal : String)
  | unknownVariable (name : String)
deriving DecidableEq, Repr

def Fault.message : Fault → String
  | .tooDeep => "nested deeper than " ++ toString maxDepth ++ " levels"
  | .tooManyOperators => "more than " ++ toString maxOperators ++ " operators"
  | .unexpected c position => "unexpected '" ++ c.toString ++ "' at " ++ toString position
  | .unexpectedEnd => "unexpected end of expression"
  | .unclosed => "missing ')'"
  | .badNumber literal => "bad number '" ++ literal ++ "'"
  | .unknownVariable name => "unknown variable '$" ++ name ++ "'"

/-- A text that is no expression, without the blanks around it. -/
structure SyntaxError where
  text : String
  fault : Fault
deriving DecidableEq, Repr

/-- The unread text, its position, and the binary operators read so far. -/
structure Cursor where
  rest : List Char
  position : Nat
  operators : Nat

namespace Cursor

def drop (c : Cursor) (n : Nat) : Cursor :=
  { c with rest := c.rest.drop n, position := c.position + n }

def skipBlank (c : Cursor) : Cursor :=
  c.drop (c.rest.takeWhile isBlank).length

def countOperator (c : Cursor) : Except Fault Cursor :=
  if c.operators < maxOperators then .ok { c with operators := c.operators + 1 }
  else .error .tooManyOperators

end Cursor

abbrev Parser := Cursor → Except Fault (Expr × Cursor)

/-- Digits with at most one point among them, and at least one digit. -/
def number? (cs : List Char) : Option Float32 :=
  let whole := cs.takeWhile Char.isDigit
  let fraction := (cs.dropWhile Char.isDigit).drop 1
  if fraction.all Char.isDigit && !(whole ++ fraction).isEmpty then
    some (Binary32.ofDecimal (digitsValue (whole ++ fraction)) (-fraction.length))
  else none

/-- The name of a quantity, or the number of a parameter, counted from one in 64 bits. -/
def quantity? (name : List Char) : Option Expr :=
  match String.ofList name with
  | "rand" => some .rand
  | "rank" => some .rank
  | "direction" => some .direction
  | "speed" => some .speed
  | _ =>
    let k := digitsValue name
    if name.all Char.isDigit && 1 ≤ k && k < UInt64.size then some (.param (k - 1)) else none

def isNumberChar (c : Char) : Bool := c.isDigit || c == '.'

def number : Parser := fun c =>
  let literal := c.rest.takeWhile isNumberChar
  match number? literal with
  | some v => .ok (.const v, c.drop literal.length)
  | none => .error (.badNumber (.ofList literal))

def quantity : Parser := fun c =>
  let name := c.rest.takeWhile Char.isAlphanum
  match quantity? name with
  | some e => .ok (e, c.drop name.length)
  | none => .error (.unknownVariable (.ofList name))

def additive? : Char → Option Op
  | '+' => some .add
  | '-' => some .sub
  | _ => none

def multiplicative? : Char → Option Op
  | '*' => some .mul
  | '/' => some .div
  | '%' => some .rem
  | _ => none

/-- The rest of a chain of operands, grouped to the left. Each round counts one operator, so a
budget above `maxOperators` is never used up. -/
def chainRest (op? : Char → Option Op) (operand : Parser) : Nat → Expr → Parser
  | 0, _, _ => .error .tooManyOperators
  | budget + 1, lhs, c =>
    let c := c.skipBlank
    match c.rest.head?.bind op? with
    | none => .ok (lhs, c)
    | some op => do
      let (rhs, c) ← operand (c.drop 1)
      let c ← c.countOperator
      chainRest op? operand budget (.binary op lhs rhs) c

def chain (op? : Char → Option Op) (operand : Parser) : Parser := fun c => do
  let (lhs, c) ← operand c
  chainRest op? operand (maxOperators + 1) lhs c

/-- Products and quotients bind more tightly than sums and differences. -/
def sum (operand : Parser) : Parser :=
  chain additive? (chain multiplicative? operand)

/-- A sign before a literal is part of it. -/
def negate : Expr → Expr
  | .const v => .const (-v)
  | e => .neg e

/-- An operand whose signs and parentheses enclose what `inner` parses. -/
def operandOver (inner : Parser) : Parser := fun c =>
  let c := c.skipBlank
  match c.rest with
  | [] => .error .unexpectedEnd
  | '-' :: _ => do
    let (e, c) ← inner (c.drop 1)
    .ok (negate e, c)
  | '+' :: _ => inner (c.drop 1)
  | '(' :: _ => do
    let (e, c) ← sum inner (c.drop 1)
    let c := c.skipBlank
    match c.rest with
    | ')' :: _ => .ok (e, c.drop 1)
    | _ => .error .unclosed
  | '$' :: _ => quantity (c.drop 1)
  | o :: _ => if isNumberChar o then number c else .error (.unexpected o c.position)

/-- An operand inside which `room` more signs and parentheses may open. -/
def operand : Nat → Parser
  | 0 => operandOver fun _ => .error .tooDeep
  | room + 1 => operandOver (operand room)

def parseChars (cs : List Char) : Except Fault Expr := do
  let (e, c) ← sum (operand maxDepth) ⟨cs, 0, 0⟩
  let c := c.skipBlank
  match c.rest with
  | [] => .ok e
  | o :: _ => .error (.unexpected o c.position)

def parse (text : String) : Except SyntaxError Expr :=
  (parseChars text.toList).mapError fun fault => ⟨trim text, fault⟩

end Barrage.Expr
