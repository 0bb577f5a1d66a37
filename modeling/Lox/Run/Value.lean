import Lox.Error
import Lox.Syntax

/-!
# Values

What expressions evaluate to. Functions, classes and instances are numbers into the tables of the
machine that made them, so two of them are equal when they are the same object.
-/

set_option autoImplicit false

namespace Lox

/-- The number of a function object. -/
abbrev FunctionId := Nat

/-- The number of a class. -/
abbrev ClassId := Nat

/-- The number of an instance. -/
abbrev InstanceId := Nat

/-- Functions that the machine provides. -/
inductive Native where
  /-- The time in seconds. -/
  | clock
  deriving DecidableEq, Repr

/-- How many arguments a native function takes. -/
def Native.arity : Native → Nat
  | .clock => 0

/-- The name under which a native function is bound. -/
def Native.name : Native → String
  | .clock => "clock"

/-- Values. -/
inductive Value where
  | nil
  | bool (b : Bool)
  | number (x : Float)
  | string (s : String)
  | native (f : Native)
  | functionRef (id : FunctionId)
  | classRef (id : ClassId)
  | instanceRef (id : InstanceId)
  deriving DecidableEq, Repr

namespace Value

/-- `nil` and `false` count as false, everything else as true. -/
def isTruthy : Value → Bool
  | .nil => false
  | .bool b => b
  | _ => true

/-- Equality as programs see it. Values of different types differ; numbers compare as doubles, so
NaN differs from itself and the zeros are equal. -/
def equals : Value → Value → Bool
  | .nil, .nil => true
  | .bool a, .bool b => a == b
  | .number a, .number b => a == b
  | .string a, .string b => a == b
  | .native a, .native b => a == b
  | .functionRef a, .functionRef b => a == b
  | .classRef a, .classRef b => a == b
  | .instanceRef a, .instanceRef b => a == b
  | _, _ => false

/-! ## Operators -/

/-- A prefix operator. -/
def unary (operator : Token) (right : Value) : Except RuntimeError Value :=
  match operator.kind with
  | .punct .minus =>
    match right with
    | .number x => .ok (.number (-x))
    | _ => .error (operator.fault .operandNotNumber)
  | .punct .bang => .ok (.bool !right.isTruthy)
  | _ => .error (operator.fault .invalidUnaryOperator)

/-- An operator on two numbers. -/
def arithmetic (operator : Token) (a b : Float) : Except RuntimeError Value :=
  match operator.kind with
  | .punct .minus => .ok (.number (a - b))
  | .punct .star => .ok (.number (a * b))
  | .punct .slash => .ok (.number (a / b))
  | .punct .greater => .ok (.bool (b < a))
  | .punct .greaterEqual => .ok (.bool (b ≤ a))
  | .punct .less => .ok (.bool (a < b))
  | .punct .lessEqual => .ok (.bool (a ≤ b))
  | _ => .error (operator.fault .invalidBinaryOperator)

/-- An infix operator. Any two values can be compared for equality, strings and numbers can be
added, and the other operators take two numbers. -/
def binary (operator : Token) (left right : Value) : Except RuntimeError Value :=
  match operator.kind with
  | .punct .equalEqual => .ok (.bool (left.equals right))
  | .punct .bangEqual => .ok (.bool !(left.equals right))
  | .punct .plus =>
    match left, right with
    | .number a, .number b => .ok (.number (a + b))
    | .string a, .string b => .ok (.string (a ++ b))
    | _, _ => .error (operator.fault .operandsNotAddable)
  | _ =>
    match left, right with
    | .number a, .number b => arithmetic operator a b
    | _, _ => .error (operator.fault .operandsNotNumbers)

end Value

/-- The value of a constant. -/
def Literal.value : Literal → Value
  | .number x => .number x
  | .string s => .string s
  | .true => .bool Bool.true
  | .false => .bool Bool.false
  | .nil => .nil

end Lox
