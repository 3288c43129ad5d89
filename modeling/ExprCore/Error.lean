import ExprCore.Host.Fault
import ExprCore.Value

/-!
Errors of evaluation. An error is a cause and the notes that evaluation added on the way out; the
wording of each cause stands in one place.
-/

namespace ExprCore
set_option autoImplicit false

inductive ErrorKind where
  | divisionByZero
  | integerOverflow (operation : String)
  | typeMismatch (expected got : String)
  | invalidOperand (op typeName : String)
  | binaryTypeMismatch (op left right : String)
  | undefinedVariable (name : String)
  | immutableBinding (name : String)
  | indexOutOfBounds (index : Int) (length : Nat)
  | cannotIndex (typeName : String)
  | cannotAssignIndex (typeName : String)
  | nullReference (operation : String)
  | noSuchMember (member typeName : String)
  | mapKeysMustBeStrings (got : String)
  | invalidAssignmentTarget
  | arityMismatch (name expected : String) (got : Nat)
  | notCallable (typeName : String)
  | hostDispatch (operation : String) (cause : HostFault)
  | thrown (message : String)
  | custom (message : String)
  /-- Not a failure: a value on its way out to the innermost block or function body. -/
  | earlyReturn (value : Value)

def ErrorKind.name : ErrorKind → String
  | .divisionByZero => "DivisionByZero"
  | .integerOverflow _ => "IntegerOverflow"
  | .typeMismatch .. => "TypeMismatch"
  | .invalidOperand .. => "InvalidOperand"
  | .binaryTypeMismatch .. => "BinaryTypeMismatch"
  | .undefinedVariable _ => "UndefinedVariable"
  | .immutableBinding _ => "ImmutableBinding"
  | .indexOutOfBounds .. => "IndexOutOfBounds"
  | .cannotIndex _ => "CannotIndex"
  | .cannotAssignIndex _ => "CannotAssignIndex"
  | .nullReference _ => "NullReference"
  | .noSuchMember .. => "NoSuchMember"
  | .mapKeysMustBeStrings _ => "MapKeysMustBeStrings"
  | .invalidAssignmentTarget => "InvalidAssignmentTarget"
  | .arityMismatch .. => "ArityMismatch"
  | .notCallable _ => "NotCallable"
  | .hostDispatch .. => "HostDispatch"
  | .thrown _ => "Thrown"
  | .custom _ | .earlyReturn _ => "Custom"

def ErrorKind.text : ErrorKind → String
  | .divisionByZero => "division by zero"
  | .integerOverflow operation => "integer overflow in " ++ operation
  | .typeMismatch expected got => "type mismatch: expected " ++ expected ++ ", got " ++ got
  | .invalidOperand op typeName =>
    "operator `" ++ op ++ "` cannot be applied to " ++ typeName
  | .binaryTypeMismatch op left right =>
    "operator `" ++ op ++ "` cannot be applied to `" ++ left ++ "` and `" ++
      right ++ "`"
  | .undefinedVariable name => "undefined variable: " ++ name
  | .immutableBinding name => "cannot assign to final variable: " ++ name
  | .indexOutOfBounds index length =>
    "index " ++ toString index ++ " out of bounds for length " ++ toString length
  | .cannotIndex typeName => "cannot index into " ++ typeName
  | .cannotAssignIndex typeName => "cannot assign through an index into " ++ typeName
  | .nullReference operation => "null reference in " ++ operation
  | .noSuchMember member typeName => "no member `" ++ member ++ "` on " ++ typeName
  | .mapKeysMustBeStrings got => "map keys must be strings, got " ++ got
  | .invalidAssignmentTarget => "invalid assignment target"
  | .arityMismatch name expected got =>
    name ++ " expects " ++ expected ++ " arguments, got " ++ toString got
  | .notCallable typeName => typeName ++ " is not callable"
  | .hostDispatch operation _ => "host call failed: " ++ operation
  | .thrown message | .custom message => message
  | .earlyReturn _ => "return"

structure EvalError where
  kind : ErrorKind
  /-- What evaluation was doing, innermost first. -/
  notes : List String

namespace EvalError

def of (kind : ErrorKind) : EvalError := ⟨kind, []⟩

def withNote (e : EvalError) (note : String) : EvalError := ⟨e.kind, e.notes ++ [note]⟩

def message (e : EvalError) : String :=
  match e.kind with
  | .hostDispatch _ cause => e.kind.text ++ ": " ++ cause.text
  | kind => kind.text

def text (e : EvalError) : String :=
  e.message ++ String.join (e.notes.map fun note => "\n  note: " ++ note)

def returned? (e : EvalError) : Option Value :=
  match e.kind with
  | .earlyReturn v => some v
  | _ => none

end EvalError

end ExprCore
