import MmixCompiler.Tree.Basic

/-! Programs without meaning: names that are not declared as they are used, values of the wrong type,
storage that cannot be addressed. -/

namespace MmixCompiler

/-- What a name stands for. A scope has one name space for all categories. -/
inductive Category where
  | variable | function | type
deriving DecidableEq

def Category.text : Category → String
  | .variable => "variable"
  | .function => "function"
  | .type => "type"

/-- Violations of the typing rules. Types are given as they are displayed. -/
inductive TypeFault where
  | voidStorage (name : String)
  | voidElement
  | containsItself (name : String)
  | tooLarge (type : String)
  | endless (name : String)
  | constantOverflow
  | constantDivision
  | wrongResult (function expected found : String)
  | notAssignable (src dst : String)
  | notAssignedTo (type : String)
  | branchTest (type : String)
  | loopTest (type : String)
  | notFunction (name : String)
  | argumentCount (function : String) (params args : Nat)
  | argumentType (param function expected found : String)
  | argumentForm (param : String)
  | unaryOperand (op : UnaryOp) (type : String)
  | binaryOperands (op : BinaryOp) (lhs rhs : String)
  | cast (src dst : String)
  | allocateVoid
  | deallocate (type : String)
  | notArray (type : String)
  | index (type : String)
  | notRecord (type : String)
  | noComponent (name : String)
  | parameterForm (name type : String)
  | resultForm (name type : String)
  | frameTooLarge (name : String)
deriving DecidableEq

def backquoted (name : String) : String := "`" ++ name ++ "`"

def TypeFault.message : TypeFault → String
  | .voidStorage name => backquoted name ++ " cannot be of type void"
  | .voidElement => "array elements cannot be of type void"
  | .containsItself name => "type " ++ backquoted name ++ " contains itself without a pointer"
  | .tooLarge type => "type " ++ backquoted type ++ " is too large"
  | .endless name => "the type of " ++ backquoted name ++ " is its own type"
  | .constantOverflow => "constant expression overflows"
  | .constantDivision => "division by zero in constant expression"
  | .wrongResult function expected found =>
    "function " ++ backquoted function ++ " returns " ++ expected ++ ", but its body is of type " ++
      found
  | .notAssignable src dst => "cannot assign " ++ src ++ " to " ++ dst
  | .notAssignedTo type => "cannot assign values of type " ++ type
  | .branchTest type => "condition of if statement must be bool, but found " ++ type
  | .loopTest type => "condition of while statement must be bool, but found " ++ type
  | .notFunction name => backquoted name ++ " is not a function"
  | .argumentCount function params args =>
    backquoted function ++ " takes " ++ toString params ++ " argument(s), but " ++ toString args ++
      " were given"
  | .argumentType param function expected found =>
    "argument " ++ backquoted param ++ " of " ++ backquoted function ++ " expects " ++ expected ++
      ", but found " ++ found
  | .argumentForm param => "parameter " ++ backquoted param ++ " must be int, char, bool or pointer"
  | .unaryOperand op type => "operator " ++ op.text ++ " cannot be applied to " ++ type
  | .binaryOperands op lhs rhs =>
    "operator " ++ op.text ++ " cannot be applied to " ++ lhs ++ " and " ++ rhs
  | .cast src dst => "cannot cast " ++ src ++ " to " ++ dst
  | .allocateVoid => "cannot allocate void"
  | .deallocate type => "cannot deallocate " ++ type
  | .notArray type => type ++ " is not an array"
  | .index type => "array index must be int, but found " ++ type
  | .notRecord type => type ++ " is not a record"
  | .noComponent name => "record has no component " ++ backquoted name
  | .parameterForm name type =>
    "parameter " ++ backquoted name ++ " must be int, char, bool or pointer, but found " ++ type
  | .resultForm name type =>
    "function " ++ backquoted name ++
      " must return void, int, char, bool or pointer, but returns " ++ type
  | .frameTooLarge name => "the frame of " ++ backquoted name ++ " is too large"

inductive SemanticFault where
  | redeclaration (name : String)
  | undeclared (name : String)
  | wrongCategory (name : String) (expected found : Category)
  | type (fault : TypeFault)
  | nonConstant
  | arrayLength (length : Int)
  | notAddressable
  | inaccessible (name : String)
deriving DecidableEq

def SemanticFault.message : SemanticFault → String
  | .redeclaration name => backquoted name ++ " is already declared in this scope"
  | .undeclared name => backquoted name ++ " is not declared"
  | .wrongCategory name expected found =>
    backquoted name ++ " is a " ++ found.text ++ ", not a " ++ expected.text
  | .type fault => "Type error: " ++ fault.message
  | .nonConstant => "Array length must be a constant expression"
  | .arrayLength length => "Invalid array length " ++ toString length
  | .notAddressable => "Expression does not denote an address"
  | .inaccessible name =>
    "lower-level function cannot access higher-level function's variable " ++ backquoted name

structure SemanticError where
  position : Position
  fault : SemanticFault
deriving DecidableEq

def SemanticError.message (e : SemanticError) : String := e.fault.message ++ " at " ++ e.position.text

end MmixCompiler
