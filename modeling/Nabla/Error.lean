import Nabla.Decimal.Reader
import Nabla.Json.Text

/-!
# What can go wrong

Every failure of the library is one of these causes, and `Error.message` holds the wording of all of
them.
-/

namespace Nabla

/-- What was to be done with an expression. -/
inductive Task where
  | differentiate
  | simplify
  | evaluate
  | substitute
  | emit
deriving DecidableEq, Repr

def Task.phrase : Task → String
  | .differentiate => "differentiate"
  | .simplify => "simplify"
  | .evaluate => "evaluate"
  | .substitute => "substitute in"
  | .emit => "emit code for"

/-- The kinds of data that have positions. -/
inductive Sequence where
  | list
  | tuple
  | text
deriving DecidableEq, Repr

def Sequence.phrase : Sequence → String
  | .list => "list"
  | .tuple => "tuple"
  | .text => "string"

/-- A cause of failure. A `kind` is the word by which messages name a kind of value. -/
inductive Error where
  /-- A function was given the wrong number of arguments. -/
  | arity (function expected : String) (found : Nat)
  /-- A variable has no value. -/
  | unbound (name : String)
  /-- Code was to be made for a variable that is no parameter. -/
  | notParameter (name : String)
  /-- Nothing is known about how to compute the function. -/
  | unknownFunction (name : String)
  /-- The lambda has no body. -/
  | emptyLambda
  /-- A lambda was called with the wrong number of values. -/
  | argumentCount (parameters : List String) (found : Nat)
  | negativeOrder (order : String)
  /-- The task meets a value that is no expression, or a node of no kind. -/
  | unsupported (task : Task) (kind : String)
  /-- Two operands stand side by side with no operator. -/
  | noOperator
  /-- A node of no kind cannot be written down. -/
  | unwritable
  | notConvertible (kind : String)
  | booleanOperand (b : Bool)
  /-- A name that values cannot be bound to. -/
  | reservedName
  | unknownOperator (text : String)
  | unknownNode (text : String)
  | missingKey (key : String)
  /-- A record has no field for a value; `shown` is the value as it stands in a list. -/
  | missingItem (shown : String)
  | notSubscriptable (kind : String)
  /-- A position of a sequence was given by something that is no whole number. -/
  | badPosition (sequence : Sequence) (kind : String)
  | notIterable (kind : String)
  | noLength (kind : String)
  | unhashable (kind : String)
  | malformedJson
  /-- A double was wanted and the value is no number. -/
  | notReal (kind : String)
  | unreadableFloat (text : String)
  /-- A whole number was wanted and the value is no number. -/
  | notNumber (kind : String)
  | unreadableInt (text : String)
  /-- A whole number has more digits than are read. -/
  | tooManyDigits (count : Nat)
  | tooLarge
  | infiniteInt
  | undefinedInt
  /-- The shapes of two arrays do not fit together. -/
  | shapes (left right : List Nat)
  /-- The entries of a list have different shapes; `shape` is what they share. -/
  | ragged (shape : List Nat)
  /-- An array was to be stored where one number fits. -/
  | arrayEntry
  /-- Lists are nested deeper than arrays have dimensions. -/
  | tooManyDimensions (limit : Nat)
  | outOfBounds (index : Int) (size : Nat)
  /-- A position of an array was given by something that is no whole number. -/
  | badIndex
  /-- A whole number was wanted and an array was given. -/
  | arrayIndex
  /-- An array was to count as yes or no, and it does not hold one number. -/
  | ambiguous (empty : Bool)
  | outOfRange (sequence : Sequence)
  /-- A position does not fit into a machine word. -/
  | hugePosition
  | unorderable (kind : String)
  | notInteger (kind : String)
  | notAddable (kind : String)
  | badOperand (sign kind : String)
  | noMember (kind member : String)
  | unexpectedKeyword (callee key : String)
  | repeatedKeyword (callee key : String)
  | missingKeywords (callee : String) (keys : List String)
  | surplusArguments (callee : String) (expected found : Nat)
  | unknownErrorModel (model : String)
  | alreadyRegistered (key : String)
  | noProperty (owner key : String)
  | fixedClass (kind : String)
  | fixedFields (kind : String)
  | fixedMember (owner member : String)
  /-- The generated code cannot be read. -/
  | badCode (line : Nat)
  /-- The brackets of the generated code are nested too deep. -/
  | tooNested (line : Nat)
  /-- What is called is no function. -/
  | notCallable (kind : String)
deriving Inhabited

/-! ## Pieces of messages -/

/-- A shape with commas only: `(2,3)`, and `(2,)` for one dimension. -/
def tightShape : List Nat → String
  | [n] => "(" ++ natText n ++ ",)"
  | ns => "(" ++ ",".intercalate (ns.map natText) ++ ")"

/-- A shape with a blank behind each comma: `(2, 3)`, and `(2,)` for one dimension. -/
def looseShape (ns : List Nat) : String := tupleText (ns.map natText)

/-- A word between single marks, whatever it holds. -/
def tick (word : String) : String := "'" ++ word ++ "'"

/-- Words between single marks, as an enumeration. -/
def tickList : List String → String
  | [] => ""
  | [a] => tick a
  | [a, b] => tick a ++ " and " ++ tick b
  | many => commaList (many.dropLast.map tick) ++ ", and " ++ tick (many.getLastD "")

def arityMessage (lead function found : String) (expected : Option String) : String :=
  match expected with
  | none => lead ++ " for " ++ function ++ ": found " ++ found
  | some n => lead ++ " for " ++ function ++ ": expected " ++ n ++ ", found " ++ found

/-- A quoted text, cut off after 200 characters. -/
def excerpt (text : String) : String := String.ofList ((Text.quote text).toList.take 200)

def argumentWord (n : Nat) : String := if n = 1 then "argument" else "arguments"

def arrayEntryText : String := "setting an array element with a sequence."

/-- A statement about a name. -/
def namedMessage (lead name : String) : String := lead ++ " " ++ tick name

/-- A statement about a line of generated code. -/
def atLine (lead : String) (line : Nat) : String :=
  lead ++ " (<string>, line " ++ natText line ++ ")"

def arityLead : String := "Wrong number of arguments"

def unboundLead : String := "No value provided for variable"

def unknownFunctionLead : String := "There is no numeric implementation for function"

def emptyLambdaText : String := "The Lambda is empty and cannot be evaluated"

namespace Error

/-- The text of a failure. -/
def message : Error → String
  | arity function expected found => arityMessage arityLead function (natText found) (some expected)
  | unbound name => namedMessage unboundLead name
  | notParameter name => namedMessage "The variable is not a parameter" name
  | unknownFunction name => namedMessage unknownFunctionLead name
  | emptyLambda => emptyLambdaText
  | argumentCount parameters found =>
    "Expected " ++ natText parameters.length ++ " arguments (" ++ commaList parameters ++ "), got " ++
      natText found
  | negativeOrder order => "The derivative order must be non negative, got " ++ order
  | unsupported task kind => "Cannot " ++ task.phrase ++ " " ++ kind
  | noOperator => Text.quote ""
  | unwritable => ""
  | notConvertible kind => "Cannot convert " ++ kind ++ " into an expression"
  | booleanOperand b => "Cannot convert a boolean (" ++ (Json.bool b).text ++ ") into an expression"
  | reservedName => "Expr.eval() got multiple values for argument 'self'"
  | unknownOperator text => "Unknown binary operator " ++ text
  | unknownNode text => "Unknown expression type " ++ text
  | missingKey key => Text.quote key
  | missingItem shown => shown
  | notSubscriptable kind => tick kind ++ " object is not subscriptable"
  | badPosition .text kind => "string indices must be integers, not " ++ tick kind
  | badPosition sequence kind => sequence.phrase ++ " indices must be integers or slices, not " ++ kind
  | notIterable kind => tick kind ++ " object is not iterable"
  | noLength kind => "object of type " ++ tick kind ++ " has no len()"
  | unhashable kind => "unhashable type: " ++ tick kind
  | malformedJson => ""
  | notReal kind => "float() argument must be a string or a real number, not " ++ tick kind
  | unreadableFloat text => "could not convert string to float: " ++ Text.quote text
  | notNumber kind =>
    "int() argument must be a string, a bytes-like object or a real number, not " ++ tick kind
  | unreadableInt text =>
    "invalid literal for int() with base 10: " ++ excerpt text
  | tooManyDigits count =>
    "Exceeds the limit (" ++ natText Decimal.digitLimit ++
      " digits) for integer string conversion: value has " ++ natText count ++
      " digits; use sys.set_int_max_str_digits() to increase the limit"
  | tooLarge => "int too large to convert to float"
  | infiniteInt => "cannot convert float infinity to integer"
  | undefinedInt => "cannot convert float NaN to integer"
  | shapes left right =>
    "operands could not be broadcast together with shapes " ++ tightShape left ++ " " ++
      tightShape right ++ " "
  | ragged shape =>
    arrayEntryText ++ " The requested array has an inhomogeneous shape after " ++
      natText shape.length ++ " dimensions. The detected shape was " ++ looseShape shape ++
      " + inhomogeneous part."
  | arrayEntry => arrayEntryText
  | tooManyDimensions limit =>
    arrayEntryText ++ " The requested array would exceed the maximum number of dimension of " ++
      natText limit ++ "."
  | outOfBounds index size =>
    "index " ++ intText index ++ " is out of bounds for axis 0 with size " ++ natText size
  | badIndex =>
    "only integers, slices (`:`), ellipsis (`...`), numpy.newaxis (`None`) and integer or boolean " ++
      "arrays are valid indices"
  | arrayIndex => "only integer scalar arrays can be converted to a scalar index"
  | ambiguous true =>
    "The truth value of an empty array is ambiguous. Use `array.size > 0` to check that an array " ++
      "is not empty."
  | ambiguous false =>
    "The truth value of an array with more than one element is ambiguous. Use a.any() or a.all()"
  | outOfRange sequence => sequence.phrase ++ " index out of range"
  | hugePosition => "cannot fit 'int' into an index-sized integer"
  | unorderable kind => "'<' not supported between instances of " ++ tick kind ++ " and 'int'"
  | notInteger kind => tick kind ++ " object cannot be interpreted as an integer"
  | notAddable kind => "unsupported operand type(s) for +: " ++ tick kind ++ " and 'str'"
  | badOperand sign kind => "bad operand type for unary " ++ sign ++ ": " ++ tick kind
  | noMember kind member => tick kind ++ " object has no attribute " ++ tick member
  | unexpectedKeyword callee key => callee ++ " got an unexpected keyword argument " ++ tick key
  | repeatedKeyword callee key => callee ++ " got multiple values for argument " ++ tick key
  | missingKeywords callee keys =>
    callee ++ " missing " ++ natText keys.length ++ " required positional " ++
      argumentWord keys.length ++ ": " ++ tickList keys
  | surplusArguments callee expected found =>
    callee ++ " takes " ++ natText expected ++ " positional " ++ argumentWord expected ++ " but " ++
      natText found ++ (if found = 1 then " was" else " were") ++ " given"
  | unknownErrorModel model => Text.quote model
  | alreadyRegistered key => Text.quote ("Property " ++ key ++ " already registered!")
  | noProperty owner key => owner ++ " has no property " ++ key ++ " to register"
  | fixedClass kind => "__class__ must be set to a class, not " ++ tick kind ++ " object"
  | fixedFields kind => "__dict__ must be set to a dictionary, not a " ++ tick kind
  | fixedMember owner member =>
    "attribute " ++ tick member ++ " of " ++ tick owner ++ " objects is not writable"
  | badCode line => atLine "invalid syntax. Perhaps you forgot a comma?" line
  | tooNested line => atLine "too many nested parentheses" line
  | notCallable kind => tick kind ++ " object is not callable"

end Error

end Nabla
