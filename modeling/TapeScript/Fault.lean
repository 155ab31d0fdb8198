set_option autoImplicit false

/-! # Faults of compilation

The causes for which lowering a program or emitting its code can fail, and the text of each
(`Fault.message`). A cause without a text is a misuse that the language itself gives no words to.
-/

namespace TapeScript

/-- The direction of a head move. -/
inductive Direction where
  | right
  | left
  deriving DecidableEq

def Direction.name : Direction → String
  | .right => "move_right"
  | .left => "move_left"

/-- The gadgets that need pairwise distinct cells. -/
inductive Gadget where
  | copy
  | branch
  | add
  | subtract
  | equal
  | notEqual
  | greater
  | less
  | negate
  | lessOrEqual
  | greaterOrEqual
  deriving DecidableEq

def Gadget.name : Gadget → String
  | .copy => "copy_cell_preserve_source"
  | .branch => "if_else"
  | .add => "add_cells"
  | .subtract => "subtract_cells"
  | .equal => "equals"
  | .notEqual => "not_equals"
  | .greater => "greater_than"
  | .less => "less_than"
  | .negate => "logical_not"
  | .lessOrEqual => "less_than_or_equal_to"
  | .greaterOrEqual => "greater_than_or_equal_to"

/-- Parts of the language that are parsed but not compiled. -/
inductive Feature where
  | functionDefinition
  | parameters
  | stackDeclaration
  | push
  | pop
  | peek
  | returning
  | multiplication
  | division
  | stackAccess
  | call
  | arguments
  deriving DecidableEq

def Feature.message : Feature → String
  | .functionDefinition => "Function definitions are not yet supported."
  | .parameters => "Function parameters are not yet supported."
  | .stackDeclaration => "Stack declarations are not yet supported."
  | .push => "Stack push statements are not yet supported."
  | .pop => "Stack pop expressions are not yet supported."
  | .peek => "Stack peek expressions are not yet supported."
  | .returning => "Return statements are not yet supported."
  | .multiplication => "Multiplication not yet implemented."
  | .division => "Division not yet implemented."
  | .stackAccess => "Stack access not yet implemented."
  | .call => "Function calls not yet implemented."
  | .arguments => "Function arguments are not yet supported."

inductive Fault where
  /-- The scratch pool is empty. -/
  | outOfScratch
  /-- A cell given back was never a scratch cell. -/
  | notScratch
  /-- A cell given back is in the pool already. -/
  | alreadyFree
  | sizeNotPositive
  | moveNotPositive (direction : Direction)
  | negativeValue
  | sameCells (gadget : Gadget)
  /-- A repetition count beyond what a list can hold. -/
  | countTooLarge
  | unknownKind (kind : String)
  | alreadyDefined (name : String)
  | stackWithoutSize
  /-- The scope has no cells to hand out. -/
  | noCells
  | leavesGlobalScope
  | variableRedefined (name : String)
  | initialiserWithoutCode
  | undefinedName (name : String)
  | notAssignable (name kind : String)
  | assignmentWithoutCode
  | unknownOperation (op : String)
  | operandWithoutCode
  | divisionByZero
  | quotientTooLarge
  | unsupported (feature : Feature)
  | invalidCharacter (text : String)
  | invalidDefine (value : String)
  | stringMisplaced
  /-- A text that is not a number. -/
  | notANumber
  /-- A text of one character was needed. -/
  | notOneCharacter
  | notEncodable
  | invalidEscape
  /-- A node is used in a way its kind does not allow. -/
  | wrongUse
  /-- A node lacks the part that is asked for. -/
  | missingPart
  | missingItem
  /-- The program is nested too deeply. -/
  | tooDeep
  deriving DecidableEq

def Fault.message : Fault → Option String
  | .outOfScratch => some "Out of temporary cells!"
  | .notScratch => some "Cannot release non-temporary cell."
  | .alreadyFree => some "Cell already in the pool."
  | .sizeNotPositive => some "Allocation size must be positive."
  | .moveNotPositive direction => some (direction.name ++ " called with non-positive count")
  | .negativeValue => some "set_cell_value called with negative value"
  | .sameCells gadget => some (gadget.name ++ " called with non-distinct cell indices")
  | .countTooLarge => none
  | .unknownKind kind => some ("Invalid symbol type: " ++ kind)
  | .alreadyDefined name => some s!"Symbol '{name}' already defined in this scope."
  | .stackWithoutSize => some "Stack symbol must have a defined size."
  | .noCells => some "Memory manager not available in this scope."
  | .leavesGlobalScope => some "Cannot exit global scope."
  | .variableRedefined name => some s!"Variable '{name}' already defined in this scope."
  | .initialiserWithoutCode => some "Variable declaration requires an code_func for initialization."
  | .undefinedName name => some s!"Name '{name}' is not defined."
  | .notAssignable name kind => some s!"Cannot assign to non-variable '{name}' (type: {kind})."
  | .assignmentWithoutCode => some "Assignment requires an code_func for the expression."
  | .unknownOperation op => some ("Unknown binary operation: " ++ op)
  | .operandWithoutCode => some "Binary operation requires code_func for both sides."
  | .divisionByZero => some "Division by constant zero."
  | .quotientTooLarge => none
  | .unsupported feature => some feature.message
  | .invalidCharacter text => some s!"Invalid character literal: '{text}'"
  | .invalidDefine value => some s!"Invalid define value: '{value}'"
  | .stringMisplaced => some "Strings are only supported in #include directives."
  | .notANumber => none
  | .notOneCharacter => none
  | .notEncodable => none
  | .invalidEscape => none
  | .wrongUse => none
  | .missingPart => none
  | .missingItem => none
  | .tooDeep => none

end TapeScript
