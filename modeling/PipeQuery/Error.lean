import PipeQuery.Command
import PipeQuery.Token.Basic

/-!
What can go wrong. Every cause has a constructor, and the wording of all messages is in the
`message` functions here.
-/
namespace PipeQuery

inductive ResolveError where
  | notFound (type name : String)
  | ambiguous (type name : String)
  deriving DecidableEq, Repr

def ResolveError.message : ResolveError → String
  | .notFound type name => type ++ " \"" ++ name ++ "\" not found"
  | .ambiguous type name => "Multiple " ++ type ++ " documents found with name \"" ++ name ++ "\""

inductive ScalarError where
  | unexpected (text : String)
  | missingOperand
  | missingArgument
  /-- A message of another reader of expressions. -/
  | other (message : String)
  deriving DecidableEq, Repr

def ScalarError.message : ScalarError → String
  | .unexpected text => "Unexpected token '" ++ text ++ "'"
  | .missingOperand => "Expected expression"
  | .missingArgument => "Expected function argument"
  | .other message => message

inductive DateTextError where
  | invalid
  | outOfRange
  | trailing
  deriving DecidableEq, Repr

def DateTextError.message : DateTextError → String
  | .invalid => "input contains invalid characters"
  | .outOfRange => "input is out of range"
  | .trailing => "trailing input"

inductive DateError where
  | missing
  | unknownFunction (text : String)
  | unexpected (text : String)
  | missingDuration
  | invalidDate (text : String) (cause : DateTextError)
  | invalidDuration (text : String)
  | outOfRange
  /-- A message of another reader of dates. -/
  | other (message : String)
  deriving DecidableEq, Repr

def DateError.message : DateError → String
  | .missing => "Expected date expression"
  | .unknownFunction text => "Unknown date function '" ++ text ++ "'"
  | .unexpected text => "Unexpected token '" ++ text ++ "' in date expression"
  | .missingDuration => "Expected duration"
  | .invalidDate text cause => "Invalid date '" ++ text ++ "': " ++ cause.message
  | .invalidDuration text => "Invalid duration '" ++ text ++ "'"
  | .outOfRange => "Date out of range"
  | .other message => message

inductive WindowPart where
  | size
  | advance
  deriving DecidableEq, Repr

def WindowPart.name : WindowPart → String
  | .size => "window"
  | .advance => "advance"

inductive Fault where
  -- tokens and groups
  | noTokens
  | unexpectedToken
  | closeWithoutOpen
  | unclosedBracket
  | missingCommand
  | missingOpenBracket
  | unknownCommand (name : String)
  | notAPipe
  -- clauses
  | missingSource (before : Clause)
  | clauseOrder (clause : Clause) (after : List Clause)
  | strayLogic (op : Logic)
  -- conditions
  | incompleteTerm
  | notAField
  | notACondition
  | missingBetweenAnd
  | missingUpperBound
  | missingDictionary
  | notADictionaryName (kind : TokenKind)
  | notAList
  | leadingComma
  | doubledComma
  | missingComma
  | trailingComma
  | functionInValue
  | missingParamName
  | missingTermBefore (op : Logic)
  | missingTermAfter (op : Logic)
  | trailingLogic (op : Logic)
  | emptyExtension (op : Logic)
  -- data source
  | expectedSource
  | noDataSource
  | missingDataSource
  | extraDataSource (nodes : List (TokenKind × String))
  | notADataSource
  -- eval
  | missingVariable
  | notAVariable
  | missingEquals
  | missingEvalExpression
  -- window
  | missingWindowField
  | notAWindowField
  | missingBy
  | missingDuration (part : WindowPart)
  | notADuration (part : WindowPart)
  | missingWindowFunction
  -- sort, group and limit
  | notADirection
  | missingSeparator
  | missingFieldName
  | notASortField
  | notALimit
  -- select
  | unexpectedExpression
  | unexpectedField
  | unexpectedColumnName
  | missingAs
  | nothingToName
  | repeatedAs
  -- visualisation
  | notAVisual
  | missingParameter
  | incompleteParameter
  | notAParameter
  | notAColumn
  | unknownColumn (name : String)
  -- what other readers found
  | resolve (e : ResolveError)
  | scalar (e : ScalarError)
  | date (e : DateError)
  deriving DecidableEq, Repr

def Fault.message : Fault → String
  | .noTokens => "No tokens"
  | .unexpectedToken => "Unexpected token"
  | .closeWithoutOpen => "Close bracket without open"
  | .unclosedBracket => "No matching close bracket"
  | .missingCommand => "Expected command after pipe"
  | .missingOpenBracket => "Expected open bracket after function name"
  | .unknownCommand name => "Unknown pipe operation '" ++ name ++ "'"
  | .notAPipe => "Expected pipe group"
  | .missingSource before => "Required from before " ++ before.name
  | .clauseOrder clause after =>
    "Unexpected " ++ clause.name ++ " after " ++ ", ".intercalate (after.map (·.name))
  | .strayLogic op => "Unexpected " ++ op.keyword ++ " outside where, filter or having"
  | .incompleteTerm => "Incomplete term"
  | .notAField => "Expected field string"
  | .notACondition => "Expected condition token"
  | .missingBetweenAnd => "Expected between and"
  | .missingUpperBound => "Expected value after between and"
  | .missingDictionary => "Expected dictionary name"
  | .notADictionaryName kind => "Expected dictionary name not " ++ kind.name ++ " token"
  | .notAList => "Expected parentheses after IN clause"
  | .leadingComma => "Unexpected leading comma"
  | .doubledComma => "Unexpected comma"
  | .missingComma => "Expected comma delimited"
  | .trailingComma => "Unexpected trailing comma"
  | .functionInValue => "Unexpected function in value"
  | .missingParamName => "Expected param name"
  | .missingTermBefore op => "Expected term before " ++ op.keyword
  | .missingTermAfter op => "Expected term after " ++ op.keyword
  | .trailingLogic op => "Trailing " ++ op.keyword
  | .emptyExtension op => "Expected expression after " ++ op.keyword
  | .expectedSource => "Expected from"
  | .noDataSource => "No data source has been specified."
  | .missingDataSource => "Expected data source value"
  | .extraDataSource nodes =>
    "Unexpected data source child tokens: " ++
      ", ".intercalate (nodes.map fun (kind, text) => kind.name ++ ":[" ++ text ++ "]")
  | .notADataSource => "Expected a token of type string"
  | .missingVariable => "Expected variable name following eval"
  | .notAVariable => "Expected variable name"
  | .missingEquals => "Expected equals"
  | .missingEvalExpression => "Expected eval expression"
  | .missingWindowField => "Expected field"
  | .notAWindowField => "Syntax exception"
  | .missingBy => "Syntax exception, expected by"
  | .missingDuration part => "Syntax exception, expected " ++ part.name ++ " duration"
  | .notADuration part => "Syntax exception, expected valid " ++ part.name ++ " duration"
  | .missingWindowFunction => "Syntax exception, expected using function"
  | .notADirection => "Syntax exception, expected sort direction 'asc' or 'desc'"
  | .missingSeparator => "Syntax exception, expected comma"
  | .missingFieldName => "Syntax exception, expected field name"
  | .notASortField => "Syntax exception, expected string"
  | .notALimit => "Syntax exception, expected number"
  | .unexpectedExpression => "Unexpected expression"
  | .unexpectedField => "Unexpected field"
  | .unexpectedColumnName => "Syntax exception, unexpected column name"
  | .missingAs => "Syntax exception, expected AS"
  | .nothingToName => "Syntax exception, expected field name or expression"
  | .repeatedAs => "Unexpected AS"
  | .notAVisual => "Expected visualisation type"
  | .missingParameter => "Expected parameter"
  | .incompleteParameter => "Expected parameter = column"
  | .notAParameter => "Expected parameter name"
  | .notAColumn => "Expected column name"
  | .unknownColumn name => "Unknown column '" ++ name ++ "'"
  | .resolve e => e.message
  | .scalar e => e.message
  | .date e => e.message

structure SyntaxError where
  fault : Fault
  place : Option Place := none
  deriving DecidableEq, Repr

def SyntaxError.message (e : SyntaxError) : String := e.fault.message

/-- How a reading ends without a result. -/
inductive Failure (ε : Type) where
  /-- The input was refused. -/
  | rejected (e : ε)
  /-- The arithmetic of dates went past its limits, which ends the whole run. -/
  | overflow
  deriving DecidableEq, Repr

namespace Failure

def map {ε δ : Type} (f : ε → δ) : Failure ε → Failure δ
  | .rejected e => .rejected (f e)
  | .overflow => .overflow

end Failure

abbrev Result (α : Type) := Except (Failure SyntaxError) α

/-- A reading that can only be refused, as a reading of a query. -/
def Result.ofExcept {α : Type} : Except SyntaxError α → Result α
  | .ok a => .ok a
  | .error e => .error (.rejected e)

def Place.reject {α : Type} (place : Place) (fault : Fault) : Result α :=
  .error (.rejected ⟨fault, some place⟩)

end PipeQuery
