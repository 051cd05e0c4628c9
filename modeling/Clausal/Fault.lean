import Clausal.Limit
import Clausal.Term.Text
import Clausal.Text.Quoted

/-!
# Faults

Everything that can go wrong, by cause, and the message for each cause. That a query has no answer
is not a fault.
-/

namespace Clausal

/-- What a parser was looking for when it met something else. -/
inductive Expectation where
  | symbol (text : String)
  | predicate
  | lowercasePredicate
  | term
  | fact
  | endOfInput

/-- Why a text is not a clause, a query or a term. Positions count characters from the start of the
text; `found` is the text of the offending token, or nothing at the end of the text. -/
inductive ParseFault where
  | unexpectedChar (c : Char) (position : Nat)
  | unexpected (wanted : Expectation) (found : Option String) (position : Nat)
  | notGoal (found : Term) (position : Nat)
  | missingNeck
  | emptyQuery

/-- Why an arithmetic expression has no value. -/
inductive ArithmeticFault where
  | notNumber (t : Term)
  | unknownOperator (name : String)
  | divisionByZero
  | overflow (t : Term)
  | invalid (t : Term)

/-- Why a value cannot be turned into a term or a clause. -/
inductive ConversionFault where
  | emptyFunctor
  | emptyFact
  | emptyGoal
  | emptyText
  | boolean
  | noTerm (kind : String)
  | notFact (shown : String)
  | infinityToInteger
  | nanToInteger
  | integerToFloat

/-- Why a configuration is refused. Texts show the refused value. -/
inductive SettingsFault where
  | strategy (shown : String)
  | renamingMode (shown : String)
  | negativeDepth
  | level (shown : String)
  | shape
  | noLevel
  | json
  | yaml

/-- Why a log record cannot be written. -/
inductive LogFault where
  | arguments
  | year (value : Int)
  | noMoment
  | farMoment

/-- A failure that is reported to the caller. A search without a depth limit may also never end:
then nothing is reported, and `divergent` stands for that. -/
inductive Fault where
  | parse (cause : ParseFault)
  | longNumeral (digits : Nat)
  | unwritable
  | endless
  | depthExceeded (depth : Nat) (limit : Limit)
  | divergent
  | arithmetic (cause : ArithmeticFault)
  | conversion (cause : ConversionFault)
  | settings (cause : SettingsFault)
  | log (cause : LogFault)
  | invalidClause (reason : String)
  | disabled (feature : String)
  | notInitialized

namespace Expectation

def message : Expectation → String
  | symbol text => "Expected '" ++ text ++ "'"
  | predicate => "Expected a predicate name"
  | lowercasePredicate => "Predicate names cannot start with an uppercase letter"
  | term => "Expected a term"
  | fact => "Expected a fact, not a rule"
  | endOfInput => "Unexpected trailing input"

end Expectation

namespace ParseFault

/-- Where the fault lies, if it lies in one place. -/
def position? : ParseFault → Option Nat
  | unexpectedChar _ p => some p
  | unexpected _ _ p => some p
  | notGoal _ p => some p
  | missingNeck => none
  | emptyQuery => none

/-- The fault in words, without its place. -/
def description : ParseFault → String
  | unexpectedChar c _ => "Unexpected character " ++ Text.quoted (String.singleton c)
  | unexpected wanted found _ =>
    wanted.message ++ ", found " ++
      (match found with
        | some text => Text.quoted text
        | none => "end of input")
  | notGoal found _ => "Expected a goal, found " ++ found.text
  | missingNeck => "Invalid rule format: missing ':-'"
  | emptyQuery => "Empty query"

/-- The fault in words, with its place. -/
def message (f : ParseFault) : String :=
  match f.position? with
  | some p => f.description ++ " (at position " ++ toString p ++ ")"
  | none => f.description

end ParseFault

namespace ArithmeticFault

def message : ArithmeticFault → String
  | notNumber t => t.text ++ " is not a number"
  | unknownOperator name => "Unknown arithmetic operator: " ++ name
  | divisionByZero => "Division by zero"
  | overflow t => "Arithmetic overflow in " ++ t.text
  | invalid t => "Invalid arithmetic expression: " ++ t.text

end ArithmeticFault

namespace ConversionFault

def message : ConversionFault → String
  | emptyFunctor => "Compound term functor cannot be empty"
  | emptyFact => "Fact predicate cannot be empty"
  | emptyGoal => "Goal predicate cannot be empty"
  | emptyText => "Cannot build a term from an empty string"
  | boolean => "Booleans have no term representation"
  | noTerm kind => "Cannot convert " ++ kind ++ " to a term"
  | notFact shown => "Cannot build a fact from " ++ shown
  | infinityToInteger => "cannot convert float infinity to integer"
  | nanToInteger => "cannot convert float NaN to integer"
  | integerToFloat => "int too large to convert to float"

end ConversionFault

namespace SettingsFault

def message : SettingsFault → String
  | strategy shown =>
    "Unknown strategy " ++ shown ++ ", expected one of ('baseline', 'constrained')"
  | renamingMode shown =>
    "Unknown renaming mode " ++ shown ++ ", expected one of ('application', 'depth')"
  | negativeDepth => "max_depth must be non-negative"
  | level shown =>
    "Unknown log level " ++ shown ++
      ", expected one of ('DEBUG', 'INFO', 'WARNING', 'ERROR', 'CRITICAL')"
  | shape => "a section or a value has the wrong shape"
  | noLevel => "no such log level"
  | json => "malformed JSON"
  | yaml => "malformed YAML"

end SettingsFault

namespace LogFault

def message : LogFault → String
  | arguments => "the arguments do not fit the message"
  | year value => "year " ++ toString value ++ " is out of range"
  | noMoment => "Invalid value NaN (not a number)"
  | farMoment => "timestamp out of range for platform time_t"

end LogFault

namespace Fault

def message : Fault → String
  | parse cause => cause.message
  | longNumeral digits =>
    "Exceeds the limit (4300 digits) for integer string conversion: value has " ++
      toString digits ++ " digits; use sys.set_int_max_str_digits() to increase the limit"
  | unwritable =>
    "Exceeds the limit (4300 digits) for integer string conversion; " ++
      "use sys.set_int_max_str_digits() to increase the limit"
  | endless => "endless recursion through cyclic bindings"
  | depthExceeded depth limit =>
    "Maximum search depth exceeded (" ++ toString depth ++ " > " ++ limit.text ++ ")"
  | divergent => "the search does not end"
  | arithmetic cause => cause.message
  | conversion cause => cause.message
  | settings cause => cause.message
  | log cause => cause.message
  | invalidClause reason => reason
  | disabled feature => feature ++ " is disabled"
  | notInitialized => "Logic runtime is not initialized"

end Fault

/-- The text of a term, a fault if it has none. -/
def Term.write (t : Term) : Except Fault String :=
  if t.hasText then .ok t.text else .error .unwritable

end Clausal
