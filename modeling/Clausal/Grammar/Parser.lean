import Clausal.Clause.Basic
import Clausal.Decimal.Reading
import Clausal.Grammar.Token
import Clausal.Text.Classes

/-!
# Parsing

Terms, facts, rules, queries and programs are read from tokens by descent. Parsers return what they
read together with the tokens that follow. Nested expressions stand in parentheses, so the number of
tokens bounds how deep they nest, and every round of a repetition takes at least one token.
-/

namespace Clausal.Grammar

-- Powers are the built-in ones, also where an algebraic structure on the numbers has others.
attribute [local instance (high)] instPowNat

/-- A parser of the tokens of a text that ends at a given place. -/
abbrev Parser (α : Type) := (stop : Nat) → List Token → Except Fault (α × List Token)

/-- The fault that something else was expected where these tokens start. -/
def unexpected {α : Type} (wanted : Expectation) (stop : Nat) : List Token → Except Fault α
  | [] => .error (.parse (.unexpected wanted none stop))
  | t :: _ => .error (.parse (.unexpected wanted (some t.text) t.pos))

def startsWith (symbol : String) : List Token → Bool
  | [] => false
  | t :: _ => t.kind != .string && t.text == symbol

def startsWithKind (kind : TokenKind) : List Token → Bool
  | [] => false
  | t :: _ => t.kind == kind

def expect (symbol : String) : Parser Unit := fun stop ts =>
  if startsWith symbol ts then .ok ((), ts.drop 1) else unexpected (.symbol symbol) stop ts

/-- The predicate that a relation symbol between two expressions stands for. -/
def relation? : String → Option String
  | "=" => some "="
  | "<" => some "<"
  | ">" => some ">"
  | "<=" => some "<="
  | "=<" => some "<="
  | ">=" => some ">="
  | "is" => some "is"
  | _ => none

/-- Integers of terms that are written in clauses have sixty-four bits. -/
def isInt64 (n : Int) : Bool :=
  decide (-2 ^ (63 : Nat) ≤ n) && decide (n ≤ 2 ^ (63 : Nat) - 1)

/-- The term of a numeral: an integer if it is written without fraction and exponent and fits into
sixty-four bits, a floating-point number otherwise. -/
def numeral (negative : Bool) (text : String) : Except Fault Term :=
  let cs := text.toList
  let value : Float := (Decimal.Numeral.ofChars cs).toFloat negative
  if cs.all Text.isDigit then
    if Number.digitLimit < cs.length then .error (.longNumeral cs.length)
    else
      let magnitude : Int := Text.digitsValue cs
      let n := if negative then -magnitude else magnitude
      if isInt64 n then .ok (.int n) else .ok (.float value)
  else .ok (.float value)

/-- The characters of a string without the backslashes that protect them. -/
def unescape : List Char → List Char
  | '\\' :: c :: cs => c :: unescape cs
  | c :: cs => c :: unescape cs
  | [] => []

/-- The value of a string token: what stands between its quotes. -/
def stringValue (text : String) : String :=
  String.ofList (unescape (text.toList.drop 1).dropLast)

/-- More expressions, each after a comma. -/
def moreArguments (expr : Parser Term) : Nat → Parser (List Term)
  | 0, _, ts => .ok ([], ts)
  | n + 1, stop, ts =>
    if startsWith "," ts then
      match expr stop (ts.drop 1) with
      | .error e => .error e
      | .ok (t, ts) =>
        match moreArguments expr n stop ts with
        | .error e => .error e
        | .ok (args, ts) => .ok (t :: args, ts)
    else .ok ([], ts)

/-- Arguments in parentheses, or none at all. -/
def arguments (expr : Parser Term) : Parser (List Term) := fun stop ts =>
  if startsWith "(" ts then
    let inner := ts.drop 1
    if startsWith ")" inner then .ok ([], inner.drop 1)
    else
      match expr stop inner with
      | .error e => .error e
      | .ok (t, ts) =>
        match moreArguments expr ts.length stop ts with
        | .error e => .error e
        | .ok (args, ts) =>
          match expect ")" stop ts with
          | .error e => .error e
          | .ok ((), ts) => .ok (t :: args, ts)
  else .ok ([], ts)

/-- A name that is not a variable, with its arguments. -/
def constant (expr : Parser Term) (name : String) : Parser Term := fun stop ts =>
  match arguments expr stop ts with
  | .error e => .error e
  | .ok ([], ts) => .ok (.atom name, ts)
  | .ok (args, ts) => .ok (.compound name args, ts)

/-- An operator symbol in front of its arguments. -/
def prefixed (expr : Parser Term) (symbol : String) : Parser Term := fun stop ts =>
  match arguments expr stop ts with
  | .error e => .error e
  | .ok (args, ts) => .ok (.compound ((relation? symbol).getD symbol) args, ts)

def parenthesized (expr : Parser Term) : Parser Term := fun stop ts =>
  match expr stop ts with
  | .error e => .error e
  | .ok (t, ts) =>
    match expect ")" stop ts with
    | .error e => .error e
    | .ok ((), ts) => .ok (t, ts)

/-- A factor of a product: a parenthesized expression, a number, a string, a variable, a constant, a
compound term, or an operator applied to arguments. -/
def factor (expr : Parser Term) : Parser Term := fun stop ts =>
  match ts with
  | [] => unexpected .term stop ts
  | token :: rest =>
    match token.kind with
    | .punct => if token.text == "(" then parenthesized expr stop rest else unexpected .term stop ts
    | .number => (numeral false token.text).map (·, rest)
    | .string => .ok (.str (stringValue token.text), rest)
    | .name =>
      if Text.startsUpper token.text then .ok (.var token.text, rest)
      else constant expr token.text stop rest
    | .op =>
      match token.text == "-", rest with
      | true, ⟨.number, digits, _⟩ :: rest => (numeral true digits).map (·, rest)
      | _, rest =>
        if startsWith "(" rest then prefixed expr token.text stop rest
        else unexpected .term stop ts
    | .neck => unexpected .term stop ts

/-- Joins further operands to the left one, as long as one of the operators follows. -/
def operands (operators : List String) (operand : Parser Term) : Nat → Term → Parser Term
  | 0, left, _, ts => .ok (left, ts)
  | n + 1, left, stop, ts =>
    match ts with
    | ⟨.op, op, _⟩ :: rest =>
      if operators.contains op then
        match operand stop rest with
        | .error e => .error e
        | .ok (right, ts) => operands operators operand n (.compound op [left, right]) stop ts
      else .ok (left, ts)
    | _ => .ok (left, ts)

/-- Operands joined by some of the operators, from left to right. -/
def joined (operators : List String) (operand : Parser Term) : Parser Term := fun stop ts =>
  match operand stop ts with
  | .error e => .error e
  | .ok (left, ts) => operands operators operand ts.length left stop ts

/-- An expression whose parentheses nest less deep than the given bound. -/
def expressionWithin : Nat → Parser Term
  | 0 => unexpected .term
  | n + 1 => joined ["+", "-"] (joined ["*", "/"] (factor (expressionWithin n)))

/-- An expression: a sum of products of factors. -/
def expression : Parser Term := fun stop ts => expressionWithin (ts.length + 1) stop ts

/-- The head of a clause: a name that is not a variable, with its arguments. -/
def literal : Parser Fact := fun stop ts =>
  match ts with
  | ⟨.name, name, _⟩ :: rest =>
    if Text.startsUpper name then unexpected .lowercasePredicate stop ts
    else
      match arguments expression stop rest with
      | .error e => .error e
      | .ok (args, ts) => .ok (⟨name, args⟩, ts)
  | _ => unexpected .predicate stop ts

/-- The relation symbol that follows, as the predicate it stands for. -/
def relationAhead? : List Token → Option String
  | ⟨.op, text, _⟩ :: _ => relation? text
  | ⟨.name, text, _⟩ :: _ => relation? text
  | _ => none

/-- The place where the next token starts. -/
def startOf (stop : Nat) : List Token → Nat
  | [] => stop
  | t :: _ => t.pos

/-- A goal without its negation: two expressions with a relation between them, an atom, or
a compound term. -/
def relationOrLiteral (negated : Bool) : Parser Goal := fun stop ts =>
  match expression stop ts with
  | .error e => .error e
  | .ok (left, rest) =>
    match relationAhead? rest with
    | some relation =>
      match expression stop (rest.drop 1) with
      | .error e => .error e
      | .ok (right, rest) => .ok (⟨relation, [left, right], negated⟩, rest)
    | none =>
      match left with
      | .compound functor args => .ok (⟨functor, args, negated⟩, rest)
      | .atom name => .ok (⟨name, [], negated⟩, rest)
      | _ => .error (.parse (.notGoal left (startOf stop ts)))

/-- A goal. The word `not` is a negation exactly when a name follows. -/
def goal : Parser Goal := fun stop ts =>
  match ts with
  | ⟨.name, "not", _⟩ :: rest =>
    if startsWithKind .name rest then relationOrLiteral true stop rest
    else relationOrLiteral false stop ts
  | _ => relationOrLiteral false stop ts

/-- More goals, each after a comma. -/
def moreGoals : Nat → Parser (List Goal)
  | 0, _, ts => .ok ([], ts)
  | n + 1, stop, ts =>
    if startsWith "," ts then
      match goal stop (ts.drop 1) with
      | .error e => .error e
      | .ok (g, ts) =>
        match moreGoals n stop ts with
        | .error e => .error e
        | .ok (gs, ts) => .ok (g :: gs, ts)
    else .ok ([], ts)

/-- Goals separated by commas. -/
def goalList : Parser (List Goal) := fun stop ts =>
  match goal stop ts with
  | .error e => .error e
  | .ok (g, ts) =>
    match moreGoals ts.length stop ts with
    | .error e => .error e
    | .ok (gs, ts) => .ok (g :: gs, ts)

/-- A fact or a rule without its period. -/
def clause : Parser Clause := fun stop ts =>
  match literal stop ts with
  | .error e => .error e
  | .ok (head, ts) =>
    if startsWith ":-" ts then
      match goalList stop (ts.drop 1) with
      | .error e => .error e
      | .ok (goals, ts) => .ok (.rule ⟨head, goals⟩, ts)
    else .ok (.fact head, ts)

/-- Clauses, each ended by a period; the last period may be missing. -/
def clauses : Nat → (stop : Nat) → List Token → Except Fault (List Clause)
  | 0, _, _ => .ok []
  | n + 1, stop, ts =>
    if ts.isEmpty then .ok []
    else
      match clause stop ts with
      | .error e => .error e
      | .ok (c, ts) =>
        if ts.isEmpty then .ok [c]
        else
          match expect "." stop ts with
          | .error e => .error e
          | .ok ((), ts) => (clauses n stop ts).map (c :: ·)

/-- Drops a period, if one follows. -/
def skipPeriod (ts : List Token) : List Token :=
  if startsWith "." ts then ts.drop 1 else ts

/-- What was read, if no tokens follow. -/
def atEnd {α : Type} (stop : Nat) (value : α) : List Token → Except Fault α
  | [] => .ok value
  | ts => unexpected .endOfInput stop ts

/-- Whether the characters `:-` stand somewhere in a text. -/
def mentionsNeck : List Char → Bool
  | ':' :: '-' :: _ => true
  | _ :: cs => mentionsNeck cs
  | [] => false

def factsOf (cs : List Clause) : List Fact :=
  cs.filterMap fun
    | .fact f => some f
    | .rule _ => none

def rulesOf (cs : List Clause) : List Rule :=
  cs.filterMap fun
    | .fact _ => none
    | .rule r => some r

end Clausal.Grammar

namespace Clausal

open Grammar

def Term.parse (text : String) : Except Fault Term := do
  let ts ← tokenize text
  let stop := text.length
  let (t, ts) ← expression stop ts
  atEnd stop t ts

/-- Reads a fact, with or without its period. -/
def Fact.parse (text : String) : Except Fault Fact := do
  let ts ← tokenize text
  let stop := text.length
  let (f, ts) ← literal stop ts
  if startsWith ":-" ts then unexpected .fact stop ts
  else atEnd stop f (skipPeriod ts)

/-- Reads a rule, with or without its period. -/
def Rule.parse (text : String) : Except Fault Rule := do
  if mentionsNeck text.toList then
    let ts ← tokenize text
    let stop := text.length
    let (head, ts) ← literal stop ts
    let ((), ts) ← expect ":-" stop ts
    let (goals, ts) ← goalList stop ts
    atEnd stop ⟨head, goals⟩ (skipPeriod ts)
  else .error (.parse .missingNeck)

/-- Reads the goals of a query, with or without a period at the end. -/
def Goal.parseQuery (text : String) : Except Fault (List Goal) := do
  let ts ← tokenize text
  let stop := text.length
  if ts.isEmpty then .error (.parse .emptyQuery)
  else
    let (goals, ts) ← goalList stop ts
    atEnd stop goals (skipPeriod ts)

def Clause.parseProgram (text : String) : Except Fault (List Clause) := do
  let ts ← tokenize text
  clauses ts.length text.length ts

end Clausal
