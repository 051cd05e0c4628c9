import Clausal.Bindings.Substitute
import Clausal.Builtin
import Clausal.Clause.Basic
import Clausal.Clause.Text
import Clausal.Data.Yaml
import Clausal.Decimal.Layout
import Clausal.Decimal.Reading
import Clausal.Engine
import Clausal.Grammar.Parser
import Clausal.Log.Record
import Clausal.Log.Setup
import Clausal.Proofs.Arithmetic
import Clausal.Proofs.Bindings.Acyclic
import Clausal.Proofs.Bindings.Alike
import Clausal.Proofs.Bindings.Chains
import Clausal.Proofs.Bindings.Extension
import Clausal.Proofs.Bindings.MapVars
import Clausal.Proofs.Bindings.Rerooted
import Clausal.Proofs.Bindings.Residue
import Clausal.Proofs.Bindings.Substitution
import Clausal.Proofs.Builtin
import Clausal.Proofs.Clause.Renaming
import Clausal.Proofs.Decimal.Numerals
import Clausal.Proofs.Decimal.Operations
import Clausal.Proofs.Decimal.RoundTrip
import Clausal.Proofs.Decimal.Value
import Clausal.Proofs.Engine.Answers
import Clausal.Proofs.Engine.Asserted
import Clausal.Proofs.Engine.Atomic
import Clausal.Proofs.Engine.Changes
import Clausal.Proofs.Engine.Consulted
import Clausal.Proofs.Engine.Frame
import Clausal.Proofs.Engine.Strict
import Clausal.Proofs.Grammar.Built
import Clausal.Proofs.Grammar.Completeness
import Clausal.Proofs.Grammar.Concatenation
import Clausal.Proofs.Grammar.Cutting
import Clausal.Proofs.Grammar.Exact
import Clausal.Proofs.Grammar.Located
import Clausal.Proofs.Grammar.Patterns
import Clausal.Proofs.Grammar.Positions
import Clausal.Proofs.Grammar.Printing
import Clausal.Proofs.Grammar.Shift
import Clausal.Proofs.Grammar.Soundness
import Clausal.Proofs.Grammar.Tree
import Clausal.Proofs.Grammar.Unambiguous
import Clausal.Proofs.KnowledgeBase.History
import Clausal.Proofs.Search.Alike
import Clausal.Proofs.Search.Apart
import Clausal.Proofs.Search.Completeness
import Clausal.Proofs.Search.Configured
import Clausal.Proofs.Search.Congruence
import Clausal.Proofs.Search.DepthLimit
import Clausal.Proofs.Search.Derivation
import Clausal.Proofs.Search.Enumeration
import Clausal.Proofs.Search.Exact
import Clausal.Proofs.Search.Expansion
import Clausal.Proofs.Search.Faults
import Clausal.Proofs.Search.Groundness
import Clausal.Proofs.Search.Limited
import Clausal.Proofs.Search.Lockstep
import Clausal.Proofs.Search.Lookup
import Clausal.Proofs.Search.MapVars
import Clausal.Proofs.Search.Modes
import Clausal.Proofs.Search.Monotone
import Clausal.Proofs.Search.Negation
import Clausal.Proofs.Search.Procedure
import Clausal.Proofs.Search.ProofTree
import Clausal.Proofs.Search.Propagation
import Clausal.Proofs.Search.Ready
import Clausal.Proofs.Search.Recursion
import Clausal.Proofs.Search.Relevance
import Clausal.Proofs.Search.Renaming
import Clausal.Proofs.Search.Residue
import Clausal.Proofs.Search.Selection
import Clausal.Proofs.Search.Soundness
import Clausal.Proofs.Search.Strategies
import Clausal.Proofs.Search.Termination
import Clausal.Proofs.Search.Twins
import Clausal.Proofs.Search.Unbound
import Clausal.Proofs.Session
import Clausal.Proofs.Settings
import Clausal.Proofs.Term.Closeness
import Clausal.Proofs.Term.Instance
import Clausal.Proofs.Unify.Alike
import Clausal.Proofs.Unify.Endless
import Clausal.Proofs.Unify.Exact
import Clausal.Proofs.Unify.Fresh
import Clausal.Proofs.Unify.Ground
import Clausal.Proofs.Unify.Invariants
import Clausal.Proofs.Unify.MapVars
import Clausal.Proofs.Unify.MostGeneral
import Clausal.Proofs.Unify.Nesting
import Clausal.Proofs.Unify.Soundness
import Clausal.Proofs.Unify.Symmetric
import Clausal.Proofs.Unify.Unchecked
import Clausal.Proofs.Validation
import Clausal.Proofs.Validation.Conditions
import Clausal.Proofs.Whole
import Clausal.Search.Evaluator
import Clausal.Search.Machine
import Clausal.Search.Recursive
import Clausal.Session
import Clausal.Settings.File
import Clausal.Term.Conversion
import Clausal.Term.Text
import Clausal.Text.Classes
import Clausal.Text.Quoted
