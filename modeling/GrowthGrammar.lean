import GrowthGrammar.Main
import GrowthGrammar.Proofs.Context.Acceptance
import GrowthGrammar.Proofs.Context.Assignment
import GrowthGrammar.Proofs.Context.Counters
import GrowthGrammar.Proofs.Context.Mirror
import GrowthGrammar.Proofs.Context.Monotone
import GrowthGrammar.Proofs.Context.Visible
import GrowthGrammar.Proofs.Definition.Writing
import GrowthGrammar.Proofs.Derivation.Binding
import GrowthGrammar.Proofs.Derivation.Nesting
import GrowthGrammar.Proofs.Derivation.Seeding
import GrowthGrammar.Proofs.Derivation.Shadowing
import GrowthGrammar.Proofs.Expression.Choice
import GrowthGrammar.Proofs.Expression.Defines
import GrowthGrammar.Proofs.Expression.Finiteness
import GrowthGrammar.Proofs.Expression.Grammar
import GrowthGrammar.Proofs.Expression.Lexing
import GrowthGrammar.Proofs.Expression.Viable
import GrowthGrammar.Proofs.Json.Word
import GrowthGrammar.Proofs.Phrase.Counting
import GrowthGrammar.Proofs.Production.Ownership
import GrowthGrammar.Proofs.Sampling.Picking
import GrowthGrammar.Proofs.System.Balance
import GrowthGrammar.Proofs.System.Composition
import GrowthGrammar.Proofs.System.Diagnostics
import GrowthGrammar.Proofs.System.Growth
import GrowthGrammar.Proofs.System.Naming
import GrowthGrammar.Proofs.System.Producible
import GrowthGrammar.Proofs.System.Readability
import GrowthGrammar.Proofs.System.Registration
import GrowthGrammar.Proofs.System.Rewriting
import GrowthGrammar.Proofs.System.Soundness
