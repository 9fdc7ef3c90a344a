import DawnC.Atom
import DawnC.Atom.Lexer
import DawnC.Build
import DawnC.Cli.Report
import DawnC.Cli.Session
import DawnC.Code
import DawnC.Main
import DawnC.Store.Actions
import DawnC.Store.Lines
import DawnC.Text.Space
import DawnC.Transpile
import DawnC.Proofs.Construct
import DawnC.Proofs.Run
import DawnC.Proofs.Nesting
import DawnC.Proofs.WellNested
import DawnC.Proofs.BlockStack
import DawnC.Proofs.LoopExtent
import DawnC.Proofs.Program.Tree
import DawnC.Proofs.Utf8
import DawnC.Proofs.Program.Reading
import DawnC.Proofs.Program.Scope
import DawnC.Proofs.Program.Constructs
import DawnC.Proofs.Program.Translation
import DawnC.Proofs.Program.Analysis
import DawnC.Proofs.Program.Reference
import DawnC.Proofs.Include.Alike
import DawnC.Proofs.Include.Outcome
import DawnC.Proofs.Include.Lines
import DawnC.Proofs.Include.Relation
import DawnC.Proofs.Include.Discovery
import DawnC.Proofs.Include.Cycles
import DawnC.Proofs.Include.Inlining
import DawnC.Proofs.Lexeme
import DawnC.Proofs.DeclaredNames
import DawnC.Proofs.NormalPath
import DawnC.Proofs.Place
import DawnC.Proofs.Store.Lookup
import DawnC.Proofs.Attempt
import DawnC.Proofs.Store.Actions
import DawnC.Proofs.Store.Changes
import DawnC.Proofs.Remote.Checkout
import DawnC.Proofs.Include.Effects
import DawnC.Proofs.Remote.Fetch
import DawnC.Proofs.Build.Effects
import DawnC.Proofs.Build.Output
import DawnC.Proofs.Build.Sources
import DawnC.Proofs.Store.Agreement
import DawnC.Proofs.Remote.Agreement
import DawnC.Proofs.Remote.History
import DawnC.Proofs.Remote.Confinement
import DawnC.Proofs.FunctionNames
import DawnC.Proofs.Layout
import DawnC.Proofs.Literal.Rewriting
import DawnC.Proofs.Literal.Constructs
import DawnC.Proofs.Literal.Outcome
import DawnC.Proofs.ArgumentList
import DawnC.Proofs.CallByName
import DawnC.Proofs.LineParts
import DawnC.Proofs.Headers
import DawnC.Proofs.Brackets
import DawnC.Proofs.BalancedLines
import DawnC.Proofs.Include.Cached
import DawnC.Proofs.Store.Cleaned
import DawnC.Proofs.Store.Removal
import DawnC.Proofs.Build.Workspace
import DawnC.Proofs.Build.Faults
import DawnC.Proofs.Build.Delivery
import DawnC.Proofs.Build.Confinement
import DawnC.Proofs.Build.Classification
import DawnC.Proofs.Build.Naming
import DawnC.Proofs.ClosingBrace
import DawnC.Proofs.Build.Origin
import DawnC.Proofs.Include.Search
import DawnC.Proofs.Include.Walk
import DawnC.Proofs.Include.Splicing
import DawnC.Proofs.Include.Termination
import DawnC.Proofs.Include.Sources
import DawnC.Proofs.Include.Statements
import DawnC.Proofs.Advance
import DawnC.Proofs.FaultPosition
import DawnC.Proofs.Spelling
import DawnC.Proofs.ListElements
import DawnC.Proofs.LoopBounds
import DawnC.Proofs.Ordinals
import DawnC.Proofs.Printing
import DawnC.Proofs.Remote.Reference
import DawnC.Proofs.Remote.Recognition
import DawnC.Proofs.Store.Making
import DawnC.Proofs.Remote.Copying
import DawnC.Proofs.Remote.Storing
import DawnC.Proofs.Remote.Persistence
import DawnC.Proofs.Fault.Parts
import DawnC.Proofs.Fault.Phases
import DawnC.Proofs.Fault.Report
import DawnC.Proofs.SymbolClasses
import DawnC.Proofs.SingleLine
import DawnC.Proofs.CodeSections
import DawnC.Proofs.ArgumentGrammar
import DawnC.Proofs.ParameterGrammar
import DawnC.Proofs.Store.Lines
import DawnC.Proofs.Store.Clearing
import DawnC.Proofs.Cli.Cleaning
