import Ligo.Michelson.Syntax
import Ligo.Library.SortedMap
import Ligo.Michelson.Types
import Ligo.Michelson.Atom
import Ligo.Library.Fuel
import Ligo.Michelson.Interpreter
import Ligo.Michelson.Typecheck
import Ligo.MiniC.Environment
import Ligo.Compiler.Environment
import Ligo.Operators
import Ligo.Compiler.Program
import Ligo.Library.Scope
import Ligo.MiniC.Semantics
import Ligo.MiniC.Plain
import Ligo.Compiler.EnvironmentRun
import Ligo.Compiler.ConstantRun
import Ligo.Compiler.Literal
import Ligo.Compiler.Correctness
import Ligo.MiniC.Parametric
import Ligo.Compiler.Calls
import Ligo.Compiler.Capture
import Ligo.Compiler.Layout
import Ligo.Compiler.Uncompiler
import Ligo.Compiler.RoundTrip
import Ligo.AppendTree
import Ligo.AstTyped.Misc
import Ligo.Transpiler.Types
import Ligo.Transpiler.Expression
import Ligo.Transpiler.ListLiteral
import Ligo.Transpiler.Product
import Ligo.Compiler.Predicate
import Ligo.Operators.Typer
import Ligo.Operators.Agreement
import Ligo.Compiler.EnvironmentTypes
import Ligo.Compiler.WellTyped
import Ligo.Compiler.Preservation
import Ligo.Library.Regex
import Ligo.Pascaligo.FQueue
import Ligo.Pascaligo.Region
import Ligo.Pascaligo.Token
import Ligo.Pascaligo.Lexer
import Ligo.Pascaligo.Stream
import Ligo.Library.Outcome
import Ligo.Pascaligo.Lexemes
import Ligo.Pascaligo.Scanning
import Ligo.Pascaligo.Steps
import Ligo.Pascaligo.LookAhead
import Ligo.Pascaligo.Tiling
import Ligo.Pascaligo.Copying
import Ligo.Pascaligo.Failures
import Ligo.MiniC.Enters
import Ligo.AstTyped.Names
import Ligo.MiniC.Frame
import Ligo.Transpiler.Shape
import Ligo.Transpiler.EntryScope
import Ligo.Transpiler.Match
import Ligo.AstSimplified.Types
import Ligo.Typer.Environment
import Ligo.Typer.Expression
import Ligo.Michelson.ValueTyping
import Ligo.Compiler.Assignment
import Ligo.Transpiler.AccessPath
import Ligo.Transpiler.Assign
import Ligo.Compiler.EnvironmentLaws
import Ligo.AstTyped.TypeEquality
import Ligo.Typer.Accessor
import Ligo.Typer.Exhaustive
import Ligo.AstTyped.Clauses
import Ligo.Typer.Covered
import Ligo.MiniC.Names
import Ligo.Transpiler.Clauses
import Ligo.Transpiler.FreeVariables
import Ligo.Operators.Simplify
import Ligo.Pascaligo.Ast
import Ligo.Simplify.Pascaligo
import Ligo.Simplify.Raises
import Ligo.AstSimplified.Semantics
import Ligo.Simplify.Blocks
import Ligo.Simplify.Parameters
import Ligo.Camligo.Ast
import Ligo.Simplify.Camligo
import Ligo.Simplify.Captures
import Ligo.Typer.Rules
import Ligo.Typer.Soundness
import Ligo.AstTyped.Values
import Ligo.Main.RunMiniC
import Ligo.Main.ValueTypes
import Ligo.Main.Computes
import Ligo.AppendTree.Shape
import Ligo.AstSimplified.Sequence
import Ligo.Ligodity.Ast
import Ligo.Ligodity.Parser
import Ligo.Simplify.Ligodity
import Ligo.Simplify.Sequences
import Ligo.Simplify.Declarations
import Ligo.Simplify.Destructuring
import Ligo.Simplify.Calls
import Ligo.Camligo.Lexer
import Ligo.Ligodity.Lexer
import Ligo.Simplify.Bytes
import Ligo.Simplify.Tez
import Ligo.AstSimplified.Misc
import Ligo.AstSimplified.ValueEquality
import Ligo.Main.ReadBack
import Ligo.Main.RoundTrip
import Ligo.Compiler.Contract
import Ligo.Transpiler.Preservation
import Ligo.Typer.Programs
import Ligo.Transpiler.Programs
import Ligo.Main.Contract
