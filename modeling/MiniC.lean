import MiniC.Builtin
import MiniC.Command.Options
import MiniC.Command.Run
import MiniC.Compiler.Basic
import MiniC.Compiler.File
import MiniC.Constant
import MiniC.Core.Basic
import MiniC.Core.Build
import MiniC.Core.Elaboration
import MiniC.Double.Basic
import MiniC.Double.Decimal
import MiniC.Double.Shortest
import MiniC.Double.Text
import MiniC.Environment
import MiniC.Fault
import MiniC.Host.Basic
import MiniC.Host.FileTree
import MiniC.Host.Path
import MiniC.Jvm.Build
import MiniC.Jvm.CallTable
import MiniC.Jvm.Instruction
import MiniC.Jvm.Method
import MiniC.Jvm.Module
import MiniC.Main
import MiniC.Operator
import MiniC.Proofs.Command.ExitCodes
import MiniC.Proofs.Compiler.CallResolution
import MiniC.Proofs.Compiler.Diagnostics
import MiniC.Proofs.Compiler.Faults
import MiniC.Proofs.Compiler.FileCompilation
import MiniC.Proofs.Compiler.Layout
import MiniC.Proofs.Core.BranchTargets
import MiniC.Proofs.Core.Building
import MiniC.Proofs.Core.Checked
import MiniC.Proofs.Core.Code
import MiniC.Proofs.Core.CodeFunction
import MiniC.Proofs.Core.CodeLabels
import MiniC.Proofs.Core.CodeStack
import MiniC.Proofs.Core.CodeVariables
import MiniC.Proofs.Core.Completion
import MiniC.Proofs.Core.Decision
import MiniC.Proofs.Core.Faithful
import MiniC.Proofs.Core.JumpDirections
import MiniC.Proofs.Core.LeastTypes
import MiniC.Proofs.Core.Likeness
import MiniC.Proofs.Core.LocalVariables
import MiniC.Proofs.Core.Occurrences
import MiniC.Proofs.Core.OperandStack
import MiniC.Proofs.Core.Parentheses
import MiniC.Proofs.Core.Renaming
import MiniC.Proofs.Core.Separate
import MiniC.Proofs.Core.Typing
import MiniC.Proofs.Core.Widening
import MiniC.Proofs.Double.ReadBack
import MiniC.Proofs.Double.Rounding
import MiniC.Proofs.Double.ShortestDigits
import MiniC.Proofs.Environment.Histories
import MiniC.Proofs.Except
import MiniC.Proofs.Host.FileSystem
import MiniC.Proofs.Host.FileTree
import MiniC.Proofs.Jvm.AssemblyLines
import MiniC.Proofs.Jvm.CallTable
import MiniC.Proofs.Jvm.ControlFlow
import MiniC.Proofs.Jvm.Disassembly
import MiniC.Proofs.Jvm.Entries
import MiniC.Proofs.Jvm.Lowering
import MiniC.Proofs.Jvm.MethodRuns
import MiniC.Proofs.Jvm.Op
import MiniC.Proofs.Jvm.StackTyping
import MiniC.Proofs.Jvm.StringConstants
import MiniC.Proofs.Runs
import MiniC.Proofs.ScopeStack
import MiniC.Proofs.Semantics.Expressions
import MiniC.Proofs.Semantics.Locals
import MiniC.Proofs.Semantics.Machine
import MiniC.Proofs.Semantics.Mirror
import MiniC.Proofs.Semantics.Operators
import MiniC.Proofs.Semantics.Preservation
import MiniC.Proofs.Semantics.Returns
import MiniC.Proofs.Semantics.Source
import MiniC.Proofs.Semantics.Statements
import MiniC.Proofs.Semantics.Value
import MiniC.Proofs.Source.CursorRuns
import MiniC.Proofs.Surface.Concatenation
import MiniC.Proofs.Surface.Contexts
import MiniC.Proofs.Surface.Fuel
import MiniC.Proofs.Surface.Grammar
import MiniC.Proofs.Surface.LeadingTokens
import MiniC.Proofs.Surface.Likeness
import MiniC.Proofs.Surface.ParserComplete
import MiniC.Proofs.Surface.ParserLikeness
import MiniC.Proofs.Surface.ParserSound
import MiniC.Proofs.Surface.Proper
import MiniC.Proofs.Surface.Reading
import MiniC.Proofs.Surface.Truncation
import MiniC.Proofs.Surface.Typing
import MiniC.Proofs.Token.CharacterBoundaries
import MiniC.Proofs.Token.LexerComplete
import MiniC.Proofs.Token.LexerSound
import MiniC.Proofs.Token.LineBreaks
import MiniC.Proofs.Token.Numerals
import MiniC.Proofs.Token.Spelling
import MiniC.Source.Cursor
import MiniC.Source.Located
import MiniC.Source.Pos
import MiniC.Surface.Basic
import MiniC.Surface.Parser
import MiniC.Surface.TokenStream
import MiniC.Text.Glyph
import MiniC.Text.Quoted
import MiniC.Token.Basic
import MiniC.Token.Byte
import MiniC.Token.Layout
import MiniC.Token.Lexer
import MiniC.Token.Numeral
import MiniC.Token.StringLiteral
import MiniC.Type
