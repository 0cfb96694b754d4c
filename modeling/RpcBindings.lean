import RpcBindings.Text.Affix
import RpcBindings.Text.Blank
import RpcBindings.Text.Ranges
import RpcBindings.Text.Identifier
import RpcBindings.Text.Visible
import RpcBindings.Text.Lines
import RpcBindings.Text.Offset
import RpcBindings.Text.Layout
import RpcBindings.Casing
import RpcBindings.Namespace
import RpcBindings.Go.Identifier
import RpcBindings.Go.Type
import RpcBindings.Schema.Type
import RpcBindings.Go.TypeTable
import RpcBindings.Diagnostic
import RpcBindings.Delimiter
import RpcBindings.Masked.Glyph
import RpcBindings.Masked.Scan
import RpcBindings.Masked.Basic
import RpcBindings.Masked.Bytewise
import RpcBindings.Masked.Nesting
import RpcBindings.Rust.Token
import RpcBindings.Rust.Type
import RpcBindings.Rust.Parser
import RpcBindings.Rust.Grammar.Basic
import RpcBindings.Rust.Grammar.Attribute
import RpcBindings.Rust.Grammar.Path
import RpcBindings.Rust.Grammar.Type
import RpcBindings.Rust.Grammar.Pattern
import RpcBindings.Rust.Grammar.Expression
import RpcBindings.Rust.Grammar.Function
import RpcBindings.Rust.Grammar.Member
import RpcBindings.Rust.Grammar.Item
import RpcBindings.Rust.Grammar.Statement
import RpcBindings.Rust.Literal
import RpcBindings.Rust.Lexer
import RpcBindings.Rust.Reader
import RpcBindings.Schema.Annotation
import RpcBindings.Schema.Reading
import RpcBindings.Schema.Record
import RpcBindings.Schema.Interface
import RpcBindings.Client.Function
import RpcBindings.Client.CallSite
import RpcBindings.Client.ErrorBlock
import RpcBindings.Go.Import
import RpcBindings.Client.Method
import RpcBindings.Go.ImportClause
import RpcBindings.Client.File
import RpcBindings.Settings.Basic
import RpcBindings.Go.Batch
import RpcBindings.Go.Struct
import RpcBindings.Go.Stub
import RpcBindings.Toml.DateTime
import RpcBindings.Toml.Value
import RpcBindings.Toml.Scalar
import RpcBindings.Toml.Reader
import RpcBindings.Settings.Fault
import RpcBindings.Settings.Reader
import RpcBindings.Generated
import RpcBindings.Json
import RpcBindings.Report
import RpcBindings.CommandLine.Arguments
import RpcBindings.CommandLine.FileTree
import RpcBindings.CommandLine.Session
import RpcBindings.Main
import RpcBindings.Proofs.Masked.Boundary
import RpcBindings.Proofs.Masked.Found
import RpcBindings.Proofs.Client.CallSite
import RpcBindings.Proofs.Client.Function
import RpcBindings.Proofs.Client.Segmentation
import RpcBindings.Proofs.Masked.Closed
import RpcBindings.Proofs.Masked.Reading
import RpcBindings.Proofs.Go.Identifier
import RpcBindings.Proofs.Masked.Pieces
import RpcBindings.Proofs.Client.MethodText
import RpcBindings.Proofs.Client.MethodReading
import RpcBindings.Proofs.Go.ImportClause
import RpcBindings.Proofs.Text.Layout
import RpcBindings.Proofs.Client.Completeness
import RpcBindings.Proofs.Client.Between
import RpcBindings.Proofs.Masked.Shown
import RpcBindings.Proofs.Go.Header
import RpcBindings.Proofs.Schema.Interface
import RpcBindings.Proofs.Go.Stub
import RpcBindings.Proofs.Client.ReadBack
import RpcBindings.Proofs.Masked.InCode
import RpcBindings.Proofs.Masked.Index
import RpcBindings.Proofs.Masked.Lexeme
import RpcBindings.Proofs.Masked.Token
import RpcBindings.Proofs.Text.Content
import RpcBindings.Proofs.Masked.Content
import RpcBindings.Proofs.Client.Site
import RpcBindings.Proofs.Client.Arguments
import RpcBindings.Proofs.Client.KeptStatements
import RpcBindings.Proofs.Masked.Nest
import RpcBindings.Proofs.Client.ErrorBlock
import RpcBindings.Proofs.Go.Batch
import RpcBindings.Proofs.Client.Batch
import RpcBindings.Proofs.Masked.Append
import RpcBindings.Proofs.Schema.Record
import RpcBindings.Proofs.Client.Shift
import RpcBindings.Proofs.Client.Parts
import RpcBindings.Proofs.Masked.Behind
import RpcBindings.Proofs.Masked.Lookahead
import RpcBindings.Proofs.Schema.Comment
import RpcBindings.Proofs.Schema.Member
import RpcBindings.Proofs.Masked.Declarations
import RpcBindings.Proofs.Masked.TopLevel
import RpcBindings.Proofs.Schema.Fragment
import RpcBindings.Proofs.Client.Entries
import RpcBindings.Proofs.Client.OwnBody
import RpcBindings.Proofs.Generated.Accounted
import RpcBindings.Proofs.Generated.Tally
import RpcBindings.Proofs.Text.Cut
import RpcBindings.Proofs.Go.ClauseCut
import RpcBindings.Proofs.Generated.CallerType
import RpcBindings.Proofs.CommandLine.Effects
import RpcBindings.Proofs.CommandLine.Failure
import RpcBindings.Proofs.Rust.Name
import RpcBindings.Proofs.Rust.TypeName
import RpcBindings.Proofs.Rust.Repetition
import RpcBindings.Proofs.Rust.LiteralExpr
import RpcBindings.Proofs.Rust.TypePath
import RpcBindings.Proofs.Rust.TypeForm
import RpcBindings.Proofs.Schema.TypeSpelling
import RpcBindings.Proofs.Go.Struct
import RpcBindings.Proofs.Schema.FieldType
import RpcBindings.Proofs.CommandLine.Check
import RpcBindings.Proofs.Client.BlockCut
import RpcBindings.Proofs.Client.FileCut
import RpcBindings.Proofs.Generated.BrokenCut
import RpcBindings.Proofs.Client.Symbol
import RpcBindings.Proofs.Client.ErrorTest
import RpcBindings.Proofs.Text.Relaid
import RpcBindings.Proofs.Client.Relaid
import RpcBindings.Proofs.Client.BlockShape
import RpcBindings.Proofs.Client.KeptCode
import RpcBindings.Proofs.Client.DanglingElse
import RpcBindings.Proofs.Client.KeptFrom
import RpcBindings.Proofs.Client.Conditional
import RpcBindings.Proofs.Client.BlockTree
import RpcBindings.Proofs.Go.Table
import RpcBindings.Proofs.Go.Resolution
import RpcBindings.Proofs.Go.TypeText
import RpcBindings.Proofs.Settings.EmptyType
import RpcBindings.Proofs.Text.Reindent
import RpcBindings.Proofs.Masked.Literal
import RpcBindings.Proofs.Masked.Layout
import RpcBindings.Proofs.Client.KeptLiterals
import RpcBindings.Proofs.Go.ImportUse
import RpcBindings.Proofs.Go.ImportLine
import RpcBindings.Proofs.Client.ImportReading
import RpcBindings.Proofs.Client.NamedLines
import RpcBindings.Proofs.Generated.StubCaller
import RpcBindings.Proofs.Generated.ImportNames
import RpcBindings.Proofs.Masked.Decoration
import RpcBindings.Proofs.Generated.Comments
import RpcBindings.Proofs.Go.Literal
import RpcBindings.Proofs.Go.StructLines
import RpcBindings.Proofs.Schema.Decorated
import RpcBindings.Proofs.Rust.Comment
import RpcBindings.Proofs.Schema.DocComment
import RpcBindings.Proofs.Rust.Remainder
import RpcBindings.Proofs.Rust.NameIn
import RpcBindings.Proofs.Rust.Spelling
import RpcBindings.Proofs.Schema.SourceName
import RpcBindings.Proofs.CamelCase
import RpcBindings.Proofs.Namespace
import RpcBindings.Proofs.Schema.FieldOption
import RpcBindings.Proofs.Schema.OptionOrder
import RpcBindings.Proofs.Go.StructRows
import RpcBindings.Proofs.Go.LegalName
import RpcBindings.Proofs.Go.StubNames
import RpcBindings.Proofs.Go.ExportedName
import RpcBindings.Proofs.Generated.Markers
import RpcBindings.Proofs.Masked.Partner
import RpcBindings.Proofs.Settings.LegalNames
import RpcBindings.Proofs.Client.WireName
import RpcBindings.Proofs.Go.ParamNames
import RpcBindings.Proofs.Client.FreshLocals
import RpcBindings.Proofs.Client.StatementParts
import RpcBindings.Proofs.Masked.WordSearch
import RpcBindings.Proofs.Masked.Splitting
import RpcBindings.Proofs.Text.Tidied
import RpcBindings.Proofs.Masked.SafeIndex
import RpcBindings.Proofs.Masked.LiteralBytes
import RpcBindings.Proofs.Masked.Bytewise
import RpcBindings.Proofs.Schema.CheckedReading
import RpcBindings.Proofs.Schema.ResultWrapper
