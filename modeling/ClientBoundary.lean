import ClientBoundary.Ast.Traversal
import ClientBoundary.Disk.Basic
import ClientBoundary.Main
import ClientBoundary.Proofs.Chart
import ClientBoundary.Proofs.Column
import ClientBoundary.Proofs.Compilation
import ClientBoundary.Proofs.Derivation
import ClientBoundary.Proofs.Lexemes
import ClientBoundary.Proofs.ModuleTree
import ClientBoundary.Proofs.Attachment
import ClientBoundary.Proofs.ServerOutput
import ClientBoundary.Proofs.Leftmost
import ClientBoundary.Proofs.Erasure
import ClientBoundary.Proofs.Spelling
import ClientBoundary.Proofs.ReferenceText
import ClientBoundary.Proofs.Acceptance
import ClientBoundary.Proofs.Clause
import ClientBoundary.Proofs.Sentences
import ClientBoundary.Proofs.SyntaxErrors
import ClientBoundary.Proofs.PrintedComments
import ClientBoundary.Proofs.Preference
import ClientBoundary.Proofs.BareValue
import ClientBoundary.Proofs.Interchange
import ClientBoundary.Proofs.LexerLocality
import ClientBoundary.Proofs.StatementEnds
import ClientBoundary.Proofs.OptionalSemicolon
import ClientBoundary.Proofs.Nesting
import ClientBoundary.Proofs.ItemComments
import ClientBoundary.Proofs.FileReports
import ClientBoundary.Proofs.PropertyTokens
import ClientBoundary.Proofs.PropertyWords
import ClientBoundary.Proofs.ReadModules
import ClientBoundary.Proofs.AllOrNothing
import ClientBoundary.Proofs.TerminatorRule
import ClientBoundary.Proofs.TokenGaps
import ClientBoundary.Proofs.ModeStack
import ClientBoundary.Proofs.BlankLocality
import ClientBoundary.Proofs.InsignificantBlanks
import ClientBoundary.Proofs.Declarations
import ClientBoundary.Proofs.PrintedDeclarations
import ClientBoundary.Proofs.RespelledImports
import ClientBoundary.Proofs.CommentLog
import ClientBoundary.Proofs.NodeOutlines
import ClientBoundary.Proofs.SettledComments
import ClientBoundary.Proofs.Traversal
import ClientBoundary.Proofs.ClosingNames
import ClientBoundary.Proofs.OutputPlaces
import ClientBoundary.Proofs.JsonGrammar
import ClientBoundary.Proofs.LiteralPieces
import ClientBoundary.Proofs.JsonTokens
import ClientBoundary.Proofs.JsonBreaks
import ClientBoundary.Proofs.JsonReader
import ClientBoundary.Proofs.ConfigLoading
