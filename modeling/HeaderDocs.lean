import HeaderDocs.CommandLine.Arguments
import HeaderDocs.CommandLine.Update
import HeaderDocs.Comment.Markup
import HeaderDocs.Comment.Normal
import HeaderDocs.Files.Glob
import HeaderDocs.Files.PathName
import HeaderDocs.Files.Sources
import HeaderDocs.Files.Store
import HeaderDocs.Files.Trees
import HeaderDocs.Main
import HeaderDocs.Proofs.CommandLine.Update
import HeaderDocs.Proofs.Comment.Marker
import HeaderDocs.Proofs.Comment.Prose
import HeaderDocs.Proofs.Files.PathName
import HeaderDocs.Proofs.Files.Rooted
import HeaderDocs.Proofs.Files.Sources
import HeaderDocs.Proofs.Files.Store
import HeaderDocs.Proofs.Files.Trees
import HeaderDocs.Proofs.Files.Ways
import HeaderDocs.Proofs.Reference.Anchors
import HeaderDocs.Proofs.Reference.Ids
import HeaderDocs.Proofs.Reference.PageEntries
import HeaderDocs.Proofs.Reference.Published
import HeaderDocs.Proofs.Reference.Reached
import HeaderDocs.Proofs.Reference.Tables
import HeaderDocs.Proofs.Scan.Again
import HeaderDocs.Proofs.Scan.Aliases
import HeaderDocs.Proofs.Scan.Alongside
import HeaderDocs.Proofs.Scan.ArgumentLists
import HeaderDocs.Proofs.Scan.Arrangement
import HeaderDocs.Proofs.Scan.Balance
import HeaderDocs.Proofs.Scan.BlockComments
import HeaderDocs.Proofs.Scan.Blocks
import HeaderDocs.Proofs.Scan.Body
import HeaderDocs.Proofs.Scan.BraceDepth
import HeaderDocs.Proofs.Scan.Brackets
import HeaderDocs.Proofs.Scan.Checked
import HeaderDocs.Proofs.Scan.Checked.Contexts
import HeaderDocs.Proofs.Scan.Checked.Declarations
import HeaderDocs.Proofs.Scan.Checked.Scopes
import HeaderDocs.Proofs.Scan.Checked.Sources
import HeaderDocs.Proofs.Scan.Clear
import HeaderDocs.Proofs.Scan.Commented
import HeaderDocs.Proofs.Scan.CommentedScopes
import HeaderDocs.Proofs.Scan.CommentedSources
import HeaderDocs.Proofs.Scan.ConstantLines
import HeaderDocs.Proofs.Scan.DeclaratorEnds
import HeaderDocs.Proofs.Scan.DeclaratorLists
import HeaderDocs.Proofs.Scan.DeclaratorParts
import HeaderDocs.Proofs.Scan.DeclaredNames
import HeaderDocs.Proofs.Scan.Directives
import HeaderDocs.Proofs.Scan.Discretion
import HeaderDocs.Proofs.Scan.DocumentedFunctions
import HeaderDocs.Proofs.Scan.EnumerationBlocks
import HeaderDocs.Proofs.Scan.EnumerationBodies
import HeaderDocs.Proofs.Scan.EnumerationComments
import HeaderDocs.Proofs.Scan.EnumerationConstants
import HeaderDocs.Proofs.Scan.EnumerationLines
import HeaderDocs.Proofs.Scan.EnumerationLists
import HeaderDocs.Proofs.Scan.EnumerationTypes
import HeaderDocs.Proofs.Scan.Enumerators
import HeaderDocs.Proofs.Scan.FieldLines
import HeaderDocs.Proofs.Scan.ForwardDeclarations
import HeaderDocs.Proofs.Scan.Frames
import HeaderDocs.Proofs.Scan.FunctionHeader
import HeaderDocs.Proofs.Scan.FunctionPointers
import HeaderDocs.Proofs.Scan.FunctionVariables
import HeaderDocs.Proofs.Scan.HostedDeclarations
import HeaderDocs.Proofs.Scan.HostedSources
import HeaderDocs.Proofs.Scan.Hosting
import HeaderDocs.Proofs.Scan.InitialValues
import HeaderDocs.Proofs.Scan.InitializedVariables
import HeaderDocs.Proofs.Scan.Invariants
import HeaderDocs.Proofs.Scan.LeftOut
import HeaderDocs.Proofs.Scan.LeftOutPrototype
import HeaderDocs.Proofs.Scan.Lexemes
import HeaderDocs.Proofs.Scan.LineComments
import HeaderDocs.Proofs.Scan.Literals
import HeaderDocs.Proofs.Scan.MemberAccess
import HeaderDocs.Proofs.Scan.MemberDefinitions
import HeaderDocs.Proofs.Scan.MemberFunctions
import HeaderDocs.Proofs.Scan.MemberVariables
import HeaderDocs.Proofs.Scan.Merge
import HeaderDocs.Proofs.Scan.NamedScopes
import HeaderDocs.Proofs.Scan.NamedSources
import HeaderDocs.Proofs.Scan.NamedTypes
import HeaderDocs.Proofs.Scan.Names
import HeaderDocs.Proofs.Scan.Nesting
import HeaderDocs.Proofs.Scan.Overlay
import HeaderDocs.Proofs.Scan.OverlayScopes
import HeaderDocs.Proofs.Scan.ParameterLines
import HeaderDocs.Proofs.Scan.Pieces
import HeaderDocs.Proofs.Scan.Plain
import HeaderDocs.Proofs.Scan.ProseComments
import HeaderDocs.Proofs.Scan.Prototype
import HeaderDocs.Proofs.Scan.Prototypes
import HeaderDocs.Proofs.Scan.RecordAliases
import HeaderDocs.Proofs.Scan.RecordBodies
import HeaderDocs.Proofs.Scan.RecordHeadings
import HeaderDocs.Proofs.Scan.Recovery
import HeaderDocs.Proofs.Scan.References
import HeaderDocs.Proofs.Scan.Reloading
import HeaderDocs.Proofs.Scan.Renaming
import HeaderDocs.Proofs.Scan.Scopes
import HeaderDocs.Proofs.Scan.Skim
import HeaderDocs.Proofs.Scan.SpacedMarks
import HeaderDocs.Proofs.Scan.Spelling
import HeaderDocs.Proofs.Scan.Splitting
import HeaderDocs.Proofs.Scan.StructBodies
import HeaderDocs.Proofs.Scan.Tidy
import HeaderDocs.Proofs.Scan.Variable
import HeaderDocs.Proofs.Scan.WaitingComment
import HeaderDocs.Proofs.Scan.Written
import HeaderDocs.Proofs.Scan.WrittenSources
import HeaderDocs.Proofs.Site.Builds
import HeaderDocs.Proofs.Site.Clearing
import HeaderDocs.Proofs.Site.DirectiveOptions
import HeaderDocs.Proofs.Site.Fences
import HeaderDocs.Proofs.Site.Linking
import HeaderDocs.Proofs.Site.Links
import HeaderDocs.Proofs.Site.OwnNames
import HeaderDocs.Proofs.Site.PageEnds
import HeaderDocs.Proofs.Site.Placeholder
import HeaderDocs.Proofs.Site.Rebuild
import HeaderDocs.Proofs.Site.RelativeLinks
import HeaderDocs.Proofs.Site.Spans
import HeaderDocs.Proofs.Site.TreeFile
import HeaderDocs.Proofs.Text.Joined
import HeaderDocs.Proofs.Text.Lines
import HeaderDocs.Proofs.Text.Newline
import HeaderDocs.Proofs.Text.Occurrence
import HeaderDocs.Proofs.Text.Substitute
import HeaderDocs.Proofs.Text.Trim
import HeaderDocs.Proofs.Text.Utf8
import HeaderDocs.Proofs.Text.Words
import HeaderDocs.Proofs.Tree.Arrangement
import HeaderDocs.Proofs.Tree.Canon
import HeaderDocs.Proofs.Tree.Commented
import HeaderDocs.Proofs.Tree.Discreet
import HeaderDocs.Proofs.Tree.Everywhere
import HeaderDocs.Proofs.Tree.Insertion
import HeaderDocs.Proofs.Tree.Marked
import HeaderDocs.Proofs.Tree.Moves
import HeaderDocs.Proofs.Tree.Named
import HeaderDocs.Proofs.Tree.Paths
import HeaderDocs.Proofs.Tree.Reload
import HeaderDocs.Proofs.Tree.Written
import HeaderDocs.Proofs.Xml.Content
import HeaderDocs.Proofs.Xml.Escape
import HeaderDocs.Proofs.Xml.LineEnds
import HeaderDocs.Proofs.Xml.RoundTrip
import HeaderDocs.Proofs.Xml.Tag
import HeaderDocs.Reference.Entry
import HeaderDocs.Reference.Located
import HeaderDocs.Reference.Section
import HeaderDocs.Reference.Signature
import HeaderDocs.Scan.Context
import HeaderDocs.Scan.Declaration
import HeaderDocs.Scan.Declarator
import HeaderDocs.Scan.Fragment
import HeaderDocs.Scan.OpenScope
import HeaderDocs.Scan.Source
import HeaderDocs.Site.Build
import HeaderDocs.Site.Directive
import HeaderDocs.Site.Group
import HeaderDocs.Site.Link
import HeaderDocs.Site.Options
import HeaderDocs.Site.Page
import HeaderDocs.Site.Placeholder
import HeaderDocs.Site.Symbol
import HeaderDocs.Text.CaseTable
import HeaderDocs.Text.Integer
import HeaderDocs.Text.Letter
import HeaderDocs.Text.LetterTable
import HeaderDocs.Text.Lower
import HeaderDocs.Text.Newline
import HeaderDocs.Text.PrintableTable
import HeaderDocs.Text.Quoted
import HeaderDocs.Text.ReadMany
import HeaderDocs.Text.Space
import HeaderDocs.Text.Substitute
import HeaderDocs.Text.Utf8
import HeaderDocs.Tree.Description
import HeaderDocs.Tree.Insert
import HeaderDocs.Tree.Kind
import HeaderDocs.Tree.Move
import HeaderDocs.Tree.Node
import HeaderDocs.Tree.Path
import HeaderDocs.Tree.Saved
import HeaderDocs.Xml.AttributeList
import HeaderDocs.Xml.Character
import HeaderDocs.Xml.ContentModel
import HeaderDocs.Xml.Doctype
import HeaderDocs.Xml.Document
import HeaderDocs.Xml.Element
import HeaderDocs.Xml.Entity
import HeaderDocs.Xml.NameTable
import HeaderDocs.Xml.Token
