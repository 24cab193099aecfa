import QuartoPretext.Assoc
import QuartoPretext.Attributes.Basic
import QuartoPretext.Attributes.Trailing
import QuartoPretext.Block.Basic
import QuartoPretext.Block.Extent
import QuartoPretext.Block.ListReader
import QuartoPretext.Block.Reader
import QuartoPretext.Block.Size
import QuartoPretext.Block.Start
import QuartoPretext.CommandLine.Arguments
import QuartoPretext.CommandLine.Message
import QuartoPretext.CommandLine.Request
import QuartoPretext.CommandLine.Run
import QuartoPretext.Config.Basic
import QuartoPretext.Config.Expansion
import QuartoPretext.Config.Fault
import QuartoPretext.Config.Load
import QuartoPretext.Config.Reader
import QuartoPretext.Config.Validation
import QuartoPretext.DivFence
import QuartoPretext.Document.Convert
import QuartoPretext.Document.DisplayMath
import QuartoPretext.Document.Div
import QuartoPretext.Document.Piece
import QuartoPretext.Document.Plan
import QuartoPretext.Document.Session
import QuartoPretext.Document.Size
import QuartoPretext.Fault
import QuartoPretext.Fence.Mark
import QuartoPretext.Fence.Metadata
import QuartoPretext.Fence.Open
import QuartoPretext.Files.Fault
import QuartoPretext.Files.Host
import QuartoPretext.Files.Tree
import QuartoPretext.Footnotes
import QuartoPretext.FrontMatter
import QuartoPretext.Inline.Bracket
import QuartoPretext.Inline.Citation
import QuartoPretext.Inline.Code
import QuartoPretext.Inline.CrossReference
import QuartoPretext.Inline.Emphasis
import QuartoPretext.Inline.Escape
import QuartoPretext.Inline.Footnote
import QuartoPretext.Inline.Fragment
import QuartoPretext.Inline.Index
import QuartoPretext.Inline.Link
import QuartoPretext.Inline.Math
import QuartoPretext.Inline.Note
import QuartoPretext.Inline.Span
import QuartoPretext.Inline.Transform
import QuartoPretext.Layout
import QuartoPretext.Line.Basic
import QuartoPretext.Line.Cursor
import QuartoPretext.Main
import QuartoPretext.Markup.Element
import QuartoPretext.Markup.Escape
import QuartoPretext.Markup.Writer
import QuartoPretext.Path
import QuartoPretext.Policy
import QuartoPretext.Profile
import QuartoPretext.Proofs.Block.Balance
import QuartoPretext.Proofs.Block.Bare
import QuartoPretext.Proofs.Block.Divs
import QuartoPretext.Proofs.Block.ListLines
import QuartoPretext.Proofs.Block.ListMarkers
import QuartoPretext.Proofs.Block.Numbers
import QuartoPretext.Proofs.Block.Renumber
import QuartoPretext.Proofs.Block.Stop
import QuartoPretext.Proofs.CommandLine.Batch
import QuartoPretext.Proofs.CommandLine.Begin
import QuartoPretext.Proofs.CommandLine.Writes
import QuartoPretext.Proofs.Config.Percentage
import QuartoPretext.Proofs.Document.Bodies
import QuartoPretext.Proofs.Document.Contained
import QuartoPretext.Proofs.Document.Definitions
import QuartoPretext.Proofs.Document.Descent
import QuartoPretext.Proofs.Document.ExerciseSolutions
import QuartoPretext.Proofs.Document.FaultLines
import QuartoPretext.Proofs.Document.Flow
import QuartoPretext.Proofs.Document.Frame
import QuartoPretext.Proofs.Document.HeadingLevels
import QuartoPretext.Proofs.Document.Headings
import QuartoPretext.Proofs.Document.Hidden
import QuartoPretext.Proofs.Document.Images
import QuartoPretext.Proofs.Document.Leaves
import QuartoPretext.Proofs.Document.Matter
import QuartoPretext.Proofs.Document.Order
import QuartoPretext.Proofs.Document.Renumber
import QuartoPretext.Proofs.Document.Run
import QuartoPretext.Proofs.Document.Sections
import QuartoPretext.Proofs.Document.Shape
import QuartoPretext.Proofs.Document.TextWarnings
import QuartoPretext.Proofs.Document.Transparent
import QuartoPretext.Proofs.Document.WarningLines
import QuartoPretext.Proofs.Document.WellFormed
import QuartoPretext.Proofs.Document.Widths
import QuartoPretext.Proofs.Document.Wrapped
import QuartoPretext.Proofs.Emphasis.Account
import QuartoPretext.Proofs.Emphasis.Leftover
import QuartoPretext.Proofs.Emphasis.Pairs
import QuartoPretext.Proofs.Emphasis.Resolved
import QuartoPretext.Proofs.Emphasis.Runs
import QuartoPretext.Proofs.Emphasis.Strong
import QuartoPretext.Proofs.Emphasis.Tags
import QuartoPretext.Proofs.Files.Places
import QuartoPretext.Proofs.Inline.Again
import QuartoPretext.Proofs.Inline.Balanced
import QuartoPretext.Proofs.Inline.Bracket
import QuartoPretext.Proofs.Inline.Causes
import QuartoPretext.Proofs.Inline.CodeAndMath
import QuartoPretext.Proofs.Inline.CodeSpans
import QuartoPretext.Proofs.Inline.Crossing
import QuartoPretext.Proofs.Inline.Division
import QuartoPretext.Proofs.Inline.EmphasisNesting
import QuartoPretext.Proofs.Inline.Fragment
import QuartoPretext.Proofs.Inline.Imageless
import QuartoPretext.Proofs.Inline.LinkNesting
import QuartoPretext.Proofs.Inline.Marks
import QuartoPretext.Proofs.Inline.Nesting
import QuartoPretext.Proofs.Inline.NoteNesting
import QuartoPretext.Proofs.Inline.Notes
import QuartoPretext.Proofs.Inline.Protected
import QuartoPretext.Proofs.Inline.Rewrite
import QuartoPretext.Proofs.Inline.Shield
import QuartoPretext.Proofs.Inline.Signless
import QuartoPretext.Proofs.Inline.Tagged
import QuartoPretext.Proofs.Markup.Nested
import QuartoPretext.Proofs.Markup.Reference
import QuartoPretext.Proofs.Markup.Tags
import QuartoPretext.Proofs.Markup.Writer
import QuartoPretext.Proofs.Solutions
import QuartoPretext.Proofs.Text.Division
import QuartoPretext.Solutions
import QuartoPretext.Text.Basic
import QuartoPretext.Text.Class
import QuartoPretext.Text.Ranges
import QuartoPretext.Text.Scan
import QuartoPretext.Toml.Quoted
import QuartoPretext.Toml.Reader
import QuartoPretext.Toml.Scalar
import QuartoPretext.Toml.Table
import QuartoPretext.Toml.Value
import QuartoPretext.Warning
import QuartoPretext.Yaml.Node
import QuartoPretext.Yaml.Place
import QuartoPretext.Yaml.Scalar
import QuartoPretext.Yaml.Token
import QuartoPretext.Proofs.Document.LeadingHeadings
import QuartoPretext.Proofs.Block.Dedent
import QuartoPretext.Proofs.Document.TwoPhases
import QuartoPretext.Proofs.Block.ListCode
import QuartoPretext.Proofs.Document.ListCode
import QuartoPretext.Proofs.Inline.MathDelimiters
import QuartoPretext.Proofs.Inline.EscapedDelimiters
import QuartoPretext.Proofs.Inline.LinkReader
import QuartoPretext.Proofs.Inline.ImageBrackets
import QuartoPretext.Proofs.Inline.FragmentNesting
import QuartoPretext.Proofs.Solutions.Commands
import QuartoPretext.Proofs.Solutions.Numbering
import QuartoPretext.Proofs.Solutions.AnswerKey
import QuartoPretext.Proofs.Inline.FootnoteMarks
import QuartoPretext.Proofs.Inline.NoteDepth
import QuartoPretext.Proofs.Inline.ReferenceKeys
import QuartoPretext.Proofs.Inline.MarkTags
import QuartoPretext.Proofs.Inline.DroppedCitations
import QuartoPretext.Proofs.Text.Characters
import QuartoPretext.Proofs.Text.Cut
import QuartoPretext.Proofs.Fence.Metadata
import QuartoPretext.Proofs.Attributes.Written
import QuartoPretext.Proofs.Fence.ChunkHeader
import QuartoPretext.Proofs.Solutions.Parts
import QuartoPretext.Proofs.Text.Words
import QuartoPretext.Proofs.Markup.TextEscape
import QuartoPretext.Proofs.Fence.Tracking
import QuartoPretext.Proofs.DisplayMath.Breaks
import QuartoPretext.Proofs.DisplayMath.Ink
import QuartoPretext.Proofs.DisplayMath.Groups
import QuartoPretext.Proofs.DisplayMath.Nesting
import QuartoPretext.Proofs.Text.Bytes
import QuartoPretext.Proofs.Inline.ByteScan
import QuartoPretext.Proofs.Inline.MathStops
import QuartoPretext.Proofs.Inline.MathBytes
import QuartoPretext.Proofs.Inline.CodeBytes
import QuartoPretext.Proofs.Attributes.Trailing
import QuartoPretext.Proofs.Text.Slug
