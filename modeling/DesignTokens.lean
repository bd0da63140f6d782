import DesignTokens.Alias
import DesignTokens.Color
import DesignTokens.Command.Arguments
import DesignTokens.Command.Extras
import DesignTokens.Command.FileTree
import DesignTokens.Command.Host
import DesignTokens.Command.Invocation
import DesignTokens.Command.Recorded
import DesignTokens.Command.Run
import DesignTokens.Config.KeyPath
import DesignTokens.Config.Layers
import DesignTokens.Config.Settings
import DesignTokens.Config.Toml.Document
import DesignTokens.Config.Toml.Item
import DesignTokens.Config.Toml.Moment
import DesignTokens.Config.Toml.Scalar
import DesignTokens.Config.Toml.Table
import DesignTokens.Config.Toml.Text
import DesignTokens.Config.Value
import DesignTokens.Context
import DesignTokens.Dictionary
import DesignTokens.Dictionary.Export
import DesignTokens.Error
import DesignTokens.Format
import DesignTokens.Header
import DesignTokens.Identifier
import DesignTokens.Json.Basic
import DesignTokens.Json.Print
import DesignTokens.Json.Written
import DesignTokens.Main
import DesignTokens.Mode
import DesignTokens.Mode.Counterpart
import DesignTokens.Mode.Detection
import DesignTokens.Mode.Groups
import DesignTokens.Mode.Pair
import DesignTokens.Mode.Tree
import DesignTokens.Numeral.Binary64
import DesignTokens.Numeral.Layout
import DesignTokens.Numeral.Leading
import DesignTokens.Numeral.Shortest
import DesignTokens.Output.ComposeTheme
import DesignTokens.Output.Container
import DesignTokens.Output.Declarations
import DesignTokens.Output.FlatEnum
import DesignTokens.Output.MergedTree
import DesignTokens.Output.NestedEnum
import DesignTokens.Output.Resources
import DesignTokens.Output.ScriptModule
import DesignTokens.Output.Stylesheet
import DesignTokens.Output.SwiftMember
import DesignTokens.Path
import DesignTokens.Platform
import DesignTokens.Platform.BrandBuild
import DesignTokens.Platform.Plan
import DesignTokens.Reference
import DesignTokens.Registry
import DesignTokens.SortedAssoc
import DesignTokens.Text.Blank
import DesignTokens.Text.CaseFold
import DesignTokens.Text.Comment
import DesignTokens.Text.Hex
import DesignTokens.Text.Literal
import DesignTokens.Token
import DesignTokens.Transform
import DesignTokens.Proofs.Color.Channels
import DesignTokens.Proofs.Color.Positions
import DesignTokens.Proofs.Color.Written
import DesignTokens.Proofs.Command.Building
import DesignTokens.Proofs.Command.Directories
import DesignTokens.Proofs.Command.Extras
import DesignTokens.Proofs.Command.Following
import DesignTokens.Proofs.Command.GivenFiles
import DesignTokens.Proofs.Command.Precedence
import DesignTokens.Proofs.Command.Saving
import DesignTokens.Proofs.Dictionary.Changes
import DesignTokens.Proofs.Dictionary.Legible
import DesignTokens.Proofs.Dictionary.Planting
import DesignTokens.Proofs.Dictionary.Referable
import DesignTokens.Proofs.Dictionary.Rereading
import DesignTokens.Proofs.Dictionary.View
import DesignTokens.Proofs.Header
import DesignTokens.Proofs.Identifier.Chains
import DesignTokens.Proofs.Identifier.EarlierNames
import DesignTokens.Proofs.Identifier.PathNames
import DesignTokens.Proofs.Identifier.SegmentNames
import DesignTokens.Proofs.Identifier.Segments
import DesignTokens.Proofs.Json.Reading
import DesignTokens.Proofs.Json.Scanning
import DesignTokens.Proofs.Json.Spelling
import DesignTokens.Proofs.Json.Values
import DesignTokens.Proofs.Markup.Elements
import DesignTokens.Proofs.Markup.Pieces
import DesignTokens.Proofs.Mode.Counterpart
import DesignTokens.Proofs.Mode.Deprecation
import DesignTokens.Proofs.Mode.Detecting
import DesignTokens.Proofs.Mode.Grouping
import DesignTokens.Proofs.Mode.Marker
import DesignTokens.Proofs.Mode.Nesting
import DesignTokens.Proofs.Mode.Walk
import DesignTokens.Proofs.Numeral.Leading
import DesignTokens.Proofs.Numeral.Rounding
import DesignTokens.Proofs.Output.Declared
import DesignTokens.Proofs.Output.DeclaredText
import DesignTokens.Proofs.Output.DeclaredTypes
import DesignTokens.Proofs.Output.FlatDeclarations
import DesignTokens.Proofs.Output.MergedTree
import DesignTokens.Proofs.Output.ModuleText
import DesignTokens.Proofs.Output.Outline
import DesignTokens.Proofs.Output.PlainSheets
import DesignTokens.Proofs.Output.ResourceSets
import DesignTokens.Proofs.Output.ResourceText
import DesignTokens.Proofs.Output.SelfReference
import DesignTokens.Proofs.Output.SheetLines
import DesignTokens.Proofs.Output.SheetNames
import DesignTokens.Proofs.Output.Siblings
import DesignTokens.Proofs.Output.SourceLines
import DesignTokens.Proofs.Output.ThemeComments
import DesignTokens.Proofs.Output.ThemeLiterals
import DesignTokens.Proofs.Output.ThemeReads
import DesignTokens.Proofs.Output.TypeReading
import DesignTokens.Proofs.Output.TypeSoundness
import DesignTokens.Proofs.Path
import DesignTokens.Proofs.Platform.Conversion
import DesignTokens.Proofs.Platform.Paths
import DesignTokens.Proofs.Platform.Places
import DesignTokens.Proofs.Reference.Blocks
import DesignTokens.Proofs.Reference.Emitted
import DesignTokens.Proofs.Reference.Finding
import DesignTokens.Proofs.Reference.Referents
import DesignTokens.Proofs.Reference.Replacement
import DesignTokens.Proofs.Reference.Rewriting
import DesignTokens.Proofs.Reference.Single
import DesignTokens.Proofs.Reference.Substitution
import DesignTokens.Proofs.SortedAssoc
import DesignTokens.Proofs.Text.BlockComments
import DesignTokens.Proofs.Text.CommentRemoval
import DesignTokens.Proofs.Text.Comments
import DesignTokens.Proofs.Text.KotlinLiteral
import DesignTokens.Proofs.Text.SwiftLiteral
