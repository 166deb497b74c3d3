import Settings.Configuration.Recipe
import Settings.Dialect.Rendering
import Settings.Lexeme.Cursor
import Settings.Shape.Sample
import Settings.Proofs.Reference.Meaning
import Settings.Proofs.Lexeme.Quoting
import Settings.Proofs.Lexeme.Tape
import Settings.Proofs.Number.IntText
import Settings.Proofs.Reference.Resolution
import Settings.Proofs.Tree.Form
import Settings.Proofs.Tree.RoundTrip
import Settings.Proofs.Datum.Marshalling
import Settings.Proofs.Store.Keys
import Settings.Proofs.Store.Scope
import Settings.Proofs.Store.Overlay
import Settings.Proofs.Configuration.Query
import Settings.Proofs.Dialect.HoconLines
import Settings.Proofs.Dialect.HoconRoundTrip
import Settings.Proofs.Tree.Removal
import Settings.Proofs.Binding.Skipping
import Settings.Proofs.Configuration.Run
import Settings.Proofs.Configuration.Scope
import Settings.Proofs.Tree.Grammar
import Settings.Proofs.Lexeme.Lines
import Settings.Proofs.Dialect.HoconTokens
import Settings.Proofs.Dialect.HoconInclude
import Settings.Proofs.Dialect.YamlRoundTrip
import Settings.Proofs.Configuration.Unread
import Settings.Proofs.Dialect.HoconLayout
import Settings.Proofs.Number.DecimalText
import Settings.Proofs.Shape.Carrying
import Settings.Proofs.Binding.SampleBean
import Settings.Proofs.Binding.Fields
import Settings.Proofs.Dialect.PropertiesRoundTrip
import Settings.Proofs.Dialect.JsonRoundTrip
import Settings.Proofs.Reference.Closing
import Settings.Proofs.Dialect.Copying
import Settings.Proofs.Dialect.References
import Settings.Proofs.Binding.GenericTree
import Settings.Proofs.Number.Saturation
import Settings.Proofs.Binding.IntegerLiterals
import Settings.Proofs.Text.Listing
import Settings.Proofs.Dialect.YamlLists
import Settings.Proofs.Dialect.HoconDirectives
import Settings.Proofs.Dialect.IncludeChains
import Settings.Proofs.Lexeme.LineFeeds
import Settings.Proofs.Tree.StrictGrammar
import Settings.Proofs.Tree.StrictText
import Settings.Proofs.Catalog.Indexes
import Settings.Proofs.Binding.Containers
import Settings.Proofs.Dialect.JsonTokens
import Settings.Proofs.Dialect.PropertiesLines
import Settings.Proofs.Dialect.IdleLines
import Settings.Proofs.Tree.Leaves
import Settings.Proofs.Catalog.Credentials
import Settings.Proofs.Tree.Regrouping
import Settings.Proofs.Configuration.Kept
import Settings.Proofs.Reference.Fetching
import Settings.Proofs.Text.Splitting
import Settings.Proofs.Text.Brackets
import Settings.Proofs.Text.Spacing
import Settings.Proofs.Binding.NestedLists
import Settings.Proofs.Dialect.YamlScopes
import Settings.Proofs.Binding.Retries
import Settings.Proofs.Lexeme.Spans
import Settings.Proofs.Dialect.HoconValues
import Settings.Proofs.Dialect.HoconReferences
import Settings.Proofs.Reference.Unresolved
import Settings.Proofs.Lexeme.Lookahead
import Settings.Proofs.Lexeme.LineNumbers
import Settings.Proofs.Lexeme.ClosingQuotes
import Settings.Proofs.Number.Integral
import Settings.Proofs.Tree.FloatKinds
import Settings.Proofs.Dialect.YamlComments
import Settings.Proofs.Dialect.PropertiesContinuation
import Settings.Proofs.Dialect.PropertiesEscapes
import Settings.Proofs.Configuration.SearchPaths
