import ConfigSchema.Main
import ConfigSchema.Proofs.Canonical.Assembly
import ConfigSchema.Proofs.Canonical.Normal
import ConfigSchema.Proofs.Canonical.NullFree
import ConfigSchema.Proofs.Canonical.Reordered
import ConfigSchema.Proofs.Schema.References
import ConfigSchema.Proofs.Schema.Stamp
import ConfigSchema.Proofs.Schema.FirstFault
import ConfigSchema.Proofs.Canonical.Inlined
import ConfigSchema.Proofs.Canonical.References
import ConfigSchema.Proofs.Canonical.SecondPass
import ConfigSchema.Proofs.Canonical.Collapse
import ConfigSchema.Proofs.Canonical.KeyByKey
import ConfigSchema.Proofs.Canonical.KeyLayout
import ConfigSchema.Proofs.Json.Size
import ConfigSchema.Proofs.Canonical.Growth
import ConfigSchema.Proofs.Canonical.Termination
import ConfigSchema.Proofs.Canonical.Identity
import ConfigSchema.Proofs.Docs.Chain
import ConfigSchema.Proofs.Docs.Flattening
import ConfigSchema.Proofs.Docs.Openings
import ConfigSchema.Proofs.Docs.Label
import ConfigSchema.Proofs.Docs.NullOptions
import ConfigSchema.Proofs.Docs.Outline
import ConfigSchema.Proofs.Docs.Failure
import ConfigSchema.Proofs.Docs.Vanishing
import ConfigSchema.Proofs.Json.Digits
import ConfigSchema.Proofs.Json.Pointer
import ConfigSchema.Proofs.Schema.Shape
import ConfigSchema.Proofs.Canonical.Inspection
import ConfigSchema.Proofs.Canonical.Misfits
import ConfigSchema.Proofs.Json.Numeral
import ConfigSchema.Proofs.Json.Quoted
import ConfigSchema.Proofs.Json.Binary64
import ConfigSchema.Proofs.Json.Shortest
import ConfigSchema.Proofs.Json.RoundTrip
import ConfigSchema.Proofs.Canonical.Reload
import ConfigSchema.Proofs.Canonical.NullPadding
import ConfigSchema.Proofs.Schema.Mentions
import ConfigSchema.Proofs.Docs.Unused
import ConfigSchema.Proofs.Docs.Lines
import ConfigSchema.Proofs.Docs.Links
import ConfigSchema.Proofs.CommandLine.Path
import ConfigSchema.Proofs.CommandLine.Directory
import ConfigSchema.Proofs.CommandLine.Grammar
import ConfigSchema.Proofs.CommandLine.Arguments
import ConfigSchema.Proofs.CommandLine.Run
import ConfigSchema.Proofs.Toml.Grammar
import ConfigSchema.Proofs.Toml.Quote
import ConfigSchema.Proofs.Toml.Literal
import ConfigSchema.Proofs.Docs.Snippets
import ConfigSchema.Proofs.Docs.Examples
import ConfigSchema.Proofs.Docs.ListFields
import ConfigSchema.Proofs.Toml.Header
import ConfigSchema.Proofs.Docs.TableHeader
import ConfigSchema.Proofs.Docs.PageText
import ConfigSchema.Proofs.Json.Locality
import ConfigSchema.Proofs.Json.Beginning
import ConfigSchema.Proofs.Selection.Pointer
import ConfigSchema.Proofs.Selection.Filter
import ConfigSchema.Proofs.Text.Case
import ConfigSchema.Proofs.Docs.KebabCase
import ConfigSchema.Proofs.Docs.NullTexts
