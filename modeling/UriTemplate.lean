import UriTemplate.Binary64
import UriTemplate.Binary64.Fixed
import UriTemplate.Binary64.Shortest
import UriTemplate.Bindings
import UriTemplate.Bindings.Json
import UriTemplate.CharClass
import UriTemplate.Command
import UriTemplate.Command.Arguments
import UriTemplate.Diff
import UriTemplate.Discovery
import UriTemplate.Error
import UriTemplate.Expression
import UriTemplate.Expression.Expansion
import UriTemplate.Expression.Matching
import UriTemplate.Expression.Token
import UriTemplate.Files.Path
import UriTemplate.Files.Tree
import UriTemplate.Fixture
import UriTemplate.Json
import UriTemplate.Json.Reader
import UriTemplate.Json.Writer
import UriTemplate.Listing
import UriTemplate.Main
import UriTemplate.Name
import UriTemplate.Operator
import UriTemplate.Percent
import UriTemplate.Percent.Atom
import UriTemplate.Proofs.DelimitedExtraction
import UriTemplate.Proofs.ExpressionReading
import UriTemplate.Proofs.ExtractionSoundness
import UriTemplate.Proofs.FlatExpansion
import UriTemplate.Proofs.Layout
import UriTemplate.Proofs.PercentCoding
import UriTemplate.Proofs.Splits
import UriTemplate.Proofs.TemplateReading
import UriTemplate.Proofs.TextFacts
import UriTemplate.Regex
import UriTemplate.Regex.Match
import UriTemplate.Report
import UriTemplate.SuiteRun
import UriTemplate.Template
import UriTemplate.Template.Extraction
import UriTemplate.Terminal
import UriTemplate.Text
import UriTemplate.Text.Utf8
import UriTemplate.Url
import UriTemplate.Url.Domain
import UriTemplate.Url.Fault
import UriTemplate.Url.Host
import UriTemplate.Url.Punycode
import UriTemplate.Value
import UriTemplate.VarSpec
import UriTemplate.Proofs.TemplateFaults
import UriTemplate.Proofs.TokenGrammar
import UriTemplate.Proofs.MatchExistence
import UriTemplate.Proofs.Reparsing
import UriTemplate.Proofs.RepeatedVariables
import UriTemplate.Proofs.CharacterBounds
import UriTemplate.Proofs.CanonicalSpelling
import UriTemplate.Proofs.Noninterference
import UriTemplate.Proofs.SlotMatches
import UriTemplate.Proofs.GreedyMatches
import UriTemplate.Proofs.SharedDelimiters
import UriTemplate.Proofs.Reexpansion
import UriTemplate.Proofs.DistinctKeys
import UriTemplate.Proofs.FixtureForm
import UriTemplate.Proofs.SuiteResults
import UriTemplate.Proofs.ReportVerdict
import UriTemplate.Proofs.PrefixExtraction
import UriTemplate.Proofs.ExtractionSupport
import UriTemplate.Proofs.LosslessExpansion
import UriTemplate.Proofs.LeftmostLongest
import UriTemplate.Proofs.TripletRuns
import UriTemplate.Proofs.EscapedText
import UriTemplate.Proofs.Concatenation
import UriTemplate.Proofs.BindingsJson
import UriTemplate.Proofs.ListedCases
import UriTemplate.Proofs.ByteOrder
import UriTemplate.Proofs.FixturePaths
import UriTemplate.Proofs.FixtureDiscovery
import UriTemplate.Proofs.DifferenceRuns
import UriTemplate.Proofs.CaptureGroups
import UriTemplate.Proofs.AssignedVariables
import UriTemplate.Proofs.ProgressLines
import UriTemplate.Proofs.LossyReading
import UriTemplate.Proofs.TokenReading
