import SchemaHistory.Json.Lenient
import SchemaHistory.Main
import SchemaHistory.Proofs.Built
import SchemaHistory.Proofs.Building
import SchemaHistory.TypeRef.Parser
import SchemaHistory.Proofs.Values
import SchemaHistory.Proofs.ChangeOrder
import SchemaHistory.Proofs.Compatible
import SchemaHistory.Proofs.Rounding
import SchemaHistory.Proofs.NumberText
import SchemaHistory.Proofs.WholeNumbers
import SchemaHistory.Proofs.Counting
import SchemaHistory.Proofs.JsonText
import SchemaHistory.Proofs.JsonReading
import SchemaHistory.Proofs.Faithful
import SchemaHistory.Proofs.SchemaText
import SchemaHistory.Proofs.SnapshotText
import SchemaHistory.Proofs.Entries
import SchemaHistory.Proofs.Directories
import SchemaHistory.Proofs.Shelves
import SchemaHistory.Proofs.Operations
import SchemaHistory.Proofs.Listings
import SchemaHistory.Proofs.Archive
import SchemaHistory.Proofs.Calls
import SchemaHistory.Proofs.Comparisons
import SchemaHistory.Proofs.Rereading
import SchemaHistory.Proofs.Isolation
import SchemaHistory.Proofs.History
import SchemaHistory.Proofs.Agreement
import SchemaHistory.Proofs.Failures
import SchemaHistory.Proofs.InputValues
import SchemaHistory.Proofs.NumberOrder
import SchemaHistory.Proofs.Latest
import SchemaHistory.Proofs.Settling
import SchemaHistory.Proofs.Recording
import SchemaHistory.Proofs.Thresholds
import SchemaHistory.Proofs.ExitCodes
import SchemaHistory.Proofs.Throughout
import SchemaHistory.Proofs.ReadBack
import SchemaHistory.Proofs.WholeText
import SchemaHistory.Proofs.Numbering
import SchemaHistory.Proofs.ReferenceText
import SchemaHistory.Proofs.ReferenceChains
import SchemaHistory.Proofs.Mirroring
import SchemaHistory.Proofs.OrderIndependence
import SchemaHistory.Proofs.Reachability
import SchemaHistory.Proofs.SelfContained
import SchemaHistory.Proofs.Naming
import SchemaHistory.Proofs.Layout
import SchemaHistory.Proofs.SameText
import SchemaHistory.Proofs.TextTokens
import SchemaHistory.Proofs.TextLiterals
import SchemaHistory.Proofs.TextParts
import SchemaHistory.Proofs.TextReading
import SchemaHistory.Proofs.RootTypes
import SchemaHistory.Proofs.StringLiterals
import SchemaHistory.Proofs.Descriptions
import SchemaHistory.Proofs.DescriptionValues
import SchemaHistory.Proofs.NumberGrammar
import SchemaHistory.Proofs.TokenGrammar
import SchemaHistory.Proofs.Lexemes
import SchemaHistory.Proofs.CommaDropping
import SchemaHistory.Proofs.TrailingCommas
import SchemaHistory.Proofs.FiniteDocuments
import SchemaHistory.Proofs.FixedPoint
import SchemaHistory.Proofs.ListedNames
import SchemaHistory.Proofs.Precedence
