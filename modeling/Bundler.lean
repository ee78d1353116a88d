import Bundler.Main
import Bundler.Tree.Walk
import Bundler.Proofs.Analysis.Tables
import Bundler.Proofs.Graph.Reachable
import Bundler.Proofs.Shake.Progress
import Bundler.Proofs.Shake.Run
import Bundler.Proofs.Shake.Closed
import Bundler.Proofs.Shake.Least
import Bundler.Proofs.Shake.Seeding
import Bundler.Proofs.Build.Assembled
import Bundler.Proofs.Build.Writes
import Bundler.Proofs.Analysis.Placement
import Bundler.Proofs.Lexer.Partition
import Bundler.Proofs.Parser.Stream
import Bundler.Proofs.Parser.Discipline
import Bundler.Proofs.Parser.Rules
import Bundler.Proofs.Parser.Locality
import Bundler.Proofs.Parser.Sequence
import Bundler.Proofs.Build.ReadBack
import Bundler.Proofs.Analysis.Definers
import Bundler.Proofs.Analysis.Sources
import Bundler.Proofs.Graph.Loaded
import Bundler.Proofs.Build.Precedence
import Bundler.Proofs.Build.Emission
import Bundler.Proofs.Build.Unique
import Bundler.Proofs.Build.Backed
import Bundler.Proofs.Graph.Trails
import Bundler.Proofs.Graph.Search
import Bundler.Proofs.Graph.ExportNames
import Bundler.Proofs.Graph.Agreement
import Bundler.Proofs.Graph.Fallback
import Bundler.Proofs.Analysis.Walks
import Bundler.Proofs.Analysis.Holding
import Bundler.Proofs.Analysis.Lookup
import Bundler.Proofs.Analysis.References
import Bundler.Proofs.Analysis.Declared
import Bundler.Proofs.Analysis.Clauses
import Bundler.Proofs.Build.Renamed
import Bundler.Proofs.Build.Commented
import Bundler.Proofs.Build.RoundTrip
import Bundler.Proofs.Lexer.LongestMatch
import Bundler.Proofs.Lexer.Sequence
import Bundler.Proofs.Parser.Bufferless
import Bundler.Proofs.Parser.Locations
import Bundler.Proofs.Parser.Comments
import Bundler.Proofs.Path
import Bundler.Proofs.Graph.Lacking
import Bundler.Proofs.Shake.Asking
import Bundler.Proofs.Respelling.Basic
import Bundler.Proofs.Respelling.Link
import Bundler.Proofs.Respelling.Names
import Bundler.Proofs.Respelling.Shake
import Bundler.Proofs.Respelling.Bundle
import Bundler.Proofs.Respelling.Loading
import Bundler.Proofs.Parser.Sourced
import Bundler.Proofs.Graph.Reads
import Bundler.Proofs.Graph.Places
import Bundler.Proofs.Graph.Truth
import Bundler.Proofs.Build.Reading
import Bundler.Proofs.Build.LoadOrder
import Bundler.Proofs.Build.SingleModule
import Bundler.Proofs.Parser.Termination
import Bundler.Proofs.Parser.ObjectPatterns
import Bundler.Proofs.Parser.Reparsing
import Bundler.Proofs.Analysis.Failures
import Bundler.Proofs.Parser.Assigns
import Bundler.Proofs.Parser.AssignmentTargets
import Bundler.Proofs.Parser.ArrowErrors
import Bundler.Proofs.Parser.ConciseBodies
import Bundler.Proofs.Parser.NewExpressions
import Bundler.Proofs.Analysis.Evaluation
import Bundler.Proofs.Analysis.Removable
import Bundler.Proofs.Parser.FirstTokens
import Bundler.Proofs.Lexer.WordSearch
import Bundler.Proofs.Parser.DefaultExports
import Bundler.Proofs.Analysis.DefaultValues
import Bundler.Proofs.Build.Attachment
import Bundler.Proofs.Build.StatementText
import Bundler.Proofs.Lexer.Spellings
import Bundler.Proofs.Parser.Quotes
import Bundler.Proofs.Location
import Bundler.Proofs.Shake.Requests
import Bundler.Proofs.Analysis.Histories
import Bundler.Proofs.Number.Order
import Bundler.Proofs.Number.RadixLiterals
import Bundler.Proofs.Lexer.Numerals
import Bundler.Proofs.Identifier
import Bundler.Proofs.Position
