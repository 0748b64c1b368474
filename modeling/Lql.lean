import Lql.Lib.Mask
import Lql.Lib.Sim
import Lql.Lib.Word
import Lql.Lib.Overlap
import Lql.Lib.Heap
import Lql.Lib.Ranges
import Lql.Lib.Calendar
import Lql.Basic
import Lql.Unicode
import Lql.Utf8
import Lql.Unicode.Lower
import Lql.Temporal
import Lql.Temporal.Fast
import Lql.Temporal.Civil
import Lql.Temporal.Format
import Lql.Temporal.Literal
import Lql.Temporal.RoundTrip
import Lql.Number.Compare
import Lql.Number.Summary
import Lql.Number.Digits
import Lql.Number.Magnitude
import Lql.Scan.Term
import Lql.Scan.Input
import Lql.Scan.State
import Lql.Scan.Match
import Lql.Scan.NumberRange
import Lql.Scan.Read
import Lql.Scan.Long
import Lql.Scan.Span
import Lql.Scan.Keys
import Lql.Scan.Value
import Lql.Scan.Ndjson
import Lql.Json.Parse
import Lql.Json.Local
import Lql.Json.Text
import Lql.Scan.ReadSpec
import Lql.Scan.SkipSpec
import Lql.Scan.ScalarSpec
import Lql.Scan.Needle
import Lql.Scan.Cursor
import Lql.Scan.Runs
import Lql.Scan.Feed
import Lql.Scan.Path
import Lql.Scan.Regular
import Lql.Scan.KeyStep
import Lql.Scan.KeySpec
import Lql.Scan.NumberSpec
import Lql.Number.Exact
import Lql.Json.Grammar
import Lql.Json.Lexer
import Lql.Json.Reading
import Lql.Json.Records
import Lql.Scan.Walk
import Lql.Scan.Descend
import Lql.Scan.MeetSpec
import Lql.Scan.Accept
import Lql.Scan.ValueSpec
import Lql.Scan.Records
import Lql.Scan.Run
import Lql.Scan.Find
import Lql.Scan.Independence
import Lql.Scan.Locate
import Lql.Scan.Dates
import Lql.Selector.Clauses
import Lql.Selector.Group
import Lql.Selector.Grouping
import Lql.Selector.Node
import Lql.Selector.Order
import Lql.Selector.Build
import Lql.Selector.Owned
import Lql.Selector.Clone
import Lql.Selector.Refusal
import Lql.Selector.Compound
import Lql.Selector.Text
import Lql.Selector.Field
import Lql.Selector.Json
import Lql.Selector.StringTerm
import Lql.Stream.Plan
import Lql.Scan.Stop
import Lql.Stream.Stop
import Lql.Scan.Predicates
import Lql.Scan.Depth
import Lql.Alloc.Quota
import Lql.Alloc.Ledger
import Lql.Number.Digits
import Lql.Mutation.Action
import Lql.Mutation.Text
import Lql.Mutation.Cut
import Lql.Mutation.Join
import Lql.Mutation.Brace
import Lql.Lib.Base64
import Lql.Json.Validate
import Lql.Json.Agree
import Lql.Mutation.FileValue
import Lql.Mutation.FileSpec
import Lql.Projection.Paths
import Lql.Lib.File
import Lql.Lib.Ends
import Lql.Spool
import Lql.Spool.Refine
import Lql.Mutation.Walk
import Lql.Mutation.Keys
import Lql.Json.Closing
import Lql.Mutation.Skip
import Lql.Spool.Runs
import Lql.Lib.Short
import Lql.Lib.Follow
import Lql.Scan.Trace
import Lql.Stream.Apply
import Lql.Stream.Limits
import Lql.Scan.Longer
import Lql.Scan.LongerValue
import Lql.Scan.Boundary
import Lql.Selector.Tokens
import Lql.Selector.Replay
import Lql.Selector.Stored
import Lql.Selector.Machine
import Lql.Selector.WellFormed
import Lql.Selector.Write
import Lql.Selector.Spell
import Lql.Selector.Cuts
import Lql.Selector.Given
import Lql.Selector.Made
import Lql.Selector.Reread
import Lql.Selector.RoundTrip
import Lql.Stream.Numbers
import Lql.Stream.Export
import Lql.Stream.Boundary
