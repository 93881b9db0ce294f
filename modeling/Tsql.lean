import Tsql.Lib.GoMap
import Tsql.Lib.Run
import Tsql.Lib.WriteLog
import Tsql.Lib.Bytes
import Tsql.Lib.Codec
import Tsql.Types
import Tsql.Schema
import Tsql.Storage.Wal
import Tsql.Storage.PlainGob
import Tsql.Storage.Table
import Tsql.Storage.Index
import Tsql.Storage.Engine
import Tsql.Storage.Txn
import Tsql.Storage.Snapshot
import Tsql.Storage.Open
import Tsql.Storage.Steps
import Tsql.Storage.System
import Tsql.Storage.Catalog
import Tsql.Storage.Unique
import Tsql.Storage.CrashPrefix
import Tsql.Storage.Recovery
import Tsql.Lib.Ranked
import Tsql.Storage.Prune
import Tsql.Storage.Journal
import Tsql.Storage.CheckpointCrash
import Tsql.Storage.History
import Tsql.Storage.Rows
import Tsql.Storage.Interleaved
import Tsql.Storage.SharedTables
import Tsql.Storage.Online
import Tsql.Lib.Binary64
import Tsql.Lib.Program
import Tsql.Parser.Ast
import Tsql.Storage.Accessor
import Tsql.Executor.Eval
import Tsql.Executor.Select
import Tsql.Executor.Dml
import Tsql.Executor.ThreeValued
import Tsql.Storage.Publishing
import Tsql.Storage.Session
import Tsql.Storage.Undisturbed
import Tsql.Executor.Shortcut
import Tsql.Executor.ReadOnly
import Tsql.Executor.Derived
import Tsql.Storage.Writes
import Tsql.Executor.Turns
import Tsql.Executor.Leftovers
import Tsql.Executor.Agreement
import Tsql.Storage.SessionWrites
import Tsql.Server.Server
import Tsql.Storage.Integrity
import Tsql.Executor.RowWrites
import Tsql.Executor.Parents
import Tsql.Server.Steps
import Tsql.Executor.NewRows
import Tsql.Server.Rows
import Tsql.Server.Constraints
import Tsql.Executor.References
import Tsql.Server.ForeignKeys
import Tsql.Executor.InRange
import Tsql.Executor.NoPanic
import Tsql.Storage.FreshIds
import Tsql.Storage.AutomaticIds
import Tsql.Server.Answers
import Tsql.Server.Repl
import Tsql.Lib.Checksum
import Tsql.Storage.LogFile
import Tsql.Lib.Binary64Order
import Tsql.ValueOrder
import Tsql.Executor.Membership
import Tsql.Executor.Groups
import Tsql.Executor.SortOrder
import Tsql.Executor.Joins
import Tsql.Lib.Product
import Tsql.Storage.Coherence
import Tsql.Lib.Relocate
import Tsql.Storage.Effects
import Tsql.Executor.Selected
import Tsql.Executor.Integers
import Tsql.Executor.Names
import Tsql.Server.Frames
import Tsql.Lib.Cursor
import Tsql.Parser.Lexer
import Tsql.Parser.Parse
import Tsql.Parser.Progress
import Tsql.Lib.Reading
import Tsql.Parser.Print
import Tsql.Parser.Reading
import Tsql.Parser.RoundTrip
import Tsql.Parser.Printed
import Tsql.Executor.Literals
import Tsql.Lib.Shortest
import Tsql.Server.Printing
import Tsql.Executor.Asked
import Tsql.Lib.Overlap
import Tsql.Storage.KeptKeys
import Tsql.Executor.Overlapping
import Tsql.Storage.Reserved
import Tsql.Server.Uncommitted
