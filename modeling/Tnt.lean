import Tnt.Lib.Runs
import Tnt.Lib.Lines
import Tnt.Lib.Slots
import Tnt.Lib.Jobs
import Tnt.Lib.Windows
import Tnt.Lib.Chains
import Tnt.Lib.Arrays
import Tnt.Lib.Versions
import Tnt.Lib.CountWindows
import Tnt.Lib.Feeds
import Tnt.Lib.Headings
import Tnt.Lib.Calendar
import Tnt.Lib.TimeFormat
import Tnt.Lib.Json
import Tnt.Lib.Budgets
import Tnt.Lib.EditDistance
import Tnt.Lib.Occurrences
import Tnt.Lib.SharedFronts
import Tnt.Lib.Ledger
import Tnt.Utf8
import Tnt.Utf8Encoding
import Tnt.Common
import Tnt.MessageLog
import Tnt.Grammar
import Tnt.Message
import Tnt.Durability
import Tnt.Readers
import Tnt.Export
import Tnt.Recovery
import Tnt.Replay
import Tnt.BackwardScan
import Tnt.JsonText
import Tnt.Builders
import Tnt.JsonReader
import Tnt.JsonStrings
import Tnt.ModuleProtocol
import Tnt.Publication
import Tnt.ModuleEvents
import Tnt.Manifest
import Tnt.ProtocolLines
import Tnt.JsonMalformed
import Tnt.RateLimit
import Tnt.RateHistory
import Tnt.Connections
import Tnt.Bootstrap
import Tnt.Names
import Tnt.Whisper
import Tnt.Inbox
import Tnt.Input
import Tnt.Utf8Cuts
import Tnt.AnsiText
import Tnt.ScreenLine
import Tnt.PasteLimit
import Tnt.InsertMode
import Tnt.Typing
import Tnt.CommandLine
import Tnt.TypedLines
import Tnt.Addressing
import Tnt.Completion
import Tnt.CompletionPrefix
import Tnt.Suggestions
import Tnt.Renaming
import Tnt.SystemMessage
import Tnt.HistoryCommands
import Tnt.Highlight
import Tnt.InboxOutput
import Tnt.Board
import Tnt.Refresh
import Tnt.History
import Tnt.LiveHistory
import Tnt.EscapeKeys
import Tnt.Pagers
import Tnt.SessionKeys
import Tnt.Tntctl
import Tnt.ServerOptions
import Tnt.HostKey
import Tnt.ModuleProcesses
import Tnt.ModuleIsolation
import Tnt.Presence
import Tnt.Mentions
import Tnt.SilentModules
import Tnt.JsonMemory
import Tnt.BracketedPaste
import Tnt.Server
import Tnt.ModuleRuntime
import Tnt.Containment
import Tnt.Framing
import Tnt.Order
import Tnt.Saving
import Tnt.Persistence
import Tnt.Authorship
import Tnt.AuthorNames
import Tnt.Outbox
import Tnt.Terminal
import Tnt.TerminalSafety
import Tnt.TitleBar
import Tnt.MessageRow
import Tnt.Screen
import Tnt.ScreenSize
import Tnt.Capacity
import Tnt.Room
import Tnt.RoomUsers
import Tnt.EventQueue
import Tnt.Lifetime
import Tnt.CommandAnswers
import Tnt.CommandSafety
