import GomokuCli.Cell
import GomokuCli.Position
import GomokuCli.Library.MaxRun
import GomokuCli.Record
import GomokuCli.GomocupMove
import GomokuCli.FiveInLine
import GomokuCli.WinConnection
import GomokuCli.Forbidden
import GomokuCli.Pattern
import GomokuCli.ForbiddenPoint
import GomokuCli.Opening
import GomokuCli.Operations
import GomokuCli.OpeningText
import GomokuCli.Game
import GomokuCli.Library.EarlyExit
import GomokuCli.Play
import GomokuCli.Round
import GomokuCli.Run
import GomokuCli.Outcome
import GomokuCli.LastMove
import GomokuCli.FiveCount
import GomokuCli.Precedence
import GomokuCli.RenjuRules
import GomokuCli.Symmetry
import GomokuCli.Mirror
import GomokuCli.EngineView
import GomokuCli.Bestmove
import GomokuCli.Binpack
import GomokuCli.BinpackRun
import GomokuCli.BinpackReplay
import GomokuCli.Bin
import GomokuCli.SampleResults
import GomokuCli.Library.Interleaving
import GomokuCli.Jobs
import GomokuCli.Openings
import GomokuCli.Repeats
import GomokuCli.JobRuns
import GomokuCli.Library.Resequencing
import GomokuCli.SeqWriter
import GomokuCli.Tournament
import GomokuCli.Supervision
import GomokuCli.Saving
import GomokuCli.Deadline
import GomokuCli.CommandLine
import GomokuCli.EngineCommand
import GomokuCli.Library.WindowsArguments
import GomokuCli.WindowsCommand
import GomokuCli.CustomInfo
import GomokuCli.TransformLaws
import GomokuCli.FullBoard
import GomokuCli.FinderTrace
import GomokuCli.EachGroups
import GomokuCli.SgfText
import GomokuCli.SgfRun
import GomokuCli.Library.Sgf
import GomokuCli.SgfRoundTrip
import GomokuCli.BinpackEvals
import GomokuCli.Library.Checked
import GomokuCli.Library.ThreeScores
import GomokuCli.OpeningsSafety
import GomokuCli.OptionsBounds
import GomokuCli.Sprt
import GomokuCli.Unresponsive
import GomokuCli.Library.Mixing
import GomokuCli.Library.Shuffling
import GomokuCli.Randomness
import GomokuCli.Library.Streaks
import GomokuCli.Adjudication
import GomokuCli.Clock
import GomokuCli.Completion
import GomokuCli.Library.Pgn
import GomokuCli.PgnText
import GomokuCli.PgnScores
import GomokuCli.Conversation
import GomokuCli.Library.Quoting
import GomokuCli.About
import GomokuCli.Crew
import GomokuCli.Library.Separated
import GomokuCli.SampleFile
import GomokuCli.Stopping
import GomokuCli.Messages
import GomokuCli.Library.Commuting
import GomokuCli.OptionsOrder
import GomokuCli.Configuration
import GomokuCli.Lifecycle
