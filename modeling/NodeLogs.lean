import NodeLogs.Line.Parser
import NodeLogs.Filter.Levels
import NodeLogs.Discovery.FileName
import NodeLogs.Discovery.Run
import NodeLogs.Report.Counts
import NodeLogs.Output.Names
import NodeLogs.Settings.Basic
import NodeLogs.Pipeline.Run
import NodeLogs.Command.Execute
import NodeLogs.Main
import NodeLogs.Proofs.Output.FanOut
import NodeLogs.Proofs.Pipeline.Separate
import NodeLogs.Proofs.Record.JsonLine
import NodeLogs.Proofs.Tree.Shape
import NodeLogs.Proofs.Output.Echo
import NodeLogs.Proofs.Tree.Remade
import NodeLogs.Proofs.Pipeline.Texts
import NodeLogs.Proofs.Discovery.Choice
import NodeLogs.Proofs.Pipeline.Again
import NodeLogs.Proofs.Json.Nesting
import NodeLogs.Proofs.Record.ReadBack
import NodeLogs.Proofs.Discovery.Covers
import NodeLogs.Proofs.Pipeline.InStep
import NodeLogs.Proofs.Pipeline.Isolated
import NodeLogs.Proofs.Line.Rendering
import NodeLogs.Proofs.Output.Sessions
import NodeLogs.Proofs.Command.Status
import NodeLogs.Proofs.Discovery.Located
import NodeLogs.Proofs.Pipeline.AnyOrder
import NodeLogs.Proofs.Pipeline.Stops
import NodeLogs.Proofs.Json.Spelling
import NodeLogs.Proofs.Line.Escapes
import NodeLogs.Proofs.Pipeline.Delivered
import NodeLogs.Proofs.Pipeline.Selecting
import NodeLogs.Proofs.Discovery.LogNames
import NodeLogs.Proofs.Settings.Levels
import NodeLogs.Proofs.Output.Closing
