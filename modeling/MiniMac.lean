import MiniMac.Theory.Clocked
import MiniMac.Theory.SkewedGrid
import MiniMac.Theory.WordAddress
import MiniMac.Theory.WriteLog
import MiniMac.Theory.RingSlots
import MiniMac.Theory.StickyBit
import MiniMac.Theory.Fifo
import MiniMac.Theory.InOrder
import MiniMac.Theory.LeadsTo
import MiniMac.Theory.Handshake
import MiniMac.Theory.Latest
import MiniMac.Theory.EventCount
import MiniMac.Theory.ReadMemH
import MiniMac.Theory.Rv32i
import MiniMac.Theory.Rv32iCore
import MiniMac.Theory.Rv32iFormats
import MiniMac.Macros.SramWrapper
import MiniMac.Macros.SramBanked
import MiniMac.Core.MemSubsystem
import MiniMac.Core.RamPort
import MiniMac.Core.ReadResponses
import MiniMac.Core.RamSerial
import MiniMac.Core.InstrPort
import MiniMac.Core.RamAlias
import MiniMac.Core.MacRoundRobin
import MiniMac.Core.DmaMaster
import MiniMac.Core.CopyErrors
import MiniMac.Core.CopyPort
import MiniMac.Core.CopyTransfer
import MiniMac.Core.CopySystem
import MiniMac.Core.ForwardCopy
import MiniMac.Core.CopyCompletes
import MiniMac.Core.CopyRange
import MiniMac.Core.DmaRegs
import MiniMac.Core.DmaJobs
import MiniMac.Core.DmaArbiter
import MiniMac.Core.ReadOwners
import MiniMac.Core.ArbiterTurns
import MiniMac.Accel.MacCoreAxi
import MiniMac.Accel.OperandBuffers
import MiniMac.Accel.WindowSum
import MiniMac.Accel.StreamingLaw
import MiniMac.Accel.MacJob
import MiniMac.Accel.JobStream
import MiniMac.Accel.ClosedForm
import MiniMac.Accel.ArraySize
import MiniMac.Accel.JobTermination
import MiniMac.Accel.ResultIndex
import MiniMac.Accel.OperandCapture
import MiniMac.Accel.JobSequence
import MiniMac.Accel.MacCfgRegs
import MiniMac.Accel.MacMulticore
import MiniMac.Accel.LaunchStagger
import MiniMac.Accel.JobCompletion
import MiniMac.Accel.AxiStreamDma
import MiniMac.Accel.FillPort
import MiniMac.Accel.FillBeats
import MiniMac.Accel.FillEnds
import MiniMac.Accel.FillStreams
import MiniMac.Accel.DmaAccesses
import MiniMac.Accel.StreamSources
import MiniMac.Accel.MacDma
import MiniMac.Accel.ResultDrain
import MiniMac.Accel.DrainPace
import MiniMac.Dv.GoldenModel
import MiniMac.Dv.MacDmaTb
import MiniMac.Dv.InputFill
import MiniMac.Dv.EndToEnd
import MiniMac.Dv.DmaDirectedTb
import MiniMac.Dv.EngineIsolation
import MiniMac.Accel.ResultSink
import MiniMac.Dv.BuildFirmware
import MiniMac.Dv.BootFirmware
import MiniMac.Dv.Encoders
import MiniMac.Dv.FirmwareImage
import MiniMac.Core.Telemetry
import MiniMac.Core.TelemetryCounts
import MiniMac.Accel.MacSubsystem
import MiniMac.Accel.JobIsolation
import MiniMac.Bus.ObiToApb
import MiniMac.Bus.Transfers
import MiniMac.Bus.ApbBus
import MiniMac.Soc.DoneFlags
import MiniMac.Soc.SocTop
import MiniMac.Soc.DmaPort
import MiniMac.Soc.CpuAccess
import MiniMac.Soc.CpuPort
import MiniMac.Soc.RegisterReads
import MiniMac.Soc.StreamPort
import MiniMac.Soc.SoleClient
import MiniMac.Soc.Abort
import MiniMac.System.JobLedger
import MiniMac.System.JobFill
import MiniMac.System.JobBench
import MiniMac.System.JobDrain
import MiniMac.System.JobRun
import MiniMac.System.JobQueue
import MiniMac.System.JobStatus
import MiniMac.System.Board
import MiniMac.System.BoardLine
import MiniMac.System.ChipCopy
import MiniMac.System.BoardState
import MiniMac.System.Computer
import MiniMac.System.BoardRefines
import MiniMac.Dv.BootRun
import MiniMac.System.ChipJobs
import MiniMac.Ibex.LoadStoreData
import MiniMac.Ibex.LoadStorePipeline
import MiniMac.Ibex.LoadStoreSystem
import MiniMac.System.ProcessorPort
import MiniMac.System.ProcessorStores
