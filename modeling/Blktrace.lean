import Blktrace.Blkparse.FileBatch
import Blktrace.Blkparse.PipeInput
import Blktrace.Blkparse.PipeOrder
import Blktrace.Lib.Intervals
import Blktrace.Lib.Framing
import Blktrace.Blkparse.SkipRun
import Blktrace.Blkparse.SkipSet
import Blktrace.Blkparse.SkipLinks
import Blktrace.Blkparse.PipeOrigin
import Blktrace.Blkparse.Stopwatch
import Blktrace.Blkparse.WallClock
import Blktrace.Image
import Blktrace.Btreplay.Btrecord
import Blktrace.Decoders
import Blktrace.Btreplay.Replay
import Blktrace.Btreplay.Bunches
import Blktrace.Btreplay.Replayed
import Blktrace.Btreplay.RecordReplay
import Blktrace.Btreplay.Grouping
import Blktrace.Btreplay.MapDevs
import Blktrace.Btreplay.Pool
import Blktrace.Btreplay.PoolInv
import Blktrace.Btreplay.Shutdown
import Blktrace.Btreplay.Iterations
import Blktrace.Btreplay.IterSteps
import Blktrace.Btreplay.IterInv
import Blktrace.Btreplay.Signals
import Blktrace.Btreplay.Barrier
import Blktrace.Btreplay.FileAlone
import Blktrace.Jhash
import Blktrace.Blkparse.IoStats
import Blktrace.Blkparse.Procs
import Blktrace.Blkparse.Dump
import Blktrace.Blkparse.Tracks
import Blktrace.Blkparse.TrackTimes
import Blktrace.Blkparse.PipeInOrder
import Blktrace.Blkparse.TrackRun
import Blktrace.Blkparse.TrackModes
import Blktrace.Lib.Wraps
import Blktrace.Blkparse.Tally
import Blktrace.Tracer.Reframe
import Blktrace.Tracer.WriteErrors
import Blktrace.Lib.Runs
import Blktrace.Lib.Handles
import Blktrace.Tracer.Connections
import Blktrace.Tracer.HandOver
import Blktrace.Tracer.Handshake
import Blktrace.Tracer.Window
import Blktrace.Server.Host
import Blktrace.Server.Tolerance
import Blktrace.Server.Effect
import Blktrace.Server.Lifetime
import Blktrace.Server.Unwinding
import Blktrace.Server.Wire
import Blktrace.Server.Service
import Blktrace.Server.Transfer
import Blktrace.Server.Delivery
import Blktrace.Blkparse.Charges
import Blktrace.Blkparse.Totals
import Blktrace.Blkparse.ByName
import Blktrace.TraceFile
import Blktrace.Blkiomon.Stats
import Blktrace.Blkiomon.Dstat
import Blktrace.Blkiomon.Exact
import Blktrace.Blkiomon.Merge
import Blktrace.Blkiomon.Match
import Blktrace.Blkiomon.Drvdata
import Blktrace.Lib.Linked
import Blktrace.Blkiomon.Structs
import Blktrace.Blkiomon.Interval
import Blktrace.Blkrawverify.Process
import Blktrace.Blkrawverify.Survey
import Blktrace.Blkrawverify.Verdict
import Blktrace.Blkrawverify.Summary
import Blktrace.Iowatcher.Cursor
import Blktrace.Iowatcher.LastTime
import Blktrace.Iowatcher.Fio
import Blktrace.Iowatcher.Events
import Blktrace.Iowatcher.Seconds
import Blktrace.Lib.Tiling
import Blktrace.Lib.Buckets
import Blktrace.Iowatcher.DevMap
import Blktrace.Iowatcher.Outliers
import Blktrace.Lib.Walks
import Blktrace.Iowatcher.Dots
import Blktrace.Iowatcher.InFlight
import Blktrace.Iowatcher.PidPlots
import Blktrace.Iowatcher.Residue
import Blktrace.Btt.Window
import Blktrace.Btt.Reader
import Blktrace.Btt.TimeWindow
import Blktrace.Lib.SearchTree
import Blktrace.Btt.Devs
import Blktrace.Btt.Trace
import Blktrace.Btt.Effects
import Blktrace.Btt.LifeCycle
import Blktrace.Btt.Iostat
import Blktrace.Btt.Requests
import Blktrace.Btt.PointQuery
import Blktrace.Btt.Containment
import Blktrace.Btt.PLive
import Blktrace.Btt.LiveTimes
import Blktrace.Btt.Seeks
import Blktrace.Btt.Latencies
import Blktrace.Btt.IostatTotals
import Blktrace.Btt.Histograms
import Blktrace.Btt.Processes
import Blktrace.Btt.Rstats
import Blktrace.Lib.Buffer
import Blktrace.Blkparse.Formats
import Blktrace.Payloads
import Blktrace.Blkparse.BinaryDump
import Blktrace.Blkparse.SlotCalls
import Blktrace.Blkparse.SizeCnv
import Blktrace.Blkparse.DumpPdu
import Blktrace.Blkparse.DeviceReport
import Blktrace.Blkparse.DeviceRuns
import Blktrace.Blkparse.PidNames
import Blktrace.Blkparse.TrackTree
import Blktrace.Lib.Bitmap
import Blktrace.Blkparse.CpuMap
import Blktrace.Btt.DevFilter
import Blktrace.Lib.Sections
import Blktrace.Btt.Output
import Blktrace.Btt.OutputFrames
import Blktrace.Btt.OutputAlone
import Blktrace.Blkparse.Reread
import Blktrace.Iowatcher.FioSeconds
import Blktrace.Blkparse.LastFind
import Blktrace.Btt.Ranges
import Blktrace.Lib.Lines
import Blktrace.Iowatcher.Mpstat
import Blktrace.Iowatcher.MpstatText
import Blktrace.Iowatcher.MpstatRead
import Blktrace.Iowatcher.Samples
import Blktrace.Iowatcher.CpuPlots
import Blktrace.Lib.Zipper
import Blktrace.Lib.RedBlack
import Blktrace.Lib.RedBlackErase
import Blktrace.Rbtree.Node
import Blktrace.Rbtree.Shape
import Blktrace.Rbtree.Rotate
import Blktrace.Rbtree.Insert
import Blktrace.Rbtree.Erase
import Blktrace.Rbtree.Walk
import Blktrace.Rbtree.Run
import Blktrace.Rbtree.Users
import Blktrace.Lib.EachSafe
import Blktrace.Lib.Sides
import Blktrace.Server.Hosts
import Blktrace.Server.HostLists
import Blktrace.Server.Rounds
import Blktrace.Lib.Pieces
import Blktrace.Server.Pieces
import Blktrace.Lib.Printf
import Blktrace.Blkparse.FormatText
import Blktrace.Blkparse.FormatLang
import Blktrace.Blkparse.FormatOptions
import Blktrace.Lib.Rings
import Blktrace.Lists.ListHead
import Blktrace.Lists.Run
import Blktrace.Lists.Loops
import Blktrace.Btreplay.PoolLinks
import Blktrace.Blkparse.Descriptor
import Blktrace.Blkparse.Recording
import Blktrace.Live
import Blktrace.Networked
