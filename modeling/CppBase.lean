import CppBase.Lib.Exec
import CppBase.Lib.Hoare
import CppBase.Lib.Machine
import CppBase.Lib.Fallible
import CppBase.Lib.Fold
import CppBase.Lib.LastWriter
import CppBase.Lib.Bytes
import CppBase.Lib.Keyed
import CppBase.Lib.Circular
import CppBase.Lib.Multimap
import CppBase.Lib.Lru
import CppBase.Lib.Slice
import CppBase.Lib.File
import CppBase.Lib.Base64
import CppBase.Lib.Tokens
import CppBase.Lib.Utf8
import CppBase.Lib.Loop
import CppBase.Lib.Cutting
import CppBase.Lib.Decimal
import CppBase.Lib.Absorb
import CppBase.Lib.SineTable
import CppBase.Lib.Md5
import CppBase.Lib.Scan
import CppBase.Lib.History
import CppBase.Lib.Chain
import CppBase.Spec.Redis
import CppBase.Spec.Commands
import CppBase.Spec.Ownership
import CppBase.Spec.Pack
import CppBase.Spec.Unpack
import CppBase.Spec.Codec
import CppBase.Spec.RingBuffer
import CppBase.Spec.RingThreads
import CppBase.Spec.RedisRequest
import CppBase.Spec.RedisManager
import CppBase.Spec.RequestThreads
import CppBase.Spec.AsyncTimer
import CppBase.Spec.LruCache
import CppBase.Spec.IOBuffer
import CppBase.Spec.CenterConfig
import CppBase.Spec.UrlCodec
import CppBase.Spec.AVIOMemory
import CppBase.Spec.PushService
import CppBase.Spec.StrUtil
import CppBase.Spec.IntegerFormat
import CppBase.Spec.AudioSplit
import CppBase.Spec.MD5
import CppBase.Spec.AudioProc
import CppBase.Spec.CutFrames
import CppBase.Spec.AudioEncode
import CppBase.Spec.MetricsBuffer
import CppBase.Spec.GroupHash
import CppBase.Spec.SingleList
import CppBase.Sanity.Primitives
import CppBase.Sanity.CommandEffects
import CppBase.Sanity.OwnershipEffects
import CppBase.Sanity.LoopEffects
import CppBase.Sanity.PreemptShare
import CppBase.Sanity.TaskLife
import CppBase.Sanity.Accepted
import CppBase.Sanity.WellFormed
import CppBase.Sanity.Sample
import CppBase.Sanity.PackEffects
import CppBase.Sanity.UnpackEffects
import CppBase.Sanity.RingIndices
import CppBase.Sanity.RingKnowledge
import CppBase.Sanity.RingAlone
import CppBase.Sanity.RedisEffects
import CppBase.Sanity.RedisInvariant
import CppBase.Sanity.RedisHandle
import CppBase.Sanity.TimerHistory
import CppBase.Sanity.TimerRounds
import CppBase.Sanity.LruIndex
import CppBase.Sanity.LruReference
import CppBase.Sanity.ConfigSync
import CppBase.Sanity.ConfigConsumer
import CppBase.Sanity.ConfigSlots
import CppBase.Sanity.Base64Groups
import CppBase.Sanity.UrlPieces
import CppBase.Sanity.DigitBlocks
import CppBase.Sanity.Md5Memory
import CppBase.Sanity.ListLoops
import CppBase.Sanity.ListSteps
import CppBase.Proofs.Convergence
import CppBase.Proofs.TaskVersions
import CppBase.Proofs.OptVersions
import CppBase.Proofs.AllTaskSet
import CppBase.Proofs.OwnerChange
import CppBase.Proofs.NoOrphan
import CppBase.Proofs.RoundTrip
import CppBase.Sanity.PacketMessages
import CppBase.Proofs.PriorTarget
import CppBase.Proofs.HostileBytes
import CppBase.Proofs.Frame
import CppBase.Proofs.RingFifo
import CppBase.Proofs.SendExecuted
import CppBase.Proofs.TwoWriters
import CppBase.Proofs.NullReply
import CppBase.Proofs.ScriptHashes
import CppBase.Proofs.TimerFirings
import CppBase.Proofs.LruRefinement
import CppBase.Proofs.BufferStream
import CppBase.Proofs.ConfigDeltas
import CppBase.Proofs.LostEdits
import CppBase.Proofs.PushRetry
import CppBase.Proofs.MemoryFile
import CppBase.Proofs.Takeover
import CppBase.Proofs.PackVector
import CppBase.Proofs.TimerTermination
import CppBase.Proofs.FailedLoad
import CppBase.Proofs.RemovedFile
import CppBase.Proofs.Base64RoundTrip
import CppBase.Proofs.UrlRoundTrip
import CppBase.Proofs.UrlBounds
import CppBase.Proofs.UrlHexCase
import CppBase.Proofs.Utf8Recogniser
import CppBase.Proofs.SplitJoin
import CppBase.Proofs.SplitLines
import CppBase.Proofs.SplitTermination
import CppBase.Proofs.Trim
import CppBase.Proofs.IntegerFormat
import CppBase.Proofs.AudioSegments
import CppBase.Proofs.Md5Transform
import CppBase.Proofs.Md5Update
import CppBase.Proofs.Md5Stream
import CppBase.Proofs.SegmentLength
import CppBase.Proofs.CutShots
import CppBase.Proofs.FrameSampling
import CppBase.Proofs.FrameTimes
import CppBase.Proofs.AudioFraming
import CppBase.Proofs.MetricsFlush
import CppBase.Proofs.GroupChoice
import CppBase.Proofs.ListContents
import CppBase.Spec.EventLoop
import CppBase.Proofs.LoopWakeups
import CppBase.Spec.NetBuffer
import CppBase.Proofs.BufferDeque
import CppBase.Lib.Framing
import CppBase.Spec.ProtobufCodec
import CppBase.Sanity.CodecFrames
import CppBase.Proofs.CodecStream
import CppBase.Spec.HttpServer
import CppBase.Sanity.HttpParsing
import CppBase.Proofs.HttpPipelining
import CppBase.Proofs.HttpBadLine
import CppBase.Spec.TcpConnection
import CppBase.Sanity.ConnectionEffects
import CppBase.Proofs.ConnectionLife
import CppBase.Proofs.ConnectionOutput
import CppBase.Spec.TimerQueue
import CppBase.Sanity.TimerHeap
import CppBase.Proofs.TimerRuns
import CppBase.Spec.BatchWorker
import CppBase.Proofs.BatchAnswers
import CppBase.Spec.SmartPtr
import CppBase.Proofs.SmartPtrCounts
import CppBase.Spec.QueryTasks
import CppBase.Proofs.QueryRunning
import CppBase.Lib.LinkRing
import CppBase.Lib.ExactCover
import CppBase.Spec.Sudoku
import CppBase.Sanity.DancingLinks
import CppBase.Proofs.SudokuSearch
import CppBase.Sanity.SudokuColumns
import CppBase.Sanity.SudokuRows
import CppBase.Sanity.SudokuMatrix
import CppBase.Sanity.SudokuRules
import CppBase.Proofs.SudokuSolution
