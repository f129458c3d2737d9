import GranolaSdr.Buffer.Playback
import GranolaSdr.Buffer.Record
import GranolaSdr.Channelizer.CmdWorker
import GranolaSdr.Channelizer.OutputRings
import GranolaSdr.Channelizer.Retune
import GranolaSdr.Channelizer.Staging
import GranolaSdr.Cuda.Ft8Ldpc
import GranolaSdr.Cuda.Js8Ldpc
import GranolaSdr.Cuda.Ldpc
import GranolaSdr.Cuda.MagBlock
import GranolaSdr.Cuda.MagStaging
import GranolaSdr.Cuda.MagWindow
import GranolaSdr.Cuda.OsdBasis
import GranolaSdr.Cuda.OsdCore
import GranolaSdr.Cuda.OsdGuarantee
import GranolaSdr.Cuda.OsdOptimal
import GranolaSdr.Cuda.OsdSearch
import GranolaSdr.Cuda.PercentileMetric
import GranolaSdr.Cuda.RefineFrame
import GranolaSdr.Cuda.ScanSlots
import GranolaSdr.Cuda.SoftSymbols
import GranolaSdr.Cuda.SyncMetric
import GranolaSdr.Cuda.SyncScan
import GranolaSdr.Cuda.SyncThread
import GranolaSdr.Cuda.SyncTile
import GranolaSdr.Cw.CallGrammar
import GranolaSdr.Cw.Callsign
import GranolaSdr.Cw.Confirm
import GranolaSdr.Cw.Deglitch
import GranolaSdr.Cw.Distinct
import GranolaSdr.Cw.Envelope
import GranolaSdr.Cw.LateJoiner
import GranolaSdr.Cw.MorseCode
import GranolaSdr.Cw.MorseRuns
import GranolaSdr.Cw.MorseStream
import GranolaSdr.Cw.Order
import GranolaSdr.Cw.Sideband
import GranolaSdr.Cw.Tracker
import GranolaSdr.Ft8.BeliefPropagation
import GranolaSdr.Ft8.Callsign
import GranolaSdr.Ft8.CallsignCount
import GranolaSdr.Ft8.CallsignRuns
import GranolaSdr.Ft8.CallsignTable
import GranolaSdr.Ft8.Candidates
import GranolaSdr.Ft8.Crc14
import GranolaSdr.Ft8.Encode
import GranolaSdr.Ft8.EncodeText
import GranolaSdr.Ft8.FreeText
import GranolaSdr.Ft8.Ldpc
import GranolaSdr.Ft8.Message
import GranolaSdr.Ft8.MessageCodec
import GranolaSdr.Ft8.NonstdMessage
import GranolaSdr.Ft8.Receiver
import GranolaSdr.Ft8.Report
import GranolaSdr.Ft8.RoundTrip
import GranolaSdr.Ft8.ShortHash
import GranolaSdr.Ft8.StandardMessage
import GranolaSdr.Ft8.Text
import GranolaSdr.Ft8.Tones
import GranolaSdr.Ft8.Waterfall
import GranolaSdr.Ft8.Window
import GranolaSdr.Hf.BandIndex
import GranolaSdr.Hf.BandMap
import GranolaSdr.Hf.BandPacking
import GranolaSdr.Hf.ExtractFrame
import GranolaSdr.Hf.OsdGate
import GranolaSdr.Hf.PublishLock
import GranolaSdr.Hf.PublishText
import GranolaSdr.Hf.RefineQueue
import GranolaSdr.Hf.RefineWorker
import GranolaSdr.Hf.SoftDemap
import GranolaSdr.Js8.Callsign
import GranolaSdr.Js8.Compound
import GranolaSdr.Js8.Crc12
import GranolaSdr.Js8.DataFrame
import GranolaSdr.Js8.Directed
import GranolaSdr.Js8.Huffman
import GranolaSdr.Js8.Jsc
import GranolaSdr.Js8.Message
import GranolaSdr.Js8.SeenSet
import GranolaSdr.Lib.Base64
import GranolaSdr.Lib.BinaryCode
import GranolaSdr.Lib.BinaryField
import GranolaSdr.Lib.BitField
import GranolaSdr.Lib.Demapping
import GranolaSdr.Lib.DenseCode
import GranolaSdr.Lib.EditDistance
import GranolaSdr.Lib.ErrorDetection
import GranolaSdr.Lib.Gf2
import GranolaSdr.Lib.InformationSet
import GranolaSdr.Lib.Ipfix
import GranolaSdr.Lib.KeyedFold
import GranolaSdr.Lib.Launch
import GranolaSdr.Lib.LinearProbing
import GranolaSdr.Lib.LongDivision
import GranolaSdr.Lib.Memory
import GranolaSdr.Lib.MinHeap
import GranolaSdr.Lib.MixedRadix
import GranolaSdr.Lib.Mixing
import GranolaSdr.Lib.OrderStatistic
import GranolaSdr.Lib.PackedBits
import GranolaSdr.Lib.PrefixCode
import GranolaSdr.Lib.RingLog
import GranolaSdr.Lib.Rounding
import GranolaSdr.Lib.RowReduction
import GranolaSdr.Lib.Run
import GranolaSdr.Lib.SampleStream
import GranolaSdr.Lib.TwoMeans
import GranolaSdr.Lib.Utf8
import GranolaSdr.Lib.WebSocket
import GranolaSdr.Rx888.Ring
import GranolaSdr.Uploader.BandFilter
import GranolaSdr.Uploader.Collector
import GranolaSdr.Uploader.Dedup
import GranolaSdr.Uploader.Packet
import GranolaSdr.Uploader.SendLoop
import GranolaSdr.Uploader.Sender
import GranolaSdr.WsServer.Audio
import GranolaSdr.WsServer.Convergence
import GranolaSdr.WsServer.Dict
import GranolaSdr.WsServer.Expiry
import GranolaSdr.WsServer.Invariant
import GranolaSdr.WsServer.KeyGlob
import GranolaSdr.WsServer.Protocol
import GranolaSdr.WsServer.Rejection
import GranolaSdr.WsServer.Server
import GranolaSdr.WsServer.Subscription
import GranolaSdr.WsServer.Sweep
import GranolaSdr.WsServer.Tci
import GranolaSdr.WsServer.TciServer
import GranolaSdr.Wsdict.Base64
import GranolaSdr.Wsdict.Client
