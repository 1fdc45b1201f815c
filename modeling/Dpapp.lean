import Dpapp.Instances
import Dpapp.Machine
import Dpapp.Ret
import Dpapp.CtcChannel
import Dpapp.CtcTransport
import Dpapp.CtcLife
import Dpapp.CtcEngine
import Dpapp.CtcMemory
import Dpapp.CtcResult
import Dpapp.CtcFlow
import Dpapp.EfdWake
import Dpapp.Engine
import Dpapp.EngineQueues
import Dpapp.EventBatch
import Dpapp.Segment
import Dpapp.Dpbuf
import Dpapp.DpbufSpec
import Dpapp.DpbufFits
import Dpapp.WindowQueue
import Dpapp.DpbufQueue
import Dpapp.DpbufShare
import Dpapp.AscAdd
import Dpapp.PopWait
import Dpapp.EngineFrame
import Dpapp.TmrCease
import Dpapp.QicAccept
import Dpapp.QicStream
import Dpapp.QicEngine
import Dpapp.EfdIo
import Dpapp.EfdRun
import Dpapp.SktConnect
import Dpapp.EfdPoll
import Dpapp.StreamIo
import Dpapp.HalfClose
import Dpapp.Datagram
import Dpapp.MsgControl
import Dpapp.PipeIo
import Dpapp.SslQueue
import Dpapp.SocketOpen
import Dpapp.EleNew
import Dpapp.EleDup
import Dpapp.Edge
import Dpapp.EfdReady
import Dpapp.DpcwcAux
import Dpapp.ServerLoop
import Dpapp.TmrOwner
import Dpapp.Linked
import Dpapp.Keyed
import Dpapp.TieOrder
import Dpapp.SslGroup
import Dpapp.SigMask
import Dpapp.Dpaco
import Dpapp.IdNext
import Dpapp.ThreadLayout
import Dpapp.AppStart
import Dpapp.LuaConfig
import Dpapp.LuaTopic
import Dpapp.CtcEach
import Dpapp.ReadMust
import Dpapp.AioOp
import Dpapp.AioData
import Dpapp.AioWrite
import Dpapp.AioRead
import Dpapp.AioReadUntil
import Dpapp.LuaAwait
import Dpapp.CtcKqueue
import Dpapp.AwaitEle
import Dpapp.DpcwcAwait
import Dpapp.DpcppAwait
import Dpapp.DpbufGrow
import Dpapp.DpbufFind
import Dpapp.DpbufToken
import Dpapp.DpbufWrite
import Dpapp.DpbufRegion
import Dpapp.QicHdrset
import Dpapp.QicDecode
import Dpapp.Cmsg
import Dpapp.QicSend
import Dpapp.QicRecv
import Dpapp.LuaWrite
import Dpapp.TmrWait
import Dpapp.Radix
import Dpapp.IdText
import Dpapp.IdOrder
import Dpapp.CompStack
import Dpapp.Which
import Dpapp.MkdirP
import Dpapp.LogLine
import Dpapp.Framed
import Dpapp.AlpnWire
import Dpapp.WakeLoop
import Dpapp.LuaFsm
import Dpapp.Headed
import Dpapp.BsdFsm
import Dpapp.CtcAnswer
import Dpapp.QicThenv
import Dpapp.EleDeque
import Dpapp.IovPost
import Dpapp.RankTree
import Dpapp.Dprbt
import Dpapp.DprbtInsert
import Dpapp.DprbtRemove
import Dpapp.DprbtWalk
import Dpapp.DprbtRun
import Dpapp.Dptmrset
import Dpapp.KqIo
import Dpapp.KqTmr
