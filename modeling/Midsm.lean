import Midsm.Lib.Buffer
import Midsm.Lib.Chain
import Midsm.Lib.Chunks
import Midsm.Lib.Decimal
import Midsm.Lib.Deltas
import Midsm.Lib.FifoLock
import Midsm.Lib.Reach
import Midsm.Lib.Ring
import Midsm.Lib.Timeline
import Midsm.Lib.TokenQueue
import Midsm.Lib.Trace
import Midsm.Lib.Words
import Midsm.Ref.Heap
import Midsm.Ref.HeapSystem
import Midsm.Ref.Init
import Midsm.Ref.Interrupt
import Midsm.Ref.Mem
import Midsm.Ref.Net
import Midsm.Ref.Segv
import Midsm.Ref.Syn
import Midsm.Ref.System
import Midsm.Ref.Types
import Midsm.Ref.Wire
import Midsm.Proofs.Accesses
import Midsm.Proofs.Acquire
import Midsm.Proofs.Allocation
import Midsm.Proofs.Armed
import Midsm.Proofs.Awaited
import Midsm.Proofs.Barrier
import Midsm.Proofs.BarrierInfo
import Midsm.Proofs.Building
import Midsm.Proofs.Clocks
import Midsm.Proofs.Coherence
import Midsm.Proofs.Conserve
import Midsm.Proofs.Delivery
import Midsm.Proofs.Diffs
import Midsm.Proofs.Dispatching
import Midsm.Proofs.Draining
import Midsm.Proofs.Encode
import Midsm.Proofs.EnterInfo
import Midsm.Proofs.Episodes
import Midsm.Proofs.Fairness
import Midsm.Proofs.FaultAddress
import Midsm.Proofs.Faults
import Midsm.Proofs.Fetches
import Midsm.Proofs.GrantedPages
import Midsm.Proofs.Guards
import Midsm.Proofs.Handover
import Midsm.Proofs.HeapFetch
import Midsm.Proofs.HeapSim
import Midsm.Proofs.HeapSystem
import Midsm.Proofs.HostTable
import Midsm.Proofs.Incorporate
import Midsm.Proofs.InfoMessages
import Midsm.Proofs.Knowledge
import Midsm.Proofs.LateNotices
import Midsm.Proofs.Ledger
import Midsm.Proofs.Linked
import Midsm.Proofs.Links
import Midsm.Proofs.LockCalls
import Midsm.Proofs.LockRecord
import Midsm.Proofs.LockResults
import Midsm.Proofs.LockSafety
import Midsm.Proofs.LockSim
import Midsm.Proofs.Matched
import Midsm.Proofs.MemCases
import Midsm.Proofs.MemFrame
import Midsm.Proofs.MessageData
import Midsm.Proofs.MessageQueues
import Midsm.Proofs.MissingDiffs
import Midsm.Proofs.Notices
import Midsm.Proofs.OnePage
import Midsm.Proofs.Outset
import Midsm.Proofs.OwnBytes
import Midsm.Proofs.Packets
import Midsm.Proofs.PageRequests
import Midsm.Proofs.PageState
import Midsm.Proofs.Protocol
import Midsm.Proofs.Reentry
import Midsm.Proofs.Replica
import Midsm.Proofs.Replies
import Midsm.Proofs.Represents
import Midsm.Proofs.Requests
import Midsm.Proofs.Resting
import Midsm.Proofs.Retransmit
import Midsm.Proofs.Returns
import Midsm.Proofs.Rings
import Midsm.Proofs.Rising
import Midsm.Proofs.Sections
import Midsm.Proofs.Segments
import Midsm.Proofs.SeqNumbers
import Midsm.Proofs.Stamps
import Midsm.Proofs.Steps
import Midsm.Proofs.SynCases
import Midsm.Proofs.Turns
import Midsm.Proofs.Waiting
import Midsm.Proofs.Wakeups
import Midsm.Proofs.WholeCalls
import Midsm.Proofs.WireData
import Midsm.Proofs.WireEncoders
import Midsm.Proofs.WireMessages
import Midsm.Proofs.WireSystem
import Midsm.Proofs.World
