import DoomDraft.Paxos.CatchUp
import DoomDraft.Paxos.Trimming
import DoomDraft.Consensus.Completeness
import DoomDraft.Document.Replay
import DoomDraft.Pancy.Discipline
import DoomDraft.Foundation.KeySorted
import DoomDraft.Browser.Integration
import DoomDraft.Browser.Convergence
import DoomDraft.Server.RoundTrip
import DoomDraft.Server.Delivery
import DoomDraft.Server.Labels
import DoomDraft.Server.Documents
import DoomDraft.Collab.SyncOrder
import DoomDraft.Browser.Agreement
import DoomDraft.Pancy.Lookup
import DoomDraft.Server.SubmitPut
import DoomDraft.Server.Refresh
import DoomDraft.Server.SseFrame
import DoomDraft.Lockseq.FalseAlarms
import DoomDraft.Collab.Cluster
import DoomDraft.Pancy.Skew
import DoomDraft.Document.Format
import DoomDraft.Server.IntFields
import DoomDraft.Server.Cursors
import DoomDraft.Browser.Delta
import DoomDraft.Server.RegistryScan
import DoomDraft.Server.Reconnect
import DoomDraft.Paxos.Linearizability
import DoomDraft.Cotamer.TimerHeap
import DoomDraft.Cotamer.MutexSafety
import DoomDraft.Cotamer.EventRuns
import DoomDraft.Cotamer.FdRefinement
import DoomDraft.Cotamer.DescriptorRuns
