import StreamEP.Pool.Defrag
import StreamEP.Pool.Dequeue
import StreamEP.Dispatch.Delivery
import StreamEP.Dispatch.Allocation
import StreamEP.Dispatch.Watchdog
import StreamEP.Engine.WeightStaging
import StreamEP.Engine.Grouping
import StreamEP.Engine.Rings
import StreamEP.Engine.StashIntegrity
import StreamEP.System.Quiescence
import StreamEP.System.AttentionBatches
import StreamEP.Transport.Pairing
import StreamEP.Transport.SendStaging
import StreamEP.Transport.Transfers
import StreamEP.Kv.LoaderStaging
import StreamEP.Kv.PageHashes
import StreamEP.Admission.Termination
import StreamEP.Engine.SamplerStream
import StreamEP.Engine.KvBudget
import StreamEP.Engine.SlidingWindow
import StreamEP.Engine.TokenKernels
import StreamEP.Admission.PageWidth
import StreamEP.Completion.ExactlyOnce
import StreamEP.Completion.AsyncResult
import StreamEP.Engine.ExpertGraphs
import StreamEP.Transport.Multipart
import StreamEP.Transport.SpscRing
import StreamEP.Dispatch.ProfileRouter
import StreamEP.Simulation.TwoBatch
import StreamEP.Simulation.Sync
import StreamEP.Helix.Consistency
