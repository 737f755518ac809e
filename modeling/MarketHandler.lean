import MarketHandler.Additive
import MarketHandler.ClosedForm
import MarketHandler.Commute
import MarketHandler.Conservation
import MarketHandler.DuplicateIds
import MarketHandler.Ingress.Accounting
import MarketHandler.Ingress.Framing
import MarketHandler.Ingress.Service
import MarketHandler.Ingress.Stall
import MarketHandler.Ingress.Waiting
import MarketHandler.Latency
import MarketHandler.Mirror
import MarketHandler.PriceBitSet.Runs
import MarketHandler.Priority
import MarketHandler.Process
import MarketHandler.Redelivery
import MarketHandler.Simulation
import MarketHandler.Simulator
import MarketHandler.SPSCQueue.Atomic
import MarketHandler.SPSCQueue.Invariant
import MarketHandler.SPSCQueue.Lifecycle
import MarketHandler.SPSCQueue.Progress
import MarketHandler.SPSCQueue.ReleaseAcquire
import MarketHandler.SPSCQueue.Size
import MarketHandler.SPSCQueue.Wrap
import MarketHandler.Termination
import MarketHandler.Tickets
import MarketHandler.Truncation
import MarketHandler.Untrusted
import MarketHandler.Work
