import Panqueue.Fencing
import Panqueue.Accounting
import Panqueue.Ending
import Panqueue.Limit
import Panqueue.Announce
import Panqueue.Declarations
import Panqueue.Runner
import Panqueue.ClaimLoop
import Panqueue.Wakeups
import Panqueue.Handover
import Panqueue.Corrupt
import Panqueue.Sweep
import Panqueue.LeaseOptions
import Panqueue.Entries
import Panqueue.Identity
import Panqueue.Arrivals
import Panqueue.Durable
import Panqueue.Outcomes
import Panqueue.Retained
import Panqueue.Settling
import Panqueue.Overdue
import Panqueue.Singly
import Panqueue.Tenants
import Panqueue.Cycles
import Panqueue.RedisConnection
import Panqueue.Callers
import Panqueue.Chronicle
import Panqueue.Producer
import Panqueue.Refusals
import Panqueue.DefineWorker
import Panqueue.Progress
import Panqueue.Draining
import Panqueue.Renewals
import Panqueue.SweepTimer
import Panqueue.PoolRuns
import Panqueue.Polling
import Panqueue.WaitingTime
import Panqueue.Rescue
import Panqueue.Fleet
import Panqueue.Stopping
