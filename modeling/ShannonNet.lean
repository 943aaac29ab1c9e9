import ShannonNet.Library.Buffer
import ShannonNet.Library.Runs
import ShannonNet.Config
import ShannonNet.Generator.Order
import ShannonNet.LWE.Cpu
import ShannonNet.LWE.Gpu
import ShannonNet.Server.GenSecret
import ShannonNet.Generator.Publication
import ShannonNet.Server.Coverage
import ShannonNet.Server.Move
import ShannonNet.Client.Decrypt
import ShannonNet.Server.Serving
import ShannonNet.Transfer.Validity
import ShannonNet.LWE.Exact
import ShannonNet.Generator.Failures
import ShannonNet.Server.Handlers
import ShannonNet.Server.Refinement
import ShannonNet.Server.Exits
import ShannonNet.Server.Sequence
import ShannonNet.Server.Lifecycle
import ShannonNet.Library.Json
import ShannonNet.Generator.Queue
import ShannonNet.Library.Scan
import ShannonNet.Transfer.Sharing
import ShannonNet.Client.Shares
import ShannonNet.Generator.BufferBounds
import ShannonNet.Generator.Offsets
import ShannonNet.LWE.CpuKey
import ShannonNet.Client.GatherOrder
import ShannonNet.Client.PullLoop
import ShannonNet.Utils.CreateDirectories
import ShannonNet.InitSecrets
import ShannonNet.Client.NodePair
import ShannonNet.Utils.ThreadPoolTasks
import ShannonNet.Utils.Shutdown
import ShannonNet.Utils.PoolProgress
import ShannonNet.Utils.PoolTermination
import ShannonNet.Library.Tasks
import ShannonNet.Generator.Tasks
import ShannonNet.Generator.Parallel
import ShannonNet.Transfer.Keys
import ShannonNet.Library.Burst
import ShannonNet.Client.Checksum
import ShannonNet.Library.Distinct
import ShannonNet.Generator.Selection
import ShannonNet.Server.Exchange
import ShannonNet.Library.Redis
import ShannonNet.Utils.RandomStr
import ShannonNet.Layout.Transfer
import ShannonNet.Layout.Requests
import ShannonNet.Layout.Init
import ShannonNet.Transfer.Deployment
