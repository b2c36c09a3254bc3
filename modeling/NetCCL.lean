import NetCCL.Lib.Reach
import NetCCL.Lib.Tiling
import NetCCL.Lib.Words
import NetCCL.Lib.Layout
import NetCCL.Lib.OnesComplement
import NetCCL.Lib.Truncate
import NetCCL.Lib.Stretch
import NetCCL.Lib.SlotWindow
import NetCCL.Lib.Within
import NetCCL.Lib.Table
import NetCCL.Common
import NetCCL.Frontend.CopyBuffer
import NetCCL.Frontend.Segmentation
import NetCCL.Frontend.Collective
import NetCCL.Frontend.Quantised
import NetCCL.Frontend.Reduce
import NetCCL.Controller.Segments
import NetCCL.Controller.Groups
import NetCCL.Controller.Partitioned
import NetCCL.Controller.Coalesced
import NetCCL.Controller.Atomic
import NetCCL.Controller.Entries
import NetCCL.Controller.Capacity
import NetCCL.Switch.Ingress
import NetCCL.Switch.Headers
import NetCCL.Switch.Pipeline
import NetCCL.Switch.Transit
import NetCCL.Switch.Count
import NetCCL.Switch.Verdict
import NetCCL.Switch.RandomDrop
import NetCCL.Switch.Passes
import NetCCL.Backend.LoadBalancer
import NetCCL.Backend.Worker
import NetCCL.Backend.Packets
import NetCCL.Backend.Window
import NetCCL.Backend.Steps
import NetCCL.Backend.Positions
import NetCCL.Backend.Exclusive
import NetCCL.Backend.Completion
import NetCCL.Backend.Location
import NetCCL.Backend.Malformed
import NetCCL.Backend.Rounds
import NetCCL.Backend.Retransmit
import NetCCL.Backend.Congestion
import NetCCL.Backend.Limit
import NetCCL.Backend.ProcessBuffer
import NetCCL.Backend.Member
import NetCCL.Backend.Share
import NetCCL.Backend.Timeout
import NetCCL.Host.Threads
import NetCCL.Host.Numbered
import NetCCL.Host.Handover
import NetCCL.Host.InOrder
import NetCCL.Slots
import NetCCL.Cutting
import NetCCL.Wire
import NetCCL.System.Network
import NetCCL.System.Registers
import NetCCL.System.Pair
import NetCCL.System.Joint
import NetCCL.System.Agreement
import NetCCL.System.Cluster
import NetCCL.System.Lane
import NetCCL.System.Isolation
import NetCCL.System.Deployment
import NetCCL.System.Buffers
import NetCCL.System.Delivery
import NetCCL.System.Shares
import NetCCL.System.Progress
