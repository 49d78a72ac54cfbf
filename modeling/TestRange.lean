import TestRange.Lib.Prog
import TestRange.Lib.Json
import TestRange.Lib.Dict
import TestRange.State.Schema
import TestRange.State.Store
import TestRange.Graph.BuildGraph
import TestRange.Lib.Pool
import TestRange.Orchestrator.Executor
import TestRange.Orchestrator.Context
import TestRange.Orchestrator.Teardown
import TestRange.Orchestrator.Provision
import TestRange.Orchestrator.Runtime
import TestRange.Orchestrator.Entries
import TestRange.Lib.Schedule
import TestRange.Orchestrator.Protocol
import TestRange.Orchestrator.Follows
import TestRange.Orchestrator.Mains
import TestRange.Orchestrator.Ledger
import TestRange.Orchestrator.Covered
import TestRange.Drivers.Naming
import TestRange.Lib.BigStep
import TestRange.Cache.Local
import TestRange.Cache.Manager
import TestRange.Cache.Commands
import TestRange.Cache.Pinned
import TestRange.Cache.Aliases
import TestRange.Cache.Shelf
import TestRange.Cache.Fleet
import TestRange.Cache.Coherent
import TestRange.Cache.Frame
import TestRange.Cache.Usable
import TestRange.State.Cleanup
import TestRange.Lib.Threads
import TestRange.State.Ownership
import TestRange.State.Exclusive
import TestRange.Lib.Base64
import TestRange.Lib.Search
import TestRange.Orchestrator.BuildResult
import TestRange.Orchestrator.BuildReport
import TestRange.Cache.Concurrent
import TestRange.Cache.Interleaved
import TestRange.Graph.Waves
import TestRange.Graph.CycleReport
import TestRange.Lib.Ipv4
import TestRange.Networks.Sidecar
import TestRange.Orchestrator.BuildNic
import TestRange.Graph.Keys
import TestRange.Orchestrator.BuildVerdict
import TestRange.Orchestrator.TolerantLog
import TestRange.Orchestrator.Backends
import TestRange.Drivers.EsxiVolumes
import TestRange.Networks.Dnsmasq
import TestRange.Lib.Trace
import TestRange.Lib.Url
import TestRange.Drivers.Connections
import TestRange.Drivers.EsxiSerial
import TestRange.Drivers.Slots.Placement
import TestRange.Lib.Monitor
import TestRange.Gateways.Tracked
import TestRange.Lib.Scan
import TestRange.Builders.Netplan
import TestRange.Lib.Untyped
import TestRange.State.Damaged
import TestRange.Cache.Foreign
import TestRange.Gateways.SshJump
import TestRange.Drivers.Storage.Spec
import TestRange.Drivers.Storage.Libvirt
import TestRange.Drivers.Storage.Proxmox
import TestRange.Drivers.Storage.Esxi
import TestRange.Drivers.Storage.Uploads
import TestRange.Lib.Lines
import TestRange.Orchestrator.Console
import TestRange.Builders.Answer
import TestRange.Lib.Toml
import TestRange.Orchestrator.LedgerKeys
import TestRange.Edges
import TestRange.Orchestrator.Order
import TestRange.Orchestrator.Lifo
import TestRange.Lib.Shell
import TestRange.Lib.Poll
import TestRange.Drivers.Guest.Machine
import TestRange.Drivers.Guest.Libvirt
import TestRange.Drivers.Guest.Proxmox
import TestRange.Drivers.Guest.Esxi
import TestRange.Drivers.Guest.Spec
import TestRange.Communicators.Ssh
import TestRange.Communicators.Native
import TestRange.Drivers.Snapshots
