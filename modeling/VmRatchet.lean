import VmRatchet.Lib.Memory
import VmRatchet.Lib.Run
import VmRatchet.Lib.Triple
import VmRatchet.Lib.Text
import VmRatchet.Lib.Lines
import VmRatchet.Lib.Threads
import VmRatchet.Lib.Arm64
import VmRatchet.Lib.Decimal
import VmRatchet.Lib.Pages
import VmRatchet.Guest.Code
import VmRatchet.Guest.Vcpu
import VmRatchet.Guest.Pass
import VmRatchet.Guest.Effect
import VmRatchet.Guest.Refine
import VmRatchet.Guest.Discard
import VmRatchet.Guest.Hammer
import VmRatchet.Guest.RunHammer
import VmRatchet.Guest.Ranges
import VmRatchet.Hammer.Check
import VmRatchet.Hammer.Detection
import VmRatchet.Hammer.Pressure
import VmRatchet.Soak.Geometry
import VmRatchet.Soak.Worker
import VmRatchet.Soak.Control
import VmRatchet.Soak.Counters
import VmRatchet.Soak.Contents
import VmRatchet.Soak.Integrity
import VmRatchet.Soak.Progress
import VmRatchet.Soak.Stamp
import VmRatchet.Soak.Verdict
import VmRatchet.Soak.HostMap
import VmRatchet.Soak.Ledger
import VmRatchet.Soak.Watch
import VmRatchet.Soak.Sticky
import VmRatchet.Soak.Detection
import VmRatchet.Soak.SelfTest
import VmRatchet.Soak.Completion
import VmRatchet.Soak.Backing
import VmRatchet.Soak.Burst
import VmRatchet.Main.World
import VmRatchet.Main.Trace
import VmRatchet.Main.Stage2
import VmRatchet.Main.Extents
import VmRatchet.Main.Fleet
import VmRatchet.Main.Footprint
import VmRatchet.Main.Regimes
import VmRatchet.GuestInit.Server
import VmRatchet.GuestInit.Survival
import VmRatchet.GuestInit.Resources
import VmRatchet.GuestInit.FleetChild
import VmRatchet.Vz.Harness
import VmRatchet.Vz.Handshake
import VmRatchet.Vz.Driver
import VmRatchet.Vz.InStep
import VmRatchet.Vz.Services
import VmRatchet.Vz.Ending
import VmRatchet.Vz.Helper
import VmRatchet.Vz.Conclusions
import VmRatchet.AllocShape.Verdict
import VmRatchet.AllocShape.Cell
import VmRatchet.AllocShape.Maps
import VmRatchet.Ledger.Survey
import VmRatchet.Ledger.Pressure
import VmRatchet.Main.Cli
import VmRatchet.Main.CommandLine
import VmRatchet.Main.FleetTrace
import VmRatchet.Main.Dispatch
