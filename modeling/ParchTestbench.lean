import ParchTestbench.ParchFS.NonInterference
import ParchTestbench.ParchFS.BitmapSets
import ParchTestbench.ParchFS.Appending
import ParchTestbench.ParchFS.FileContents
import ParchTestbench.ParchFS.Determinism
import ParchTestbench.ParchFS.FaithfulImage
import ParchTestbench.ParchFS.Namespace
import ParchTestbench.ParchFS.LinkCounts
import ParchTestbench.ParchFS.FreeCounters
import ParchTestbench.ParchFS.InodeTable
import ParchTestbench.ParchFS.Mapping
import ParchTestbench.ParchFS.RawWrite
import ParchTestbench.ParchFS.IndexBounds
import ParchTestbench.ParchFS.StableMapping
import ParchTestbench.UsrLib.Lines
import ParchTestbench.UsrLib.Resync
import ParchTestbench.UsrLib.Startup
import ParchTestbench.UsrLib.GetLine
import ParchTestbench.Shell.Descriptors
import ParchTestbench.Shell.Dispatch
import ParchTestbench.UsrLib.Formats
import ParchTestbench.UsrLib.MemoryHelpers
import ParchTestbench.UsrLib.DoSyscall
import ParchTestbench.UsrLib.OutOfMemory
import ParchTestbench.TestPrograms.Workload
import ParchTestbench.ParchFS.Capacity
import ParchTestbench.UsrLib.FreeRuns
import ParchTestbench.Shell.Session
import ParchTestbench.Shell.OpenDescriptors
