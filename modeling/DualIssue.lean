import DualIssue.CommandLine.FileTree
import DualIssue.Json.Printer
import DualIssue.Latency.Codec
import DualIssue.Machine.Codec
import DualIssue.Main
import DualIssue.Proofs.DataFlow
import DualIssue.Proofs.FlagFlow
import DualIssue.Proofs.Outcome
import DualIssue.Proofs.CycleDetection
import DualIssue.Proofs.IssueStream
import DualIssue.Proofs.Makespan
import DualIssue.Proofs.Streaming
import DualIssue.Proofs.CodeCache
import DualIssue.Proofs.EdgeCauses
import DualIssue.Proofs.FlagTiming
import DualIssue.Proofs.MemoryOrder
import DualIssue.Proofs.ListedBlocks
import DualIssue.Proofs.BlockEncoding
import DualIssue.Proofs.Greedy
import DualIssue.Proofs.FinishingOrder
import DualIssue.Proofs.LongestPaths
import DualIssue.Proofs.FlagChain
import DualIssue.Proofs.ReadLatency
import DualIssue.Proofs.RecursiveWalk
import DualIssue.Proofs.Acyclicity
import DualIssue.Proofs.FpStackOrder
import DualIssue.Proofs.BareRecords
import DualIssue.Proofs.Renaming
import DualIssue.Proofs.Transpose
import DualIssue.Proofs.Drawing
