import Sglang.Sticky.Agreement
import Sglang.Sticky.Conservation
import Sglang.Sticky.Stops
import Sglang.Sticky.Undisturbed
import Sglang.Radix.Holding
import Sglang.Radix.Prefixes
import Sglang.Alloc.Partition
import Sglang.Router.Exact
import Sglang.Router.Pump
import Sglang.Prefill.IgnoreEos
import Sglang.Prefill.Fits
import Sglang.Prefill.Idle
import Sglang.Output.Delivery
import Sglang.Output.Regex
import Sglang.Output.Stops
import Sglang.Reasoning.Split
import Sglang.Tools.DsmlEncode
import Sglang.Tools.QwenCalls
import Sglang.Session.Forest
import Sglang.Session.Transcript
import Sglang.Beam.Slots
import Sglang.Beam.Textbook
import Sglang.Experts.Dispatch
import Sglang.Experts.Placement
import Sglang.Unified.Tree
import Sglang.Staging.Heads
import Sglang.Staging.Ring
import Sglang.Staging.Writes
import Sglang.Disagg.DrainAck
