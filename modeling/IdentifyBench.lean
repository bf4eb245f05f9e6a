import IdentifyBench.Main
import IdentifyBench.Proofs.Bus
import IdentifyBench.Proofs.Turn
import IdentifyBench.Proofs.Waking
import IdentifyBench.Proofs.Settling
import IdentifyBench.Proofs.FixedPoint
import IdentifyBench.Proofs.Agenda
import IdentifyBench.Proofs.Course
import IdentifyBench.Proofs.Standing
import IdentifyBench.Proofs.Draining
import IdentifyBench.Proofs.Concluding
import IdentifyBench.Proofs.Stepping
import IdentifyBench.Proofs.Running
import IdentifyBench.Proofs.Outcome
import IdentifyBench.Proofs.Schedule
import IdentifyBench.Proofs.Reading
import IdentifyBench.Proofs.Records
import IdentifyBench.Proofs.Keeping
import IdentifyBench.Proofs.Whereabouts
import IdentifyBench.Proofs.Taking
import IdentifyBench.Proofs.Likeness
import IdentifyBench.Proofs.Terminating
import IdentifyBench.Proofs.Order
import IdentifyBench.Proofs.Rounds
import IdentifyBench.Proofs.Classification
import IdentifyBench.Proofs.Encoding
import IdentifyBench.Proofs.Assembler
import IdentifyBench.Proofs.Disassembly
import IdentifyBench.Proofs.Dump
import IdentifyBench.Proofs.Replay
import IdentifyBench.Proofs.Counting
import IdentifyBench.Proofs.Watching
import IdentifyBench.Proofs.Commits
import IdentifyBench.Proofs.Stopping
import IdentifyBench.Proofs.Pulse
import IdentifyBench.Proofs.Changes
import IdentifyBench.Proofs.Bookkeeping
import IdentifyBench.Proofs.Straying
import IdentifyBench.Proofs.Viewing
import IdentifyBench.Proofs.Filing
import IdentifyBench.Proofs.Tracing
import IdentifyBench.Proofs.Writing
import IdentifyBench.Proofs.Holding
import IdentifyBench.Proofs.Transcript
import IdentifyBench.Proofs.Expiring
import IdentifyBench.Proofs.Folding
import IdentifyBench.Proofs.Drawing
import IdentifyBench.Proofs.Sampling
import IdentifyBench.Proofs.Spelling
import IdentifyBench.Proofs.Overlay
import IdentifyBench.Proofs.Literals
import IdentifyBench.Proofs.Telling
import IdentifyBench.Proofs.Presenting
import IdentifyBench.Proofs.Showing
import IdentifyBench.Proofs.Exporting
import IdentifyBench.Proofs.Overruling
import IdentifyBench.Proofs.Reporting
import IdentifyBench.Proofs.Register
import IdentifyBench.Proofs.JsonLines
