import StackTape.Main
import StackTape.Program.Flatten
import StackTape.Program.Render
import StackTape.Semantics.Stack
import StackTape.Tape.Machine
import StackTape.Proofs.Layout
import StackTape.Proofs.Correct
import StackTape.Proofs.Isolation
import StackTape.Proofs.Typing
import StackTape.Proofs.Roundtrip
import StackTape.Proofs.Stripping
import StackTape.Proofs.Structured
import StackTape.Proofs.Relocation
import StackTape.Proofs.Pointer
import StackTape.Proofs.Flattening
import StackTape.Proofs.Indent
import StackTape.Proofs.Locality
import StackTape.Proofs.Truncation
import StackTape.Proofs.Sanitizing
import StackTape.Proofs.Outlining
import StackTape.Proofs.Spacing
import StackTape.Proofs.Matching
import StackTape.Proofs.Effect
