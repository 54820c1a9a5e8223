import StackMachine.Main
import StackMachine.Proofs.Bounds
import StackMachine.Proofs.Fetching
import StackMachine.Proofs.Stepping
import StackMachine.Proofs.Reachability
import StackMachine.Proofs.ControlFlow
import StackMachine.Proofs.Decoding
import StackMachine.Proofs.Encoding
import StackMachine.Proofs.ForwardPass
import StackMachine.Proofs.Linking
import StackMachine.Proofs.Numerals
import StackMachine.Proofs.ListingLines
import StackMachine.Proofs.RoundTrip
import StackMachine.Proofs.References
import StackMachine.Proofs.SourceText
import StackMachine.Proofs.Substitution
import StackMachine.Proofs.Resolution
import StackMachine.Proofs.Labels
import StackMachine.Proofs.LiveStack
import StackMachine.Proofs.Faults
import StackMachine.Proofs.ListMachine
import StackMachine.Proofs.Refinement
import StackMachine.Proofs.Lockstep
import StackMachine.Proofs.Boundaries
import StackMachine.Proofs.Spelling
import StackMachine.Proofs.PlainText
import StackMachine.Proofs.ListingSource
import StackMachine.Proofs.Reassembly
import StackMachine.Proofs.Malformations
import StackMachine.Proofs.Continuations
import StackMachine.Proofs.Frames
import StackMachine.Proofs.Subroutines
import StackMachine.Proofs.Provenance
import StackMachine.Proofs.StringLengths
import StackMachine.Proofs.Increments
import StackMachine.Proofs.Placeholders
import StackMachine.Proofs.Consistency
import StackMachine.Proofs.Mistakes
import StackMachine.Proofs.Relocation
import StackMachine.Proofs.Concatenation
import StackMachine.Proofs.Tokens
import StackMachine.Proofs.Respelling
import StackMachine.Proofs.Renaming
import StackMachine.Proofs.Presentation
import StackMachine.Proofs.Runs
import StackMachine.Proofs.Effects
import StackMachine.Proofs.Likeness
import StackMachine.Proofs.PairedRuns
import StackMachine.Proofs.OutputLimits
import StackMachine.Proofs.StackSizes
import StackMachine.Proofs.LongerPrograms
import StackMachine.Proofs.TraceLines
import StackMachine.Proofs.Surroundings
import StackMachine.Proofs.ForwardJumps
import StackMachine.Proofs.TextEncoding
import StackMachine.Proofs.Files
import StackMachine.Proofs.Replies
import StackMachine.Proofs.Compiling
import StackMachine.Proofs.Tracing
import StackMachine.Proofs.DebugListing
import StackMachine.Proofs.Slots
import StackMachine.Proofs.CanonicalSlots
import StackMachine.Proofs.TrailingComments
import StackMachine.Proofs.ControlCharacters
import StackMachine.Proofs.OutputLines
import StackMachine.Proofs.StringLiterals
import StackMachine.Proofs.ExactArithmetic
import StackMachine.Proofs.Parameters
import StackMachine.Proofs.StraightLine
import StackMachine.Proofs.StrictDecoding
import StackMachine.Proofs.Dumps
import StackMachine.Proofs.Comments
import StackMachine.Proofs.Contents
import StackMachine.Proofs.ListedRuns
import StackMachine.Proofs.Factorial
