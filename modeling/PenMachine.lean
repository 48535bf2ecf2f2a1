import PenMachine.Main
import PenMachine.Proofs.Access
import PenMachine.Proofs.Attempts
import PenMachine.Proofs.CanvasLog
import PenMachine.Proofs.CaseBlindness
import PenMachine.Proofs.Conditionals
import PenMachine.Proofs.Console
import PenMachine.Proofs.ControlFlow
import PenMachine.Proofs.Denotation
import PenMachine.Proofs.DepthGuard
import PenMachine.Proofs.Draws
import PenMachine.Proofs.EndOfText
import PenMachine.Proofs.Escaping
import PenMachine.Proofs.ExactIntegers
import PenMachine.Proofs.Failures
import PenMachine.Proofs.Fatality
import PenMachine.Proofs.Frames
import PenMachine.Proofs.Inlining
import PenMachine.Proofs.NameTests
import PenMachine.Proofs.NumberGrammar
import PenMachine.Proofs.Output
import PenMachine.Proofs.Picture
import PenMachine.Proofs.PrintedNumbers
import PenMachine.Proofs.RadixLiterals
import PenMachine.Proofs.RandomStream
import PenMachine.Proofs.Recording
import PenMachine.Proofs.RoundTrip
import PenMachine.Proofs.Termination
import PenMachine.Proofs.TypedLines
import PenMachine.Proofs.Unfolding
import PenMachine.Proofs.Wrapping
