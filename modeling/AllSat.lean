import AllSat.Constraint.Basic
import AllSat.Enumeration
import AllSat.Main
import AllSat.Solver.Counting
import AllSat.Proofs.Naming
import AllSat.Proofs.Session
import AllSat.Proofs.Transcript
import AllSat.Proofs.PartialAnswers
import AllSat.Proofs.CompleteAnswers
import AllSat.Proofs.Listing
import AllSat.Proofs.Decimals
import AllSat.Proofs.Acceptance
import AllSat.Proofs.LineGrammar
import AllSat.Proofs.RoundTrip
import AllSat.Proofs.Concatenation
import AllSat.Proofs.ExactlyOneGroups
import AllSat.Proofs.GridModels
import AllSat.Proofs.CountingOrder
import AllSat.Proofs.GridEncoding
import AllSat.Proofs.RenamedSession
import AllSat.Proofs.Expansion
import AllSat.Proofs.Building
import AllSat.Proofs.Interning
import AllSat.Proofs.CanonicalEcho
import AllSat.Solver.Procedure
import AllSat.Proofs.SignedClauses
import AllSat.Proofs.Odometer
import AllSat.Proofs.ExactlyOneClauses
import AllSat.Proofs.ReadBack
import AllSat.Proofs.Truncation
import AllSat.Proofs.Layout
import AllSat.Proofs.DeclaredCount
import AllSat.Proofs.Consumption
import AllSat.Proofs.BitCounting
import AllSat.Proofs.Reporting
import AllSat.Proofs.AnswerModels
import AllSat.Proofs.FormulaText
import AllSat.Proofs.SignedWords
import AllSat.Proofs.SuppliedLiterals
import AllSat.Interner
import AllSat.Proofs.InternerTables
