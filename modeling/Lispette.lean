import Lispette.Main
import Lispette.Proofs.Completeness
import Lispette.Proofs.Concatenation
import Lispette.Proofs.ErrorSpans
import Lispette.Proofs.ErrorStarts
import Lispette.Proofs.LexicalForm
import Lispette.Proofs.Normalization
import Lispette.Proofs.Resumption
import Lispette.Proofs.CompileOutcome
import Lispette.Proofs.GeneratorState
import Lispette.Proofs.ErrorErasure
import Lispette.Proofs.MethodChain
import Lispette.Proofs.Indentation
import Lispette.Proofs.Bracketing
import Lispette.Proofs.TraceNesting
import Lispette.Proofs.Placement
import Lispette.Proofs.JsonDump
import Lispette.Proofs.OutlineDump
import Lispette.Proofs.CommandOutcome
import Lispette.Proofs.NestingAgreement
import Lispette.Proofs.StringLiteral
import Lispette.Proofs.OperatorOrder
import Lispette.Proofs.Repetition
