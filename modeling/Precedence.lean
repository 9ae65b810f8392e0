import Precedence.Main
import Precedence.Parse.Session
import Precedence.Token.Reader
import Precedence.Proofs.Chain
import Precedence.Proofs.Elements
import Precedence.Proofs.Limit
import Precedence.Proofs.RoundTrip
import Precedence.Proofs.Context
import Precedence.Proofs.Substitution
import Precedence.Proofs.Correspondence
import Precedence.Proofs.Relevance
import Precedence.Proofs.LexicalErrors
import Precedence.Proofs.Finality
import Precedence.Proofs.Spacing
import Precedence.Proofs.PlainLoop
import Precedence.Proofs.Usability
import Precedence.Proofs.Building
import Precedence.Proofs.Completion
import Precedence.Proofs.Placement
import Precedence.Proofs.Roles
import Precedence.Proofs.SExpression
import Precedence.Proofs.Position
import Precedence.Proofs.Acceptance
import Precedence.Proofs.Refusal
import Precedence.Proofs.Classification
import Precedence.Proofs.Iteration
import Precedence.Proofs.Alignment
