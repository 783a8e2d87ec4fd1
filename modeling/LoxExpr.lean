import LoxExpr.Main
import LoxExpr.Parser.Session
import LoxExpr.Proofs.Cli.Script
import LoxExpr.Proofs.Expr.Equality
import LoxExpr.Proofs.Expr.Postorder
import LoxExpr.Proofs.Grammar.CallDepth
import LoxExpr.Proofs.Grammar.Earliest
import LoxExpr.Proofs.Grammar.Origin
import LoxExpr.Proofs.Grammar.Uncapped
import LoxExpr.Proofs.Lexical.Isolation
import LoxExpr.Proofs.Lexical.Layout
import LoxExpr.Proofs.Lexical.LineBreak
import LoxExpr.Proofs.Lexical.Lines
import LoxExpr.Proofs.Number.Printed
import LoxExpr.Proofs.Parser.Memory
import LoxExpr.Proofs.Parser.Moments
import LoxExpr.Proofs.Parser.Progress
import LoxExpr.Proofs.Parser.Twins
import LoxExpr.Proofs.Readability
import LoxExpr.Proofs.Reports
import LoxExpr.Proofs.RoundTrip
import LoxExpr.Proofs.Scanned
