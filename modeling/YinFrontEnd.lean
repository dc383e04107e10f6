import YinFrontEnd.Expr.Outline
import YinFrontEnd.Main
import YinFrontEnd.Proofs.Expr.Joining
import YinFrontEnd.Proofs.Expr.KeywordMap
import YinFrontEnd.Proofs.Expr.Learning
import YinFrontEnd.Proofs.Expr.Merging
import YinFrontEnd.Proofs.Expr.Plain
import YinFrontEnd.Proofs.Expr.Reprinting
import YinFrontEnd.Proofs.Expr.Signature
import YinFrontEnd.Proofs.Form.Inserting
import YinFrontEnd.Proofs.Form.Integers
import YinFrontEnd.Proofs.Form.Progress
import YinFrontEnd.Proofs.Form.Unfinished
import YinFrontEnd.Proofs.Interning.Calls
import YinFrontEnd.Proofs.Report.Coloring
import YinFrontEnd.Proofs.Report.Snippet
import YinFrontEnd.Proofs.Source.Skipping
import YinFrontEnd.Proofs.Table.Operations
