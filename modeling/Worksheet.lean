import Worksheet.Main
import Worksheet.Program.Run
import Worksheet.Proofs.Formula.Derivation
import Worksheet.Proofs.Formula.RoundTrip
import Worksheet.Proofs.Sheet.DumpOrder
import Worksheet.Proofs.Sheet.Worth
import Worksheet.Proofs.Shell.SaveLoad
import Worksheet.Proofs.Sheet.Again
import Worksheet.Proofs.Sheet.Copying
import Worksheet.Proofs.Formula.Limits
import Worksheet.Proofs.Formula.Parentheses
import Worksheet.Proofs.Formula.Scan
import Worksheet.Proofs.Formula.Viable
import Worksheet.Proofs.Files.Format
import Worksheet.Proofs.Grid.Moving
import Worksheet.Proofs.Sheet.Cascade
import Worksheet.Proofs.Shell.Assignment
