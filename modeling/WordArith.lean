import WordArith.Checked.Lemmas
import WordArith.Word.Lemmas
import WordArith.DoubleWord.Lemmas
import WordArith.Intrinsic
import WordArith.Accumulator
import WordArith.Proofs.LongDivision
import WordArith.Proofs.Product
import WordArith.Proofs.Shift
import WordArith.Proofs.Signed
import WordArith.Proofs.Word.Division
import WordArith.Proofs.Wide.Division
import WordArith.Proofs.Ending
import WordArith.Proofs.StorageOrder
import WordArith.Proofs.Widths
import WordArith.Proofs.Recombination
import WordArith.Proofs.PowerOfTwo
import WordArith.Proofs.ShiftValue
import WordArith.Proofs.Wide.Destination
import WordArith.Proofs.Word.ShiftAdd
import WordArith.Proofs.ShiftPairs
import WordArith.Proofs.Representation
import WordArith.Proofs.LongDivision.Invariant
import WordArith.Proofs.Word.Halves
