import Unnest.Dump.RoundTrip
import Unnest.Proofs.Escaping
import Unnest.Proofs.Lowering.Nearest
import Unnest.Proofs.Machine.Apart
import Unnest.Proofs.Machine.Capturing
import Unnest.Proofs.Machine.Checked
import Unnest.Proofs.Machine.Complete
import Unnest.Proofs.Ownership.Failing
import Unnest.Proofs.Scan.Sweep
import Unnest.Proofs.Sharing
import Unnest.Proofs.Tidy.Pads
import Unnest.Proofs.Tidy.Pruning
