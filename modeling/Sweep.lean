import Sweep.Main
import Sweep.Proofs.Freshness
import Sweep.Proofs.Special
import Sweep.Proofs.Devices
import Sweep.Proofs.Excluded
import Sweep.Proofs.Agreement
import Sweep.Proofs.Announced
import Sweep.Proofs.Saved
import Sweep.Proofs.Repeats
import Sweep.Proofs.Files
import Sweep.Proofs.Ancestry
import Sweep.Proofs.Aligned
import Sweep.Proofs.Sequence
import Sweep.Proofs.Endings
import Sweep.Proofs.Canonical
import Sweep.Proofs.Counted
import Sweep.Proofs.Neutral
import Sweep.Proofs.Contents
