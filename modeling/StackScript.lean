import StackScript.Main
import StackScript.Proofs.Atomic
import StackScript.Proofs.Beneath
import StackScript.Proofs.Console
import StackScript.Proofs.Elements
import StackScript.Proofs.Flags
import StackScript.Proofs.Isolation
import StackScript.Proofs.Lifecycle
import StackScript.Proofs.Limit
import StackScript.Proofs.Partition
import StackScript.Proofs.Reprint
import StackScript.Proofs.Tracing
import StackScript.Proofs.Untouched
