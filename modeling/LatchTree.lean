import LatchTree.Latch.Table
import LatchTree.Proofs.Latch.Rounds
import LatchTree.Proofs.Page.LinkSteps
import LatchTree.Proofs.Page.Sizes
import LatchTree.Proofs.Scan.Progress
import LatchTree.Proofs.Scan.Sighting
import LatchTree.Proofs.Session.Accounts
import LatchTree.Proofs.Session.Dump
import LatchTree.Proofs.Session.FirstKeys
import LatchTree.Proofs.Session.Independence
import LatchTree.Proofs.Session.KeyOrder
import LatchTree.Proofs.Session.Refusals
import LatchTree.Proofs.Tree.Height
import LatchTree.Proofs.Tree.Release
import LatchTree.Proofs.Tree.Verdict
import LatchTree.Proofs.Tree.Writes
