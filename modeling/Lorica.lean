import Lorica.Proof.Herald.Overlap
import Lorica.Proof.Herald.Durable
import Lorica.Proof.Herald.Stage
import Lorica.Proof.Herald.Torn
import Lorica.Proof.Herald.Pending
import Lorica.Proof.Herald.Trust
import Lorica.Proof.Update.Power
import Lorica.Proof.Install.Conserve
import Lorica.Proof.Install.Twice
import Lorica.Proof.Install.Committed
import Lorica.Proof.Dhcp.Lease
import Lorica.Proof.Vigil.Launch
import Lorica.Proof.Herald.Manifest
import Lorica.Proof.Herald.Gate
import Lorica.Proof.Glyph.Frames
import Lorica.Proof.Herald.Lookup
import Lorica.Proof.Herald.Remove
import Lorica.Proof.Install.Esp
import Lorica.Proof.Install.Gpt
import Lorica.Proof.Install.GrowBounds
import Lorica.Proof.Stsh.Quoting
import Lorica.Proof.Stsh.Storage
import Lorica.Proof.Stsh.CValue
import Lorica.Proof.Shell.Pipes
import Lorica.Proof.Stsh.Restore
import Lorica.Proof.Glyph.Parameters
import Lorica.Proof.Glyph.Resize
import Lorica.Proof.Accounts.Failure
import Lorica.Proof.Update.Links
