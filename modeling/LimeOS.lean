import LimeOS.Proof.Bounds
import LimeOS.Proof.Display
import LimeOS.Proof.Reader
import LimeOS.Proof.Args
import LimeOS.Proof.Streams
import LimeOS.Proof.Command
import LimeOS.Proof.Accept
import LimeOS.Proof.Displayed
import LimeOS.Proof.ReadBuffer
import LimeOS.Proof.PcbStores
import LimeOS.Proof.Scheduler
import LimeOS.Proof.Bracket
import LimeOS.Proof.Rtc
import LimeOS.Proof.Getargs
import LimeOS.Proof.Open
import LimeOS.Proof.Directory
import LimeOS.Proof.Editing
import LimeOS.Proof.Scancode
import LimeOS.Proof.SysHandler
import LimeOS.Proof.Memory
import LimeOS.Proof.Printf
import LimeOS.Proof.Paging
import LimeOS.Proof.Grep
import LimeOS.Proof.Blinking
import LimeOS.Framework.Gates
import LimeOS.Framework.Pic
import LimeOS.Impl.Interrupts
import LimeOS.Proof.Interrupts
