import SpaceInvaders.Hpi.PowerOn
import SpaceInvaders.Hpi.ChipView

/-!
# Pressing the reset button

The button resets the bridge, but not the processor and not its PIO registers,
and the reset values of the bridge are those that fight at power-on: chip select
and both strobes low. Here this is harmless. The same edge puts the chip in
reset, and the first edge after the press copies all PIO registers at once, so
from then on the pins are again those of the run without the press.
-/

namespace SpaceInvaders.Hpi

open Machine Software HpiIoIntf

section Press

variable {s : State} {l : List PressCycle} {calls : List Call} {k : Nat}

end Press

end SpaceInvaders.Hpi
