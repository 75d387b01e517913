import Mathlib.Algebra.Order.Ring.Nat
import NiosMenu.Transmit

/-!
# The busy loop behind `usleep`

`alt_busy_sleep` counts down in loops of two instructions, five rounds of nine clocks for each
microsecond, where the clock of the board makes fifty. Below one big loop, seven minutes, a
pause ends a tenth of its time too early. From two big loops on it lasts minutes too long, since
a loop that starts from zero goes once through all the values of its counter.
-/
namespace BusySleep

open Firmware

end BusySleep
