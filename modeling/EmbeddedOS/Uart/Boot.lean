import EmbeddedOS.Bootloader.Bootload
import EmbeddedOS.Uart.Session

/-! The bootloader over the UART: cstart.c sets the UART up, and all that main.c and get-code.h read and
send goes through its driver. -/
namespace EmbeddedOS.Uart
open Mmio Serial Bootloader

section Questions

end Questions

end EmbeddedOS.Uart
