import EmbeddedOS.Serial.Network
import EmbeddedOS.Bootloader.SelfOverwrite
import EmbeddedOS.Bootloader.Bootload
import EmbeddedOS.Fat32.Driver
import EmbeddedOS.Fat32.Chain
import EmbeddedOS.Fat32.Directory
import EmbeddedOS.Fat32.Listing
import EmbeddedOS.Fueled.Walk
import EmbeddedOS.Fat32.Termination
import EmbeddedOS.Fat32.File
import EmbeddedOS.Fat32.Twins
import EmbeddedOS.Fat32.Reserved
import EmbeddedOS.Fat32.Navigation
import EmbeddedOS.Vm.Attr
import EmbeddedOS.Vm.PageTable
import EmbeddedOS.Vm.Pinned
import EmbeddedOS.Vm.Procmap
import EmbeddedOS.Vm.Kernel
import EmbeddedOS.Circular.Queue
import EmbeddedOS.Steps.Run
import EmbeddedOS.Circular.Spsc
import EmbeddedOS.Circular.Push
import EmbeddedOS.Circular.LogicAnalyzer
import EmbeddedOS.Circular.NrfReceive
import EmbeddedOS.Arm.Machine
import EmbeddedOS.FullExcept.Switchto
import EmbeddedOS.FullExcept.Trampoline
import EmbeddedOS.FullExcept.Identity
import EmbeddedOS.Linked.Queue
import EmbeddedOS.EquivThreads.Threads
import EmbeddedOS.EquivThreads.Solo
import EmbeddedOS.EquivThreads.Trace
import EmbeddedOS.EquivThreads.Schedule
import EmbeddedOS.EquivThreads.Expected
import EmbeddedOS.Threads.RpiThread
import EmbeddedOS.Threads.Blocks
import EmbeddedOS.Threads.History
import EmbeddedOS.Threads.Lists
import EmbeddedOS.Threads.Contexts
import EmbeddedOS.Threads.Core
import EmbeddedOS.Threads.Steps
import EmbeddedOS.Threads.Scheduler
import EmbeddedOS.Threads.Wrap
import EmbeddedOS.Bootloader.Resync
import EmbeddedOS.Bootloader.Install
import EmbeddedOS.Bootloader.Printing
import EmbeddedOS.Mmio.Driver
import EmbeddedOS.I2c.Bsc
import EmbeddedOS.I2c.Driver
import EmbeddedOS.I2c.Transfers
import EmbeddedOS.I2c.Calls
import EmbeddedOS.Imu.Mpu6050
import EmbeddedOS.Text.Search
import EmbeddedOS.TrustingTrust.Compilers
import EmbeddedOS.TrustingTrust.Stealth
import EmbeddedOS.Steps.Interrupted
import EmbeddedOS.Arm.Interrupt
import EmbeddedOS.Interrupts.Handler
import EmbeddedOS.Interrupts.Transparency
import EmbeddedOS.Nrf.Chip
import EmbeddedOS.Nrf.Driver
import EmbeddedOS.Nrf.Addresses
import EmbeddedOS.Nrf.Survival
import EmbeddedOS.Printk.Format
import EmbeddedOS.Printk.Bounded
import EmbeddedOS.Mmu.Asm
import EmbeddedOS.Mmu.Goal
import EmbeddedOS.Mmu.Registers
import EmbeddedOS.Mmu.Maintenance
import EmbeddedOS.Circular.Counts
import EmbeddedOS.Fat32.Count
import EmbeddedOS.Fat32.LongName
import EmbeddedOS.Fat32.Mount
import EmbeddedOS.PiEcho.Done
import EmbeddedOS.Threads.FirstRun
import EmbeddedOS.Circular.Peek
import EmbeddedOS.Circular.Drop
import EmbeddedOS.Circular.Block
import EmbeddedOS.Circular.BlockCalls
import EmbeddedOS.Bits.Field
import EmbeddedOS.Gpio.FunctionSelect
import EmbeddedOS.Printk.Faithful
import EmbeddedOS.Timer.Delay
import EmbeddedOS.Vm.Lookup
import EmbeddedOS.Vm.Supersection
import EmbeddedOS.Vm.Lockdown
import EmbeddedOS.Steps.Turns
import EmbeddedOS.EquivThreads.Rotation
import EmbeddedOS.Arm.Bus
import EmbeddedOS.EquivThreads.Handler
import EmbeddedOS.EquivThreads.Stacks
import EmbeddedOS.MiniStep.AsCalled
import EmbeddedOS.EquivThreads.InMemory
import EmbeddedOS.Pitag.Log
import EmbeddedOS.TrustingTrust.Quine
import EmbeddedOS.Ttyusb.Find
import EmbeddedOS.Bytes.Memory
import EmbeddedOS.Libc.Block
import EmbeddedOS.PiEcho.Echo
import EmbeddedOS.Interrupts.Syscall
import EmbeddedOS.SwUart.Timing
import EmbeddedOS.SwUart.Framing
import EmbeddedOS.Mmio.Progress
import EmbeddedOS.I2c.Faults
import EmbeddedOS.I2c.Reports
import EmbeddedOS.Nrf.AckedSend
import EmbeddedOS.Nrf.Counters
import EmbeddedOS.Gpio.Level
import EmbeddedOS.Timer.Timeout
import EmbeddedOS.Libc.Queue
import EmbeddedOS.Libc.Stack
import EmbeddedOS.Nrf.Transfer
import EmbeddedOS.Vm.DoubleMapping
import EmbeddedOS.Uart.Boot
import EmbeddedOS.Uart.Session
import EmbeddedOS.Bootloader.Checksum
import EmbeddedOS.Libc.RandomCalls
import EmbeddedOS.GpioInt.Served
import EmbeddedOS.Mailbox.Answers
import EmbeddedOS.MiniWatch.Refinement
