import RaryOS.Core.Ascending
import RaryOS.Core.BitFields
import RaryOS.Core.Bitmap
import RaryOS.Core.CallStack
import RaryOS.Core.Chain
import RaryOS.Core.CycleRing
import RaryOS.Core.Edges
import RaryOS.Core.FifoRing
import RaryOS.Core.Loop
import RaryOS.Core.Memory
import RaryOS.Core.Numeral
import RaryOS.Core.Page
import RaryOS.Core.Path
import RaryOS.Core.Program
import RaryOS.Core.Reading
import RaryOS.Core.RegisterFields
import RaryOS.Core.StoreLog
import RaryOS.Core.TableTree
import RaryOS.Core.Tiling
import RaryOS.Core.Words
import RaryOS.Core.Wrap
import RaryOS.Model.Acpi
import RaryOS.Model.BootScreen
import RaryOS.Model.BootTables
import RaryOS.Model.Commands
import RaryOS.Model.Console
import RaryOS.Model.ControlTransfer
import RaryOS.Model.DeviceContext
import RaryOS.Model.Effect
import RaryOS.Model.Elf
import RaryOS.Model.Framebuffer
import RaryOS.Model.HidKeyboard
import RaryOS.Model.Idt
import RaryOS.Model.Input
import RaryOS.Model.Interrupter
import RaryOS.Model.Interrupts
import RaryOS.Model.Irq
import RaryOS.Model.Kernel
import RaryOS.Model.KeyboardSetup
import RaryOS.Model.Malloc
import RaryOS.Model.Msix
import RaryOS.Model.Multiboot
import RaryOS.Model.Multiboot2
import RaryOS.Model.Pci
import RaryOS.Model.Permissions
import RaryOS.Model.Pic
import RaryOS.Model.Pit
import RaryOS.Model.Pmm
import RaryOS.Model.Segments
import RaryOS.Model.Shell
import RaryOS.Model.Smbios
import RaryOS.Model.Stdio
import RaryOS.Model.Stdlib
import RaryOS.Model.SysInfo
import RaryOS.Model.Terminal
import RaryOS.Model.Tlb
import RaryOS.Model.Usb
import RaryOS.Model.Vmm
import RaryOS.Model.Xhci
import RaryOS.Model.XhciCaps
import RaryOS.Model.XhciRings
import RaryOS.Proofs.Acpi
import RaryOS.Proofs.BootTables
import RaryOS.Proofs.Elf
import RaryOS.Proofs.ElfImage
import RaryOS.Proofs.EventCalls
import RaryOS.Proofs.EventRing
import RaryOS.Proofs.Framebuffer
import RaryOS.Proofs.HidKeyboard
import RaryOS.Proofs.Input
import RaryOS.Proofs.Interrupter
import RaryOS.Proofs.Interrupts
import RaryOS.Proofs.KernelInit
import RaryOS.Proofs.KeyboardInterrupt
import RaryOS.Proofs.KeyboardSetup
import RaryOS.Proofs.KeyboardTransfers
import RaryOS.Proofs.MallocBlocks
import RaryOS.Proofs.MallocCalls
import RaryOS.Proofs.MallocFree
import RaryOS.Proofs.MallocHeap
import RaryOS.Proofs.MallocNeighbours
import RaryOS.Proofs.MallocRelease
import RaryOS.Proofs.MapWalks
import RaryOS.Proofs.Multiboot2
import RaryOS.Proofs.PmmAlloc
import RaryOS.Proofs.PmmBits
import RaryOS.Proofs.PmmInit
import RaryOS.Proofs.ProcessKeys
import RaryOS.Proofs.Stdio
import RaryOS.Proofs.Stdlib
import RaryOS.Proofs.SysInfo
import RaryOS.Proofs.TableStock
import RaryOS.Proofs.TableWrites
import RaryOS.Proofs.Terminal
import RaryOS.Proofs.Tlb
import RaryOS.Proofs.TransferRing
import RaryOS.Proofs.VmmCalls
import RaryOS.Proofs.VmmEntries
import RaryOS.Proofs.VmmTree
import RaryOS.Soundness.AcpiInit
import RaryOS.Soundness.AcpiSlots
import RaryOS.Soundness.AddressSpace
import RaryOS.Soundness.AllocatorsApart
import RaryOS.Soundness.BlockBounds
import RaryOS.Soundness.BootConversion
import RaryOS.Soundness.BootScreen
import RaryOS.Soundness.Clock
import RaryOS.Soundness.Commands
import RaryOS.Soundness.Console
import RaryOS.Soundness.ControlTransfer
import RaryOS.Soundness.DeviceAnswers
import RaryOS.Soundness.DeviceContext
import RaryOS.Soundness.ElfImage
import RaryOS.Soundness.ElfLoad
import RaryOS.Soundness.EventBlocking
import RaryOS.Soundness.EventRing
import RaryOS.Soundness.FormatReads
import RaryOS.Soundness.Framebuffer
import RaryOS.Soundness.FramebufferPage
import RaryOS.Soundness.FreeNeighbours
import RaryOS.Soundness.Glyphs
import RaryOS.Soundness.HeapAlignment
import RaryOS.Soundness.HeapPlacement
import RaryOS.Soundness.HeapRuns
import RaryOS.Soundness.HidKeyboard
import RaryOS.Soundness.IdtGates
import RaryOS.Soundness.Input
import RaryOS.Soundness.InterruptLines
import RaryOS.Soundness.Interrupts
import RaryOS.Soundness.IrqRuns
import RaryOS.Soundness.KernelInput
import RaryOS.Soundness.KeyPresses
import RaryOS.Soundness.KeyStretches
import RaryOS.Soundness.LineEcho
import RaryOS.Soundness.LowIdentity
import RaryOS.Soundness.MallocBounds
import RaryOS.Soundness.MallocRun
import RaryOS.Soundness.MapBounds
import RaryOS.Soundness.MapPermissions
import RaryOS.Soundness.Msix
import RaryOS.Soundness.Numerals
import RaryOS.Soundness.PageCalls
import RaryOS.Soundness.PciScan
import RaryOS.Soundness.PmmFresh
import RaryOS.Soundness.PmmInitFree
import RaryOS.Soundness.PmmRun
import RaryOS.Soundness.PrintfText
import RaryOS.Soundness.Readline
import RaryOS.Soundness.ReportBuffer
import RaryOS.Soundness.ReservedMemory
import RaryOS.Soundness.S5Search
import RaryOS.Soundness.Scratchpad
import RaryOS.Soundness.Session
import RaryOS.Soundness.ShellTranscript
import RaryOS.Soundness.SmbiosFields
import RaryOS.Soundness.SmbiosReads
import RaryOS.Soundness.SysInfo
import RaryOS.Soundness.SyscallError
import RaryOS.Soundness.TableFrames
import RaryOS.Soundness.TableLeaks
import RaryOS.Soundness.TerminalBounds
import RaryOS.Soundness.TerminalCursor
import RaryOS.Soundness.TerminalPage
import RaryOS.Soundness.TerminalText
import RaryOS.Soundness.TlbCoherence
import RaryOS.Soundness.Tokenize
import RaryOS.Soundness.TransferRing
import RaryOS.Soundness.UnsignedDirectives
import RaryOS.Soundness.UsbMapping
import RaryOS.Soundness.UserMode
import RaryOS.Soundness.VmmFrame
import RaryOS.Soundness.VmmRuns
import RaryOS.Soundness.Wakeups
