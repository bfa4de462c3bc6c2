import RaryOS.Model.Multiboot2
import RaryOS.Model.Terminal

/-! # The screen at boot

After the conversion of the boot information `kernel_main` calls `fb_init` and `terminal_initialize`. A framebuffer
is taken from the information if it is one of 32-bit RGB pixels. Without it the console is the text mode.
-/

namespace RaryOS.Model

open RaryOS.Core

def multibootFramebufferTypeRgb : ℕ := 1

/-- `fb_init`. -/
def Framebuffer.init (fb : Framebuffer) (mbd : MultibootInfo) : Framebuffer :=
  if mbd.flags &&& multibootInfoFramebufferInfo = 0 then fb
  else if mbd.framebufferType ≠ multibootFramebufferTypeRgb then fb
  else if mbd.framebufferBpp ≠ 32 then fb
  else
    { fb with
      base := mbd.framebufferAddr
      width := mbd.framebufferWidth
      height := mbd.framebufferHeight
      pitch := mbd.framebufferPitch
      ok := true : Framebuffer }.clear 0x000000

def vgaColorBlack : BitVec 8 := 0
def vgaColorLightGrey : BitVec 8 := 7

/-- `vga_entry_color`. -/
def vgaEntryColor (fg bg : BitVec 8) : BitVec 8 := fg ||| bg <<< 4

/-- `terminal_initialize`. -/
def terminalInitialize (t : Terminal) : Terminal :=
  { t.clear with terminalColor := vgaEntryColor vgaColorLightGrey vgaColorBlack }

/-- `fb_init` and `terminal_initialize`, with what the conversion left. -/
def Terminal.boot (t : Terminal) (c : Mb2Conversion) : Terminal :=
  terminalInitialize { t with fb := { t.fb with mem := c.mem : Framebuffer }.init c.info }

/-- The last framebuffer tag. -/
def mb2FramebufferTag (m : Memory) (tags : List ℕ) : Option ℕ :=
  (tags.filter fun p => m.load32 p = mb2TagFramebuffer).getLast?

/-- The tag at `p` is of 32-bit RGB pixels. -/
def Mb2RgbTag (m : Memory) (p : ℕ) : Prop :=
  (m (p + 29)).toNat = multibootFramebufferTypeRgb ∧ (m (p + 28)).toNat = 32

/-- The framebuffer of the tag at `p`. -/
def mb2TagScreen (m : Memory) (p : ℕ) (mem : Memory) : Framebuffer where
  mem := mem
  base := m.load64 (p + 8)
  width := m.load32 (p + 20)
  height := m.load32 (p + 24)
  pitch := m.load32 (p + 16)
  ok := true

end RaryOS.Model
