import RaryOS.Model.BootScreen
import RaryOS.Soundness.BootConversion
import RaryOS.Soundness.FramebufferPage

/-! # From the boot information to the console

The console is the framebuffer of the last framebuffer tag, if its pixels are 32-bit RGB, and the text mode otherwise.
From then on it shows the page of what is written, and the kernel's later walks find the memory map as it was
converted, since drawing stays inside the framebuffer.
-/

namespace RaryOS.Soundness

open RaryOS.Core RaryOS.Model

/-! ## Drawing stays on the framebuffer -/

/-- Only bytes of the framebuffer have changed, and no other variable of `fb.c`. -/
structure DrawnOn (fb fb' : Framebuffer) : Prop where
  static : fb' = { fb with mem := fb'.mem }
  outside : ∀ query, query < fb.base ∨ fb.base + fb.height * fb.pitch ≤ query → fb'.mem query = fb.mem query

namespace DrawnOn

variable {fb fb' fb'' : Framebuffer}

theorem refl (fb : Framebuffer) : DrawnOn fb fb := ⟨rfl, fun _ _ => rfl⟩

theorem trans (first : DrawnOn fb fb') (second : DrawnOn fb' fb'') : DrawnOn fb fb'' := by
  have same := second.static
  have place := second.outside
  rw [first.static] at same place
  exact ⟨same, fun query away => (place query away).trans (first.outside query away)⟩

/-- Stores inside the framebuffer. -/
theorem of_stores {log : StoreLog}
    (inside : ∀ s ∈ log, fb.base ≤ s.1 ∧ s.1 + 4 ≤ fb.base + fb.height * fb.pitch) :
    DrawnOn fb { fb with mem := fb.mem.storeAll 4 log } := by
  refine ⟨rfl, fun query away => Memory.storeAll_apply_of_not_covers _ ?_⟩
  rintro ⟨s, member, lower, upper⟩
  have place := inside s member
  omega

/-- A pixel of the screen. -/
theorem pixel_inside (fits : fb.Fits) {i j : ℕ} (column : i < fb.width) (row : j < fb.height) :
    fb.base ≤ fb.pixelAddress i j ∧ fb.pixelAddress i j + 4 ≤ fb.base + fb.height * fb.pitch := by
  have last := fits.offset_end_le column row
  rw [Framebuffer.pixelAddress]
  omega

theorem rect (fits : fb.Fits) {x y w h : ℕ} (horizontal : x + w < 2 ^ 32) (vertical : y + h < 2 ^ 32) (rgb : ℕ) :
    DrawnOn fb (fb.fillRect x y w h rgb) := by
  rw [Framebuffer.fillRect_eq]
  refine of_stores fun s member => ?_
  obtain ⟨i, j, inside, rfl⟩ := (fits.mem_fillRectStores horizontal vertical rgb s).mp member
  obtain ⟨_, column, _, row⟩ := inside
  exact pixel_inside fits (by omega) (by omega)

theorem glyph (fits : fb.Fits) (aligned : fb.pitch % 4 = 0) (ok : fb.ok = true) {cx cy scale : ℕ}
    (inside : SquareInside fb cx cy scale) (glyph : ℕ → BitVec 8) (fg bg : ℕ) :
    DrawnOn fb (fb.drawGlyph cx cy glyph fg bg scale) := by
  rw [Framebuffer.drawGlyph_eq, drawGlyphStores_of_inside fits aligned ok inside]
  refine of_stores fun s member => ?_
  obtain ⟨p, drawn, rfl⟩ := List.mem_map.mp member
  obtain ⟨x, left, y, up, rfl⟩ := mem_glyphPixels drawn
  obtain ⟨right, bottom⟩ := inside
  exact pixel_inside fits (Nat.lt_of_lt_of_le (Nat.add_lt_add_left left cx) right)
    (Nat.lt_of_lt_of_le (Nat.add_lt_add_left up cy) bottom)

theorem scroll (fits : fb.Fits) {pixels : ℕ} (small : pixels < fb.height) : DrawnOn fb (fb.scrollUp pixels) := by
  have height := fits.height
  have width := fits.row
  have pitch := fits.pitch
  have rows : (fb.height - pixels) * fb.pitch ≤ fb.height * fb.pitch := Nat.mul_le_mul_right _ (Nat.sub_le _ _)
  have moved : DrawnOn fb (movedUp fb pixels) := by
    refine ⟨rfl, fun query away => ?_⟩
    rw [movedUp_apply, if_neg (by omega)]
  rw [scrollUp_eq fits small]
  exact moved.trans (rect (movedUp_fits fits) (by omega) (by omega) 0)

end DrawnOn

namespace DrawsPage

variable {st : PageStyle (BitVec 8) Picture} {t : Terminal} {p : Page Picture}

theorem drawn_nextLine (screen : TextScreen t.fb) : DrawnOn t.fb t.nextLine.scrollFbIfFull.fb := by
  rw [Terminal.scrollFbIfFull]
  split
  · exact .scroll screen.fits screen.scrolls
  · exact .refl _

/-- A character at the cursor. -/
theorem drawn_char (draws : DrawsPage st t p) (c : BitVec 8) :
    DrawnOn t.fb (t.drawCharFb (t.terminalColumn % 2 ^ 32) (t.terminalRow * charH % 2 ^ 32) c).fb := by
  obtain ⟨square, left, upper⟩ := draws.square
  rw [Nat.mod_eq_of_lt (by omega), Nat.mod_eq_of_lt (by omega), Terminal.drawCharFb, if_neg (by omega)]
  exact .glyph draws.screen.fits draws.screen.aligned draws.screen.holds.available square _ _ _

theorem drawn_putchar (draws : DrawsPage st t p) (c : BitVec 8) : DrawnOn t.fb (t.putchar c).fb := by
  rw [Terminal.putchar, draws.screen.holds.available, if_pos rfl, Terminal.putcharFb]
  split
  · exact drawn_nextLine draws.screen
  · split
    · have drawn := draws.back.drawn_char space
      rcases Nat.lt_or_ge t.terminalColumn charW with edge | further
      · simp only [if_neg (Nat.not_le.mpr edge)] at drawn ⊢
        exact drawn
      · simp only [if_pos further] at drawn ⊢
        exact drawn
    · have drawn := draws.drawn_char c
      dsimp only
      split
      · exact drawn.trans (drawn_nextLine (draws.set c).screen)
      · exact drawn

/-- A text changes the memory of the framebuffer only. -/
theorem drawn_write (draws : DrawsPage st t p) (text : List (BitVec 8)) : DrawnOn t.fb (t.write text).fb := by
  induction text generalizing t p with
  | nil => exact .refl _
  | cons c rest ih => exact (draws.drawn_putchar c).trans (ih (draws.putchar c))

end DrawsPage

/-! ## Text mode leaves the memory -/

section TextMode

variable {t : Terminal}

theorem nextLine_scrollVga_fb (t : Terminal) : t.nextLine.scrollVgaIfFull.fb = t.fb := by
  rw [Terminal.scrollVgaIfFull, Terminal.scrollVga_eq]
  split <;> rfl

theorem putchar_fb_of_textMode (textMode : t.fb.ok = false) (c : BitVec 8) : (t.putchar c).fb = t.fb := by
  rw [Terminal.putchar, textMode, if_neg Bool.false_ne_true, Terminal.putcharVga]
  split
  · exact nextLine_scrollVga_fb t
  · split
    · dsimp only [Terminal.setCell]
      split
      · rfl
      · split <;> rfl
    · dsimp only
      split
      · exact nextLine_scrollVga_fb _
      · rfl

theorem write_fb_of_textMode (textMode : t.fb.ok = false) (text : List (BitVec 8)) : (t.write text).fb = t.fb := by
  induction text generalizing t with
  | nil => rfl
  | cons c rest ih =>
    have same := putchar_fb_of_textMode textMode c
    exact (ih (by rw [same, textMode])).trans same

end TextMode

/-! ## Boot -/

/-- A framebuffer for text that leaves the kernel's image and the buffer for the memory map. -/
structure UsableScreen (fb : Framebuffer) (buffer kernelEnd : ℕ) : Prop where
  text : TextScreen fb
  apart : fb.base + fb.height * fb.pitch ≤ buffer ∨ kernelEnd ≤ fb.base

/-- The console with a text: on the framebuffer of the last tag, if that is of 32-bit RGB pixels, or in the text
mode, in light grey. -/
structure BootConsole (m : Memory) (tags : List ℕ) (start : Terminal) (text : List (BitVec 8)) : Prop where
  graphics : ∀ p, mb2FramebufferTag m tags = some p → Mb2RgbTag m p →
    (start.write text).fb = mb2TagScreen m p (start.write text).fb.mem ∧
      DrawsPage (fbStyle start) (start.write text) (blackPage.write (fbStyle start) text)
  textMode : (∀ p, mb2FramebufferTag m tags = some p → ¬Mb2RgbTag m p) →
    ShowsPage vgaColorLightGrey (start.write text) (blankPage.write (vgaStyle vgaColorLightGrey) text)

section Boot

variable {m : Memory} {buffer kernelEnd : ℕ} {tags : List ℕ} {c : Mb2Conversion} {t : Terminal}

theorem mb2Flags_framebuffer (basicMem mmap bootloader framebuffer : Bool) :
    mb2Flags basicMem mmap bootloader framebuffer &&& multibootInfoFramebufferInfo = 0 ↔ framebuffer = false := by
  cases basicMem <;> cases mmap <;> cases bootloader <;> cases framebuffer <;> decide

theorem mb2Has_framebuffer : mb2Has m tags mb2TagFramebuffer = false ↔ mb2FramebufferTag m tags = none := by
  rw [mb2FramebufferTag, List.getLast?_eq_none_iff, List.filter_eq_nil_iff, mb2Has, List.any_eq_false]

/-- A field of the last framebuffer tag. -/
theorem mb2Last_framebuffer {p : ℕ} (last : mb2FramebufferTag m tags = some p) (field : ℕ → ℕ) :
    mb2Last m tags mb2TagFramebuffer field = field p := by
  rw [mb2FramebufferTag] at last
  rw [mb2Last, last, Option.map_some, Option.getD_some]

theorem init_of_rgb (fb : Framebuffer) {p : ℕ} (last : mb2FramebufferTag m tags = some p) (rgb : Mb2RgbTag m p) :
    fb.init (mb2Info m buffer tags) = (mb2TagScreen m p fb.mem).clear 0 := by
  have flagged : ¬mb2Has m tags mb2TagFramebuffer = false := by
    rw [mb2Has_framebuffer, last]
    exact Option.some_ne_none p
  obtain ⟨type, bpp⟩ := rgb
  simp only [Framebuffer.init, mb2Info, mb2Last_framebuffer last, mb2Flags_framebuffer, type, bpp, ne_eq,
    not_true_eq_false, if_neg flagged, if_false]
  rfl

theorem init_of_other (fb : Framebuffer) (other : ∀ p, mb2FramebufferTag m tags = some p → ¬Mb2RgbTag m p) :
    fb.init (mb2Info m buffer tags) = fb := by
  rw [Framebuffer.init]
  cases last : mb2FramebufferTag m tags with
  | none => exact if_pos ((mb2Flags_framebuffer _ _ _ _).mpr (mb2Has_framebuffer.mpr last))
  | some p =>
    split
    · rfl
    · split
      · rfl
      · next type =>
        refine if_pos fun bpp => other p last ⟨?_, ?_⟩
        · exact (mb2Last_framebuffer last _).symm.trans (not_not.mp type)
        · exact (mb2Last_framebuffer last _).symm.trans bpp

theorem clear_drawn {fb : Framebuffer} (fits : fb.Fits) : DrawnOn fb (fb.clear 0) := by
  have width := fits.row
  have pitch := fits.pitch
  have height := fits.height
  exact .rect fits (by omega) (by omega) 0

/-- `terminal_initialize` on a framebuffer. -/
theorem terminalInitialize_of_screen (screen : TextScreen t.fb) (background : t.termBg = 0) :
    DrawnOn t.fb (terminalInitialize t).fb ∧
      DrawsPage (fbStyle (terminalInitialize t)) (terminalInitialize t) blackPage := by
  have draws := DrawsPage.clear screen background
  rw [← draws.style] at draws
  refine ⟨?_, ⟨draws.screen, rfl, draws.background, draws.inside, draws.row, draws.column, draws.pixels,
    draws.fresh⟩⟩
  have cleared := clear_drawn screen.fits
  rw [← background] at cleared
  simp only [terminalInitialize, Terminal.clear, if_pos screen.holds.available]
  exact cleared

/-- The framebuffer is cleared twice. -/
theorem boot_of_rgb (info : c.info = mb2Info m buffer tags) {p : ℕ} (last : mb2FramebufferTag m tags = some p)
    (rgb : Mb2RgbTag m p) (screen : TextScreen (mb2TagScreen m p c.mem)) (background : t.termBg = 0) :
    DrawnOn (mb2TagScreen m p c.mem) (t.boot c).fb ∧ DrawsPage (fbStyle (t.boot c)) (t.boot c) blackPage := by
  have first := clear_drawn screen.fits
  have start : TextScreen ((mb2TagScreen m p c.mem).clear 0) := by
    rw [first.static]
    exact screen.of_mem _
  rw [Terminal.boot, info, init_of_rgb _ last rgb]
  obtain ⟨second, draws⟩ :=
    terminalInitialize_of_screen (t := { t with fb := (mb2TagScreen m p c.mem).clear 0 }) start background
  exact ⟨first.trans second, draws⟩

/-- `terminal_initialize` in text mode: the colour may as well be set before the screen is cleared. -/
theorem terminalInitialize_of_textMode (textMode : t.fb.ok = false) :
    (terminalInitialize t).fb = t.fb ∧ ShowsPage vgaColorLightGrey (terminalInitialize t) blankPage := by
  have first : terminalInitialize t = Terminal.clear { t with terminalColor := vgaColorLightGrey } := by
    rw [terminalInitialize, Terminal.clear_eq textMode]
    exact (Terminal.clear_eq (t := { t with terminalColor := vgaColorLightGrey }) textMode).symm
  rw [first]
  refine ⟨?_, ShowsPage.clear (t := { t with terminalColor := vgaColorLightGrey }) textMode⟩
  rw [Terminal.clear_eq (t := { t with terminalColor := vgaColorLightGrey }) textMode]

/-- In text mode nothing of the memory changes. -/
theorem boot_of_other (info : c.info = mb2Info m buffer tags)
    (other : ∀ p, mb2FramebufferTag m tags = some p → ¬Mb2RgbTag m p) (textMode : t.fb.ok = false) :
    (t.boot c).fb = { t.fb with mem := c.mem } ∧ ShowsPage vgaColorLightGrey (t.boot c) blankPage := by
  rw [Terminal.boot, info, init_of_other _ other]
  exact terminalInitialize_of_textMode (t := { t with fb := { t.fb with mem := c.mem } }) textMode

/-- The walks find the map in every memory that has the buffer as the conversion left it. -/
theorem converted_walks {mb2Addr : ℕ} (block : Mb2Block m mb2Addr tags) (placed : Mb2Placed m mb2Addr buffer kernelEnd)
    (converted : Converted m buffer tags c) {mem : Memory}
    (agree : ∀ query, buffer ≤ query → query < kernelEnd → mem query = c.mem query) (mbdStart : ℕ) :
    WalksVisit mem c.info mbdStart kernelEnd ((mb2Entries m tags).take 128) := by
  obtain ⟨_, image, low⟩ := placed
  simp only [mmapBufferLength] at image
  have ending : c.info.mmapEnd ≤ kernelEnd := by
    apply Nat.le_trans (Nat.mod_le _ _)
    simp only [converted.info, mb2Info, mb2Last_const, sizeofMemoryMap] at image ⊢
    split <;> omega
  have map : MapEntries mem c.info.mmapEnd c.info.mmapAddr ((mb2Entries m tags).take 128) := by
    refine (converted.map (by omega)).congr fun query lower upper => agree query ?_ (Nat.lt_of_lt_of_le upper ending)
    cases has : mb2Has m tags mb2TagMmap with
    | true =>
      simp only [converted.info, mb2Info, mb2Last_const, has, if_true] at lower
      exact lower
    | false =>
      simp only [MultibootInfo.mmapEnd, converted.info, mb2Info, mb2Last_const, has, mb2Entries_of_not_has has,
        List.length_nil, Nat.min_zero, Nat.mul_zero, Bool.false_eq_true, if_false] at upper
      exact absurd upper (Nat.not_lt_zero _)
  refine walksVisit_of_map mbdStart map ending fun e member available => ?_
  have fits := block.noWrap e (List.mem_of_mem_take member) available
  rw [Nat.mod_eq_of_lt fits]
  exact Nat.le_add_right _ _

/-- `convert_mb2_to_mb1` on a well-formed block. -/
theorem converts_iff {mb2Addr : ℕ} (block : Mb2Block m mb2Addr tags) (placed : Mb2Placed m mb2Addr buffer kernelEnd) :
    ∃ c, Converted m buffer tags c ∧ ∀ c', Mb2Converts m mb2Addr buffer c' ↔ c' = c := by
  obtain ⟨apart, image, low⟩ := placed
  simp only [mmapBufferLength] at apart image
  have total := m.load32_lt mb2Addr
  obtain ⟨c, returns, converted⟩ := mb2TagBody_returns (by omega) block.list (.start m buffer) (by omega) (by omega)
  have conversion (fuel : ℕ) : convertMb2ToMb1 fuel m mb2Addr buffer =
      loop (mb2TagBody buffer (mb2Addr + m.load32 mb2Addr)) fuel ({ mem := m }, mb2Addr + 8) :=
    if_neg block.present
  refine ⟨c, converted, fun c' => ⟨?_, ?_⟩⟩
  · rintro ⟨fuel, done⟩
    exact Except.ok.inj (Returns.unique ⟨fuel, (conversion fuel).symm.trans done⟩ returns)
  · rintro rfl
    obtain ⟨fuel, done⟩ := returns
    exact ⟨fuel, (conversion fuel).trans done⟩

end Boot

/-- For every well-formed block of boot information and every text: after the conversion, `fb_init` and
`terminal_initialize`, the console that the tags ask for shows the page of the text, and the walks of the kernel
still visit the first 128 entries of the memory maps. -/
theorem boot_reaches_console {m : Memory} {mb2Addr buffer kernelEnd : ℕ} {tags : List ℕ}
    (block : Mb2Block m mb2Addr tags) (placed : Mb2Placed m mb2Addr buffer kernelEnd)
    (usable : ∀ p, mb2FramebufferTag m tags = some p → Mb2RgbTag m p →
      UsableScreen (mb2TagScreen m p m) buffer kernelEnd)
    {t : Terminal} (textMode : t.fb.ok = false) (background : t.termBg = 0) (text : List (BitVec 8)) :
    (∃ c, Mb2Converts m mb2Addr buffer c) ∧ ∀ c, Mb2Converts m mb2Addr buffer c →
      BootConsole m tags (t.boot c) text ∧ ∀ mbdStart,
        WalksVisit ((t.boot c).write text).fb.mem c.info mbdStart kernelEnd ((mb2Entries m tags).take 128) := by
  obtain ⟨c, converted, result⟩ := converts_iff block placed
  refine ⟨⟨c, (result c).mpr rfl⟩, fun c' done => ?_⟩
  obtain rfl := (result c').mp done
  have info := converted.info
  rcases em (∃ p, mb2FramebufferTag m tags = some p ∧ Mb2RgbTag m p) with ⟨p, last, rgb⟩ | none
  · obtain ⟨screen, apart⟩ := usable p last rgb
    obtain ⟨first, draws⟩ := boot_of_rgb (t := t) info last rgb (screen.of_mem c'.mem) background
    have drawn := first.trans (draws.drawn_write text)
    refine ⟨⟨fun q same _ => ?_, fun other => absurd rgb (other p last)⟩, fun mbdStart => ?_⟩
    · cases last.symm.trans same
      exact ⟨drawn.static, draws.write text⟩
    · refine converted_walks block placed converted (fun query lower upper => drawn.outside query ?_) mbdStart
      exact apart.symm.imp (Nat.lt_of_lt_of_le upper) fun above => above.trans lower
  · have other (p : ℕ) (last : mb2FramebufferTag m tags = some p) : ¬Mb2RgbTag m p := fun rgb => none ⟨p, last, rgb⟩
    obtain ⟨start, page⟩ := boot_of_other info other textMode
    refine ⟨⟨fun p last rgb => absurd rgb (other p last), fun _ => page.write text⟩, fun mbdStart => ?_⟩
    refine converted_walks block placed converted (fun query _ _ => ?_) mbdStart
    rw [write_fb_of_textMode page.textMode, start]

/-- A block with the framebuffer that the boot header asks for. -/
def sampleScreenBlock : Memory := fun query =>
  BitVec.ofNat 8 ([56, 0, 8, 38, 0xFD000000, 0, 5120, 1280, 400, 0x120, 0, 0, 0, 8].getD ((query - 0x10000) / 4) 0 /
    256 ^ ((query - 0x10000) % 4))

theorem sampleScreenBlock_usable {p : ℕ} (last : mb2FramebufferTag sampleScreenBlock [0x10008] = some p) :
    UsableScreen (mb2TagScreen sampleScreenBlock p sampleScreenBlock) 0x150000 0x200000 := by
  have first : mb2FramebufferTag sampleScreenBlock [0x10008] = some 0x10008 := by decide
  obtain rfl := Option.some.inj (first.symm.trans last)
  refine ⟨⟨by constructor <;> decide, ⟨rfl, by decide, by decide⟩, by decide, by decide⟩, Or.inr (by decide)⟩

theorem boot_reaches_console_sample :
    ∃ c, Mb2Converts sampleScreenBlock 0x10000 0x150000 c ∧
      BootConsole sampleScreenBlock [0x10008] (sampleTerminal.boot c) [0x41] ∧
      ((sampleTerminal.boot c).write [0x41]).fb.base = 0xFD000000 := by
  have block : Mb2Block sampleScreenBlock 0x10000 [0x10008] :=
    ⟨by decide, .cons_at 0x10030 (by decide) (by decide) (by decide) (by decide) (.nil (by decide) (by decide)),
      by decide⟩
  obtain ⟨⟨c, converts⟩, result⟩ := boot_reaches_console block
    (⟨by decide, by decide, by decide⟩ : Mb2Placed sampleScreenBlock 0x10000 0x150000 0x200000)
    (fun _ last _ => sampleScreenBlock_usable last) (t := sampleTerminal) rfl rfl [0x41]
  obtain ⟨console, _⟩ := result c converts
  obtain ⟨screen, _⟩ := console.graphics 0x10008 (by decide) ⟨by decide, by decide⟩
  have base : sampleScreenBlock.load64 (0x10008 + 8) = 0xFD000000 := by decide
  refine ⟨c, converts, console, ?_⟩
  rw [screen]
  exact base

end RaryOS.Soundness
