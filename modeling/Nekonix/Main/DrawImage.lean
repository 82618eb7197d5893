import Nekonix.Lib.Seif
import Nekonix.Library.Loop.Returning

/-!
# `putpixel` and `draw_image` of `main.c`

The offset of a pixel and the bound it is checked against are products of header fields,
both taken in 32 bits.  They wrap around one by one, so an image of 4 GiB may be
rejected, or drawn from the wrong bytes.
-/

namespace Nekonix

open FlatMemory Loop

/-- What `putpixel` reads of `struct limine_framebuffer`. -/
structure LimineFramebuffer where
  address : U64
  width : U64
  height : U64
  pitch : U64
  bpp : U16

/-- The arguments of a call of `putpixel`. -/
structure PixelCall where
  x : U32
  y : U32
  r : U8
  g : U8
  b : U8
deriving DecidableEq

/-- The memory, and the calls of `putpixel` so far, in order. -/
structure Screen where
  memory : Memory
  calls : List PixelCall

/-- `fb->address + y * fb->pitch + x * (fb->bpp / 8)` -/
def LimineFramebuffer.pixelAddr (fb : LimineFramebuffer) (x y : U32) : U64 :=
  fb.address + y.setWidth 64 * fb.pitch + (x * (fb.bpp / 8#16).setWidth 32).setWidth 64

/-- `0xFF000000 | (r << 16) | (g << 8) | b` -/
def pixelColor (r g b : U8) : U32 :=
  0xFF000000#32 ||| (r.setWidth 32 <<< 16) ||| (g.setWidth 32 <<< 8) ||| b.setWidth 32

/-- `putpixel` -/
def putpixel (fb : LimineFramebuffer) (memory : Memory) (call : PixelCall) : Memory :=
  if call.x.setWidth 64 ≥ fb.width ∨ call.y.setWidth 64 ≥ fb.height then
    memory
  else
    Memory.store32 memory (fb.pixelAddr call.x call.y) (pixelColor call.r call.g call.b)

/-- A call of `putpixel`, written down. -/
def Screen.putpixel (fb : LimineFramebuffer) (screen : Screen) (call : PixelCall) : Screen where
  memory := Nekonix.putpixel fb screen.memory call
  calls := screen.calls ++ [call]

/-- Why `draw_image` gives up. -/
inductive SeifError where
  | header
  | encoding
  | chunkHeader
  | outOfBounds
deriving DecidableEq

/-- What it logs. -/
def SeifError.text : SeifError → String
  | .header => "Invalid SEIF header."
  | .encoding => "Unknown encoding type."
  | .chunkHeader => "Invalid SEIF chunk header."
  | .outOfBounds => "Pixel data index out of bounds."

/-- The checks of `draw_image`, with `encoding_size`. -/
def checkSeif (image : SeifBytes) : Except SeifError U8 :=
  let header := readSeifHeader image
  if header.magic ≠ [0x53#8, 0x45#8, 0x49#8, 0x46#8] then .error .header
  else
    match seifEncodingSize header.encoding with
    | none => .error .encoding
    | some encodingSize =>
        let chunkHeader := readSeifChunkHeader image
        if header.chunkCount ≠ 1#32 ∨ chunkHeader.width ≠ header.width ∨
            chunkHeader.height ≠ header.height then
          .error .chunkHeader
        else
          .ok encodingSize

/-- One turn of the inner loop of `draw_image`. -/
def drawPixel (fb : LimineFramebuffer) (image : SeifBytes) (encodingSize : U8) (y : U32)
    (screen : Screen) (x : U32) : Except (SeifError × Screen) Screen :=
  let header := readSeifHeader image
  let index := (y * header.width + x) * encodingSize.setWidth 32
  if index + encodingSize.setWidth 32 ≤
      header.width * header.height * encodingSize.setWidth 32 then
    let color := seifChannels header.encoding fun byte =>
      seifData image (index + BitVec.ofNat 32 byte).toNat
    .ok (screen.putpixel fb ⟨x, y, color.r, color.g, color.b⟩)
  else
    .error (.outOfBounds, screen)

/-- The inner loop of `draw_image`. -/
def drawRow (fb : LimineFramebuffer) (image : SeifBytes) (encodingSize : U8)
    (screen : Screen) (y : U32) : Except (SeifError × Screen) Screen :=
  (upwards 1#32 0#32 (readSeifHeader image).width.toNat).foldlM
    (drawPixel fb image encodingSize y) screen

/-- The loops of `draw_image`. -/
def drawRows (fb : LimineFramebuffer) (image : SeifBytes) (encodingSize : U8)
    (screen : Screen) : Except (SeifError × Screen) Screen :=
  (upwards 1#32 0#32 (readSeifHeader image).height.toNat).foldlM
    (drawRow fb image encodingSize) screen

/-- `draw_image`: the error it logs, if any, and the screen after it. -/
def drawImage (fb : LimineFramebuffer) (image : SeifBytes) (memory : Memory) :
    Option SeifError × Screen :=
  let screen : Screen := ⟨memory, []⟩
  match checkSeif image with
  | .error error => (some error, screen)
  | .ok encodingSize =>
      match drawRows fb image encodingSize screen with
      | .error (error, screen) => (some error, screen)
      | .ok screen => (none, screen)

/-! What is to be painted -/

/-- The framebuffer has a pixel there. -/
def LimineFramebuffer.Shows (fb : LimineFramebuffer) (x y : U32) : Prop :=
  x.toNat < fb.width.toNat ∧ y.toNat < fb.height.toNat

/-- No two pixels of the framebuffer share a byte. -/
def LimineFramebuffer.Apart (fb : LimineFramebuffer) : Prop :=
  ∀ x y x' y', fb.Shows x y → fb.Shows x' y' → (x, y) ≠ (x', y') →
    Separate (fb.pixelAddr x y) 4 (fb.pixelAddr x' y') 4

/-- `width * height * enc` as an integer. -/
def SeifBytes.dataSize (image : SeifBytes) (encodingSize : U8) : Nat :=
  (readSeifHeader image).width.toNat * (readSeifHeader image).height.toNat * encodingSize.toNat

/-- `(y * width + x) * enc` as an integer. -/
def SeifBytes.offset (image : SeifBytes) (encodingSize : U8) (x y : U32) : Nat :=
  (y.toNat * (readSeifHeader image).width.toNat + x.toNat) * encodingSize.toNat

/-- The pixel lies in the image. -/
def SeifBytes.Has (image : SeifBytes) (x y : U32) : Prop :=
  x < (readSeifHeader image).width ∧ y < (readSeifHeader image).height

/-- The call of `putpixel` with the bytes at the offsets that `place` makes of the exact
ones. -/
def SeifBytes.callAt (image : SeifBytes) (encodingSize : U8) (place : Nat → Nat) (x y : U32) :
    PixelCall :=
  let color := seifChannels (readSeifHeader image).encoding fun byte =>
    seifData image (place (image.offset encodingSize x y + byte))
  ⟨x, y, color.r, color.g, color.b⟩

/-- The image is painted from its exact offsets: each of its pixels in the framebuffer
is put once, with the right channels, and is there afterwards if it has its own bytes. -/
structure PaintsRight (fb : LimineFramebuffer) (image : SeifBytes) (encodingSize : U8)
    (result : Option SeifError × Screen) : Prop where
  inBounds : result.1 ≠ some .outOfBounds
  painted : ∀ x y, image.Has x y → fb.Shows x y →
    (result.2.calls.filter fun call => (call.y, call.x) = (y, x)) =
      [image.callAt encodingSize id x y]
  shown : fb.Apart → ∀ x y, image.Has x y → fb.Shows x y →
    Memory.load32 result.2.memory (fb.pixelAddr x y) =
      pixelColor (image.callAt encodingSize id x y).r (image.callAt encodingSize id x y).g
        (image.callAt encodingSize id x y).b

/-- The data fit into 32-bit offsets, or no end of a pixel passes the wrapped bound and each
pixel in the framebuffer has the same channels at its offset modulo 2^32. -/
def OffsetsHarmless (fb : LimineFramebuffer) (image : SeifBytes) (encodingSize : U8) : Prop :=
  image.dataSize encodingSize < 2 ^ 32 ∨
    (2 ^ 32 - 1) / encodingSize.toNat * encodingSize.toNat ≤ image.dataSize encodingSize % 2 ^ 32 ∧
      ∀ x y, image.Has x y → fb.Shows x y →
        image.callAt encodingSize (· % 2 ^ 32) x y = image.callAt encodingSize id x y

variable {fb : LimineFramebuffer} {image : SeifBytes} {encodingSize : U8} {memory : Memory}
  {screen final : Screen} {x y : U32}

theorem checkSeif_known (valid : checkSeif image = .ok encodingSize) :
    seifEncodingSize (readSeifHeader image).encoding = some encodingSize := by
  unfold checkSeif at valid
  dsimp only at valid
  split at valid
  next => cases valid
  next =>
    split at valid
    next => cases valid
    next known =>
      split at valid
      next => cases valid
      next =>
        cases valid
        exact known

/-! Offsets and the bound in 32 bits -/

/-- The offset that `draw_image` reads at. -/
theorem index_toNat (byte : Nat) :
    ((y * (readSeifHeader image).width + x) * encodingSize.setWidth 32 +
        BitVec.ofNat 32 byte).toNat = (image.offset encodingSize x y + byte) % 2 ^ 32 := by
  have small := encodingSize.isLt
  have size : encodingSize.toNat % 2 ^ 32 = encodingSize.toNat := Nat.mod_eq_of_lt (by omega)
  simp only [SeifBytes.offset, BitVec.toNat_add, BitVec.toNat_mul, BitVec.toNat_setWidth,
    BitVec.toNat_ofNat, size]
  simp only [Nat.add_mod, Nat.mul_mod, Nat.mod_mod]

theorem bound_toNat :
    ((readSeifHeader image).width * (readSeifHeader image).height *
        encodingSize.setWidth 32).toNat = image.dataSize encodingSize % 2 ^ 32 := by
  have small := encodingSize.isLt
  have size : encodingSize.toNat % 2 ^ 32 = encodingSize.toNat := Nat.mod_eq_of_lt (by omega)
  simp only [SeifBytes.dataSize, BitVec.toNat_mul, BitVec.toNat_setWidth, size]
  simp only [Nat.mul_mod, Nat.mod_mod]

/-- The pixel passes the check of `draw_image`. -/
def Passes (image : SeifBytes) (encodingSize : U8) (x y : U32) : Prop :=
  (image.offset encodingSize x y + encodingSize.toNat) % 2 ^ 32 ≤
    image.dataSize encodingSize % 2 ^ 32

/-- The end of the last pixel of an image is the end of its data. -/
theorem offset_lt (inside : image.Has x y) :
    image.offset encodingSize x y + encodingSize.toNat ≤ image.dataSize encodingSize := by
  obtain ⟨columnInside, rowInside⟩ := inside
  have column : x.toNat + 1 ≤ (readSeifHeader image).width.toNat := columnInside
  have row : y.toNat + 1 ≤ (readSeifHeader image).height.toNat := rowInside
  have pixels : y.toNat * (readSeifHeader image).width.toNat + x.toNat + 1 ≤
      (readSeifHeader image).width.toNat * (readSeifHeader image).height.toNat := by
    calc
      y.toNat * (readSeifHeader image).width.toNat + x.toNat + 1 ≤
          y.toNat * (readSeifHeader image).width.toNat + (readSeifHeader image).width.toNat := by
        omega
      _ = (readSeifHeader image).width.toNat * (y.toNat + 1) := by
        rw [Nat.mul_succ, Nat.mul_comm]
      _ ≤ (readSeifHeader image).width.toNat * (readSeifHeader image).height.toNat :=
        Nat.mul_le_mul_left _ row
  have scaled := Nat.mul_le_mul_right encodingSize.toNat pixels
  unfold SeifBytes.offset SeifBytes.dataSize
  rw [Nat.add_mul _ 1, Nat.one_mul] at scaled
  exact scaled

/-- Wrapped around or not, the bytes of a pixel are read from the data. -/
theorem read_inside (inside : image.Has x y) {byte : Nat} (below : byte < encodingSize.toNat) :
    (image.offset encodingSize x y + byte) % 2 ^ 32 < image.dataSize encodingSize := by
  have ends := @offset_lt image encodingSize x y inside
  have reduced := Nat.mod_le (image.offset encodingSize x y + byte) (2 ^ 32)
  omega

/-- The pixels of an image are numbered row by row. -/
theorem exists_pixel {number : Nat}
    (below : number < (readSeifHeader image).width.toNat * (readSeifHeader image).height.toNat) :
    ∃ x y, image.Has x y ∧ image.offset encodingSize x y = number * encodingSize.toNat := by
  have widthSmall := (readSeifHeader image).width.isLt
  have heightSmall := (readSeifHeader image).height.isLt
  have positive : 0 < (readSeifHeader image).width.toNat :=
    Nat.pos_of_mul_pos_right (Nat.zero_lt_of_lt below)
  have column := Nat.mod_lt number positive
  have row : number / (readSeifHeader image).width.toNat < (readSeifHeader image).height.toNat :=
    Nat.div_lt_of_lt_mul below
  have xNumber : (BitVec.ofNat 32 (number % (readSeifHeader image).width.toNat)).toNat =
      number % (readSeifHeader image).width.toNat := by
    rw [BitVec.toNat_ofNat, Nat.mod_eq_of_lt (column.trans widthSmall)]
  have yNumber : (BitVec.ofNat 32 (number / (readSeifHeader image).width.toNat)).toNat =
      number / (readSeifHeader image).width.toNat := by
    rw [BitVec.toNat_ofNat, Nat.mod_eq_of_lt (row.trans heightSmall)]
  refine ⟨BitVec.ofNat 32 (number % (readSeifHeader image).width.toNat),
    BitVec.ofNat 32 (number / (readSeifHeader image).width.toNat), ⟨?_, ?_⟩, ?_⟩
  · rw [BitVec.lt_def, xNumber]
    exact column
  · rw [BitVec.lt_def, yNumber]
    exact row
  · rw [SeifBytes.offset, xNumber, yNumber, Nat.div_add_mod']

/-- All pixels pass the check exactly if 32-bit offsets reach to the end of the data, or
the wrapped bound lies no lower than any end of a pixel below 2^32. -/
theorem passes_iff (known : encodingSize = 3#8 ∨ encodingSize = 4#8) :
    (∀ x y, image.Has x y → Passes image encodingSize x y) ↔
      image.dataSize encodingSize < 2 ^ 32 ∨
        (2 ^ 32 - 1) / encodingSize.toNat * encodingSize.toNat ≤
          image.dataSize encodingSize % 2 ^ 32 := by
  have sizes : encodingSize.toNat = 3 ∨ encodingSize.toNat = 4 :=
    known.imp (congrArg BitVec.toNat) (congrArg BitVec.toNat)
  constructor
  · intro passes
    by_contra neither
    obtain ⟨large, low⟩ := not_or.mp neither
    -- the last pixel that ends below 2^32
    have below : (2 ^ 32 - 1) / encodingSize.toNat - 1 <
        (readSeifHeader image).width.toNat * (readSeifHeader image).height.toNat := by
      unfold SeifBytes.dataSize at large
      rcases sizes with size | size <;> rw [size] at large ⊢ <;> omega
    obtain ⟨x, y, inside, offset⟩ := @exists_pixel image encodingSize _ below
    have passed := passes x y inside
    unfold Passes at passed
    rw [offset] at passed
    rcases sizes with size | size <;> rw [size] at passed low <;> omega
  · intro reach x y inside
    have ends := @offset_lt image encodingSize x y inside
    unfold Passes
    rcases reach with small | high
    · rw [Nat.mod_eq_of_lt small, Nat.mod_eq_of_lt (ends.trans_lt small)]
      exact ends
    · refine le_trans ?_ high
      unfold SeifBytes.offset
      rcases sizes with size | size <;> rw [size] <;> omega

/-! The loops -/

/-- The pixel is put with the bytes at its wrapped offset. -/
theorem drawPixel_passes (passes : Passes image encodingSize x y) :
    drawPixel fb image encodingSize y screen x =
      .ok (screen.putpixel fb (image.callAt encodingSize (· % 2 ^ 32) x y)) := by
  have small := encodingSize.isLt
  have size : BitVec.ofNat 32 encodingSize.toNat = encodingSize.setWidth 32 := by
    rw [BitVec.ofNat_toNat]
  have fits : (y * (readSeifHeader image).width + x) * encodingSize.setWidth 32 +
      encodingSize.setWidth 32 ≤
        (readSeifHeader image).width * (readSeifHeader image).height *
          encodingSize.setWidth 32 := by
    have ends := @index_toNat image encodingSize x y encodingSize.toNat
    rw [size] at ends
    rw [BitVec.le_def, ends, bound_toNat]
    exact passes
  unfold drawPixel
  dsimp only
  rw [if_pos fits]
  simp only [index_toNat]
  rfl

theorem drawPixel_fails (fails : ¬Passes image encodingSize x y) :
    drawPixel fb image encodingSize y screen x = .error (.outOfBounds, screen) := by
  have small := encodingSize.isLt
  have size : BitVec.ofNat 32 encodingSize.toNat = encodingSize.setWidth 32 := by
    rw [BitVec.ofNat_toNat]
  have behind : ¬(y * (readSeifHeader image).width + x) * encodingSize.setWidth 32 +
      encodingSize.setWidth 32 ≤
        (readSeifHeader image).width * (readSeifHeader image).height *
          encodingSize.setWidth 32 := by
    have ends := @index_toNat image encodingSize x y encodingSize.toNat
    rw [size] at ends
    rw [BitVec.le_def, ends, bound_toNat]
    exact fails
  unfold drawPixel
  dsimp only
  rw [if_neg behind]

/-- The pixels of an image as `(y, x)`, in the order of the loops. -/
def SeifBytes.positions (image : SeifBytes) : List (U32 × U32) :=
  upwards 1#32 0#32 (readSeifHeader image).height.toNat ×ˢ
    upwards 1#32 0#32 (readSeifHeader image).width.toNat

theorem SeifBytes.mem_positions : (y, x) ∈ image.positions ↔ image.Has x y := by
  rw [positions, List.mem_product, mem_upwards_one, mem_upwards_one]
  exact And.comm

theorem SeifBytes.nodup_positions : image.positions.Nodup :=
  List.Nodup.product nodup_upwards_one nodup_upwards_one

theorem drawRows_eq : drawRows fb image encodingSize screen =
    image.positions.foldlM
      (fun screen position => drawPixel fb image encodingSize position.1 screen position.2)
      screen :=
  foldlM_product fun screen position => drawPixel fb image encodingSize position.1 screen position.2

/-- What `draw_image` puts when no pixel is rejected. -/
def SeifBytes.calls (image : SeifBytes) (encodingSize : U8) : List PixelCall :=
  image.positions.map fun position =>
    image.callAt encodingSize (· % 2 ^ 32) position.2 position.1

/-- A sequence of calls of `putpixel`. -/
theorem foldl_putpixel (calls : List PixelCall) :
    calls.foldl (Screen.putpixel fb) screen =
      ⟨calls.foldl (putpixel fb) screen.memory, screen.calls ++ calls⟩ := by
  induction calls generalizing screen with
  | nil => simp
  | cons call calls inductionHypothesis =>
      rw [List.foldl_cons, inductionHypothesis, List.foldl_cons]
      simp [Screen.putpixel]

theorem drawImage_passes (valid : checkSeif image = .ok encodingSize)
    (passes : ∀ x y, image.Has x y → Passes image encodingSize x y) :
    drawImage fb image memory =
      (none, ⟨(image.calls encodingSize).foldl (putpixel fb) memory,
        image.calls encodingSize⟩) := by
  have drawn : drawRows fb image encodingSize ⟨memory, []⟩ =
      .ok ((image.calls encodingSize).foldl (Screen.putpixel fb) ⟨memory, []⟩) := by
    rw [drawRows_eq, SeifBytes.calls, List.foldl_map]
    apply foldlM_eq_ok
    intro screen position membership
    exact drawPixel_passes (passes _ _ (SeifBytes.mem_positions.mp membership))
  unfold drawImage
  dsimp only
  rw [valid]
  dsimp only
  rw [drawn, foldl_putpixel]
  rfl

/-- If some pixel does not pass, its turn or an earlier one takes the out-of-bounds branch. -/
theorem passes_of_inBounds (valid : checkSeif image = .ok encodingSize)
    (inBounds : (drawImage fb image memory).1 ≠ some .outOfBounds) (inside : image.Has x y) :
    Passes image encodingSize x y := by
  unfold drawImage at inBounds
  dsimp only at inBounds
  rw [valid] at inBounds
  dsimp only at inBounds
  cases drawn : drawRows fb image encodingSize ⟨memory, []⟩ with
  | error failure =>
      rw [drawn] at inBounds
      rw [drawRows_eq] at drawn
      obtain ⟨before, position, -, turned⟩ := turn_eq_error_of_foldlM drawn
      by_cases passed : Passes image encodingSize position.2 position.1
      · rw [drawPixel_passes passed] at turned
        cases turned
      · rw [drawPixel_fails passed] at turned
        cases turned
        exact absurd rfl inBounds
  | ok final =>
      rw [drawRows_eq] at drawn
      obtain ⟨before, after, turned⟩ :=
        turn_eq_ok_of_foldlM drawn (SeifBytes.mem_positions.mpr inside)
      by_contra fails
      rw [drawPixel_fails fails] at turned
      cases turned

/-! The framebuffer -/

/-- Where a pixel of four bytes lies. -/
theorem pixelAddr_toNat (bpp : fb.bpp = 32#16) (narrow : fb.width.toNat ≤ 2 ^ 30)
    (shows : fb.Shows x y) :
    fb.pixelAddr x y =
      fb.address + BitVec.ofNat 64 (y.toNat * fb.pitch.toNat + 4 * x.toNat) := by
  obtain ⟨column, -⟩ := shows
  have row : y.setWidth 64 * fb.pitch = BitVec.ofNat 64 (y.toNat * fb.pitch.toNat) := by
    apply BitVec.eq_of_toNat_eq
    have small := y.isLt
    rw [BitVec.toNat_mul, BitVec.toNat_setWidth, BitVec.toNat_ofNat,
      Nat.mod_eq_of_lt (by omega : y.toNat < 2 ^ 64)]
  have columns : (x * (32#16 / 8#16).setWidth 32).setWidth 64 = BitVec.ofNat 64 (4 * x.toNat) := by
    have size : (32#16 / 8#16).setWidth 32 = 4#32 := by decide
    rw [size]
    bv_omega
  rw [LimineFramebuffer.pixelAddr, bpp, row, columns, BitVec.ofNat_add, BitVec.add_assoc]

/-- A framebuffer of four bytes per pixel whose rows fit into the pitch. -/
theorem LimineFramebuffer.apart (bpp : fb.bpp = 32#16) (narrow : fb.width.toNat ≤ 2 ^ 30)
    (rows : 4 * fb.width.toNat ≤ fb.pitch.toNat)
    (fits : fb.height.toNat * fb.pitch.toNat ≤ 2 ^ 64) : fb.Apart := by
  have ends : ∀ x y, fb.Shows x y →
      y.toNat * fb.pitch.toNat + 4 * x.toNat + 4 ≤ 2 ^ 64 := by
    rintro x y ⟨column, row⟩
    have below := Nat.mul_le_mul_right fb.pitch.toNat (Nat.succ_le_of_lt row)
    rw [Nat.succ_mul] at below
    omega
  have order : ∀ {x y x' y' : U32}, fb.Shows x y → y.toNat < y'.toNat →
      y.toNat * fb.pitch.toNat + 4 * x.toNat + 4 ≤ y'.toNat * fb.pitch.toNat + 4 * x'.toNat := by
    rintro x y x' y' ⟨column, -⟩ before
    have above := Nat.mul_le_mul_right fb.pitch.toNat (Nat.succ_le_of_lt before)
    rw [Nat.succ_mul] at above
    omega
  intro x y x' y' shows shows' differ
  have distance : y.toNat * fb.pitch.toNat + 4 * x.toNat + 4 ≤
        y'.toNat * fb.pitch.toNat + 4 * x'.toNat ∨
      y'.toNat * fb.pitch.toNat + 4 * x'.toNat + 4 ≤
        y.toNat * fb.pitch.toNat + 4 * x.toNat := by
    rcases Nat.lt_trichotomy y.toNat y'.toNat with before | same | behind
    · exact Or.inl (order shows before)
    · have apart : x.toNat ≠ x'.toNat := by
        intro equal
        apply differ
        rw [BitVec.eq_of_toNat_eq same, BitVec.eq_of_toNat_eq equal]
      rw [same]
      omega
    · exact Or.inr (order shows' behind)
  rw [pixelAddr_toNat bpp narrow shows, pixelAddr_toNat bpp narrow shows']
  have first := ends x y shows
  have second := ends x' y' shows'
  generalize y.toNat * fb.pitch.toNat + 4 * x.toNat = offset at *
  generalize y'.toNat * fb.pitch.toNat + 4 * x'.toNat = offset' at *
  intro address inside inside'
  unfold InRange at inside inside'
  bv_omega

/-! What the calls leave -/

theorem filter_calls (inside : image.Has x y) :
    ((image.calls encodingSize).filter fun call => (call.y, call.x) = (y, x)) =
      [image.callAt encodingSize (· % 2 ^ 32) x y] := by
  have once : image.positions.filter (fun position => position = (y, x)) = [(y, x)] := by
    rw [List.filter_eq, List.count_eq_one_of_mem SeifBytes.nodup_positions
      (SeifBytes.mem_positions.mpr inside)]
    rfl
  rw [SeifBytes.calls, List.filter_map]
  change (image.positions.filter fun position => position = (y, x)).map _ = _
  rw [once]
  rfl

/-- A call elsewhere leaves a pixel as it is. -/
theorem load32_putpixel_apart (apart : fb.Apart) (shows : fb.Shows x y) {call : PixelCall}
    (elsewhere : (call.x, call.y) ≠ (x, y)) :
    Memory.load32 (putpixel fb memory call) (fb.pixelAddr x y) =
      Memory.load32 memory (fb.pixelAddr x y) := by
  unfold putpixel
  split_ifs with outside
  · rfl
  · rw [not_or, ge_iff_le, ge_iff_le, BitVec.not_le, BitVec.not_le] at outside
    have callShows : fb.Shows call.x call.y := by
      unfold LimineFramebuffer.Shows
      bv_omega
    exact load_store_separate (apart _ _ _ _ shows callShows elsewhere.symm) (by decide)

theorem load32_putpixel_same {call : PixelCall} (shows : fb.Shows call.x call.y) :
    Memory.load32 (putpixel fb memory call) (fb.pixelAddr call.x call.y) =
      pixelColor call.r call.g call.b := by
  have inside : ¬(call.x.setWidth 64 ≥ fb.width ∨ call.y.setWidth 64 ≥ fb.height) := by
    unfold LimineFramebuffer.Shows at shows
    rw [not_or]
    bv_omega
  unfold putpixel
  rw [if_neg inside]
  exact load_store_same memory _ _ (by decide)

/-- Of calls for different pixels, each leaves its colour. -/
theorem load32_foldl_putpixel (apart : fb.Apart) {calls : List PixelCall}
    (distinct : (calls.map fun call => (call.x, call.y)).Nodup) {call : PixelCall}
    (membership : call ∈ calls) (shows : fb.Shows call.x call.y) :
    Memory.load32 (calls.foldl (putpixel fb) memory) (fb.pixelAddr call.x call.y) =
      pixelColor call.r call.g call.b := by
  have kept : ∀ (later : List PixelCall) (memory : Memory),
      (∀ other ∈ later, (other.x, other.y) ≠ (call.x, call.y)) →
      Memory.load32 (later.foldl (putpixel fb) memory) (fb.pixelAddr call.x call.y) =
        Memory.load32 memory (fb.pixelAddr call.x call.y) := by
    intro later
    induction later with
    | nil => exact fun _ _ => rfl
    | cons other later inductionHypothesis =>
        intro memory elsewhere
        rw [List.foldl_cons, inductionHypothesis _ fun following followingIn =>
          elsewhere following (List.mem_cons_of_mem _ followingIn)]
        exact load32_putpixel_apart apart shows (elsewhere other List.mem_cons_self)
  induction calls generalizing memory with
  | nil => cases membership
  | cons first calls inductionHypothesis =>
      rw [List.map_cons, List.nodup_cons] at distinct
      rw [List.foldl_cons]
      rcases List.mem_cons.mp membership with rfl | inRest
      · rw [kept calls _ ?_, load32_putpixel_same shows]
        intro other otherIn same
        exact distinct.1 (List.mem_map.mpr ⟨other, otherIn, same⟩)
      · exact inductionHypothesis distinct.2 inRest

@[simp]
theorem SeifBytes.callAt_x (place : Nat → Nat) : (image.callAt encodingSize place x y).x = x := rfl

@[simp]
theorem SeifBytes.callAt_y (place : Nat → Nat) : (image.callAt encodingSize place x y).y = y := rfl

theorem nodup_calls : ((image.calls encodingSize).map fun call => (call.x, call.y)).Nodup := by
  have swapped : (image.calls encodingSize).map (fun call => (call.x, call.y)) =
      image.positions.map Prod.swap := by
    rw [SeifBytes.calls, List.map_map]
    rfl
  rw [swapped]
  exact SeifBytes.nodup_positions.map Prod.swap_injective

/-- Below 2^32 no offset wraps around. -/
theorem callAt_small (valid : checkSeif image = .ok encodingSize)
    (small : image.dataSize encodingSize < 2 ^ 32) (inside : image.Has x y) :
    image.callAt encodingSize (· % 2 ^ 32) x y = image.callAt encodingSize id x y := by
  have ends := @offset_lt image encodingSize x y inside
  have channels : seifChannels (readSeifHeader image).encoding
      (fun byte => seifData image ((image.offset encodingSize x y + byte) % 2 ^ 32)) =
      seifChannels (readSeifHeader image).encoding
        fun byte => seifData image (image.offset encodingSize x y + byte) := by
    refine seifChannels_congr (checkSeif_known valid) ?_
    intro byte below
    rw [Nat.mod_eq_of_lt (by omega)]
  unfold SeifBytes.callAt
  dsimp only [id]
  rw [channels]

/-! The result -/

theorem passes_iff_of_valid (valid : checkSeif image = .ok encodingSize) :
    (∀ x y, image.Has x y → Passes image encodingSize x y) ↔
      image.dataSize encodingSize < 2 ^ 32 ∨
        (2 ^ 32 - 1) / encodingSize.toNat * encodingSize.toNat ≤
          image.dataSize encodingSize % 2 ^ 32 :=
  passes_iff ((seifEncodingSize_cases (checkSeif_known valid)).imp And.right And.right)

theorem harmless_of_paintsRight (valid : checkSeif image = .ok encodingSize)
    (paints : PaintsRight fb image encodingSize (drawImage fb image memory)) :
    OffsetsHarmless fb image encodingSize := by
  have passes : ∀ x y, image.Has x y → Passes image encodingSize x y :=
    fun x y inside => passes_of_inBounds valid paints.inBounds inside
  rcases (passes_iff_of_valid valid).mp passes with small | high
  · exact Or.inl small
  · refine Or.inr ⟨high, ?_⟩
    intro x y inside shows
    have painted := paints.painted x y inside shows
    rw [drawImage_passes valid passes] at painted
    exact List.singleton_inj.mp ((filter_calls inside).symm.trans painted)

theorem paintsRight_of_harmless (valid : checkSeif image = .ok encodingSize)
    (harmless : OffsetsHarmless fb image encodingSize) :
    PaintsRight fb image encodingSize (drawImage fb image memory) := by
  have passes := (passes_iff_of_valid valid).mpr (harmless.imp_right And.left)
  have same : ∀ x y, image.Has x y → fb.Shows x y →
      image.callAt encodingSize (· % 2 ^ 32) x y = image.callAt encodingSize id x y := by
    intro x y inside shows
    rcases harmless with small | ⟨-, same⟩
    · exact callAt_small valid small inside
    · exact same x y inside shows
  rw [drawImage_passes valid passes]
  refine ⟨?_, ?_, ?_⟩
  · rintro ⟨⟩
  · intro x y inside shows
    rw [← same x y inside shows]
    exact filter_calls inside
  · intro apart x y inside shows
    rw [← same x y inside shows]
    have membership : image.callAt encodingSize (· % 2 ^ 32) x y ∈ image.calls encodingSize :=
      List.mem_map.mpr ⟨(y, x), SeifBytes.mem_positions.mpr inside, rfl⟩
    have shown := @load32_foldl_putpixel fb memory apart _ nodup_calls _ membership
    rw [SeifBytes.callAt_x, SeifBytes.callAt_y] at shown
    exact shown shows

/-- `draw_image` paints an image it accepts from its exact offsets if and only if the
offsets do not wrap around, or do no harm where they do. -/
theorem drawImage_paints_iff (fb : LimineFramebuffer) (memory : Memory)
    (valid : checkSeif image = .ok encodingSize) :
    PaintsRight fb image encodingSize (drawImage fb image memory) ↔
      OffsetsHarmless fb image encodingSize :=
  ⟨harmless_of_paintsRight valid, paintsRight_of_harmless valid⟩

/-- A framebuffer of 1024 by 768 pixels. -/
def sampleFramebuffer : LimineFramebuffer :=
  ⟨0xffff8000fd000000#64, 1024#64, 768#64, 4096#64, 32#16⟩

/-- One pixel. -/
def dotImage : SeifBytes := fun offset =>
  [0x53#8, 0x45#8, 0x49#8, 0x46#8, 0#8, 2#8, 0x4c#8, 0x45#8, 0x41#8, 0x46#8, 0x53#8, 0x45#8,
    0x49#8, 0x46#8, 1#8, 0#8, 0#8, 0#8, 1#8, 0#8, 0#8, 0#8, 1#8, 0#8, 0#8, 0#8, 1#8, 0#8, 0#8, 0#8,
    1#8, 0#8, 0#8, 0#8, 1#8, 0#8, 0#8, 0#8, 0x11#8, 0x22#8, 0x33#8].getD offset 0#8

theorem drawImage_paints_iff_dot :
    PaintsRight sampleFramebuffer dotImage 3#8
      (drawImage sampleFramebuffer dotImage fun _ => 0#8) :=
  (drawImage_paints_iff sampleFramebuffer (fun _ => 0#8) rfl).mpr (Or.inl (by decide))

/-- 65536 by 16384 pixels of four bytes, all 0: 4 GiB of data. -/
def hugeImage : SeifBytes := fun offset =>
  [0x53#8, 0x45#8, 0x49#8, 0x46#8, 0#8, 1#8, 0x4c#8, 0x45#8, 0x41#8, 0x46#8, 0x53#8, 0x45#8,
    0x49#8, 0x46#8, 0#8, 0#8, 1#8, 0#8, 0#8, 0x40#8, 0#8, 0#8, 1#8, 0#8, 0#8, 0#8, 0#8, 0#8, 0#8,
    0x40#8, 0#8, 0#8, 1#8, 0#8, 0#8, 0x40#8, 0#8, 0#8].getD offset 0#8

/-- The bound of a valid image wraps around to 0, so that its first pixel is rejected. -/
theorem drawImage_rejects_huge :
    checkSeif hugeImage = .ok 4#8 ∧ hugeImage.dataSize 4#8 = 2 ^ 32 ∧
      (drawImage sampleFramebuffer hugeImage fun _ => 0#8).1 = some .outOfBounds ∧
      ¬PaintsRight sampleFramebuffer hugeImage 4#8
        (drawImage sampleFramebuffer hugeImage fun _ => 0#8) := by
  have valid : checkSeif hugeImage = .ok 4#8 := rfl
  have first : hugeImage.Has 0#32 0#32 := by
    unfold SeifBytes.Has
    decide
  have fails : ¬Passes hugeImage 4#8 0#32 0#32 := by
    unfold Passes
    decide
  have rejected : (drawImage sampleFramebuffer hugeImage fun _ => 0#8).1 = some .outOfBounds := by
    by_contra inBounds
    exact fails (passes_of_inBounds valid inBounds first)
  exact ⟨valid, by decide, rejected, fun paints => paints.inBounds rejected⟩

end Nekonix
