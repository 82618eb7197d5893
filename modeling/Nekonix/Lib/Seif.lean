import Nekonix.Lib.Types

/-!
# SEIF images

The packed layout of `lib/seif.h`.  An image is the bytes from a pointer on; of the
header only the fields that the kernel reads are kept.
-/

namespace Nekonix

/-- The bytes of an image, by their offset from its start. -/
abbrev SeifBytes := Nat → U8

/-- A packed `_u32`. -/
def SeifBytes.u32At (image : SeifBytes) (offset : Nat) : U32 :=
  image (offset + 3) ++ image (offset + 2) ++ image (offset + 1) ++ image offset

/-- `SEIF_Header` without `flags`, `meta.signature` and `chunk_size`. -/
structure SeifHeader where
  magic : List U8
  encoding : U8
  width : U32
  height : U32
  chunkCount : U32

/-- `SEIF_ChunkHeader` -/
structure SeifChunkHeader where
  width : U32
  height : U32

/-- `(SEIF_Header *)image` -/
def readSeifHeader (image : SeifBytes) : SeifHeader where
  magic := [image 0, image 1, image 2, image 3]
  encoding := image 5
  width := image.u32At 14
  height := image.u32At 18
  chunkCount := image.u32At 22

/-- `(SEIF_ChunkHeader *)(image + sizeof(SEIF_Header))` -/
def readSeifChunkHeader (image : SeifBytes) : SeifChunkHeader where
  width := image.u32At 30
  height := image.u32At 34

/-- `image + sizeof(SEIF_Header) + sizeof(SEIF_ChunkHeader)` -/
def seifData (image : SeifBytes) : SeifBytes := fun offset => image (38 + offset)

/-- `SEIF_ENCODING_RGBA` -/
def seifEncodingRgba : U8 := 0x01#8

/-- `SEIF_ENCODING_RGB` -/
def seifEncodingRgb : U8 := 0x02#8

/-- `SEIF_ENCODING_ARGB` -/
def seifEncodingArgb : U8 := 0x03#8

/-- The colour channels of a pixel. -/
structure SeifColor where
  r : U8
  g : U8
  b : U8
  a : U8
deriving DecidableEq

/-- The channels of a pixel with the given bytes. -/
def seifChannels (encoding : U8) (byte : Nat → U8) : SeifColor :=
  if encoding = seifEncodingRgb then
    { r := byte 0, g := byte 1, b := byte 2, a := 255#8 }
  else if encoding = seifEncodingRgba then
    { r := byte 0, g := byte 1, b := byte 2, a := byte 3 }
  else if encoding = seifEncodingArgb then
    { r := byte 1, g := byte 2, b := byte 3, a := byte 0 }
  else
    { r := 0#8, g := 0#8, b := 0#8, a := 255#8 }

/-- The bytes of one pixel, if the encoding is known. -/
def seifEncodingSize (encoding : U8) : Option U8 :=
  if encoding = seifEncodingRgb then some 3#8
  else if encoding = seifEncodingRgba ∨ encoding = seifEncodingArgb then some 4#8
  else none

variable {encoding size : U8} {byte other : Nat → U8}

theorem seifEncodingSize_cases (known : seifEncodingSize encoding = some size) :
    encoding = seifEncodingRgb ∧ size = 3#8 ∨
      (encoding = seifEncodingRgba ∨ encoding = seifEncodingArgb) ∧ size = 4#8 := by
  unfold seifEncodingSize at known
  split_ifs at known with isRgb isFour
  · exact Or.inl ⟨isRgb, (Option.some.inj known).symm⟩
  · exact Or.inr ⟨isFour, (Option.some.inj known).symm⟩

/-- Only the bytes of the pixel itself matter. -/
theorem seifChannels_congr (known : seifEncodingSize encoding = some size)
    (agree : ∀ offset < size.toNat, byte offset = other offset) :
    seifChannels encoding byte = seifChannels encoding other := by
  rcases seifEncodingSize_cases known with ⟨rfl, rfl⟩ | ⟨rfl | rfl, rfl⟩
  · have first := agree 0 (by decide)
    have second := agree 1 (by decide)
    have third := agree 2 (by decide)
    simp [seifChannels, first, second, third]
  all_goals
    have first := agree 0 (by decide)
    have second := agree 1 (by decide)
    have third := agree 2 (by decide)
    have fourth := agree 3 (by decide)
    simp [seifChannels, first, second, third, fourth]

end Nekonix
