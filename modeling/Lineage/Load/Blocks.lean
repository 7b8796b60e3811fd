import Lineage.Text.Lines
import Lineage.Yaml.Glyph

/-!
# Files in blocks

A data file is read block by block while its document is being read, so that what is wrong with a
block shows only once the block is needed. A block is a number of characters. The bytes behind it
are fetched in chunks; a chunk is decoded as a whole, and what is left over of its characters is
kept for the blocks to come. Bytes that are no UTF-8 spoil the block whose chunk brings them in.
-/

namespace Lineage.Load

/-- A file that is being read. -/
structure Feed where
  bytes : ByteArray
  /-- The number of bytes fetched so far. -/
  fetched : Nat := 0
  /-- The bytes at the end of the last chunk that start an unfinished character. -/
  unfinished : ByteArray := .empty
  /-- Whether the last chunk ended in a carriage return, which a line feed may still follow. -/
  afterReturn : Bool := false
  /-- The characters decoded and not handed out yet. -/
  ready : List Char := []
  /-- The bytes and the characters of the last chunk. -/
  lastChunk : Nat × Nat := (0, 0)
deriving Inhabited

/-- The number of bytes in a character that starts with the byte. -/
def encodedLength (b : UInt8) : Nat :=
  if b < 0xC0 then 1 else if b < 0xE0 then 2 else if b < 0xF0 then 3 else 4

/-- Whether further bytes can make one character of these. Which byte may come second hangs on the
first, and one end of the range of bytes that continue a character is always among them. -/
def isUnfinished (b : List UInt8) : Bool :=
  let missing := encodedLength (b.headD 0) - b.length
  0 < missing && [0x80, 0xBF].any fun last =>
    (String.fromUTF8? ⟨(b ++ List.replicate missing last).toArray⟩).isSome

/-- The number of bytes at the end that start an unfinished character, which are at most three. -/
def unfinishedLength (b : ByteArray) : Nat :=
  (([1, 2, 3] : List Nat).find? fun n =>
    n ≤ b.size && isUnfinished (b.extract (b.size - n) b.size).toList).getD 0

namespace Feed

/-- The least number of bytes fetched at a time. -/
def leastChunk : Nat :=
  8192

/-- The number of bytes fetched to obtain so many characters: enough of them if characters take as
many bytes as in the last chunk. -/
def chunkSize (f : Feed) (wanted : Nat) : Nat :=
  let (bytes, characters) := f.lastChunk
  max leastChunk
    (if 0 < characters && characters < bytes then bytes * wanted / characters else wanted)

/-- Fetches and decodes a chunk; an empty chunk means the end of the file. -/
def fetch (f : Feed) (wanted : Nat) : Option Feed :=
  let chunk := f.bytes.extract f.fetched (f.fetched + f.chunkSize wanted)
  let given := f.unfinished ++ chunk
  let kept := if chunk.isEmpty then 0 else unfinishedLength given
  let whole := given.size - kept
  (String.fromUTF8? (given.extract 0 whole)).map fun s =>
    let decoded := (if f.afterReturn then ['\r'] else []) ++ s.toList
    let afterReturn := !chunk.isEmpty && decoded.getLast? == some '\r'
    let characters := Text.unifyNewlines (if afterReturn then decoded.dropLast else decoded)
    { f with
      fetched := f.fetched + chunk.size
      unfinished := given.extract whole given.size
      afterReturn
      ready := f.ready ++ characters
      lastChunk := (chunk.size, characters.length) }

/-- Fetches chunks until so many characters are ready, or the file ends; `bound` is greater than
the number of chunks. -/
def prepare (size : Nat) : (bound : Nat) → Feed → Option Feed
  | 0, f => some f
  | bound + 1, f =>
    if size ≤ f.ready.length then some f
    else do
      let g ← f.fetch (size - f.ready.length)
      if g.fetched == f.fetched && g.ready.length == f.ready.length then some g
      else prepare size bound g

/-- The number of characters in a block. -/
def blockSize : Nat :=
  4096

/-- The next block, which is shorter only at the end of the file. -/
def block (f : Feed) : Option (List Char × Feed) :=
  (f.prepare blockSize (f.bytes.size + 3)).map fun f =>
    (f.ready.take blockSize, { f with ready := f.ready.drop blockSize })

/-- The next passage that is looked through for characters that no document may hold: at first two
blocks, later one. -/
def passage (f : Feed) (first : Bool) : Option (List Char × Feed) := do
  let (cs, f) ← f.block
  if first then
    let (more, f) ← f.block
    some (cs ++ more, f)
  else some (cs, f)

/-- What can be read of the rest of a file, behind the passages before, which are kept the latest
first; each passage takes at least one character, so `bound` may be the number of bytes. -/
def readRest : (bound : Nat) → Feed → (first : Bool) → List (List Char) → Yaml.Source
  | 0, _, _, before => { chars := before.reverse.flatten }
  | bound + 1, f, first, before =>
    let broken (fault : Yaml.Fault) : Yaml.Source :=
      { chars := before.reverse.flatten, fault := some fault }
    match f.passage first with
    | none => broken .unreadable
    | some ([], _) => { chars := before.reverse.flatten }
    | some (cs, f) =>
      if cs.all Yaml.isAllowed then readRest bound f false (cs :: before) else broken .malformed

end Feed

/-- The characters of a data file, up to the first block that cannot be read. -/
def sourceOfBytes (bytes : ByteArray) : Yaml.Source :=
  ({ bytes } : Feed).readRest (bytes.size + 2) true []

end Lineage.Load
