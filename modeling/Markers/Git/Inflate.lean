/-!
# Inflating zlib streams

`inflate?` unpacks a zlib stream: a header, deflate blocks, and a checksum of the data. Blocks hold
bytes as they are, or symbols of a prefix code that stand for bytes and for copies of earlier data.
Bits are read from the low end of each byte.
-/

namespace Markers.Git

/-- The bits of bytes, in the order in which they are read. -/
def bitsOf (bytes : List UInt8) : List Bool :=
  bytes.flatMap fun b => (List.range 8).map fun i => b.toNat.testBit i

/-- The number in the next bits, the low end first, and what follows. -/
def number? : Nat → List Bool → Option (Nat × List Bool)
  | 0, bits => some (0, bits)
  | _ + 1, [] => none
  | n + 1, b :: bits => (number? n bits).map fun (high, rest) => (b.toNat + 2 * high, rest)

/-! ## Prefix codes -/

/-- A code word: its length, its bits as a number, and the symbol it stands for. -/
structure CodeWord where
  length : Nat
  code : Nat
  symbol : Nat

/-- The symbols whose words have a length. -/
def symbolsOf (lengths : List Nat) (length : Nat) : List Nat :=
  (lengths.zipIdx.filter fun entry => entry.1 == length).map (·.2)

/-- The canonical code of word lengths, the shortest words first; a length of zero stands for no
word. `code` is the first word of the next length. -/
def codeFrom (lengths : List Nat) : List Nat → Nat → List CodeWord
  | [], _ => []
  | length :: more, code =>
    let symbols := symbolsOf lengths length
    symbols.zipIdx.map (fun (symbol, i) => ⟨length, code + i, symbol⟩) ++
      codeFrom lengths more (2 * (code + symbols.length))

/-- The canonical code of word lengths. -/
def codeOf (lengths : List Nat) : List CodeWord :=
  codeFrom lengths ((List.range 15).map (· + 1)) 0

/-- The symbol of the next word, and what follows. `length` and `code` are what has been read. -/
def symbol? (words : List CodeWord) (length code : Nat) : List Bool → Option (Nat × List Bool)
  | [] => none
  | b :: bits =>
    let code := 2 * code + b.toNat
    match words.find? fun word => word.length == length + 1 && word.code == code with
    | some word => some (word.symbol, bits)
    | none => symbol? words (length + 1) code bits

/-! ## Blocks -/

/-- The base and the number of extra bits of the copy length for symbols from 257 on. -/
def lengthTable : List (Nat × Nat) :=
  [(3, 0), (4, 0), (5, 0), (6, 0), (7, 0), (8, 0), (9, 0), (10, 0), (11, 1), (13, 1), (15, 1),
    (17, 1), (19, 2), (23, 2), (27, 2), (31, 2), (35, 3), (43, 3), (51, 3), (59, 3), (67, 4),
    (83, 4), (99, 4), (115, 4), (131, 5), (163, 5), (195, 5), (227, 5), (258, 0)]

/-- The base and the number of extra bits of the copy distance for each distance symbol. -/
def distanceTable : List (Nat × Nat) :=
  [(1, 0), (2, 0), (3, 0), (4, 0), (5, 1), (7, 1), (9, 2), (13, 2), (17, 3), (25, 3), (33, 4),
    (49, 4), (65, 5), (97, 5), (129, 6), (193, 6), (257, 7), (385, 7), (513, 8), (769, 8),
    (1025, 9), (1537, 9), (2049, 10), (3073, 10), (4097, 11), (6145, 11), (8193, 12), (12289, 12),
    (16385, 13), (24577, 13)]

/-- A base from a table with its extra bits added. -/
def extended? (table : List (Nat × Nat)) (symbol : Nat) (bits : List Bool) :
    Option (Nat × List Bool) := do
  let (base, extra) ← table[symbol]?
  let (more, bits) ← number? extra bits
  return (base + more, bits)

/-- Data, the last byte first, with a copy of what lies `distance` bytes back. -/
def copyBack (distance : Nat) : Nat → List UInt8 → Option (List UInt8)
  | 0, data => some data
  | n + 1, data => do
    let b ← data[distance - 1]?
    copyBack distance n (b :: data)

/-- The data of a block of symbols behind earlier data, the last byte first. Every symbol takes at
least one bit, so `steps` is enough when it is the number of bits. -/
def symbols? (literals distances : List CodeWord) :
    Nat → List UInt8 → List Bool → Option (List UInt8 × List Bool)
  | 0, _, _ => none
  | steps + 1, data, bits => do
    let (symbol, bits) ← symbol? literals 0 0 bits
    if symbol < 256 then symbols? literals distances steps (UInt8.ofNat symbol :: data) bits
    else if symbol = 256 then return (data, bits)
    else
      let (length, bits) ← extended? lengthTable (symbol - 257) bits
      let (symbol, bits) ← symbol? distances 0 0 bits
      let (distance, bits) ← extended? distanceTable symbol bits
      let data ← copyBack distance length data
      symbols? literals distances steps data bits

/-- The next bytes, pushed onto data. -/
def rawBytes? : Nat → List UInt8 → List Bool → Option (List UInt8 × List Bool)
  | 0, data, bits => some (data, bits)
  | n + 1, data, bits => do
    let (b, bits) ← number? 8 bits
    rawBytes? n (UInt8.ofNat b :: data) bits

/-- A block of bytes as they are. It starts at a whole byte, and its length is given twice. -/
def storedBlock? (data : List UInt8) (bits : List Bool) : Option (List UInt8 × List Bool) := do
  let (length, bits) ← number? 16 (bits.drop (bits.length % 8))
  let (complement, bits) ← number? 16 bits
  if length + complement ≠ 65535 then none
  rawBytes? length data bits

/-- The word lengths of the fixed code. -/
def fixedLengths : List Nat :=
  List.replicate 144 8 ++ List.replicate 112 9 ++ List.replicate 24 7 ++ List.replicate 8 8

/-- Word lengths that are themselves coded, with symbols that repeat a length. -/
def wordLengths? (words : List CodeWord) (wanted : Nat) :
    Nat → List Nat → List Bool → Option (List Nat × List Bool)
  | 0, _, _ => none
  | steps + 1, lengths, bits =>
    if wanted ≤ lengths.length then
      if lengths.length = wanted then some (lengths.reverse, bits) else none
    else do
      let (symbol, bits) ← symbol? words 0 0 bits
      if symbol < 16 then wordLengths? words wanted steps (symbol :: lengths) bits
      else
        let (value, least, extra) ←
          if symbol = 16 then lengths.head?.map fun last => (last, 3, 2)
          else if symbol = 17 then some (0, 3, 3)
          else some (0, 11, 7)
        let (more, bits) ← number? extra bits
        wordLengths? words wanted steps (List.replicate (least + more) value ++ lengths) bits

/-- The order in which the lengths of the words for lengths are given. -/
def lengthOrder : List Nat :=
  [16, 17, 18, 0, 8, 7, 9, 6, 10, 5, 11, 4, 12, 3, 13, 2, 14, 1, 15]

/-- Several numbers of three bits. -/
def threeBits? : Nat → List Bool → Option (List Nat × List Bool)
  | 0, bits => some ([], bits)
  | n + 1, bits => do
    let (first, bits) ← number? 3 bits
    let (rest, bits) ← threeBits? n bits
    return (first :: rest, bits)

/-- The codes at the start of a block that brings its own, and what follows. -/
def ownCodes? (bits : List Bool) : Option (List CodeWord × List CodeWord × List Bool) := do
  let (literals, bits) ← number? 5 bits
  let (distances, bits) ← number? 5 bits
  let (count, bits) ← number? 4 bits
  let (given, bits) ← threeBits? (count + 4) bits
  let placed := lengthOrder.zip given
  let lengths := (List.range 19).map fun symbol => (placed.lookup symbol).getD 0
  let (all, bits) ←
    wordLengths? (codeOf lengths) (literals + 257 + (distances + 1)) (bits.length + 1) [] bits
  return (codeOf (all.take (literals + 257)), codeOf (all.drop (literals + 257)), bits)

/-- The data of all blocks behind earlier data, the last byte first. -/
def blocks? : Nat → List UInt8 → List Bool → Option (List UInt8 × List Bool)
  | 0, _, _ => none
  | steps + 1, data, bits => do
    let (last, bits) ← number? 1 bits
    let (form, bits) ← number? 2 bits
    let (data, bits) ←
      if form = 0 then storedBlock? data bits
      else if form = 1 then
        symbols? (codeOf fixedLengths) (codeOf (List.replicate 30 5)) bits.length data bits
      else if form = 2 then do
        let (literals, distances, bits) ← ownCodes? bits
        symbols? literals distances bits.length data bits
      else none
    if last = 1 then return (data, bits) else blocks? steps data bits

/-- The Adler checksum of data. -/
def adler (data : List UInt8) : Nat :=
  let (a, b) := data.foldl
    (fun (a, b) byte =>
      let a := (a + byte.toNat) % 65521
      (a, (b + a) % 65521))
    (1, 0)
  b * 65536 + a

/-- The data of a zlib stream. -/
def inflate? : List UInt8 → Option (List UInt8)
  | method :: flags :: rest => do
    if method.toNat % 16 ≠ 8 ∨ (method.toNat * 256 + flags.toNat) % 31 ≠ 0 then none
    if flags.toNat.testBit 5 then none
    let bits := bitsOf rest
    let (data, bits) ← blocks? bits.length [] bits
    let data := data.reverse
    let checksum ← rawBytes? 4 [] (bits.drop (bits.length % 8))
    if checksum.1.reverse.foldl (fun n b => n * 256 + b.toNat) 0 = adler data then data else none
  | _ => none

end Markers.Git
