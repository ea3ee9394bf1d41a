/-!
# Digests

The MD5 digest of a list of bytes: the message is padded to blocks of sixteen words, and each block
is mixed into a state of four words in sixty-four rounds.
-/

namespace DiffLang.Digest

/-- How far the words of a round are rotated, in turns of four. -/
def rotations : Array (Array UInt32) :=
  #[#[7, 12, 17, 22], #[5, 9, 14, 20], #[4, 11, 16, 23], #[6, 10, 15, 21]]

/-- The constant of each round: the sine of its number, as a fraction of 32 bits. -/
def constants : Array UInt32 :=
  #[
    0xd76aa478, 0xe8c7b756, 0x242070db, 0xc1bdceee, 0xf57c0faf, 0x4787c62a,
    0xa8304613, 0xfd469501, 0x698098d8, 0x8b44f7af, 0xffff5bb1, 0x895cd7be,
    0x6b901122, 0xfd987193, 0xa679438e, 0x49b40821, 0xf61e2562, 0xc040b340,
    0x265e5a51, 0xe9b6c7aa, 0xd62f105d, 0x02441453, 0xd8a1e681, 0xe7d3fbc8,
    0x21e1cde6, 0xc33707d6, 0xf4d50d87, 0x455a14ed, 0xa9e3e905, 0xfcefa3f8,
    0x676f02d9, 0x8d2a4c8a, 0xfffa3942, 0x8771f681, 0x6d9d6122, 0xfde5380c,
    0xa4beea44, 0x4bdecfa9, 0xf6bb4b60, 0xbebfbc70, 0x289b7ec6, 0xeaa127fa,
    0xd4ef3085, 0x04881d05, 0xd9d4d039, 0xe6db99e5, 0x1fa27cf8, 0xc4ac5665,
    0xf4292244, 0x432aff97, 0xab9423a7, 0xfc93a039, 0x655b59c3, 0x8f0ccc92,
    0xffeff47d, 0x85845dd1, 0x6fa87e4f, 0xfe2ce6e0, 0xa3014314, 0x4e0811a1,
    0xf7537e82, 0xbd3af235, 0x2ad7d2bb, 0xeb86d391]

structure State where
  a : UInt32 := 0x67452301
  b : UInt32 := 0xefcdab89
  c : UInt32 := 0x98badcfe
  d : UInt32 := 0x10325476

def rotate (x n : UInt32) : UInt32 := (x <<< n) ||| (x >>> (32 - n))

/-- The words of a round are combined in one of four ways, and with one of the words of the block. -/
def combine (s : State) (i : Nat) : UInt32 × Nat :=
  if i < 16 then ((s.b &&& s.c) ||| (~~~s.b &&& s.d), i)
  else if i < 32 then ((s.d &&& s.b) ||| (~~~s.d &&& s.c), (5 * i + 1) % 16)
  else if i < 48 then (s.b ^^^ s.c ^^^ s.d, (3 * i + 5) % 16)
  else (s.c ^^^ (s.b ||| ~~~s.d), (7 * i) % 16)

def round (block : Array UInt32) (s : State) (i : Nat) : State :=
  let (f, word) := combine s i
  let mixed := f + s.a + constants.getD i 0 + block.getD word 0
  let turn := (rotations.getD (i / 16) #[]).getD (i % 4) 0
  { a := s.d, b := s.b + rotate mixed turn, c := s.b, d := s.c }

def mix (s : State) (block : Array UInt32) : State :=
  let t := (List.range 64).foldl (round block) s
  { a := s.a + t.a, b := s.b + t.b, c := s.c + t.c, d := s.d + t.d }

/-- The bytes of a number, the lowest first. -/
def lowBytes (count n : Nat) : List UInt8 :=
  (List.range count).map fun i => UInt8.ofNat (n / Nat.pow 256 i)

/-- A message with the mark of its end, filled up to whole blocks, with its length in bits last. -/
def pad (message : List UInt8) : List UInt8 :=
  let zeros := (119 - message.length % 64) % 64
  message ++ [0x80] ++ List.replicate zeros 0 ++ lowBytes 8 (8 * message.length)

def words : List UInt8 → List UInt32
  | w :: x :: y :: z :: rest =>
    (w.toUInt32 ||| (x.toUInt32 <<< 8) ||| (y.toUInt32 <<< 16) ||| (z.toUInt32 <<< 24)) ::
      words rest
  | _ => []

def blocks : Nat → List UInt32 → List (Array UInt32)
  | 0, _ => []
  | n + 1, ws => (ws.take 16).toArray :: blocks n (ws.drop 16)

def md5 (message : List UInt8) : List UInt8 :=
  let ws := words (pad message)
  let s := (blocks (ws.length / 16) ws).foldl mix {}
  [s.a, s.b, s.c, s.d].flatMap fun w => lowBytes 4 w.toNat

end DiffLang.Digest
