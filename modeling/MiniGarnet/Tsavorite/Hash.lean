import MiniGarnet.Tsavorite.Record

/-! # Key hashing

    The wyhash-style mixer of `hash.rs`, on natural numbers below `2 ^ 64`
    with the truncations written out.
-/

namespace Tsavorite

def P0 : ℕ := 0xa0761d6478bd642f

def P1 : ℕ := 0xe7037ed1a0b428db

def P2 : ℕ := 0x8ebc6af09c88c6e3

/-- 64×64→128-bit multiply, folded. -/
def mum (a b : ℕ) : ℕ :=
  let r := a * b
  r % 2 ^ 64 ^^^ r / 2 ^ 64

/-- Little-endian integer of a byte list. -/
def readLe : List UInt8 → ℕ
  | [] => 0
  | b :: bs => b.toNat + 256 * readLe bs

def readU64 (b : List UInt8) : ℕ := readLe (b.take 8)

def readU32 (b : List UInt8) : ℕ := readLe (b.take 4)

def rotateLeft (w k : ℕ) : ℕ := (w <<< k) % 2 ^ 64 ||| w >>> (64 - k)

/-- The loop over 16-byte blocks; the first argument bounds the number of blocks. -/
def hashBlocks : ℕ → List UInt8 → ℕ → List UInt8 × ℕ
  | 0, p, seed => (p, seed)
  | n + 1, p, seed =>
    if 16 ≤ p.length then
      hashBlocks n (p.drop 16) (mum (readU64 p ^^^ P1) (readU64 (p.drop 8) ^^^ seed))
    else (p, seed)

/-- The last, short block as two words. -/
def hashTail (p : List UInt8) : ℕ × ℕ :=
  let n := p.length
  let byte (i : ℕ) : ℕ := (p.getD i 0).toNat
  if n = 0 then (0, 0)
  else if n ≤ 3 then (byte 0 <<< 16 ||| byte (n >>> 1) <<< 8 ||| byte (n - 1), 0)
  else if n ≤ 7 then (readU32 p, readU32 (p.drop (n - 4)))
  else (readU64 p, readU64 (p.drop (n - 8)))

def hash64 (key : Key) : ℕ :=
  let len := key.length
  let (p, seed) := hashBlocks (len / 16) key (P0 ^^^ (len * P1) % 2 ^ 64)
  let (a, b) := hashTail p
  let h := mum (a ^^^ P1) (b ^^^ seed)
  mum (h ^^^ P2) (rotateLeft h 29 ^^^ len)

end Tsavorite
