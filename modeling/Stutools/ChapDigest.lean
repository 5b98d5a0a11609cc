-- The digests CHAP can use (CHAP_A 5 MD5, 6 SHA-1, 7 SHA-256, 8 SHA3-256), block by
-- block as the initiator computes them, and the CHAP digest over the identifier, the
-- secret and the challenge.
import Stutools.ChapBinary

open bytes

namespace stutools.chap

def MD5 : UInt32 := 5
def SHA1 : UInt32 := 6
def SHA256 : UInt32 := 7
def SHA3_256 : UInt32 := 8

/-! ## Blocks and words -/

/-- `u32::rotate_left`. -/
def rotate_left32 (x n : UInt32) : UInt32 := x <<< n ||| x >>> (32 - n)

/-- `u32::rotate_right`. -/
def rotate_right32 (x n : UInt32) : UInt32 := x >>> n ||| x <<< (32 - n)

/-- `u64::rotate_left`; a shift by 64 is one by 0. -/
def rotate_left64 (x n : UInt64) : UInt64 := x <<< n ||| x >>> (64 - n)

/-- The zero bytes after the byte 0x80, up to 8 bytes before the end of a block. -/
def zeros (length : Nat) : Nat := (119 - length % 64) % 64

/-- The input with the byte 0x80, its zeros and the length of the input in bits. -/
def padded_message (of_length : Nat → List UInt8) (input : List UInt8) : List UInt8 :=
  input ++ [0x80] ++ List.replicate (zeros input.length) 0 ++ of_length (8 * input.length)

/-- `chunks(n)` of a message of whole chunks. -/
def blocks (n : Nat) (message : List UInt8) : List (List UInt8) :=
  (List.range (message.length / n)).map fun i => slice message (n * i) n

/-- The words of a block, by the byte order of its digest. -/
def words (read : List UInt8 → Nat) (block : List UInt8) : List UInt32 :=
  (blocks 4 block).map fun word => UInt32.ofNat (read word)

/-- The chaining words with those of a block added. -/
def add_words (h v : List UInt32) : List UInt32 := List.zipWith (· + ·) h v

/-! ## SHA-256 -/

def SHA256_K : List UInt32 := [
  0x428a2f98, 0x71374491, 0xb5c0fbcf, 0xe9b5dba5, 0x3956c25b, 0x59f111f1, 0x923f82a4, 0xab1c5ed5,
  0xd807aa98, 0x12835b01, 0x243185be, 0x550c7dc3, 0x72be5d74, 0x80deb1fe, 0x9bdc06a7, 0xc19bf174,
  0xe49b69c1, 0xefbe4786, 0x0fc19dc6, 0x240ca1cc, 0x2de92c6f, 0x4a7484aa, 0x5cb0a9dc, 0x76f988da,
  0x983e5152, 0xa831c66d, 0xb00327c8, 0xbf597fc7, 0xc6e00bf3, 0xd5a79147, 0x06ca6351, 0x14292967,
  0x27b70a85, 0x2e1b2138, 0x4d2c6dfc, 0x53380d13, 0x650a7354, 0x766a0abb, 0x81c2c92e, 0x92722c85,
  0xa2bfe8a1, 0xa81a664b, 0xc24b8b70, 0xc76c51a3, 0xd192e819, 0xd6990624, 0xf40e3585, 0x106aa070,
  0x19a4c116, 0x1e376c08, 0x2748774c, 0x34b0bcb5, 0x391c0cb3, 0x4ed8aa4a, 0x5b9cca4f, 0x682e6ff3,
  0x748f82ee, 0x78a5636f, 0x84c87814, 0x8cc70208, 0x90befffa, 0xa4506ceb, 0xbef9a3f7, 0xc67178f2]

/-- The message schedule: 16 words of the block and 48 more. -/
def sha256_schedule (block : List UInt8) : List UInt32 :=
  (List.range' 16 48).foldl (fun w i =>
    let x := w.getD (i - 15) 0
    let y := w.getD (i - 2) 0
    let s0 := rotate_right32 x 7 ^^^ rotate_right32 x 18 ^^^ x >>> 3
    let s1 := rotate_right32 y 17 ^^^ rotate_right32 y 19 ^^^ y >>> 10
    w ++ [w.getD (i - 16) 0 + s0 + w.getD (i - 7) 0 + s1]) (words of_be block)

/-- One round over the eight working words. -/
def sha256_round (w : List UInt32) (v : List UInt32) (i : Nat) : List UInt32 :=
  let x := fun j => v.getD j 0
  let s1 := rotate_right32 (x 4) 6 ^^^ rotate_right32 (x 4) 11 ^^^ rotate_right32 (x 4) 25
  let ch := (x 4 &&& x 5) ^^^ (~~~x 4 &&& x 6)
  let t1 := x 7 + s1 + ch + SHA256_K.getD i 0 + w.getD i 0
  let s0 := rotate_right32 (x 0) 2 ^^^ rotate_right32 (x 0) 13 ^^^ rotate_right32 (x 0) 22
  let maj := (x 0 &&& x 1) ^^^ (x 0 &&& x 2) ^^^ (x 1 &&& x 2)
  let t2 := s0 + maj
  [t1 + t2, x 0, x 1, x 2, x 3 + t1, x 4, x 5, x 6]

def sha256_block (h : List UInt32) (block : List UInt8) : List UInt32 :=
  add_words h ((List.range 64).foldl (sha256_round (sha256_schedule block)) h)

/-- SHA-256 digest of `input`. -/
def sha256 (input : List UInt8) : List UInt8 :=
  let h := (blocks 64 (padded_message (be 8) input)).foldl sha256_block
    [0x6a09e667, 0xbb67ae85, 0x3c6ef372, 0xa54ff53a, 0x510e527f, 0x9b05688c, 0x1f83d9ab, 0x5be0cd19]
  h.flatMap fun word => be 4 word.toNat

/-! ## SHA-1 -/

/-- The message schedule: 16 words of the block and 64 more. -/
def sha1_schedule (block : List UInt8) : List UInt32 :=
  (List.range' 16 64).foldl (fun w i =>
    w ++ [rotate_left32 (w.getD (i - 3) 0 ^^^ w.getD (i - 8) 0 ^^^ w.getD (i - 14) 0 ^^^
      w.getD (i - 16) 0) 1]) (words of_be block)

/-- One round over the five working words. -/
def sha1_round (w : List UInt32) (v : List UInt32) (i : Nat) : List UInt32 :=
  let a := v.getD 0 0
  let b := v.getD 1 0
  let c := v.getD 2 0
  let d := v.getD 3 0
  let e := v.getD 4 0
  let (f, k) : UInt32 × UInt32 := match i / 20 with
    | 0 => ((b &&& c) ||| (~~~b &&& d), 0x5a827999)
    | 1 => (b ^^^ c ^^^ d, 0x6ed9eba1)
    | 2 => ((b &&& c) ||| (b &&& d) ||| (c &&& d), 0x8f1bbcdc)
    | _ => (b ^^^ c ^^^ d, 0xca62c1d6)
  [rotate_left32 a 5 + f + e + k + w.getD i 0, a, rotate_left32 b 30, c, d]

def sha1_block (h : List UInt32) (block : List UInt8) : List UInt32 :=
  add_words h ((List.range 80).foldl (sha1_round (sha1_schedule block)) h)

/-- SHA-1 digest of `input`. -/
def sha1 (input : List UInt8) : List UInt8 :=
  let h := (blocks 64 (padded_message (be 8) input)).foldl sha1_block
    [0x67452301, 0xefcdab89, 0x98badcfe, 0x10325476, 0xc3d2e1f0]
  h.flatMap fun word => be 4 word.toNat

/-! ## MD5 -/

/-- The rotation of each round. -/
def S (i : Nat) : UInt32 :=
  ([[7, 12, 17, 22], [5, 9, 14, 20], [4, 11, 16, 23], [6, 10, 15, 21]].getD (i / 16) []).getD (i % 4) 0

/-- The integer parts of 2^32 times the sine of 1 to 64, without its sign. -/
def MD5_K : List UInt32 := [
  0xd76aa478, 0xe8c7b756, 0x242070db, 0xc1bdceee, 0xf57c0faf, 0x4787c62a, 0xa8304613, 0xfd469501,
  0x698098d8, 0x8b44f7af, 0xffff5bb1, 0x895cd7be, 0x6b901122, 0xfd987193, 0xa679438e, 0x49b40821,
  0xf61e2562, 0xc040b340, 0x265e5a51, 0xe9b6c7aa, 0xd62f105d, 0x02441453, 0xd8a1e681, 0xe7d3fbc8,
  0x21e1cde6, 0xc33707d6, 0xf4d50d87, 0x455a14ed, 0xa9e3e905, 0xfcefa3f8, 0x676f02d9, 0x8d2a4c8a,
  0xfffa3942, 0x8771f681, 0x6d9d6122, 0xfde5380c, 0xa4beea44, 0x4bdecfa9, 0xf6bb4b60, 0xbebfbc70,
  0x289b7ec6, 0xeaa127fa, 0xd4ef3085, 0x04881d05, 0xd9d4d039, 0xe6db99e5, 0x1fa27cf8, 0xc4ac5665,
  0xf4292244, 0x432aff97, 0xab9423a7, 0xfc93a039, 0x655b59c3, 0x8f0ccc92, 0xffeff47d, 0x85845dd1,
  0x6fa87e4f, 0xfe2ce6e0, 0xa3014314, 0x4e0811a1, 0xf7537e82, 0xbd3af235, 0x2ad7d2bb, 0xeb86d391]

/-- One round over the four working words. -/
def md5_round (m : List UInt32) (v : List UInt32) (i : Nat) : List UInt32 :=
  let a := v.getD 0 0
  let b := v.getD 1 0
  let c := v.getD 2 0
  let d := v.getD 3 0
  let (f, g) : UInt32 × Nat := match i / 16 with
    | 0 => ((b &&& c) ||| (~~~b &&& d), i)
    | 1 => ((d &&& b) ||| (~~~d &&& c), (5 * i + 1) % 16)
    | 2 => (b ^^^ c ^^^ d, (3 * i + 5) % 16)
    | _ => (c ^^^ (b ||| ~~~d), 7 * i % 16)
  let f := f + a + MD5_K.getD i 0 + m.getD g 0
  [d, b + rotate_left32 f (S i), b, c]

def md5_block (state : List UInt32) (block : List UInt8) : List UInt32 :=
  add_words state ((List.range 64).foldl (md5_round (words of_le block)) state)

/-- MD5 digest of `input`. -/
def md5 (input : List UInt8) : List UInt8 :=
  let state := (blocks 64 (padded_message (le 8) input)).foldl md5_block
    [0x67452301, 0xefcdab89, 0x98badcfe, 0x10325476]
  state.flatMap fun word => le 4 word.toNat

/-! ## SHA3-256 -/

def KECCAK_RC : List UInt64 := [
  0x0000000000000001, 0x0000000000008082, 0x800000000000808a, 0x8000000080008000,
  0x000000000000808b, 0x0000000080000001, 0x8000000080008081, 0x8000000000008009,
  0x000000000000008a, 0x0000000000000088, 0x0000000080008009, 0x000000008000000a,
  0x000000008000808b, 0x800000000000008b, 0x8000000000008089, 0x8000000000008003,
  0x8000000000008002, 0x8000000000000080, 0x000000000000800a, 0x800000008000000a,
  0x8000000080008081, 0x8000000000008080, 0x0000000080000001, 0x8000000080008008]

def ROT (x y : Nat) : UInt64 :=
  ([[0, 36, 3, 41, 18], [1, 44, 10, 45, 2], [62, 6, 43, 15, 61], [28, 55, 25, 21, 56],
    [27, 20, 39, 8, 14]].getD x []).getD y 0

/-- One round of Keccak over 25 lanes (index x + 5y): theta, rho, pi, chi and iota. -/
def keccak_round (a : List UInt64) (rc : UInt64) : List UInt64 :=
  let c := (List.range 5).map fun x =>
    a.getD x 0 ^^^ a.getD (x + 5) 0 ^^^ a.getD (x + 10) 0 ^^^ a.getD (x + 15) 0 ^^^ a.getD (x + 20) 0
  let d := (List.range 5).map fun x =>
    c.getD ((x + 4) % 5) 0 ^^^ rotate_left64 (c.getD ((x + 1) % 5) 0) 1
  let a := (List.range 25).map fun i => a.getD i 0 ^^^ d.getD (i % 5) 0
  let b := (List.range 25).foldl (fun b i =>
    let x := i / 5
    let y := i % 5
    b.set (y + 5 * ((2 * x + 3 * y) % 5)) (rotate_left64 (a.getD (x + 5 * y) 0) (ROT x y)))
    (List.replicate 25 0)
  let a := (List.range 25).map fun i =>
    let x := i % 5
    let y := i / 5
    b.getD i 0 ^^^ (~~~b.getD ((x + 1) % 5 + 5 * y) 0 &&& b.getD ((x + 2) % 5 + 5 * y) 0)
  a.set 0 (a.getD 0 0 ^^^ rc)

/-- Keccak-f[1600]: 24 rounds. -/
def keccak_f (a : List UInt64) : List UInt64 := KECCAK_RC.foldl keccak_round a

def RATE : Nat := 136

/-- The input with its padding: the byte 6, zeros up to the rate, and the last byte's top
bit set. -/
def sha3_message (input : List UInt8) : List UInt8 :=
  let message := input ++ [0x06]
  let message := message ++ List.replicate ((RATE - message.length % RATE) % RATE) 0
  message.set (message.length - 1) (message.getD (message.length - 1) 0 ||| 0x80)

/-- A block is added to the first lanes of the state. -/
def sha3_block (state : List UInt64) (block : List UInt8) : List UInt64 :=
  let lanes := (blocks 8 block).map fun lane => UInt64.ofNat (of_le lane)
  keccak_f ((List.range 25).map fun i => state.getD i 0 ^^^ lanes.getD i 0)

/-- SHA3-256: the Keccak sponge with a 136-byte rate and the SHA-3 padding. -/
def sha3_256 (input : List UInt8) : List UInt8 :=
  let state := (blocks RATE (sha3_message input)).foldl sha3_block (List.replicate 25 0)
  (List.range 32).map fun i =>
    UInt8.ofNat ((state.getD (i / 8) 0).toNat >>> (8 * (i % 8)))

/-! ## The CHAP digest -/

/-- H(identifier || secret || challenge) for the chosen algorithm; none for an algorithm
this initiator does not implement. -/
def digest (algorithm : UInt32) (identifier : UInt8) (secret challenge : List UInt8) :
    Option (List UInt8) :=
  let input := [identifier] ++ secret ++ challenge
  if algorithm = MD5 then some (md5 input)
  else if algorithm = SHA1 then some (sha1 input)
  else if algorithm = SHA256 then some (sha256 input)
  else if algorithm = SHA3_256 then some (sha3_256 input)
  else none

/-- The CHAP_R response (`digest`) as "0x" and lowercase hex. -/
def response (algorithm : UInt32) (identifier : UInt8) (secret challenge : List UInt8) :
    Option (List Char) :=
  (digest algorithm identifier secret challenge).map encode_hex

/-- The algorithms this initiator implements. -/
def IMPLEMENTED : List UInt32 := [MD5, SHA1, SHA256, SHA3_256]

theorem digest_isSome_iff (algorithm : UInt32) (identifier : UInt8) (secret challenge : List UInt8) :
    (digest algorithm identifier secret challenge).isSome ↔ algorithm ∈ IMPLEMENTED := by
  unfold digest IMPLEMENTED
  dsimp only
  split_ifs <;> simp_all

/-! ## Whole blocks and whole digests -/

/-- The padding fills the last block and leaves 8 bytes for the length. -/
theorem padded_message_length {of_length : Nat → List UInt8} (h : ∀ n, (of_length n).length = 8)
    (input : List UInt8) : (padded_message of_length input).length % 64 = 0 := by
  simp only [padded_message, List.length_append, List.length_replicate, List.length_singleton, h]
  unfold zeros
  omega

/-- What every turn of a loop keeps, the loop keeps. -/
theorem foldl_length {α β : Type} {n : Nat} {f : List α → β → List α}
    (hf : ∀ s b, s.length = n → (f s b).length = n) (bs : List β) (s : List α)
    (hs : s.length = n) : (bs.foldl f s).length = n := by
  induction bs generalizing s with
  | nil => exact hs
  | cons b bs ih => exact ih _ (hf s b hs)

theorem add_words_length {h v : List UInt32} {n : Nat} (hh : h.length = n) (hv : v.length = n) :
    (add_words h v).length = n := by
  simp [add_words, hh, hv]

theorem flatMap_words_length {f : UInt32 → List UInt8} (hf : ∀ word, (f word).length = 4)
    (h : List UInt32) : (h.flatMap f).length = 4 * h.length := by
  simp [List.length_flatMap, hf, Nat.mul_comm]

theorem md5_round_length (m v : List UInt32) (i : Nat) : (md5_round m v i).length = 4 := rfl

theorem md5_length (input : List UInt8) : (md5 input).length = 16 := by
  have hblock : ∀ h block, h.length = 4 → (md5_block h block).length = 4 := fun h block hh =>
    add_words_length hh (foldl_length (fun v i _ => md5_round_length _ v i) _ _ hh)
  unfold md5
  rw [flatMap_words_length (by simp), foldl_length hblock _ _ rfl]

theorem sha1_round_length (w v : List UInt32) (i : Nat) : (sha1_round w v i).length = 5 := rfl

theorem sha1_length (input : List UInt8) : (sha1 input).length = 20 := by
  have hblock : ∀ h block, h.length = 5 → (sha1_block h block).length = 5 := fun h block hh =>
    add_words_length hh (foldl_length (fun v i _ => sha1_round_length _ v i) _ _ hh)
  unfold sha1
  rw [flatMap_words_length (by simp), foldl_length hblock _ _ rfl]

theorem sha256_round_length (w v : List UInt32) (i : Nat) : (sha256_round w v i).length = 8 := rfl

theorem sha256_length (input : List UInt8) : (sha256 input).length = 32 := by
  have hblock : ∀ h block, h.length = 8 → (sha256_block h block).length = 8 := fun h block hh =>
    add_words_length hh (foldl_length (fun v i _ => sha256_round_length _ v i) _ _ hh)
  unfold sha256
  rw [flatMap_words_length (by simp), foldl_length hblock _ _ rfl]

theorem sha3_256_length (input : List UInt8) : (sha3_256 input).length = 32 := by
  simp [sha3_256]

example : md5 [] = [0xd4, 0x1d, 0x8c, 0xd9, 0x8f, 0x00, 0xb2, 0x04, 0xe9, 0x80, 0x09, 0x98, 0xec,
    0xf8, 0x42, 0x7e] := by
  decide +kernel

end stutools.chap
