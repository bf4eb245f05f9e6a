/-! Seeded numbers: the ChaCha stream cipher with twelve rounds, its block counter starting at zero.
The words of successive blocks form one endless sequence. -/
namespace IdentifyBench

structure Generator where
  key : Vector UInt32 8
  /-- Number of the current block. -/
  counter : UInt64
  current : Vector UInt32 16
  /-- Place in the current block of the word to be drawn next. -/
  next : Fin 16
  deriving DecidableEq

namespace Generator

def rotateLeft (x : UInt32) (n : UInt32) : UInt32 := x <<< n ||| x >>> (32 - n)

def quarterRound (s : Vector UInt32 16) (a b c d : Fin 16) : Vector UInt32 16 :=
  let s := s.set a (s[a] + s[b])
  let s := s.set d (rotateLeft (s[d] ^^^ s[a]) 16)
  let s := s.set c (s[c] + s[d])
  let s := s.set b (rotateLeft (s[b] ^^^ s[c]) 12)
  let s := s.set a (s[a] + s[b])
  let s := s.set d (rotateLeft (s[d] ^^^ s[a]) 8)
  let s := s.set c (s[c] + s[d])
  s.set b (rotateLeft (s[b] ^^^ s[c]) 7)

/-- The columns of the four by four matrix, then its diagonals. -/
def doubleRound (s : Vector UInt32 16) : Vector UInt32 16 :=
  let s := quarterRound s 0 4 8 12
  let s := quarterRound s 1 5 9 13
  let s := quarterRound s 2 6 10 14
  let s := quarterRound s 3 7 11 15
  let s := quarterRound s 0 5 10 15
  let s := quarterRound s 1 6 11 12
  let s := quarterRound s 2 7 8 13
  quarterRound s 3 4 9 14

def block (key : Vector UInt32 8) (counter : UInt64) : Vector UInt32 16 :=
  let start : Vector UInt32 16 :=
    #v[0x61707865, 0x3320646e, 0x79622d32, 0x6b206574,
       key[0], key[1], key[2], key[3], key[4], key[5], key[6], key[7],
       counter.toUInt32, (counter >>> 32).toUInt32, 0, 0]
  (Nat.repeat doubleRound 6 start).zipWith (· + ·) start

def spread (state : UInt64) : UInt64 := state * 6364136223846793005 + 11634580027462260723

def scramble (state : UInt64) : UInt32 :=
  let x := (((state >>> 18) ^^^ state) >>> 27).toUInt32
  let turn := (state >>> 59).toUInt32
  x >>> turn ||| x <<< ((32 - turn) % 32)

def ofSeed (seed : UInt64) : Generator :=
  let key : Vector UInt32 8 := .ofFn fun i => scramble (Nat.repeat spread (i + 1) seed)
  { key, counter := 0, current := block key 0, next := 0 }

def number : StateM Generator UInt32 := fun g =>
  (g.current[g.next],
   if g.next = 15 then
     { g with counter := g.counter + 1, current := block g.key (g.counter + 1), next := 0 }
   else { g with next := g.next + 1 })

/-- The next 64-bit number: the low half is drawn first. -/
def wide : StateM Generator UInt64 := do
  let low ← number
  let high ← number
  return low.toUInt64 ||| high.toUInt64 <<< 32

/-- Draws that fall outside the evenly divided range are thrown away. About every second draw does,
so this many are never used up. -/
def tries : Nat := 0x100000

def fieldWithin (width : Nat) : Nat → StateM Generator (BitVec width)
  | 0 => return 0
  | left + 1 => do
    let product := (← number).toNat <<< width
    if product % UInt32.size < 0x80000000 then return .ofNat width (product >>> 32)
    else fieldWithin width left

def field (width : Nat) : StateM Generator (BitVec width) := fieldWithin width tries

def pickWithin {n : Nat} (positive : 0 < n) : Nat → StateM Generator (Fin n)
  | 0 => return ⟨0, positive⟩
  | left + 1 => do
    let product := (← wide).toNat * n
    if product % UInt64.size < n <<< (63 - n.log2) then
      return ⟨(product >>> 64) % n, Nat.mod_lt _ positive⟩
    else pickWithin positive left

def pick {n : Nat} (positive : 0 < n) : StateM Generator (Fin n) := pickWithin positive tries

def flag : StateM Generator Bool := return (← wide) < 0x8000000000000000

end Generator

end IdentifyBench
