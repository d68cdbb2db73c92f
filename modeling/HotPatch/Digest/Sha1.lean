import HotPatch.Bytes.Basic

/-!
# SHA-1

A message is extended by one set bit, zero bits and its length in bits to a
multiple of sixty-four bytes. Each block of sixteen words is expanded to eighty
and mixed into a state of five words, whose bytes make up the digest.
-/

namespace HotPatch

abbrev Digest := Vector UInt8 20

namespace Sha1

def rotate (amount word : UInt32) : UInt32 := word <<< amount ||| word >>> (32 - amount)

structure State where
  a : UInt32
  b : UInt32
  c : UInt32
  d : UInt32
  e : UInt32
  deriving DecidableEq, Repr

def State.initial : State := ⟨0x67452301, 0xEFCDAB89, 0x98BADCFE, 0x10325476, 0xC3D2E1F0⟩

def State.add (x y : State) : State := ⟨x.a + y.a, x.b + y.b, x.c + y.c, x.d + y.d, x.e + y.e⟩

def State.words (state : State) : List UInt32 := [state.a, state.b, state.c, state.d, state.e]

/-- The nonlinear function and the constant of a round. -/
def mix (round : Nat) (b c d : UInt32) : UInt32 × UInt32 :=
  if round < 20 then (b &&& c ||| ~~~b &&& d, 0x5A827999)
  else if round < 40 then (b ^^^ c ^^^ d, 0x6ED9EBA1)
  else if round < 60 then (b &&& c ||| b &&& d ||| c &&& d, 0x8F1BBCDC)
  else (b ^^^ c ^^^ d, 0xCA62C1D6)

def step (state : State) (word : UInt32) (round : Nat) : State :=
  let (f, k) := mix round state.b state.c state.d
  ⟨rotate 5 state.a + f + state.e + k + word, state.a, rotate 30 state.b, state.c, state.d⟩

/-- The eighty words of a block of sixteen. -/
def schedule (block : List UInt32) : Array UInt32 :=
  (List.range 64).foldl (fun words t =>
    words.push (rotate 1 (words.getD (t + 13) 0 ^^^ words.getD (t + 8) 0 ^^^ words.getD (t + 2) 0 ^^^
      words.getD t 0))) block.toArray

def compress (state : State) (block : List UInt32) : State :=
  state.add ((schedule block).toList.zipIdx.foldl (fun state (word, round) => step state word round) state)

/-- The words of a byte sequence, each with the most significant byte first. -/
def words : Bytes → List UInt32
  | a :: b :: c :: d :: rest =>
    UInt32.ofNat (((a.toNat * 256 + b.toNat) * 256 + c.toNat) * 256 + d.toNat) :: words rest
  | _ => []

/-- The first blocks of sixteen words each. -/
def blocks : Nat → List UInt32 → List (List UInt32)
  | 0, _ => []
  | count + 1, words => words.take 16 :: blocks count (words.drop 16)

/-- The message with its extension. -/
def extended (message : Bytes) : Bytes :=
  let zeros := 63 - (message.length + 8) % 64
  message ++ 0x80 :: List.replicate zeros 0 ++ (Bytes.littleEndian 8 (message.length * 8)).reverse

def digest (message : Bytes) : Digest :=
  let all := extended message
  let state := (blocks (all.length / 64) (words all)).foldl compress .initial
  let result := (state.words.flatMap fun word => (Bytes.littleEndian 4 word.toNat).reverse).toArray
  .ofFn fun index => result.getD index.val 0

end Sha1
end HotPatch
