import FastTts.LaggedRecurrence

/-!
# MT19937

The standard 32-bit Mersenne Twister: words that follow a recurrence from words made of a seed, and
outputs that are tempered words behind the first block.
-/

namespace FastTts.Mt19937

open LaggedRecurrence

def initial (seed : UInt32) : ℕ → UInt32
  | 0 => seed
  | i + 1 =>
    (1812433253 : UInt32) * (initial seed i ^^^ (initial seed i >>> 30)) + UInt32.ofNat (i + 1)

/-- The upper bit of one word and the lower bits of another, times the matrix. -/
def twisted (upper lower : UInt32) : UInt32 :=
  let y := (upper &&& 0x80000000) ||| (lower &&& 0x7fffffff)
  (y >>> 1) ^^^ (if y &&& 1 = 0 then 0 else 0x9908b0df)

def next (x x₁ xₘ : UInt32) : UInt32 := xₘ ^^^ twisted x x₁

def word (seed : UInt32) : ℕ → UInt32 :=
  sequence next (by decide : 1 < 624) (by decide : 397 < 624) (initial seed)

def tempered (x : UInt32) : UInt32 :=
  let y := x ^^^ (x >>> 11)
  let y := y ^^^ ((y <<< 7) &&& 0x9d2c5680)
  let y := y ^^^ ((y <<< 15) &&& 0xefc60000)
  y ^^^ (y >>> 18)

def output (seed : UInt32) (i : ℕ) : UInt32 := tempered (word seed (624 + i))

theorem word_initial (seed : UInt32) {i : ℕ} (h : i < 624) : word seed i = initial seed i :=
  sequence_first next _ _ _ h

theorem follows_word (seed : UInt32) : Follows next 624 397 (word seed) :=
  follows_sequence next _ _ (initial seed)

end FastTts.Mt19937
