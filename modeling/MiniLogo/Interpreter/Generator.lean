import MiniLogo.Number.Binary64

/-!
# Random draws

A generator is a stream of doubles of which some were drawn already. Evaluation takes whatever stream it is given, and
what is shown of evaluation is shown for all streams.

The program has to choose a stream for each seed, and chooses `Generator.ofSeed`: it counts in odd steps through the
64-bit words and scrambles each count into a word, and a draw is the upper 53 bits of that word as a fraction, from
zero up to, and not including, one.
-/

namespace MiniLogo

/-- A source of random draws. -/
structure Generator where
  /-- What is drawn, one draw after another. -/
  draws : Nat → Float
  /-- How many draws were made. -/
  drawn : Nat := 0

namespace Generator

/-- The next draw, and what is left. -/
def draw (g : Generator) : Float × Generator := (g.draws g.drawn, { g with drawn := g.drawn + 1 })

/-- Spreads every bit of a word over all of it. -/
def scramble (w : UInt64) : UInt64 :=
  let w := (w ^^^ (w >>> 30)) * 0xBF58476D1CE4E5B9
  let w := (w ^^^ (w >>> 27)) * 0x94D049BB133111EB
  w ^^^ (w >>> 31)

/-- A stream for each seed. It stands in for any other choice of streams: no result depends on these numbers. -/
def ofSeed (seed : UInt64) : Generator where
  draws n :=
    let count := seed + UInt64.ofNat (n + 1) * 0x9E3779B97F4A7C15
    Binary64.ofRatio false (scramble count >>> 11).toNat (Nat.pow 2 53)

end Generator

end MiniLogo
