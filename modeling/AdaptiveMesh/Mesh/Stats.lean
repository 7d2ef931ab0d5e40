import AdaptiveMesh.Word

/-!
# Exchange statistics

Counts of the halo cells that an exchange wrote and of the directions in which it found no leaf,
and the time its two phases took. Sums are taken in checked words.
-/

namespace AdaptiveMesh

structure ExchangeStats where
  /-- Halo cells copied from a leaf of the same level. -/
  copied : Nat
  /-- Halo cells averaged from finer leaves. -/
  restricted : Nat
  /-- Halo cells interpolated from a coarser leaf. -/
  projected : Nat
  /-- Pairs of a leaf and a direction with no leaf there, counted in the first phase. -/
  absent : Nat
  /-- Microseconds of the first phase. -/
  phaseOneTime : Nat
  /-- Microseconds of the second phase. -/
  phaseTwoTime : Nat
deriving DecidableEq, Repr

namespace ExchangeStats

def zero : ExchangeStats := ⟨0, 0, 0, 0, 0, 0⟩

/-- Halo cells written. -/
def totalCells (s : ExchangeStats) : Except Fault Nat := do
  Word.add (← Word.add s.copied s.restricted) s.projected

def totalTime (s : ExchangeStats) : Except Fault Nat := Word.add s.phaseOneTime s.phaseTwoTime

/-- The sum of two parts. -/
def merge (s t : ExchangeStats) : Except Fault ExchangeStats := do
  return {
    copied := ← Word.add s.copied t.copied
    restricted := ← Word.add s.restricted t.restricted
    projected := ← Word.add s.projected t.projected
    absent := ← Word.add s.absent t.absent
    phaseOneTime := ← Word.add s.phaseOneTime t.phaseOneTime
    phaseTwoTime := ← Word.add s.phaseTwoTime t.phaseTwoTime }

end ExchangeStats

end AdaptiveMesh
