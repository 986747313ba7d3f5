/-!
# Random numbers

A program is given a source of random numbers: a generator in some state. Nothing is fixed about the
generator except what it can be asked for, so that whatever holds of every machine holds for all
numbers that may be drawn. `Generator.Lawful` says which bounds a generator is documented to accept.
-/
namespace MatrixLisp

/-- A generator of random numbers. In a state it is asked for a number from a first bound up to, but
without, a second one: it gives a number and goes on to another state, or it refuses the bounds. A state
is a pair of numbers, as for Lean's own generator, so that every countable set of states is covered. -/
structure Generator where
  int? : StdGen → Int64 → Int64 → Option (Int64 × StdGen)
  float? : StdGen → Float → Float → Option (Float × StdGen)

namespace Generator

/-- A generator accepts the bounds of integers if the first one is less than the second, and those of
floats if moreover their difference is finite. It refuses all others. -/
structure Lawful (g : Generator) : Prop where
  isSome_int? (state : StdGen) (least greatest : Int64) :
    (g.int? state least greatest).isSome ↔ least.toInt < greatest.toInt
  isSome_float? (state : StdGen) (least greatest : Float) :
    (g.float? state least greatest).isSome ↔ least < greatest ∧ (greatest - least).isFinite

def standardInt? (state : StdGen) (least greatest : Int64) : Option (Int64 × StdGen) :=
  if least.toInt < greatest.toInt then
    let (n, next) := randNat state 0 (greatest.toInt - least.toInt - 1).toNat
    some (.ofInt (least.toInt + n), next)
  else none

/-- A float between bounds: a fraction of 52 bits of their difference is added to the first one. A sum
that is rounded up to the second one is not taken. -/
def standardFloat? (state : StdGen) (least greatest : Float) : Option (Float × StdGen) :=
  if least < greatest ∧ (greatest - least).isFinite then
    let (n, next) := randNat state 0 4503599627370495
    let x := least + (greatest - least) * (Float.ofNat n / 4503599627370496.0)
    some (if x < greatest then x else least, next)
  else none

/-- A generator on top of Lean's own one. -/
def standard : Generator := ⟨standardInt?, standardFloat?⟩

theorem isSome_standardInt? (state : StdGen) (least greatest : Int64) :
    (standardInt? state least greatest).isSome ↔ least.toInt < greatest.toInt := by
  unfold standardInt?
  split <;> simp [*]

theorem isSome_standardFloat? (state : StdGen) (least greatest : Float) :
    (standardFloat? state least greatest).isSome ↔
      least < greatest ∧ (greatest - least).isFinite := by
  unfold standardFloat?
  split <;> simp [*]

theorem lawful_standard : standard.Lawful := ⟨isSome_standardInt?, isSome_standardFloat?⟩

end Generator

structure Source where
  generator : Generator
  state : StdGen

namespace Source

def int? (s : Source) (least greatest : Int64) : Option (Int64 × Source) :=
  (s.generator.int? s.state least greatest).map (Prod.map id (Source.mk s.generator))

def float? (s : Source) (least greatest : Float) : Option (Float × Source) :=
  (s.generator.float? s.state least greatest).map (Prod.map id (Source.mk s.generator))

section

variable {g : Generator} (hg : g.Lawful) (state : StdGen)
include hg

theorem exists_int? {least greatest : Int64} (h : least.toInt < greatest.toInt) :
    ∃ n next, (Source.mk g state).int? least greatest = some (n, ⟨g, next⟩) := by
  obtain ⟨⟨n, next⟩, hn⟩ := Option.isSome_iff_exists.mp ((hg.isSome_int? state ..).mpr h)
  exact ⟨n, next, congrArg (Option.map _) hn⟩

theorem exists_float? {least greatest : Float}
    (h : least < greatest ∧ (greatest - least).isFinite) :
    ∃ x next, (Source.mk g state).float? least greatest = some (x, ⟨g, next⟩) := by
  obtain ⟨⟨x, next⟩, hx⟩ := Option.isSome_iff_exists.mp ((hg.isSome_float? state ..).mpr h)
  exact ⟨x, next, congrArg (Option.map _) hx⟩

theorem float?_eq_none {least greatest : Float}
    (h : ¬(least < greatest ∧ (greatest - least).isFinite)) :
    (Source.mk g state).float? least greatest = none := by
  rw [← hg.isSome_float? state, Option.not_isSome_iff_eq_none] at h
  exact congrArg (Option.map _) h

end

/-- The standard generator, started from a seed. -/
def ofSeed (seed : Nat) : Source := ⟨.standard, mkStdGen seed⟩

end Source

end MatrixLisp
