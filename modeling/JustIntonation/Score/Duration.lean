/-
JustIntonation/Score/Duration.lean

Durations as tied note values, inside a tuplet where needed.

A duration whose denominator has an odd factor `O` is written in an `O:R`
tuplet, `R` being the largest power of two that is not above `O`: a third of a
beat is an eighth in a 3:2 tuplet.  What remains after rescaling is a sum of
note values, written from the longest to the shortest and tied together.
-/
import JustIntonation.Fault

namespace JustIntonation.Score

/-- The note values, longest first, by the number that names them: `1` is the whole note of
four beats, `4` the quarter note of one beat. -/
def noteValues : List Nat := [1, 2, 4, 8, 16, 32, 64, 128]

/-- The beats of a note value. -/
def beats (noteValue : Nat) : Rat := 4 / noteValue

/-- Most note values that one duration may be tied from. -/
def maxTied : Nat := 1024

/-- The largest power of two that divides a positive number. -/
def twoPart (n : Nat) : Nat := Nat.gcd n (1 <<< Nat.log2 n)

def oddPart (n : Nat) : Nat := n / twoPart n

/-- How to write a duration: tied note values, and the terms of a tuplet around them. -/
structure Template where
  noteValues : List Nat
  tuplet : Option (Nat × Nat)
deriving DecidableEq

namespace Template

/-- Take from `remaining` as many of each value as fit; none if something remains in the end,
or if there are more than may be tied, `used` being already there. -/
def fill (used : Nat) (remaining : Rat) : List Nat → Option (List Nat)
  | [] => if remaining = 0 then some [] else none
  | v :: vs =>
    let count := (remaining / beats v).floor.toNat
    if maxTied < used + count then none
    else (fill (used + count) (remaining - count * beats v) vs).map (List.replicate count v ++ ·)

/-- The template of a positive duration in beats. -/
def ofBeats (duration : Rat) : Option Template :=
  let odd := oddPart duration.den
  let scale : Nat := 1 <<< Nat.log2 odd
  if duration ≤ 0 then none
  else match fill 0 (duration * odd / scale) Score.noteValues with
    | none => none
    | some values =>
      if odd = 1 then some ⟨values, none⟩
      else if odd < 0x8000000000000000 then some ⟨values, some (odd, scale)⟩
      else none

/-- The template of a duration, which must be exact. -/
def ofDuration (duration : Quantity) : Except Fault Template :=
  let found := match duration.value with
    | .exact beats => ofBeats beats
    | .approximate _ => none
  match found with
  | some template => .ok template
  | none => .error (.violation (.unwritableDuration duration))

/-- The pitch at each note value, joined by `tie`; the annotation belongs to the first. -/
def render (tie pitch remark : String) (t : Template) : String :=
  let notes := t.noteValues.map fun v => pitch ++ toString v
  let body := match notes with
    | [] => ""
    | [first] => first ++ remark
    | first :: rest => first ++ tie ++ remark ++ tie.intercalate rest
  match t.tuplet with
  | some (odd, scale) =>
    "\\tuplet " ++ toString odd ++ "/" ++ toString scale ++ " \x7b" ++ body ++ "\x7d"
  | none => body

end Template

end JustIntonation.Score
