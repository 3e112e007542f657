/-
JustIntonation/Tuning/Keyboard.lean

A retuning of the keyboard that gives each frequency a key of its own.

Key `i` plays the `i`-th lowest distinct frequency of the music.  The scale
does not repeat at the octave: its entries are all frequencies relative to the
lowest, without the unison that stands for the lowest itself, unless there is
nothing else.
-/
import JustIntonation.Fault
import JustIntonation.Tuning.Scale

namespace JustIntonation.Tuning

/-- The keys of some frequencies, ascending by frequency. -/
abbrev KeyMap := List (Number × Nat)

namespace KeyMap

/-- The key of a frequency, compared by value. -/
def find? (map : KeyMap) (frequency : Number) : Option Nat :=
  (List.find? (fun entry => frequency.same entry.1) map).map Prod.snd

/-- Give a frequency a key; one that is equal in value to a mapped frequency replaces the
key. -/
def insert (frequency : Number) (key : Nat) : KeyMap → KeyMap
  | [] => [(frequency, key)]
  | (f, k) :: rest =>
    match frequency.compare f with
    | .lt => (frequency, key) :: (f, k) :: rest
    | .eq => (f, key) :: rest
    | .gt => (f, k) :: insert frequency key rest

def ofList (entries : List (Number × Nat)) : KeyMap :=
  entries.foldl (fun map (frequency, key) => insert frequency key map) []

end KeyMap

/-- Most frequencies that one keyboard can hold. -/
def keyCount : Nat := 128

/-- A key as it is kept, in one byte. -/
def keyByte (index : Nat) : Nat := index % 256

/-- A tuning of the keyboard. -/
structure Keyboard where
  /-- The scale entries, relative to the lowest frequency. -/
  entries : List Number
  keys : KeyMap
  /-- The frequency of key 0 in hertz. -/
  reference : Binary64
  /-- Number of keys in use. -/
  size : Nat
deriving DecidableEq

namespace Keyboard

/-- The scale entries of ascending frequencies over the lowest of them. -/
def relative (frequencies : List Number) (lowest : Number) : List Number :=
  let ratios := frequencies.map (· / lowest)
  if ratios.length ≤ 1 then ratios else ratios.drop 1

/-- The tuning for ascending distinct frequencies, the basic one being at `f0` hertz. -/
def ofFrequencies (f0 : Binary64) (frequencies : List Number) : Except Fault Keyboard :=
  if keyCount < frequencies.length then
    .error (.violation (.tooManyFrequencies frequencies.length))
  else
    let lowest := frequencies.head?.getD .one
    .ok {
      entries := relative frequencies lowest
      keys := .ofList (frequencies.zipIdx.map fun (frequency, index) => (frequency, keyByte index))
      reference := f0 * lowest.toBinary64
      size := frequencies.length }

/-- The scale file of the tuning. -/
def scaleText (title : String) (k : Keyboard) : String := scaleFile title k.entries

/-- The keyboard mapping that binds the keys to consecutive scale degrees. -/
def mappingText (k : Keyboard) : String :=
  let n := k.size
  toString n ++ "\n0\n" ++ toString ((n : Int) - 1) ++ "\n0\n0\n"
    ++ k.reference.format Binary64.general ++ "\n0\n! Mapping\n"
    ++ String.join ((List.range n).map fun degree => toString degree ++ "\n")

end Keyboard

end JustIntonation.Tuning

namespace JustIntonation

/-- The tuning under which every frequency of the music has its own key. -/
def Music.keyboard (f0 : Binary64) (music : Music) : Except Fault Tuning.Keyboard :=
  Tuning.Keyboard.ofFrequencies f0 music.frequencies

end JustIntonation
