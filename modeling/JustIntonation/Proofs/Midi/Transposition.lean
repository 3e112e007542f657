/-
JustIntonation/Proofs/Midi/Transposition.lean

Files of a piece that is transposed as a whole.

Factors in front of every frequency of an exact piece multiply all of them by
one number (`Piece.Exact.exists_transposed`), and on the keyboard of the
transposed piece every note is struck as before (`Stroke.mapped_transposed`).
So the tracks are the same, and the file as well, but for the frequency of the
keyboard's reference (`transposition`).
-/
import JustIntonation.Notation.Meaning
import JustIntonation.Proofs.Midi.Alike
import JustIntonation.Proofs.Midi.Performance
import JustIntonation.Proofs.Quantity
import JustIntonation.Proofs.Tuning.Transposition

namespace JustIntonation

open Tuning Notation

/-! ### Factors in front of frequencies -/

theorem Note.exists_scaleFrequency {n : Note} {a : ℚ} (h : n.frequency.value = .exact a)
    (factors : Product) :
    ∃ n', scaleFrequency factors n = .ok n' ∧ n.Transposed factors.value n' := by
  obtain ⟨frequency, hscaled, hvalue⟩ := Quantity.exists_scaled h factors
  exact ⟨_, bind_eq_ok.mpr ⟨frequency, hscaled, rfl⟩, ⟨a, h, hvalue⟩, rfl, rfl⟩

theorem Piece.Exact.transposed_of_scaleFrequency {piece : Piece} (h : piece.Exact) {n n' : Note}
    (hn : n ∈ (Music.piece piece).notes) {factors : Product}
    (hscaled : scaleFrequency factors n = .ok n') : n.Transposed factors.value n' := by
  obtain ⟨a, -, ha⟩ := h n hn
  obtain ⟨m, hm, htransposed⟩ := n.exists_scaleFrequency ha factors
  rw [hscaled] at hm
  rwa [Except.ok.inj hm]

/-- An exact piece takes factors in front of its frequencies, and these are multiplied. -/
theorem Piece.Exact.exists_transposed {piece : Piece} (h : piece.Exact) (factors : Product) :
    ∃ piece', piece.mapNotes (scaleFrequency factors) = .ok piece' ∧
      piece.Alike (Note.Transposed factors.value) piece' := by
  have hnotes : ∀ n ∈ (Music.piece piece).notes, ∃ n', scaleFrequency factors n = .ok n' := by
    intro n hn
    obtain ⟨a, -, ha⟩ := h n hn
    obtain ⟨n', hn', -⟩ := n.exists_scaleFrequency ha factors
    exact ⟨n', hn'⟩
  obtain ⟨piece', hpiece⟩ := Piece.exists_mapNotes_eq_ok hnotes
  exact ⟨piece', hpiece, (Piece.alike_mapNotes hpiece).and_mem.imp
    fun n n' ⟨hn, hscaled⟩ => h.transposed_of_scaleFrequency hn hscaled⟩

namespace Midi

/-! ### Transposed notes on their keyboard -/

section Keyboard

variable {q : ℚ} {k k' : Keyboard}

/-- A note that has a key is struck on the keyboard of the transposed piece as before. -/
theorem Stroke.mapped_transposed (h : k.Transposed q k') (hq : q ≠ 0) {n n' : Note}
    (hn : n.Transposed q n')
    (hkey : n.isRest = false → ∃ key, k.keys.find? n.frequency.value = some key)
    (ticksPerBeat : Nat) :
    Stroke.mapped k'.keys ticksPerBeat n' = Stroke.mapped k.keys ticksPerBeat n := by
  obtain ⟨a, ha, ha'⟩ := hn.frequency
  have hfind : k'.keys.find? n'.frequency.value = k.keys.find? n.frequency.value := by
    rw [ha, ha', h.find?_eq hq]
  rw [Stroke.mapped, Stroke.mapped, hn.isRest_eq hq, hn.duration, hn.volume, hfind]
  cases hrest : n.isRest with
  | true => rfl
  | false =>
    -- Only of a note without a key the fault would name the frequency.
    obtain ⟨key, hkey⟩ := hkey hrest
    rw [hkey]

theorem allParts_scala {options : Options} (htuning : options.tuning = .scala) (ps : List Part) :
    allParts options ps = if 16 < ps.length then .error (.violation (.tooManyParts ps.length 16))
      else Music.keyboard options.f0 (.piece ⟨ps⟩) >>= fun k =>
        (mappedParts options k.keys 0 ps).map fun tracks => (tracks, some k) := by
  simp only [allParts, htuning]
  split_ifs
  · rfl
  · cases Music.keyboard options.f0 (.piece ⟨ps⟩) with
    | error fault => rfl
    | ok k =>
      show (mappedParts options k.keys 0 ps >>= fun tracks => pure (tracks, some k)) = Except.map _ _
      cases mappedParts options k.keys 0 ps <;> rfl

/-- Keyboards that strike alike lay out the parts of a piece alike. -/
theorem allParts_congr {options : Options} (htuning : options.tuning = .scala)
    {piece piece' : Piece} (hk : Music.keyboard options.f0 (.piece piece) = .ok k)
    (hk' : Music.keyboard options.f0 (.piece piece') = .ok k')
    (halike : piece.Alike (fun n n' => Stroke.mapped k.keys options.ticksPerBeat n
      = Stroke.mapped k'.keys options.ticksPerBeat n') piece') :
    allParts options piece'.parts
      = (allParts options piece.parts).map fun laid => (laid.1, some k') := by
  rw [allParts_scala htuning, allParts_scala htuning, ← halike.length_eq, hk, hk']
  split_ifs
  · rfl
  · show (mappedParts options k'.keys 0 piece'.parts).map _
      = ((mappedParts options k.keys 0 piece.parts).map _).map _
    rw [← mappedParts_congr halike 0]
    cases mappedParts options k.keys 0 piece.parts <;> rfl

/-- A file is made of the parts as they are laid out. -/
theorem ofPiece_congr {options : Options} {piece piece' : Piece} {keyboard : Option Keyboard}
    (hlength : piece.parts.length = piece'.parts.length)
    (hparts : allParts options piece'.parts
      = (allParts options piece.parts).map fun laid => (laid.1, keyboard)) :
    File.ofPiece options piece'
      = (File.ofPiece options piece).map fun f => { f with keyboard := keyboard } := by
  rw [File.ofPiece, File.ofPiece, hparts, ← hlength]
  cases tempoTrack options.t0 with
  | error fault => rfl
  | ok tempo =>
    cases allParts options piece.parts with
    | error fault => rfl
    | ok laid =>
      show (if _ then _ else _) = Except.map _ (if _ then _ else _)
      split_ifs <;> rfl

end Keyboard

/-! ### Files -/

/-- Two files of a piece and of the same piece transposed, `k` and `k'` being their keyboards. -/
structure Transposition (options : Options) (factors : Product) (piece : Piece) (f f' : File)
    (k k' : Keyboard) : Prop where
  keyboard : f.keyboard = some k ∧ f'.keyboard = some k'
  bytes : f'.bytes = f.bytes
  channels : f'.channels = f.channels
  entries : k'.entries = k.entries
  scaleText : ∀ title, k'.scaleText title = k.scaleText title
  /-- Every note keeps its key, and is struck on it as before. -/
  keys : ∀ n ∈ (Music.piece piece).notes, ∀ n', scaleFrequency factors n = .ok n' →
    k'.keys.find? n'.frequency.value = k.keys.find? n.frequency.value ∧
    Stroke.mapped k'.keys options.ticksPerBeat n' = Stroke.mapped k.keys options.ticksPerBeat n
  /-- The sixth line of the mapping is that of the reference. -/
  reference : (k.mappingText.toList.splitOn '\n')[5]?
    = some (k.reference.format Binary64.general).toList
  /-- Only that line of the mapping changes. -/
  mapping : k'.mappingText.toList.splitOn '\n'
    = (k.mappingText.toList.splitOn '\n').set 5 (k'.reference.format Binary64.general).toList

section Files

variable {options : Options} {piece : Piece} {factors : Product}

/-- The notes of a piece are struck alike on its keyboard and on that of the transposed piece. -/
theorem mapped_transposed_of_mem {q : ℚ} {k k' : Keyboard}
    (hk : Music.keyboard options.f0 (.piece piece) = .ok k) (h : k.Transposed q k') (hq : q ≠ 0)
    {n n' : Note} (hn : n ∈ (Music.piece piece).notes) (htransposed : n.Transposed q n') :
    Stroke.mapped k'.keys options.ticksPerBeat n'
      = Stroke.mapped k.keys options.ticksPerBeat n :=
  Stroke.mapped_transposed h hq htransposed (Music.exists_find? hk hn) options.ticksPerBeat

/-- Files that differ in their keyboards only, these being transposed. -/
theorem Transposition.of_keyboards {k k' : Keyboard} {f : File} (hexact : piece.Exact)
    (hfactors : 0 < factors.value) (hk : Music.keyboard options.f0 (.piece piece) = .ok k)
    (h : k.Transposed factors.value k') (hkeyboard : f.keyboard = some k) :
    Transposition options factors piece f { f with keyboard := some k' } k k' := by
  constructor
  case keyboard => exact ⟨hkeyboard, rfl⟩
  case bytes => rfl
  case channels => rfl
  case entries => exact h.entries
  case scaleText => exact h.scaleText_eq
  case keys =>
    intro n hn n' hscaled
    have htransposed := hexact.transposed_of_scaleFrequency hn hscaled
    refine ⟨?_, mapped_transposed_of_mem hk h hfactors.ne' hn htransposed⟩
    obtain ⟨a, ha, ha'⟩ := htransposed.frequency
    rw [ha, ha', h.find?_eq hfactors.ne']
  case reference =>
    rw [Keyboard.splitOn_mappingText]
    rfl
  case mapping => exact h.splitOn_mappingText_eq

/-- Transposing a piece changes nothing but the reference.  If the frequencies of a piece are exact
and not negative, factors with a positive product can be put in front of all of them; the file of
that piece is refused exactly if the file of the piece is, and with the same fault; and otherwise
both have the same bytes, channels and scale, every note keeps its key, and of the mappings only
the lines of the reference differ. -/
theorem transposition (hexact : piece.Exact) (hfactors : 0 < factors.value)
    (htuning : options.tuning = .scala) :
    ∃ piece', piece.mapNotes (scaleFrequency factors) = .ok piece' ∧
      (∀ fault, File.ofPiece options piece' = .error fault ↔
        File.ofPiece options piece = .error fault) ∧
      ∀ f, File.ofPiece options piece = .ok f → ∃ f' k k',
        File.ofPiece options piece' = .ok f' ∧
          Transposition options factors piece f f' k k' := by
  obtain ⟨piece', hpiece, halike⟩ := hexact.exists_transposed factors
  refine ⟨piece', hpiece, ?_⟩
  rcases hexact.keyboard_transposed hfactors halike options.f0 with
    ⟨fault, hfault, hfault'⟩ | ⟨k, k', hk, hk', hkeyboards⟩
  case inl =>
    -- There are too many pitches for a keyboard, transposed or not.
    have hparts : allParts options piece'.parts
        = (allParts options piece.parts).map fun laid => (laid.1, none) := by
      rw [allParts_scala htuning, allParts_scala htuning, ← halike.length_eq, hfault, hfault']
      split_ifs <;> rfl
    rw [ofPiece_congr halike.length_eq hparts]
    refine ⟨fun _ => map_eq_error, fun f h => ?_⟩
    obtain ⟨k, -, hk, -⟩ := mappedParts_of_ofPiece htuning h
    rw [hk] at hfault
    cases hfault
  case inr =>
    have hstruck : piece.Alike (fun n n' => Stroke.mapped k.keys options.ticksPerBeat n
        = Stroke.mapped k'.keys options.ticksPerBeat n') piece' :=
      halike.and_mem.imp fun n n' ⟨hn, htransposed⟩ =>
        (mapped_transposed_of_mem hk hkeyboards hfactors.ne' hn htransposed).symm
    rw [ofPiece_congr halike.length_eq (allParts_congr htuning hk hk' hstruck)]
    refine ⟨fun _ => map_eq_error, fun f h => ?_⟩
    obtain ⟨k₀, hkeyboard, hk₀, -⟩ := mappedParts_of_ofPiece htuning h
    obtain rfl := Except.ok.inj (hk.symm.trans hk₀)
    exact ⟨{ f with keyboard := some k' }, k, k', by rw [h]; rfl,
      .of_keyboards hexact hfactors hk hkeyboards hkeyboard⟩

/-- The octave and the rest, a fifth higher. -/
theorem transposition_octave : octaveAndRest.Exact ∧
    (0 : ℚ) < (Product.mk [.ofTerms 3 2 (by decide)]).value ∧
    ∃ piece' f f' k k',
      octaveAndRest.mapNotes (scaleFrequency ⟨[.ofTerms 3 2 (by decide)]⟩) = .ok piece' ∧
      File.ofPiece {} octaveAndRest = .ok f ∧ File.ofPiece {} piece' = .ok f' ∧
      Transposition {} ⟨[.ofTerms 3 2 (by decide)]⟩ octaveAndRest f f' k k' := by
  have hexact : octaveAndRest.Exact := by decide +kernel
  have hfactors : (0 : ℚ) < (Product.mk [.ofTerms 3 2 (by decide)]).value := by decide +kernel
  have hok : (File.ofPiece {} octaveAndRest).isOk = true := by decide +kernel
  obtain ⟨f, h⟩ := exists_eq_ok hok
  obtain ⟨piece', hpiece, -, hfiles⟩ := @transposition {} octaveAndRest _ hexact hfactors rfl
  obtain ⟨f', k, k', h', htransposition⟩ := hfiles f h
  exact ⟨hexact, hfactors, piece', f, f', k, k', hpiece, h, h', htransposition⟩

end Files

end Midi

end JustIntonation
