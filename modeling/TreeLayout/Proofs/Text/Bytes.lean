import TreeLayout.Text.Basic

/-!
# Cuts at byte offsets

A cut at a byte offset is a way to write a text as two halves, the first of which has that many
bytes (`splitAtByte?_eq_some_iff`). There is at most one, since every character has bytes. An offset
at which a text can be cut is a boundary of it (`IsBoundary`), and between two boundaries stands one
piece of the text (`StandsAt`).
-/

namespace TreeLayout.Text

variable {a b cs : List Char} {n : Nat}

/-- Only the empty text has no bytes. -/
theorem byteSize_eq_zero : byteSize cs = 0 ↔ cs = [] := by
  cases cs with
  | nil => simp
  | cons c cs =>
    have hpos := c.utf8Size_pos
    simp only [byteSize_cons, reduceCtorEq, iff_false]
    omega

/-- A text is cut after each of its beginnings. -/
theorem splitAtByte?_append (a b : List Char) :
    splitAtByte? (byteSize a) (a ++ b) = some (a, b) := by
  induction a with
  | nil => simp [splitAtByte?]
  | cons c a ih =>
    have hpos := c.utf8Size_pos
    obtain ⟨n, hn⟩ : ∃ n, byteSize (c :: a) = n + 1 := ⟨byteSize (c :: a) - 1, by simp; omega⟩
    have hfits : c.utf8Size ≤ n + 1 := by simp at hn; omega
    have hrest : n + 1 - c.utf8Size = byteSize a := by simp at hn; omega
    rw [hn, List.cons_append, splitAtByte?, if_pos hfits, hrest, ih]
    rfl

/-- The first half of a cut has as many bytes as the offset says. -/
theorem byteSize_of_splitAtByte? (h : splitAtByte? n cs = some (a, b)) : byteSize a = n := by
  induction cs generalizing n a with
  | nil =>
    cases n with
    | zero =>
      cases h
      rfl
    | succ n => cases h
  | cons c cs ih =>
    cases n with
    | zero =>
      cases h
      rfl
    | succ n =>
      rw [splitAtByte?] at h
      split at h
      · rename_i hfits
        obtain ⟨⟨a', b'⟩, hcut, heq⟩ := Option.map_eq_some_iff.1 h
        cases heq
        have hsize := ih hcut
        rw [byteSize_cons]
        omega
      · cases h

/-- A text is split at an offset into two parts of which the first one has that many bytes. -/
theorem splitAtByte?_eq_some_iff :
    splitAtByte? n cs = some (a, b) ↔ a ++ b = cs ∧ byteSize a = n := by
  constructor
  · intro h
    exact ⟨append_of_splitAtByte? h, byteSize_of_splitAtByte? h⟩
  · rintro ⟨rfl, rfl⟩
    exact splitAtByte?_append a b

/-- Whether an offset lies in a text and between two of its characters, or at one of its ends. -/
def IsBoundary (cs : List Char) (n : Nat) : Prop := ∃ a b, a ++ b = cs ∧ byteSize a = n

/-- Of two beginnings of a text, the one with no more bytes is a beginning of the other. -/
theorem exists_append_of_byteSize_le {c d : List Char} (h : a ++ b = c ++ d)
    (hle : byteSize a ≤ byteSize c) : ∃ m, c = a ++ m ∧ b = m ++ d := by
  rcases List.append_eq_append_iff.1 h with ⟨m, hc, hb⟩ | ⟨m, ha, hd⟩
  · exact ⟨m, hc, hb⟩
  · have hm : m = [] := by
      rw [ha, byteSize_append] at hle
      exact byteSize_eq_zero.1 (by omega)
    subst hm
    exact ⟨[], by simpa using ha.symm, by simpa using hd.symm⟩

/-- Two cuts of a text at one offset are the same. -/
theorem append_inj_of_byteSize_eq {c d : List Char} (h : a ++ b = c ++ d)
    (hsize : byteSize a = byteSize c) : a = c ∧ b = d := by
  have hcut := splitAtByte?_append a b
  rw [h, hsize, splitAtByte?_append] at hcut
  cases hcut
  exact ⟨rfl, rfl⟩

/-- A piece of a text stands at a range of bytes, given by its first byte and the byte after it. -/
def StandsAt (cs : List Char) (range : Nat × Nat) (piece : List Char) : Prop :=
  ∃ before after, cs = before ++ piece ++ after ∧ byteSize before = range.1 ∧
    byteSize (before ++ piece) = range.2

/-- There is one piece of a text at a range of bytes. -/
theorem StandsAt.unique {cs a b : List Char} {range : Nat × Nat} (ha : StandsAt cs range a)
    (hb : StandsAt cs range b) : a = b := by
  obtain ⟨before, after, hcs, hstart, hstop⟩ := ha
  obtain ⟨before', after', hcs', hstart', hstop'⟩ := hb
  have hupto : before ++ a = before' ++ b :=
    (append_inj_of_byteSize_eq (hcs.symm.trans hcs') (hstop.trans hstop'.symm)).1
  exact (append_inj_of_byteSize_eq hupto (hstart.trans hstart'.symm)).2

end TreeLayout.Text
