import Mathlib.Data.String.Basic

/-!
# Pieces of a text

`String.splitOn` goes through a text by bytes. Where the separator is one character it gives the
pieces of the list of characters, `splitOn_ofList`. Paths and names are taken apart at slashes and
dots, and in this form their parts can be computed.
-/

namespace TreeLayout.Text

open String

/-- The rest of a text is split into pieces, of which the first one has begun with `m`. -/
theorem splitOnAux_ofList (c : Char) (l m r : List Char) (pieces : List String) :
    splitOnAux (ofList (l ++ m ++ r)) (ofList [c]) ⟨utf8Len l⟩ ⟨utf8Len l + utf8Len m⟩ 0 pieces =
      pieces.reverse ++ (List.splitOnPPrepend (· == c) r m.reverse).map ofList := by
  induction r generalizing l m pieces with
  | nil =>
    have hend : Pos.Raw.atEnd (ofList (l ++ m ++ [])) ⟨utf8Len l + utf8Len m⟩ = true := by
      rw [← utf8Len_append, atEnd_of_valid]
    rw [splitOnAux, if_pos hend, extract_of_valid]
    simp
  | cons first r ih =>
    have hend : ¬ Pos.Raw.atEnd (ofList (l ++ m ++ first :: r)) ⟨utf8Len l + utf8Len m⟩ = true := by
      rw [← utf8Len_append, atEnd_of_valid]
      exact List.cons_ne_nil _ _
    have hget : Pos.Raw.get (ofList (l ++ m ++ first :: r)) ⟨utf8Len l + utf8Len m⟩ = first := by
      rw [← utf8Len_append, get_of_valid]
      rfl
    have hnext : Pos.Raw.next (ofList (l ++ m ++ first :: r)) ⟨utf8Len l + utf8Len m⟩ =
        ⟨utf8Len l + utf8Len m + first.utf8Size⟩ := by
      rw [← utf8Len_append, next_of_valid]
    have hsep : Pos.Raw.get (ofList [c]) 0 = c := get_of_valid [] [c]
    rw [splitOnAux, if_neg hend, hget, hsep]
    by_cases hfirst : first = c
    · subst hfirst
      have hsepNext : Pos.Raw.next (ofList [first]) 0 = ⟨first.utf8Size⟩ := by
        simpa using next_of_valid [] first []
      have hsepEnd : Pos.Raw.atEnd (ofList [first]) ⟨first.utf8Size⟩ = true := by
        have h := (atEnd_of_valid [first] []).2 rfl
        rwa [List.append_nil, utf8Len_cons, utf8Len_nil, Nat.zero_add] at h
      have hback : (Pos.Raw.mk (utf8Len l + utf8Len m + first.utf8Size)).unoffsetBy
          ⟨first.utf8Size⟩ = ⟨utf8Len l + utf8Len m⟩ := by
        simp [Pos.Raw.unoffsetBy]
      have hrest := ih (l ++ m ++ [first]) [] (ofList m :: pieces)
      rw [List.append_nil, List.append_assoc, List.singleton_append] at hrest
      simp only [utf8Len_append, utf8Len_cons, utf8Len_nil, Nat.add_zero, Nat.zero_add] at hrest
      rw [if_pos (beq_self_eq_true first), hnext, hsepNext, if_pos hsepEnd, hback,
        extract_of_valid, hrest,
        List.splitOnPPrepend_cons_pos (p := (· == first)) (beq_self_eq_true first)]
      simp
    · have hback : (Pos.Raw.mk (utf8Len l + utf8Len m)).unoffsetBy 0 =
          ⟨utf8Len l + utf8Len m⟩ := rfl
      have hrest := ih l (m ++ [first]) pieces
      rw [← List.append_assoc, List.append_assoc, List.singleton_append] at hrest
      simp only [utf8Len_append, utf8Len_cons, utf8Len_nil, Nat.zero_add, ← Nat.add_assoc] at hrest
      rw [if_neg (by simpa using hfirst), hback, hnext, hrest, List.reverse_concat,
        List.splitOnPPrepend_cons_neg (p := (· == c)) (by simpa using hfirst)]

/-- A text is split at a character as its list of characters is. -/
theorem splitOn_ofList (c : Char) (s : String) :
    s.splitOn (ofList [c]) = (s.toList.splitOn c).map ofList := by
  have hne : ofList [c] ≠ "" := fun h => List.cons_ne_nil c [] (ofList_injective h)
  have hpieces := splitOnAux_ofList c [] [] s.toList []
  rw [List.nil_append, List.nil_append, ofList_toList] at hpieces
  rw [splitOn, if_neg (by simpa only [beq_iff_eq] using hne)]
  exact hpieces

/-- A string is split at slashes as its characters are. -/
theorem splitOn_slash (s : String) : s.splitOn "/" = (s.toList.splitOn '/').map ofList :=
  splitOn_ofList '/' s

/-- A string is split at dots as its characters are. -/
theorem splitOn_dot (s : String) : s.splitOn "." = (s.toList.splitOn '.').map ofList :=
  splitOn_ofList '.' s

/-- The separator is in none of the pieces. -/
theorem not_mem_of_mem_splitOn {c : Char} {cs piece : List Char} (h : piece ∈ cs.splitOn c) :
    c ∉ piece := by
  induction cs generalizing piece with
  | nil =>
    rw [List.splitOn_nil, List.mem_singleton] at h
    simp [h]
  | cons first cs ih =>
    obtain ⟨begun, rest, hcs⟩ := List.exists_cons_of_ne_nil (List.splitOn_ne_nil c cs)
    rw [List.splitOn_cons_eq_if_modifyHead, hcs] at h
    rw [hcs] at ih
    split_ifs at h with hfirst
    · obtain rfl | hpiece := List.mem_cons.1 h
      · exact List.not_mem_nil
      · exact ih hpiece
    · obtain rfl | hpiece := List.mem_cons.1 h
      · have hne : c ≠ first := fun heq => hfirst (beq_iff_eq.2 heq.symm)
        exact List.not_mem_cons_of_ne_of_not_mem hne (ih List.mem_cons_self)
      · exact ih (List.mem_cons_of_mem _ hpiece)

end TreeLayout.Text
