import TreeLayout.Proofs.Fix.Substitution
import TreeLayout.Proofs.Text.Places

/-!
# The edit that ends a line before a token

The fix for a token that should start a line ends the line before it: the spaces and tabs between
the token and the text before it give way to a line end and the indentation (`exists_wrap_fix`). The
fix is found by the line and the column of the token, and these are what a cursor shows that has
passed the text before the token (`Text.Passed`).
-/

namespace TreeLayout

open Text (byteSize linesSize segments trimEnd ending isGap isBlank)
open Builder (advanceBy)

/-- The fix for a finding that asks for a line end puts one in the place of the blanks between the
token and the text before it. -/
theorem exists_wrap_fix {source : SourceText} {passed rest : List Char} {c : Char}
    (hsource : source.text.toList = passed ++ c :: rest) (hc : isBlank c = false) {f : Finding}
    (hrule : f.message.rule = .mustWrap) {indent : Nat} (hindent : f.indent = some indent)
    (hpos : advanceBy ⟨1, 0⟩ passed = ⟨f.line, f.rawColumn⟩) :
    ∃ fix kept gap, suggestFix? f source = some fix ∧ passed = kept ++ gap ∧
      (∀ d ∈ gap, isGap d = true) ∧
      fix.replaceIn? source.text.toList =
        some (kept ++ '\n' :: Column.spaces indent ++ c :: rest) := by
  obtain ⟨full, upto, last, h⟩ := Text.exists_passed passed
  obtain ⟨hstart, hline⟩ := h.lineStart?_and_line hc hsource
  rw [h.pos, Position.mk.injEq] at hpos
  rw [hpos.1] at hstart hline
  rw [hpos.2] at hline
  obtain ⟨next, hmessage⟩ : ∃ next, f.message = .mustWrap next := by
    cases hmessage : f.message <;> simp [hmessage, Message.rule] at hrule ⊢
  have hsuggest : suggestFix? f source = some (suggestWrap (byteSize upto) last indent) := by
    simp [suggestFix?, hstart, hline, hmessage, hindent]
  -- The gap before the token is the ending of its line.
  have hlast := Text.trimEnd_append_ending isGap last
  have hpassed : passed = upto ++ trimEnd isGap last ++ ending isGap last := by
    rw [List.append_assoc, hlast, h.append]
  refine ⟨_, _, _, hsuggest, hpassed, ?_, ?_⟩
  · intro d hd
    rw [ending, List.mem_reverse] at hd
    exact List.all_eq_true.1 List.all_takeWhile d hd
  · have hsize : byteSize last = byteSize (trimEnd isGap last) + byteSize (ending isGap last) := by
      rw [← Text.byteSize_append, hlast]
    have hfirst : byteSize (upto ++ trimEnd isGap last) =
        (suggestWrap (byteSize upto) last indent).startOffset := by
      simp only [suggestWrap, Text.byteSize_append]
      omega
    have hend : (suggestWrap (byteSize upto) last indent).startOffset +
        byteSize (ending isGap last) = (suggestWrap (byteSize upto) last indent).endOffset := by
      simp only [suggestWrap]
      omega
    rw [hsource, hpassed, Fix.replaceIn?_append (c :: rest) hfirst hend]
    simp [suggestWrap]

end TreeLayout
