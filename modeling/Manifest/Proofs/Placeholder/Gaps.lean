import Manifest.Proofs.Placeholder.Scan

/-! The text around placeholders. Scanning cuts a text at the spans of its placeholders in one way,
and to fill them is to put other texts between the gaps. -/
namespace Manifest.Template

variable {start : Nat} {s cs : List Char} {ms : List Span} {gs gs' : List (List Char)}

/-- Spans cut what is left of a text from octet `start` on: there is a gap before each span, and one
behind the last. -/
inductive Cut : Nat → List Char → List Span → List (List Char) → Prop
  | last {start : Nat} {s : List Char} : Cut start s [] [s]
  | span {start : Nat} {gap w rest : List Char} {m : Span} {ms : List Span}
    {gaps : List (List Char)}
      (hstart : m.start = start + Text.width gap) (hstop : m.stop = m.start + Text.width w)
      (hrest : Cut m.stop rest ms gaps) : Cut start (gap ++ w ++ rest) (m :: ms) (gap :: gaps)

theorem Cut.unique (h : Cut start s ms gs) (h' : Cut start s ms gs') : gs = gs' := by
  induction h generalizing gs' with
  | last => cases h'; rfl
  | @span start gap w rest m ms gaps hstart hstop _ ih =>
    generalize hs : gap ++ w ++ rest = s at h'
    cases h' with
    | @span _ gap' w' rest' _ _ gaps' hstart' hstop' hrest' =>
      rw [List.append_assoc, List.append_assoc] at hs
      obtain ⟨hgap, hrest⟩ := Text.append_inj_of_width hs (by omega)
      obtain ⟨-, rfl⟩ := Text.append_inj_of_width hrest (by omega)
      rw [hgap, ih hrest']

theorem Cut.literal (h : Cut (start + Text.width cs) s ms gs) :
    Cut start (cs ++ s) ms (gs.modifyHead (cs ++ ·)) := by
  cases h with
  | last => exact .last
  | @span _ gap w rest m ms gaps hstart hstop hrest =>
    have hspan : Cut start (cs ++ gap ++ w ++ rest) (m :: ms) ((cs ++ gap) :: gaps) :=
      .span (by rw [hstart, Text.width_append, Nat.add_assoc]) hstop hrest
    simpa [List.append_assoc] using hspan

def gaps : List Piece → List (List Char)
  | [] => [[]]
  | .literal cs :: ps => (gaps ps).modifyHead (cs ++ ·)
  | .placeholder _ _ :: ps => [] :: gaps ps

theorem cut_gaps (start : Nat) (ps : List Piece) :
    Cut start (ps.flatMap Piece.chars) (spansFrom start ps) (gaps ps) := by
  induction ps generalizing start with
  | nil => exact .last
  | cons p ps ih =>
    cases p with
    | literal cs => exact (ih _).literal
    | placeholder p cs =>
      have hspan : Cut start ([] ++ cs ++ ps.flatMap Piece.chars)
          (⟨start, start + Text.width cs, p⟩ :: spansFrom (start + Text.width cs) ps)
            ([] :: gaps ps) :=
        .span rfl rfl (ih _)
      exact hspan

theorem cut_scan_iff (text : String) (gs : List (List Char)) :
    Cut 0 text.toList (scan text) gs ↔ gs = gaps (pieces text.toList) := by
  have h := cut_gaps 0 (pieces text.toList)
  rw [flatMap_pieces] at h
  exact ⟨fun hgs => hgs.unique h, fun hgs => hgs ▸ h⟩

def weave : List (List Char) → List String → List Char
  | gap :: gaps, r :: rs => gap ++ r.toList ++ weave gaps rs
  | gaps, _ => gaps.flatten

theorem exists_cons_gaps (ps : List Piece) : ∃ g gs, gaps ps = g :: gs := by
  induction ps with
  | nil => exact ⟨_, _, rfl⟩
  | cons p ps ih =>
    cases p with
    | placeholder => exact ⟨_, _, rfl⟩
    | literal cs =>
      obtain ⟨g, gs, h⟩ := ih
      exact ⟨cs ++ g, gs, by rw [gaps, h]; rfl⟩

theorem fill_eq_weave {ps : List Piece} {rs : List String}
    (h : rs.length = (placeholders ps).length) :
    fill ps rs = weave (gaps ps) rs := by
  induction ps generalizing rs with
  | nil =>
    cases rs with
    | nil => rfl
    | cons r rs => cases h
  | cons p ps ih =>
    cases p with
    | literal cs =>
      obtain ⟨g, gs, hg⟩ := exists_cons_gaps ps
      rw [fill, ih h, gaps, hg]
      cases rs <;> simp [weave]
    | placeholder p cs =>
      cases rs with
      | nil => cases h
      | cons r rs => rw [fill, ih (Nat.succ.inj h), gaps, weave, List.nil_append]

end Manifest.Template
