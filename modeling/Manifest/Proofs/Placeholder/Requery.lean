import Manifest.Proofs.Placeholder.Gaps

/-! A placeholder without a query that is given the query for the value itself. The text around it
is cut as before: no placeholder that starts earlier can take in the new one, since the query is not
at its end when the first tilde behind it comes. -/
namespace Manifest

namespace Placeholder

variable {path : String} {w w' v rest : List Char} {c : Char} {q : Placeholder}

theorem append_tilde_inj {x x' y y' : List Char} (hx : '~' ∉ x) (hx' : '~' ∉ x')
    (h : x ++ '~' :: y = x' ++ '~' :: y') : x = x' ∧ y = y' := by
  induction x generalizing x' with
  | nil =>
    cases x' with
    | nil => exact ⟨rfl, (List.cons.inj h).2⟩
    | cons d x' => exact absurd ((List.cons.inj h).1 ▸ List.mem_cons_self ..) hx'
  | cons d x ih =>
    cases x' with
    | nil => exact absurd ((List.cons.inj h).1 ▸ List.mem_cons_self ..) hx
    | cons d' x' =>
      rw [List.mem_cons, not_or] at hx hx'
      obtain ⟨hd, h⟩ := List.cons.inj h
      obtain ⟨hrest, hy⟩ := ih hx.2 hx'.2 h
      exact ⟨by rw [hd, hrest], hy⟩

theorem notMem_of_blanks {blanks : List Char} (h : ∀ c ∈ blanks, Text.isBlank c)
    (hc : Text.isBlank c = false) :
    c ∉ blanks := fun hmem => by
  rw [h c hmem] at hc
  cases hc

theorem notMem_of_path {cs : List Char} (h : ∀ c ∈ cs, isPathChar c)
    (hc : isPathChar c = false) : c ∉ cs :=
  fun hmem => by
    rw [h c hmem] at hc
    cases hc

theorem exists_of_trimChars_eq_singleton {cs : List Char} (h : Text.trimChars cs = [c]) :
    ∃ blanks tail, cs = blanks ++ c :: tail ∧ ∀ d ∈ blanks, Text.isBlank d := by
  have hreverse : (cs.dropWhile Text.isBlank).reverse.dropWhile Text.isBlank = [c] := by
    rw [← List.reverse_reverse (List.dropWhile ..), ← Text.trimChars, h]
    rfl
  have hsplit : (cs.dropWhile Text.isBlank).reverse =
      (cs.dropWhile Text.isBlank).reverse.takeWhile Text.isBlank ++ [c] := by
    rw [← hreverse, List.takeWhile_append_dropWhile]
  refine ⟨cs.takeWhile Text.isBlank,
    ((cs.dropWhile Text.isBlank).reverse.takeWhile Text.isBlank).reverse, ?_, fun d hd =>
      List.mem_takeWhile_imp hd⟩
  have hdrop : cs.dropWhile Text.isBlank =
      c :: ((cs.dropWhile Text.isBlank).reverse.takeWhile Text.isBlank).reverse := by
    rw [← List.reverse_inj, List.reverse_cons, List.reverse_reverse]
    exact hsplit
  rw [← hdrop, List.takeWhile_append_dropWhile]

/-- How a placeholder with the query for the value itself begins: up to its first tilde, and behind
that white space and the query. -/
theorem exists_of_written_current (h : Written w ⟨path, some "@"⟩) :
    ∃ head blanks tail, w = head ++ '~' :: (blanks ++ '@' :: tail) ∧ '~' ∉ head ∧
      ∀ c ∈ blanks, Text.isBlank c := by
  generalize hq : (⟨path, some "@"⟩ : Placeholder) = q at h
  cases h with
  | @intro before word behind ending q hbefore hword hbehind hending =>
    cases hending with
    | bare => cases congrArg query hq
    | @query body space hne hbody hspace =>
      have htrim : Text.trimChars body = ['@'] := by
        have hquery := Option.some.inj (congrArg query hq)
        rw [← String.ofList_inj, ← hquery]
      obtain ⟨blanks, tail, rfl, hblanks⟩ := exists_of_trimChars_eq_singleton htrim
      refine ⟨'$' :: '{' :: (before ++ (word ++ behind)), blanks, tail ++ '~' :: (space ++ ['}']),
        by simp, ?_, hblanks⟩
      simp only [List.mem_cons, List.mem_append, not_or]
      exact ⟨by decide, by decide, notMem_of_blanks hbefore (by decide),
        notMem_of_path hword (by decide),
        notMem_of_blanks hbehind (by decide)⟩

theorem Written.exists_cons (h : Written w q) : ∃ t, w = '$' :: t := by
  cases h
  exact ⟨_, rfl⟩

theorem exists_of_append_dollar {u x y z : List Char} (hx : '$' ∉ x) (h : u ++ '$' :: z = x ++ y) :
    ∃ u', u' ++ '$' :: z = y := by
  rcases List.append_eq_append_iff.mp h with ⟨x', rfl, hz⟩ | ⟨u', rfl, hy⟩
  · cases x' with
    | nil => exact ⟨[], hz⟩
    | cons d x' =>
      obtain ⟨rfl, -⟩ := List.cons.inj hz
      exact absurd (by simp) hx
  · exact ⟨u', hy.symm⟩

theorem exists_of_written_append {u z : List Char} (hu : u ≠ []) (h : Written (u ++ '$' :: z) q) :
    ∃ body behind, z = body ++ '~' :: (behind ++ ['}']) ∧ '~' ∉ body ∧ ∀ c ∈ behind,
      Text.isBlank c := by
  generalize hs : u ++ '$' :: z = s at h
  cases h with
  | @intro before word behind ending q hbefore hword hbehind hending =>
    obtain ⟨d, u, rfl⟩ := List.exists_cons_of_ne_nil hu
    have hhead : '$' ∉ '{' :: (before ++ (word ++ behind)) := by
      simp only [List.mem_cons, List.mem_append, not_or]
      exact ⟨by decide, notMem_of_blanks hbefore (by decide), notMem_of_path hword (by decide),
        notMem_of_blanks hbehind (by decide)⟩
    have htail : u ++ '$' :: z = '{' :: (before ++ (word ++ behind)) ++ ending := by
      simpa using (List.cons.inj hs).2
    obtain ⟨u', hu'⟩ := exists_of_append_dollar hhead htail
    cases hending with
    | bare =>
      have hmem : '$' ∈ ['}'] := hu' ▸ by simp
      exact absurd hmem (by decide)
    | @query body space hne hbody hspace =>
      have hend : '$' ∉ '~' :: (space ++ ['}']) := by
        simp only [List.mem_cons, List.mem_append, List.not_mem_nil, or_false, not_or]
        exact ⟨by decide, notMem_of_blanks hspace (by decide), by decide⟩
      have hquery : ∃ u', u' ++ '$' :: z = body ++ '~' :: (space ++ ['}']) :=
        exists_of_append_dollar (x := ['~']) (by decide) hu'
      obtain ⟨u', hu'⟩ := hquery
      rcases List.append_eq_append_iff.mp hu' with ⟨b, rfl, hz⟩ | ⟨b, -, hz⟩
      · cases b with
        | nil => exact absurd (List.cons.inj hz).1 (by decide)
        | cons d b =>
          obtain ⟨rfl, rfl⟩ := List.cons.inj hz
          exact ⟨b, space, rfl, fun hb => hbody (by simp [hb]), hspace⟩
      · exact absurd (hz ▸ by simp) hend

/-- Where no placeholder starts, none does if one behind it is given the query for the value
itself. -/
theorem read_eq_none_of_current {u b : List Char} (hw' : Written w' ⟨path, some "@"⟩)
    (h : read (c :: (u ++ (w ++ b))) = none) :
    read (c :: (u ++ (w' ++ b))) = none := by
  by_contra hread
  obtain ⟨⟨q, rest⟩, hread⟩ := Option.ne_none_iff_exists'.mp hread
  obtain ⟨v, hv, hs⟩ := read_eq_some_iff.mp hread
  rw [← List.cons_append] at hs
  rcases List.append_eq_append_iff.mp hs with ⟨z, rfl, hz⟩ | ⟨u', hu', -⟩
  · -- It would reach into the new placeholder: then its query ends where the new one's begins.
    cases z with
    | nil =>
      rw [List.append_nil] at hv
      exact ne_append_of_read_eq_none h hv (w ++ b) (by simp)
    | cons d z =>
      obtain ⟨t, ht⟩ := hw'.exists_cons
      have hd : '$' = d := by
        rw [ht] at hz
        exact (List.cons.inj hz).1
      subst hd
      obtain ⟨body, behind, rfl, hbody, hbehind⟩ :=
        exists_of_written_append (List.cons_ne_nil c u) hv
      obtain ⟨head, blanks, tail, rfl, hhead, hblanks⟩ := exists_of_written_current hw'
      have hquery : '~' ∉ '$' :: body := by
        rw [List.mem_cons, not_or]
        exact ⟨by decide, hbody⟩
      have htilde : head ++ '~' :: (blanks ++ '@' :: (tail ++ b)) =
          '$' :: body ++ '~' :: (behind ++ '}' :: rest) := by simpa using hz
      obtain ⟨-, hbehindTilde⟩ := append_tilde_inj hhead hquery htilde
      have hskip := congrArg skip hbehindTilde
      rw [skip_append hblanks, skip_append hbehind, skip_cons (by decide),
        skip_cons (by decide)] at hskip
      exact absurd (List.cons.inj hskip).1 (by decide)
  · refine ne_append_of_read_eq_none h hv (u' ++ (w ++ b)) ?_
    rw [← List.cons_append, hu', List.append_assoc]

end Placeholder

namespace Template

open Placeholder

variable {path text text' : String} {w w' : List Char} {q q' : Placeholder}

theorem consChar_append_placeholder (c : Char) (before behind : List Piece) (q : Placeholder)
    (cs : List Char) :
    consChar c (before ++ .placeholder q cs :: behind) =
      consChar c before ++ .placeholder q cs :: behind := by
  cases before with
  | nil => rfl
  | cons p before => cases p <;> rfl

theorem start_le_of_mem_spansFrom {k : Nat} {ps : List Piece} {m : Span} (h : m ∈ spansFrom k ps) :
    k ≤ m.start := by
  induction ps generalizing k with
  | nil => cases h
  | cons p ps ih =>
    cases p with
    | literal cs => exact (Nat.le_add_right ..).trans (ih h)
    | placeholder q cs =>
      rcases List.mem_cons.mp h with rfl | h
      · exact Nat.le_refl _
      · exact (Nat.le_add_right ..).trans (ih h)

/-- Where scanning finds a placeholder without a query, the text has the same pieces before and
behind it if the placeholder is given the query for the value itself. -/
theorem exists_pieces_requeried (hw : Written w ⟨path, none⟩)
    (hw' : Written w' ⟨path, some "@"⟩) {k : Nat}
    {a b : List Char} (h : ∃ m ∈ spansFrom k (pieces (a ++ (w ++ b))), m.start = k + Text.width a) :
    ∃ before, pieces (a ++ (w ++ b)) = before ++ .placeholder ⟨path, none⟩ w :: pieces b ∧
      pieces (a ++ (w' ++ b)) = before ++ .placeholder ⟨path, some "@"⟩ w' :: pieces b := by
  generalize hs : a ++ (w ++ b) = s at h ⊢
  induction s using induction_pieces generalizing k a with
  | nil =>
    rw [List.append_eq_nil_iff, List.append_eq_nil_iff] at hs
    exact absurd hs.2.1 hw.ne_nil
  | char c s hc ih =>
    cases a with
    | nil => exact absurd hs.symm (ne_append_of_read_eq_none hc hw b)
    | cons d a =>
      obtain ⟨rfl, rfl⟩ := List.cons.inj hs
      obtain ⟨m, hm, hstart⟩ := h
      rw [pieces_cons_of_none hc, spansFrom_consChar] at hm
      rw [Text.width_cons, ← Nat.add_assoc] at hstart
      obtain ⟨before, hpieces, hpieces'⟩ := ih rfl ⟨m, hm, hstart⟩
      refine ⟨consChar d before, ?_, ?_⟩
      · rw [pieces_cons_of_none hc, hpieces, consChar_append_placeholder]
      · rw [List.cons_append, pieces_cons_of_none (read_eq_none_of_current hw' hc), hpieces',
          consChar_append_placeholder]
  | placeholder v q rest hv ih =>
    obtain ⟨m, hm, hstart⟩ := h
    rw [pieces_append_of_written hv] at hm ⊢
    rcases List.mem_cons.mp hm with rfl | hm
    · have ha : a = [] := by
        by_contra hne
        have hpos := Text.width_pos hne
        simp only at hstart
        omega
      subst ha
      obtain ⟨rfl, rfl⟩ := hw.unique hv hs
      obtain rfl : b = rest := List.append_cancel_left hs
      exact ⟨[], rfl, pieces_append_of_written hw' b⟩
    · have hle := start_le_of_mem_spansFrom hm
      obtain ⟨a', rfl, hrest⟩ := Text.exists_append_of_width_le hs.symm (by omega)
      rw [Text.width_append, ← Nat.add_assoc] at hstart
      obtain ⟨before, hpieces, hpieces'⟩ := ih hrest.symm ⟨m, hm, hstart⟩
      refine ⟨.placeholder q v :: before, by rw [hpieces, List.cons_append], ?_⟩
      rw [List.append_assoc, pieces_append_of_written hv, hpieces', List.cons_append]

/-- One text is the other but for a placeholder that scanning finds: without a query in the one, and
with the query for the value itself in the other. -/
def Requeried (path text text' : String) : Prop :=
  ∃ a w w' b, text.toList = a ++ (w ++ b) ∧ text'.toList = a ++ (w' ++ b) ∧
    Written w ⟨path, none⟩ ∧ Written w' ⟨path, some "@"⟩ ∧
    ⟨Text.width a, Text.width (a ++ w), ⟨path, none⟩⟩ ∈ scan text

/-- A path in braces where scanning finds a placeholder, and the same with the query behind it. -/
theorem requeried_of_scan {a b : List Char} (hpath : ∀ c ∈ path.toList, isPathChar c)
    (htext : text.toList = a ++ ('$' :: '{' :: (path.toList ++ ['}']) ++ b))
    (htext' :
    text'.toList = a ++ ('$' :: '{' :: (path.toList ++ [' ', '~', ' ', '@', ' ', '~', '}']) ++ b))
    (hm : ∃ m ∈ scan text, m.start = Text.width a) : Requeried path text text' := by
  have hname : String.ofList path.toList = path := String.ofList_toList
  have hbare : Written ('$' :: '{' :: (path.toList ++ ['}'])) ⟨path, none⟩ := by
    have hending := @Ending.bare path.toList
    rw [hname] at hending
    exact @Written.intro [] path.toList [] _ _ nofun hpath nofun hending
  have hquery : Written ('$' :: '{' :: (path.toList ++ [' ', '~', ' ', '@', ' ', '~', '}']))
    ⟨path, some "@"⟩ := by
    have hending :=
      @Ending.query path.toList [' ', '@', ' '] [] (List.cons_ne_nil _ _) (by simp) nofun
    have htrim : String.ofList (Text.trimChars [' ', '@', ' ']) = "@" := by decide
    rw [hname, htrim] at hending
    exact @Written.intro [] path.toList [' '] _ _ nofun hpath (by simp [Text.isBlank]) hending
  obtain ⟨m, hm, hstart⟩ := hm
  refine ⟨a, _, _, b, htext, htext', hbare, hquery, ?_⟩
  have hfound := ((leftmost_scan text).occurs m hm).1
  have hthere : Occurs text.toList
    ⟨Text.width a, Text.width (a ++ '$' :: '{' :: (path.toList ++ ['}'])), ⟨path, none⟩⟩ :=
    ⟨a, _, b, by rw [htext, List.append_assoc], hbare, rfl, rfl⟩
  rwa [hfound.unique hthere hstart] at hm

theorem Requeried.exists_pieces (h : Requeried path text text') :
    ∃ before w w' behind, pieces text.toList = before ++ .placeholder ⟨path, none⟩ w :: behind ∧
      pieces text'.toList = before ++ .placeholder ⟨path, some "@"⟩ w' :: behind := by
  obtain ⟨a, w, w', b, htext, htext', hw, hw', hm⟩ := h
  rw [scan, htext] at hm
  obtain ⟨before, hpieces, hpieces'⟩ :=
    exists_pieces_requeried hw hw' ⟨_, hm, (Nat.zero_add _).symm⟩
  exact ⟨before, w, w', pieces b, htext ▸ hpieces, htext' ▸ hpieces'⟩

theorem placeholders_append_placeholder (before behind : List Piece) (q : Placeholder)
    (cs : List Char) :
    placeholders (before ++ .placeholder q cs :: behind) =
      placeholders before ++ q :: placeholders behind := by
  induction before with
  | nil => rfl
  | cons p before ih => cases p <;> simp [placeholders, ih]

theorem gaps_append_placeholder (before behind : List Piece) (cs cs' : List Char) :
    gaps (before ++ .placeholder q cs :: behind) =
      gaps (before ++ .placeholder q' cs' :: behind) := by
  induction before with
  | nil => rfl
  | cons p before ih => cases p <;> simp [gaps, ih]

/-- The text around the placeholders stays, and so does what they are, but for the query of one. -/
theorem Requeried.gaps_eq (h : Requeried path text text') :
    gaps (pieces text'.toList) = gaps (pieces text.toList) ∧
      ∃ before behind, placeholders (pieces text.toList) = before ++ ⟨path, none⟩ :: behind ∧
        placeholders (pieces text'.toList) = before ++ ⟨path, some "@"⟩ :: behind := by
  obtain ⟨before, w, w', behind, hpieces, hpieces'⟩ := h.exists_pieces
  refine ⟨?_, placeholders before, placeholders behind, ?_, ?_⟩
  · rw [hpieces, hpieces', gaps_append_placeholder]
  · rw [hpieces, placeholders_append_placeholder]
  · rw [hpieces', placeholders_append_placeholder]

end Template
end Manifest
