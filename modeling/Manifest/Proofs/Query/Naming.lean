import Manifest.Proofs.Query.Sites
import Manifest.Proofs.Query.Spelling
import Manifest.Proofs.Placeholder.Scan

/-! Where the calls of an expression stand in the text of a query, and which name is found in front
of the parenthesis of each. -/
namespace Manifest

namespace Query

namespace Token

theorem exists_of_enclosed {quote : Char} {s cs rest : List Char}
    (h : enclosed quote s = some (cs, rest)) : ∃ w, s = w ++ quote :: rest := by
  fun_induction enclosed quote s generalizing cs with
  | case1 => cases h
  | case2 c s ih =>
    obtain ⟨⟨ds, rest'⟩, hds, heq⟩ := Option.map_eq_some_iff.mp h
    cases heq
    obtain ⟨w, rfl⟩ := ih hds
    exact ⟨_ :: _ :: w, rfl⟩
  | case3 s =>
    cases h
    exact ⟨[], rfl⟩
  | case4 c s _ hc ih =>
    obtain ⟨⟨ds, rest'⟩, hds, heq⟩ := Option.map_eq_some_iff.mp h
    cases heq
    obtain ⟨w, rfl⟩ := ih hds
    exact ⟨c :: w, rfl⟩

def isOther : Token → Bool
  | .name _ | .openParen | .closeParen => false
  | _ => true

/-- How a token is written, with what stands behind it. A name goes on as far as it can, and tokens
other than names and numbers do not end like a name. -/
inductive Written : Token → List Char → List Char → Prop
  | name {name : String} {rest : List Char} (hname : isName name)
    (hrest : rest.takeWhile isNameChar = []) : Written (.name name) name.toList rest
  | number (n : Int) (c : Char) (w rest : List Char) : Written (.number n) (c :: w) rest
  | openParen (rest : List Char) : Written .openParen ['('] rest
  | closeParen (rest : List Char) : Written .closeParen [')'] rest
  | other {t : Token} {w : List Char} {c : Char} {rest : List Char} (ht : isOther t)
    (hc : isNameChar c = false) : Written t (w ++ [c]) rest

theorem toList_ne_nil_of_isName {name : String} (h : isName name) : name.toList ≠ [] := by
  intro hnil
  unfold isName at h
  rw [hnil] at h
  cases h

theorem Written.ne_nil {t : Token} {w rest : List Char} (h : Written t w rest) : w ≠ [] := by
  cases h with
  | name hname => exact toList_ne_nil_of_isName hname
  | number | openParen | closeParen => nofun
  | other => simp

theorem written_of_enclosed {quote : Char} {s cs rest : List Char} {t : Token}
    (h : enclosed quote s = some (cs, rest)) (hquote : isNameChar quote = false) (ht : isOther t) :
    ∃ w, s = w ++ rest ∧ Written t (quote :: w) rest := by
  obtain ⟨w, rfl⟩ := exists_of_enclosed h
  exact ⟨w ++ [quote], by simp, .other (w := quote :: w) ht hquote⟩

theorem written_of_read {c : Char} {s rest : List Char} {t : Token}
    (h : read c s = some (t, rest)) :
    ∃ w, s = w ++ rest ∧ Written t (c :: w) rest := by
  unfold read at h
  split at h
  · next hc =>
    cases h
    have hname : isName (String.ofList (c :: s.takeWhile isNameChar)) := by
      rw [isName, String.toList_ofList]
      exact (Bool.and_eq_true _ _).mpr ⟨hc, List.all_takeWhile⟩
    have hrest : (s.dropWhile isNameChar).takeWhile isNameChar = [] := by
      have hsplit := List.takeWhile_append_dropWhile (p := isNameChar) (l := s.dropWhile isNameChar)
      rwa [List.dropWhile_idempotent, List.append_left_eq_self] at hsplit
    have hwritten := Written.name hname hrest
    rw [String.toList_ofList] at hwritten
    exact ⟨s.takeWhile isNameChar, List.takeWhile_append_dropWhile.symm, hwritten⟩
  split at h
  · obtain ⟨n, -, heq⟩ := Option.map_eq_some_iff.mp h
    cases heq
    exact ⟨s.takeWhile Char.isDigit, List.takeWhile_append_dropWhile.symm, .number ..⟩
  split at h
  · split at h
    · split at h
      · obtain ⟨n, -, heq⟩ := Option.map_eq_some_iff.mp h
        cases heq
        exact ⟨_, List.takeWhile_append_dropWhile.symm, .number ..⟩
      · cases h
    · cases h
  split at h
  · next hc =>
    simp only [Option.bind_eq_bind, Option.bind_eq_some_iff, Prod.exists] at h
    obtain ⟨cs, rest', hcs, h⟩ := h
    split at h
    · cases h
      exact written_of_enclosed hcs (by rw [hc]; rfl) rfl
    · cases h
  split at h
  · next hc =>
    obtain ⟨⟨cs, rest'⟩, hcs, heq⟩ := Option.map_eq_some_iff.mp h
    cases heq
    exact written_of_enclosed hcs (by rw [hc]; rfl) rfl
  split at h
  · next hc =>
    simp only [Option.bind_eq_bind, Option.bind_eq_some_iff, Prod.exists] at h
    obtain ⟨cs, rest', hcs, value, -, h⟩ := h
    cases h
    exact written_of_enclosed hcs (by rw [hc]; rfl) rfl
  -- What is left are tokens of one or two characters.
  split at h
  all_goals cases h
  all_goals first
    | exact ⟨[], rfl, .openParen _⟩
    | exact ⟨[], rfl, .closeParen _⟩
    | exact ⟨[], rfl, .other (w := []) rfl rfl⟩
    | exact ⟨[_], rfl, .other (w := [_]) rfl rfl⟩

/-- A text from an octet offset on: the tokens in it, with blanks between them. -/
inductive Scanned : Nat → List Char → Expr.Tokens → Prop
  | nil (offset : Nat) : Scanned offset [] []
  | blank {offset : Nat} {c : Char} {s : List Char} {ts : Expr.Tokens} (hc : Json.Reader.isSpace c)
    (hs : Scanned (offset + c.utf8Size) s ts) : Scanned offset (c :: s) ts
  | token {offset : Nat} {t : Token} {w s : List Char} {ts : Expr.Tokens} (hw : Written t w s)
    (hs : Scanned (offset + Text.width w) s ts) : Scanned offset (w ++ s) ((offset, t) :: ts)

theorem scanned_of_readAfter {offset : Nat} {s : List Char} {ts : Expr.Tokens}
    (h : readAfter 0 offset s = some ts) : Scanned offset s ts := by
  induction hn : s.length using Nat.strong_induction_on generalizing offset s ts with
  | _ n ih =>
    cases s with
    | nil => cases h; exact .nil offset
    | cons c s =>
      cases hspace : Json.Reader.isSpace c with
      | true =>
        rw [readAfter, if_pos hspace] at h
        exact .blank hspace (ih s.length (by simp [← hn]) h rfl)
      | false =>
        cases hread : read c s with
        | none => simp [readAfter, hspace, hread] at h
        | some r =>
          obtain ⟨t, rest⟩ := r
          obtain ⟨w, rfl, hw⟩ := written_of_read hread
          rw [readAfter_of_read hspace hread] at h
          obtain ⟨ts', hts', rfl⟩ := Option.map_eq_some_iff.mp h
          exact .token hw (ih rest.length (by simp [← hn]) hts' rfl)

def isNameOrParen (c : Char) : Bool := isNameChar c || c == '('

theorem not_isNameOrParen_of_isSpace {c : Char} (h : Json.Reader.isSpace c) :
    isNameOrParen c = false := by
  simp only [Json.Reader.isSpace, Bool.or_eq_true, beq_iff_eq] at h
  rcases h with ((rfl | rfl) | rfl) | rfl <;> rfl

theorem Scanned.exists_cons {offset p : Nat} {s : List Char} {t : Token} {ts : Expr.Tokens}
    (h : Scanned offset s ((p, t) :: ts)) :
    ∃ blanks w rest, s = blanks ++ (w ++ rest) ∧ (∀ c ∈ blanks, Json.Reader.isSpace c) ∧
      Written t w rest ∧ p = offset + Text.width blanks ∧ Scanned (p + Text.width w) rest ts := by
  generalize hall : (p, t) :: ts = all at h
  induction h with
  | nil => cases hall
  | @blank offset c s _ hc _ ih =>
    obtain ⟨blanks, w, rest, rfl, hblanks, hw, rfl, hrest⟩ := ih hall
    refine ⟨c :: blanks, w, rest, rfl, List.forall_mem_cons.mpr ⟨hc, hblanks⟩, hw, ?_, hrest⟩
    rw [Text.width_cons, Nat.add_assoc]
  | token hw hs _ =>
    cases hall
    exact ⟨[], _, _, rfl, nofun, hw, rfl, hs⟩

theorem isNameChar_of_isName {name : String} (h : isName name) :
    ∀ c ∈ name.toList, isNameChar c := by
  unfold isName at h
  cases hname : name.toList with
  | nil => nofun
  | cons c cs =>
    rw [hname] at h
    obtain ⟨hc, hcs⟩ := (Bool.and_eq_true _ _).mp h
    refine List.forall_mem_cons.mpr ⟨?_, List.all_eq_true.mp hcs⟩
    unfold isNameStart at hc
    unfold isNameChar Char.isAlphanum
    cases hletter : c.isAlpha with
    | true => rfl
    | false =>
      rw [hletter, Bool.false_or] at hc
      rw [hc, Bool.or_true]

theorem Written.of_name {name : String} {w rest : List Char} (h : Written (.name name) w rest) :
    w = name.toList ∧ isName name ∧ rest.takeWhile isNameChar = [] := by
  cases h with
  | name hname hrest => exact ⟨rfl, hname, hrest⟩
  | other ht => cases ht

theorem Written.of_openParen {w rest : List Char} (h : Written .openParen w rest) : w = ['('] := by
  cases h with
  | openParen => rfl
  | other ht => cases ht

theorem Written.of_closeParen {w rest : List Char} (h : Written .closeParen w rest) :
    w = [')'] := by
  cases h with
  | closeParen => rfl
  | other ht => cases ht

theorem Written.not_isNameChar {o p : Nat} {t : Token} {ts : Expr.Tokens} {v w rest : List Char}
    {name : String} {c : Char} (h : Written t v (w ++ rest)) (hw : Written (.name name) w rest)
    (hclosed : Expr.Closed ((o, t) :: (p, .name name) :: ts)) (hc : v.getLast? = some c) :
    isNameChar c = false := by
  cases h with
  | name _ hrest =>
    obtain ⟨rfl, hname, -⟩ := hw.of_name
    have hne := hw.ne_nil
    have hchars := isNameChar_of_isName hname
    cases hcs : name.toList with
    | nil => exact absurd hcs hne
    | cons d cs =>
      have hd : isNameChar d := hchars d (by rw [hcs]; exact List.mem_cons_self)
      rw [hcs, List.cons_append, List.takeWhile_cons_of_pos hd] at hrest
      cases hrest
  | number n =>
    have hnumber : Expr.Closed ([] ++ (o, .number n) :: (p, .name name) :: ts) := hclosed
    obtain ⟨_, _, _, heq, ht⟩ := hnumber.behind_number
    cases heq
    rcases ht with ht | ht <;> cases ht
  | openParen | closeParen => cases hc; rfl
  | other _ hlast =>
    rw [List.getLast?_concat] at hc
    cases hc
    exact hlast

/-- The tokens before a token take up the text before it. No number stands before a name, so a name
does not go on from what is before it. -/
theorem Scanned.exists_split {offset p : Nat} {s : List Char} {t : Token} {us ts : Expr.Tokens}
    (h : Scanned offset s (us ++ (p, t) :: ts)) (hclosed : Expr.Closed (us ++ (p, t) :: ts)) :
    ∃ before w rest, s = before ++ (w ++ rest) ∧ Written t w rest ∧
      p = offset + Text.width before ∧ Scanned (p + Text.width w) rest ts ∧
        (us ≠ [] → before ≠ []) ∧
      ∀ name, t = .name name → ∀ c, before.getLast? = some c → isNameChar c = false := by
  -- By induction on the scan. That each token takes up text tells whether one stands right before
  -- the name.
  generalize hall : us ++ (p, t) :: ts = all at h hclosed
  induction h generalizing us with
  | nil => simp at hall
  | @blank offset c s _ hc _ ih =>
    obtain ⟨before, w, rest, rfl, hw, rfl, hrest, hne, hlast⟩ := ih hall hclosed
    refine ⟨c :: before, w, rest, rfl, hw, by rw [Text.width_cons, Nat.add_assoc], hrest, nofun, ?_⟩
    intro name hname d hd
    cases before with
    | nil =>
      cases hd
      exact (Bool.or_eq_false_iff.mp (not_isNameOrParen_of_isSpace hc)).1
    | cons b before => exact hlast name hname d hd
  | @token offset u x s' ts' hx hs ih =>
    rcases us with _ | ⟨_, us⟩
    · cases hall
      exact ⟨[], x, s', rfl, hx, rfl, hs, absurd rfl, nofun⟩
    · rw [List.cons_append] at hall
      obtain ⟨rfl, htail⟩ := List.cons.inj hall
      obtain ⟨before, w, rest, rfl, hw, rfl, hrest, hne, hlast⟩ := ih htail hclosed.tail
      refine ⟨x ++ before, w, rest, by simp, hw, by rw [Text.width_append, Nat.add_assoc], hrest,
        by simp [hx.ne_nil], ?_⟩
      rintro name rfl d hd
      by_cases hbefore : before = []
      · subst hbefore
        obtain rfl : us = [] := by
          by_contra hus
          exact hne hus rfl
        subst htail
        rw [List.append_nil] at hd
        have hx : Written u x (w ++ rest) := hx
        exact hx.not_isNameChar hw hclosed hd
      · rw [List.getLast?_append_of_ne_nil _ hbefore] at hd
        exact hlast name rfl d hd

end Token

/-- The text of a call is plain: the parenthesis comes right behind the name, and none comes right
before it. -/
def Plainly (text : String) (site : Nat × String) : Prop :=
  ∃ before behind, text.toList = before ++ site.2.toList ++ '(' :: behind ∧
    Text.width (before ++ site.2.toList) = site.1 ∧ before.getLast? ≠ some '('

theorem nameBefore_width {text : String} {before behind : List Char}
    (h : text.toList = before ++ behind) :
    nameBefore text (Text.width before) =
      String.ofList
        ((before.reverse.takeWhile Token.isNameOrParen).dropWhile (· == '(')).reverse := by
  rw [nameBefore, h, Text.takeOctets_width]
  rfl

theorem takeWhile_reverse_eq_nil_iff {p : Char → Bool} {s : List Char} :
    s.reverse.takeWhile p = [] ↔ ∀ c, s.getLast? = some c → p c = false := by
  rcases List.eq_nil_or_concat s with rfl | ⟨s, c, rfl⟩
  · simp
  · cases hc : p c <;> simp [hc]

/-- No name is found behind a character that is neither part of a name nor an open parenthesis. -/
theorem nameBefore_eq_empty {text : String} {before behind : List Char} {c : Char}
    (h : text.toList = before ++ [c] ++ behind) (hc : Token.isNameOrParen c = false) :
    nameBefore text (Text.width (before ++ [c])) = "" := by
  rw [nameBefore_width h, List.reverse_concat, List.takeWhile_cons_of_neg (by rw [hc]; nofun)]
  rfl

/-- What is found in front of a parenthesis that comes right behind a name: the name, and before it
what is part of names or opens parentheses. -/
theorem nameBefore_name {text name : String} {before behind : List Char} (hname : Token.isName name)
    (h : text.toList = before ++ name.toList ++ behind) :
    nameBefore text (Text.width (before ++ name.toList)) =
      String.ofList ((before.reverse.takeWhile Token.isNameOrParen).reverse ++ name.toList) := by
  have hchars := Token.isNameChar_of_isName hname
  have hall : ∀ c ∈ name.toList.reverse, Token.isNameOrParen c := fun c hc => by
    rw [Token.isNameOrParen, hchars c (List.mem_reverse.mp hc), Bool.true_or]
  rw [nameBefore_width h, List.reverse_append, List.takeWhile_append_of_pos hall]
  cases hrev : name.toList.reverse with
  | nil => exact absurd (List.reverse_eq_nil_iff.mp hrev) (Token.toList_ne_nil_of_isName hname)
  | cons c cs =>
    have hmem : c ∈ name.toList := List.mem_reverse.mp (by rw [hrev]; exact List.mem_cons_self)
    have hc : ¬(c == '(') = true := by
      intro hparen
      have hparens := hchars c hmem
      rw [beq_iff_eq.mp hparen] at hparens
      cases hparens
    rw [List.cons_append, List.dropWhile_cons_of_neg (p := (· == '(')) hc,
      ← List.cons_append, ← hrev,
      List.reverse_append, List.reverse_reverse]

namespace Expr

variable {text : String} {e : Expr} {site : Nat × String}

/-- The text up to the parenthesis of a call ends in its name, or in what is neither part of a name
nor an open parenthesis. -/
theorem exists_before_site (h : ofText? text = some e) (hsite : site ∈ e.sites) :
    ∃ before behind, text.toList = before ++ '(' :: behind ∧ Text.width before = site.1 ∧
      ((∃ start, before = start ++ site.2.toList ∧ Token.isName site.2 ∧
          ∀ c, start.getLast? = some c → Token.isNameChar c = false) ∨
        ∃ start c, before = start ++ [c] ∧ Token.isNameOrParen c = false) := by
  obtain ⟨tokens, hread, hclosed, hstands⟩ := exists_tokens h
  obtain ⟨us, p, t, ts, rfl, ht⟩ := hstands site hsite
  have hscanned := Token.scanned_of_readAfter hread
  obtain ⟨start, w, rest, htext, hw, rfl, hrest, -, hlast⟩ := hscanned.exists_split hclosed
  obtain ⟨blanks, v, behind, rfl, hblanks, hv, hoffset, -⟩ := hrest.exists_cons
  obtain rfl := hv.of_openParen
  have hsplit : text.toList = (start ++ w ++ blanks) ++ '(' :: behind := by rw [htext]; simp
  refine ⟨start ++ w ++ blanks, behind, hsplit, by rw [hoffset]; simp [Nat.add_assoc], ?_⟩
  rcases List.eq_nil_or_concat blanks with rfl | ⟨blanks, c, rfl⟩
  · rw [List.append_nil]
    rcases ht with rfl | rfl
    · obtain ⟨rfl, hname, -⟩ := hw.of_name
      exact .inl ⟨start, rfl, hname, hlast _ rfl⟩
    · obtain rfl := hw.of_closeParen
      exact .inr ⟨start, ')', rfl, rfl⟩
  · have hc : Json.Reader.isSpace c := hblanks c (by simp)
    exact .inr ⟨start ++ w ++ blanks, c, by simp, Token.not_isNameOrParen_of_isSpace hc⟩

/-- The name found in front of the parenthesis of a call is the name of the call just if the call is
written plainly. -/
theorem nameBefore_eq_iff (h : ofText? text = some e) (hsite : site ∈ e.sites)
    (hname : Token.isName site.2) : nameBefore text site.1 = site.2 ↔ Plainly text site := by
  obtain ⟨before, behind, htext, hwidth, hends⟩ := exists_before_site h hsite
  -- What a text holds up to a width is one text, so the call is plain only there.
  have hunique : ∀ {start' behind'}, text.toList = start' ++ site.2.toList ++ '(' :: behind' →
      Text.width (start' ++ site.2.toList) = site.1 → start' ++ site.2.toList = before :=
    fun htext' hwidth' =>
      (Text.append_inj_of_width (htext'.symm.trans htext) (hwidth'.trans hwidth.symm)).1
  rw [← hwidth]
  rcases hends with ⟨start, rfl, -, hlast⟩ | ⟨start, c, rfl, hc⟩
  · rw [nameBefore_name hname htext]
    constructor
    · intro heq
      have hnil : (start.reverse.takeWhile Token.isNameOrParen).reverse = [] := by
        have hchars := congrArg String.toList heq
        rwa [String.toList_ofList, List.append_left_eq_self] at hchars
      refine ⟨start, behind, htext, hwidth, fun hparen => ?_⟩
      cases takeWhile_reverse_eq_nil_iff.mp (List.reverse_eq_nil_iff.mp hnil) '(' hparen
    · rintro ⟨start', behind', htext', hwidth', hparen⟩
      obtain rfl := List.append_cancel_right (hunique htext' hwidth')
      have hnil : start'.reverse.takeWhile Token.isNameOrParen = [] := by
        refine takeWhile_reverse_eq_nil_iff.mpr fun c hc => ?_
        rw [Token.isNameOrParen, hlast c hc, Bool.false_or, beq_eq_false_iff_ne]
        rintro rfl
        exact hparen hc
      rw [hnil, List.reverse_nil, List.nil_append, String.ofList_toList]
  · rw [nameBefore_eq_empty htext hc]
    have hne := Token.toList_ne_nil_of_isName hname
    constructor
    · intro hempty
      rw [← hempty] at hne
      exact absurd rfl hne
    · rintro ⟨start', behind', htext', hwidth', -⟩
      -- The last character of a name is part of names.
      obtain ⟨cs, d, hd⟩ := (List.eq_nil_or_concat site.2.toList).resolve_left hne
      have hlast := hunique htext' hwidth'
      rw [hd, List.concat_eq_append, ← List.append_assoc] at hlast
      obtain rfl : d = c := by simpa using (List.append_inj' hlast rfl).2
      have hchar := Token.isNameChar_of_isName hname d (by rw [hd]; simp)
      rw [Token.isNameOrParen, hchar] at hc
      cases hc

end Expr
end Query
end Manifest
