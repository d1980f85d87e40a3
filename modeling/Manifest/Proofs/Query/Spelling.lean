import Manifest.Query
import Mathlib.Data.List.TakeWhile

/-! How calls are written in a query. A call of a function on what another text denotes is read as
that call wherever it stands, and so are calls inside one another on the value itself. -/
namespace Manifest

theorem Text.trim_ne_empty {s : String} {c : Char} (hc : c ∈ s.toList)
    (hblank : isBlank c = false) :
    trim s ≠ "" := by
  intro h
  have hnil : trimChars s.toList = [] := by simpa [trim] using congrArg String.toList h
  rw [trimChars, List.reverse_eq_nil_iff, List.dropWhile_eq_nil_iff] at hnil
  have hall : isBlank c := by
    rw [← List.takeWhile_append_dropWhile (p := isBlank) (l := s.toList), List.mem_append] at hc
    rcases hc with hc | hc
    · exact List.mem_takeWhile_imp hc
    · exact hnil c (List.mem_reverse.mpr hc)
  rw [hblank] at hall
  cases hall

namespace Query

namespace Token

def isName (name : String) : Bool :=
  match name.toList with
  | [] => false
  | c :: cs => isNameStart c && cs.all isNameChar

theorem isSpace_of_isNameStart {c : Char} (h : isNameStart c) : Json.Reader.isSpace c = false := by
  by_contra hspace
  simp only [Json.Reader.isSpace, Bool.not_eq_false, Bool.or_eq_true, beq_iff_eq] at hspace
  rcases hspace with ((rfl | rfl) | rfl) | rfl <;> cases h

variable {offset : Nat} {s : List Char}

theorem readAfter_append (offset : Nat) (w s : List Char) :
    readAfter w.length offset (w ++ s) = readAfter 0 (offset + Text.width w) s := by
  induction w generalizing offset with
  | nil => rfl
  | cons c w ih =>
    rw [List.cons_append, List.length_cons, readAfter, ih, Text.width_cons, Nat.add_assoc]

theorem readAfter_of_read {c : Char} {w : List Char} {t : Token}
    (hspace : Json.Reader.isSpace c = false)
    (h : read c (w ++ s) = some (t, s)) :
    readAfter 0 offset (c :: (w ++ s)) =
      (readAfter 0 (offset + Text.width (c :: w)) s).map ((offset, t) :: ·) := by
  have hlen : (w ++ s).length - s.length = w.length := by simp
  rw [readAfter, hspace, if_neg Bool.false_ne_true, h]
  simp only [hlen, readAfter_append, Text.width_cons, Nat.add_assoc]

theorem readAfter_cons {c : Char} {t : Token} (hspace : Json.Reader.isSpace c = false)
    (hsize : c.utf8Size = 1) (h : read c s = some (t, s)) :
    readAfter 0 offset (c :: s) = (readAfter 0 (offset + 1) s).map ((offset, t) :: ·) := by
  have hread : readAfter 0 offset (c :: ([] ++ s)) =
      (readAfter 0 (offset + Text.width [c]) s).map ((offset, t) :: ·) := readAfter_of_read hspace h
  rwa [Text.width_cons, hsize] at hread

theorem readAfter_name {name : String} (h : isName name) (hs : s.takeWhile isNameChar = []) :
    readAfter 0 offset (name.toList ++ s) =
      (readAfter 0 (offset + Text.width name.toList) s).map ((offset, .name name) :: ·) := by
  unfold isName at h
  cases hname : name.toList with
  | nil => rw [hname] at h; cases h
  | cons c cs =>
    rw [hname] at h
    obtain ⟨hc, hcs⟩ := (Bool.and_eq_true _ _).mp h
    rw [List.all_eq_true] at hcs
    have hrest : s.dropWhile isNameChar = s := by
      simpa [hs] using List.takeWhile_append_dropWhile (p := isNameChar) (l := s)
    have hread : read c (cs ++ s) = some (.name name, s) := by
      unfold read
      rw [if_pos hc, List.takeWhile_append_of_pos hcs, List.dropWhile_append_of_pos hcs, hs, hrest,
        List.append_nil, ← hname, String.ofList_toList]
    exact readAfter_of_read (isSpace_of_isNameStart hc) hread

end Token

namespace Expr

theorem readItems_single {n o : Nat} {t : Nat × Token} {ts rest : Tokens} {e : Expr}
    (ht : t.2.isCloseParen = false)
    (h : read (n + 1) 0 (t :: ts) = some (e, (o, .closeParen) :: rest)) :
    readItems (n + 2) Token.isCloseParen (t :: ts) = some ([e], rest) := by
  have hend : readItems (n + 1) Token.isCloseParen ((o, .closeParen) :: rest) =
    some ([], rest) := by
    simp [readItems, Token.isCloseParen]
  rw [readItems, ht, if_neg Bool.false_ne_true, h]
  simp [hend]

theorem read_call {n o o' : Nat} {f : String} {ts rest : Tokens} {args : List Expr}
    (h : readItems (n + 1) Token.isCloseParen ts = some (args, rest)) (hrest : nextPower rest = 0) :
    read (n + 4) 0 ((o, .name f) :: (o', .openParen) :: ts) = some (.call o' f args, rest) := by
  have hnext : readNext (n + 2) (.field f) ((o', .openParen) :: ts) =
    some (.call o' f args, rest) := by
    rw [readNext, h]
    rfl
  have hbinds : 0 < nextPower ((o', .openParen) :: ts) := Nat.succ_pos 59
  have hon : readOn (n + 3) 0 (.field f) ((o', .openParen) :: ts) =
    some (.call o' f args, rest) := by
    rw [readOn, if_pos hbinds, hnext]
    simp [readOn, hrest]
  rw [read, readStart]
  exact hon

/-- The text at an offset is made of tokens that are read as an expression, wherever what stands
behind it neither goes on with a name nor binds to what is before. -/
structure Spells (s : List Char) (offset : Nat) (e : Expr) (tokens : Tokens) : Prop where
  opens : ∃ t ts, tokens = t :: ts ∧ t.2.isCloseParen = false
  scan : ∀ rest, rest.takeWhile Token.isNameChar = [] →
    Token.readAfter 0 offset (s ++ rest) =
      (Token.readAfter 0 (offset + Text.width s) rest).map (tokens ++ ·)
  read : ∀ fuel rest, 8 * tokens.length ≤ fuel → nextPower rest = 0 →
    read fuel 0 (tokens ++ rest) = some (e, rest)

variable {s : List Char} {offset : Nat} {e : Expr} {tokens : Tokens}

theorem spells_current (offset : Nat) : Spells ['@'] offset .current [(offset, .current)] where
  opens := ⟨_, _, rfl, rfl⟩
  scan rest _ := Token.readAfter_cons rfl rfl rfl
  read fuel rest hfuel hrest := by
    obtain ⟨n, rfl⟩ := Nat.exists_eq_add_of_le' hfuel
    simp [Expr.read, readStart, readOn, hrest]

theorem Spells.call {f : String} (hf : Token.isName f)
    (h : Spells s (offset + Text.width f.toList + 1) e tokens) :
    Spells (f.toList ++ '(' :: (s ++ [')'])) offset (.call (offset + Text.width f.toList) f [e])
      ((offset, .name f) :: (offset + Text.width f.toList, .openParen) ::
        (tokens ++ [(offset + Text.width f.toList + 1 + Text.width s, .closeParen)])) where
  opens := ⟨_, _, rfl, rfl⟩
  scan rest _ := by
    let o := offset + Text.width f.toList
    have hopen : Token.readAfter 0 o ('(' :: (s ++ ')' :: rest)) =
        (Token.readAfter 0 (o + 1) (s ++ ')' :: rest)).map ((o, .openParen) :: ·) :=
      Token.readAfter_cons rfl rfl rfl
    have hclose : Token.readAfter 0 (o + 1 + Text.width s) (')' :: rest) =
        (Token.readAfter 0 (o + 1 + Text.width s + 1) rest).map
          ((o + 1 + Text.width s, .closeParen) :: ·) :=
      Token.readAfter_cons rfl rfl rfl
    have hwidth : offset + Text.width (f.toList ++ '(' :: (s ++ [')'])) =
      o + 1 + Text.width s + 1 := by
      have hparens : Char.utf8Size '(' = 1 ∧ Char.utf8Size ')' = 1 := ⟨rfl, rfl⟩
      simp only [Text.width_append, Text.width_cons, Text.width_nil, hparens, o]
      omega
    rw [hwidth, List.append_assoc, List.cons_append, List.append_assoc, List.singleton_append,
      Token.readAfter_name hf rfl, hopen, h.scan (')' :: rest) rfl, hclose]
    simp [Option.map_map, Function.comp_def, o]
  read fuel rest hfuel hrest := by
    -- Each token gets more fuel than the readers that it takes to come to the argument.
    obtain ⟨t, ts, rfl, ht⟩ := h.opens
    simp only [List.length_cons, List.length_append, List.length_nil] at hfuel
    obtain ⟨n, rfl⟩ := Nat.exists_eq_add_of_le' (show 5 ≤ fuel by omega)
    let behind := (offset + Text.width f.toList + 1 + Text.width s, Token.closeParen) :: rest
    have hinner : Expr.read (n + 1) 0 (t :: (ts ++ behind)) = some (e, behind) :=
      h.read (n + 1) behind (by simp only [List.length_cons]; omega) rfl
    simp only [List.cons_append, List.append_assoc, List.nil_append]
    exact read_call (readItems_single ht hinner) hrest

theorem Spells.ofText? {text : String} (h : Spells text.toList 0 e tokens) :
    ofText? text = some e := by
  have hscan := h.scan [] rfl
  rw [List.append_nil] at hscan
  have hread := h.read (8 * (tokens.length + 1)) [] (by omega) rfl
  rw [List.append_nil] at hread
  simp [Expr.ofText?, Token.readAll, hscan, Token.readAfter, hread]

end Expr

def nested : List String → String
  | [] => "@"
  | f :: fs => f ++ "(" ++ nested fs ++ ")"

def nesting (offset : Nat) : List String → Expr
  | [] => .current
  | f :: fs =>
    .call (offset + Text.width f.toList) f [nesting (offset + Text.width f.toList + 1) fs]

theorem exists_spells_nested {names : List String} (h : ∀ f ∈ names, Token.isName f)
    (offset : Nat) :
    ∃ tokens, Expr.Spells (nested names).toList offset (nesting offset names) tokens := by
  induction names generalizing offset with
  | nil => exact ⟨_, Expr.spells_current offset⟩
  | cons f fs ih =>
    obtain ⟨hf, hfs⟩ := List.forall_mem_cons.mp h
    obtain ⟨tokens, htokens⟩ := ih hfs (offset + Text.width f.toList + 1)
    have hchars : (nested (f :: fs)).toList = f.toList ++ '(' :: ((nested fs).toList ++ [')']) := by
      simp [nested]
    rw [hchars]
    exact ⟨_, htokens.call hf⟩

theorem ofText?_nested {names : List String} (h : ∀ f ∈ names, Token.isName f) :
    Expr.ofText? (nested names) = some (nesting 0 names) := by
  obtain ⟨tokens, htokens⟩ := exists_spells_nested h 0
  exact htokens.ofText?

end Query
end Manifest
