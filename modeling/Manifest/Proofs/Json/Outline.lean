import Manifest.Json.Outline
import Manifest.Proofs.Json.Reading

/-! The outlines that are read are those of the texts that the grammar of JSON allows: what is read
is in the grammar, and what is in the grammar is read. -/
namespace Manifest.Json.Outline

open Reader
  (Blanks Ends Listed skip skip_append skip_cons isSpace hexDigit? unescape? ends_append ends_cons)

variable {n : Nat} {s w rest : List Char}

section Words

def IsDigits (ds : List Char) : Prop := ds ≠ [] ∧ ∀ c ∈ ds, c.isDigit = true

/-- The digits before a decimal point: a zero, or others that do not begin with one. -/
def IsWhole (ds : List Char) : Prop := ds = ['0'] ∨ IsDigits ds ∧ ds.head? ≠ some '0'

def IsFraction (w : List Char) : Prop := w = [] ∨ ∃ ds, IsDigits ds ∧ w = '.' :: ds

def IsOneOf (cs w : List Char) : Prop := w = [] ∨ ∃ c ∈ cs, w = [c]

def IsExponent (w : List Char) : Prop :=
  w = [] ∨ ∃ mark sign ds, (mark = 'e' ∨ mark = 'E') ∧ IsOneOf ['+', '-'] sign ∧ IsDigits ds ∧
    w = mark :: sign ++ ds

/-- A number of the grammar. -/
def IsNumber (w : List Char) : Prop :=
  ∃ sign ds part power, IsOneOf ['-'] sign ∧ IsWhole ds ∧ IsFraction part ∧ IsExponent power ∧
    w = sign ++ ds ++ part ++ power

theorem eq_of_digits {ds : List Char} (h : digits s = some (ds, rest)) :
    IsDigits ds ∧ s = ds ++ rest := by
  unfold digits at h
  split at h
  · cases h
  · rename_i hne
    have hspan := Option.some.inj h
    obtain ⟨hds, hs⟩ := Decimal.eq_of_spanDigits hspan
    refine ⟨⟨?_, hds⟩, hs⟩
    rintro rfl
    exact hne _ hspan

theorem digits_append {ds : List Char} (h : IsDigits ds)
    (hrest : ∀ c ∈ rest.head?, c.isDigit = false) :
    digits (ds ++ rest) = some (ds, rest) := by
  rw [digits, Decimal.spanDigits_append h.2 hrest]
  split
  · rename_i heq
    exact absurd (congrArg Prod.fst heq) h.1
  · rfl

theorem oneOf_eq (cs s : List Char) :
    ∃ sign rest, oneOf cs s = (sign, rest) ∧ s = sign ++ rest ∧ IsOneOf cs sign := by
  cases s with
  | nil => exact ⟨[], [], rfl, rfl, .inl rfl⟩
  | cons c s =>
    by_cases hc : c ∈ cs
    · exact ⟨[c], s, if_pos hc, rfl, .inr ⟨c, hc, rfl⟩⟩
    · exact ⟨[], c :: s, if_neg hc, rfl, .inl rfl⟩

theorem oneOf_append {cs sign : List Char} (hsign : IsOneOf cs sign)
    (hrest : ∀ c ∈ rest.head?, c ∉ cs) :
    oneOf cs (sign ++ rest) = (sign, rest) := by
  rcases hsign with rfl | ⟨c, hc, rfl⟩
  · cases rest with
    | nil => rfl
    | cons c rest => exact if_neg (hrest c rfl)
  · exact if_pos hc

theorem eq_of_whole {ds : List Char} (h : whole s = some (ds, rest)) :
    IsWhole ds ∧ s = ds ++ rest := by
  unfold whole at h
  split at h
  · obtain ⟨rfl, rfl⟩ := Prod.mk.inj (Option.some.inj h)
    exact ⟨.inl rfl, rfl⟩
  · rename_i hne
    obtain ⟨hds, rfl⟩ := eq_of_digits h
    refine ⟨.inr ⟨hds, fun hhead => ?_⟩, rfl⟩
    obtain ⟨t, rfl⟩ := List.head?_eq_some_iff.mp hhead
    exact hne _ rfl

theorem whole_append {ds : List Char} (h : IsWhole ds)
    (hrest : ∀ c ∈ rest.head?, c.isDigit = false) :
    whole (ds ++ rest) = some (ds, rest) := by
  rcases h with rfl | ⟨hds, hhead⟩
  · rfl
  · rw [whole, digits_append hds hrest]
    rintro t heq
    cases ds with
    | nil => exact hds.1 rfl
    | cons c ds => exact hhead (congrArg some (List.cons.inj heq).1)

theorem eq_of_fraction (h : fraction s = some (w, rest)) : IsFraction w ∧ s = w ++ rest := by
  unfold fraction at h
  split at h
  · obtain ⟨⟨ds, rest'⟩, hds, heq⟩ := Option.map_eq_some_iff.mp h
    obtain ⟨rfl, rfl⟩ := Prod.mk.inj heq
    obtain ⟨hdigits, rfl⟩ := eq_of_digits hds
    exact ⟨.inr ⟨ds, hdigits, rfl⟩, rfl⟩
  · obtain ⟨rfl, rfl⟩ := Prod.mk.inj (Option.some.inj h)
    exact ⟨.inl rfl, rfl⟩

theorem fraction_append (h : IsFraction w) (hrest : ∀ c ∈ rest.head?, c.isDigit = false ∧ c ≠ '.') :
    fraction (w ++ rest) = some (w, rest) := by
  rcases h with rfl | ⟨ds, hds, rfl⟩
  · rw [List.nil_append, fraction]
    rintro t rfl
    exact (hrest _ rfl).2 rfl
  · simp only [List.cons_append, fraction, digits_append hds fun c hc => (hrest c hc).1,
      Option.map_some]

theorem eq_of_exponent (h : exponent s = some (w, rest)) : IsExponent w ∧ s = w ++ rest := by
  cases s with
  | nil =>
    obtain ⟨rfl, rfl⟩ := Prod.mk.inj (Option.some.inj h)
    exact ⟨.inl rfl, rfl⟩
  | cons mark s =>
    simp only [exponent] at h
    split_ifs at h with hmark
    · obtain ⟨sign, tail, hsign, rfl, hkind⟩ := oneOf_eq ['+', '-'] s
      rw [hsign] at h
      obtain ⟨⟨ds, rest'⟩, hds, heq⟩ := Option.map_eq_some_iff.mp h
      obtain ⟨rfl, rfl⟩ := Prod.mk.inj heq
      obtain ⟨hdigits, rfl⟩ := eq_of_digits hds
      exact ⟨.inr ⟨mark, sign, ds, hmark, hkind, hdigits, rfl⟩, by simp⟩
    · obtain ⟨rfl, rfl⟩ := Prod.mk.inj (Option.some.inj h)
      exact ⟨.inl rfl, rfl⟩

theorem IsDigits.exists_cons {ds : List Char} (h : IsDigits ds) :
    ∃ c t, ds = c :: t ∧ c.isDigit = true := by
  cases ds with
  | nil => exact absurd rfl h.1
  | cons c t => exact ⟨c, t, rfl, h.2 c (List.mem_cons_self ..)⟩

theorem IsWhole.exists_cons {ds : List Char} (h : IsWhole ds) :
    ∃ c t, ds = c :: t ∧ c.isDigit = true := by
  rcases h with rfl | ⟨h, -⟩
  · exact ⟨'0', [], rfl, by decide⟩
  · exact h.exists_cons

theorem exponent_append (h : IsExponent w)
    (hrest : ∀ c ∈ rest.head?, c.isDigit = false ∧ c ≠ 'e' ∧ c ≠ 'E') :
    exponent (w ++ rest) = some (w, rest) := by
  rcases h with rfl | ⟨mark, sign, ds, hmark, hsign, hds, rfl⟩
  · cases rest with
    | nil => rfl
    | cons c rest => exact if_neg (not_or.mpr (hrest c rfl).2)
  · have hnosign : ∀ c ∈ (ds ++ rest).head?, c ∉ ['+', '-'] := by
      obtain ⟨d, t, rfl, hdigit⟩ := hds.exists_cons
      intro c hc
      obtain rfl := Option.some.inj hc
      rintro (_ | ⟨_, _ | ⟨_, ⟨⟩⟩⟩) <;> exact absurd hdigit (by decide)
    simp only [List.cons_append, List.append_assoc, exponent, if_pos hmark,
      oneOf_append hsign hnosign,
      digits_append hds fun c hc => (hrest c hc).1, Option.map_some]

theorem eq_of_number (h : number s = some (w, rest)) : IsNumber w ∧ s = w ++ rest := by
  obtain ⟨sign, s₁, hsign, rfl, hkind⟩ := oneOf_eq ['-'] s
  simp only [number, hsign, Option.bind_eq_bind, Option.bind_eq_some_iff] at h
  obtain ⟨⟨ds, s₂⟩, hwhole, ⟨part, s₃⟩, hpart, ⟨power, s₄⟩, hpower, heq⟩ := h
  obtain ⟨rfl, rfl⟩ := Prod.mk.inj (Option.some.inj heq)
  obtain ⟨hds, rfl⟩ := eq_of_whole hwhole
  obtain ⟨hfraction, rfl⟩ := eq_of_fraction hpart
  obtain ⟨hexponent, rfl⟩ := eq_of_exponent hpower
  exact ⟨⟨sign, ds, part, power, hkind, hds, hfraction, hexponent, rfl⟩, by simp⟩

theorem IsFraction.head (h : IsFraction w) (hrest : ∀ c ∈ rest.head?, c.isDigit = false) :
    ∀ c ∈ (w ++ rest).head?, c.isDigit = false := by
  rcases h with rfl | ⟨ds, -, rfl⟩
  · exact hrest
  · intro c hc
    obtain rfl := Option.some.inj hc
    decide

theorem IsExponent.head (h : IsExponent w) (hrest : ∀ c ∈ rest.head?, c.isDigit = false ∧ c ≠ '.') :
    ∀ c ∈ (w ++ rest).head?, c.isDigit = false ∧ c ≠ '.' := by
  rcases h with rfl | ⟨mark, -, -, hmark, -, -, rfl⟩
  · exact hrest
  · intro c hc
    obtain rfl := Option.some.inj hc
    rcases hmark with rfl | rfl <;> decide

theorem number_append (h : IsNumber w) (hrest : Ends rest) :
    number (w ++ rest) = some (w, rest) := by
  obtain ⟨sign, ds, part, power, hsign, hds, hpart, hpower, rfl⟩ := h
  have hpoint := hpower.head fun c hc => ⟨(hrest c hc).1, (hrest c hc).2.1⟩
  have hfirst := hpart.head fun c hc => (hpoint c hc).1
  have hnosign : ∀ c ∈ (ds ++ (part ++ (power ++ rest))).head?, c ∉ ['-'] := by
    obtain ⟨d, t, rfl, hdigit⟩ := hds.exists_cons
    intro c hc
    obtain rfl := Option.some.inj hc
    rintro (_ | ⟨_, ⟨⟩⟩)
    exact absurd hdigit (by decide)
  simp only [List.append_assoc, number, oneOf_append hsign hnosign, whole_append hds hfirst,
    fraction_append hpart hpoint,
    exponent_append hpower fun c hc => ⟨(hrest c hc).1, (hrest c hc).2.2⟩,
    Option.bind_eq_bind, Option.bind_some, Option.pure_def]

end Words

section Strings

/-- The inside of a string of the grammar. An escape with four hexadecimal digits may be half of a
pair. -/
inductive IsBody : List Char → Prop
  | nil : IsBody []
  | plain {c : Char} {s : List Char} (hquote : c ≠ '"') (hslash : c ≠ '\\') (hc : ¬c.toNat < 0x20)
    (h : IsBody s) :
      IsBody (c :: s)
  | short {c : Char} {s : List Char} (hc : (unescape? c).isSome = true) (h : IsBody s) :
    IsBody ('\\' :: c :: s)
  | hex {a b c d : Char} {s : List Char}
    (hhex : [a, b, c, d].all (fun x => (hexDigit? x).isSome) = true)
      (h : IsBody s) : IsBody ('\\' :: 'u' :: a :: b :: c :: d :: s)

theorem eq_of_stringBody (h : stringBody s = some (w, rest)) : IsBody w ∧ s = w ++ '"' :: rest := by
  induction s using stringBody.induct generalizing w with
  | case1 => cases h
  | case2 s =>
    obtain ⟨rfl, rfl⟩ := Prod.mk.inj (Option.some.inj h)
    exact ⟨.nil, rfl⟩
  | case3 a b c d s hhex ih =>
    rw [stringBody, if_pos hhex] at h
    obtain ⟨⟨cs, rest'⟩, hcs, heq⟩ := Option.map_eq_some_iff.mp h
    obtain ⟨rfl, rfl⟩ := Prod.mk.inj heq
    obtain ⟨hbody, rfl⟩ := ih hcs
    exact ⟨.hex hhex hbody, rfl⟩
  | case4 a b c d s hhex =>
    rw [stringBody, if_neg hhex] at h
    cases h
  | case5 c s hno hc ih =>
    rw [stringBody, if_pos hc] at h
    · obtain ⟨⟨cs, rest'⟩, hcs, heq⟩ := Option.map_eq_some_iff.mp h
      obtain ⟨rfl, rfl⟩ := Prod.mk.inj heq
      obtain ⟨hbody, rfl⟩ := ih hcs
      exact ⟨.short hc hbody, rfl⟩
    · exact hno
  | case6 c s hno hc =>
    rw [stringBody, if_neg hc] at h
    · cases h
    · exact hno
  | case7 c s hquote hhex hshort hc =>
    rw [stringBody.eq_5 _ _ hquote hhex hshort, if_pos hc] at h
    cases h
  | case8 c s hquote hhex hshort hc ih =>
    rw [stringBody.eq_5 _ _ hquote hhex hshort, if_neg hc] at h
    obtain ⟨⟨cs, rest'⟩, hcs, heq⟩ := Option.map_eq_some_iff.mp h
    obtain ⟨rfl, rfl⟩ := Prod.mk.inj heq
    obtain ⟨hbody, rfl⟩ := ih hcs
    exact ⟨.plain hquote (not_or.mp hc).2 (not_or.mp hc).1 hbody, rfl⟩

theorem stringBody_append (h : IsBody w) : stringBody (w ++ '"' :: rest) = some (w, rest) := by
  induction h with
  | nil => rfl
  | @plain c s hquote hslash hc h ih =>
    have hhex : ∀ (a b d e : Char) t, c = '\\' →
      s ++ '"' :: rest = 'u' :: a :: b :: d :: e :: t → False :=
      fun _ _ _ _ _ heq => absurd heq hslash
    have hshort : ∀ (d : Char) t, c = '\\' → s ++ '"' :: rest = d :: t → False :=
      fun _ _ heq => absurd heq hslash
    rw [List.cons_append, stringBody.eq_5 _ _ hquote hhex hshort,
      if_neg (not_or.mpr ⟨hc, hslash⟩), ih]
    rfl
  | @short c s hc h ih =>
    have hu : c ≠ 'u' := by
      rintro rfl
      cases hc
    have hno : ∀ a b e f t, ¬(c = 'u' ∧ s ++ '"' :: rest = a :: b :: e :: f :: t) :=
      fun _ _ _ _ _ h => hu h.1
    rw [List.cons_append, List.cons_append, stringBody]
    · rw [if_pos hc, ih]
      rfl
    · simpa using hno
  | hex hhex h ih => simp only [List.cons_append, stringBody, if_pos hhex, ih, Option.map_some]

end Strings

section Values

variable {α : Type} {R R' : α → List Char → Prop} {inner inner' : Outline → List Char → Prop}
  {close : Char}
  {as : List α} {x : Outline} {d k : Nat} {b : List Char}

def Trailing (R : α → List Char → Prop) (a : α) (s : List Char) : Prop :=
  ∃ u b, R a u ∧ Blanks b ∧ s = u ++ b

/-- A container behind its opening character, given how what is in it is written. -/
inductive Entries (R : α → List Char → Prop) (close : Char) : List α → List Char → Prop
  | nil {b : List Char} (hb : Blanks b) : Entries R close [] (b ++ [close])
  | listed {as : List α} {s : List Char} (h : Listed (Trailing R) close as s) : Entries R close as s

inductive Member (inner : Outline → List Char → Prop) : List Char × Outline → List Char → Prop
  | mk {key b b' u : List Char} {x : Outline} (hkey : IsBody key) (hb : Blanks b) (hb' : Blanks b')
    (h : inner x u) :
      Member inner (key, x) ('"' :: (key ++ '"' :: (b ++ ':' :: (b' ++ u))))

/-- How values other than containers are written. -/
inductive Scalar : Outline → List Char → Prop
  | null : Scalar (.word ['n', 'u', 'l', 'l']) ['n', 'u', 'l', 'l']
  | true : Scalar (.word ['t', 'r', 'u', 'e']) ['t', 'r', 'u', 'e']
  | false : Scalar (.word ['f', 'a', 'l', 's', 'e']) ['f', 'a', 'l', 's', 'e']
  | number {w : List Char} (h : IsNumber w) : Scalar (.word w) w
  | string {body : List Char} (h : IsBody body) : Scalar (.string body) ('"' :: (body ++ ['"']))

/-- How containers are written, given how what is in them is. -/
inductive Container (inner : Outline → List Char → Prop) : Outline → List Char → Prop
  | array {xs : List Outline} {s : List Char} (h : Entries inner ']' xs s) :
    Container inner (.array xs) ('[' :: s)
  | object {ms : List (List Char × Outline)} {s : List Char} (h : Entries (Member inner) '}' ms s) :
      Container inner (.object ms) ('{' :: s)

/-- How values are written in which containers stand at most so deep inside one another. -/
def Written : Nat → Outline → List Char → Prop
  | 0 => Scalar
  | d + 1 => fun x s => Scalar x s ∨ Container (Written d) x s

theorem written_of_scalar (h : Scalar x s) : Written d x s := by
  cases d with
  | zero => exact h
  | succ d => exact .inl h

/-- The texts of the grammar of JSON, with their outlines. -/
def IsText (x : Outline) (s : List Char) : Prop :=
  ∃ d b u b', Blanks b ∧ Written d x u ∧ Blanks b' ∧ s = b ++ (u ++ b')

section Soundness

theorem exists_blanks (s : List Char) : ∃ b, Blanks b ∧ s = b ++ skip s :=
  ⟨s.takeWhile isSpace, fun c hc => List.all_eq_true.mp List.all_takeWhile c hc,
    List.takeWhile_append_dropWhile.symm⟩

theorem exists_of_skip (h : skip s = w) : ∃ b, Blanks b ∧ s = b ++ w := h ▸ exists_blanks s

/-- Blanks, then what an entry is written as. -/
def Padded (R : α → List Char → Prop) (entry : List Char → Option (α × List Char)) : Prop :=
  ∀ s a rest, entry s = some (a, rest) → ∃ b u, Blanks b ∧ R a u ∧ s = b ++ (u ++ rest)

variable {entry : List Char → Option (α × List Char)}

theorem listed_of_entries (hentry : Padded R entry)
    (h : entries close entry n s = some (as, rest)) :
    ∃ t, Listed (Trailing R) close as t ∧ s = t ++ rest := by
  induction n generalizing s as with
  | zero => cases h
  | succ n ih =>
    simp only [entries, Option.bind_eq_bind, Option.bind_eq_some_iff] at h
    obtain ⟨⟨a, s₁⟩, ha, h⟩ := h
    obtain ⟨b, u, hb, hu, rfl⟩ := hentry s a s₁ ha
    simp only at h
    split at h
    · cases h
    rename_i c s₂ hskip
    obtain ⟨b', hb', rfl⟩ := exists_of_skip hskip
    split_ifs at h with hcomma hclose
    · obtain ⟨⟨as', rest'⟩, hmore, heq⟩ := Option.map_eq_some_iff.mp h
      obtain ⟨rfl, rfl⟩ := Prod.mk.inj heq
      obtain ⟨t, ht, rfl⟩ := ih hmore
      exact ⟨b ++ ((u ++ b') ++ ',' :: t), .cons hb ⟨u, b', hu, hb', rfl⟩ ht, by simp [hcomma]⟩
    · obtain ⟨rfl, rfl⟩ := Prod.mk.inj (Option.some.inj h)
      have hnil : Blanks [] := nofun
      exact ⟨b ++ ((u ++ b') ++ ([] ++ [close])), .last hb ⟨u, b', hu, hb', rfl⟩ hnil,
        by simp [hclose]⟩

theorem entries_of_container (hentry : Padded R entry)
    (h : container close entry s = some (as, rest)) :
    ∃ t, Entries R close as t ∧ s = t ++ rest := by
  unfold container at h
  split at h
  · cases h
  rename_i c s₁ hskip
  split_ifs at h with hclose
  · obtain ⟨rfl, rfl⟩ := Prod.mk.inj (Option.some.inj h)
    obtain ⟨b, hb, rfl⟩ := exists_of_skip hskip
    exact ⟨b ++ [close], .nil hb, by simp [hclose]⟩
  · obtain ⟨t, ht, hs⟩ := listed_of_entries hentry h
    exact ⟨t, .listed ht, hs⟩

theorem padded_member {item : List Char → Option (Outline × List Char)}
    (hitem : Padded inner item) :
    Padded (Member inner) (member item) := by
  intro s a rest h
  unfold member at h
  split at h
  · rename_i s₁ hquote
    obtain ⟨b, hb, rfl⟩ := exists_of_skip hquote
    simp only [Option.bind_eq_bind, Option.bind_eq_some_iff] at h
    obtain ⟨⟨key, s₂⟩, hkey, h⟩ := h
    obtain ⟨hbody, rfl⟩ := eq_of_stringBody hkey
    simp only at h
    split at h
    · rename_i s₃ hcolon
      obtain ⟨b', hb', rfl⟩ := exists_of_skip hcolon
      obtain ⟨⟨x, rest'⟩, hx, heq⟩ := Option.map_eq_some_iff.mp h
      obtain ⟨rfl, rfl⟩ := Prod.mk.inj heq
      obtain ⟨b'', u, hb'', hu, rfl⟩ := hitem _ _ _ hx
      exact ⟨b, _, hb, .mk hbody hb' hb'' hu, by simp⟩
    · cases h
  · cases h

/-- Every value that is read is one of the grammar. -/
theorem padded_value (d : Nat) : Padded (Written d) (value d) := by
  induction d using Nat.strongRecOn with
  | ind d ih =>
    intro s x rest h
    obtain ⟨b, hb, hs⟩ := exists_blanks s
    suffices hread : ∃ u, Written d x u ∧ skip s = u ++ rest by
      obtain ⟨u, hu, hskip⟩ := hread
      exact ⟨b, u, hb, hu, hskip ▸ hs⟩
    rw [value] at h
    split at h
    · obtain ⟨rfl, rfl⟩ := Prod.mk.inj (Option.some.inj h)
      exact ⟨_, written_of_scalar .null, ‹_›⟩
    · obtain ⟨rfl, rfl⟩ := Prod.mk.inj (Option.some.inj h)
      exact ⟨_, written_of_scalar .true, ‹_›⟩
    · obtain ⟨rfl, rfl⟩ := Prod.mk.inj (Option.some.inj h)
      exact ⟨_, written_of_scalar .false, ‹_›⟩
    · rename_i t hskip
      obtain ⟨⟨body, rest'⟩, hbody, heq⟩ := Option.map_eq_some_iff.mp h
      obtain ⟨rfl, rfl⟩ := Prod.mk.inj heq
      obtain ⟨hstring, rfl⟩ := eq_of_stringBody hbody
      exact ⟨_, written_of_scalar (.string hstring), by simp [hskip]⟩
    · rename_i t hskip
      cases d with
      | zero => cases h
      | succ d =>
        obtain ⟨⟨xs, rest'⟩, hxs, heq⟩ := Option.map_eq_some_iff.mp h
        obtain ⟨rfl, rfl⟩ := Prod.mk.inj heq
        obtain ⟨u, hu, rfl⟩ := entries_of_container (ih d (Nat.lt_succ_self d)) hxs
        exact ⟨_, .inr (.array hu), hskip⟩
    · rename_i t hskip
      cases d with
      | zero => cases h
      | succ d =>
        obtain ⟨⟨ms, rest'⟩, hms, heq⟩ := Option.map_eq_some_iff.mp h
        obtain ⟨rfl, rfl⟩ := Prod.mk.inj heq
        obtain ⟨u, hu, rfl⟩ := entries_of_container (padded_member (ih d (Nat.lt_succ_self d))) hms
        exact ⟨_, .inr (.object hu), hskip⟩
    · obtain ⟨⟨w, rest'⟩, hw, heq⟩ := Option.map_eq_some_iff.mp h
      obtain ⟨rfl, rfl⟩ := Prod.mk.inj heq
      obtain ⟨hnumber, hskip⟩ := eq_of_number hw
      exact ⟨_, written_of_scalar (.number hnumber), hskip⟩

theorem isText_of_ofText? {t : String} (h : ofText? t = some x) : IsText x t.toList := by
  unfold ofText? at h
  split at h
  · rename_i y rest hvalue
    split_ifs at h with hend
    obtain rfl := Option.some.inj h
    obtain ⟨b, u, hb, hu, hs⟩ := padded_value _ _ _ _ hvalue
    obtain ⟨b', hb', hrest⟩ := exists_of_skip (List.isEmpty_iff.mp hend)
    rw [List.append_nil] at hrest
    exact ⟨_, b, u, b', hb, hu, hb', hrest ▸ hs⟩
  · cases h

end Soundness

section Completeness

/-- Blanks, then what an entry is written as, are read as the entry. -/
def Read (R : α → List Char → Prop) (entry : List Char → Option (α × List Char)) : Prop :=
  ∀ b a u rest, Blanks b → R a u → Ends rest → entry (b ++ (u ++ rest)) = some (a, rest)

/-- Nothing is written with the closing character or white space at its start. -/
def Opens (R : α → List Char → Prop) (close : Char) : Prop :=
  ∀ a u, R a u → ∃ c t, u = c :: t ∧ isSpace c = false ∧ c ≠ close

variable {entry : List Char → Option (α × List Char)}

theorem entries_of_listed (hentry : Read R entry) (hclose : close = ']' ∨ close = '}')
    (h : Listed (Trailing R) close as s) (hn : as.length ≤ n) (rest : List Char) :
    entries close entry n (s ++ rest) = some (as, rest) := by
  have hspace : isSpace close = false := by rcases hclose with rfl | rfl <;> decide
  have hcomma : close ≠ ',' := by rcases hclose with rfl | rfl <;> decide
  induction h generalizing n with
  | @last a b b' s hb h hb' =>
    obtain ⟨n, rfl⟩ : ∃ k, n = k + 1 := Nat.exists_eq_add_of_le' hn
    obtain ⟨u, b'', hu, hb'', rfl⟩ := h
    have hread := hentry b a u (b'' ++ (b' ++ close :: rest)) hb hu
      (ends_append hb'' (Reader.ends_of_close hclose hb' rest))
    have hend : skip (b'' ++ (b' ++ close :: rest)) = close :: rest := by
      rw [skip_append hb'', skip_append hb', skip_cons hspace]
    simp only [List.append_assoc, List.singleton_append, entries, hread, hend, Option.bind_eq_bind,
      Option.bind_some,
      if_neg hcomma, if_true]
  | @cons a as b s t hb h ht ih =>
    obtain ⟨n, rfl⟩ : ∃ k, n = k + 1 :=
      Nat.exists_eq_add_of_le' (Nat.succ_le_of_lt (Nat.zero_lt_of_lt hn))
    obtain ⟨u, b', hu, hb', rfl⟩ := h
    have hread :=
      hentry b a u (b' ++ ',' :: (t ++ rest)) hb hu (ends_append hb' (ends_cons (by decide) _))
    have hmark : skip (b' ++ ',' :: (t ++ rest)) = ',' :: (t ++ rest) := by
      rw [skip_append hb', skip_cons (by decide)]
    have hmore := ih (Nat.le_of_succ_le_succ hn)
    simp only [List.append_assoc, List.cons_append, entries, hread, hmark, Option.bind_eq_bind,
      Option.bind_some,
      if_true, hmore, Option.map_some]

theorem Opens.skip_listed (hopens : Opens R close) (h : Listed (Trailing R) close as s)
    (rest : List Char) :
    ∃ c t, skip (s ++ rest) = c :: t ∧ c ≠ close := by
  have hfirst : ∀ {b u tail : List Char} {a : α}, Blanks b → Trailing R a u →
      ∃ c t, skip (b ++ (u ++ tail) ++ rest) = c :: t ∧ c ≠ close := by
    rintro b _ tail a hb ⟨u, b', hu, -, rfl⟩
    obtain ⟨c, t, rfl, hspace, hc⟩ := hopens a u hu
    exact ⟨c, t ++ (b' ++ (tail ++ rest)), by simp [skip_append hb, skip_cons hspace], hc⟩
  cases h with
  | last hb h => exact hfirst hb h
  | cons hb h => exact hfirst hb h

theorem container_of_entries (hentry : Read R entry) (hopens : Opens R close)
    (hclose : close = ']' ∨ close = '}')
    (h : Entries R close as s) (rest : List Char) :
    container close entry (s ++ rest) = some (as, rest) := by
  have hspace : isSpace close = false := by rcases hclose with rfl | rfl <;> decide
  cases h with
  | @nil b hb =>
    have hskip : skip (b ++ close :: rest) = close :: rest := by
      rw [skip_append hb, skip_cons hspace]
    simp only [List.append_assoc, List.singleton_append, container, hskip, if_true]
  | listed h =>
    have hlength : as.length ≤ (s ++ rest).length := by
      rw [List.length_append]
      exact h.length_le.trans (Nat.le_add_right ..)
    have hread := entries_of_listed hentry hclose h hlength rest
    obtain ⟨c, t, hskip, hc⟩ := hopens.skip_listed h rest
    simp only [container, hskip, if_neg hc, hread]

theorem read_member {item : List Char → Option (Outline × List Char)} (hitem : Read inner item) :
    Read (Member inner) (member item) := by
  intro b a u rest hb hu hrest
  cases hu with
  | @mk key b' b'' u x hkey hb' hb'' hu =>
    have hquote : ∀ t, skip (b ++ '"' :: t) = '"' :: t :=
      fun t => by rw [skip_append hb, skip_cons (by decide)]
    have hcolon : ∀ t, skip (b' ++ ':' :: t) = ':' :: t :=
      fun t => by rw [skip_append hb', skip_cons (by decide)]
    simp only [List.cons_append, List.append_assoc, member, hquote, stringBody_append hkey, hcolon,
      hitem b'' x u rest hb'' hu hrest, Option.bind_eq_bind, Option.bind_some, Option.map_some]

theorem opens_member : Opens (Member inner) '}' := by
  rintro a u ⟨_, _, _, _⟩
  exact ⟨_, _, rfl, by decide, by decide⟩

theorem IsNumber.exists_cons (h : IsNumber w) :
    ∃ c t, w = c :: t ∧ (c.isDigit = true ∨ c = '-') := by
  obtain ⟨sign, ds, part, power, hsign, hds, -, -, rfl⟩ := h
  rcases hsign with rfl | ⟨c, hc, rfl⟩
  · obtain ⟨c, t, rfl, hc⟩ := hds.exists_cons
    exact ⟨c, _, rfl, .inl hc⟩
  · exact ⟨c, _, rfl, .inr (List.mem_singleton.mp hc)⟩

theorem opens_written (d : Nat) : Opens (Written d) ']' := by
  have hscalar : Opens Scalar ']' := by
    intro x u h
    cases h with
    | number h =>
      obtain ⟨c, t, rfl, hc⟩ := h.exists_cons
      exact ⟨c, t, rfl, (Reader.ne_of_intText_head hc).1, (Reader.ne_of_intText_head hc).2.1⟩
    | _ => exact ⟨_, _, rfl, by decide, by decide⟩
  intro x u h
  cases d with
  | zero => exact hscalar x u h
  | succ d =>
    rcases h with h | h
    · exact hscalar x u h
    · cases h <;> exact ⟨_, _, rfl, by decide, by decide⟩

theorem value_eq_number {c : Char} (hc : c.isDigit = true ∨ c = '-') (s : List Char) :
    value d (c :: s) = (number (c :: s)).map fun (written, rest) => (.word written, rest) := by
  obtain ⟨hspace, hother⟩ := Reader.ne_of_intText_head hc
  rw [value, skip_cons hspace]
  split <;> simp_all

theorem value_append (hb : Blanks b) (s : List Char) : value d (b ++ s) = value d s := by
  rw [value, value, skip_append hb]

theorem value_of_scalar (h : Scalar x s) (hrest : Ends rest) :
    value d (s ++ rest) = some (x, rest) := by
  cases h with
  | null => rw [value, List.cons_append, skip_cons (by decide)]; rfl
  | true => rw [value, List.cons_append, skip_cons (by decide)]; rfl
  | false => rw [value, List.cons_append, skip_cons (by decide)]; rfl
  | number h =>
    obtain ⟨c, t, rfl, hc⟩ := h.exists_cons
    rw [List.cons_append, value_eq_number hc, ← List.cons_append, number_append h hrest]
    rfl
  | string h =>
    rw [value, List.cons_append, skip_cons (by decide)]
    simp only [List.append_assoc, List.singleton_append, stringBody_append h, Option.map_some]

/-- Every value of the grammar is read. -/
theorem read_value (d : Nat) : Read (Written d) (value d) := by
  induction d with
  | zero =>
    intro b x u rest hb hu hrest
    rw [value_append hb, value_of_scalar hu hrest]
  | succ d ih =>
    intro b x u rest hb hu hrest
    rw [value_append hb]
    rcases hu with hu | hu
    · exact value_of_scalar hu hrest
    cases hu with
    | array h =>
      have hread := container_of_entries ih (opens_written d) (.inl rfl) h rest
      rw [value, List.cons_append, skip_cons (by decide)]
      simp only [hread, Option.map_some]
    | object h =>
      have hread := container_of_entries (read_member ih) opens_member (.inr rfl) h rest
      rw [value, List.cons_append, skip_cons (by decide)]
      simp only [hread, Option.map_some]

theorem Entries.imp (h : Entries R close as s) (hR : ∀ a u, R a u → u.length < s.length → R' a u) :
    Entries R' close as s := by
  cases h with
  | nil hb => exact .nil hb
  | listed h =>
    refine .listed (h.imp ?_)
    rintro a _ ⟨u, b, hu, hb, rfl⟩ hlt
    refine ⟨u, b, hR a u hu ?_, hb, rfl⟩
    rw [List.length_append] at hlt
    omega

theorem Container.imp (h : Container inner x s)
    (hinner : ∀ y u, inner y u → u.length < s.length → inner' y u) :
    Container inner' x s := by
  cases h with
  | array h => exact .array (h.imp fun y u hu hlt => hinner y u hu (hlt.trans (by simp)))
  | object h =>
    refine .object (h.imp ?_)
    rintro _ _ ⟨hkey, hb, hb', hu⟩ hlt
    refine .mk hkey hb hb' (hinner _ _ hu (lt_trans ?_ (hlt.trans (by simp))))
    simp only [List.length_append, List.length_cons]
    omega

theorem Written.of_length_le (h : Written d x s) (hk : s.length ≤ k) : Written k x s := by
  induction d generalizing x s k with
  | zero => exact written_of_scalar h
  | succ d ih =>
    rcases h with h | h
    · exact written_of_scalar h
    have hpos : 0 < s.length := by cases h <;> simp
    obtain ⟨k, rfl⟩ : ∃ m, k = m + 1 := Nat.exists_eq_add_of_le' (hpos.trans_le hk)
    exact .inr (h.imp fun y u hu hlt => ih hu (by omega))

theorem ofText?_of_isText {t : String} (h : IsText x t.toList) : ofText? t = some x := by
  obtain ⟨d, b, u, b', hb, hu, hb', hs⟩ := h
  have hlength : u.length ≤ t.toList.length := by
    rw [hs, List.length_append, List.length_append]
    omega
  have hends : Ends b' := by
    have hnil := ends_append hb' Reader.ends_nil
    rwa [List.append_nil] at hnil
  have hread := read_value t.toList.length b x u b' hb (hu.of_length_le hlength) hends
  have hskip : skip b' = [] := by
    have hnil := skip_append hb' []
    rwa [List.append_nil] at hnil
  rw [← hs] at hread
  simp only [ofText?, hread, hskip, List.isEmpty_nil, if_true]

/-- Exactly the texts of the grammar are read, as their outlines. -/
theorem ofText?_eq_some_iff {t : String} : ofText? t = some x ↔ IsText x t.toList :=
  ⟨isText_of_ofText?, ofText?_of_isText⟩

end Completeness

end Values

section Readings

variable {y : Outline}

theorem string?_eq_some_iff {t : String} :
    string? y = some t ↔ ∃ body, y = .string body ∧ denoted? body = some t := by
  cases y with
  | string body => simp [string?]
  | _ => simp [string?]

theorem bool?_eq_some_iff {b : Bool} :
    bool? y = some b ↔
      y = .word (if b then ['t', 'r', 'u', 'e'] else ['f', 'a', 'l', 's', 'e']) := by
  cases y with
  | word w =>
    by_cases htrue : w = ['t', 'r', 'u', 'e']
    · subst htrue
      cases b <;> simp [bool?]
    by_cases hfalse : w = ['f', 'a', 'l', 's', 'e']
    · subst hfalse
      cases b <;> simp [bool?]
    · cases b <;> simp [bool?, htrue, hfalse]
  | _ => simp [bool?]

theorem int?_eq_some_iff {m : Int} : int? y = some m ↔
    y = .word (intText m) ∧ -0x8000000000000000 ≤ m ∧ m < 0x10000000000000000 := by
  cases y with
  | word w =>
    have hnumber : int? (.word w) = some m ↔
      Reader.number w = some ((.int m : Json Empty), []) := by
      rw [int?]
      split <;> simp_all
    rw [hnumber, Outline.word.injEq]
    refine ⟨Reader.eq_intText_of_number, ?_⟩
    rintro ⟨rfl, hmin, hmax⟩
    have hread := Reader.number_intText (ρ := Empty) hmin hmax Reader.ends_nil
    rwa [List.append_nil] at hread
  | _ => simp [int?]

end Readings

end Manifest.Json.Outline
