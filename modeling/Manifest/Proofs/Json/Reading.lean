import Manifest.Json.Reader
import Manifest.Json.Text
import Manifest.Proofs.Decimal.Digits

/-! JSON text that stands for a value, with blanks where a writer may put them, is read as that
value. -/
namespace Manifest.Json

namespace Reader

variable {ρ : Type} {d n : Nat} {c : Char} {b s t rest : List Char}

def Blanks (b : List Char) : Prop := ∀ c ∈ b, isSpace c = true

theorem skip_append (hb : Blanks b) (s : List Char) : skip (b ++ s) = skip s := by
  rw [skip, List.dropWhile_append_of_pos hb, ← skip]

theorem skip_cons (hc : isSpace c = false) (s : List Char) : skip (c :: s) = c :: s := by
  simp [skip, hc]

theorem value_append (hb : Blanks b) (s : List Char) :
    (value d (b ++ s) : Option (Json ρ × _)) = value d s := by
  rw [value, value, skip_append hb]

/-- No number goes on into this. -/
def Ends (rest : List Char) : Prop :=
  ∀ c ∈ rest.head?, c.isDigit = false ∧ c ≠ '.' ∧ c ≠ 'e' ∧ c ≠ 'E'

theorem ends_nil : Ends [] := nofun

theorem ends_cons (hc : c.isDigit = false ∧ c ≠ '.' ∧ c ≠ 'e' ∧ c ≠ 'E') (s : List Char) :
    Ends (c :: s) := fun _ he => Option.some.inj he ▸ hc

theorem ends_append (hb : Blanks b) (hs : Ends s) : Ends (b ++ s) := by
  cases b with
  | nil => exact hs
  | cons c b =>
    have hc : ((c = ' ' ∨ c = '\n') ∨ c = '\t') ∨ c = '\r' := by
      simpa [isSpace] using hb c (List.mem_cons_self ..)
    refine ends_cons ?_ _
    rcases hc with ((rfl | rfl) | rfl) | rfl <;> decide

section Strings

theorem hexDigit?_digitChar (h : n < 16) : hexDigit? (Nat.digitChar n) = some n := by
  have hall : ∀ n < 16, hexDigit? (Nat.digitChar n) = some n := by decide
  exact hall n h

theorem stringBody_short {d : Char} (hu : c ≠ 'u') (h : unescape? c = some d) (s : List Char) :
    stringBody ('\\' :: c :: s) = (stringBody s).map fun (cs, rest) => (d :: cs, rest) := by
  have hno : ∀ a b e f t, ¬(c = 'u' ∧ s = a :: b :: e :: f :: t) := fun _ _ _ _ _ h => hu h.1
  rw [stringBody]
  · simp only [h]
  · simpa using hno

theorem stringBody_hex (hn : n < 256) (s : List Char) :
    stringBody
      ('\\' :: 'u' :: '0' :: '0' :: Nat.digitChar (n / 16) :: Nat.digitChar (n % 16) :: s) =
      (stringBody s).map fun (cs, rest) => (Char.ofNat n :: cs, rest) := by
  have hhex : hex4? '0' '0' (Nat.digitChar (n / 16)) (Nat.digitChar (n % 16)) = some n := by
    have hzero : hexDigit? '0' = some 0 := by decide
    have hhigh := hexDigit?_digitChar (n := n / 16) (by omega)
    have hlow := hexDigit?_digitChar (n := n % 16) (by omega)
    simp only [hex4?, hzero, hhigh, hlow, Option.bind_eq_bind, Option.bind_some, Option.pure_def,
      Option.some.injEq]
    omega
  rw [stringBody, hhex]
  simp only
  rw [if_pos (Or.inl (by omega))]

theorem stringBody_plain (hquote : c ≠ '"') (hslash : c ≠ '\\') (hc : ¬c.toNat < 0x20)
    (s : List Char) :
    stringBody (c :: s) = (stringBody s).map fun (cs, rest) => (c :: cs, rest) := by
  rw [stringBody.eq_def]
  split <;> simp_all

theorem stringBody_escape (c : Char) (s : List Char) :
    stringBody (escape c ++ s) = (stringBody s).map fun (cs, rest) => (c :: cs, rest) := by
  unfold escape
  split_ifs with h1 h2 h3 h4 h5 h6 h7 h8
  · subst h1; exact stringBody_short (by decide) (by decide) s
  · subst h2; exact stringBody_short (by decide) (by decide) s
  · subst h3; exact stringBody_short (by decide) (by decide) s
  · subst h4; exact stringBody_short (by decide) (by decide) s
  · subst h5; exact stringBody_short (by decide) (by decide) s
  · subst h6; exact stringBody_short (by decide) (by decide) s
  · subst h7; exact stringBody_short (by decide) (by decide) s
  · have hread := stringBody_hex (n := c.toNat) (by omega) s
    rwa [Char.ofNat_toNat] at hread
  · exact stringBody_plain h1 h2 h8 s

theorem stringBody_flatMap_escape (cs rest : List Char) :
    stringBody (cs.flatMap escape ++ '"' :: rest) = some (cs, rest) := by
  induction cs with
  | nil => rfl
  | cons c cs ih =>
    rw [List.flatMap_cons, List.append_assoc, stringBody_escape, ih]
    rfl

end Strings

section Numbers

theorem fraction_of_ends (h : Ends rest) : fraction rest = some ([], rest) := by
  rw [fraction]
  rintro s rfl
  exact (h '.' rfl).2.1 rfl

theorem exponent_of_ends (h : Ends rest) : exponent rest = some (none, rest) := by
  cases rest with
  | nil => rfl
  | cons c s => simp only [exponent, if_neg (not_or.mpr (h c rfl).2.2)]

theorem unsigned_digits (negative : Bool) (n : Nat) (h : Ends rest) :
    unsigned negative (Decimal.digits n ++ rest) =
      some ((ofInteger negative n : Json ρ), rest) := by
  have hspan := Decimal.spanDigits_append
    (fun c => Decimal.isDigit_of_mem_digits (n := n)) fun c hc => (h c hc).1
  rw [unsigned, hspan]
  split
  · rename_i heq
    exact absurd (congrArg Prod.fst heq) Nat.toDigits_ne_nil
  · rename_i heq
    exact absurd (Decimal.digits_eq_zero_cons (congrArg Prod.fst heq)) (List.cons_ne_nil _ _)
  · rename_i heq
    obtain ⟨rfl, rfl⟩ := Prod.mk.inj heq
    simp [fraction_of_ends h, exponent_of_ends h, Decimal.value_digits]

theorem number_intText {m : Int} (hmin : -0x8000000000000000 ≤ m) (hmax : m < 0x10000000000000000)
    (h : Ends rest) : number (intText m ++ rest) = some ((.int m : Json ρ), rest) := by
  unfold intText
  split
  · rename_i hneg
    have hsize : 0 < m.natAbs ∧ m.natAbs ≤ 0x8000000000000000 := by omega
    rw [List.cons_append, number, unsigned_digits true _ h, ofInteger, if_pos rfl, if_pos hsize]
    congr 3
    omega
  · rename_i hneg
    have hsize : m.natAbs < 0x10000000000000000 := by omega
    rw [number, unsigned_digits false _ h, ofInteger, if_neg Bool.false_ne_true, if_pos hsize]
    · congr 3
      omega
    · -- The first digit is no sign.
      rintro s hs
      have hdigits : ∀ c ∈ Decimal.digits m.natAbs, c.isDigit = true :=
        fun c => Decimal.isDigit_of_mem_digits
      cases hds : Decimal.digits m.natAbs with
      | nil => exact Nat.toDigits_ne_nil hds
      | cons c ds =>
        rw [hds, List.cons_append, List.cons.injEq] at hs
        have hc := hdigits c (by simp [hds])
        rw [hs.1] at hc
        exact absurd hc (by decide)

theorem eq_nil_of_fraction (h : fraction s = some ([], rest)) : s = rest := by
  unfold fraction at h
  split at h
  · split at h
    · cases h
    · rename_i hne hspan
      exact (hne (Prod.mk.inj (Option.some.inj h)).1).elim
  · exact (Prod.mk.inj (Option.some.inj h)).2

theorem eq_nil_of_exponent (h : exponent s = some (none, rest)) : s = rest := by
  cases s with
  | nil => exact (Prod.mk.inj (Option.some.inj h)).2
  | cons c s =>
    simp only [exponent] at h
    split_ifs at h
    · split at h
      · cases h
      · cases h
    · exact (Prod.mk.inj (Option.some.inj h)).2

theorem eq_digits_of_unsigned {negative : Bool} {m : Int}
    (h : unsigned negative s = some ((.int m : Json ρ), [])) :
    ∃ k, s = Decimal.digits k ∧ (ofInteger negative k : Json ρ) = .int m := by
  unfold unsigned at h
  split at h
  · cases h
  · cases h
  rename_i whole rest hempty hzero hspan
  simp only [Option.bind_eq_bind, Option.bind_eq_some_iff] at h
  obtain ⟨⟨part, s₁⟩, hpart, ⟨power, s₂⟩, hpower, h⟩ := h
  simp only at h
  split_ifs at h with hplain
  · obtain ⟨hm, rfl⟩ := Prod.mk.inj (Option.some.inj h)
    obtain rfl := List.isEmpty_iff.mp hplain.1
    obtain rfl := Option.isNone_iff_eq_none.mp hplain.2
    obtain rfl := eq_nil_of_fraction hpart
    obtain rfl := eq_nil_of_exponent hpower
    obtain ⟨hdigits, hs⟩ := Decimal.eq_of_spanDigits hspan
    rw [List.append_nil] at hs
    subst hs
    by_cases hhead : s.head? = some '0'
    · obtain ⟨t, rfl⟩ := List.head?_eq_some_iff.mp hhead
      cases t with
      | nil => exact ⟨0, rfl, hm⟩
      | cons c t => exact absurd rfl (hzero _ _)
    · exact ⟨Decimal.value s, (Decimal.digits_value hdigits hempty hhead).symm, hm⟩
  · obtain ⟨hm, -⟩ := Prod.mk.inj (Option.some.inj h)
    cases hm

theorem eq_intText_of_number {m : Int} (h : number s = some ((.int m : Json ρ), [])) :
    s = intText m ∧ -0x8000000000000000 ≤ m ∧ m < 0x10000000000000000 := by
  unfold number at h
  split at h
  · obtain ⟨k, rfl, hk⟩ := eq_digits_of_unsigned h
    simp only [ofInteger, if_true] at hk
    split_ifs at hk with hrange
    obtain rfl := Json.int.inj hk
    have hneg : -(k : Int) < 0 := by omega
    have habs : (-(k : Int)).natAbs = k := by omega
    refine ⟨?_, by omega, by omega⟩
    rw [intText, if_pos hneg, habs]
  · obtain ⟨k, rfl, hk⟩ := eq_digits_of_unsigned h
    simp only [ofInteger, Bool.false_eq_true, if_false] at hk
    split_ifs at hk with hrange
    obtain rfl := Json.int.inj hk
    refine ⟨?_, by omega, by omega⟩
    rw [intText, if_neg (by omega), Int.natAbs_natCast]

theorem exists_intText (m : Int) : ∃ c cs, intText m = c :: cs ∧ (c.isDigit = true ∨ c = '-') := by
  have hdigits : ∃ c cs, Decimal.digits m.natAbs = c :: cs ∧ c.isDigit = true := by
    cases hds : Decimal.digits m.natAbs with
    | nil => exact absurd hds Nat.toDigits_ne_nil
    | cons c cs => exact ⟨c, cs, rfl, Decimal.isDigit_of_mem_digits (n := m.natAbs) (by simp [hds])⟩
  obtain ⟨c, cs, hc, hdigit⟩ := hdigits
  unfold intText
  split
  · exact ⟨'-', _, rfl, .inr rfl⟩
  · exact ⟨c, cs, hc, .inl hdigit⟩

end Numbers

section Values

variable {x : Json ρ} {xs : List (Json ρ)} {ms : List (String × Json ρ)}

/-- Entries behind one another with commas between them and a closing character at the end; blanks
may stand before each of them and before the end. -/
inductive Listed {α : Type} (R : α → List Char → Prop) (close : Char) : List α → List Char → Prop
  | last {a : α} {b b' s : List Char} (hb : Blanks b) (h : R a s) (hb' : Blanks b') :
      Listed R close [a] (b ++ (s ++ (b' ++ [close])))
  | cons {a : α} {as : List α} {b s t : List Char} (hb : Blanks b) (h : R a s)
    (ht : Listed R close as t) :
      Listed R close (a :: as) (b ++ (s ++ ',' :: t))

/-- How values other than containers are written; integers are those that stay exact. -/
inductive Scalar : Json ρ → List Char → Prop
  | null : Scalar .null ['n', 'u', 'l', 'l']
  | true : Scalar (.bool true) ['t', 'r', 'u', 'e']
  | false : Scalar (.bool false) ['f', 'a', 'l', 's', 'e']
  | int {m : Int} (hmin : -0x8000000000000000 ≤ m) (hmax : m < 0x10000000000000000) :
    Scalar (.int m) (intText m)
  | string (s : String) : Scalar (.string s) (quoted s)

def WrittenMember (inner : Json ρ → List Char → Prop) (m : String × Json ρ)
    (s : List Char) : Prop :=
  ∃ b u, Blanks b ∧ inner m.2 u ∧ s = quoted m.1 ++ ':' :: (b ++ u)

/-- How containers are written, given how what is in them is. -/
inductive Container (inner : Json ρ → List Char → Prop) : Json ρ → List Char → Prop
  | emptyArray : Container inner (.array []) ['[', ']']
  | array {xs : List (Json ρ)} {s : List Char} (h : Listed inner ']' xs s) :
    Container inner (.array xs) ('[' :: s)
  | emptyObject : Container inner (.object []) ['{', '}']
  | object {ms : List (String × Json ρ)} {s : List Char}
    (h : Listed (WrittenMember inner) '}' ms s) :
      Container inner (.object ms) ('{' :: s)

variable {inner : Json ρ → List Char → Prop}

/-- How values are written in which containers stand at most so deep inside one another. -/
def Written : Nat → Json ρ → List Char → Prop
  | 0 => Scalar
  | d + 1 => fun x s => Scalar x s ∨ Container (Written d) x s

theorem Listed.length_le {α : Type} {R : α → List Char → Prop} {close : Char} {as : List α}
    (h : Listed R close as s) : as.length ≤ s.length := by
  induction h with
  | last => simp only [List.length_append, List.length_cons]; omega
  | cons _ _ _ ih => simp only [List.length_append, List.length_cons]; omega

theorem Listed.imp {α : Type} {R R' : α → List Char → Prop} {close : Char} {as : List α}
    (h : Listed R close as s)
    (hR : ∀ a u, R a u → u.length < s.length → R' a u) : Listed R' close as s := by
  induction h with
  | @last a b b' s hb h hb' =>
    refine .last hb (hR a s h ?_) hb'
    simp only [List.length_append, List.length_cons]
    omega
  | @cons a as b s t hb h ht ih =>
    refine .cons hb (hR a s h ?_) (ih fun a u hu hlt => hR a u hu (Nat.lt_trans hlt ?_))
    · simp only [List.length_append, List.length_cons]
      omega
    · simp only [List.length_append, List.length_cons]
      omega

theorem listed_of_forall {α : Type} {R : α → List Char → Prop} {close : Char} {f : α → List Char}
    {more : List α → List Char} {b b' : List Char} (hb : Blanks b) (hb' : Blanks b')
    (hnil : more [] = [])
    (hcons : ∀ a as, more (a :: as) = ',' :: (b ++ (f a ++ more as))) {a : α} {as : List α}
    (h : ∀ e ∈ a :: as, R e (f e)) :
    Listed R close (a :: as) (b ++ (f a ++ (more as ++ (b' ++ [close])))) := by
  induction as generalizing a with
  | nil =>
    rw [hnil]
    exact .last hb (h a (List.mem_singleton_self a)) hb'
  | cons e as ih =>
    have hrest := ih fun x hx => h x (List.mem_cons_of_mem _ hx)
    have hfirst := h a (List.mem_cons_self ..)
    simpa [hcons] using Listed.cons hb hfirst hrest

theorem ends_of_close {close : Char} (hclose : close = ']' ∨ close = '}') (hb : Blanks b)
    (s : List Char) :
    Ends (b ++ close :: s) := by
  refine ends_append hb (ends_cons ?_ s)
  rcases hclose with rfl | rfl <;> decide

theorem items_of_listed {item : List Char → Option (Json ρ × List Char)}
    (hitem : ∀ x s rest, inner x s → Ends rest → item (s ++ rest) = some (x, rest))
    (hskip : ∀ b s, Blanks b → item (b ++ s) = item s) (h : Listed inner ']' xs s)
    (hn : xs.length ≤ n)
    (rest : List Char) : items item n (s ++ rest) = some (xs, rest) := by
  induction h generalizing n with
  | @last x b b' s hb h hb' =>
    obtain ⟨n, rfl⟩ : ∃ k, n = k + 1 := Nat.exists_eq_add_of_le' hn
    have hread := hitem x s (b' ++ ']' :: rest) h (ends_of_close (.inl rfl) hb' rest)
    have hend : skip (b' ++ ']' :: rest) = ']' :: rest := by
      rw [skip_append hb', skip_cons (by decide)]
    simp only [List.append_assoc, List.singleton_append, items, hskip b _ hb, hread, hend,
      Option.bind_eq_bind,
      Option.bind_some]
  | @cons x xs b s t hb h ht ih =>
    obtain ⟨n, rfl⟩ : ∃ k, n = k + 1 :=
      Nat.exists_eq_add_of_le' (Nat.succ_le_of_lt (Nat.zero_lt_of_lt hn))
    have hread := hitem x s (',' :: (t ++ rest)) h (ends_cons (by decide) _)
    have hcomma : skip (',' :: (t ++ rest)) = ',' :: (t ++ rest) := skip_cons (by decide) _
    have hmore := ih (Nat.le_of_succ_le_succ hn)
    simp only [List.append_assoc, List.cons_append, items, hskip b _ hb, hread, hcomma, hmore,
      Option.bind_eq_bind,
      Option.bind_some, Option.map_some]

theorem members_of_listed {item : List Char → Option (Json ρ × List Char)}
    (hitem : ∀ x s rest, inner x s → Ends rest → item (s ++ rest) = some (x, rest))
    (hskip : ∀ b s, Blanks b → item (b ++ s) = item s) (h : Listed (WrittenMember inner) '}' ms s)
    (hn : ms.length ≤ n) (rest : List Char) : members item n (s ++ rest) = some (ms, rest) := by
  have hkey : ∀ b (k : String) t, Blanks b →
      skip (b ++ (quoted k ++ t)) = '"' :: (k.toList.flatMap escape ++ '"' :: t) := by
    intro b k t hb
    rw [skip_append hb, quoted, List.cons_append, List.cons_append, skip_cons (by decide),
      List.append_assoc,
      List.singleton_append]
  have hcolon : ∀ s, skip (':' :: s) = ':' :: s := skip_cons (by decide)
  induction h generalizing n with
  | @last m b b' s hb h hb' =>
    obtain ⟨n, rfl⟩ : ∃ k, n = k + 1 := Nat.exists_eq_add_of_le' hn
    obtain ⟨k, x⟩ := m
    obtain ⟨b₂, u, hb₂, hu, rfl⟩ := h
    have hread := hitem x u (b' ++ '}' :: rest) hu (ends_of_close (.inr rfl) hb' rest)
    have hend : skip (b' ++ '}' :: rest) = '}' :: rest := by
      rw [skip_append hb', skip_cons (by decide)]
    simp only [List.append_assoc, List.nil_append, List.cons_append, members, hkey b k _ hb,
      stringBody_flatMap_escape, hcolon, hskip b₂ _ hb₂, hread, hend, Option.bind_eq_bind,
      Option.bind_some,
      String.ofList_toList]
  | @cons m ms b s t hb h ht ih =>
    obtain ⟨n, rfl⟩ : ∃ k, n = k + 1 :=
      Nat.exists_eq_add_of_le' (Nat.succ_le_of_lt (Nat.zero_lt_of_lt hn))
    obtain ⟨k, x⟩ := m
    obtain ⟨b₂, u, hb₂, hu, rfl⟩ := h
    have hread := hitem x u (',' :: (t ++ rest)) hu (ends_cons (by decide) _)
    have hcomma : skip (',' :: (t ++ rest)) = ',' :: (t ++ rest) := skip_cons (by decide) _
    have hmore := ih (Nat.le_of_succ_le_succ hn)
    simp only [List.append_assoc, List.cons_append, members, hkey b k _ hb,
      stringBody_flatMap_escape, hcolon,
      hskip b₂ _ hb₂, hread, hcomma, hmore, Option.bind_eq_bind, Option.bind_some, Option.map_some,
      String.ofList_toList]

theorem ne_of_intText_head (hc : c.isDigit = true ∨ c = '-') :
    isSpace c = false ∧ c ≠ ']' ∧ c ≠ 'n' ∧ c ≠ 't' ∧ c ≠ 'f' ∧ c ≠ '"' ∧ c ≠ '[' ∧ c ≠ '{' := by
  have hspace : c ≠ ' ' ∧ c ≠ '\n' ∧ c ≠ '\t' ∧ c ≠ '\r' := by
    refine ⟨?_, ?_, ?_, ?_⟩ <;> (rintro rfl; revert hc; decide)
  refine ⟨by simp [isSpace, hspace], ?_, ?_, ?_, ?_, ?_, ?_, ?_⟩ <;> (rintro rfl; revert hc; decide)

theorem value_eq_number (hc : c.isDigit = true ∨ c = '-') (s : List Char) :
    (value d (c :: s) : Option (Json ρ × _)) = number (c :: s) := by
  obtain ⟨hspace, hother⟩ := ne_of_intText_head hc
  rw [value, skip_cons hspace]
  split <;> simp_all

theorem value_of_scalar (h : Scalar x s) (hrest : Ends rest) :
    value d (s ++ rest) = some (x, rest) := by
  cases h with
  | null => rw [value, List.cons_append, skip_cons (by decide)]; rfl
  | true => rw [value, List.cons_append, skip_cons (by decide)]; rfl
  | false => rw [value, List.cons_append, skip_cons (by decide)]; rfl
  | @int m hmin hmax =>
    obtain ⟨c, cs, hm, hc⟩ := exists_intText m
    have hread := number_intText (ρ := ρ) hmin hmax hrest
    rw [hm, List.cons_append] at hread ⊢
    rw [value_eq_number hc, hread]
  | string t =>
    rw [value, quoted, List.cons_append, List.cons_append, skip_cons (by decide)]
    simp only [List.append_assoc, List.singleton_append, stringBody_flatMap_escape, Option.map_some,
      String.ofList_toList]

theorem exists_cons_of_scalar (h : Scalar x s) :
    ∃ c t, s = c :: t ∧ isSpace c = false ∧ c ≠ ']' := by
  cases h with
  | @int m =>
    obtain ⟨c, cs, hm, hc⟩ := exists_intText m
    exact ⟨c, cs, hm, (ne_of_intText_head hc).1, (ne_of_intText_head hc).2.1⟩
  | _ => exact ⟨_, _, rfl, by decide, by decide⟩

theorem exists_cons_of_written (h : Written d x s) :
    ∃ c t, s = c :: t ∧ isSpace c = false ∧ c ≠ ']' := by
  cases d with
  | zero => exact exists_cons_of_scalar h
  | succ d =>
    rcases h with h | h
    · exact exists_cons_of_scalar h
    · cases h <;> exact ⟨_, _, rfl, by decide, by decide⟩

/-- Behind an opening bracket with an item after it the array does not end at once. -/
theorem skip_ne_of_listed (h : Listed (Written d) ']' xs s) (t : List Char) :
    skip (s ++ rest) ≠ ']' :: t := by
  have hfirst : ∀ {b u tail : List Char} {x : Json ρ}, Blanks b → Written d x u →
      skip (b ++ (u ++ tail) ++ rest) ≠ ']' :: t := by
    intro b u tail x hb hu
    obtain ⟨c, cs, rfl, hspace, hc⟩ := exists_cons_of_written hu
    rw [List.append_assoc, skip_append hb, List.cons_append, List.cons_append, skip_cons hspace]
    exact fun heq => hc (List.cons.inj heq).1
  cases h with
  | last hb hu => exact hfirst hb hu
  | cons hb hu => exact hfirst hb hu

theorem skip_ne_of_listed_members {inner : Json ρ → List Char → Prop}
    (h : Listed (WrittenMember inner) '}' ms s) (t : List Char) : skip (s ++ rest) ≠ '}' :: t := by
  have hfirst : ∀ {b u tail : List Char} {m : String × Json ρ}, Blanks b → WrittenMember inner m u →
      skip (b ++ (u ++ tail) ++ rest) ≠ '}' :: t := by
    rintro b u tail m hb ⟨b₂, w, -, -, rfl⟩
    rw [List.append_assoc, skip_append hb, quoted, List.cons_append, List.cons_append,
      List.cons_append,
      List.cons_append, skip_cons (by decide)]
    exact fun heq => absurd (List.cons.inj heq).1 (by decide)
  cases h with
  | last hb hu => exact hfirst hb hu
  | cons hb hu => exact hfirst hb hu

/-- A text that a value is written as is read as that value. -/
theorem value_of_written (h : Written d x s) (hrest : Ends rest) :
    value d (s ++ rest) = some (x, rest) := by
  induction d generalizing x s rest with
  | zero => exact value_of_scalar h hrest
  | succ d ih =>
    rcases h with h | h
    · exact value_of_scalar h hrest
    have hitem : ∀ (x : Json ρ) s rest, Written d x s → Ends rest →
      value d (s ++ rest) = some (x, rest) :=
      fun x s rest h hrest => ih h hrest
    have hskip : ∀ b s, Blanks b → (value d (b ++ s) : Option (Json ρ × _)) = value d s :=
      fun b s hb => value_append hb s
    cases h with
    | emptyArray => rw [value, List.cons_append, skip_cons (by decide)]; rfl
    | emptyObject => rw [value, List.cons_append, skip_cons (by decide)]; rfl
    | @array xs s h =>
      have hlength : xs.length ≤ (s ++ rest).length := by
        rw [List.length_append]
        exact h.length_le.trans (Nat.le_add_right ..)
      have hread := items_of_listed hitem hskip h hlength rest
      have hopen : ∀ t, skip (s ++ rest) ≠ ']' :: t := skip_ne_of_listed h
      rw [value, List.cons_append, skip_cons (by decide)]
      -- The branch for the empty container is ruled out by `hopen`.
      simp only [hread, Option.map_some]
    | @object ms s h =>
      have hlength : ms.length ≤ (s ++ rest).length := by
        rw [List.length_append]
        exact h.length_le.trans (Nat.le_add_right ..)
      have hread := members_of_listed hitem hskip h hlength rest
      have hopen : ∀ t, skip (s ++ rest) ≠ '}' :: t := skip_ne_of_listed_members h
      rw [value, List.cons_append, skip_cons (by decide)]
      simp only [hread, Option.map_some]

end Values

end Reader

variable {ρ : Type} {x : Json ρ} {s : String}

theorem raw?_of_written (h : Reader.Written 127 x s.toList) : raw? s = some x := by
  have hread := Reader.value_of_written h Reader.ends_nil
  rw [List.append_nil] at hread
  rw [raw?, hread]
  rfl

end Manifest.Json
