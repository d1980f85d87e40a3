import Manifest.Query

/-! The calls inside an expression, and the tokens that they are read from: the parenthesis that
opens the arguments comes right behind a name, or behind the parenthesis that closes an expression
which is a name. -/
namespace Manifest.Query

def Token.isNumber : Token → Bool
  | .number _ => true
  | _ => false

namespace Expr

def isField : Expr → Bool
  | .field _ => true
  | _ => false

mutual

/-- The calls inside an expression, with those in what it passes on to functions: where the
parenthesis of each stands, and the name. -/
def sites : Expr → List (Nat × String)
  | .current | .field _ | .literal _ | .index _ | .slice .. => []
  | .pipe left right | .or left right | .and left right | .compare _ left right | .select left right
  | .project left right => sites left ++ sites right
  | .not operand | .values operand | .flatten operand => sites operand
  | .list items => sitesOf items
  | .hash pairs => sitesUnder pairs
  | .call offset name args => (offset, name) :: sitesOf args
  | .reference _ body => sites body

def sitesOf : List Expr → List (Nat × String)
  | [] => []
  | e :: es => sites e ++ sitesOf es

def sitesUnder : List (String × Expr) → List (Nat × String)
  | [] => []
  | (_, e) :: es => sites e ++ sitesUnder es

end

/-- A token that the parenthesis of a call of a function may come behind. -/
def MayName (name : String) (t : Token) : Prop := t = .name name ∨ t = .closeParen

/-- Tokens in which a call stands. -/
def Stands (ts : Tokens) (site : Nat × String) : Prop :=
  ∃ before o t behind, ts = before ++ (o, t) :: (site.1, .openParen) :: behind ∧ MayName site.2 t

/-- Tokens in which each number has a closing bracket or a colon behind it. -/
inductive Closed : Tokens → Prop
  | nil : Closed []
  | token {o : Nat} {t : Token} {ts : Tokens} (ht : t.isNumber = false) (hts : Closed ts) :
    Closed ((o, t) :: ts)
  | number {o p : Nat} {n : Int} {t : Token} {ts : Tokens} (ht : t = .closeBracket ∨ t = .colon)
    (hts : Closed ts) : Closed ((o, .number n) :: (p, t) :: ts)

theorem Closed.append {us ts : Tokens} (hus : Closed us) (hts : Closed ts) : Closed (us ++ ts) := by
  induction hus with
  | nil => exact hts
  | token ht _ ih => exact .token ht ih
  | number ht _ ih => exact .number ht ih

theorem Closed.tail {u : Nat × Token} {ts : Tokens} (h : Closed (u :: ts)) : Closed ts := by
  cases h with
  | token _ hts => exact hts
  | number ht hts =>
    refine .token ?_ hts
    rcases ht with rfl | rfl <;> rfl

theorem Closed.behind_number {us ts : Tokens} {o : Nat} {n : Int}
    (h : Closed (us ++ (o, .number n) :: ts)) :
    ∃ p t vs, ts = (p, t) :: vs ∧ (t = .closeBracket ∨ t = .colon) := by
  generalize hall : us ++ (o, .number n) :: ts = all at h
  induction h generalizing us with
  | nil => simp at hall
  | token ht _ ih =>
    rcases us with _ | ⟨u, us⟩
    · cases hall
      cases ht
    · exact ih (List.cons.inj hall).2
  | @number o' p m t vs ht _ ih =>
    rcases us with _ | ⟨u, _ | ⟨u', us⟩⟩
    · cases hall
      exact ⟨p, t, vs, rfl, ht⟩
    · cases hall
      rcases ht with ht | ht <;> cases ht
    · exact ih (List.cons.inj (List.cons.inj hall).2).2

/-- What is read of the tokens `ts` up to `rest` has these calls. -/
structure Reads (ts : Tokens) (sites : List (Nat × String)) (rest : Tokens) : Prop where
  exists_closed : ∃ used, ts = used ++ rest ∧ Closed used
  stands : ∀ site ∈ sites, Stands ts site

section Reads

variable {ts mid rest : Tokens} {sites sites' : List (Nat × String)} {o : Nat} {t : Token}

theorem Stands.append {site : Nat × String} (h : Stands ts site) (used : Tokens) :
    Stands (used ++ ts) site := by
  obtain ⟨before, p, t, behind, rfl, ht⟩ := h
  exact ⟨used ++ before, p, t, behind, by rw [List.append_assoc], ht⟩

theorem Reads.refl (ts : Tokens) : Reads ts [] ts := ⟨⟨[], rfl, .nil⟩, nofun⟩

theorem Reads.trans (h : Reads ts sites mid) (h' : Reads mid sites' rest) :
    Reads ts (sites ++ sites') rest := by
  obtain ⟨used, rfl, hused⟩ := h.exists_closed
  obtain ⟨used', rfl, hused'⟩ := h'.exists_closed
  refine ⟨⟨used ++ used', (List.append_assoc ..).symm, hused.append hused'⟩, fun site hsite => ?_⟩
  rcases List.mem_append.mp hsite with hsite | hsite
  · exact h.stands site hsite
  · exact (h'.stands site hsite).append used

theorem Reads.behind (h : Reads ts sites rest) (ht : t.isNumber = false) :
    Reads ((o, t) :: ts) sites rest := by
  have htoken : Reads ((o, t) :: ts) [] ts := ⟨⟨[(o, t)], rfl, .token ht .nil⟩, nofun⟩
  exact htoken.trans h

theorem Reads.token (ht : t.isNumber = false) : Reads ((o, t) :: ts) [] ts :=
  (Reads.refl ts).behind ht

theorem Reads.skip (h : Reads ts sites ((o, t) :: rest)) (ht : t.isNumber = false) :
    Reads ts sites rest := by
  have htoken : Reads ts (sites ++ []) rest := h.trans (.token ht)
  rwa [List.append_nil] at htoken

end Reads

/-- If an expression is a name and the parenthesis of a call comes next, then the token before it
may name the function. -/
def Names (ts : Tokens) (e : Expr) (rest : Tokens) : Prop :=
  ∀ name o behind, e = .field name → rest = (o, .openParen) :: behind → Stands ts (o, name)

/-- An expression is read of the tokens `ts` up to `rest`. -/
structure Covers (ts : Tokens) (e : Expr) (rest : Tokens) : Prop where
  reads : Reads ts e.sites rest
  names : Names ts e rest

theorem Covers.behind {ts rest : Tokens} {e : Expr} {o : Nat} {t : Token} (h : Covers ts e rest)
    (ht : t.isNumber = false) : Covers ((o, t) :: ts) e rest where
  reads := h.reads.behind ht
  names name p behind he hrest := (h.names name p behind he hrest).append [(o, t)]

theorem Covers.of_reads {ts rest : Tokens} {e : Expr} (h : Reads ts e.sites rest)
    (he : e.isField = false) : Covers ts e rest where
  reads := h
  names name _ _ hname _ := by
    rw [hname] at he
    cases he

theorem reads_number {ts rest : Tokens} {a : Option Int} {o : Nat} {t : Token}
    (h : readNumber ts = (a, (o, t) :: rest)) (ht : t = .closeBracket ∨ t = .colon) :
    Reads ts [] rest := by
  unfold readNumber at h
  split at h
  · cases h
    exact ⟨⟨[_, _], rfl, .number ht .nil⟩, nofun⟩
  · cases h
    refine .token ?_
    rcases ht with rfl | rfl <;> rfl

theorem isNumber_of_closes {closes : Token → Bool} {t : Token}
    (hcloses : ∀ n, closes (.number n) = false)
    (ht : closes t) : t.isNumber = false := by
  cases t with
  | number n =>
    rw [hcloses n] at ht
    cases ht
  | _ => rfl

theorem covers_position {ts rest : Tokens} {e : Expr} (h : readPosition ts = some (e, rest)) :
    Covers ts e rest := by
  unfold readPosition at h
  dsimp only at h
  rcases hfirst : readNumber ts with ⟨a, us⟩
  rw [hfirst] at h
  dsimp only at h
  split at h
  · obtain ⟨n, -, hn⟩ := Option.map_eq_some_iff.mp h
    cases hn
    exact .of_reads (reads_number hfirst (.inl rfl)) rfl
  · next vs =>
    have hus := reads_number hfirst (.inr rfl)
    rcases hsecond : readNumber vs with ⟨b, ws⟩
    rw [hsecond] at h
    dsimp only at h
    split at h
    · cases h
      exact .of_reads (hus.trans (reads_number hsecond (.inl rfl))) rfl
    · next xs =>
      have hvs := reads_number hsecond (.inr rfl)
      rcases hthird : readNumber xs with ⟨c, ys⟩
      rw [hthird] at h
      dsimp only at h
      split at h
      · cases h
        exact .of_reads ((hus.trans hvs).trans (reads_number hthird (.inl rfl))) rfl
      · cases h
    · cases h
  · cases h

mutual

theorem covers_read {fuel power : Nat} {ts rest : Tokens} {e : Expr}
    (h : read fuel power ts = some (e, rest)) : Covers ts e rest := by
  match fuel with
  | 0 => simp [read] at h
  | fuel + 1 =>
    simp only [read, Option.bind_eq_bind, Option.bind_eq_some_iff, Prod.exists] at h
    obtain ⟨left, mid, hstart, hon⟩ := h
    exact covers_readOn (covers_readStart hstart) hon

theorem covers_readOn {fuel power : Nat} {ts mid rest : Tokens} {left e : Expr}
    (hleft : Covers ts left mid) (h : readOn fuel power left mid = some (e, rest)) :
    Covers ts e rest := by
  match fuel with
  | 0 => simp [readOn] at h
  | fuel + 1 =>
    rw [readOn] at h
    split at h
    · simp only [Option.bind_eq_bind, Option.bind_eq_some_iff, Prod.exists] at h
      obtain ⟨next, mid', hnext, hon⟩ := h
      exact covers_readOn (covers_readNext hleft hnext) hon
    · cases h
      exact hleft

theorem covers_readStart {fuel : Nat} {ts rest : Tokens} {e : Expr}
    (h : readStart fuel ts = some (e, rest)) : Covers ts e rest := by
  match fuel with
  | 0 => simp [readStart] at h
  | fuel + 1 =>
    rw [readStart.eq_def] at h
    dsimp only at h
    split at h
    case h_1 => cases h; exact .of_reads (.token rfl) rfl
    case h_2 o s ts =>
      cases h
      exact ⟨.token rfl, fun name p behind he hrest =>
        ⟨[], o, .name s, behind, by rw [hrest]; rfl, by
        cases he; exact .inl rfl⟩⟩
    case h_3 => cases h
    case h_4 hparen =>
      cases h
      exact ⟨.token rfl, fun name p behind he hrest => absurd hrest (hparen p behind)⟩
    case h_5 => cases h; exact .of_reads (.token rfl) rfl
    case h_6 | h_7 => exact covers_readProjection (.token (by rfl)) h
    case h_8 => exact covers_readFilter (.token (by rfl)) h
    case h_9 => exact (covers_readBracket h).behind rfl
    case h_10 =>
      simp only [Option.bind_eq_bind, Option.bind_eq_some_iff, Prod.exists] at h
      obtain ⟨pairs, mid, hpairs, h⟩ := h
      cases h
      exact .of_reads ((reads_readPairs hpairs).behind rfl) rfl
    case h_11 | h_12 =>
      simp only [Option.bind_eq_bind, Option.bind_eq_some_iff, Prod.exists] at h
      obtain ⟨body, mid, hbody, h⟩ := h
      cases h
      exact .of_reads ((covers_read hbody).reads.behind rfl) rfl
    case h_13 o ts =>
      simp only [Option.bind_eq_bind, Option.bind_eq_some_iff, Prod.exists] at h
      obtain ⟨inner, mid, hinner, h⟩ := h
      have hinner := covers_read hinner
      split at h
      · next p _ _ =>
        cases h
        obtain ⟨used, hused, -⟩ := hinner.reads.exists_closed
        refine ⟨(hinner.reads.skip rfl).behind rfl, fun name q behind _ hrest => ?_⟩
        exact ⟨(o, .openParen) :: used, p, .closeParen, behind, by rw [hused, hrest]; rfl, .inr rfl⟩
      · cases h
    case h_14 => cases h

theorem covers_readBracket {fuel : Nat} {ts rest : Tokens} {e : Expr}
    (h : readBracket fuel ts = some (e, rest)) : Covers ts e rest := by
  match fuel with
  | 0 => simp [readBracket] at h
  | fuel + 1 =>
    rw [readBracket.eq_def] at h
    dsimp only at h
    split at h
    case h_1 | h_2 => exact covers_readSubscript h
    case h_3 => exact covers_readProjection ((Reads.token (by rfl)).behind (by rfl)) h
    case h_4 =>
      simp only [Option.bind_eq_bind, Option.bind_eq_some_iff, Prod.exists] at h
      obtain ⟨items, mid, hitems, h⟩ := h
      cases h
      exact .of_reads (reads_readItems (fun _ => rfl) hitems) rfl

theorem covers_readSubscript {fuel : Nat} {ts rest : Tokens} {e : Expr}
    (h : readSubscript fuel ts = some (e, rest)) : Covers ts e rest := by
  match fuel with
  | 0 => simp [readSubscript] at h
  | fuel + 1 =>
    simp only [readSubscript, Option.bind_eq_bind, Option.bind_eq_some_iff, Prod.exists] at h
    obtain ⟨position, mid, hposition, h⟩ := h
    have hcovers := covers_position hposition
    split at h
    · exact covers_readProjection hcovers.reads h
    · cases h
      exact hcovers

theorem covers_readNext {fuel : Nat} {ts mid rest : Tokens} {left e : Expr}
    (hleft : Covers ts left mid) (h : readNext fuel left mid = some (e, rest)) :
    Covers ts e rest := by
  match fuel with
  | 0 => simp [readNext] at h
  | fuel + 1 =>
    rw [readNext.eq_def] at h
    dsimp only at h
    split at h
    case h_1 =>
      have hvalues : Reads ts (Expr.values left).sites _ := (hleft.reads.skip rfl).skip rfl
      exact covers_readProjection hvalues h
    case h_2 =>
      simp only [Option.bind_eq_bind, Option.bind_eq_some_iff, Prod.exists] at h
      obtain ⟨right, mid, hright, h⟩ := h
      cases h
      exact .of_reads ((hleft.reads.skip rfl).trans (covers_readDotted hright).reads) rfl
    case h_3 => exact covers_readProjection (((hleft.reads.skip rfl).skip rfl).skip rfl) h
    case h_4 => cases h
    case h_5 =>
      simp only [Option.bind_eq_bind, Option.bind_eq_some_iff, Prod.exists] at h
      obtain ⟨right, mid, hright, h⟩ := h
      cases h
      exact .of_reads ((hleft.reads.skip rfl).trans (covers_readSubscript hright).reads) rfl
    case h_6 | h_7 | h_8 | h_12 =>
      simp only [Option.bind_eq_bind, Option.bind_eq_some_iff, Prod.exists] at h
      obtain ⟨right, mid, hright, h⟩ := h
      cases h
      exact .of_reads ((hleft.reads.skip rfl).trans (covers_read hright).reads) rfl
    case h_9 offset ts' =>
      split at h
      · next name =>
        simp only [Option.bind_eq_bind, Option.bind_eq_some_iff, Prod.exists] at h
        obtain ⟨args, mid, hargs, h⟩ := h
        cases h
        -- What is on the left has told which token stands before the parenthesis.
        have hname := hleft.names name offset ts' rfl rfl
        have hreads := (hleft.reads.skip rfl).trans (reads_readItems (fun _ => rfl) hargs)
        exact .of_reads ⟨hreads.exists_closed, List.forall_mem_cons.mpr ⟨hname, hreads.stands⟩⟩ rfl
      · cases h
    case h_10 =>
      have hitems : Reads ts (Expr.flatten left).sites _ := hleft.reads.skip rfl
      exact covers_readProjection hitems h
    case h_11 => exact covers_readFilter (hleft.reads.skip rfl) h
    case h_13 => cases h

theorem covers_readFilter {fuel : Nat} {ts mid rest : Tokens} {left e : Expr}
    (hleft : Reads ts left.sites mid) (h : readFilter fuel left mid = some (e, rest)) :
    Covers ts e rest := by
  match fuel with
  | 0 => simp [readFilter] at h
  | fuel + 1 =>
    simp only [readFilter, Option.bind_eq_bind, Option.bind_eq_some_iff, Prod.exists] at h
    obtain ⟨condition, mid', hcondition, h⟩ := h
    split at h
    · simp only [Option.bind_eq_some_iff, Prod.exists] at h
      obtain ⟨right, mid'', hright, h⟩ := h
      cases h
      have hbody := (covers_read hcondition).reads.trans ((reads_readRest hright).behind rfl)
      exact .of_reads (hleft.trans hbody) rfl
    · cases h

theorem covers_readProjection {fuel power : Nat} {ts mid rest : Tokens} {left e : Expr}
    (hleft : Reads ts left.sites mid) (h : readProjection fuel left power mid = some (e, rest)) :
    Covers ts e rest := by
  match fuel with
  | 0 => simp [readProjection] at h
  | fuel + 1 =>
    simp only [readProjection, Option.bind_eq_bind, Option.bind_eq_some_iff, Prod.exists] at h
    obtain ⟨right, mid', hright, h⟩ := h
    cases h
    exact .of_reads (hleft.trans (reads_readRest hright)) rfl

theorem reads_readRest {fuel power : Nat} {ts rest : Tokens} {e : Expr}
    (h : readRest fuel power ts = some (e, rest)) : Reads ts e.sites rest := by
  match fuel with
  | 0 => simp [readRest] at h
  | fuel + 1 =>
    rw [readRest.eq_def] at h
    dsimp only at h
    split at h
    · exact (covers_readDotted h).reads.behind rfl
    · exact (covers_read h).reads
    · exact (covers_read h).reads
    · split at h
      · cases h
        exact .refl ts
      · cases h

theorem covers_readDotted {fuel power : Nat} {ts rest : Tokens} {e : Expr}
    (h : readDotted fuel power ts = some (e, rest)) : Covers ts e rest := by
  match fuel with
  | 0 => simp [readDotted] at h
  | fuel + 1 =>
    rw [readDotted.eq_def] at h
    dsimp only at h
    split at h
    case h_1 =>
      simp only [Option.bind_eq_bind, Option.bind_eq_some_iff, Prod.exists] at h
      obtain ⟨items, mid, hitems, h⟩ := h
      cases h
      exact .of_reads ((reads_readItems (fun _ => rfl) hitems).behind rfl) rfl
    case h_7 => cases h
    all_goals exact covers_read h

theorem reads_readItems {fuel : Nat} {closes : Token → Bool} {ts rest : Tokens} {es : List Expr}
    (hcloses : ∀ n, closes (.number n) = false) (h : readItems fuel closes ts = some (es, rest)) :
    Reads ts (sitesOf es) rest := by
  match fuel with
  | 0 => simp [readItems] at h
  | fuel + 1 =>
    rw [readItems.eq_def] at h
    dsimp only at h
    split at h
    · cases h
    · next o t us =>
      split at h
      · next ht =>
        cases h
        exact .token (isNumber_of_closes hcloses ht)
      · simp only [Option.bind_eq_bind, Option.bind_eq_some_iff, Prod.exists] at h
        obtain ⟨item, mid, hitem, h⟩ := h
        have hitem := (covers_read hitem).reads
        split at h
        · next vs =>
          split at h
          · split at h
            · cases h
            · simp only [Option.bind_eq_some_iff, Prod.exists] at h
              obtain ⟨items, mid', hitems, h⟩ := h
              cases h
              exact hitem.trans ((reads_readItems hcloses hitems).behind rfl)
          · cases h
        · simp only [Option.bind_eq_some_iff, Prod.exists] at h
          obtain ⟨items, mid', hitems, h⟩ := h
          cases h
          exact hitem.trans (reads_readItems hcloses hitems)

theorem reads_readPairs {fuel : Nat} {ts rest : Tokens} {pairs : List (String × Expr)}
    (h : readPairs fuel ts = some (pairs, rest)) : Reads ts (sitesUnder pairs) rest := by
  match fuel with
  | 0 => simp [readPairs] at h
  | fuel + 1 =>
    rw [readPairs.eq_def] at h
    dsimp only at h
    split at h
    · exact ((reads_readPair h).behind (by rfl)).behind (by rfl)
    · exact ((reads_readPair h).behind (by rfl)).behind (by rfl)
    · cases h

theorem reads_readPair {fuel : Nat} {key : String} {ts rest : Tokens} {pairs : List (String × Expr)}
    (h : readPair fuel key ts = some (pairs, rest)) : Reads ts (sitesUnder pairs) rest := by
  match fuel with
  | 0 => simp [readPair] at h
  | fuel + 1 =>
    simp only [readPair, Option.bind_eq_bind, Option.bind_eq_some_iff, Prod.exists] at h
    obtain ⟨value, mid, hvalue, h⟩ := h
    have hvalue := (covers_read hvalue).reads
    split at h
    · cases h
      exact hvalue.trans (.token rfl)
    · simp only [Option.bind_eq_some_iff, Prod.exists] at h
      obtain ⟨pairs, mid', hpairs, h⟩ := h
      cases h
      exact hvalue.trans ((reads_readPairs hpairs).behind rfl)
    · cases h

end

/-- A text that denotes an expression has a token behind each number, and the calls of the
expression. -/
theorem exists_tokens {text : String} {e : Expr} (h : ofText? text = some e) :
    ∃ tokens, Token.readAll text.toList = some tokens ∧ Closed tokens ∧
      ∀ site ∈ e.sites, Stands tokens site := by
  simp only [ofText?, Option.bind_eq_bind, Option.bind_eq_some_iff, Prod.exists] at h
  obtain ⟨tokens, htokens, e', rest, hread, h⟩ := h
  split at h
  · next hrest =>
    cases h
    have hreads := (covers_read hread).reads
    obtain ⟨used, hused, hclosed⟩ := hreads.exists_closed
    rw [List.isEmpty_iff.mp hrest, List.append_nil] at hused
    exact ⟨tokens, htokens, hused ▸ hclosed, hreads.stands⟩
  · cases h

end Expr
end Manifest.Query
