import Manifest.Proofs.Query.Errors
import Manifest.Proofs.Query.Naming
import Manifest.Proofs.Query.References

/-! Calls whose arguments are refused. Such a call ends the search that makes it. The error tells
the name that stands in front of the call's parenthesis in the text of the query. -/
namespace Manifest

namespace Query

open Json (Within)

variable {σ α β : Type}

namespace Arity

theorem check_eq_ok {a : Arity} {offset : Nat} {args : List Datum}
    (h : a.check offset args = .ok ())
    (offset' : Nat) : a.check offset' args = .ok () := by
  unfold check at h ⊢
  dsimp only at h ⊢
  split at h
  · cases h
  next hfew =>
  split at h
  · cases h
  next hmany =>
  rw [if_neg hfew, if_neg hmany]
  split at h
  · cases h
  · rfl

/-- The error for arguments that are refused tells the name in front of the call's parenthesis. -/
theorem exists_error_of_check {a : Arity} {offset : Nat} {args : List Datum} {failure : Failure}
    (h : a.check offset args = .error failure) (query : String) :
    ∃ cause, failure.error query = .arityOrType (nameBefore query offset) cause := by
  unfold check at h
  dsimp only at h
  split at h
  · cases h; exact ⟨_, rfl⟩
  split at h
  · cases h; exact ⟨_, rfl⟩
  split at h
  · cases h; exact ⟨_, rfl⟩
  · cases h

end Arity

def Standard.arity? (name : String) : Option Arity :=
  (Assoc.find? name (functions fun _ _ => (pure .null : Search Unit Datum))).map Standard.arity

theorem Standard.arity?_eq (apply : Reference → Datum → Search σ Datum) (name : String) :
    arity? name = (Assoc.find? name (functions apply)).map Standard.arity := by
  rw [arity?, ← Assoc.find?_map fun _ => Standard.arity, ← Assoc.find?_map fun _ => Standard.arity]
  rfl

namespace Call

/-- A call of a function that is not registered and does not take the arguments: they are too few,
too many, or one of them is of a wrong type. -/
def RefusedAt (registry : Registry σ) (c : Call σ) (offset : Nat) (failure : Failure) : Prop :=
  registry.contains c.name = false ∧
    ∃ a, Standard.arity? c.name = some a ∧ a.check offset c.args = .error failure

def Refused (registry : Registry σ) (c : Call σ) : Prop :=
  ∃ offset failure, c.RefusedAt registry offset failure

variable {registry : Registry σ} {c : Call σ}

theorem not_refused_of_contains (h : registry.contains c.name) : ¬c.Refused registry := by
  rintro ⟨_, _, hnot, -⟩
  rw [h] at hnot
  cases hnot

theorem not_refused_of_unknown (h : Standard.arity? c.name = none) : ¬c.Refused registry := by
  rintro ⟨_, _, -, a, ha, -⟩
  cases h.symm.trans ha

theorem not_refused_of_check {a : Arity} {offset : Nat} (ha : Standard.arity? c.name = some a)
    (h : a.check offset c.args = .ok ()) : ¬c.Refused registry := by
  rintro ⟨offset', _, -, b, hb, herror⟩
  cases ha.symm.trans hb
  rw [Arity.check_eq_ok h offset'] at herror
  cases herror

end Call

def Failure.IsRefusal : Failure → Prop
  | .tooFew .. | .tooMany .. | .wrongType .. => True
  | _ => False

/-- What a search comes to that makes calls: a result, a failure with no call refused, or the
failure of the last call, which stands among the sites. -/
inductive Settled (registry : Registry σ) (sites : List (Nat × String)) (Q : α → Prop) :
    List (Call σ) → Except Failure α → Option Error → Prop
  | done {cs : List (Call σ)} {a : α} (hcs : ∀ c ∈ cs, ¬c.Refused registry) (ha : Q a) :
    Settled registry sites Q cs (.ok a) none
  | failed {cs : List (Call σ)} {failure : Failure} {slot : Option Error}
    (hcs : ∀ c ∈ cs, ¬c.Refused registry) (hfailure : ¬failure.IsRefusal) :
    Settled registry sites Q cs (.error failure) slot
  | refused {cs : List (Call σ)} {c : Call σ} {offset : Nat} {failure : Failure}
    (hcs : ∀ d ∈ cs, ¬d.Refused registry) (hsite : (offset, c.name) ∈ sites)
    (hc : c.RefusedAt registry offset failure) :
    Settled registry sites Q (cs ++ [c]) (.error failure) none

/-- A search ends with the first call that is refused, and all that it comes to has a property. -/
def Settles (registry : Registry σ) (sites : List (Nat × String)) (Q : α → Prop)
    (x : Search (Traced σ) α) : Prop :=
  ∀ world past, ∃ r world' slot cs,
    Run.exec x ⟨⟨world, past⟩, none⟩ = (r, ⟨⟨world', past ++ cs⟩, slot⟩) ∧
    Settled registry sites Q cs r slot

variable {registry : Registry σ} {sites : List (Nat × String)} {Q : α → Prop} {R : β → Prop}

theorem Settled.append {cs ds : List (Call σ)} {r : Except Failure α} {slot : Option Error}
    (hcs : ∀ c ∈ cs, ¬c.Refused registry) (h : Settled registry sites Q ds r slot) :
    Settled registry sites Q (cs ++ ds) r slot := by
  cases h with
  | done hds ha => exact .done (List.forall_mem_append.mpr ⟨hcs, hds⟩) ha
  | failed hds hfailure => exact .failed (List.forall_mem_append.mpr ⟨hcs, hds⟩) hfailure
  | refused hds hsite hc =>
    rw [← List.append_assoc]
    exact .refused (List.forall_mem_append.mpr ⟨hcs, hds⟩) hsite hc

namespace Settles

theorem pure {a : α} (ha : Q a) : Settles registry sites Q (pure a) := fun world past =>
  ⟨.ok a, world, none, [], by simp, .done nofun ha⟩

theorem throw {failure : Failure} (h : ¬failure.IsRefusal) :
    Settles registry sites Q (throw failure) := fun world past =>
  ⟨.error failure, world, none, [], by simp, .failed nofun h⟩

theorem bind {x : Search (Traced σ) α} {f : α → Search (Traced σ) β}
    (hx : Settles registry sites Q x)
    (hf : ∀ a, Q a → Settles registry sites R (f a)) : Settles registry sites R (x >>= f) := by
  intro world past
  obtain ⟨r, world', slot, cs, hexec, hcs⟩ := hx world past
  cases hcs with
  | @done _ a hcs ha =>
    obtain ⟨r, world'', slot, ds, hexec', hds⟩ := hf a ha world' (past ++ cs)
    rw [List.append_assoc] at hexec'
    exact ⟨r, world'', slot, cs ++ ds, (Run.exec_bind_of_ok hexec f).trans hexec', hds.append hcs⟩
  | @failed _ failure _ hcs hfailure =>
    exact ⟨.error failure, world', slot, cs, Run.exec_bind_of_error hexec f, .failed hcs hfailure⟩
  | @refused cs c offset failure hcs hsite hc =>
    exact ⟨.error failure, world', none, cs ++ [c], Run.exec_bind_of_error hexec f,
      .refused hcs hsite hc⟩

theorem bind_pure {x : Search (Traced σ) α} {f : α → β} (hx : Settles registry sites Q x)
    (hf : ∀ a, Q a → R (f a)) : Settles registry sites R (do return f (← x)) :=
  hx.bind fun a ha => .pure (hf a ha)

theorem each {f : α → Search (Traced σ) β} (hf : ∀ a, Q a → Settles registry sites R (f a))
    {items : List α} (hitems : ∀ a ∈ items, Q a) :
    Settles registry sites (fun bs => ∀ b ∈ bs, R b) (Run.each f items) := by
  induction items with
  | nil => exact .pure nofun
  | cons a items ih =>
    obtain ⟨ha, hitems⟩ := List.forall_mem_cons.mp hitems
    exact (hf a ha).bind fun b hb => (ih hitems).bind_pure fun bs hbs =>
      List.forall_mem_cons.mpr ⟨hb, hbs⟩

end Settles

def Cited (sites : List (Nat × String)) (r : Reference) : Prop := r.body.sites ⊆ sites

section Expr

variable {call : Nat → String → List Datum → Search (Traced σ) Datum}

/-- Calls at the sites settle, on arguments in which the bodies of references call nothing
elsewhere. -/
def CallsSettle (registry : Registry σ) (sites : List (Nat × String))
    (call : Nat → String → List Datum → Search (Traced σ) Datum) : Prop :=
  ∀ offset name args, (offset, name) ∈ sites → (∀ x ∈ args, Within (Cited sites) x) →
    Settles registry sites (Within (Cited sites)) (call offset name args)

mutual

theorem settles_eval (hcall : CallsSettle registry sites call) (e : Expr) (he : e.sites ⊆ sites)
    {x : Datum} (hx : Within (Cited sites) x) :
    Settles registry sites (Within (Cited sites)) (e.eval call x) := by
  match e with
  | .current => exact .pure hx
  | .field name => exact .pure (Datum.within_field name hx)
  | .literal value => exact .pure (Json.within_embed value)
  | .index position => exact .pure (Datum.within_index position hx)
  | .slice start stop step =>
    rw [Expr.eval]
    split
    · exact .throw id
    · split
      · next items hitems =>
        exact .pure
          (.array fun y hy => Datum.within_of_array? hx hitems y (Datum.mem_of_mem_slice hy))
      · exact .pure .null
  | .pipe left right =>
    obtain ⟨hleft, hright⟩ := List.append_subset.mp he
    exact (settles_eval hcall left hleft hx).bind fun y hy => settles_eval hcall right hright hy
  | .or left right =>
    obtain ⟨hleft, hright⟩ := List.append_subset.mp he
    refine (settles_eval hcall left hleft hx).bind fun y hy => ?_
    split
    · exact .pure hy
    · exact settles_eval hcall right hright hx
  | .and left right =>
    obtain ⟨hleft, hright⟩ := List.append_subset.mp he
    refine (settles_eval hcall left hleft hx).bind fun y hy => ?_
    split
    · exact settles_eval hcall right hright hx
    · exact .pure hy
  | .not operand => exact (settles_eval hcall operand he hx).bind_pure fun _ _ => .bool _
  | .compare relation left right =>
    obtain ⟨hleft, hright⟩ := List.append_subset.mp he
    exact (settles_eval hcall left hleft hx).bind fun y _ =>
      (settles_eval hcall right hright hx).bind_pure fun z _ => Datum.within_relate relation y z
  | .select condition body =>
    obtain ⟨hcondition, hbody⟩ := List.append_subset.mp he
    refine (settles_eval hcall condition hcondition hx).bind fun y _ => ?_
    split
    · exact settles_eval hcall body hbody hx
    · exact .pure .null
  | .values operand => exact (settles_eval hcall operand he hx).bind_pure fun _ =>
      Datum.within_values
  | .flatten operand => exact (settles_eval hcall operand he hx).bind_pure fun _ =>
      Datum.within_flatten
  | .project left right =>
    obtain ⟨hleft, hright⟩ := List.append_subset.mp he
    refine (settles_eval hcall left hleft hx).bind fun y hy => ?_
    split
    · exact .pure .null
    · next items hitems =>
      have hright := Settles.each (fun z hz => settles_eval hcall right hright hz)
        (Datum.within_of_array? hy hitems)
      exact hright.bind_pure fun results hresults =>
        .array fun z hz => hresults z (List.mem_of_mem_filter hz)
  | .list items =>
    rw [Expr.eval]
    split
    · exact .pure .null
    · exact (settles_evalItems hcall items he hx).bind_pure fun _ => .array
  | .hash pairs =>
    rw [Expr.eval]
    split
    · exact .pure .null
    · exact (settles_evalPairs hcall pairs he hx).bind_pure fun members hmembers =>
        .object fun m hm => hmembers m (Assoc.mem_of_mem_sorted hm)
  | .call offset name args =>
    obtain ⟨hsite, hargs⟩ := List.cons_subset.mp he
    exact (settles_evalItems hcall args hargs hx).bind fun ys hys => hcall offset name ys hsite hys
  | .reference offset body => exact .pure (.reference he)

theorem settles_evalItems (hcall : CallsSettle registry sites call) (es : List Expr)
    (hes : Expr.sitesOf es ⊆ sites) {x : Datum} (hx : Within (Cited sites) x) :
    Settles registry sites (fun ys => ∀ y ∈ ys, Within (Cited sites) y)
      (Expr.evalItems call es x) := by
  match es with
  | [] => exact .pure nofun
  | e :: es =>
    obtain ⟨he, hes⟩ := List.append_subset.mp hes
    exact (settles_eval hcall e he hx).bind fun y hy =>
      (settles_evalItems hcall es hes hx).bind_pure fun ys hys => List.forall_mem_cons.mpr ⟨hy, hys⟩

theorem settles_evalPairs (hcall : CallsSettle registry sites call)
    (es : List (String × Expr)) (hes : Expr.sitesUnder es ⊆ sites) {x : Datum}
    (hx : Within (Cited sites) x) :
    Settles registry sites (fun ms => ∀ m ∈ ms, Within (Cited sites) m.2)
      (Expr.evalPairs call es x) := by
  match es with
  | [] => exact .pure nofun
  | (k, e) :: es =>
    obtain ⟨he, hes⟩ := List.append_subset.mp hes
    exact (settles_eval hcall e he hx).bind fun y hy =>
      (settles_evalPairs hcall es hes hx).bind_pure fun ms hms => List.forall_mem_cons.mpr ⟨hy, hms⟩

end

end Expr

section Standard

open Standard

section Keys

variable {apply : Datum → Search (Traced σ) Datum} {items : List Datum}
  (happly : ∀ x, Within (Cited sites) x → Settles registry sites (Within (Cited sites)) (apply x))
  (hitems : ∀ x ∈ items, Within (Cited sites) x)

include happly hitems

theorem settles_keysAfter (type : String) (n : Nat) :
    Settles registry sites (fun pairs => ∀ p ∈ pairs, Within (Cited sites) p.2)
      (keysAfter apply type n items) := by
  induction items generalizing n with
  | nil => exact .pure nofun
  | cons x xs ih =>
    obtain ⟨hx, hxs⟩ := List.forall_mem_cons.mp hitems
    refine (happly x hx).bind fun key _ => ?_
    split
    · exact (ih hxs (n + 1)).bind_pure fun pairs hpairs => List.forall_mem_cons.mpr ⟨hx, hpairs⟩
    · exact .throw id

theorem settles_keyed (wanted : String) :
    Settles registry sites (fun pairs => ∀ p ∈ pairs, Within (Cited sites) p.2)
      (keyed apply wanted items) := by
  cases items with
  | nil => exact .pure nofun
  | cons x xs =>
    obtain ⟨hx, hxs⟩ := List.forall_mem_cons.mp hitems
    refine (happly x hx).bind fun key _ => ?_
    have hrest := settles_keysAfter happly hxs (Datum.typeName key) 1
    cases key with
    | int | float | string =>
      exact hrest.bind_pure fun pairs hpairs => List.forall_mem_cons.mpr ⟨hx, hpairs⟩
    | _ => exact .throw id

theorem settles_extremeBy (wanted : Ordering → Bool) :
    Settles registry sites (Within (Cited sites)) (extremeBy apply wanted items) := by
  refine (settles_keyed happly hitems _).bind fun pairs hpairs => ?_
  cases pairs with
  | nil => exact .pure .null
  | cons p ps => exact .pure (hpairs _ (choose_mem wanted Prod.fst p ps))

theorem settles_sortBy : Settles registry sites (Within (Cited sites)) (sortBy apply items) := by
  refine (settles_keyed happly hitems _).bind_pure fun pairs hpairs => .array ?_
  exact List.forall_mem_map.mpr fun p hp => hpairs p (mem_ascending.mp hp)

end Keys

/-- What a function that every query has does with arguments that it takes. -/
def BodySettles (registry : Registry σ) (sites : List (Nat × String))
    (f : Standard (Traced σ)) : Prop :=
  ∀ args, (∀ x ∈ args, Within (Cited sites) x) →
    Settles registry sites (Within (Cited sites)) (f.body args)

theorem settles_finite (wanted : String) (x : Float) :
    Settles registry sites (Within (Cited sites)) (finite wanted x) := by
  unfold finite
  split
  · exact .pure (.float x)
  · exact .throw id

theorem bodySettles_arithmetic (f : Float → Float) : BodySettles registry sites (arithmetic f) :=
  fun _ _ => settles_finite _ _

theorem bodySettles_statistic (wanted : String) (f : List Datum → Float) :
    BodySettles registry sites (statistic wanted f) := fun _ _ => settles_finite _ _

theorem bodySettles_plain {p : Param} {f : Datum → Datum}
    (hf : ∀ x, Within (Cited sites) x → Within (Cited sites) (f x)) :
    BodySettles registry sites (plain p f) := by
  intro args hargs
  refine .pure (hf _ ?_)
  cases args with
  | nil => exact .null
  | cons x xs => exact hargs x List.mem_cons_self

theorem bodySettles_ofTexts (f : List Char → List Char → Bool) :
    BodySettles registry sites (ofTexts f) := by
  intro args _
  unfold ofTexts
  dsimp only
  split
  · exact .pure (.bool _)
  · exact .pure .null

theorem bodySettles_ofSortable {f : List Datum → Datum}
    (hf : ∀ items, (∀ x ∈ items, Within (Cited sites) x) → Within (Cited sites) (f items)) :
    BodySettles registry sites (ofSortable f) := by
  intro args hargs
  refine .pure (hf _ fun x hx => ?_)
  cases hfirst : args.head?.bind Datum.array? with
  | none =>
    rw [hfirst] at hx
    cases hx
  | some items =>
    rw [hfirst] at hx
    obtain ⟨y, hy, hitems⟩ := Option.bind_eq_some_iff.mp hfirst
    exact Datum.within_of_array? (hargs y (List.mem_of_head? hy)) hitems x hx

section Apply

variable {apply : Reference → Datum → Search (Traced σ) Datum}

theorem bodySettles_ofKeyed
    {f : (Datum → Search (Traced σ) Datum) → List Datum → Search (Traced σ) Datum}
    (hf : ∀ r items, Cited sites r → (∀ x ∈ items, Within (Cited sites) x) →
      Settles registry sites (Within (Cited sites)) (f (apply r) items)) :
    BodySettles registry sites (ofKeyed apply f) := by
  intro args hargs
  unfold ofKeyed
  dsimp only
  split
  · next items r =>
    simp only [List.forall_mem_cons, Json.within_array, Json.within_reference] at hargs
    exact hf r items hargs.2.1 hargs.1
  · exact .pure .null

/-- If what is done with expressions that are passed on settles, then so do the bodies of all
functions. -/
theorem bodySettles_functions (happly : ∀ r x, Cited sites r → Within (Cited sites) x →
      Settles registry sites (Within (Cited sites)) (apply r x)) :
    ∀ m ∈ functions apply, BodySettles registry sites m.2 := by
  have hbest : ∀ wanted, BodySettles registry sites
      (ofKeyed apply fun key => extremeBy key wanted) := fun wanted =>
    bodySettles_ofKeyed fun r items hr hitems =>
      settles_extremeBy (fun x => happly r x hr) hitems wanted
  simp only [functions, List.forall_mem_cons]
  refine ⟨bodySettles_arithmetic _, bodySettles_statistic _ _, bodySettles_arithmetic _, ?contains,
    bodySettles_ofTexts _, bodySettles_arithmetic _, ?join, bodySettles_plain ?keys,
    bodySettles_plain fun x _ => within_length x, ?map,
    bodySettles_ofSortable fun items => within_extreme _, hbest _, ?merge,
    bodySettles_ofSortable fun items => within_extreme _, hbest _, ?notNull,
    bodySettles_plain fun x => within_reverse, bodySettles_ofSortable ?sort,
    bodySettles_ofKeyed fun r items hr => settles_sortBy fun x => happly r x hr,
    bodySettles_ofTexts _, bodySettles_statistic _ _, bodySettles_plain fun x => within_toArray,
    bodySettles_plain fun x _ => within_toNumber x, bodySettles_plain fun x _ => within_toText x,
    bodySettles_plain fun x _ => .string _, bodySettles_plain fun x => Datum.within_values,
    List.forall_mem_nil _⟩
  case contains =>
    intro args _
    dsimp only
    split
    · exact .pure (within_contains ..)
    · exact .pure .null
  case join =>
    intro args _
    dsimp only
    split
    · exact .pure (.string _)
    · exact .pure .null
  case keys => exact fun x _ => .array (List.forall_mem_map.mpr fun m _ => .string _)
  case map =>
    intro args hargs
    dsimp only
    split
    · next r items =>
      simp only [List.forall_mem_cons, Json.within_array, Json.within_reference] at hargs
      exact (Settles.each (fun x hx => happly r x hargs.1 hx) hargs.2.1).bind_pure fun _ => .array
    · exact .pure .null
  case merge => exact fun args hargs => .pure (within_merge hargs)
  case notNull =>
    exact fun args hargs =>
      .pure (Datum.within_getD fun x hx => hargs x (List.mem_of_find?_eq_some hx))
  case sort => exact fun items hitems => .array fun x hx => hitems x (mem_ascending.mp hx)

end Apply

end Standard

variable {apply : Reference → Datum → Search (Traced σ) Datum}

/-- A function that is registered answers for itself. -/
theorem settles_registered {name : String} (hname : registry.contains name) (offset : Nat)
    (args : List Datum) :
    Settles registry sites (Within (Cited sites)) (tracedCall registry apply offset name args) := by
  intro world past
  let c : Call σ := ⟨name, args, world⟩
  have hc : ∀ d ∈ [c], ¬d.Refused registry :=
    List.forall_mem_singleton.mpr (Call.not_refused_of_contains hname)
  have hname' : registry.traced.contains name = true := by rwa [registry.contains_traced]
  rw [exec_tracedCall]
  rcases hanswer : c.answer registry with ⟨e | v, world'⟩
  all_goals
    have htraced := registry.exec_call_traced name (args.map Value.ofJson) ⟨world, past ++ [c]⟩
    change _ = ((c.answer registry).1, (⟨(c.answer registry).2, past ++ [c]⟩ : Traced σ)) at htraced
    rw [hanswer] at htraced
  · exact ⟨_, _, _, [c], exec_call_of_error hname' htraced offset, .failed hc id⟩
  · exact ⟨_, _, _, [c], exec_call_of_ok hname' htraced offset,
      .done hc (Value.within_toSortedJson v)⟩

/-- A call of a function that is not registered ends the search if its arguments are refused. -/
theorem settles_unregistered {name : String} (hname : registry.contains name = false) {offset : Nat}
    (hsite : (offset, name) ∈ sites)
    (happly : ∀ r x, Cited sites r → Within (Cited sites) x →
      Settles registry sites (Within (Cited sites)) (apply r x)) {args : List Datum}
    (hargs : ∀ x ∈ args, Within (Cited sites) x) :
    Settles registry sites (Within (Cited sites)) (tracedCall registry apply offset name args) := by
  intro world past
  let c : Call σ := ⟨name, args, world⟩
  have hname' : registry.traced.contains name = false := by rwa [registry.contains_traced]
  have harity := Standard.arity?_eq apply name
  rw [exec_tracedCall, call, if_neg (by rw [hname']; exact Bool.false_ne_true)]
  cases hfind : Assoc.find? name (Standard.functions apply) with
  | none =>
    rw [hfind, Option.map_none] at harity
    have hc : ∀ d ∈ [c], ¬d.Refused registry :=
      List.forall_mem_singleton.mpr (Call.not_refused_of_unknown harity)
    exact ⟨_, _, _, [c], rfl, .failed hc id⟩
  | some f =>
    rw [hfind, Option.map_some] at harity
    cases hcheck : f.arity.check offset args with
    | error failure =>
      dsimp only
      rw [Standard.call_of_refused hcheck]
      exact ⟨_, _, _, [] ++ [c], rfl,
        .refused (List.forall_mem_nil _) hsite ⟨hname, f.arity, harity, hcheck⟩⟩
    | ok =>
      have hc : ∀ d ∈ [c], ¬d.Refused registry :=
        List.forall_mem_singleton.mpr (Call.not_refused_of_check harity hcheck)
      have hbody := bodySettles_functions happly _ (Assoc.mem_of_find? hfind) args hargs
      obtain ⟨r, world', slot, cs, hexec, hcs⟩ := hbody world (past ++ [c])
      rw [List.append_assoc] at hexec
      dsimp only
      rw [Standard.call_of_check hcheck]
      exact ⟨r, world', slot, [c] ++ cs, hexec, hcs.append hc⟩

theorem callsSettle_tracedCall (happly : ∀ r x, Cited sites r → Within (Cited sites) x →
      Settles registry sites (Within (Cited sites)) (apply r x)) :
    CallsSettle registry sites (tracedCall registry apply) := by
  intro offset name args hsite hargs
  cases hname : registry.contains name with
  | true => exact settles_registered hname offset args
  | false => exact settles_unregistered hname hsite happly hargs

theorem settles_tracedApply (depth : Nat) {r : Reference} {x : Datum} (hr : Cited sites r)
    (hx : Within (Cited sites) x) :
    Settles registry sites (Within (Cited sites)) (tracedApply registry depth r x) := by
  induction depth generalizing r x with
  | zero => exact .throw id
  | succ depth ih => exact settles_eval (callsSettle_tracedCall fun _ _ => ih) r.body hr hx

/-- The search for an expression ends with the first call that is refused, which stands inside the
expression. -/
theorem settles_tracedSearch (registry : Registry σ) (e : Expr) (v : Value) :
    Settles registry e.sites (fun _ => True) (tracedSearch registry e v) := by
  have hcalls :
    CallsSettle registry e.sites (tracedCall registry (tracedApply registry depthLimit)) :=
    callsSettle_tracedCall fun _ _ => settles_tracedApply depthLimit
  have heval := settles_eval hcalls e (List.Subset.refl _) (Value.within_toSortedJson v)
  exact heval.bind_pure fun _ _ => trivial

theorem isName_of_arity? {name : String} {a : Arity} (h : Standard.arity? name = some a) :
    Token.isName name := by
  obtain ⟨f, hf, -⟩ := Option.map_eq_some_iff.mp h
  have hnames :
    ∀ name ∈ (Standard.functions fun _ _ => (pure .null : Search Unit Datum)).map Prod.fst,
      Token.isName name := by decide
  exact hnames name (List.mem_map_of_mem (f := Prod.fst) (Assoc.mem_of_find? hf))

/-- A query fails for arguments that a function does not take just if a call is refused; this is the
last call then. The error tells the name that the text of the query has in front of the parenthesis
of the call, which is inside the expression. It is the name of the function just if the call is
written plainly: the parenthesis comes right behind the name, and no other one right before it. -/
theorem refused_call_named {query : String} {e : Expr} (h : Compiles query e)
    (registry : Registry σ)
    (v : Value) (world : σ) :
    (∀ failure, (Run.exec (search registry e v) { world }).1 = .error failure → failure.IsRefusal →
      ∃ c ∈ calls registry e v world, c.Refused registry) ∧
    ∀ c ∈ calls registry e v world, c.Refused registry →
      ∃ before offset failure cause, calls registry e v world = before ++ [c] ∧
        (offset, c.name) ∈ e.sites ∧ c.RefusedAt registry offset failure ∧
        (Run.exec (search registry e v) { world }).1 = .error failure ∧
        (Run.exec (evaluate registry v query) world).1 =
          .error (.arityOrType (nameBefore query offset) cause) ∧
        (nameBefore query offset = c.name ↔ Plainly query (offset, c.name)) := by
  obtain ⟨r, slot, stop, htraced, hsearch, -, -, hresult⟩ := h.exists_explains registry v world
  obtain ⟨r', world', slot', cs, hexec, hsettled⟩ := settles_tracedSearch registry e v world []
  obtain ⟨rfl, hstate⟩ := Prod.mk.inj (htraced.symm.trans hexec)
  obtain ⟨hcalls, rfl⟩ : calls registry e v world = cs ∧ slot = slot' := by
    simp only [Slotted.mk.injEq, Traced.mk.injEq, List.nil_append] at hstate
    exact ⟨hstate.1.2, hstate.2⟩
  rw [hcalls, hsearch]
  cases hsettled with
  | done hcs => exact ⟨nofun, fun c hmem hc => absurd hc (hcs c hmem)⟩
  | failed hcs hfailure =>
    refine ⟨fun failure heq hrefusal => ?_, fun c hmem hc => absurd hc (hcs c hmem)⟩
    cases heq
    exact absurd hrefusal hfailure
  | @refused before d offset failure hbefore hsite hd =>
    refine ⟨fun _ _ _ => ⟨d, by simp, offset, failure, hd⟩, fun c hmem hc => ?_⟩
    rcases List.mem_append.mp hmem with hmem | hmem
    · exact absurd hc (hbefore c hmem)
    obtain rfl := List.mem_singleton.mp hmem
    obtain ⟨a, ha, hcheck⟩ := hd.2
    obtain ⟨cause, hcause⟩ := Arity.exists_error_of_check hcheck query
    refine ⟨before, offset, failure, cause, rfl, hsite, hd, rfl, ?_,
      Expr.nameBefore_eq_iff h.ofText hsite (isName_of_arity? ha)⟩
    rw [hresult, ← hcause]
    rfl

theorem compiles_length :
    Compiles "[0] || not_null( length(@))"
      (.or (.index 0) (.call 15 "not_null" [.call 23 "length" [.current]])) := ⟨by cbv, by cbv⟩

theorem refused_length :
    (⟨"length", [.bool true], ()⟩ : Call Unit).RefusedAt Registry.empty 23
      (.wrongType 23 0 "array|object|string" "boolean") := ⟨rfl, _, rfl, rfl⟩

/-- A blank in front of a name keeps the parenthesis before it away. -/
theorem refused_call_named_blank :
    Compiles "[0] || not_null( length(@))"
      (.or (.index 0) (.call 15 "not_null" [.call 23 "length" [.current]])) ∧
    calls Registry.empty (.or (.index 0) (.call 15 "not_null" [.call 23 "length" [.current]]))
      (.bool true) () = [⟨"length", [.bool true], ()⟩] ∧
    (⟨"length", [.bool true], ()⟩ : Call Unit).Refused Registry.empty ∧
    ∃ cause, (Run.exec (evaluate Registry.empty (.bool true) "[0] || not_null( length(@))") ()).1 =
      .error (.arityOrType "length" cause) := by
  have hcalls : calls Registry.empty
      (.or (.index 0) (.call 15 "not_null" [.call 23 "length" [.current]])) (.bool true) () =
        [⟨"length", [.bool true], ()⟩] := rfl
  obtain ⟨-, hnamed⟩ := refused_call_named compiles_length Registry.empty (.bool true) ()
  obtain ⟨-, offset, -, cause, -, hsite, -, -, hresult, hname⟩ :=
    hnamed ⟨"length", [.bool true], ()⟩ (by rw [hcalls]; exact List.mem_singleton.mpr rfl)
      ⟨_, _, refused_length⟩
  obtain rfl : offset = 23 := by simpa [Expr.sites, Expr.sitesOf] using hsite
  have hplain : Plainly "[0] || not_null( length(@))" (23, "length") :=
    ⟨"[0] || not_null( ".toList, "@))".toList, by decide, by decide, by decide⟩
  rw [hname.mpr hplain] at hresult
  exact ⟨compiles_length, hcalls, ⟨_, _, refused_length⟩, cause, hresult⟩

/-- Right behind a parenthesis that is open the name of a function has the parenthesis in it, and
what is before. -/
theorem refused_call_misnamed :
    Compiles "not_null(length(@))" (.call 8 "not_null" [.call 15 "length" [.current]]) ∧
    calls Registry.empty (.call 8 "not_null" [.call 15 "length" [.current]]) (.bool true) () =
      [⟨"length", [.bool true], ()⟩] ∧
    (⟨"length", [.bool true], ()⟩ : Call Unit).Refused Registry.empty ∧
    (Run.exec (evaluate Registry.empty (.bool true) "not_null(length(@))") ()).1 =
      .error (.arityOrType "not_null(length"
        "Argument 0 expects type array|object|string, given boolean") ∧
    "not_null(length" ≠ "length" :=
  ⟨⟨by cbv, by cbv⟩, rfl, ⟨_, _, refused_length⟩, by cbv, by decide⟩

end Query
end Manifest
