import Manifest.Proofs.Query.Congruence

/-! The function calls that a search makes, in order, each with the state that it meets. They tell
which state the search leaves, and whether one of them stops it. -/
namespace Manifest

variable {σ α β : Type}

namespace Query

structure Call (σ : Type) where
  name : String
  args : List Datum
  world : σ

structure Traced (σ : Type) where
  world : σ
  calls : List (Call σ) := []

end Query

open Query (Call Traced)

def Function.traced (f : Function σ) : Function (Traced σ) where
  signature := f.signature
  body args := Run.onPart Traced.world (fun world t => { t with world }) (f.body args)

namespace Registry

def traced (r : Registry σ) : Registry (Traced σ) := ⟨r.entries.map fun e => (e.1, e.2.traced)⟩

theorem get?_traced (r : Registry σ) (name : String) :
    r.traced.get? name = (r.get? name).map Function.traced :=
  Assoc.find?_map (fun _ => Function.traced) name r.entries

@[simp] theorem contains_traced (r : Registry σ) (name : String) :
    r.traced.contains name = r.contains name := by
  simp [contains, get?_traced]

theorem exec_call_traced (r : Registry σ) (name : String) (args : List Value) (t : Traced σ) :
    Run.exec (r.traced.call name args) t =
      ((Run.exec (r.call name args) t.world).1,
        { t with world := (Run.exec (r.call name args) t.world).2 }) := by
  rw [call, call, get?_traced]
  cases r.get? name with
  | none => rfl
  | some f =>
    simp only [Option.map_some, Function.traced]
    split <;> rfl

end Registry

namespace Query

variable {registry : Registry σ}

def note (name : String) (args : List Datum) : Search (Traced σ) Unit :=
  Run.ofStep fun s =>
    (.ok (),
      { s with world := { s.world with calls := s.world.calls ++ [⟨name, args, s.world.world⟩] } })

def tracedCall (registry : Registry σ) (apply : Reference → Datum → Search (Traced σ) Datum)
    (offset : Nat) (name : String) (args : List Datum) : Search (Traced σ) Datum := do
  note name args
  call registry.traced apply offset name args

def tracedApply (registry : Registry σ) : Nat → Reference → Datum → Search (Traced σ) Datum
  | 0, _, _ => throw .tooDeep
  | depth + 1, r, x => r.body.eval (tracedCall registry (tracedApply registry depth)) x

def tracedSearch (registry : Registry σ) (e : Expr) (v : Value) : Search (Traced σ) Value := do
  let result ← e.eval (tracedCall registry (tracedApply registry depthLimit)) v.toSortedJson
  return Value.ofJson result

def calls (registry : Registry σ) (e : Expr) (v : Value) (world : σ) : List (Call σ) :=
  (Run.exec (tracedSearch registry e v) ⟨{ world }, none⟩).2.world.calls

namespace Call

def answer (registry : Registry σ) (c : Call σ) : Except Error Value × σ :=
  Run.exec (registry.call c.name (c.args.map Value.ofJson)) c.world

/-- The state behind a call itself; functions that are not registered have no effect of their
own. -/
def after (registry : Registry σ) (c : Call σ) : σ :=
  if registry.contains c.name then (c.answer registry).2 else c.world

def Raises (registry : Registry σ) (c : Call σ) (e : Error) : Prop :=
  registry.contains c.name ∧ (c.answer registry).1 = .error e

/-- A function that is not registered calculates a double that is not finite. -/
def Overflows (registry : Registry σ) (c : Call σ) (wanted : String) : Prop :=
  registry.contains c.name = false ∧
    ∃ x, Standard.number? c.name c.args = some (wanted, x) ∧ Decimal.isFinite x = false

/-- A call stops a search: why, and what it leaves in the slot. -/
inductive Stops (registry : Registry σ) (c : Call σ) : Failure → Option Error → Prop
  | raised {e : Error} (h : c.Raises registry e) : Stops registry c (.parse e.message) (some e)
  | overflow {wanted : String} (h : c.Overflows registry wanted) :
    Stops registry c (.parse s!"Expected to be a valid {wanted}") none

variable {c : Call σ} {e e' : Error} {wanted wanted' : String} {failure failure' : Failure}
  {slot slot' : Option Error}

theorem Raises.unique (h : c.Raises registry e) (h' : c.Raises registry e') : e = e' :=
  Except.error.inj (h.2.symm.trans h'.2)

theorem Overflows.unique (h : c.Overflows registry wanted) (h' : c.Overflows registry wanted') :
    wanted = wanted' := by
  obtain ⟨-, x, hx, -⟩ := h
  obtain ⟨-, y, hy, -⟩ := h'
  cases hx.symm.trans hy
  rfl

theorem Raises.not_overflows (h : c.Raises registry e) : ¬c.Overflows registry wanted := by
  rintro ⟨hname, -⟩
  rw [h.1] at hname
  cases hname

theorem Stops.unique (h : c.Stops registry failure slot) (h' : c.Stops registry failure' slot') :
    failure = failure' ∧ slot = slot' := by
  cases h with
  | raised h =>
    cases h' with
    | raised h' =>
      obtain rfl := h.unique h'
      exact ⟨rfl, rfl⟩
    | overflow h' => exact absurd h' h.not_overflows
  | overflow h =>
    cases h' with
    | raised h' => exact absurd h h'.not_overflows
    | overflow h' =>
      obtain rfl := h.unique h'
      exact ⟨rfl, rfl⟩

end Call

/-- Calls one after another take a state to another. The last one may stop the search. -/
inductive Explains (registry : Registry σ) :
    σ → List (Call σ) → Option (Failure × Option Error) → σ → Prop
  | nil (world : σ) : Explains registry world [] none world
  | cons {c : Call σ} {cs : List (Call σ)} {stop : Option (Failure × Option Error)} {world : σ}
    (hc : ∀ failure slot, ¬c.Stops registry failure slot)
    (hcs : Explains registry (c.after registry) cs stop world) :
    Explains registry c.world (c :: cs) stop world
  | stop {c : Call σ} {failure : Failure} {slot : Option Error}
    (hc : c.Stops registry failure slot) :
    Explains registry c.world [c] (some (failure, slot)) (c.after registry)

namespace Explains

variable {world world' world'' : σ} {cs ds : List (Call σ)} {stop : Option (Failure × Option Error)}

theorem append (h : Explains registry world cs none world')
    (h' : Explains registry world' ds stop world'') :
    Explains registry world (cs ++ ds) stop world'' := by
  generalize hnone : (none : Option (Failure × Option Error)) = s at h
  induction h with
  | nil => exact h'
  | cons hc _ ih => exact .cons hc (ih h' hnone)
  | stop => cases hnone

theorem single {c : Call σ} (hc : ∀ failure slot, ¬c.Stops registry failure slot) :
    Explains registry c.world [c] none (c.after registry) := .cons hc (.nil _)

theorem of_stops (h : Explains registry world cs stop world') {before behind : List (Call σ)}
    {c : Call σ} {failure : Failure} {slot : Option Error} (hcs : cs = before ++ c :: behind)
    (hc : c.Stops registry failure slot) :
    behind = [] ∧ stop = some (failure, slot) ∧ world' = c.after registry := by
  induction h generalizing before with
  | nil => simp at hcs
  | cons hno _ ih =>
    rcases before with _ | ⟨d, before⟩
    · obtain ⟨rfl, rfl⟩ := List.cons.inj hcs
      exact absurd hc (hno _ _)
    · exact ih (List.cons.inj hcs).2
  | stop hstop =>
    rcases before with _ | ⟨d, before⟩
    · obtain ⟨rfl, rfl⟩ := List.cons.inj hcs
      obtain ⟨rfl, rfl⟩ := hstop.unique hc
      exact ⟨rfl, rfl, rfl⟩
    · simp at hcs

theorem exists_of_some {failure : Failure} {slot : Option Error}
    (h : Explains registry world cs (some (failure, slot)) world') :
    ∃ before c, cs = before ++ [c] ∧ c.Stops registry failure slot := by
  generalize hsome : some (failure, slot) = s at h
  induction h with
  | nil => cases hsome
  | @cons c cs stop world _ _ ih =>
    obtain ⟨before, d, rfl, hd⟩ := ih hsome
    exact ⟨c :: before, d, rfl, hd⟩
  | stop hc =>
    cases hsome
    exact ⟨[], _, rfl, hc⟩

end Explains

/-- What a search comes to if a call stops it, or none does. -/
def Outcome (stop : Option (Failure × Option Error)) (r : Except Failure α)
    (slot : Option Error) : Prop :=
  match stop with
  | some (failure, raised) => r = .error failure ∧ slot = raised
  | none => slot = none ∧ ∀ failure, r = .error failure → failure.Plain

/-- A search with a record does what a search does, and the calls that it puts on record explain
it. -/
def Follows (registry : Registry σ) (x : Search (Traced σ) α) (y : Search σ α) : Prop :=
  ∀ world past, ∃ r world' slot cs stop,
    Run.exec x ⟨⟨world, past⟩, none⟩ = (r, ⟨⟨world', past ++ cs⟩, slot⟩) ∧
    Run.exec y ⟨world, none⟩ = (r, ⟨world', slot⟩) ∧
    Explains registry world cs stop world' ∧ Outcome stop r slot

theorem Follows.bind {x : Search (Traced σ) α} {y : Search σ α} {f : α → Search (Traced σ) β}
    {g : α → Search σ β} (hxy : Follows registry x y) (hfg : ∀ a, Follows registry (f a) (g a)) :
    Follows registry (x >>= f) (y >>= g) := by
  intro world past
  obtain ⟨r, world', slot, cs, stop, hx, hy, hcs, hout⟩ := hxy world past
  cases r with
  | error failure =>
    refine ⟨.error failure, world', slot, cs, stop, Run.exec_bind_of_error hx f,
      Run.exec_bind_of_error hy g, hcs, ?_⟩
    cases stop with
    | none => exact ⟨hout.1, fun failure' h => hout.2 failure' (by cases h; rfl)⟩
    | some s => exact ⟨by cases hout.1; rfl, hout.2⟩
  | ok a =>
    -- A search that goes on has not been stopped by a call.
    cases stop with
    | some s => cases hout.1
    | none =>
      obtain ⟨rfl, -⟩ := hout
      obtain ⟨r, world'', slot, ds, stop, hf, hg, hds, hout⟩ := hfg a world' (past ++ cs)
      rw [List.append_assoc] at hf
      exact ⟨r, world'', slot, cs ++ ds, stop, (Run.exec_bind_of_ok hx f).trans hf,
        (Run.exec_bind_of_ok hy g).trans hg, hcs.append hds, hout⟩

def trace (registry : Registry σ) : Congruence (Traced σ) σ where
  Rel := Follows registry
  rel_pure a world past :=
    ⟨.ok a, world, none, [], none, by simp, rfl, .nil world, rfl, nofun⟩
  rel_throw {_ failure} h world past :=
    ⟨.error failure, world, none, [], none, by simp, rfl, .nil world, rfl, fun _ hf =>
      by cases hf; exact h⟩
  rel_bind := Follows.bind

section Registered

variable {apply : Reference → Datum → Search σ Datum} {name : String} {args : List Datum}
  {s : Slotted σ}
  {world' : σ}

theorem exec_call_of_ok {v : Value} (hname : registry.contains name)
    (h : Run.exec (registry.call name (args.map Value.ofJson)) s.world = (.ok v, world'))
    (offset : Nat) :
    Run.exec (call registry apply offset name args) s =
      (.ok v.toSortedJson, { s with world := world' }) := by
  rw [call, if_pos hname, Run.exec_bind, Search.exec_ofRun, h]
  rfl

theorem exec_call_of_error {e : Error} (hname : registry.contains name)
    (h : Run.exec (registry.call name (args.map Value.ofJson)) s.world = (.error e, world'))
    (offset : Nat) :
    Run.exec (call registry apply offset name args) s =
      (.error (.parse e.message), ⟨world', some e⟩) := by
  rw [call, if_pos hname, Run.exec_bind, Search.exec_ofRun, h]

end Registered

namespace Call

variable {c : Call σ} {failure : Failure} {slot : Option Error}

theorem after_of_answer {r : Except Error Value} {world : σ} (hname : registry.contains c.name)
    (h : c.answer registry = (r, world)) : c.after registry = world := by
  rw [after, if_pos hname, h]

theorem not_stops_of_ok {v : Value} {world : σ} (hname : registry.contains c.name)
    (h : c.answer registry = (.ok v, world)) : ¬c.Stops registry failure slot := by
  rintro (⟨-, hraised⟩ | ⟨hnot, -⟩)
  · rw [h] at hraised
    cases hraised
  · rw [hname] at hnot
    cases hnot

/-- A function that is not registered stops a search itself only if it calculates a double. -/
theorem not_stops_of_number? (hname : registry.contains c.name = false)
    (h : ∀ wanted x, Standard.number? c.name c.args = some (wanted, x) → Decimal.isFinite x) :
    ¬c.Stops registry failure slot := by
  rintro (⟨hcontains, -⟩ | ⟨-, x, hx, hover⟩)
  · rw [hname] at hcontains
    cases hcontains
  · rw [h _ x hx] at hover
    cases hover

end Call

variable {apply : Reference → Datum → Search σ Datum}
  {apply' : Reference → Datum → Search (Traced σ) Datum}

theorem exec_tracedCall (offset : Nat) (name : String) (args : List Datum) (world : σ)
    (past : List (Call σ)) :
    Run.exec (tracedCall registry apply' offset name args) ⟨⟨world, past⟩, none⟩ =
      Run.exec (call registry.traced apply' offset name args)
        ⟨⟨world, past ++ [⟨name, args, world⟩]⟩, none⟩ := rfl

theorem follows_registered {name : String} (hname : registry.contains name) (offset : Nat)
    (args : List Datum) :
    Follows registry (tracedCall registry apply' offset name args)
      (call registry apply offset name args) := by
  intro world past
  let c : Call σ := ⟨name, args, world⟩
  have hname' : registry.traced.contains name := by rwa [registry.contains_traced]
  rw [exec_tracedCall]
  rcases hanswer : c.answer registry with ⟨r, world'⟩
  have htraced := registry.exec_call_traced name (args.map Value.ofJson) ⟨world, past ++ [c]⟩
  change _ = ((c.answer registry).1, (⟨(c.answer registry).2, past ++ [c]⟩ : Traced σ)) at htraced
  rw [hanswer] at htraced
  cases r with
  | ok v =>
    refine ⟨_, _, _, _, none, exec_call_of_ok hname' htraced offset,
      exec_call_of_ok (s := ⟨world, none⟩) hname hanswer offset, ?_, rfl, nofun⟩
    rw [← c.after_of_answer hname hanswer]
    exact .single fun _ _ => c.not_stops_of_ok hname hanswer
  | error e =>
    refine ⟨_, _, _, _, some (_, some e), exec_call_of_error hname' htraced offset,
      exec_call_of_error (s := ⟨world, none⟩) hname hanswer offset, ?_, rfl, rfl⟩
    rw [← c.after_of_answer hname hanswer]
    exact .stop (.raised ⟨hname, by rw [hanswer]⟩)

theorem exec_finite (wanted : String) (x : Float) (s : Slotted σ) :
    Run.exec (Standard.finite wanted x) s =
      (if Decimal.isFinite x then .ok (.float x)
        else .error (.parse s!"Expected to be a valid {wanted}"),
        s) := by
  unfold Standard.finite
  split <;> rfl

/-- The record of another call goes on with the calls that it makes in its turn. -/
theorem follows_unregistered {name : String} (hname : registry.contains name = false)
    (h : ∀ r x, Follows registry (apply' r x) (apply r x)) (offset : Nat) (args : List Datum) :
    Follows registry (tracedCall registry apply' offset name args)
      (call registry apply offset name args) := by
  intro world past
  let c : Call σ := ⟨name, args, world⟩
  have hname' : registry.traced.contains name = false := by rwa [registry.contains_traced]
  have hafter : c.after registry = world := if_neg (by rw [hname]; exact Bool.false_ne_true)
  have hanswers := (trace registry).answers_call hname' hname h offset args
  rw [exec_tracedCall]
  cases hnumber : Standard.number? name args with
  | none =>
    rw [hnumber] at hanswers
    obtain ⟨r, world', slot, cs, stop, hx, hy, hcs, hout⟩ := hanswers world (past ++ [c])
    rw [List.append_assoc] at hx
    refine ⟨r, world', slot, c :: cs, stop, hx, hy, ?_, hout⟩
    refine .cons (fun _ _ => c.not_stops_of_number? hname ?_) (by rwa [hafter])
    intro wanted x hx
    cases hnumber.symm.trans hx
  | some n =>
    obtain ⟨wanted, x⟩ := n
    rw [hnumber] at hanswers
    rw [hanswers.1, hanswers.2]
    simp only [exec_finite]
    cases hfinite : Decimal.isFinite x with
    | true =>
      refine ⟨.ok (.float x), world, none, [c], none, rfl, rfl, ?_, rfl, nofun⟩
      refine .cons (fun _ _ => c.not_stops_of_number? hname ?_) (hafter ▸ .nil _)
      intro wanted' x' hx
      cases hnumber.symm.trans hx
      exact hfinite
    | false =>
      have hexplains := Explains.stop (c := c) (.overflow ⟨hname, x, hnumber, hfinite⟩)
      rw [hafter] at hexplains
      exact ⟨_, world, none, [c], some (_, none), rfl, rfl, hexplains, rfl, rfl⟩

theorem follows_call (h : ∀ r x, Follows registry (apply' r x) (apply r x)) (offset : Nat)
    (name : String) (args : List Datum) :
    Follows registry (tracedCall registry apply' offset name args)
      (call registry apply offset name args) := by
  cases hname : registry.contains name with
  | true => exact follows_registered hname offset args
  | false => exact follows_unregistered hname h offset args

theorem follows_apply (depth : Nat) (r : Reference) (x : Datum) :
    Follows registry (tracedApply registry depth r x) (Query.apply registry depth r x) := by
  induction depth generalizing r x with
  | zero => exact (trace registry).rel_throw nofun
  | succ depth ih => exact (trace registry).rel_eval (follows_call ih) r.body x

theorem follows_search (e : Expr) (v : Value) :
    Follows registry (tracedSearch registry e v) (search registry e v) :=
  (trace registry).rel_bind_pure
    ((trace registry).rel_eval (follows_call (follows_apply depthLimit)) e v.toSortedJson) _

/-- The calls of a search explain what it leaves and what it comes to. -/
theorem explains_search (registry : Registry σ) (e : Expr) (v : Value) (world : σ) :
    ∃ r world' slot stop,
      Run.exec (tracedSearch registry e v) ⟨{ world }, none⟩ =
        (r, ⟨⟨world', calls registry e v world⟩, slot⟩) ∧
      Run.exec (search registry e v) { world } = (r, ⟨world', slot⟩) ∧
      Explains registry world (calls registry e v world) stop world' ∧ Outcome stop r slot := by
  obtain ⟨r, world', slot, cs, stop, hx, hy, hcs, hout⟩ := follows_search e v world []
  have hcalls : calls registry e v world = cs := by rw [calls, hx]; rfl
  exact ⟨r, world', slot, stop, by rw [hcalls]; exact hx, hy, hcalls ▸ hcs, hout⟩

end Query
end Manifest
